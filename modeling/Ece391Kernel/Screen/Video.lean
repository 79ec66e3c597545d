import Ece391Kernel.Library.AccessTrace
import Ece391Kernel.Paging.Tables

/-!
# Printing on a screen

The output functions of `lib.c`. `putc` prints on the displayed terminal,
straight into video memory, and `putc_non_displayed` on the executing terminal,
into its save page; apart from the page and the terminal they are the same
function, and so are the two scroll helpers. `set_cursor` only programs the
video controller and is left out.

The functions are written over the way in which they reach the bytes of a
screen, so that they can be run with a record of the bytes as well.
-/

namespace Ece391Kernel

open AccessTrace

@[simp] def numCols : Nat := 80

@[simp] def numRows : Nat := 25

def attrib : UInt8 := 0x7

def space : UInt8 := 0x20

def newline : UInt8 := 0x0A

def carriageReturn : UInt8 := 0x0D

/-- The address of the character cell at column `x` of row `y` of the screen at
`base`; its attribute is at the next address. -/
def cellAddr (base : Nat) (x y : Int) : Nat :=
  uint32 (base + 2 * (numCols * y + x))

/-! ## Over any access to the bytes -/

section Functions

variable {τ : Type} (m : MemoryAccess Kernel Nat UInt8 τ)

/-- A character and its attribute. -/
def storeCell (v : Nat) (c : UInt8) (s : τ) : τ :=
  m.write (v + 1) attrib (m.write v c s)

/-- `clear`. -/
def clearWith (s : τ) : τ :=
  Nat.fold (numRows * numCols) (fun i _ s => storeCell m (vidAddr + 2 * i) space s) s

/-- The two loops of the scroll helpers, on the screen at `base`: the characters,
but not the attributes, go up by one row, and the last row is blanked. -/
def scrollWith (base : Nat) (s : τ) : τ :=
  let s := Nat.fold numCols
    (fun i _ s => Nat.fold (numRows - 1)
      (fun j _ s =>
        let r := m.read (base + 2 * (numCols * (j + 1) + i)) s
        m.write (base + 2 * (numCols * j + i)) r.1 r.2) s) s
  Nat.fold numCols
    (fun i _ s => storeCell m (base + 2 * (numCols * (numRows - 1) + i)) space s) s

/-- Move the cursor of terminal `t` to the start of the next row, and scroll the
screen at `base` when there is none. -/
def lineFeedWith (base : Nat) (t : Fin 3) (s : τ) : τ :=
  let s := m.silently (fun k => k.setTerminal t fun term =>
    { term with screenX := 0, screenY := term.screenY + 1 }) s
  if ((m.state s).terminals t).screenY ≥ numRows then
    scrollWith m base (m.silently (fun k => k.setTerminal t fun term =>
      { term with screenY := numRows - 1 }) s)
  else s

/-- Print a character on terminal `t`, whose screen is at `base`. -/
def putcWith (base : Nat) (t : Fin 3) (c : UInt8) (s : τ) : τ :=
  if c = newline ∨ c = carriageReturn then lineFeedWith m base t s
  else
    let cell := cellAddr base ((m.state s).terminals t).screenX ((m.state s).terminals t).screenY
    let s := m.silently (fun k => k.setTerminal t fun term =>
      { term with screenX := term.screenX + 1 }) (storeCell m cell c s)
    if ((m.state s).terminals t).screenX ≥ numCols then lineFeedWith m base t s else s

/-- `backspace`. -/
def backspaceWith (s : τ) : τ :=
  let t := (m.state s).displayedTerminal
  if ((m.state s).terminals t).screenX = 0 ∧ ((m.state s).terminals t).screenY = 0 then s
  else if ((m.state s).terminals t).screenX = 0 then
    let s := m.silently (fun k => k.setTerminal t fun term =>
      { term with screenX := numCols - 1, screenY := term.screenY - 1 }) s
    storeCell m (cellAddr vidAddr ((m.state s).terminals t).screenX
      ((m.state s).terminals t).screenY) space s
  else
    let s := m.silently (fun k => k.setTerminal t fun term =>
      { term with screenX := term.screenX - 1 }) s
    let s := putcWith m vidAddr (m.state s).displayedTerminal space s
    m.silently (fun k => k.setTerminal t fun term => { term with screenX := term.screenX - 1 }) s

end Functions

/-! ## In the memory of the machine -/

/-- The bytes are those of the memory. -/
@[simps!] def directAccess (b : Boot) : MemoryAccess Kernel Nat UInt8 Kernel :=
  .direct (readByte b) (writeByte b)

/-- `clear`. -/
def clear (b : Boot) (k : Kernel) : Kernel := clearWith (directAccess b) k

/-- `memcpy`, byte by byte. -/
def memcpy (b : Boot) (dest src n : Nat) (k : Kernel) : Kernel :=
  Nat.fold n (fun i _ k => writeByte b k (dest + i) (readByte b k (src + i))) k

/-- The scroll helpers, on the screen at `base`. -/
def scrollAt (b : Boot) (base : Nat) (k : Kernel) : Kernel := scrollWith (directAccess b) base k

/-- The save page of a terminal, `FARPAGE + t * FOUR_KB + FOUR_KB`. -/
def savePage (t : Fin 3) : Nat := farPage + t * fourKB + fourKB

/-- `check_for_vertical_scroll`. -/
def checkForVerticalScroll (b : Boot) (k : Kernel) : Kernel := scrollAt b vidAddr k

/-- `check_for_non_display_vertical_scroll`. -/
def checkForNonDisplayVerticalScroll (b : Boot) (k : Kernel) : Kernel :=
  scrollAt b (savePage k.executingTerminal) k

def lineFeedAt (b : Boot) (base : Nat) (t : Fin 3) (k : Kernel) : Kernel :=
  lineFeedWith (directAccess b) base t k

/-- `putc` and `putc_non_displayed`, on the screen at `base`. -/
def putcAt (b : Boot) (base : Nat) (t : Fin 3) (c : UInt8) (k : Kernel) : Kernel :=
  putcWith (directAccess b) base t c k

section DirectAccess

variable (b : Boot) (k : Kernel)

@[simp] theorem storeCell_directAccess (v : Nat) (c : UInt8) :
    storeCell (directAccess b) v c k = writeByte b (writeByte b k v c) (v + 1) attrib := rfl

@[simp] theorem scrollWith_directAccess (base : Nat) :
    scrollWith (directAccess b) base k = scrollAt b base k := rfl

@[simp] theorem lineFeedWith_directAccess (base : Nat) (t : Fin 3) :
    lineFeedWith (directAccess b) base t k = lineFeedAt b base t k := rfl

@[simp] theorem putcWith_directAccess (base : Nat) (t : Fin 3) (c : UInt8) :
    putcWith (directAccess b) base t c k = putcAt b base t c k := rfl

end DirectAccess

/-- `putc`. -/
def putc (b : Boot) (c : UInt8) (k : Kernel) : Kernel :=
  putcAt b vidAddr k.displayedTerminal c k

/-- `putc_non_displayed`. -/
def putcNonDisplayed (b : Boot) (c : UInt8) (k : Kernel) : Kernel :=
  putcAt b (savePage k.executingTerminal) k.executingTerminal c k

/-- `backspace`. -/
def backspace (b : Boot) (k : Kernel) : Kernel := backspaceWith (directAccess b) k

/-- `reset_screen`. -/
def resetScreen (k : Kernel) : Kernel :=
  k.setTerminal k.displayedTerminal fun term => { term with screenX := 0, screenY := 0 }

end Ece391Kernel
