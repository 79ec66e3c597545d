import Ece391Kernel.Screen.Keyboard
import Ece391Kernel.Library.Mailbox
import Ece391Kernel.Library.Run
import Mathlib.Data.List.Induction

/-!
# Typed lines and the lines that are read

The keyboard interrupt edits the line of the displayed terminal, and the enter key hands
it to `terminal_read` through the backup buffer and `enter_flag`, a place for one line.
`Typing` says what has been typed on each terminal, from the keys alone; the kernel's
buffers hold what it says, in every state of a run.
-/

namespace Ece391Kernel

open TransitionSystem

/-! ## What is typed -/

/-- A key that edits the line. -/
inductive LineKey
  | char (c : UInt8)
  | erase
  deriving DecidableEq, Repr

/-- One key on a line, which takes no more than 127 characters. -/
def typeKey (line : List UInt8) : LineKey → List UInt8
  | .char c => if line.length < 127 then line ++ [c] else line
  | .erase => line.dropLast

/-- The line that the keys type. -/
def typed (keys : List LineKey) : List UInt8 := keys.foldl typeKey []

/-- The line that the keys type, with the newline of the enter key. -/
def typedLine (keys : List LineKey) : List UInt8 := typed keys ++ [newline]

/-- What has been typed: the keyboard, the displayed terminal, the keys on each terminal
since the last enter key there, and the lines on their way to the reader. -/
structure Typing where
  keyboard : Keyboard
  displayed : Fin 3
  pending : Fin 3 → List LineKey
  mail : Fin 3 → Mailbox (List LineKey)

namespace Typing

/-- Nothing has been typed. -/
def start (kb : Keyboard) (displayed : Fin 3) : Typing where
  keyboard := kb
  displayed := displayed
  pending := fun _ => []
  mail := fun _ => Mailbox.empty

/-- One more key on the line of the displayed terminal. -/
def edit (key : LineKey) (d : Typing) : Typing :=
  { d with pending := Function.update d.pending d.displayed (d.pending d.displayed ++ [key]) }

/-- The line of the displayed terminal is complete. -/
def complete (d : Typing) : Typing :=
  { d with
    pending := Function.update d.pending d.displayed []
    mail := Function.update d.mail d.displayed
      ((d.mail d.displayed).put (d.pending d.displayed)) }

/-- What a key does. -/
def event (e : KeyEvent) (d : Typing) : Typing :=
  match e with
  | .char c => d.edit (.char c)
  | .erase => d.edit .erase
  | .enter => d.complete
  | .display t => { d with displayed := t }
  | .other => d

/-- A scancode arrives. -/
def press (c : UInt8) (d : Typing) : Typing :=
  event ((d.keyboard.press c).event c) { d with keyboard := d.keyboard.press c }

/-- A line of terminal `t` is read. -/
def read (t : Fin 3) (d : Typing) : Typing :=
  { d with mail := Function.update d.mail t (d.mail t).take }

end Typing

/-! ## The run -/

/-- The static variables of the keyboard, and the kernel. -/
structure Console where
  keyboard : Keyboard
  kernel : Kernel

/-- A keyboard interrupt, or a read of a terminal that has returned. -/
inductive ConsoleLabel
  | key (c : UInt8)
  | read (t : Fin 3) (buf : Int → UInt8) (nbytes ret : Int) (result : Int → UInt8)

/-- A scancode arrives, or a process of terminal `t` reads a line, into two bytes at least. -/
def ConsoleStep (b : Boot) (m : Console) (l : ConsoleLabel) (m' : Console) : Prop :=
  match l with
  | .key c => getScancode b c m.keyboard m.kernel = some (m'.keyboard, m'.kernel)
  | .read t buf nbytes ret result =>
      2 ≤ nbytes ∧ m'.keyboard = m.keyboard ∧
        terminalRead (some buf) nbytes (m.kernel.onTerminal t) =
          some (ret, some result, m'.kernel)

/-- What has been typed after one more label. -/
def Typing.step (d : Typing) : ConsoleLabel → Typing
  | .key c => d.press c
  | .read t .. => d.read t

/-- What has been typed after the labels. -/
def Typing.after (d : Typing) (labels : List ConsoleLabel) : Typing := labels.foldl Typing.step d

theorem Typing.after_append (d : Typing) (labels labels' : List ConsoleLabel) :
    (d.after labels).after labels' = d.after (labels ++ labels') :=
  (List.foldl_append).symm

theorem Typing.after_concat (d : Typing) (labels : List ConsoleLabel) (l : ConsoleLabel) :
    d.after (labels ++ [l]) = (d.after labels).step l := by
  unfold Typing.after
  rw [List.foldl_append]
  rfl

theorem typed_char (keys : List LineKey) (c : UInt8) :
    typed (keys ++ [.char c]) =
      if (typed keys).length < 127 then typed keys ++ [c] else typed keys := by
  unfold typed
  rw [List.foldl_append]
  rfl

theorem typed_erase (keys : List LineKey) :
    typed (keys ++ [.erase]) = (typed keys).dropLast := by
  unfold typed
  rw [List.foldl_append]
  rfl

theorem typed_length_le (keys : List LineKey) : (typed keys).length ≤ 127 := by
  induction keys using List.reverseRecOn with
  | nil => exact Nat.zero_le _
  | append_singleton keys key ih =>
      cases key with
      | char c =>
          rw [typed_char]
          split
          · rename_i hlt
            rw [List.length_append]
            exact hlt
          · exact ih
      | erase =>
          rw [typed_erase, List.length_dropLast]
          exact Nat.le_trans (Nat.sub_le _ _) ih

theorem typedLine_length (keys : List LineKey) :
    (typedLine keys).length = (typed keys).length + 1 := by
  unfold typedLine
  rw [List.length_append]
  rfl

/-! ## The buffers hold what is typed -/

/-- The first `size` bytes of a buffer are the list. -/
def Holds (buf : Nat → UInt8) (size : Int) (l : List UInt8) : Prop :=
  size = l.length ∧ (List.range l.length).map buf = l

namespace Holds

variable {buf : Nat → UInt8} {size : Int} {l : List UInt8}

theorem push (h : Holds buf size l) (c : UInt8) :
    Holds (Function.update buf size.toNat c) (size + 1) (l ++ [c]) := by
  obtain ⟨rfl, hbytes⟩ := h
  refine ⟨by simp, ?_⟩
  have hsame : (List.range l.length).map (Function.update buf l.length c) =
      (List.range l.length).map buf := by
    apply List.map_congr_left
    intro i hi
    exact Function.update_of_ne (Nat.ne_of_lt (List.mem_range.mp hi)) c buf
  rw [List.length_append, List.length_singleton, List.range_succ, List.map_append,
    Int.toNat_natCast, hsame, hbytes]
  simp

theorem pop (h : Holds buf size l) (hne : size ≠ 0) : Holds buf (size - 1) l.dropLast := by
  obtain ⟨rfl, hbytes⟩ := h
  refine ⟨by rw [List.length_dropLast]; omega, ?_⟩
  have hrange : (List.range l.length).dropLast = List.range (l.length - 1) := by
    rw [List.dropLast_eq_take, List.length_range, List.take_range, Nat.min_eq_left (Nat.sub_le _ _)]
  calc (List.range l.dropLast.length).map buf
      = ((List.range l.length).map buf).dropLast := by
        rw [List.length_dropLast, ← hrange, List.map_dropLast]
    _ = l.dropLast := by rw [hbytes]

/-- The copy of what a buffer holds. -/
theorem copy (h : Holds buf size l) (old : Nat → UInt8) :
    Holds (fun i : Nat => if (i : Int) < size then buf i else old i) size l := by
  obtain ⟨rfl, hbytes⟩ := h
  refine ⟨rfl, ?_⟩
  have hsame :
      (List.range l.length).map (fun i : Nat => if (i : Int) < l.length then buf i else old i) =
        (List.range l.length).map buf := by
    apply List.map_congr_left
    intro i hi
    exact if_pos (Int.ofNat_lt.mpr (List.mem_range.mp hi))
  rw [hsame, hbytes]

/-- A character is stored on the line if there is room for it. -/
theorem typeChar {term : Terminal} {pending : List LineKey}
    (h : Holds term.keyboardBuf term.curBufSize (typed pending)) (c : UInt8) :
    Holds (typeChar c term).keyboardBuf (typeChar c term).curBufSize
      (typed (pending ++ [.char c])) := by
  have hfits : (term.curBufSize < keyboardBufSize - minu ∨
      term.curBufSize = keyboardBufSize - minu) ↔ (typed pending).length < 127 := by
    rw [h.1]
    simp only [keyboardBufSize, minu]
    omega
  rw [typed_char]
  unfold Ece391Kernel.typeChar
  by_cases hlt : (typed pending).length < 127
  · rw [if_pos hlt, if_pos (hfits.mpr hlt)]
    exact h.push c
  · rw [if_neg hlt, if_neg (mt hfits.mp hlt)]
    exact h

theorem eraseChar {term : Terminal} {pending : List LineKey}
    (h : Holds term.keyboardBuf term.curBufSize (typed pending)) :
    Holds (eraseChar term).keyboardBuf (eraseChar term).curBufSize
      (typed (pending ++ [.erase])) := by
  rw [typed_erase]
  unfold Ece391Kernel.eraseChar
  by_cases hne : term.curBufSize ≠ 0
  · rw [if_pos hne]
    exact h.pop hne
  · have hnil : typed pending = [] := by
      rw [not_not, h.1] at hne
      exact List.eq_nil_of_length_eq_zero (Int.ofNat_eq_zero.mp hne)
    rw [if_neg hne]
    rw [hnil] at h ⊢
    exact h

theorem completeLine {term : Terminal} {pending : List LineKey}
    (h : Holds term.keyboardBuf term.curBufSize (typed pending)) :
    Holds (completeLine term).storedOldBuf (completeLine term).oldBufSize (typedLine pending) :=
  (h.push newline).copy term.storedOldBuf

end Holds

/-- The record of a terminal holds the line being typed, and the line to be read. -/
structure LineState (term : Terminal) (pending : List LineKey) (unread : Option (List LineKey)) :
    Prop where
  line : Holds term.keyboardBuf term.curBufSize (typed pending)
  flag : term.enterFlag = 0 ↔ unread = none
  stored : ∀ keys, unread = some keys →
    Holds term.storedOldBuf term.oldBufSize (typedLine keys)

namespace LineState

variable {term : Terminal} {pending : List LineKey} {unread : Option (List LineKey)}

theorem typeChar (h : LineState term pending unread) (c : UInt8) :
    LineState (typeChar c term) (pending ++ [.char c]) unread := by
  refine ⟨h.line.typeChar c, ?_, ?_⟩
  · unfold Ece391Kernel.typeChar
    split
    · exact h.flag
    · exact h.flag
  · unfold Ece391Kernel.typeChar
    split
    · exact h.stored
    · exact h.stored

theorem eraseChar (h : LineState term pending unread) :
    LineState (eraseChar term) (pending ++ [.erase]) unread := by
  refine ⟨h.line.eraseChar, ?_, ?_⟩
  · unfold Ece391Kernel.eraseChar
    split
    · exact h.flag
    · exact h.flag
  · unfold Ece391Kernel.eraseChar
    split
    · exact h.stored
    · exact h.stored

theorem completeLine (h : LineState term pending unread) :
    LineState (completeLine term) [] (some pending) where
  line := ⟨rfl, rfl⟩
  flag := iff_of_false (Nat.one_ne_zero) (by simp)
  stored := by
    intro keys hkeys
    rw [← Option.some.inj hkeys]
    exact h.line.completeLine

theorem lowerFlag (h : LineState term pending unread) :
    LineState { term with enterFlag := 0 } pending none where
  line := h.line
  flag := iff_of_true rfl rfl
  stored := fun _ hnone => absurd hnone (by simp)

end LineState

/-- The first bytes that a buffer holds. -/
theorem Holds.take {buf : Nat → UInt8} {size : Int} {l : List UInt8} (h : Holds buf size l)
    {n : Nat} (hn : n ≤ l.length) : (List.range n).map buf = l.take n := by
  obtain ⟨-, hbytes⟩ := h
  calc (List.range n).map buf
      = ((List.range l.length).map buf).take n := by
        rw [← List.map_take, List.take_range, Nat.min_eq_left hn]
    _ = l.take n := by rw [hbytes]

/-- The console is as what has been typed says. -/
structure Agrees (m : Console) (d : Typing) : Prop where
  keyboard : m.keyboard = d.keyboard
  displayed : m.kernel.displayedTerminal = d.displayed
  lines : ∀ t, LineState (m.kernel.terminals t) (d.pending t) (d.mail t).contents

namespace Agrees

variable {b : Boot} {m m' : Console} {d : Typing}

theorem screenOnly {kb : Keyboard} {k k' : Kernel} (h : Agrees ⟨kb, k⟩ d)
    (hscreen : ScreenOnly k k') :
    Agrees ⟨kb, k'⟩ d := by
  obtain ⟨_, x, y, rfl⟩ := hscreen
  exact ⟨h.keyboard, h.displayed, fun t => ⟨(h.lines t).line, (h.lines t).flag, (h.lines t).stored⟩⟩

/-- A change of one terminal. -/
theorem update {kb : Keyboard} {k : Kernel} (h : Agrees ⟨kb, k⟩ d) (t : Fin 3)
    (f : Terminal → Terminal) (pending : List LineKey) (mail : Mailbox (List LineKey))
    (hline : LineState (f (k.terminals t)) pending mail.contents) :
    Agrees ⟨kb, k.setTerminal t f⟩
      { d with
        pending := Function.update d.pending t pending
        mail := Function.update d.mail t mail } where
  keyboard := h.keyboard
  displayed := h.displayed
  lines := by
    intro u
    by_cases hu : u = t
    · subst hu
      simpa using hline
    · simpa [hu] using h.lines u

theorem edit {kb : Keyboard} {k : Kernel} (h : Agrees ⟨kb, k⟩ d) {f : Terminal → Terminal}
    {key : LineKey} (hline : LineState (f (k.terminals k.displayedTerminal))
      (d.pending k.displayedTerminal ++ [key]) (d.mail k.displayedTerminal).contents) :
    Agrees ⟨kb, k.setTerminal k.displayedTerminal f⟩ (d.edit key) := by
  obtain ⟨_, _, pending, mail⟩ := d
  obtain rfl : k.displayedTerminal = _ := h.displayed
  have hupdate := h.update k.displayedTerminal f _ (mail k.displayedTerminal) hline
  rw [Function.update_eq_self] at hupdate
  exact hupdate

/-- The effect of a key on the kernel, and on what has been typed. -/
theorem event {kb : Keyboard} {k : Kernel} (h : Agrees ⟨kb, k⟩ d) (e : KeyEvent) :
    Agrees ⟨kb, lineEffect e k⟩ (d.event e) := by
  cases e with
  | char c => exact h.edit ((h.lines k.displayedTerminal).typeChar c)
  | erase => exact h.edit (h.lines k.displayedTerminal).eraseChar
  | enter =>
      obtain ⟨_, _, pending, mail⟩ := d
      obtain rfl : k.displayedTerminal = _ := h.displayed
      exact h.update k.displayedTerminal completeLine []
        ((mail k.displayedTerminal).put (pending k.displayedTerminal))
        (h.lines k.displayedTerminal).completeLine
  | display t => exact ⟨h.keyboard, rfl, h.lines⟩
  | other => exact h

theorem press (h : Agrees m d) {c : UInt8}
    (hstep : getScancode b c m.keyboard m.kernel = some (m'.keyboard, m'.kernel)) :
    Agrees m' (d.press c) := by
  obtain ⟨hkeyboard, hscreen⟩ := getScancode_effect hstep
  have hkeys : Agrees ⟨m'.keyboard, m.kernel⟩ { d with keyboard := d.keyboard.press c } :=
    ⟨by rw [hkeyboard, h.keyboard], h.displayed, h.lines⟩
  have hevent := (hkeys.event (m'.keyboard.event c)).screenOnly hscreen
  unfold Typing.press
  rw [← h.keyboard, ← hkeyboard]
  rw [← h.keyboard, ← hkeyboard] at hevent
  exact hevent

/-- A read waits while there is no line. -/
theorem terminalRead_eq_none (h : Agrees m d) {t : Fin 3} (hkeys : (d.mail t).contents = none)
    (buf : Buffer) (nbytes : Int) : terminalRead buf nbytes (m.kernel.onTerminal t) = none := by
  unfold terminalRead
  exact if_pos ((h.lines t).flag.mpr hkeys)

/-- A read returns the line that is there, as far as it fits. -/
theorem terminalRead_eq_some (h : Agrees m d) {t : Fin 3} {keys : List LineKey}
    (hkeys : (d.mail t).contents = some keys) (buf : Int → UInt8) {nbytes : Int}
    (hn : 2 ≤ nbytes) :
    terminalRead (some buf) nbytes (m.kernel.onTerminal t) =
      some (min (nbytes - 1) (typedLine keys).length,
        some (ByteMemory.storeFrom buf 0
          ((typedLine keys).take (min (nbytes - 1) (typedLine keys).length).toNat)),
        (m.kernel.onTerminal t).setTerminal t fun term => { term with enterFlag := 0 }) := by
  have hflag : (m.kernel.terminals t).enterFlag ≠ 0 := by
    intro hzero
    have hnone := (h.lines t).flag.mp hzero
    exact absurd (hkeys.symm.trans hnone) (by simp)
  have hstored := (h.lines t).stored keys hkeys
  have hcurrent : (m.kernel.onTerminal t).current = m.kernel.terminals t := rfl
  have hcount : ((min (nbytes - 1) (typedLine keys).length).toNat : Int) =
      min (nbytes - 1) (typedLine keys).length := Int.toNat_of_nonneg (by omega)
  unfold terminalRead
  rw [hcurrent, if_neg hflag, if_neg (by omega), hstored.1, int32Pred_of_ne (by omega)]
  simp only
  rw [hstored.take (by omega), hcount]
  rfl

theorem read (h : Agrees m d) {t : Fin 3} {buf result : Int → UInt8} {nbytes ret : Int}
    (hn : 2 ≤ nbytes) (hkeyboard : m'.keyboard = m.keyboard)
    (hread : terminalRead (some buf) nbytes (m.kernel.onTerminal t) =
      some (ret, some result, m'.kernel)) : Agrees m' (d.read t) := by
  have hkernel : m'.kernel =
      (m.kernel.onTerminal t).setTerminal t fun term => { term with enterFlag := 0 } := by
    cases hkeys : (d.mail t).contents with
    | none =>
        rw [h.terminalRead_eq_none hkeys] at hread
        exact absurd hread (by simp)
    | some keys =>
        rw [h.terminalRead_eq_some hkeys buf hn] at hread
        exact (Prod.mk.inj (Prod.mk.inj (Option.some.inj hread)).2).2.symm
  have hlower : Agrees ⟨m.keyboard, m.kernel.onTerminal t⟩ d :=
    ⟨h.keyboard, h.displayed, h.lines⟩
  have hupdate := hlower.update t (fun term => { term with enterFlag := 0 }) (d.pending t)
    (d.mail t).take (h.lines t).lowerFlag
  rw [Function.update_eq_self] at hupdate
  obtain ⟨kb', k'⟩ := m'
  obtain rfl : kb' = m.keyboard := hkeyboard
  obtain rfl : k' = _ := hkernel
  exact hupdate

/-- One step keeps the console as what has been typed says. -/
theorem step (h : Agrees m d) {l : ConsoleLabel} (hstep : ConsoleStep b m l m') :
    Agrees m' (d.step l) := by
  cases l with
  | key c => exact h.press hstep
  | read t buf nbytes ret result => exact h.read hstep.1 hstep.2.1 hstep.2.2

theorem run (h : Agrees m d) {labels : List ConsoleLabel}
    (hrun : Run (ConsoleStep b) m labels m') : Agrees m' (d.after labels) := by
  induction hrun with
  | nil => exact h
  | snoc _ hlast ih =>
      rw [Typing.after_concat]
      exact ih.step hlast

end Agrees

end Ece391Kernel
