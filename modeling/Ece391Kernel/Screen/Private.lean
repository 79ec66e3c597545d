import Ece391Kernel.Screen.Video

/-!
# A private screen

What a terminal is for: a screen of 25 rows of 80 cells with a cursor, all its
own. The cursor is in the screen by its type. The operations are those of a
line-oriented display, with one peculiarity of the kernel: scrolling moves the
characters up and leaves the attributes where they are.
-/

namespace Ece391Kernel

/-- A character and its attribute. -/
structure Cell where
  char : UInt8
  attr : UInt8

def blankCell : Cell := ⟨space, attrib⟩

/-- The contents of a screen, by row and column. -/
abbrev Cells := Fin 25 → Fin 80 → Cell

def blankCells : Cells := fun _ _ => blankCell

/-- The contents after scrolling by one row. -/
def scrolled (cells : Cells) : Cells := fun row col =>
  if h : row.val + 1 < 25 then ⟨(cells ⟨row + 1, h⟩ col).char, (cells row col).attr⟩
  else blankCell

/-- The contents with another cell at a place. -/
def Cells.set (cells : Cells) (row : Fin 25) (col : Fin 80) (cell : Cell) : Cells :=
  fun row' col' => if row' = row ∧ col' = col then cell else cells row' col'

structure Screen where
  cells : Cells
  row : Fin 25
  col : Fin 80

namespace Screen

/-- Move the cursor to the next row, and scroll when there is none. -/
def lineFeed (s : Screen) : Screen :=
  if h : s.row.val + 1 < 25 then { s with row := ⟨s.row + 1, h⟩, col := 0 }
  else { cells := scrolled s.cells, row := 24, col := 0 }

/-- Print a character at the cursor and move on. -/
def print (c : UInt8) (s : Screen) : Screen :=
  if c = newline ∨ c = carriageReturn then s.lineFeed
  else
    let s := { s with cells := s.cells.set s.row s.col ⟨c, attrib⟩ }
    if h : s.col.val + 1 < 80 then { s with col := ⟨s.col + 1, h⟩ } else s.lineFeed

/-- Move the cursor back by one cell and blank the cell. -/
def backspace (s : Screen) : Screen :=
  if s.col.val = 0 ∧ s.row.val = 0 then s
  else if s.col.val = 0 then
    { cells := s.cells.set ⟨s.row - 1, by omega⟩ 79 blankCell
      row := ⟨s.row - 1, by omega⟩
      col := 79 }
  else
    { s with
      cells := s.cells.set s.row ⟨s.col - 1, by omega⟩ blankCell
      col := ⟨s.col - 1, by omega⟩ }

/-- Blank the screen and move the cursor to its first cell. -/
def clear : Screen where
  cells := blankCells
  row := 0
  col := 0

end Screen

/-- What can be done to a screen. -/
inductive ScreenOp
  | print (c : UInt8)
  | backspace
  | clear

def ScreenOp.apply (s : Screen) : ScreenOp → Screen
  | .print c => s.print c
  | .backspace => s.backspace
  | .clear => Screen.clear

end Ece391Kernel
