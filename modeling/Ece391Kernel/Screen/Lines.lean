import Ece391Kernel.Screen.Refinement
import Mathlib.Data.List.Induction

/-!
# A screen shows the last lines

The bytes that are printed on a cleared screen are a text. Its lines end with a newline, a
carriage return or their 80th character, and the screen shows the last 25 of them, the line
that has not ended among them. `TextLines` is the text as its lines, and says nothing of
cursors or of scrolling.
-/

namespace Ece391Kernel

/-- A text as the lines that have ended, and the one that has not. -/
structure TextLines where
  ended : List (List UInt8)
  current : List UInt8

namespace TextLines

/-- The empty text. -/
def empty : TextLines := ⟨[], []⟩

/-- The line ends. -/
def lineEnd (l : TextLines) : TextLines := ⟨l.ended ++ [l.current], []⟩

/-- A character of the line. -/
def char (c : UInt8) (l : TextLines) : TextLines := { l with current := l.current ++ [c] }

/-- One more byte of the text. -/
def put (c : UInt8) (l : TextLines) : TextLines :=
  if c = newline ∨ c = carriageReturn then l.lineEnd
  else if (l.char c).current.length < 80 then l.char c
  else (l.char c).lineEnd

/-- The lines of a text. -/
def ofBytes (bytes : List UInt8) : TextLines := bytes.foldl (fun l c => l.put c) empty

/-- All lines, with the one that has not ended. -/
def all (l : TextLines) : List (List UInt8) := l.ended ++ [l.current]

/-- The last 25 lines. -/
def lastRows (l : TextLines) : List (List UInt8) := l.all.drop (l.all.length - 25)

/-- The screen that shows the last 25 lines, filled up with blanks. -/
def render (l : TextLines) : Cells := fun row col =>
  ⟨(l.lastRows.getD row []).getD col space, attrib⟩

theorem ofBytes_concat (bytes : List UInt8) (c : UInt8) :
    ofBytes (bytes ++ [c]) = (ofBytes bytes).put c := by
  unfold ofBytes
  rw [List.foldl_append]
  rfl

theorem length_all (l : TextLines) : l.all.length = l.ended.length + 1 := by
  unfold all
  rw [List.length_append]
  rfl

/-- The line in a row. -/
theorem lastRows_getD (l : TextLines) (row : Nat) :
    l.lastRows.getD row [] = l.all.getD (l.ended.length - 24 + row) [] := by
  have hdrop : l.all.length - 25 = l.ended.length - 24 := by
    rw [length_all]
    omega
  unfold lastRows
  rw [hdrop, List.getD_eq_getElem?_getD, List.getElem?_drop, List.getD_eq_getElem?_getD]

theorem all_getD_of_lt (l : TextLines) {i : Nat} (hi : i < l.ended.length) :
    l.all.getD i [] = l.ended.getD i [] := List.getD_append _ _ _ _ hi

theorem all_getD_length (l : TextLines) : l.all.getD l.ended.length [] = l.current := by
  unfold all
  rw [List.getD_append_right _ _ _ _ (Nat.le_refl _), Nat.sub_self]
  rfl

theorem all_getD_of_le (l : TextLines) {i : Nat} (hi : l.ended.length < i) : l.all.getD i [] = [] :=
  List.getD_eq_default _ _ (by rw [length_all]; exact hi)

/-- A line that has ended is followed by an empty one. -/
theorem all_lineEnd_getD (l : TextLines) (i : Nat) : l.lineEnd.all.getD i [] = l.all.getD i [] := by
  unfold lineEnd all
  by_cases hi : i < (l.ended ++ [l.current]).length
  · rw [List.getD_append _ _ _ _ hi]
  · rw [List.getD_append_right _ _ _ _ (Nat.le_of_not_lt hi),
      List.getD_eq_default (l.ended ++ [l.current]) _ (Nat.le_of_not_lt hi)]
    cases i - (l.ended ++ [l.current]).length <;> rfl

end TextLines

/-! ## The screen -/

/-- The screen shows the text, with the cursor in the row of the current line. -/
structure Renders (l : TextLines) (s : Screen) : Prop where
  cells : s.cells = l.render
  row : s.row.val = min 24 l.ended.length

namespace Renders

variable {l : TextLines} {s : Screen}

theorem clear : Renders TextLines.empty Screen.clear where
  cells := by
    funext row col
    have hrow : TextLines.empty.lastRows.getD row [] = [] := by
      cases hr : row.val <;> rfl
    unfold TextLines.render
    rw [hrow]
    rfl
  row := rfl

/-- At the end of a line the cursor goes to the next row, or the screen scrolls. -/
theorem lineFeed (h : Renders l s) : Renders l.lineEnd s.lineFeed ∧ s.lineFeed.col = 0 := by
  have hended : l.lineEnd.ended.length = l.ended.length + 1 := by
    unfold TextLines.lineEnd
    rw [List.length_append]
    rfl
  have hrow := h.row
  unfold Screen.lineFeed
  by_cases hlast : s.row.val + 1 < 25
  · rw [dif_pos hlast]
    refine ⟨⟨?_, ?_⟩, rfl⟩
    · simp only [h.cells]
      funext row col
      unfold TextLines.render
      rw [TextLines.lastRows_getD, TextLines.lastRows_getD, TextLines.all_lineEnd_getD, hended]
      have hzero : l.ended.length - 24 = 0 := by omega
      have hzero' : l.ended.length + 1 - 24 = 0 := by omega
      rw [hzero, hzero']
    · simp only
      omega
  · rw [dif_neg hlast]
    refine ⟨⟨?_, ?_⟩, rfl⟩
    · funext row col
      have hnext : l.ended.length + 1 - 24 = l.ended.length - 24 + 1 := by omega
      unfold scrolled
      simp only [h.cells]
      by_cases hrow' : row.val + 1 < 25
      · have hindex : l.ended.length - 24 + 1 + row = l.ended.length - 24 + (row + 1) := by omega
        rw [dif_pos hrow']
        unfold TextLines.render
        simp only
        rw [TextLines.lastRows_getD, TextLines.lastRows_getD, TextLines.all_lineEnd_getD, hended,
          hnext, hindex]
      · -- the last row is that of the new line
        have hbehind : l.ended.length < l.ended.length - 24 + 1 + row := by omega
        rw [dif_neg hrow']
        unfold TextLines.render
        rw [TextLines.lastRows_getD, TextLines.all_lineEnd_getD, hended, hnext,
          TextLines.all_getD_of_le l hbehind]
        rfl
    · simp only
      omega

/-- A character is stored behind the current line. -/
theorem set (h : Renders l s) (hcol : s.col.val = l.current.length) (c : UInt8) :
    s.cells.set s.row s.col ⟨c, attrib⟩ = (l.char c).render := by
  have hrow := h.row
  funext row col
  unfold Cells.set
  simp only [h.cells]
  unfold TextLines.render
  rw [TextLines.lastRows_getD, TextLines.lastRows_getD]
  have hended : (l.char c).ended = l.ended := rfl
  rw [hended]
  by_cases hsame : row = s.row
  · have hindex : l.ended.length - 24 + row = l.ended.length := by
      rw [hsame]
      omega
    have hcurrent := TextLines.all_getD_length (l.char c)
    rw [hended] at hcurrent
    rw [hindex, TextLines.all_getD_length, hcurrent]
    unfold TextLines.char
    simp only
    by_cases hplace : col = s.col
    · rw [if_pos ⟨hsame, hplace⟩, hplace, hcol, List.getD_append_right _ _ _ _ (Nat.le_refl _),
        Nat.sub_self]
      rfl
    · have hne : col.val ≠ l.current.length := by
        rw [← hcol]
        exact fun heq => hplace (Fin.ext heq)
      rw [if_neg fun hboth => hplace hboth.2]
      congr 1
      rcases Nat.lt_or_gt_of_ne hne with hlt | hgt
      · exact (List.getD_append _ _ _ _ hlt).symm
      · rw [List.getD_eq_default _ _ (by omega),
          List.getD_eq_default _ _ (by rw [List.length_append, List.length_singleton]; omega)]
  · have hne : l.ended.length - 24 + row ≠ l.ended.length := by
      have hval : row.val ≠ s.row.val := fun heq => hsame (Fin.ext heq)
      omega
    rw [if_neg fun hboth => hsame hboth.1]
    congr 2
    rcases Nat.lt_or_gt_of_ne hne with hlt | hgt
    · rw [TextLines.all_getD_of_lt l hlt, TextLines.all_getD_of_lt (l.char c) hlt, hended]
    · rw [TextLines.all_getD_of_le l hgt, TextLines.all_getD_of_le (l.char c) hgt]

/-- Printing a byte. -/
theorem print (h : Renders l s) (hcol : s.col.val = l.current.length) (c : UInt8) :
    Renders (l.put c) (s.print c) ∧ (s.print c).col.val = (l.put c).current.length := by
  have hlen : (l.char c).current.length = l.current.length + 1 := by
    unfold TextLines.char
    rw [List.length_append]
    rfl
  unfold TextLines.put Screen.print
  by_cases hend : c = newline ∨ c = carriageReturn
  · rw [if_pos hend, if_pos hend]
    obtain ⟨hfeed, hzero⟩ := h.lineFeed
    exact ⟨hfeed, by rw [hzero]; rfl⟩
  · rw [if_neg hend, if_neg hend]
    have hchar : Renders (l.char c) { s with cells := s.cells.set s.row s.col ⟨c, attrib⟩ } :=
      ⟨h.set hcol c, h.row⟩
    by_cases hroom : s.col.val + 1 < 80
    · rw [if_pos (by omega)]
      simp only [dif_pos hroom]
      exact ⟨⟨hchar.cells, hchar.row⟩, by omega⟩
    · rw [if_neg (by omega)]
      simp only [dif_neg hroom]
      obtain ⟨hfeed, hzero⟩ := hchar.lineFeed
      exact ⟨hfeed, by rw [hzero]; rfl⟩

/-- Printing a text on a cleared screen. -/
theorem ofBytes (bytes : List UInt8) :
    Renders (TextLines.ofBytes bytes) (bytes.foldl (fun s c => s.print c) Screen.clear) ∧
      (bytes.foldl (fun s c => s.print c) Screen.clear).col.val =
        (TextLines.ofBytes bytes).current.length := by
  induction bytes using List.reverseRecOn with
  | nil => exact ⟨Renders.clear, rfl⟩
  | append_singleton bytes c ih =>
      rw [TextLines.ofBytes_concat, List.foldl_append]
      exact ih.1.print ih.2 c

end Renders

/-! ## The video page -/

/-- Printing a text on the displayed terminal. -/
theorem putc_run_shows {b : Boot} (bytes : List UInt8) {k : Kernel} {s : Screen}
    (htables : VideoTables b k.paging) (hs : ShowsAt b k vidAddr k.displayedTerminal s) :
    ShowsAt b (bytes.foldl (fun k c => putc b c k) k) vidAddr k.displayedTerminal
      (bytes.foldl (fun s c => s.print c) s) := by
  induction bytes generalizing k s with
  | nil => exact hs
  | cons c bytes ih =>
      obtain ⟨hprinted, hprints⟩ := putcAt_shows htables (Or.inl rfl) hs c
      have hdisplayed : (putc b c k).displayedTerminal = k.displayedTerminal :=
        hprints.screenOnly.displayedTerminal_eq
      have hrest := @ih (putc b c k) (s.print c) (hprints.videoTables htables)
        (by rw [hdisplayed]; exact hprinted)
      rwa [hdisplayed] at hrest

/-- On a cleared screen, whatever bytes `putc` prints: the video page shows the last 25
lines of the text, and the cursor is behind the line that has not ended. -/
theorem putc_renders_last_lines (b : Boot) (k : Kernel) (htables : VideoTables b k.paging)
    (hclear : Shows b k k.displayedTerminal Screen.clear) (bytes : List UInt8) :
    PageShows b (bytes.foldl (fun k c => putc b c k) k) vidAddr (TextLines.ofBytes bytes).render ∧
      ((bytes.foldl (fun k c => putc b c k) k).terminals k.displayedTerminal).screenX =
        (TextLines.ofBytes bytes).current.length ∧
      ((bytes.foldl (fun k c => putc b c k) k).terminals k.displayedTerminal).screenY =
        min 24 (TextLines.ofBytes bytes).ended.length := by
  have hstart : ShowsAt b k vidAddr k.displayedTerminal Screen.clear := by
    unfold Shows screenPage at hclear
    rwa [if_pos rfl] at hclear
  obtain ⟨hrenders, hcol⟩ := Renders.ofBytes bytes
  have hshows := putc_run_shows bytes htables hstart
  refine ⟨?_, ?_, ?_⟩
  · rw [← hrenders.cells]
    exact hshows.contents
  · rw [hshows.col, hcol]
  · rw [hshows.row, hrenders.row]

/-- After boot and control-L. -/
theorem putc_renders_last_lines_text :
    readByte smallBoot
        ([0x68, 0x69].foldl (fun k c => putc smallBoot c k)
          (clearBuffer (clear smallBoot (boot smallBoot blankKernel))))
        (cellPos vidAddr 0 1) = 0x69 := by
  have htables := boot_videoTables smallBoot blankKernel
  obtain ⟨hs, hprints⟩ := clearScreen_shows htables
  have hdisplayed : (clearBuffer (clear smallBoot (boot smallBoot blankKernel))).displayedTerminal =
      (boot smallBoot blankKernel).displayedTerminal := hprints.screenOnly.displayedTerminal_eq
  have hshows : Shows smallBoot (clearBuffer (clear smallBoot (boot smallBoot blankKernel)))
      (clearBuffer (clear smallBoot (boot smallBoot blankKernel))).displayedTerminal
      Screen.clear := by
    unfold Shows screenPage
    rw [if_pos rfl, hdisplayed]
    exact hs
  have hpage := (putc_renders_last_lines smallBoot _ (hprints.videoTables htables) hshows
    [0x68, 0x69]).1
  exact (hpage 0 1).1

end Ece391Kernel
