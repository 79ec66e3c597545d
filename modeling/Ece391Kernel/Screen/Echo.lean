import Ece391Kernel.Screen.LineEditor
import Ece391Kernel.Screen.Refinement

/-!
# The echo of the line

A key that is stored on the line is echoed, and a backspace takes a character off both the
line and the screen. The two routines treat the right margin each in its own way, and only
the first one scrolls. In reading order the cells before the cursor end with the line all
the same, and what was there before the line started is still there, as far as it has not
scrolled off the top.
-/

namespace Ece391Kernel

open TransitionSystem

/-! ## The text before the cursor -/

namespace Screen

/-- The place of the cursor in reading order. -/
def pos (s : Screen) : Nat := 80 * s.row + s.col

/-- The character at a place in reading order. -/
def charAt (s : Screen) (i : Nat) : UInt8 :=
  if h : i < 2000 then (s.cells ⟨i / 80, by omega⟩ ⟨i % 80, Nat.mod_lt _ (by decide)⟩).char else 0

/-- The characters before the cursor. -/
def textBefore (s : Screen) : List UInt8 := (List.range s.pos).map s.charAt

theorem pos_lt (s : Screen) : s.pos < 2000 := by
  have hrow := s.row.isLt
  have hcol := s.col.isLt
  unfold pos
  omega

@[simp] theorem length_textBefore (s : Screen) : s.textBefore.length = s.pos := by
  simp [textBefore]

/-- The place of a cell determines it. -/
theorem place_iff {i : Nat} (row : Fin 25) (col : Fin 80) :
    (i / 80 = row.val ∧ i % 80 = col.val) ↔ i = 80 * row + col := by
  have hcol := col.isLt
  omega

theorem charAt_set (cells : Cells) (row row' : Fin 25) (col col' : Fin 80) (cell : Cell) {i : Nat}
    (hi : i < 2000) :
    charAt ⟨cells.set row col cell, row', col'⟩ i =
      if i = 80 * row + col then cell.char else charAt ⟨cells, row', col'⟩ i := by
  have hplace := place_iff (i := i) row col
  unfold charAt Cells.set
  rw [dif_pos hi, dif_pos hi]
  simp only [Fin.ext_iff]
  split_ifs with h₁ h₂ h₂
  · rfl
  · exact absurd (hplace.mp h₁) h₂
  · exact absurd (hplace.mpr h₂) h₁
  · rfl

theorem charAt_scrolled (cells : Cells) (row row' : Fin 25) (col col' : Fin 80) {i : Nat}
    (hi : i + 80 < 2000) :
    charAt ⟨scrolled cells, row, col⟩ i = charAt ⟨cells, row', col'⟩ (i + 80) := by
  have hdiv : (i + 80) / 80 = i / 80 + 1 := by omega
  have hmod : (i + 80) % 80 = i % 80 := by omega
  have hrow : i / 80 + 1 < 25 := by omega
  unfold charAt scrolled
  rw [dif_pos (by omega), dif_pos hi]
  simp only [hdiv, hmod, dif_pos hrow]

/-- The cursor in another place. -/
theorem charAt_cursor (cells : Cells) (row row' : Fin 25) (col col' : Fin 80) (i : Nat) :
    charAt ⟨cells, row, col⟩ i = charAt ⟨cells, row', col'⟩ i := rfl

/-- The text with a character in the cell of the cursor. -/
theorem map_charAt_set (s : Screen) (c : UInt8) (row : Fin 25) (col : Fin 80) :
    (List.range (s.pos + 1)).map (charAt ⟨s.cells.set s.row s.col ⟨c, attrib⟩, row, col⟩) =
      s.textBefore ++ [c] := by
  have hpos := s.pos_lt
  rw [List.range_succ, List.map_append, List.map_singleton, charAt_set _ _ _ _ _ _ hpos]
  unfold textBefore
  congr 1
  · refine List.map_congr_left fun i hi => ?_
    rw [List.mem_range] at hi
    rw [charAt_set _ _ _ _ _ _ (by omega), if_neg (by unfold pos at hi; omega)]
    exact charAt_cursor _ _ _ _ _ _
  · have hplace : s.pos = 80 * s.row + s.col := rfl
    rw [if_pos hplace]

/-- What was in the second row is in the first after scrolling. -/
theorem map_charAt_scrolled (cells : Cells) (row row' : Fin 25) (col col' : Fin 80) :
    (List.range 1920).map (charAt ⟨scrolled cells, row, col⟩) =
      ((List.range 2000).map (charAt ⟨cells, row', col'⟩)).drop 80 := by
  refine List.ext_getElem (by simp) fun i hi _ => ?_
  rw [List.length_map, List.length_range] at hi
  rw [List.getElem_drop, List.getElem_map, List.getElem_map, List.getElem_range,
    List.getElem_range, charAt_scrolled cells row row' col col' (by omega), Nat.add_comm]

/-- A character is printed behind the text; in the last cell, the first row of the text
scrolls off. -/
theorem textBefore_print (s : Screen) {c : UInt8} (hc : ¬(c = newline ∨ c = carriageReturn)) :
    (s.print c).textBefore =
      if s.pos + 1 < 2000 then s.textBefore ++ [c] else (s.textBefore ++ [c]).drop 80 := by
  have hpos := s.pos_lt
  have hrow := s.row.isLt
  have hplace : s.pos = 80 * s.row + s.col := rfl
  unfold print
  rw [if_neg hc]
  by_cases hroom : s.col.val + 1 < 80
  · simp only [dif_pos hroom]
    rw [if_pos (by omega), ← map_charAt_set s c s.row ⟨s.col + 1, hroom⟩]
    rfl
  · have hcol : s.col.val = 79 := by omega
    simp only [dif_neg hroom]
    unfold lineFeed
    by_cases hlast : s.row.val + 1 < 25
    · have hnext : 80 * (s.row.val + 1) = s.pos + 1 := by omega
      simp only [dif_pos hlast]
      rw [if_pos (by omega), ← map_charAt_set s c ⟨s.row + 1, hlast⟩ 0, ← hnext]
      rfl
    · have hend : s.pos + 1 = 2000 := by omega
      simp only [dif_neg hlast]
      rw [if_neg (by omega), ← map_charAt_set s c s.row s.col, hend]
      exact map_charAt_scrolled _ 24 s.row 0 s.col

/-- The text before an earlier place. -/
theorem map_charAt_pred (s : Screen) (f : Nat → UInt8) (h : ∀ i < s.pos - 1, f i = s.charAt i) :
    (List.range (s.pos - 1)).map f = s.textBefore.dropLast := by
  unfold textBefore
  rw [← List.map_dropLast, List.dropLast_eq_take, List.length_range, List.take_range,
    Nat.min_eq_left (Nat.sub_le _ _)]
  exact List.map_congr_left fun i hi => h i (List.mem_range.mp hi)

/-- A backspace takes the last character. -/
theorem textBefore_backspace (s : Screen) : s.backspace.textBefore = s.textBefore.dropLast := by
  have hpos := s.pos_lt
  have hplace : s.pos = 80 * s.row + s.col := rfl
  unfold backspace
  split_ifs with hhome hcol
  · have hzero : s.pos = 0 := by omega
    unfold textBefore
    rw [hzero]
    rfl
  · rw [← map_charAt_pred s _ fun i hi => ?_]
    · have hback : 80 * (s.row.val - 1) + 79 = s.pos - 1 := by omega
      unfold textBefore
      rw [← hback]
      rfl
    · rw [charAt_set _ _ _ _ _ _ (by omega), if_neg (by simp only; omega)]
      exact charAt_cursor _ _ _ _ _ _
  · rw [← map_charAt_pred s _ fun i hi => ?_]
    · have hback : 80 * s.row.val + (s.col.val - 1) = s.pos - 1 := by omega
      unfold textBefore
      rw [← hback]
      rfl
    · rw [charAt_set _ _ _ _ _ _ (by omega), if_neg (by simp only; omega)]
      exact charAt_cursor _ _ _ _ _ _

end Screen

/-! ## What a key prints -/

/-- Only the enter key has the newline in the table, and no key the carriage return. -/
theorem event_char_ne {kb : Keyboard} {c ch : UInt8} (h : kb.event c = .char ch) :
    ¬(ch = newline ∨ ch = carriageReturn) := by
  obtain ⟨henter, -, ⟨-, hlt, -⟩, rfl⟩ := event_eq_char h
  have hall : ∀ mode : Fin 4, ∀ n < scancodeSize, n ≠ enterKey.toNat →
      ¬(scancode mode n = newline ∨ scancode mode n = carriageReturn) := by
    decide +kernel
  exact hall kb.mode.row c.toNat hlt fun heq => henter (UInt8.toNat.inj heq)

/-! ## The machine -/

/-- A key that is no enter key and switches no terminal, while the control key is up. -/
def PlainKey (m : Console) (c : UInt8) : Prop :=
  (ctrlKey c m.keyboard).ctrl = false ∧ (m.keyboard.press c).event c ≠ .enter ∧
    ∀ t, (m.keyboard.press c).event c ≠ .display t

/-- A keyboard interrupt. -/
def KeyInterrupt (b : Boot) (m : Console) (c : UInt8) (m' : Console) : Prop :=
  getScancode b c m.keyboard m.kernel = some (m'.keyboard, m'.kernel)

/-- The line and the screen: the text before the cursor ends with the line, and begins with
the end of the text before the line. -/
structure Echoes (b : Boot) (before : List UInt8) (k : Kernel) (s : Screen)
    (earlier line : List UInt8) : Prop where
  tables : VideoTables b k.paging
  shows : ShowsAt b k vidAddr k.displayedTerminal s
  holds : Holds (k.terminals k.displayedTerminal).keyboardBuf
    (k.terminals k.displayedTerminal).curBufSize line
  length_le : line.length ≤ 127
  text : s.textBefore = earlier ++ line
  earlier : earlier <:+ before

namespace Echoes

variable {b : Boot} {before : List UInt8} {k : Kernel} {s : Screen} {earlier line : List UInt8}

/-- The record of the terminal changes, and not its cursor. -/
theorem setTerminal (h : Echoes b before k s earlier line) {f : Terminal → Terminal}
    (hx : ∀ term, (f term).screenX = term.screenX) (hy : ∀ term, (f term).screenY = term.screenY) :
    ShowsAt b (k.setTerminal k.displayedTerminal f) vidAddr k.displayedTerminal s where
  contents := h.shows.contents.setTerminal _ _
  row := by rw [Kernel.setTerminal_terminals_same, hy, h.shows.row]
  col := by rw [Kernel.setTerminal_terminals_same, hx, h.shows.col]

/-- Printing keeps the line. -/
theorem of_prints {k' : Kernel} (htables : VideoTables b k.paging)
    (hprints : PrintsOn b vidAddr k.displayedTerminal k k')
    (hshows : ShowsAt b k' vidAddr k.displayedTerminal s)
    (hholds : Holds (k.terminals k.displayedTerminal).keyboardBuf
      (k.terminals k.displayedTerminal).curBufSize line)
    (hlen : line.length ≤ 127) (htext : s.textBefore = earlier ++ line)
    (hearlier : earlier <:+ before) : Echoes b before k' s earlier line := by
  have hdisplayed := hprints.screenOnly.displayedTerminal_eq
  refine ⟨hprints.videoTables htables, ?_, ?_, hlen, htext, hearlier⟩
  · rw [hdisplayed]
    exact hshows
  · rw [hdisplayed]
    exact (hprints.screenOnly.linesKept k.displayedTerminal).holds hholds

theorem print (h : Echoes b before k s earlier line) {c : UInt8} (hlt : line.length < 127)
    (hc : ¬(c = newline ∨ c = carriageReturn)) :
    ∃ earlier', Echoes b before (putc b c (k.setTerminal k.displayedTerminal (pushChar c)))
      (s.print c) earlier' (line ++ [c]) := by
  have htables : VideoTables b (k.setTerminal k.displayedTerminal (pushChar c)).paging := h.tables
  obtain ⟨hprinted, hprints⟩ := putcAt_shows htables (Or.inl rfl)
    (h.setTerminal (f := pushChar c) (fun _ => rfl) fun _ => rfl) c
  have hholds : Holds ((k.setTerminal k.displayedTerminal (pushChar c)).terminals
        k.displayedTerminal).keyboardBuf
      ((k.setTerminal k.displayedTerminal (pushChar c)).terminals
        k.displayedTerminal).curBufSize (line ++ [c]) := by
    rw [Kernel.setTerminal_terminals_same]
    exact h.holds.push c
  have hlen : (line ++ [c]).length = line.length + 1 := List.length_append
  have hplace : earlier.length + line.length = s.pos := by
    rw [← Screen.length_textBefore, h.text, List.length_append]
  have htext := s.textBefore_print hc
  rw [h.text, List.append_assoc] at htext
  by_cases hroom : s.pos + 1 < 2000
  · rw [if_pos hroom] at htext
    exact ⟨earlier, of_prints htables hprints hprinted hholds (by omega) htext h.earlier⟩
  · -- the line is in the last rows, so what scrolls off is text before it
    rw [if_neg hroom, List.drop_append_of_le_length (by omega)] at htext
    exact ⟨earlier.drop 80, of_prints htables hprints hprinted hholds (by omega) htext
      ((List.drop_suffix 80 earlier).trans h.earlier)⟩

theorem erase (h : Echoes b before k s earlier line) (hne : line ≠ []) :
    Echoes b before (backspace b (k.setTerminal k.displayedTerminal popChar)) s.backspace earlier
      line.dropLast := by
  have htables : VideoTables b (k.setTerminal k.displayedTerminal popChar).paging := h.tables
  obtain ⟨hprinted, hprints⟩ := backspace_shows htables
    (h.setTerminal (f := popChar) (fun _ => rfl) fun _ => rfl)
  have hsize : (k.terminals k.displayedTerminal).curBufSize ≠ 0 := by
    rw [h.holds.1]
    exact fun hzero => hne (List.eq_nil_of_length_eq_zero (Int.ofNat_eq_zero.mp hzero))
  refine of_prints htables hprints hprinted ?_ ?_ ?_ h.earlier
  · rw [Kernel.setTerminal_displayedTerminal, Kernel.setTerminal_terminals_same]
    exact h.holds.pop hsize
  · rw [List.length_dropLast]
    exact (Nat.sub_le _ _).trans h.length_le
  · rw [Screen.textBefore_backspace, h.text, List.dropLast_append_of_ne_nil hne]

end Echoes

/-- The screen echoes the line. -/
def EchoesLine (b : Boot) (before : List UInt8) (k : Kernel) : Prop :=
  ∃ s earlier line, Echoes b before k s earlier line

/-- A key keeps it so. -/
theorem EchoesLine.keys {b : Boot} {before : List UInt8} {k : Kernel}
    (h : EchoesLine b before k) {kb : Keyboard} {c : UInt8} (henter : kb.event c ≠ .enter)
    (hdisplay : ∀ t, kb.event c ≠ .display t) : EchoesLine b before (keyActions b c kb k) := by
  obtain ⟨s, earlier, line, hs⟩ := h
  cases hevent : kb.event c with
  | char ch =>
      have hfits : ((k.terminals k.displayedTerminal).curBufSize < keyboardBufSize - minu ∨
          (k.terminals k.displayedTerminal).curBufSize = keyboardBufSize - minu) ↔
            line.length < 127 := by
        rw [hs.holds.1]
        simp only [keyboardBufSize, minu]
        omega
      rw [keyActions_char hevent]
      split
      · rename_i hroom
        obtain ⟨earlier', hs'⟩ := hs.print (hfits.mp hroom) (event_char_ne hevent)
        exact ⟨_, _, _, hs'⟩
      · exact ⟨s, earlier, line, hs⟩
  | erase =>
      rw [keyActions_erase hevent]
      split
      · rename_i hsize
        have hne : line ≠ [] := by
          rintro rfl
          exact hsize hs.holds.1
        exact ⟨_, _, _, hs.erase hne⟩
      · exact ⟨s, earlier, line, hs⟩
  | enter => exact absurd hevent henter
  | display t => exact absurd hevent (hdisplay t)
  | other =>
      rw [keyActions_other hevent]
      exact ⟨s, earlier, line, hs⟩

theorem getScancode_plain (b : Boot) {c : UInt8} {kb : Keyboard} (k : Kernel)
    (hctrl : (ctrlKey c kb).ctrl = false) :
    getScancode b c kb k = some (kb.press c, keyActions b c (kb.press c) k) := by
  unfold getScancode
  simp only [hctrl, Bool.false_eq_true, false_and, if_false]

theorem EchoesLine.step {b : Boot} {before : List UInt8} {m m' : Console} {c : UInt8}
    (h : EchoesLine b before m.kernel) (hplain : PlainKey m c) (hstep : KeyInterrupt b m c m') :
    EchoesLine b before m'.kernel := by
  obtain ⟨hctrl, henter, hdisplay⟩ := hplain
  have hcall := (getScancode_plain b m.kernel hctrl).symm.trans hstep
  have hkernel : keyActions b c (m.keyboard.press c) m.kernel = m'.kernel :=
    (Prod.mk.inj (Option.some.inj hcall)).2
  rw [← hkernel]
  exact h.keys henter hdisplay

/-! ## Runs -/

/-- The characters of the screen are in every other byte of the video page. -/
theorem ShowsAt.readByte_eq {b : Boot} {k : Kernel} {t : Fin 3} {s : Screen}
    (h : ShowsAt b k vidAddr t s) {i : Nat} (hi : i < 2000) :
    readByte b k (vidAddr + 2 * i) = s.charAt i := by
  have hcell := (h.contents ⟨i / 80, by omega⟩ ⟨i % 80, Nat.mod_lt _ (by decide)⟩).1
  have haddr : cellPos vidAddr (i / 80) (i % 80) = vidAddr + 2 * i := by
    unfold cellPos
    simp only [numCols]
    omega
  unfold Screen.charAt
  rw [dif_pos hi, ← haddr]
  exact hcell

/-- A character of the text before the cursor. -/
theorem Screen.textBefore_getD (s : Screen) {i : Nat} (hi : i < s.pos) (d : UInt8) :
    s.textBefore.getD i d = s.charAt i := by
  unfold textBefore
  rw [List.getD_eq_getElem _ _ (by simpa using hi), List.getElem_map, List.getElem_range]

/-- With the cursor at place `p` in reading order and `n` characters on the line of the
terminal that is displayed: the `n` cells before the cursor hold the line, and the cells
before those hold the end of what was before place `p₀` in the state `k₀`. -/
structure ShowsLine (b : Boot) (k₀ : Kernel) (p₀ : Nat) (k : Kernel) (p n : Nat) : Prop where
  col : 0 ≤ (k.terminals k.displayedTerminal).screenX ∧
    (k.terminals k.displayedTerminal).screenX < 80
  row : 0 ≤ (k.terminals k.displayedTerminal).screenY ∧
    (k.terminals k.displayedTerminal).screenY < 25
  place : 80 * (k.terminals k.displayedTerminal).screenY +
    (k.terminals k.displayedTerminal).screenX = p
  size : (k.terminals k.displayedTerminal).curBufSize = n
  fits : n ≤ p
  line : ∀ i < n, readByte b k (vidAddr + 2 * (p - n + i)) =
    (k.terminals k.displayedTerminal).keyboardBuf i
  earlier : ∃ d, d + (p - n) = p₀ ∧
    ∀ j < p - n, readByte b k (vidAddr + 2 * j) = readByte b k₀ (vidAddr + 2 * (d + j))

/-- A text that is held in a buffer. -/
theorem Holds.getD {buf : Nat → UInt8} {size : Int} {l : List UInt8} (h : Holds buf size l)
    {i : Nat} (hi : i < l.length) (d : UInt8) : l.getD i d = buf i := by
  have hbytes := h.2
  rw [← hbytes, List.getD_eq_getElem _ _ (by simpa using hi), List.getElem_map, List.getElem_range]

theorem Echoes.showsLine {b : Boot} {k₀ k : Kernel} {t : Fin 3} {s₀ s : Screen}
    {earlier line : List UInt8} (hs₀ : ShowsAt b k₀ vidAddr t s₀)
    (h : Echoes b s₀.textBefore k s earlier line) :
    ShowsLine b k₀ s₀.pos k s.pos line.length := by
  have hpos := s.pos_lt
  have hpos₀ := s₀.pos_lt
  have hlen : earlier.length + line.length = s.pos := by
    rw [← Screen.length_textBefore, h.text, List.length_append]
  have hplace : s.pos = 80 * s.row + s.col := rfl
  have hrow := h.shows.row
  have hcol := h.shows.col
  have hrow' := s.row.isLt
  have hcol' := s.col.isLt
  refine ⟨by omega, by omega, by omega, h.holds.1, by omega, fun i hi => ?_, ?_⟩
  · have hchar := s.textBefore_getD (i := s.pos - line.length + i) (by omega) 0
    rw [h.text, List.getD_append_right _ _ _ _ (by omega)] at hchar
    have hindex : s.pos - line.length + i - earlier.length = i := by omega
    rw [hindex, h.holds.getD hi] at hchar
    rw [h.shows.readByte_eq (by omega), ← hchar]
  · obtain ⟨gone, hgone⟩ := h.earlier
    have hlen₀ : gone.length + earlier.length = s₀.pos := by
      rw [← Screen.length_textBefore, ← hgone, List.length_append]
    refine ⟨gone.length, by omega, fun j hj => ?_⟩
    have hchar := s.textBefore_getD (i := j) (by omega) 0
    have hchar₀ := s₀.textBefore_getD (i := gone.length + j) (by omega) 0
    rw [h.text, List.getD_append _ _ _ _ (by omega)] at hchar
    rw [← hgone, List.getD_append_right _ _ _ _ (by omega), Nat.add_sub_cancel_left] at hchar₀
    rw [h.shows.readByte_eq (by omega), hs₀.readByte_eq (by omega), ← hchar, ← hchar₀]

/-- From any screen with the cursor on it and an empty line, after any sequence of keys
without control, the enter key and switches of the terminal: the cells before the cursor
hold the line, and before those is what was before the cursor at the start. -/
theorem screen_shows_line (b : Boot) (m₀ : Console) (htables : VideoTables b m₀.kernel.paging)
    (hcol : 0 ≤ (m₀.kernel.terminals m₀.kernel.displayedTerminal).screenX ∧
      (m₀.kernel.terminals m₀.kernel.displayedTerminal).screenX < 80)
    (hrow : 0 ≤ (m₀.kernel.terminals m₀.kernel.displayedTerminal).screenY ∧
      (m₀.kernel.terminals m₀.kernel.displayedTerminal).screenY < 25)
    (hempty : (m₀.kernel.terminals m₀.kernel.displayedTerminal).curBufSize = 0)
    (labels : List UInt8) (m : Console)
    (hrun : Run (guarded PlainKey (KeyInterrupt b)) m₀ labels m) :
    ∃ p₀ p n : Nat,
      80 * (m₀.kernel.terminals m₀.kernel.displayedTerminal).screenY +
        (m₀.kernel.terminals m₀.kernel.displayedTerminal).screenX = p₀ ∧
      ShowsLine b m₀.kernel p₀ m.kernel p n := by
  obtain ⟨s₀, hshows, hrow₀, hcol₀⟩ := exists_shows b (k := m₀.kernel)
    (t := m₀.kernel.displayedTerminal)
    (m₀.kernel.terminals m₀.kernel.displayedTerminal).screenY.toNat
    (m₀.kernel.terminals m₀.kernel.displayedTerminal).screenX.toNat
    (Int.toNat_of_nonneg hrow.1).symm (Int.toNat_of_nonneg hcol.1).symm (by omega) (by omega)
  have hs₀ : ShowsAt b m₀.kernel vidAddr m₀.kernel.displayedTerminal s₀ := by
    unfold Shows screenPage at hshows
    rwa [if_pos rfl] at hshows
  have hstart : EchoesLine b s₀.textBefore m₀.kernel :=
    ⟨s₀, s₀.textBefore, [], htables, hs₀, ⟨hempty, rfl⟩, Nat.zero_le _, by simp, List.suffix_rfl⟩
  obtain ⟨s, earlier, line, hechoes⟩ := hrun.invariant
    (P := fun m => EchoesLine b s₀.textBefore m.kernel)
    (fun _ _ _ h hstep => h.step hstep.1 hstep.2) hstart
  refine ⟨s₀.pos, s.pos, line.length, ?_, hechoes.showsLine hs₀⟩
  unfold Screen.pos
  omega

theorem PlainKey.interrupt {kb : Keyboard} {k : Kernel} {c : UInt8} (h : PlainKey ⟨kb, k⟩ c)
    (b : Boot) :
    guarded PlainKey (KeyInterrupt b) ⟨kb, k⟩ c ⟨kb.press c, keyActions b c (kb.press c) k⟩ :=
  ⟨h, getScancode_plain b k h.1⟩

/-- The letters `a` and `b`, a backspace, and the letter `a` again. -/
theorem exists_letters_run (b : Boot) (k : Kernel) :
    ∃ m, Run (guarded PlainKey (KeyInterrupt b)) ⟨keyboardInit, k⟩
      ([0x1E] ++ [0x30] ++ [0x0E] ++ [0x1E]) m := by
  have hkeys : ∀ c ∈ [(0x1E : UInt8), 0x30, 0x0E],
      (ctrlKey c keyboardInit).ctrl = false ∧ (keyboardInit.press c).event c ≠ .enter ∧
        (∀ t, (keyboardInit.press c).event c ≠ .display t) ∧
        keyboardInit.press c = keyboardInit := by
    decide +kernel
  have hkey : ∀ c ∈ [(0x1E : UInt8), 0x30, 0x0E], ∀ k : Kernel,
      guarded PlainKey (KeyInterrupt b) ⟨keyboardInit, k⟩ c
        ⟨keyboardInit, keyActions b c keyboardInit k⟩ := by
    intro c hc k
    obtain ⟨hctrl, henter, hdisplay, hpress⟩ := hkeys c hc
    have hplain : PlainKey ⟨keyboardInit, k⟩ c := ⟨hctrl, henter, hdisplay⟩
    have hstep := hplain.interrupt b
    rwa [hpress] at hstep
  exact ⟨_, (((Run.single (hkey 0x1E (by decide) k)).snoc (hkey 0x30 (by decide) _)).snoc
    (hkey 0x0E (by decide) _)).snoc (hkey 0x1E (by decide) _)⟩

theorem screen_shows_line_letters : ∃ m : Console, ∃ p₀ p n : Nat,
    Run (guarded PlainKey (KeyInterrupt smallBoot))
        ⟨keyboardInit, boot smallBoot blankKernel⟩ ([0x1E] ++ [0x30] ++ [0x0E] ++ [0x1E]) m ∧
      ShowsLine smallBoot (boot smallBoot blankKernel) p₀ m.kernel p n := by
  have htables := boot_videoTables smallBoot blankKernel
  have hterminals := boot_terminals smallBoot blankKernel
  obtain ⟨k, hk⟩ : ∃ k, boot smallBoot blankKernel = k := ⟨_, rfl⟩
  rw [hk] at htables hterminals ⊢
  obtain ⟨m, hrun⟩ := exists_letters_run smallBoot k
  have hterm := hterminals k.displayedTerminal
  have hx : (k.terminals k.displayedTerminal).screenX = 0 := by rw [hterm]; rfl
  have hy : (k.terminals k.displayedTerminal).screenY = 0 := by rw [hterm]; rfl
  have hsize : (k.terminals k.displayedTerminal).curBufSize = 0 := by rw [hterm]; rfl
  obtain ⟨p₀, p, n, -, hshows⟩ := screen_shows_line smallBoot ⟨keyboardInit, k⟩ htables
    (by simp only [hx]; decide) (by simp only [hy]; decide) hsize _ _ hrun
  exact ⟨m, p₀, p, n, hrun, hshows⟩

end Ece391Kernel
