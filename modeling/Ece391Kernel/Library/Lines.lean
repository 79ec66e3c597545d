import Mathlib.Data.List.DropRight
import Mathlib.Data.List.Basic

/-!
# Lists of lines

A list is cut at every separator into lines. `finished` is the list up to its last separator and
`unfinished` what follows. What is done line by line (`perLine`) can be done in two pieces if the
unfinished line of the first is put in front of the second.
-/

namespace Lines

variable {α β : Type*} [DecidableEq α] {sep : α}

/-- What follows the last separator. -/
def unfinished (sep : α) (l : List α) : List α := l.rtakeWhile (· ≠ sep)

/-- The list up to its last separator. -/
def finished (sep : α) (l : List α) : List α := l.rdropWhile (· ≠ sep)

/-- A function of lines, for all lines of a list. -/
def perLine (sep : α) (f : List α → List β) (l : List α) : List β := (l.splitOn sep).flatMap f

/-- No line is longer than `n`. -/
def Bounded (sep : α) (n : ℕ) (l : List α) : Prop := ∀ line ∈ l.splitOn sep, line.length ≤ n

theorem finished_append_unfinished (sep : α) (l : List α) :
    finished sep l ++ unfinished sep l = l :=
  List.rdropWhile_append_rtakeWhile

theorem not_mem_unfinished (sep : α) (l : List α) : sep ∉ unfinished sep l := by
  intro hmem
  simpa using List.mem_rtakeWhile_imp hmem

theorem unfinished_of_not_mem {l : List α} (h : sep ∉ l) : unfinished sep l = l := by
  refine List.rtakeWhile_eq_self_iff.mpr fun a ha => decide_eq_true ?_
  rintro rfl
  exact h ha

theorem finished_of_not_mem {l : List α} (h : sep ∉ l) : finished sep l = [] := by
  refine List.rdropWhile_eq_nil_iff.mpr fun a ha => decide_eq_true ?_
  rintro rfl
  exact h ha

/-- What is finished ends with a separator. -/
theorem finished_eq (sep : α) (l : List α) :
    finished sep l = [] ∨ ∃ front, finished sep l = front ++ [sep] := by
  by_cases hnil : finished sep l = []
  · exact Or.inl hnil
  · have hlast : (finished sep l).getLast hnil = sep := by
      by_contra hne
      exact List.rdropWhile_last_not (· ≠ sep) l hnil (decide_eq_true hne)
    refine Or.inr ⟨(finished sep l).dropLast, ?_⟩
    conv_lhs => rw [← List.dropLast_append_getLast hnil, hlast]

theorem not_mem_of_finished {l : List α} (h : finished sep l = []) : sep ∉ l := by
  have hnot := not_mem_unfinished sep l
  have hwhole := finished_append_unfinished sep l
  rw [h, List.nil_append] at hwhole
  rwa [hwhole] at hnot

theorem unfinished_concat (l : List α) (a : α) :
    unfinished sep (l ++ [a]) = if a = sep then [] else unfinished sep l ++ [a] := by
  unfold unfinished
  rw [List.rtakeWhile_concat]
  by_cases ha : a = sep <;> simp [ha]

theorem unfinished_append_cons (l r : List α) :
    unfinished sep (l ++ sep :: r) = unfinished sep r := by
  induction r using List.reverseRecOn with
  | nil => rw [unfinished_concat, if_pos rfl]; rfl
  | append_singleton r a ih =>
      rw [← List.cons_append, ← List.append_assoc, unfinished_concat, unfinished_concat, ih]

theorem finished_append_cons (l r : List α) :
    finished sep (l ++ sep :: r) = l ++ sep :: finished sep r := by
  have hwhole : finished sep (l ++ sep :: r) ++ unfinished sep r =
      (l ++ sep :: finished sep r) ++ unfinished sep r := by
    rw [← unfinished_append_cons l r, finished_append_unfinished, unfinished_append_cons,
      List.append_assoc, List.cons_append, finished_append_unfinished]
  exact List.append_cancel_right hwhole

/-- A line behind what is finished is a line of the whole. -/
theorem mem_splitOn_append {l r line : List α} (h : line ∈ (unfinished sep l ++ r).splitOn sep) :
    line ∈ (l ++ r).splitOn sep := by
  rw [← finished_append_unfinished sep l, List.append_assoc]
  rcases finished_eq sep l with hnil | ⟨front, hfront⟩
  · rwa [hnil]
  · rw [hfront, List.append_assoc, List.singleton_append, List.splitOn_append_cons_self]
    exact List.mem_append_right _ h

theorem mem_splitOn_line_append {line r : List α} (hline : sep ∉ line)
    (hr : r = [] ∨ ∃ r', r = sep :: r') : line ∈ (line ++ r).splitOn sep := by
  rcases hr with rfl | ⟨r', rfl⟩
  · rw [List.append_nil, List.splitOn_eq_singleton hline]
    exact List.mem_singleton_self line
  · rw [List.splitOn_append_cons_self_of_not_mem hline]
    exact List.mem_cons_self

/-- The first line of a list, and what follows. -/
theorem takeWhile_line (sep : α) (l : List α) :
    sep ∉ l.takeWhile (· ≠ sep) ∧
      ∃ r, l = l.takeWhile (· ≠ sep) ++ r ∧ (r = [] ∨ ∃ r', r = sep :: r') := by
  refine ⟨fun hmem => by simpa using List.mem_takeWhile_imp hmem, l.dropWhile (· ≠ sep),
    List.takeWhile_append_dropWhile.symm, ?_⟩
  cases hdrop : l.dropWhile (· ≠ sep) with
  | nil => exact Or.inl rfl
  | cons a r =>
      have hne : l.dropWhile (· ≠ sep) ≠ [] := by
        rw [hdrop]
        exact List.cons_ne_nil a r
      have hfirst := List.head_dropWhile_not (fun a => decide (a ≠ sep)) hne
      simp only [hdrop, List.head_cons] at hfirst
      exact Or.inr ⟨r, by rw [of_not_not (of_decide_eq_false hfirst)]⟩

section PerLine

variable {f : List α → List β}

theorem perLine_of_not_mem {l : List α} (h : sep ∉ l) : perLine sep f l = f l := by
  unfold perLine
  rw [List.splitOn_eq_singleton h, List.flatMap_singleton]

theorem perLine_append_cons (l r : List α) :
    perLine sep f (l ++ sep :: r) = perLine sep f l ++ perLine sep f r := by
  unfold perLine
  rw [List.splitOn_append_cons_self, List.flatMap_append]

theorem perLine_nil (hf : f [] = []) : perLine sep f [] = [] := by
  rw [perLine_of_not_mem List.not_mem_nil, hf]

/-- Two pieces, the first of which may end within a line. -/
theorem perLine_append (hf : f [] = []) (l r : List α) :
    perLine sep f (l ++ r) =
      perLine sep f (finished sep l) ++ perLine sep f (unfinished sep l ++ r) := by
  conv_lhs => rw [← finished_append_unfinished sep l]
  rcases finished_eq sep l with hnil | ⟨front, hfront⟩
  · rw [hnil, perLine_nil hf]
    rfl
  · rw [hfront, List.append_assoc, List.append_assoc, List.singleton_append, perLine_append_cons,
      perLine_append_cons, perLine_nil hf, List.append_nil]

theorem perLine_eq (hf : f [] = []) (l : List α) :
    perLine sep f l = perLine sep f (finished sep l) ++ f (unfinished sep l) := by
  have h : perLine sep f (l ++ []) = _ := perLine_append hf l []
  rwa [List.append_nil, List.append_nil, perLine_of_not_mem (not_mem_unfinished sep l)] at h

/-- Two pieces, the first of which ends with a separator. -/
theorem perLine_append_of_unfinished (hf : f [] = []) {l : List α} (hl : unfinished sep l = [])
    (r : List α) : perLine sep f (l ++ r) = perLine sep f l ++ perLine sep f r := by
  rw [perLine_append hf, perLine_eq hf l, hl, hf, List.append_nil, List.nil_append]

/-- The first line. -/
theorem perLine_line_append (hf : f [] = []) {line r : List α} (hline : sep ∉ line)
    (hr : r = [] ∨ ∃ r', r = sep :: r') :
    perLine sep f (line ++ r) = f line ++ perLine sep f r.tail := by
  rcases hr with rfl | ⟨r', rfl⟩
  · rw [List.append_nil, perLine_of_not_mem hline, List.tail_nil, perLine_nil hf, List.append_nil]
  · rw [perLine_append_cons, perLine_of_not_mem hline, List.tail_cons]

/-- The line that goes on from one piece into the other. -/
theorem perLine_append_line_append (hf : f [] = []) {l line r : List α} (hline : sep ∉ line)
    (hr : r = [] ∨ ∃ r', r = sep :: r') :
    perLine sep f (l ++ (line ++ r)) =
      perLine sep f (finished sep l) ++ (f (unfinished sep l ++ line) ++ perLine sep f r.tail) := by
  have hnot : sep ∉ unfinished sep l ++ line :=
    List.not_mem_append (not_mem_unfinished sep l) hline
  rw [perLine_append hf, ← List.append_assoc (unfinished sep l), perLine_line_append hf hnot hr]

end PerLine

theorem bounded_append_cons {n : ℕ} {l r : List α} :
    Bounded sep n (l ++ sep :: r) ↔ Bounded sep n l ∧ Bounded sep n r := by
  unfold Bounded
  rw [List.splitOn_append_cons_self]
  simp only [List.mem_append, or_imp, forall_and]

theorem bounded_of_not_mem {n : ℕ} {l : List α} (h : sep ∉ l) :
    Bounded sep n l ↔ l.length ≤ n := by
  unfold Bounded
  rw [List.splitOn_eq_singleton h]
  simp

theorem Bounded.of_append {n : ℕ} {l r : List α} (h : Bounded sep n (l ++ r)) :
    Bounded sep n r := by
  induction l with
  | nil => exact h
  | cons a l ih =>
      refine ih fun line hline => ?_
      by_cases ha : a = sep
      · rw [List.cons_append, ha] at h
        exact (bounded_append_cons (l := []).mp h).2 line hline
      · unfold Bounded at h
        rw [List.cons_append, List.splitOn_cons_eq_if_modifyHead, if_neg (by simpa using ha)] at h
        cases hsplit : (l ++ r).splitOn sep with
        | nil => exact absurd hsplit (List.splitOn_ne_nil _ _)
        | cons first lines =>
            rw [hsplit] at h hline
            rcases List.mem_cons.mp hline with rfl | hmem
            · have hfirst := h (a :: line) (by simp)
              rw [List.length_cons] at hfirst
              omega
            · exact h line (by simp [hmem])

/-- Bytes without a separator are part of one line. -/
theorem Bounded.length_le {n : ℕ} {l r : List α} (h : Bounded sep n (l ++ r)) (hl : sep ∉ l) :
    l.length ≤ n := by
  have hline : ∀ line, sep ∉ line → Bounded sep n (l ++ line) → l.length ≤ n := by
    intro line hline hbounded
    have hnot : sep ∉ l ++ line :=
      List.not_mem_append hl hline
    have hle := (bounded_of_not_mem hnot).mp hbounded
    rw [List.length_append] at hle
    omega
  by_cases hr : sep ∈ r
  · obtain ⟨line, rest, rfl, hnot⟩ := List.eq_append_cons_of_mem hr
    rw [← List.append_assoc] at h
    exact hline line hnot (bounded_append_cons.mp h).1
  · exact hline r hr h

end Lines
