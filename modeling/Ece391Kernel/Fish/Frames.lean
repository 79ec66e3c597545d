import Ece391Kernel.Fish.Period
import Mathlib.Data.List.GetD

/-!
# Two frames

`add_frames` of `fish.c` reads two files at once and adds a structure for each place where one of
them has something to show, with the character of the first file for its on character and that of
the second for its off character. Both lengths are 15, so the files alternate on the screen. The
places of short lines and missing lines are blank.
-/

namespace Ece391Kernel

open TransitionSystem

/-! ## The function -/

/-- A file that is being read: the character read last, whether the end has been found, and what
has not been read. -/
structure FrameFile where
  c : UInt8
  eof : Bool
  rest : List UInt8

/-- The read of one byte, unless the line has ended. -/
def FrameFile.read (s : FrameFile) : FrameFile :=
  if s.c ≠ 0x0A then
    match s.rest with
    | [] => { s with c := 0x0A, eof := true }
    | c :: rest => { s with c := c, rest := rest }
  else s

/-- What is done with a file at the end of a row, but for `ece391_close`. -/
def FrameFile.endRow (s : FrameFile) : FrameFile :=
  if s.eof then { s with c := 0x0A } else { s with c := 0x30 }

/-- The inner loop of `add_frames`. -/
def frameColumns : Nat → Nat → Nat → Mp1BlinkStruct → FrameFile → FrameFile → Fish →
    Option (Mp1BlinkStruct × FrameFile × FrameFile × Fish)
  | 0, _, _, _, _, _, _ => none
  | fuel + 1, row, col, blinkStruct, s0, s1, f =>
      let s0 := s0.read
      let s1 := s1.read
      if s0.c = 0x0A ∧ s1.c = 0x0A then some (blinkStruct, s0, s1, f)
      else if s0.c ≠ 0x20 ∧ s0.c ≠ 0x0A ∨ s1.c ≠ 0x20 ∧ s1.c ≠ 0x0A then
        let blinkStruct := { blinkStruct with
          onChar := if s0.c = 0x0A then 0x20 else s0.c
          offChar := if s1.c = 0x0A then 0x20 else s1.c
          location := BitVec.ofNat 16 (row * 80 + col + 40) }
        frameColumns fuel row (col + 1) blinkStruct s0 s1 (mp1IoctlAdd blinkStruct f).2
      else frameColumns fuel row (col + 1) blinkStruct s0 s1 f

/-- The outer loop of `add_frames`. -/
def frameRows : Nat → Nat → Mp1BlinkStruct → FrameFile → FrameFile → Fish → Option Fish
  | 0, _, _, _, _, _ => none
  | fuel + 1, row, blinkStruct, s0, s1, f =>
      if s0.eof = false ∨ s1.eof = false then do
        let (blinkStruct, s0, s1, f) ← frameColumns fuel row 0 blinkStruct s0 s1 f
        frameRows fuel (row + 1) blinkStruct s0.endRow s1.endRow f
      else some f

/-- `add_frames`, for what the two files hold when they have been opened, and with what the stack
holds in place of `blink_struct`. -/
def addFrames (fuel : Nat) (stack : Mp1BlinkStruct) (file0 file1 : List UInt8) (f : Fish) :
    Option Fish :=
  frameRows fuel 0 { stack with onLength := 15, offLength := 15 } ⟨0x30, false, file0⟩
    ⟨0x30, false, file1⟩ f

/-! ## Two lists side by side -/

section Padded

variable {α β : Type*}

/-- What two lists give in each place, the shorter one filled up. -/
def padded (d : α) (l l' : List α) (g : Nat → α → α → List β) : List β :=
  (List.range (max l.length l'.length)).flatMap fun j => g j (l.getD j d) (l'.getD j d)

@[simp] theorem padded_nil (d : α) (g : Nat → α → α → List β) : padded d [] [] g = [] := rfl

theorem padded_cons (d : α) {l l' : List α} (h : ¬(l = [] ∧ l' = [])) (g : Nat → α → α → List β) :
    padded d l l' g =
      g 0 (l.headD d) (l'.headD d) ++ padded d l.tail l'.tail fun j => g (j + 1) := by
  have hlen : max l.length l'.length = max l.tail.length l'.tail.length + 1 := by
    have hpos : 0 < l.length ∨ 0 < l'.length := by
      rw [not_and_or] at h
      exact h.imp List.length_pos_iff.mpr List.length_pos_iff.mpr
    rw [List.length_tail, List.length_tail]
    omega
  have hhead : ∀ l : List α, l.getD 0 d = l.headD d := by
    rintro (_ | ⟨a, l⟩) <;> rfl
  have htail : ∀ (l : List α) (j : Nat), l.getD (j + 1) d = l.tail.getD j d := by
    rintro (_ | ⟨a, l⟩) j <;> rfl
  unfold padded
  rw [hlen, List.range_succ_eq_map, List.flatMap_cons, List.flatMap_map, hhead, hhead]
  simp only [Nat.succ_eq_add_one, htail]

theorem mem_padded {d : α} {l l' : List α} {g : Nat → α → α → List β} {x : β} :
    x ∈ padded d l l' g ↔
      ∃ j < max l.length l'.length, x ∈ g j (l.getD j d) (l'.getD j d) := by
  unfold padded
  simp only [List.mem_flatMap, List.mem_range]

theorem pairwise_padded {R : β → β → Prop} {d : α} {l l' : List α} {g : Nat → α → α → List β}
    (hsame : ∀ j, (g j (l.getD j d) (l'.getD j d)).Pairwise R)
    (hlater : ∀ j k, j < k → ∀ x ∈ g j (l.getD j d) (l'.getD j d),
      ∀ y ∈ g k (l.getD k d) (l'.getD k d), R x y) : (padded d l l' g).Pairwise R := by
  unfold padded
  refine List.pairwise_flatMap.mpr ⟨fun j _ => hsame j, ?_⟩
  exact List.pairwise_lt_range.imp fun hlt => hlater _ _ hlt

end Padded

/-! ## What it adds -/

/-- The character of a file in a row and a column. -/
def pictureAt (file : List UInt8) (row col : Nat) : UInt8 :=
  ((file.splitOn 0x0A).getD row []).getD col 0x20

/-- The structure for a place. -/
def frameStruct (stack : Mp1BlinkStruct) (row col : Nat) (c0 c1 : UInt8) : Mp1BlinkStruct :=
  { stack with
    location := BitVec.ofNat 16 (row * 80 + col + 40)
    onChar := c0
    offChar := c1
    onLength := 15
    offLength := 15 }

/-- The structures for a place: none if both characters are blank. -/
def placeAdds (stack : Mp1BlinkStruct) (row col : Nat) (c0 c1 : UInt8) : List Mp1BlinkStruct :=
  if c0 ≠ 0x20 ∨ c1 ≠ 0x20 then [frameStruct stack row col c0 c1] else []

/-- The structures for the lines from a row on. -/
def linesAdds (stack : Mp1BlinkStruct) (row : Nat) (lines0 lines1 : List (List UInt8)) :
    List Mp1BlinkStruct :=
  padded [] lines0 lines1 fun i l0 l1 => padded 0x20 l0 l1 fun j => placeAdds stack (row + i) j

/-- The structures are added one after the other. -/
def addAll (l : List Mp1BlinkStruct) (f : Fish) : Fish :=
  l.foldl (fun f data => (mp1IoctlAdd data f).2) f

theorem addAll_append (l l' : List Mp1BlinkStruct) (f : Fish) :
    addAll (l ++ l') f = addAll l' (addAll l f) :=
  List.foldl_append

/-! ## The files -/

namespace FrameFile

/-- What a file has left: the rest of its line, and the lines that follow. -/
inductive Ahead : FrameFile → List UInt8 → List (List UInt8) → Prop
  | reading {c : UInt8} {rest cur : List UInt8} {more : List (List UInt8)} (hc : c ≠ 0x0A)
      (hsplit : rest.splitOn 0x0A = cur :: more) : Ahead ⟨c, false, rest⟩ cur more
  | ended (rest : List UInt8) : Ahead ⟨0x0A, false, rest⟩ [] (rest.splitOn 0x0A)
  | closed (rest : List UInt8) : Ahead ⟨0x0A, true, rest⟩ [] []

/-- A file at the beginning of a line, or closed. -/
structure AtLine (s : FrameFile) (lines : List (List UInt8)) : Prop where
  ahead : s.Ahead (lines.headD []) lines.tail
  eof : s.eof = true ↔ lines = []
  open_c : s.eof = false → s.c ≠ 0x0A

/-- How many reads a file can still take. -/
def pending (s : FrameFile) : Nat := if s.eof then 0 else s.rest.length + 1

variable {s : FrameFile} {cur : List UInt8} {more : List (List UInt8)}

theorem atLine_start (file : List UInt8) : AtLine ⟨0x30, false, file⟩ (file.splitOn 0x0A) where
  ahead := by
    cases hsplit : file.splitOn 0x0A with
    | nil => exact absurd hsplit (List.splitOn_ne_nil _ _)
    | cons cur more => exact .reading (by decide) hsplit
  eof := by simp [List.splitOn_ne_nil]
  open_c := fun _ => (by decide : (0x30 : UInt8) ≠ 0x0A)

/-- A read takes the next character of the line, or finds its end. -/
theorem Ahead.read (h : s.Ahead cur more) :
    s.read.Ahead cur.tail more ∧ (s.read.c = 0x0A ↔ cur = []) ∧
      (if s.read.c = 0x0A then 0x20 else s.read.c) = cur.headD 0x20 := by
  cases h with
  | ended rest => exact ⟨.ended rest, by simp [FrameFile.read], by simp [FrameFile.read]⟩
  | closed rest => exact ⟨.closed rest, by simp [FrameFile.read], by simp [FrameFile.read]⟩
  | reading hc hsplit =>
      rename_i c rest
      unfold FrameFile.read
      simp only [ne_eq, hc, not_false_eq_true, if_true]
      cases rest with
      | nil =>
          rw [List.splitOn_nil] at hsplit
          obtain ⟨rfl, rfl⟩ := List.cons.inj hsplit
          exact ⟨.closed [], by simp, by simp⟩
      | cons c' rest =>
          by_cases hc' : c' = 0x0A
          · subst hc'
            have hnil : ((0x0A : UInt8) :: rest).splitOn 0x0A = [] :: rest.splitOn 0x0A :=
              List.splitOn_append_cons_self [] rest
            obtain ⟨rfl, rfl⟩ := List.cons.inj (hnil.symm.trans hsplit)
            exact ⟨.ended rest, by simp, by simp⟩
          · rw [List.splitOn_cons_eq_if_modifyHead, if_neg (by simpa using hc')] at hsplit
            cases hrest : rest.splitOn 0x0A with
            | nil => exact absurd hrest (List.splitOn_ne_nil _ _)
            | cons first lines =>
                rw [hrest, List.modifyHead_cons] at hsplit
                obtain ⟨rfl, rfl⟩ := List.cons.inj hsplit
                exact ⟨.reading hc' hrest, by simp [hc'], by simp [hc']⟩

theorem read_pending (s : FrameFile) (heof : s.eof = true → s.c = 0x0A) :
    s.read.pending + (if s.c = 0x0A then 0 else 1) = s.pending := by
  unfold FrameFile.read pending
  by_cases hc : s.c = 0x0A
  · simp [hc]
  · have hopen : s.eof = false := by
      cases h : s.eof with
      | true => exact absurd (heof h) hc
      | false => rfl
    simp only [ne_eq, hc, not_false_eq_true, if_true, if_false, hopen]
    cases s.rest <;> simp

theorem Ahead.eof_c (h : s.Ahead cur more) : s.eof = true → s.c = 0x0A := by
  cases h <;> simp

/-- At the end of a line the next one begins, unless the file has ended. -/
theorem Ahead.endRow (h : s.Ahead cur more) (hc : s.c = 0x0A) :
    s.endRow.AtLine more ∧ s.endRow.pending = s.pending := by
  cases h with
  | reading hne hsplit => exact absurd hc hne
  | ended rest => exact ⟨atLine_start rest, rfl⟩
  | closed rest =>
      exact ⟨⟨.closed rest, by simp [FrameFile.endRow], by simp [FrameFile.endRow]⟩, rfl⟩

end FrameFile

/-! ## The loops -/

section Loops

variable {stack b : Mp1BlinkStruct} {s0 s1 : FrameFile}

/-- The structure on the stack, when the lengths have been stored. -/
def OfStack (stack b : Mp1BlinkStruct) : Prop :=
  ∃ location c0 c1, b = { stack with
    location := location
    onChar := c0
    offChar := c1
    onLength := 15
    offLength := 15 }

theorem OfStack.place (h : OfStack stack b) (row col : Nat) (c0 c1 : UInt8) :
    { b with onChar := c0, offChar := c1, location := BitVec.ofNat 16 (row * 80 + col + 40) } =
      frameStruct stack row col c0 c1 := by
  obtain ⟨location, c0', c1', rfl⟩ := h
  rfl

theorem frameStruct_ofStack (stack : Mp1BlinkStruct) (row col : Nat) (c0 c1 : UInt8) :
    OfStack stack (frameStruct stack row col c0 c1) := ⟨_, _, _, rfl⟩

/-- The inner loop ends, and adds what the two lines show. -/
theorem frameColumns_eq {cur0 cur1 : List UInt8} {more0 more1 : List (List UInt8)}
    (h0 : s0.Ahead cur0 more0) (h1 : s1.Ahead cur1 more1) (hb : OfStack stack b)
    (hopen : s0.c ≠ 0x0A ∨ s1.c ≠ 0x0A) {fuel : Nat} (hfuel : s0.pending + s1.pending < fuel)
    (row col : Nat) (f : Fish) :
    ∃ b' s0' s1', frameColumns fuel row col b s0 s1 f = some (b', s0', s1',
        addAll (padded 0x20 cur0 cur1 fun j => placeAdds stack row (col + j)) f) ∧
      OfStack stack b' ∧ (s0'.Ahead [] more0 ∧ s0'.c = 0x0A) ∧ (s1'.Ahead [] more1 ∧ s1'.c = 0x0A) ∧
      s0'.pending + s1'.pending < s0.pending + s1.pending := by
  induction fuel generalizing cur0 cur1 s0 s1 b col f with
  | zero => exact absurd hfuel (Nat.not_lt_zero _)
  | succ fuel ih =>
      obtain ⟨hread0, hend0, hchar0⟩ := h0.read
      obtain ⟨hread1, hend1, hchar1⟩ := h1.read
      have hless : s0.read.pending + s1.read.pending < s0.pending + s1.pending := by
        have hone0 := s0.read_pending h0.eof_c
        have hone1 := s1.read_pending h1.eof_c
        rcases hopen with hc | hc
        · rw [if_neg hc] at hone0
          omega
        · rw [if_neg hc] at hone1
          omega
      unfold frameColumns
      simp only
      by_cases hend : cur0 = [] ∧ cur1 = []
      · obtain ⟨rfl, rfl⟩ := hend
        rw [if_pos ⟨hend0.mpr rfl, hend1.mpr rfl⟩, padded_nil]
        exact ⟨b, _, _, rfl, hb, ⟨hread0, hend0.mpr rfl⟩, ⟨hread1, hend1.mpr rfl⟩, hless⟩
      · have hopen' : s0.read.c ≠ 0x0A ∨ s1.read.c ≠ 0x0A := by
          rw [ne_eq, ne_eq, hend0, hend1]
          exact not_and_or.mp hend
        have htest : (s0.read.c ≠ 0x20 ∧ s0.read.c ≠ 0x0A ∨ s1.read.c ≠ 0x20 ∧ s1.read.c ≠ 0x0A) ↔
            (cur0.headD 0x20 ≠ 0x20 ∨ cur1.headD 0x20 ≠ 0x20) := by
          rw [← hchar0, ← hchar1]
          by_cases hc0 : s0.read.c = 0x0A <;> by_cases hc1 : s1.read.c = 0x0A <;> simp [hc0, hc1]
        have hshift : (fun j => placeAdds stack row (col + (j + 1))) =
            fun j => placeAdds stack row (col + 1 + j) :=
          funext fun j => by rw [Nat.add_right_comm, Nat.add_assoc]
        rw [if_neg (by rw [hend0, hend1]; exact hend), padded_cons _ hend, addAll_append, hshift,
          Nat.add_zero, hchar0, hchar1, hb.place]
        by_cases hdrawn : cur0.headD 0x20 ≠ 0x20 ∨ cur1.headD 0x20 ≠ 0x20
        · obtain ⟨b', s0', s1', hrun, hb', he0, he1, hlt⟩ := ih hread0 hread1
            (frameStruct_ofStack stack row col (cur0.headD 0x20) (cur1.headD 0x20)) hopen'
            (by omega) (col + 1) (mp1IoctlAdd
              (frameStruct stack row col (cur0.headD 0x20) (cur1.headD 0x20)) f).2
          rw [if_pos (htest.mpr hdrawn), hrun, placeAdds, if_pos hdrawn]
          exact ⟨b', s0', s1', rfl, hb', he0, he1, by omega⟩
        · obtain ⟨b', s0', s1', hrun, hb', he0, he1, hlt⟩ := ih hread0 hread1 hb hopen' (by omega)
            (col + 1) f
          rw [if_neg (mt htest.mp hdrawn), hrun, placeAdds, if_neg hdrawn]
          exact ⟨b', s0', s1', rfl, hb', he0, he1, by omega⟩

/-- The outer loop ends, and adds what the files show from a row on. -/
theorem frameRows_eq {lines0 lines1 : List (List UInt8)} (h0 : s0.AtLine lines0)
    (h1 : s1.AtLine lines1) (hb : OfStack stack b) {fuel : Nat}
    (hfuel : s0.pending + s1.pending + 1 < fuel) (row : Nat) (f : Fish) :
    frameRows fuel row b s0 s1 f = some (addAll (linesAdds stack row lines0 lines1) f) := by
  induction fuel generalizing lines0 lines1 s0 s1 b row f with
  | zero => exact absurd hfuel (Nat.not_lt_zero _)
  | succ fuel ih =>
      unfold frameRows
      by_cases hmore : s0.eof = false ∨ s1.eof = false
      · have hopen : s0.c ≠ 0x0A ∨ s1.c ≠ 0x0A := hmore.imp h0.open_c h1.open_c
        have hlines : ¬(lines0 = [] ∧ lines1 = []) := by
          rw [← h0.eof, ← h1.eof]
          rintro ⟨he0, he1⟩
          rw [he0, he1] at hmore
          exact absurd hmore (by decide)
        obtain ⟨b', s0', s1', hrun, hb', ⟨he0, hc0⟩, ⟨he1, hc1⟩, hlt⟩ :=
          frameColumns_eq h0.ahead h1.ahead hb hopen (by omega : _ < fuel) row 0 f
        obtain ⟨hnext0, hpending0⟩ := he0.endRow hc0
        obtain ⟨hnext1, hpending1⟩ := he1.endRow hc1
        have hshift : (fun i l0 l1 =>
              padded 0x20 l0 l1 fun j => placeAdds stack (row + (i + 1)) j) =
            fun i l0 l1 => padded 0x20 l0 l1 fun j => placeAdds stack (row + 1 + i) j :=
          funext fun i => by rw [Nat.add_right_comm, Nat.add_assoc]
        rw [if_pos hmore, hrun]
        simp only [Option.bind_eq_bind, Option.bind_some]
        rw [ih hnext0 hnext1 hb' (by omega), linesAdds, linesAdds, padded_cons _ hlines,
          addAll_append, hshift]
        simp only [Nat.zero_add, Nat.add_zero]
      · rw [not_or, Bool.not_eq_false, Bool.not_eq_false, h0.eof, h1.eof] at hmore
        obtain ⟨rfl, rfl⟩ := hmore
        have hclosed : ¬(s0.eof = false ∨ s1.eof = false) := by
          rw [h0.eof.mpr rfl, h1.eof.mpr rfl]
          decide
        rw [if_neg hclosed]
        rfl

end Loops

section Adds

variable {stack : Mp1BlinkStruct} {file0 file1 : List UInt8} {row col : Nat}

/-- The structures for two files. -/
def frameAdds (stack : Mp1BlinkStruct) (file0 file1 : List UInt8) : List Mp1BlinkStruct :=
  linesAdds stack 0 (file0.splitOn 0x0A) (file1.splitOn 0x0A)

/-- `add_frames` ends, and adds a structure for every place that is not blank in both files. -/
theorem addFrames_eq {fuel : Nat} (hfuel : file0.length + file1.length + 3 < fuel) (f : Fish) :
    addFrames fuel stack file0 file1 f = some (addAll (frameAdds stack file0 file1) f) := by
  refine frameRows_eq (FrameFile.atLine_start file0) (FrameFile.atLine_start file1)
    ⟨stack.location, stack.onChar, stack.offChar, rfl⟩ ?_ 0 f
  simp only [FrameFile.pending, Bool.false_eq_true, if_false]
  omega

/-- One of the files has something to show in the place. -/
def Drawn (file0 file1 : List UInt8) (row col : Nat) : Prop :=
  pictureAt file0 row col ≠ 0x20 ∨ pictureAt file1 row col ≠ 0x20

/-- The number of a place on the screen. -/
def placeNum (row col : Nat) : Nat := row * 80 + col + 40

/-- What is not blank is in a line. -/
theorem lt_of_picture {file : List UInt8} (h : pictureAt file row col ≠ 0x20) :
    row < (file.splitOn 0x0A).length ∧ col < ((file.splitOn 0x0A).getD row []).length := by
  have hcol : col < ((file.splitOn 0x0A).getD row []).length := by
    by_contra hge
    exact h (List.getD_eq_default _ _ (not_lt.mp hge))
  refine ⟨?_, hcol⟩
  by_contra hge
  rw [List.getD_eq_default _ _ (not_lt.mp hge)] at hcol
  exact absurd hcol (Nat.not_lt_zero col)

theorem mem_placeAdds {data : Mp1BlinkStruct} {c0 c1 : UInt8} :
    data ∈ placeAdds stack row col c0 c1 ↔
      (c0 ≠ 0x20 ∨ c1 ≠ 0x20) ∧ data = frameStruct stack row col c0 c1 := by
  unfold placeAdds
  by_cases h : c0 ≠ 0x20 ∨ c1 ≠ 0x20
  · rw [if_pos h, List.mem_singleton]
    exact (and_iff_right h).symm
  · rw [if_neg h]
    exact ⟨fun hmem => absurd hmem List.not_mem_nil, fun hboth => absurd hboth.1 h⟩

theorem mem_frameAdds {data : Mp1BlinkStruct} :
    data ∈ frameAdds stack file0 file1 ↔ ∃ row col, Drawn file0 file1 row col ∧
      data = frameStruct stack row col (pictureAt file0 row col) (pictureAt file1 row col) := by
  unfold frameAdds linesAdds
  simp only [mem_padded, mem_placeAdds, Nat.zero_add]
  constructor
  · rintro ⟨row, -, col, -, hdrawn, hdata⟩
    exact ⟨row, col, hdrawn, hdata⟩
  · rintro ⟨row, col, hdrawn, hdata⟩
    have hrow : row < max (file0.splitOn 0x0A).length (file1.splitOn 0x0A).length :=
      lt_max_iff.mpr (hdrawn.imp (fun h => (lt_of_picture h).1) fun h => (lt_of_picture h).1)
    have hcol : col < max ((file0.splitOn 0x0A).getD row []).length
        ((file1.splitOn 0x0A).getD row []).length :=
      lt_max_iff.mpr (hdrawn.imp (fun h => (lt_of_picture h).2) fun h => (lt_of_picture h).2)
    exact ⟨row, hrow, col, hcol, hdrawn, hdata⟩

/-- The places that are not blank have numbers of 16 bits, and no line reaches into the next. -/
def FitsScreen (file0 file1 : List UInt8) : Prop :=
  ∀ row col, Drawn file0 file1 row col → col < 80 ∧ placeNum row col < 2 ^ 16

/-- Lines that are not longer than those of the screen, and not too many of them. -/
theorem fitsScreen_of_lines (hlines : ∀ file ∈ [file0, file1], (file.splitOn 0x0A).length ≤ 800 ∧
    ∀ line ∈ file.splitOn 0x0A, line.length ≤ 80) : FitsScreen file0 file1 := by
  intro row col hdrawn
  have hfile : ∀ file ∈ [file0, file1], pictureAt file row col ≠ 0x20 →
      col < 80 ∧ placeNum row col < 2 ^ 16 := by
    intro file hmem hpicture
    obtain ⟨hcount, hlength⟩ := hlines file hmem
    obtain ⟨hrow, hcol⟩ := lt_of_picture hpicture
    have hline := hlength _ (List.getElem_mem hrow)
    rw [List.getD_eq_getElem _ _ hrow] at hcol
    unfold placeNum
    omega
  exact hdrawn.elim (hfile file0 (by simp)) (hfile file1 (by simp))

end Adds

/-! ## On the screen -/

/-- Where the locations are different, there is a free entry for another one. -/
theorem BlinkList.exists_firstFree {p : BlinkList} (location : BitVec 16)
    (hnodup : (location :: p.entries.map fun e => e.2.location).Nodup)
    (hlt : ∀ a ∈ location :: p.entries.map fun e => e.2.location, a.toNat < 80 * 25) :
    ∃ i, p.firstFree = some i := by
  cases hfree : p.firstFree with
  | some i => exact ⟨i, rfl⟩
  | none =>
      exfalso
      have hall : ∀ i, i ∈ p.indices := by
        simpa [BlinkList.firstFree] using hfree
      have hmany : 80 * 25 ≤ p.entries.length := by
        have hcard := List.toFinset_card_of_nodup p.nodup
        have huniv : (p.entries.map Prod.fst).toFinset = Finset.univ :=
          Finset.eq_univ_of_forall fun i => List.mem_toFinset.mpr (hall i)
        rw [huniv, Finset.card_univ, Fintype.card_fin, List.length_map] at hcard
        exact hcard.le
      have hfew : ((location :: p.entries.map fun e => e.2.location).map BitVec.toNat).length ≤
          80 * 25 := by
        have hdifferent := hnodup.map (f := BitVec.toNat) fun _ _ => BitVec.eq_of_toNat_eq
        rw [← List.toFinset_card_of_nodup hdifferent]
        refine (Finset.card_le_card (t := Finset.range (80 * 25)) fun n hn => ?_).trans_eq
          (Finset.card_range _)
        obtain ⟨a, ha, rfl⟩ := List.mem_map.mp (List.mem_toFinset.mp hn)
        exact Finset.mem_range.mpr (hlt a ha)
      rw [List.length_map, List.length_cons, List.length_map] at hfew
      omega

/-- What is left when structures have been added: those with an accepted location are in the list
and in their cells, and nothing else has been printed. -/
structure HoldsAdded (vmem : Nat → UInt8) (l : List Mp1BlinkStruct) (f : Fish) (p : BlinkList) :
    Prop extends HoldsDistinct f p where
  from_added : ∀ e ∈ p.entries, ∃ data ∈ l, data.location.toNat < 80 * 25 ∧
    e.2 = data.toBlink.started
  listed : ∀ data ∈ l, data.location.toNat < 80 * 25 →
    (∃ i, (i, data.toBlink.started) ∈ p.entries) ∧
      f.vmem (cellOffset data.location) = data.toBlink.started.shown
  unprinted : ∀ a, (∀ data ∈ l, data.location.toNat < 80 * 25 → a ≠ cellOffset data.location) →
    f.vmem a = vmem a

section Added

variable {vmem : Nat → UInt8} {l : List Mp1BlinkStruct} {data : Mp1BlinkStruct} {f : Fish}
  {p : BlinkList}

theorem HoldsAdded.rejected (h : HoldsAdded vmem l f p) (hloc : 80 * 25 ≤ data.location.toNat) :
    HoldsAdded vmem (l ++ [data]) f p where
  toHoldsDistinct := h.toHoldsDistinct
  from_added := by
    intro e he
    obtain ⟨data', hdata', hrest⟩ := h.from_added e he
    exact ⟨data', List.mem_append_left _ hdata', hrest⟩
  listed := by
    intro data' hdata' hlt
    rcases List.mem_append.mp hdata' with hold | hnew
    · exact h.listed data' hold hlt
    · rw [List.mem_singleton.mp hnew] at hlt
      omega
  unprinted := fun a ha => h.unprinted a fun data' hdata' =>
    ha data' (List.mem_append_left _ hdata')

/-- Another structure, at a location that none has. -/
theorem HoldsAdded.add (h : HoldsAdded vmem l f p)
    (hnodup : ((l ++ [data]).map fun d => d.location).Nodup) (hzero : data.location ≠ 0) :
    ∃ p', HoldsAdded vmem (l ++ [data]) (mp1IoctlAdd data f).2 p' := by
  rcases Nat.lt_or_ge data.location.toNat (80 * 25) with hloc | hloc
  · have hfresh : ∀ d ∈ l, d.location ≠ data.location := by
      rw [List.map_append, List.nodup_append] at hnodup
      exact fun d hd => hnodup.2.2 d.location (List.mem_map_of_mem hd) data.location (by simp)
    have hnew : ∀ e ∈ p.entries, e.2.location ≠ data.location := by
      intro e he
      obtain ⟨d, hd, -, heq⟩ := h.from_added e he
      rw [heq]
      exact hfresh d hd
    have hlocations : (data.location :: p.entries.map fun e => e.2.location).Nodup := by
      refine List.nodup_cons.mpr ⟨fun hmem => ?_, h.distinct.1⟩
      obtain ⟨e, he, heq⟩ := List.mem_map.mp hmem
      exact hnew e he heq
    obtain ⟨i, hfree⟩ : ∃ i, p.firstFree = some i := by
      refine BlinkList.exists_firstFree data.location hlocations fun a ha => ?_
      rcases List.mem_cons.mp ha with rfl | ha
      · exact hloc
      · obtain ⟨e, he, rfl⟩ := List.mem_map.mp ha
        obtain ⟨d, -, hlt, heq⟩ := h.from_added e he
        rw [heq]
        exact hlt
    obtain ⟨hholds, hvmem⟩ := h.toHoldsBlinks.add (h.distinct.safe (.add data))
    rw [BlinkList.step, if_pos hloc, BlinkList.add_eq_insert hfree] at hholds
    rw [BlinkList.printed, if_pos ⟨hloc, Option.isSome_of_eq_some hfree⟩] at hvmem
    refine ⟨_, ⟨hholds, hlocations, fun e he => ?_⟩, fun e he => ?_, fun d hd hlt => ?_,
      fun a ha => ?_⟩
    · rcases List.mem_cons.mp he with rfl | he
      · exact hzero
      · exact h.distinct.2 e he
    · rcases List.mem_cons.mp he with rfl | he
      · exact ⟨data, by simp, hloc, rfl⟩
      · obtain ⟨d, hd, hrest⟩ := h.from_added e he
        exact ⟨d, List.mem_append_left _ hd, hrest⟩
    · rcases List.mem_append.mp hd with hold | hlast
      · obtain ⟨⟨j, hj⟩, hcell⟩ := h.listed d hold hlt
        refine ⟨⟨j, List.mem_cons_of_mem _ hj⟩, ?_⟩
        rw [hvmem, Blink.drawn]
        exact (Function.update_of_ne (BlinkList.cellOffset_ne (hfresh d hold)) _ _).trans hcell
      · obtain rfl := List.mem_singleton.mp hlast
        refine ⟨⟨i, List.mem_cons_self⟩, ?_⟩
        rw [hvmem, Blink.drawn]
        exact Function.update_self _ _ _
    · have hne : a ≠ cellOffset data.toBlink.started.location := ha data (by simp) hloc
      rw [hvmem, Blink.drawn, Function.update_of_ne hne]
      exact h.unprinted a fun d hd => ha d (List.mem_append_left _ hd)
  · rw [mp1IoctlAdd_rejected hloc]
    exact ⟨p, h.rejected hloc⟩

/-- Structures at different locations, none of them 0. -/
theorem exists_holdsAdded (vmem : Nat → UInt8)
    (hnodup : (l.map fun d => d.location).Nodup) (hzero : ∀ d ∈ l, d.location ≠ 0) :
    ∃ p, HoldsAdded vmem l (addAll l (initialFish vmem)) p := by
  induction l using List.reverseRecOn with
  | nil =>
      exact ⟨.empty, initialFish_holdsDistinct vmem, fun e he => absurd he List.not_mem_nil,
        fun d hd => absurd hd List.not_mem_nil, fun a _ => rfl⟩
  | append_singleton l data ih =>
      have hbefore : (l.map fun d => d.location).Nodup := by
        rw [List.map_append] at hnodup
        exact hnodup.of_append_left
      obtain ⟨p, hp⟩ := ih hbefore fun d hd => hzero d (List.mem_append_left _ hd)
      rw [addAll_append]
      exact hp.add hnodup (hzero data (by simp))

end Added

section Places

variable {stack : Mp1BlinkStruct} {file0 file1 : List UInt8} {row col : Nat}

theorem placeNum_lt {row row' col col' : Nat} (hcol : col < 80) (hlt : row < row') :
    placeNum row col < placeNum row' col' := by
  unfold placeNum
  omega

theorem frameStruct_location (stack : Mp1BlinkStruct) (hword : placeNum row col < 2 ^ 16)
    (c0 c1 : UInt8) :
    (frameStruct stack row col c0 c1).location.toNat = placeNum row col := by
  unfold frameStruct
  rw [BitVec.toNat_ofNat]
  exact Nat.mod_eq_of_lt hword

/-- The structures come in the order of their places, so no location comes twice. -/
theorem frameAdds_nodup (hfits : FitsScreen file0 file1) :
    ((frameAdds stack file0 file1).map fun d => d.location).Nodup := by
  have hplace : ∀ row col, ∀ x ∈ placeAdds stack (0 + row) col (pictureAt file0 row col)
      (pictureAt file1 row col), col < 80 ∧ x.location.toNat = placeNum row col := by
    intro row col x hx
    rw [Nat.zero_add] at hx
    obtain ⟨hdrawn, rfl⟩ := mem_placeAdds.mp hx
    obtain ⟨hcol, hword⟩ := hfits row col hdrawn
    exact ⟨hcol, frameStruct_location _ hword _ _⟩
  have horder : (frameAdds stack file0 file1).Pairwise
      fun x y => x.location.toNat < y.location.toNat := by
    unfold frameAdds linesAdds
    refine pairwise_padded (fun row => ?_) ?_
    · refine pairwise_padded (fun col => ?_) ?_
      · unfold placeAdds
        split
        · exact List.pairwise_singleton _ _
        · exact List.Pairwise.nil
      · intro col col' hlt x hx y hy
        rw [(hplace row col x hx).2, (hplace row col' y hy).2]
        unfold placeNum
        omega
    · intro row row' hlt x hx y hy
      obtain ⟨col, -, hx⟩ := mem_padded.mp hx
      obtain ⟨col', -, hy⟩ := mem_padded.mp hy
      rw [(hplace row col x hx).2, (hplace row' col' y hy).2]
      exact placeNum_lt (hplace row col x hx).1 hlt
  exact List.pairwise_map.mpr (horder.imp fun hlt heq => absurd (congrArg BitVec.toNat heq) hlt.ne)

theorem frameAdds_ne_zero (hfits : FitsScreen file0 file1) :
    ∀ d ∈ frameAdds stack file0 file1, d.location ≠ 0 := by
  intro d hd hzero
  obtain ⟨row, col, hdrawn, rfl⟩ := mem_frameAdds.mp hd
  have hnum := frameStruct_location stack (hfits row col hdrawn).2
    (pictureAt file0 row col) (pictureAt file1 row col)
  rw [hzero] at hnum
  unfold placeNum at hnum
  simp at hnum

theorem cellOffset_frameStruct (stack : Mp1BlinkStruct) (hword : placeNum row col < 2 ^ 16)
    (c0 c1 : UInt8) :
    cellOffset (frameStruct stack row col c0 c1).location = placeNum row col * 2 := by
  unfold cellOffset
  rw [frameStruct_location _ hword]

/-- The lengths of the structures are 15 and 15. -/
theorem frameStruct_shownAfter (stack : Mp1BlinkStruct) (row col n : Nat) (c0 c1 : UInt8) :
    (frameStruct stack row col c0 c1).shownAfter n = if n % 30 < 15 then c0 else c1 := rfl

/-- The structure for a place on the screen. -/
theorem HoldsAdded.place {vmem : Nat → UInt8} {g : Fish} {p : BlinkList}
    (hp : HoldsAdded vmem (frameAdds stack file0 file1) g p) (hfits : FitsScreen file0 file1)
    (hdrawn : Drawn file0 file1 row col) (hplace : placeNum row col < 80 * 25) :
    ∃ i, (i, (frameStruct stack row col (pictureAt file0 row col)
        (pictureAt file1 row col)).toBlink.started) ∈ p.entries ∧
      g.vmem (cellOffset (frameStruct stack row col (pictureAt file0 row col)
        (pictureAt file1 row col)).location) =
          (frameStruct stack row col (pictureAt file0 row col)
            (pictureAt file1 row col)).toBlink.started.shown := by
  obtain ⟨⟨i, hi⟩, hcell⟩ := hp.listed _ (mem_frameAdds.mpr ⟨row, col, hdrawn, rfl⟩)
    (by rw [frameStruct_location _ (hfits row col hdrawn).2]; exact hplace)
  exact ⟨i, hi, hcell⟩

/-- A place shows the first file for 15 ticks and the second for 15 ticks. -/
theorem HoldsAdded.place_shows {vmem : Nat → UInt8} {g h : Fish} {p : BlinkList}
    (hp : HoldsAdded vmem (frameAdds stack file0 file1) g p) (hfits : FitsScreen file0 file1)
    (hdrawn : Drawn file0 file1 row col) (hplace : placeNum row col < 80 * 25)
    {calls : List BlinkCall}
    (hrun : Run (guarded (LeavesAlone (BitVec.ofNat 16 (placeNum row col))) DistinctCalls) g calls
      h) :
    h.vmem (placeNum row col * 2) =
      if ticks calls % 30 < 15 then pictureAt file0 row col else pictureAt file1 row col := by
  obtain ⟨i, hi, hcell⟩ := hp.place hfits hdrawn hplace
  obtain ⟨-, hshown⟩ := hp.toHoldsDistinct.blinks hi hcell hrun
  have hoffset := cellOffset_frameStruct stack (hfits row col hdrawn).2
    (pictureAt file0 row col) (pictureAt file1 row col)
  rw [← hoffset, ← frameStruct_shownAfter stack row col]
  exact hshown.trans (Blink.iterate_shown _ _)

/-- The cells of the structures are those of the places. -/
theorem ne_cell_of_frameAdds (hfits : FitsScreen file0 file1) {a : Nat}
    (ha : ∀ row col, Drawn file0 file1 row col → placeNum row col < 80 * 25 →
      a ≠ placeNum row col * 2) :
    ∀ d ∈ frameAdds stack file0 file1, d.location.toNat < 80 * 25 → a ≠ cellOffset d.location := by
  intro d hd hlt
  obtain ⟨row, col, hdrawn, rfl⟩ := mem_frameAdds.mp hd
  have hword := (hfits row col hdrawn).2
  rw [frameStruct_location _ hword] at hlt
  rw [cellOffset_frameStruct _ hword]
  exact ha row col hdrawn hlt

/-- What `add_frames` leaves. -/
theorem exists_addFrames (stack : Mp1BlinkStruct) (hfits : FitsScreen file0 file1)
    (vmem : Nat → UInt8) {fuel : Nat} (hfuel : file0.length + file1.length + 3 < fuel) :
    ∃ g p, addFrames fuel stack file0 file1 (initialFish vmem) = some g ∧
      HoldsAdded vmem (frameAdds stack file0 file1) g p := by
  obtain ⟨p, hp⟩ := exists_holdsAdded vmem (frameAdds_nodup hfits) (frameAdds_ne_zero hfits)
  exact ⟨_, p, addFrames_eq hfuel _, hp⟩

end Places

/-- `add_frames` ends, and prints nothing but in the places of the frames. From then on each of
these places shows the first file for 15 ticks and the second for 15 ticks, in turn, whatever else
is added at locations that are not 0 and all different, as long as its structure is left alone. -/
theorem frames_alternate (stack : Mp1BlinkStruct) {file0 file1 : List UInt8}
    (hfits : FitsScreen file0 file1) (vmem : Nat → UInt8) {fuel : Nat}
    (hfuel : file0.length + file1.length + 3 < fuel) :
    ∃ g, addFrames fuel stack file0 file1 (initialFish vmem) = some g ∧ DistinctLocations g ∧
      (∀ a, (∀ row col, Drawn file0 file1 row col → placeNum row col < 80 * 25 →
        a ≠ placeNum row col * 2) → g.vmem a = vmem a) ∧
      ∀ row col, Drawn file0 file1 row col → placeNum row col < 80 * 25 →
        ∀ calls h, Run (guarded (LeavesAlone (BitVec.ofNat 16 (placeNum row col))) DistinctCalls)
          g calls h → h.vmem (placeNum row col * 2) =
            if ticks calls % 30 < 15 then pictureAt file0 row col else pictureAt file1 row col := by
  obtain ⟨g, p, hg, hp⟩ := exists_addFrames stack hfits vmem hfuel
  refine ⟨g, hg, hp.toHoldsBlinks.distinct_iff.mpr hp.distinct, fun a ha => ?_,
    fun row col hdrawn hplace calls h hrun => ?_⟩
  · exact hp.unprinted a (ne_cell_of_frameAdds hfits ha)
  · exact hp.place_shows hfits hdrawn hplace hrun

/-- An `A` in the first row of one file, and a `B` in the second row of the other, which is shown
after 20 ticks. -/
theorem frames_alternate_small : ∃ g h,
    addFrames 8 zeroBlink [0x41, 0x0A] [0x0A, 0x42] (initialFish fun _ => 0) = some g ∧
      Run (guarded (LeavesAlone 120) DistinctCalls) g (List.replicate 20 .tasklet) h ∧
      h.vmem 240 = 0x42 := by
  have hfits : FitsScreen [0x41, 0x0A] [0x0A, 0x42] := fitsScreen_of_lines (by decide)
  obtain ⟨g, p, hg, hp⟩ := exists_addFrames zeroBlink hfits (fun _ => 0) (by decide : 2 + 2 + 3 < 8)
  obtain ⟨h, -, -, hrun⟩ := hp.exists_ticks 120 20
  obtain ⟨g', hg', -, -, hshows⟩ :=
    frames_alternate zeroBlink hfits (fun _ => 0) (by decide : 2 + 2 + 3 < 8)
  obtain rfl := Option.some.inj (hg.symm.trans hg')
  exact ⟨g, h, hg, hrun, hshows 1 0 (Or.inr (by decide)) (by decide) _ h hrun⟩

end Ece391Kernel
