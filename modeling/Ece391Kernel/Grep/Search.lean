import Ece391Kernel.Grep.DoOneFile
import Ece391Kernel.Library.Lines

/-!
# The search of one buffer

The inner loop of `do_one_file` searches the lines of the buffer one after the other. The line
that the buffer ends in is searched as well, or it is moved to the front.
-/

namespace Ece391Kernel

open ByteMemory Lines

/-- These bytes are in the buffer at an index. -/
def BufferHas (data : Int → UInt8) (a : Nat) (bytes : List UInt8) : Prop :=
  ∀ (i : Nat) (hi : i < bytes.length), data (a + i : Nat) = bytes[i]

/-- What the code finds in a line: no string whose first byte is a negative character. -/
def Found (search line : List UInt8) : Prop := search.headD 0 < 0x80 ∧ search <:+: line

instance (search line : List UInt8) : Decidable (Found search line) :=
  inferInstanceAs (Decidable (_ ∧ _))

/-- The report of a line. -/
def lineReport (name line : List UInt8) : List UInt8 := name ++ 0x3A :: line ++ [0x0A]

/-- The report of a line if the code finds the string in it. -/
def foundReport (name search line : List UInt8) : List UInt8 :=
  if Found search line then lineReport name line else []

section Buffers

variable {data : Int → UInt8} {a last : Nat} {bytes line : List UInt8}

theorem BufferHas.left {rest : List UInt8} (h : BufferHas data a (bytes ++ rest)) :
    BufferHas data a bytes := by
  intro i hi
  rw [h i (by rw [List.length_append]; omega), List.getElem_append_left hi]

theorem BufferHas.right {rest : List UInt8} (h : BufferHas data a (bytes ++ rest)) :
    BufferHas data (a + bytes.length) rest := by
  intro i hi
  have hbyte := h (bytes.length + i) (by rw [List.length_append]; omega)
  rw [List.getElem_append_right (by omega)] at hbyte
  rw [add_assoc, hbyte]
  simp

/-- A store outside leaves the bytes. -/
theorem BufferHas.update (h : BufferHas data a bytes) (place : Nat) (c : UInt8)
    (hplace : place < a ∨ a + bytes.length ≤ place) :
    BufferHas (Function.update data place c) a bytes := by
  intro i hi
  rw [Function.update_of_ne (by omega), h i hi]

theorem bufferHas_storeFrom (data : Int → UInt8) (a : Nat) (bytes : List UInt8) :
    BufferHas (storeFrom data a bytes) a bytes := by
  intro i hi
  rw [Nat.cast_add, storeFrom_add, List.getD_eq_getElem _ _ hi]

/-- Bytes that are read in behind others. -/
theorem BufferHas.append (h : BufferHas data 0 bytes) (rest : List UInt8) :
    BufferHas (storeFrom data bytes.length rest) 0 (bytes ++ rest) := by
  intro i hi
  rw [zero_add]
  by_cases hlt : i < bytes.length
  · have hbyte := h i hlt
    rw [zero_add] at hbyte
    rw [storeFrom_of_lt _ _ _ (by omega), hbyte, List.getElem_append_left hlt]
  · have hstored := bufferHas_storeFrom data bytes.length rest (i - bytes.length)
      (by rw [List.length_append] at hi; omega)
    rw [Nat.add_sub_cancel' (by omega)] at hstored
    rw [hstored, List.getElem_append_right (by omega)]

/-- A line that is closed with a terminator is a string. -/
theorem BufferHas.spells (h : BufferHas data a line) (hbytes : ∀ c ∈ line, c ≠ 0)
    (hlen : line.length < 2 ^ 32) :
    Spells (stringAt (Function.update data (a + line.length : Nat) 0) a) line := by
  refine ⟨hbytes, hlen, fun i hi => ?_⟩
  unfold stringAt
  rcases Nat.lt_or_eq_of_le hi with hlt | rfl
  · have hbyte := h.update (a + line.length) 0 (Or.inr (Nat.le_refl _)) i hlt
    rw [← Nat.cast_add, hbyte, List.getD_eq_getElem _ _ hlt]
  · rw [← Nat.cast_add, Function.update_self, List.getD_eq_default _ _ (Nat.le_refl _)]

/-- The end of a line is the next newline, or the end of what has been read. -/
theorem lineEndFrom_eq (h : BufferHas data a line) (hline : 0x0A ∉ line)
    (hend : a + line.length = last ∨
      a + line.length < last ∧ data (a + line.length : Nat) = 0x0A) :
    lineEndFrom data last a = a + line.length := by
  induction line generalizing a with
  | nil =>
      unfold lineEndFrom
      rw [if_neg]
      · rfl
      · rintro ⟨hlt, hne⟩
        rcases hend with heq | ⟨-, hnewline⟩
        · exact absurd heq (Nat.ne_of_lt hlt)
        · exact hne hnewline.symm
  | cons c line ih =>
      have hc : data a = c := h 0 (Nat.succ_pos _)
      have hne : (0x0A : UInt8) ≠ data a := by
        rw [hc]
        exact fun heq => hline (heq ▸ List.mem_cons_self)
      have hshift : a + (c :: line).length = a + 1 + line.length := by
        rw [List.length_cons]
        omega
      have hrest : BufferHas data (a + [c].length) line := BufferHas.right h
      rw [hshift] at hend ⊢
      unfold lineEndFrom
      rw [if_pos ⟨by omega, hne⟩]
      exact ih hrest (fun hmem => hline (List.mem_cons_of_mem c hmem)) hend

end Buffers

/-! ## One line -/

section Lines

variable {s fname : Nat → UInt8} {search name line : List UInt8}

/-- The first byte is tested with its sign. -/
theorem int8_eq_toNat_iff {c d : UInt8} : int8 c = (d.toNat : Int) ↔ c < 0x80 ∧ c = d := by
  have hsigned : int8 c = if c.toNat < 0x80 then (c.toNat : Int) else c.toNat - 0x100 := by
    refine (BitVec.toInt_eq_toNat_cond c.toBitVec).trans ?_
    change (if 2 * c.toNat < 2 ^ 8 then (c.toNat : Int) else c.toNat - (2 ^ 8 : Nat)) = _
    split <;> split <;> omega
  have hpos : c < 0x80 ↔ c.toNat < 0x80 := Iff.rfl
  have hlt := c.toNat_lt
  rw [hsigned, hpos, ← UInt8.toNat_inj]
  split <;> omega

/-- A string that is not empty is found at one of the places before the end of the line. -/
theorem exists_drop_prefix_iff (hsearch : search ≠ []) :
    (∃ k < line.length, search <+: line.drop k) ↔ search <:+: line := by
  rw [List.infix_iff_prefix_suffix]
  constructor
  · rintro ⟨k, -, hpre⟩
    exact ⟨line.drop k, hpre, List.drop_suffix k line⟩
  · rintro ⟨t, hpre, hsuffix⟩
    have hlen := hpre.length_le
    have hpos := List.length_pos_iff.mpr hsearch
    have hle := hsuffix.length_le
    refine ⟨line.length - t.length, by omega, ?_⟩
    rwa [← List.suffix_iff_eq_drop.mp hsuffix]

/-- The test at one place of a line. -/
theorem check_iff (hs : Spells s search) (hsearch : search ≠ []) {data : Int → UInt8} {a k : Nat}
    (hline : Spells (stringAt data a) line) (hk : k < line.length) :
    (int8 (s 0) = ((data (a + k : Nat)).toNat : Int) ∧
        ece391Strncmp (stringAt data (a + k : Nat)) s search.length = 0) ↔
      search.headD 0 < 0x80 ∧ search <+: line.drop k := by
  have hrest : Spells (stringAt data (a + k : Nat)) (line.drop k) := by
    have hdrop := hline.drop (Nat.le_of_lt hk)
    refine ⟨hdrop.ne_zero, hdrop.length_lt, fun i hi => ?_⟩
    rw [← hdrop.byte_eq i hi]
    unfold stringAt
    push_cast
    rw [add_assoc]
  have hbyte : data (a + k : Nat) = line.get ⟨k, hk⟩ := by
    rw [Nat.cast_add]
    exact hline.byte_of_lt hk
  obtain ⟨c, rest, rfl⟩ := List.exists_cons_of_ne_nil hsearch
  have hfirst : s 0 = c := hs.byte_eq 0 (Nat.zero_le _)
  rw [int8_eq_toNat_iff, ece391Strncmp_eq_zero hrest hs, hfirst, hbyte,
    List.drop_eq_getElem_cons hk, List.cons_prefix_cons, List.headD_cons, List.get_eq_getElem]
  tauto

/-- The search of a line. -/
theorem lineMatches_eq (hs : Spells s search) (hsearch : search ≠ []) {data : Int → UInt8} {a : Nat}
    (hline : Spells (stringAt data a) line) :
    lineMatches s search.length data a (a + line.length) = decide (Found search line) := by
  rw [Bool.eq_iff_iff, decide_eq_true_iff, lineMatches, List.any_eq_true, Found,
    ← exists_drop_prefix_iff hsearch]
  constructor
  · rintro ⟨check, hmem, htest⟩
    rw [List.mem_range'_1] at hmem
    obtain ⟨k, rfl⟩ := Nat.exists_eq_add_of_le hmem.1
    have hk : k < line.length := by omega
    rw [Bool.and_eq_true, beq_iff_eq, beq_iff_eq] at htest
    obtain ⟨hpos, hpre⟩ := (check_iff hs hsearch hline hk).mp htest
    exact ⟨hpos, k, hk, hpre⟩
  · rintro ⟨hpos, k, hk, hpre⟩
    refine ⟨a + k, List.mem_range'_1.mpr (by omega), ?_⟩
    rw [Bool.and_eq_true, beq_iff_eq, beq_iff_eq]
    exact (check_iff hs hsearch hline hk).mpr ⟨hpos, hpre⟩

theorem spells_message {text : String} {str : List UInt8}
    (htext : (text.toList.map fun c => UInt8.ofNat c.toNat) = str) (hbytes : ∀ c ∈ str, c ≠ 0)
    (hlen : str.length < 2 ^ 32) : Spells (message text) str := by
  unfold message
  rw [htext]
  exact spells_literal hbytes hlen

theorem searchLine_eq (hs : Spells s search) (hsearch : search ≠ []) (hname : Spells fname name)
    {data : Int → UInt8} {a : Nat} (hline : Spells (stringAt data a) line) :
    searchLine s fname search.length data a (a + line.length) = foundReport name search line := by
  have hcolon : Spells (message ":") [0x3A] := spells_message rfl (by simp) (by simp)
  have hnewline : Spells (message "\n") [0x0A] := spells_message rfl (by simp) (by simp)
  unfold searchLine foundReport
  rw [lineMatches_eq hs hsearch hline, hname.fdputs_eq, hcolon.fdputs_eq, hline.fdputs_eq,
    hnewline.fdputs_eq]
  simp [lineReport]

end Lines

/-! ## The lines of the buffer -/

section Buffer

variable {s fname : Nat → UInt8} {search name line rest bytes : List UInt8}
  {data : Int → UInt8} {out : List UInt8} {a last cnt : Nat}

theorem foundReport_nil (name : List UInt8) (hsearch : search ≠ []) :
    foundReport name search [] = [] := by
  refine if_neg fun hfound => hsearch ?_
  exact List.infix_nil.mp hfound.2

/-- The line that the buffer ends in is moved to the front. -/
def Kept (data : Int → UInt8) (last cnt lineStart : Nat) (bytes : List UInt8) : Prop :=
  unfinished 0x0A bytes ≠ [] ∧ 0x0A ≠ data last ∧ 0 ≠ cnt ∧
    (lineStart ≠ 0 ∨ finished 0x0A bytes ≠ [])

/-- The byte behind the buffer when the buffer has been searched. -/
def spareAfter (data : Int → UInt8) (last : Nat) (bytes : List UInt8) : UInt8 :=
  if unfinished 0x0A bytes ≠ [] ∧ last = 1024 then 0 else data 1024

/-- The line that is kept is the same for the lines behind a newline. -/
theorem kept_newline_iff (data : Int → UInt8) (cnt : Nat) (line rest : List UInt8)
    (hlast : a + line.length < last) :
    Kept (Function.update data (a + line.length : Nat) 0) last cnt (a + line.length + 1) rest ↔
      Kept data last cnt a (line ++ 0x0A :: rest) := by
  unfold Kept
  rw [unfinished_append_cons, finished_append_cons, Function.update_of_ne (by omega)]
  simp

/-- Without a newline the byte behind a full buffer is cleared. -/
theorem update_last_spare (data : Int → UInt8) (hnewline : 0x0A ∉ bytes)
    (hlast : last = a + bytes.length) (hstart : bytes ≠ [] ∨ a = 0) :
    Function.update data last 0 1024 = spareAfter data last bytes := by
  unfold spareAfter
  rw [unfinished_of_not_mem hnewline]
  by_cases hfull : last = 1024
  · have hne : bytes ≠ [] := by
      rintro rfl
      rcases hstart with hne | rfl
      · exact hne rfl
      · simp [hfull] at hlast
    rw [if_pos ⟨hne, hfull⟩, hfull]
    exact Function.update_self _ _ _
  · rw [if_neg fun h => hfull h.2, Function.update_of_ne (by omega)]

section Turns

variable (hs : Spells s search) (hsearch : search ≠ []) (hname : Spells fname name)

include hs hsearch hname

/-- A line that ends with a newline is searched, and the loop goes on behind it. -/
theorem searchBuffer_newline (hhas : BufferHas data a (line ++ 0x0A :: rest))
    (hline : 0x0A ∉ line) (hbytes : ∀ c ∈ line, c ≠ 0) (hlen : last ≤ 1024)
    (hlast : last = a + line.length + 1 + rest.length) :
    searchBuffer s fname search.length cnt ⟨data, last, out⟩ a =
      if rest = [] then
        ⟨Function.update data (a + line.length : Nat) 0, 0, out ++ foundReport name search line⟩
      else
        searchBuffer s fname search.length cnt
          ⟨Function.update data (a + line.length : Nat) 0, last,
            out ++ foundReport name search line⟩ (a + line.length + 1) := by
  have hnewline : data (a + line.length : Nat) = 0x0A := hhas.right 0 (Nat.succ_pos _)
  have hend : lineEndFrom data last a = a + line.length :=
    lineEndFrom_eq hhas.left hline (Or.inr ⟨by omega, hnewline⟩)
  have hspells := hhas.left.spells hbytes (by omega)
  rw [searchBuffer]
  simp only [hend, hnewline]
  rw [if_neg (by simp), searchLine_eq hs hsearch hname hspells]
  by_cases hrest : rest = []
  · rw [if_pos hrest, dif_pos (by simp [hrest] at hlast; omega)]
  · have hpos := List.length_pos_iff.mpr hrest
    rw [if_neg hrest, dif_neg (by omega)]

/-- The bytes behind the last newline are moved to the front, or searched. -/
theorem searchBuffer_end (hhas : BufferHas data a line) (hline : 0x0A ∉ line)
    (hbytes : ∀ c ∈ line, c ≠ 0) (hlen : last ≤ 1024) (hlast : last = a + line.length) :
    searchBuffer s fname search.length cnt ⟨data, last, out⟩ a =
      if 0x0A ≠ data last ∧ 0 ≠ cnt ∧ a ≠ 0 then
        ⟨storeFrom (Function.update data last 0) 0 (line ++ [0]), line.length, out⟩
      else ⟨Function.update data last 0, 0, out ++ foundReport name search line⟩ := by
  have hend : lineEndFrom data last a = last :=
    (lineEndFrom_eq hhas hline (Or.inl hlast.symm)).trans hlast.symm
  have hspells := hhas.spells hbytes (by omega)
  rw [← hlast] at hspells
  rw [searchBuffer]
  simp only [hend]
  by_cases hkeeps : 0x0A ≠ data last ∧ 0 ≠ cnt ∧ a ≠ 0
  · rw [if_pos hkeeps, if_pos hkeeps, ece391Strcpy_eq (by omega) hspells]
    congr 1
    omega
  · have hreport := searchLine_eq hs hsearch hname hspells
    rw [← hlast] at hreport
    rw [if_neg hkeeps, if_neg hkeeps, dif_pos (by omega), hreport]

/-- After the search the line that the buffer ends in is at the front, or all lines are searched.
The byte behind a full buffer is cleared if no newline is the last byte of the buffer. -/
theorem searchBuffer_spec (cnt : Nat) (hhas : BufferHas data a bytes)
    (hbytes : ∀ c ∈ bytes, c ≠ 0) (hlen : last ≤ 1024) (hlast : last = a + bytes.length)
    (hstart : bytes ≠ [] ∨ a = 0) (out : List UInt8) :
    ∃ data', data' 1024 = spareAfter data last bytes ∧
      (Kept data last cnt a bytes →
        searchBuffer s fname search.length cnt ⟨data, last, out⟩ a =
          ⟨data', (unfinished 0x0A bytes).length,
            out ++ perLine 0x0A (foundReport name search) (finished 0x0A bytes)⟩ ∧
        BufferHas data' 0 (unfinished 0x0A bytes)) ∧
      (¬Kept data last cnt a bytes →
        searchBuffer s fname search.length cnt ⟨data, last, out⟩ a =
          ⟨data', 0, out ++ perLine 0x0A (foundReport name search) bytes⟩) := by
  induction hk : bytes.length using Nat.strong_induction_on generalizing bytes data out a with
  | _ k ih =>
      have hnil := foundReport_nil name hsearch
      by_cases hnewline : 0x0A ∈ bytes
      · obtain ⟨line, rest, rfl, hline⟩ := List.eq_append_cons_of_mem hnewline
        rw [List.length_append, List.length_cons] at hk hlast
        rw [searchBuffer_newline hs hsearch hname hhas hline
          (fun c hc => hbytes c (List.mem_append_left _ hc)) hlen (by omega)]
        have hspare : Function.update data (a + line.length : Nat) 0 1024 = data 1024 :=
          Function.update_of_ne (by omega) _ _
        by_cases hrest : rest = []
        · subst hrest
          rw [if_pos rfl]
          refine ⟨Function.update data (a + line.length : Nat) 0, ?_,
            fun hkept => absurd (unfinished_append_cons line []) hkept.1, fun _ => ?_⟩
          · rw [hspare, spareAfter, if_neg fun h => h.1 (unfinished_append_cons line [])]
          · rw [perLine_append_cons, perLine_of_not_mem hline, perLine_nil hnil, List.append_nil]
        · have hrest' : BufferHas data (a + line.length) ([0x0A] ++ rest) := hhas.right
          have hbehind : BufferHas data (a + line.length + 1) rest := hrest'.right
          obtain ⟨data', hspare', hkept, hdone⟩ := ih rest.length (by omega)
            (hbehind.update (a + line.length) 0 (Or.inl (Nat.lt_succ_self _)))
            (fun c hc => hbytes c (by simp [hc]))
            (by omega) (Or.inl hrest) (out ++ foundReport name search line) rfl
          have hbefore : a + line.length < last := by omega
          have hiff := kept_newline_iff data cnt line rest hbefore
          rw [if_neg hrest]
          refine ⟨data', ?_, fun hk' => ?_, fun hk' => ?_⟩
          · rw [hspare', spareAfter, spareAfter, unfinished_append_cons, hspare]
          · obtain ⟨hresult, hfront⟩ := hkept (hiff.mpr hk')
            rw [unfinished_append_cons, finished_append_cons, perLine_append_cons,
              perLine_of_not_mem hline, ← List.append_assoc]
            exact ⟨hresult, hfront⟩
          · rw [perLine_append_cons, perLine_of_not_mem hline, ← List.append_assoc]
            exact hdone (mt hiff.mp hk')
      · have hkept : Kept data last cnt a bytes ↔ 0x0A ≠ data last ∧ 0 ≠ cnt ∧ a ≠ 0 := by
          unfold Kept
          rw [unfinished_of_not_mem hnewline, finished_of_not_mem hnewline]
          tauto
        rw [searchBuffer_end hs hsearch hname hhas hnewline hbytes hlen hlast, hkept,
          unfinished_of_not_mem hnewline, finished_of_not_mem hnewline, perLine_nil hnil,
          perLine_of_not_mem hnewline, List.append_nil]
        have hspare := update_last_spare data hnewline hlast hstart
        by_cases hkeeps : 0x0A ≠ data last ∧ 0 ≠ cnt ∧ a ≠ 0
        · rw [if_pos hkeeps]
          refine ⟨_, ?_, fun _ => ⟨rfl, ?_⟩, fun hnot => absurd hkeeps hnot⟩
          · rw [storeFrom_outside _ _ _ (by simp; omega), hspare]
          · exact (bufferHas_storeFrom _ 0 _).left
        · rw [if_neg hkeeps]
          exact ⟨_, hspare, fun hkeep => absurd hkeep hkeeps, fun _ => rfl⟩

end Turns

end Buffer

end Ece391Kernel
