import Ece391Kernel.Grep.Report

/-!
# The writes of `do_one_file`

The strings that `do_one_file` hands to `ece391_fdputs` while it searches a buffer, one call after
the other, and what the buffer holds when it reads on.
-/

namespace Ece391Kernel

open ByteMemory Lines

section Program

variable (s fname : Nat → UInt8) (sLen : Nat)

/-- The strings that are written for a line. -/
def lineWrites (data : Int → UInt8) (lineStart lineEnd : Nat) : List (Nat → UInt8) :=
  if lineMatches s sLen data lineStart lineEnd then
    [fname, message ":", stringAt data lineStart, message "\n"]
  else []

/-- The inner loop of `do_one_file`, by the strings that it writes. -/
def bufferWrites (cnt last : Nat) (data : Int → UInt8) (lineStart : Nat) : List (Nat → UInt8) :=
  let lineEnd := lineEndFrom data last lineStart
  let closed := Function.update data lineEnd 0
  if 0x0A ≠ data lineEnd ∧ 0 ≠ cnt ∧ lineStart ≠ 0 then []
  else if _h : lineEnd + 1 ≥ last then lineWrites s fname sLen closed lineStart lineEnd
  else
    lineWrites s fname sLen closed lineStart lineEnd ++ bufferWrites cnt last closed (lineEnd + 1)
termination_by last - lineStart
decreasing_by
  have hle := le_lineEndFrom data last lineStart
  simp only [lineEnd] at _h
  omega

theorem lineWrites_flatMap (data : Int → UInt8) (lineStart lineEnd : Nat) :
    (lineWrites s fname sLen data lineStart lineEnd).flatMap ece391Fdputs =
      searchLine s fname sLen data lineStart lineEnd := by
  unfold lineWrites searchLine
  split
  · simp [List.flatMap_cons]
  · rfl

/-- The strings are what the search prints, and the search does not depend on what has been printed
before. -/
theorem searchBuffer_eq (cnt last : Nat) (data : Int → UInt8) (out : List UInt8)
    (lineStart : Nat) :
    let b := searchBuffer s fname sLen cnt ⟨data, last, []⟩ lineStart
    searchBuffer s fname sLen cnt ⟨data, last, out⟩ lineStart =
      ⟨b.data, b.last,
        out ++ (bufferWrites s fname sLen cnt last data lineStart).flatMap ece391Fdputs⟩ := by
  fun_induction bufferWrites s fname sLen cnt last data lineStart generalizing out with
  | case1 data lineStart lineEnd hkeeps =>
      simp only
      rw [searchBuffer, searchBuffer, if_pos hkeeps, if_pos hkeeps]
      simp
  | case2 data lineStart lineEnd closed hsearched hend =>
      simp only
      rw [searchBuffer, searchBuffer, if_neg hsearched, if_neg hsearched]
      simp only
      rw [dif_pos hend, dif_pos hend, lineWrites_flatMap]
  | case3 data lineStart lineEnd closed hsearched hmore ih =>
      simp only
      rw [searchBuffer, searchBuffer, if_neg hsearched, if_neg hsearched]
      simp only
      rw [dif_neg hmore, dif_neg hmore, List.nil_append, List.flatMap_append, lineWrites_flatMap,
        ← List.append_assoc]
      rw [ih (out ++ searchLine s fname sLen closed lineStart lineEnd),
        ih (searchLine s fname sLen closed lineStart lineEnd)]

/-- There is room in the buffer after a search. -/
theorem searchBuffer_last_lt (cnt : Nat) {last : Nat} (hlast : last ≤ 1024) (data : Int → UInt8)
    (out : List UInt8) (lineStart : Nat) :
    (searchBuffer s fname sLen cnt ⟨data, last, out⟩ lineStart).last < 1024 := by
  fun_induction bufferWrites s fname sLen cnt last data lineStart generalizing out with
  | case1 data lineStart lineEnd hkeeps =>
      rw [searchBuffer, if_pos hkeeps]
      have hpos := hkeeps.2.2
      simp only
      omega
  | case2 data lineStart lineEnd closed hsearched hend =>
      rw [searchBuffer, if_neg hsearched]
      simp only
      rw [dif_pos hend]
      exact Nat.zero_lt_succ _
  | case3 data lineStart lineEnd closed hsearched hmore ih =>
      rw [searchBuffer, if_neg hsearched]
      simp only
      rw [dif_neg hmore]
      exact ih _

/-- Of the four strings that are written for a line two have one byte. -/
theorem length_bufferWrites_le (cnt last : Nat) (data : Int → UInt8) (lineStart : Nat) :
    (bufferWrites s fname sLen cnt last data lineStart).length ≤
      2 * ((bufferWrites s fname sLen cnt last data lineStart).flatMap ece391Fdputs).length := by
  have hcolon : (ece391Fdputs (message ":")).length = 1 := by decide
  have hnewline : (ece391Fdputs (message "\n")).length = 1 := by decide
  have hline : ∀ data lineStart lineEnd,
      (lineWrites s fname sLen data lineStart lineEnd).length ≤
        2 * ((lineWrites s fname sLen data lineStart lineEnd).flatMap ece391Fdputs).length := by
    intro data lineStart lineEnd
    unfold lineWrites
    split
    · simp only [List.flatMap_cons, List.flatMap_nil, List.length_append, List.length_cons,
        List.length_nil, hcolon, hnewline]
      omega
    · exact Nat.zero_le _
  fun_induction bufferWrites s fname sLen cnt last data lineStart with
  | case1 => exact Nat.zero_le _
  | case2 data lineStart lineEnd closed => exact hline _ _ _
  | case3 data lineStart lineEnd closed hsearched hmore ih =>
      have hfirst := hline closed lineStart lineEnd
      rw [List.flatMap_append, List.length_append, List.length_append]
      omega

end Program

section Loop

variable {s fname fname' : Nat → UInt8} {sLen : Nat}

/-- Only the string counts that `fname` points to. -/
theorem searchBuffer_fname (hname : ece391Fdputs fname = ece391Fdputs fname') (cnt : Nat)
    (b : GrepBuffer) (lineStart : Nat) :
    searchBuffer s fname sLen cnt b lineStart = searchBuffer s fname' sLen cnt b lineStart := by
  have hline : searchLine s fname sLen = searchLine s fname' sLen := by
    funext data lineStart lineEnd
    unfold searchLine
    rw [hname]
  fun_induction searchBuffer s fname sLen cnt b lineStart with
  | case1 b lineStart lineEnd data hkeeps => rw [searchBuffer, if_pos hkeeps]
  | case2 b lineStart lineEnd data hsearched out hend =>
      rw [searchBuffer, if_neg hsearched]
      simp only
      rw [dif_pos hend, ← hline]
  | case3 b lineStart lineEnd data hsearched out hmore ih =>
      conv_rhs => rw [searchBuffer, if_neg hsearched]
      simp only
      rw [dif_neg hmore, ← hline]
      exact ih

theorem readLoop_fname (hname : ece391Fdputs fname = ece391Fdputs fname') {σ : Type*}
    (calls : FileCalls σ) (fuel : Nat) (fd : σ) (b : GrepBuffer) :
    readLoop s fname sLen calls fuel fd b = readLoop s fname' sLen calls fuel fd b := by
  induction fuel generalizing fd b with
  | zero => rfl
  | succ fuel ih =>
      unfold readLoop
      simp only [searchBuffer_fname hname, ih]

/-- What has been printed before comes first, and makes no difference. -/
theorem readLoop_out {σ : Type*} (calls : FileCalls σ) (fuel : Nat) (fd : σ) (data : Int → UInt8)
    (last : Nat) (out : List UInt8) :
    readLoop s fname sLen calls fuel fd ⟨data, last, out⟩ =
      (readLoop s fname sLen calls fuel fd ⟨data, last, []⟩).map fun r => (r.1, out ++ r.2) := by
  induction fuel generalizing fd data last out with
  | zero => rfl
  | succ fuel ih =>
      rw [readLoop, readLoop]
      cases calls.read fd (1024 - last) with
      | none => rfl
      | some delivered =>
          simp only
          have hbefore := searchBuffer_eq s fname sLen delivered.1.length
            (last + delivered.1.length) (storeFrom data last delivered.1) out 0
          have hnone := searchBuffer_eq s fname sLen delivered.1.length
            (last + delivered.1.length) (storeFrom data last delivered.1) [] 0
          rw [hbefore]
          generalize searchBuffer s fname sLen delivered.1.length
            ⟨storeFrom data last delivered.1, last + delivered.1.length, []⟩ 0 = b at hnone ⊢
          obtain ⟨data', last', out'⟩ := b
          obtain ⟨-, -, rfl⟩ := GrepBuffer.mk.inj hnone
          simp only [List.nil_append]
          split
          · split
            · rfl
            · simp
          · rw [ih, ih _ _ _ (List.flatMap _ _), Option.map_map]
            simp [Function.comp_def]

/-- More turns do not change the result. -/
theorem readLoop_succ {σ : Type*} {calls : FileCalls σ} {fuel : Nat} {fd : σ} {b : GrepBuffer}
    {r : Int × List UInt8} (h : readLoop s fname sLen calls fuel fd b = some r) :
    readLoop s fname sLen calls (fuel + 1) fd b = some r := by
  induction fuel generalizing fd b with
  | zero => exact absurd h (by simp [readLoop])
  | succ fuel ih =>
      rw [readLoop] at h ⊢
      cases hread : calls.read fd (1024 - b.last) with
      | none =>
          rw [hread] at h
          exact h
      | some delivered =>
          rw [hread] at h
          simp only at h ⊢
          by_cases hcnt : delivered.1.length = 0
          · rw [if_pos hcnt] at h ⊢
            exact h
          · rw [if_neg hcnt] at h ⊢
            exact ih h

theorem readLoop_le {σ : Type*} {calls : FileCalls σ} {fuel fuel' : Nat} {fd : σ} {b : GrepBuffer}
    {r : Int × List UInt8} (h : readLoop s fname sLen calls fuel fd b = some r)
    (hle : fuel ≤ fuel') : readLoop s fname sLen calls fuel' fd b = some r := by
  induction hle with
  | refl => exact h
  | step _ ih => exact readLoop_succ ih

/-- A turn of the loop on a file. -/
theorem readLoop_file (file rest : List UInt8) (fuel last : Nat) (data : Int → UInt8)
    (out : List UInt8) :
    let bytes := rest.take (1024 - last)
    let b := searchBuffer s fname sLen bytes.length
      ⟨storeFrom data last bytes, last + bytes.length, out⟩ 0
    readLoop s fname sLen (fileCalls file) (fuel + 1) rest ⟨data, last, out⟩ =
      if bytes.length = 0 then some (0, b.out)
      else readLoop s fname sLen (fileCalls file) fuel (rest.drop (1024 - last)) b := rfl

/-- What a file makes the loop print is what its next turn writes, and then what the rest of the
file makes it print. -/
theorem readLoop_file_out {file rest out : List UInt8} {fuel last : Nat} {data : Int → UInt8}
    (h : readLoop s fname sLen (fileCalls file) (fuel + 1) rest ⟨data, last, []⟩ = some (0, out)) :
    let bytes := rest.take (1024 - last)
    let data' := storeFrom data last bytes
    let b := searchBuffer s fname sLen bytes.length ⟨data', last + bytes.length, []⟩ 0
    let writes := bufferWrites s fname sLen bytes.length (last + bytes.length) data' 0
    (bytes.length = 0 → out = writes.flatMap ece391Fdputs) ∧
      (bytes.length ≠ 0 → ∃ out', out = writes.flatMap ece391Fdputs ++ out' ∧
        readLoop s fname sLen (fileCalls file) fuel (rest.drop (1024 - last)) ⟨b.data, b.last, []⟩ =
          some (0, out')) := by
  intro bytes data' b writes
  have hb : b = ⟨b.data, b.last, writes.flatMap ece391Fdputs⟩ :=
    searchBuffer_eq s fname sLen bytes.length (last + bytes.length) data' [] 0
  rw [readLoop_file] at h
  constructor
  · intro hend
    rw [if_pos hend] at h
    have hout : b.out = out := congrArg Prod.snd (Option.some.inj h)
    rw [← hout, hb]
  · intro hmore
    rw [if_neg hmore] at h
    change readLoop _ _ _ _ _ _ b = _ at h
    rw [hb, readLoop_out] at h
    obtain ⟨⟨code, out'⟩, hrest, heq⟩ := Option.map_eq_some_iff.mp h
    obtain ⟨rfl, rfl⟩ := Prod.mk.inj heq
    exact ⟨out', rfl, hrest⟩

/-- On every file the loop ends, after a turn for every byte and one more at most. -/
theorem readLoop_ends (file : List UInt8) {rest : List UInt8} {fuel last : Nat}
    (hfuel : rest.length < fuel) (hlast : last < 1024) (data : Int → UInt8) (out : List UInt8) :
    ∃ total, readLoop s fname sLen (fileCalls file) fuel rest ⟨data, last, out⟩ =
      some (0, total) := by
  induction fuel generalizing rest last data out with
  | zero => exact absurd hfuel (Nat.not_lt_zero _)
  | succ fuel ih =>
      rw [readLoop_file]
      split
      · exact ⟨_, rfl⟩
      · rename_i hcnt
        rw [List.length_take] at hcnt
        have hroom : last + (rest.take (1024 - last)).length ≤ 1024 := by
          rw [List.length_take]
          omega
        have hlt := searchBuffer_last_lt s fname sLen (rest.take (1024 - last)).length hroom
          (storeFrom data last (rest.take (1024 - last))) out 0
        refine ih ?_ hlt _ _
        rw [List.length_drop]
        omega

end Loop

end Ece391Kernel
