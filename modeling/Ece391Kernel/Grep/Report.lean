import Ece391Kernel.Grep.Search
import Mathlib.Data.List.Infix

/-!
# What `grep` reports

The outer loop of `do_one_file` reports every line of the file, however the lines lie across the
reads, unless the byte behind the buffer happens to be a newline when the function is called. Then
the first full buffer that ends within a line is taken to end with it.
-/

namespace Ece391Kernel

open ByteMemory Lines

/-! ## Reports -/

/-- The lines of a file that contain a string, each with the name of the file. -/
def grepReport (name search file : List UInt8) : List UInt8 :=
  perLine 0x0A (fun line => if search <:+: line then lineReport name line else []) file

/-- The line that the first full buffer ends within, as the bytes before and behind the end of
the buffer. -/
def cutLine (file : List UInt8) : Option (List UInt8 × List UInt8) :=
  if _h : file.length ≤ 1024 then none
  else if unfinished 0x0A (file.take 1024) = [] then cutLine (file.drop 1024)
  else some (unfinished 0x0A (file.take 1024), (file.drop 1024).takeWhile (· ≠ 0x0A))
termination_by file.length
decreasing_by
  rw [List.length_drop]
  omega

/-- What is printed if that line is taken for two. -/
def cutReport (name search file : List UInt8) : List UInt8 :=
  if _h : file.length ≤ 1024 then perLine 0x0A (foundReport name search) file
  else
    perLine 0x0A (foundReport name search) (file.take 1024) ++
      if unfinished 0x0A (file.take 1024) = [] then cutReport name search (file.drop 1024)
      else perLine 0x0A (foundReport name search) (file.drop 1024)
termination_by file.length
decreasing_by
  rw [List.length_drop]
  omega

/-! ## The turns of the outer loop -/

/-- With enough turns this is the result. -/
def Returns {α : Type*} (loop : Nat → Option α) (result : α) : Prop :=
  ∃ n, ∀ fuel ≥ n, loop fuel = some result

theorem Returns.of_succ {α : Type*} {loop next : Nat → Option α} {result : α}
    (hnext : ∀ fuel, loop (fuel + 1) = next fuel) (h : Returns next result) :
    Returns loop result := by
  obtain ⟨n, hn⟩ := h
  refine ⟨n + 1, fun fuel hfuel => ?_⟩
  obtain ⟨fuel, rfl⟩ : ∃ k, fuel = k + 1 := ⟨fuel - 1, by omega⟩
  rw [hnext, hn fuel (by omega)]

section Loop

variable {σ : Type*} {calls : FileCalls σ} {remaining : σ → List UInt8}
  {s fname : Nat → UInt8} {search name file frag rest out : List UInt8}
  {data : Int → UInt8} {fd : σ}

/-- The bytes in the buffer when the next ones are read in. -/
def refilled (frag rest : List UInt8) : List UInt8 := frag ++ rest.take (1024 - frag.length)

theorem refilled_append (frag rest : List UInt8) :
    refilled frag rest ++ rest.drop (1024 - frag.length) = frag ++ rest := by
  unfold refilled
  rw [List.append_assoc, List.take_append_drop]

theorem length_refilled_le (rest : List UInt8) (hlen : frag.length < 1024) :
    (refilled frag rest).length ≤ 1024 := by
  unfold refilled
  rw [List.length_append, List.length_take]
  omega

/-- A buffer that is not full holds the rest of the file. -/
theorem length_refilled (hlen : frag.length < 1024) (hrest : rest.drop (1024 - frag.length) ≠ []) :
    (refilled frag rest).length = 1024 := by
  have hlong := List.length_pos_iff.mpr hrest
  unfold refilled
  rw [List.length_drop] at hlong
  rw [List.length_append, List.length_take]
  omega

theorem length_refilled_add (frag rest : List UInt8) :
    (refilled frag rest).length + (rest.drop (1024 - frag.length)).length =
      frag.length + rest.length := by
  rw [← List.length_append, refilled_append, List.length_append]

/-- If nothing is kept of the buffer, then no line goes on behind it. -/
theorem perLine_refilled {f : List UInt8 → List UInt8} (hnil : f [] = [])
    (hlen : frag.length < 1024) (hlines : Bounded 0x0A 1023 (frag ++ rest))
    (hspare : data 1024 ≠ 0x0A ∨ frag.length + rest.length ≤ 1024)
    (hdone : unfinished 0x0A (refilled frag rest) = [] ∨ finished 0x0A (refilled frag rest) = [] ∨
      data (refilled frag rest).length = 0x0A) :
    perLine 0x0A f (frag ++ rest) =
      perLine 0x0A f (refilled frag rest) ++ perLine 0x0A f (rest.drop (1024 - frag.length)) := by
  rw [← refilled_append] at hlines ⊢
  by_cases hend : rest.drop (1024 - frag.length) = []
  · rw [hend, perLine_nil hnil, List.append_nil, List.append_nil]
  · refine perLine_append_of_unfinished hnil ?_ _
    -- the buffer is full, it has a newline, and there is none behind it
    have hfull := length_refilled hlen hend
    have htotal := length_refilled_add frag rest
    have hmore := List.length_pos_iff.mpr hend
    rcases hdone with hclosed | hline | hnewline
    · exact hclosed
    · have hshort := hlines.length_le (not_mem_of_finished hline)
      omega
    · rw [hfull] at hnewline
      rcases hspare with hne | hsum
      · exact absurd hnewline hne
      · omega

theorem bufferHas_nil (data : Int → UInt8) : BufferHas data 0 [] :=
  fun i hi => absurd hi (Nat.not_lt_zero i)

variable (hcalls : DeliversBytes calls remaining file) (hs : Spells s search)
  (hsearch : search ≠ []) (hname : Spells fname name)

include hcalls hs hsearch hname

/-- At the end of the file what is left in the buffer is searched. -/
theorem readLoop_end (hfd : remaining fd = []) (hfrag : BufferHas data 0 frag)
    (hlen : frag.length < 1024) (hbytes : ∀ c ∈ frag, c ≠ 0) :
    Returns (fun fuel => readLoop s fname search.length calls fuel fd ⟨data, frag.length, out⟩)
      (0, out ++ perLine 0x0A (foundReport name search) frag) := by
  obtain ⟨fd', hread, -⟩ := hcalls.read fd (1024 - frag.length)
  obtain ⟨data', -, -, hdone⟩ := searchBuffer_spec hs hsearch hname 0 hfrag hbytes
    (Nat.le_of_lt hlen) (Nat.zero_add _).symm (Or.inr rfl) out
  have hresult := hdone fun hkept => hkept.2.2.1 rfl
  refine ⟨1, fun fuel hfuel => ?_⟩
  obtain ⟨fuel, rfl⟩ : ∃ k, fuel = k + 1 := ⟨fuel - 1, by omega⟩
  simp only [readLoop, hread, hfd, List.take_nil, List.length_nil, Nat.add_zero, storeFrom_nil,
    hresult, hcalls.closed, if_true]

/-- A turn that reads something: the line that the buffer ends in is kept, or everything in the
buffer is searched. -/
theorem readLoop_turn {chunk : List UInt8} (hchunk : refilled frag rest = chunk)
    (hfd : remaining fd = rest) (hfrag : BufferHas data 0 frag) (hlen : frag.length < 1024)
    (hbytes : ∀ c ∈ frag ++ rest, c ≠ 0) (hrest : rest ≠ []) (out : List UInt8) :
    ∃ fd' data', remaining fd' = rest.drop (1024 - frag.length) ∧
      (data' 1024 =
        if unfinished 0x0A chunk ≠ [] ∧ chunk.length = 1024 then 0 else data 1024) ∧
      ((finished 0x0A chunk ≠ [] ∧ data chunk.length ≠ 0x0A ∧
        BufferHas data' 0 (unfinished 0x0A chunk) ∧
        ∀ fuel, readLoop s fname search.length calls (fuel + 1) fd ⟨data, frag.length, out⟩ =
          readLoop s fname search.length calls fuel fd'
            ⟨data', (unfinished 0x0A chunk).length,
              out ++ perLine 0x0A (foundReport name search) (finished 0x0A chunk)⟩) ∨
      (unfinished 0x0A chunk = [] ∨ finished 0x0A chunk = [] ∨ data chunk.length = 0x0A) ∧
        ∀ fuel, readLoop s fname search.length calls (fuel + 1) fd ⟨data, frag.length, out⟩ =
          readLoop s fname search.length calls fuel fd'
            ⟨data', 0, out ++ perLine 0x0A (foundReport name search) chunk⟩) := by
  obtain ⟨fd', hread, hremaining⟩ := hcalls.read fd (1024 - frag.length)
  obtain ⟨bytes, htake⟩ : ∃ bytes, rest.take (1024 - frag.length) = bytes := ⟨_, rfl⟩
  rw [hfd, htake] at hread
  rw [hfd] at hremaining
  have hjoined : frag ++ bytes = chunk := by rw [← hchunk, refilled, htake]
  have hlength : frag.length + bytes.length = chunk.length := by
    rw [← hjoined, List.length_append]
  have hle : chunk.length ≤ 1024 := hchunk ▸ length_refilled_le rest hlen
  have hcnt : bytes.length ≠ 0 := by
    have hpos := List.length_pos_iff.mpr hrest
    rw [← htake, List.length_take]
    omega
  have hhas : BufferHas (storeFrom data frag.length bytes) 0 chunk := hjoined ▸ hfrag.append bytes
  have hnonzero : ∀ c ∈ chunk, c ≠ 0 := by
    intro c hc
    refine hbytes c ?_
    rw [← refilled_append, hchunk]
    exact List.mem_append_left _ hc
  have hbehind : ∀ i ≥ chunk.length, storeFrom data frag.length bytes (i : Nat) = data (i : Nat) :=
    fun i hi => storeFrom_outside _ _ _ (by omega)
  obtain ⟨data', hspare, hkept, hdone⟩ := searchBuffer_spec hs hsearch hname bytes.length hhas
    hnonzero hle (Nat.zero_add _).symm (Or.inr rfl) out
  have hturn : ∀ fuel b', searchBuffer s fname search.length bytes.length
      ⟨storeFrom data frag.length bytes, chunk.length, out⟩ 0 = b' →
        readLoop s fname search.length calls (fuel + 1) fd ⟨data, frag.length, out⟩ =
          readLoop s fname search.length calls fuel fd' b' := by
    intro fuel b' hb'
    simp only [readLoop, hread, hlength, hb', if_neg hcnt]
  refine ⟨fd', data', hremaining, ?_, ?_⟩
  · rw [hspare, spareAfter]
    exact if_congr Iff.rfl rfl (hbehind 1024 hle)
  · by_cases hk : Kept (storeFrom data frag.length bytes) chunk.length bytes.length 0 chunk
    · obtain ⟨hresult, hfront⟩ := hkept hk
      have hfinished : finished 0x0A chunk ≠ [] := hk.2.2.2.resolve_left fun hne => hne rfl
      have hspare : data chunk.length ≠ 0x0A := fun hnewline =>
        hk.2.1 (hnewline.symm.trans (hbehind _ (Nat.le_refl _)).symm)
      exact Or.inl ⟨hfinished, hspare, hfront, fun fuel => hturn fuel _ hresult⟩
    · refine Or.inr ⟨?_, fun fuel => hturn fuel _ (hdone hk)⟩
      by_contra hnot
      rw [not_or, not_or] at hnot
      refine hk ⟨hnot.1, fun hnewline => hnot.2.2 ?_, fun heq => hcnt heq.symm, Or.inr hnot.2.1⟩
      rw [hnewline, hbehind _ (Nat.le_refl _)]

/-- Without a newline behind the buffer, or with the rest of the file in it, the lines are reported
as they are. -/
theorem readLoop_whole (hfd : remaining fd = rest) (hfrag : BufferHas data 0 frag)
    (hlen : frag.length < 1024) (hbytes : ∀ c ∈ frag ++ rest, c ≠ 0)
    (hlines : Bounded 0x0A 1023 (frag ++ rest))
    (hspare : data 1024 ≠ 0x0A ∨ frag.length + rest.length ≤ 1024) :
    Returns (fun fuel => readLoop s fname search.length calls fuel fd ⟨data, frag.length, out⟩)
      (0, out ++ perLine 0x0A (foundReport name search) (frag ++ rest)) := by
  have hnil := foundReport_nil name hsearch
  induction hk : rest.length using Nat.strong_induction_on generalizing frag rest data out fd with
  | _ k ih =>
      by_cases hrest : rest = []
      · subst hrest
        rw [List.append_nil] at hbytes ⊢
        exact readLoop_end hcalls hs hsearch hname hfd hfrag hlen hbytes
      · have hsplit := refilled_append frag rest
        have hle := length_refilled_le rest hlen
        have hdrop : (rest.drop (1024 - frag.length)).length < k := by
          have hpos := List.length_pos_iff.mpr hrest
          rw [List.length_drop]
          omega
        obtain ⟨fd', data', hfd', hdata', hturn⟩ := readLoop_turn hcalls hs hsearch hname
          rfl hfd hfrag hlen hbytes hrest out
        have htotal := length_refilled_add frag rest
        have hspare' : ∀ kept : List UInt8, kept.length ≤ (refilled frag rest).length →
            data' 1024 ≠ 0x0A ∨
              kept.length + (rest.drop (1024 - frag.length)).length ≤ 1024 := by
          intro kept hkept
          refine hspare.imp (fun hne => ?_) fun hsum => by omega
          rw [hdata']
          split
          · decide
          · exact hne
        rcases hturn with ⟨hfinished, -, hfront, hloop⟩ | ⟨hdone, hloop⟩
        · have hpieces := finished_append_unfinished 0x0A (refilled frag rest)
          have hlength := congrArg List.length hpieces
          have hpos := List.length_pos_iff.mpr hfinished
          rw [List.length_append] at hlength
          rw [← hsplit] at hbytes hlines ⊢
          refine Returns.of_succ hloop ?_
          rw [perLine_append hnil, ← List.append_assoc]
          rw [← hpieces, List.append_assoc] at hlines hbytes
          exact ih _ hdrop hfd' hfront (by omega)
            (fun c hc => hbytes c (List.mem_append_right _ hc)) hlines.of_append
            (hspare' _ (by omega)) rfl
        · refine Returns.of_succ hloop ?_
          rw [perLine_refilled hnil hlen hlines hspare hdone, ← List.append_assoc]
          rw [← hsplit] at hbytes hlines
          exact ih _ hdrop hfd' (bufferHas_nil data') (by decide)
            (fun c hc => hbytes c (List.mem_append_right _ hc)) hlines.of_append
            (hspare' [] (Nat.zero_le _)) rfl

/-- The same with an empty buffer. -/
theorem readLoop_whole_nil (hfd : remaining fd = rest) (hbytes : ∀ c ∈ rest, c ≠ 0)
    (hlines : Bounded 0x0A 1023 rest) (hspare : data 1024 ≠ 0x0A ∨ rest.length ≤ 1024) :
    Returns (fun fuel => readLoop s fname search.length calls fuel fd ⟨data, 0, out⟩)
      (0, out ++ perLine 0x0A (foundReport name search) rest) := by
  have hsum : data 1024 ≠ 0x0A ∨ ([] : List UInt8).length + rest.length ≤ 1024 := by
    rwa [List.length_nil, Nat.zero_add]
  exact readLoop_whole hcalls hs hsearch hname hfd (bufferHas_nil data) (by decide) hbytes hlines
    hsum

/-- With a newline behind the buffer, the first full buffer that ends within a line is reported as
if the line ended there. -/
theorem readLoop_cut (hfd : remaining fd = rest) (hbytes : ∀ c ∈ rest, c ≠ 0)
    (hlines : Bounded 0x0A 1023 rest) (hspare : data 1024 = 0x0A) :
    Returns (fun fuel => readLoop s fname search.length calls fuel fd ⟨data, 0, out⟩)
      (0, out ++ cutReport name search rest) := by
  induction hk : rest.length using Nat.strong_induction_on generalizing rest data out fd with
  | _ k ih =>
      rw [cutReport]
      split
      · rename_i hshort
        exact readLoop_whole_nil hcalls hs hsearch hname hfd hbytes hlines (Or.inr hshort)
      · rename_i hlong
        have hrest : rest ≠ [] := by
          rintro rfl
          exact hlong (Nat.zero_le _)
        have hfull : (rest.take 1024).length = 1024 := by
          rw [List.length_take]
          omega
        have hchunk : refilled [] rest = rest.take 1024 := rfl
        obtain ⟨fd', data', hfd', hdata', hturn⟩ := readLoop_turn hcalls hs hsearch hname hchunk hfd
          (bufferHas_nil data) (by decide) hbytes hrest out
        rw [hfull] at hturn hdata'
        rw [← List.take_append_drop 1024 rest] at hbytes hlines
        rcases hturn with ⟨-, hne, -⟩ | ⟨-, hloop⟩
        · exact absurd hspare hne
        · refine Returns.of_succ hloop ?_
          rw [← List.append_assoc]
          by_cases hclosed : unfinished 0x0A (rest.take 1024) = []
          · rw [if_neg fun h => h.1 hclosed] at hdata'
            rw [if_pos hclosed]
            exact ih _ (by rw [List.length_drop]; omega) hfd'
              (fun c hc => hbytes c (List.mem_append_right _ hc)) hlines.of_append
              (hdata'.trans hspare) rfl
          · rw [if_pos ⟨hclosed, rfl⟩] at hdata'
            rw [if_neg hclosed]
            exact readLoop_whole_nil hcalls hs hsearch hname hfd'
              (fun c hc => hbytes c (List.mem_append_right _ hc)) hlines.of_append
              (Or.inl (by rw [hdata']; decide))

end Loop

/-! ## What is reported -/

section Conditions

variable {name search : List UInt8}

theorem foundReport_of_char (hchar : search.headD 0 < 0x80) (line : List UInt8) :
    foundReport name search line = if search <:+: line then lineReport name line else [] :=
  if_congr (and_iff_right hchar) rfl rfl

theorem lineReport_ne_nil (name line : List UInt8) : lineReport name line ≠ [] := by
  simp [lineReport]

theorem length_lineReport (name line : List UInt8) :
    (lineReport name line).length = name.length + line.length + 2 := by
  simp [lineReport]
  omega

/-- A line that is reported in two pieces is reported as it is only if one piece is empty or the
string is not in it. -/
theorem foundReport_append_iff (hsearch : search ≠ []) (hchar : search.headD 0 < 0x80)
    {front : List UInt8} (hfront : front ≠ []) (back : List UInt8) :
    foundReport name search front ++ foundReport name search back =
        foundReport name search (front ++ back) ↔
      back = [] ∨ ¬search <:+: front ++ back := by
  have hleft : search <:+: front → search <:+: front ++ back :=
    fun h => h.trans (List.prefix_append front back).isInfix
  have hright : search <:+: back → search <:+: front ++ back :=
    fun h => h.trans (List.suffix_append front back).isInfix
  constructor
  · intro heq
    by_contra hnot
    rw [not_or, not_not] at hnot
    obtain ⟨hback, hin⟩ := hnot
    have hlengths := congrArg List.length heq
    have hfrontPos := List.length_pos_iff.mpr hfront
    have hbackPos := List.length_pos_iff.mpr hback
    simp only [foundReport_of_char hchar, if_pos hin, List.length_append, length_lineReport]
      at hlengths
    -- two reports are longer than the report of the line, and one or none is shorter
    by_cases h1 : search <:+: front <;> by_cases h2 : search <:+: back <;>
      simp only [h1, h2, if_true, if_false, length_lineReport, List.length_nil] at hlengths <;>
      omega
  · rintro (rfl | hnot)
    · rw [foundReport_nil name hsearch, List.append_nil, List.append_nil]
    · rw [foundReport_of_char hchar, foundReport_of_char hchar, foundReport_of_char hchar,
        if_neg hnot, if_neg (mt hleft hnot), if_neg (mt hright hnot), List.append_nil]

theorem cutReport_eq_iff (hsearch : search ≠ []) (hchar : search.headD 0 < 0x80)
    (file : List UInt8) :
    cutReport name search file = perLine 0x0A (foundReport name search) file ↔
      ∀ front back, cutLine file = some (front, back) → back = [] ∨ ¬search <:+: front ++ back := by
  have hnil := foundReport_nil name hsearch
  induction file using cutLine.induct with
  | case1 file hshort =>
      rw [cutReport, cutLine, dif_pos hshort, dif_pos hshort]
      simp
  | case2 file hlong hclosed ih =>
      have hpieces : perLine 0x0A (foundReport name search) file =
          perLine 0x0A (foundReport name search) (file.take 1024) ++
            perLine 0x0A (foundReport name search) (file.drop 1024) := by
        rw [← perLine_append_of_unfinished hnil hclosed, List.take_append_drop]
      rw [cutReport, cutLine, dif_neg hlong, dif_neg hlong, if_pos hclosed, if_pos hclosed, hpieces,
        List.append_right_inj]
      exact ih
  | case3 file hlong hopen =>
      obtain ⟨hline, rest, hbehind, hrest⟩ := takeWhile_line 0x0A (file.drop 1024)
      rw [cutReport, cutLine, dif_neg hlong, dif_neg hlong, if_neg hopen, if_neg hopen]
      obtain ⟨front, hfront⟩ : ∃ front, unfinished 0x0A (file.take 1024) = front := ⟨_, rfl⟩
      obtain ⟨back, hback⟩ : ∃ back, (file.drop 1024).takeWhile (· ≠ 0x0A) = back := ⟨_, rfl⟩
      rw [hback] at hline hbehind
      have hcut : perLine 0x0A (foundReport name search) (file.take 1024) ++
          perLine 0x0A (foundReport name search) (file.drop 1024) =
            perLine 0x0A (foundReport name search) (finished 0x0A (file.take 1024)) ++
              ((foundReport name search front ++ foundReport name search back) ++
                perLine 0x0A (foundReport name search) rest.tail) := by
        rw [perLine_eq hnil, hfront, hbehind, perLine_line_append hnil hline hrest,
          List.append_assoc, List.append_assoc]
      have hwhole : perLine 0x0A (foundReport name search) file =
          perLine 0x0A (foundReport name search) (finished 0x0A (file.take 1024)) ++
            (foundReport name search (front ++ back) ++
              perLine 0x0A (foundReport name search) rest.tail) := by
        conv_lhs => rw [← List.take_append_drop 1024 file, hbehind]
        rw [perLine_append_line_append hnil hline hrest, hfront]
      rw [hcut, hwhole, List.append_right_inj, List.append_left_inj, hfront, hback,
        foundReport_append_iff hsearch hchar (hfront ▸ hopen)]
      constructor
      · rintro h _ _ ⟨⟩
        exact h
      · exact fun h => h front back rfl

/-- The line that is cut is a line of the file. -/
theorem cutLine_mem {file front back : List UInt8} (h : cutLine file = some (front, back)) :
    front ++ back ∈ file.splitOn 0x0A := by
  induction file using cutLine.induct with
  | case1 file hshort =>
      rw [cutLine, dif_pos hshort] at h
      simp at h
  | case2 file hlong hclosed ih =>
      rw [cutLine, dif_neg hlong, if_pos hclosed] at h
      have hline : front ++ back ∈
          (unfinished 0x0A (file.take 1024) ++ file.drop 1024).splitOn 0x0A := hclosed ▸ ih h
      have hmem := mem_splitOn_append hline
      rwa [List.take_append_drop] at hmem
  | case3 file hlong hopen =>
      obtain ⟨hback, rest, hbehind, hrest⟩ := takeWhile_line 0x0A (file.drop 1024)
      rw [cutLine, dif_neg hlong, if_neg hopen, Option.some_inj, Prod.mk.injEq] at h
      obtain ⟨rfl, heq⟩ := h
      rw [heq] at hback hbehind
      have hnot : 0x0A ∉ unfinished 0x0A (file.take 1024) ++ back :=
        List.not_mem_append (not_mem_unfinished _ _) hback
      have hline := mem_splitOn_line_append hnot hrest
      rw [List.append_assoc, ← hbehind] at hline
      have hmem := mem_splitOn_append hline
      rwa [List.take_append_drop] at hmem

/-- A string whose first byte is negative is not found. -/
theorem perLine_of_not_char (hchar : ¬search.headD 0 < 0x80) (file : List UInt8) :
    perLine 0x0A (foundReport name search) file = [] :=
  List.flatMap_eq_nil_iff.mpr fun _ _ => if_neg fun hfound => hchar hfound.1

theorem cutReport_of_not_char (hchar : ¬search.headD 0 < 0x80) (file : List UInt8) :
    cutReport name search file = [] := by
  induction file using cutReport.induct with
  | case1 file hshort => rw [cutReport, dif_pos hshort, perLine_of_not_char hchar]
  | case2 file hlong ih =>
      rw [cutReport, dif_neg hlong, perLine_of_not_char hchar, perLine_of_not_char hchar, ih]
      simp

end Conditions

/-- No line contains the string; or the first byte of the string is not negative, and if the byte
behind the buffer is a newline, the line that the first full buffer ends within is not cut in two
or does not contain the string. -/
def ReportsLines (data : Int → UInt8) (search file : List UInt8) : Prop :=
  (∀ line ∈ file.splitOn 0x0A, ¬search <:+: line) ∨
    search.headD 0 < 0x80 ∧ (data 1024 = 0x0A →
      ∀ front back, cutLine file = some (front, back) → back = [] ∨ ¬search <:+: front ++ back)

section Program

variable {σ : Type*} {calls : FileCalls σ} {remaining : σ → List UInt8} {file : List UInt8}
  {s fname : Nat → UInt8} {search name : List UInt8}

/-- What `do_one_file` prints. -/
theorem doOneFile_returns (hcalls : DeliversBytes calls remaining file) (data : Int → UInt8)
    (hs : Spells s search) (hname : Spells fname name) (hsearch : search ≠ [])
    (hfile : ∀ c ∈ file, c ≠ 0) (hlines : Bounded 0x0A 1023 file) :
    Returns (fun fuel => doOneFile calls fuel data s fname)
      (0, if data 1024 = 0x0A then cutReport name search file
        else perLine 0x0A (foundReport name search) file) := by
  obtain ⟨fd, hopened, hfd⟩ := hcalls.opened
  simp only [doOneFile, hopened, ece391Strlen, hs.strlen_eq]
  by_cases hspare : data 1024 = 0x0A
  · rw [if_pos hspare, ← List.nil_append (cutReport name search file)]
    exact readLoop_cut hcalls hs hsearch hname hfd hfile hlines hspare
  · rw [if_neg hspare, ← List.nil_append (perLine 0x0A (foundReport name search) file)]
    exact readLoop_whole_nil hcalls hs hsearch hname hfd hfile hlines (Or.inl hspare)

/-- Nothing is reported if and only if no line contains the string. -/
theorem grepReport_eq_nil :
    grepReport name search file = [] ↔ ∀ line ∈ file.splitOn 0x0A, ¬search <:+: line := by
  unfold grepReport perLine
  rw [List.flatMap_eq_nil_iff]
  refine forall₂_congr fun line _ => ?_
  by_cases hin : search <:+: line <;> simp [hin, lineReport_ne_nil]

theorem reportsLines_iff (hsearch : search ≠ []) (data : Int → UInt8) :
    (if data 1024 = 0x0A then cutReport name search file
      else perLine 0x0A (foundReport name search) file) = grepReport name search file ↔
      ReportsLines data search file := by
  unfold ReportsLines
  by_cases hchar : search.headD 0 < 0x80
  · have hreport : grepReport name search file = perLine 0x0A (foundReport name search) file :=
      congrArg (perLine 0x0A · file) (funext fun line => (foundReport_of_char hchar line).symm)
    by_cases hspare : data 1024 = 0x0A
    · rw [if_pos hspare, hreport, cutReport_eq_iff hsearch hchar]
      constructor
      · exact fun h => Or.inr ⟨hchar, fun _ => h⟩
      · rintro (hnone | ⟨-, h⟩)
        · exact fun front back hcut => Or.inr (hnone _ (cutLine_mem hcut))
        · exact h hspare
    · rw [if_neg hspare, hreport]
      exact iff_of_true rfl (Or.inr ⟨hchar, fun hnewline => absurd hnewline hspare⟩)
  · rw [cutReport_of_not_char hchar, perLine_of_not_char hchar, ite_self, eq_comm,
      grepReport_eq_nil]
    exact (or_iff_left fun h => hchar h.1).symm

end Program

/-! ## A file with a line that is cut -/

/-- A descriptor that delivers the bytes of a file. -/
def fileCalls (file : List UInt8) : FileCalls (List UInt8) :=
  ⟨some file, fun fd n => some (fd.take n, fd.drop n), fun _ => true⟩

theorem fileCalls_deliver (file : List UInt8) : DeliversBytes (fileCalls file) id file :=
  ⟨⟨file, rfl, rfl⟩, fun fd n => ⟨fd.drop n, rfl, rfl⟩, fun _ => rfl⟩

/-- A line that begins in the first buffer and ends behind it is cut. -/
theorem cutLine_eq {lines front back : List UInt8}
    (hlen : (lines ++ 0x0A :: front).length = 1024) (hfront : 0x0A ∉ front) (hback : 0x0A ∉ back)
    (hfront' : front ≠ []) (hback' : back ≠ []) :
    cutLine ((lines ++ 0x0A :: front) ++ back) = some (front, back) := by
  have hpos := List.length_pos_iff.mpr hback'
  have hopen : unfinished 0x0A (lines ++ 0x0A :: front) = front := by
    rw [unfinished_append_cons, unfinished_of_not_mem hfront]
  have hline : back.takeWhile (· ≠ 0x0A) = back := by
    refine List.takeWhile_eq_self_iff.mpr fun c hc => decide_eq_true ?_
    rintro rfl
    exact hback hc
  rw [cutLine, dif_neg (by rw [List.length_append]; omega), List.take_left' hlen,
    List.drop_left' hlen, hopen, if_neg hfront', hline]

/-- A file with a line of 1000 bytes and one of 50. -/
def twoLines : List UInt8 :=
  (List.replicate 1000 0x61 ++ 0x0A :: List.replicate 23 0x62) ++ List.replicate 27 0x62

theorem length_twoLines_front :
    (List.replicate 1000 (0x61 : UInt8) ++ 0x0A :: List.replicate 23 0x62).length = 1024 := by
  rw [List.length_append, List.length_cons, List.length_replicate, List.length_replicate]

theorem twoLines_cut : cutLine twoLines = some (List.replicate 23 0x62, List.replicate 27 0x62) :=
  cutLine_eq length_twoLines_front (by decide) (by decide) (by decide) (by decide)

theorem twoLines_ne_zero : ∀ c ∈ twoLines, c ≠ 0 := by
  have hrep : ∀ (n : Nat) (c d : UInt8), d ≠ 0 → c ∈ List.replicate n d → c ≠ 0 := by
    rintro n c d hd hc rfl
    exact hd (List.eq_of_mem_replicate hc).symm
  intro c hc
  unfold twoLines at hc
  rw [List.mem_append, List.mem_append, List.mem_cons] at hc
  rcases hc with (hc | rfl | hc) | hc
  · exact hrep _ _ _ (by decide) hc
  · decide
  · exact hrep _ _ _ (by decide) hc
  · exact hrep _ _ _ (by decide) hc

theorem twoLines_bounded : Bounded 0x0A 1023 twoLines := by
  have hnot : ∀ (n : Nat) (c : UInt8), 0x0A ≠ c → 0x0A ∉ List.replicate n c :=
    fun n c hc hmem => hc (List.eq_of_mem_replicate hmem)
  unfold twoLines
  rw [List.append_assoc, List.cons_append]
  refine bounded_append_cons.mpr ⟨?_, ?_⟩
  · rw [bounded_of_not_mem (hnot _ _ (by decide)), List.length_replicate]
    decide
  · rw [List.replicate_append_replicate, bounded_of_not_mem (hnot _ _ (by decide)),
      List.length_replicate]
    decide

/-! ## The report of `do_one_file` -/

/-- `do_one_file` returns, and it reports exactly the lines that contain the string if and only if
`ReportsLines` holds. -/
theorem doOneFile_reports_iff {σ : Type*} {calls : FileCalls σ} {remaining : σ → List UInt8}
    {file : List UInt8} (hcalls : DeliversBytes calls remaining file) (data : Int → UInt8)
    {s fname : Nat → UInt8} {search name : List UInt8} (hs : Spells s search)
    (hname : Spells fname name) (hsearch : search ≠ []) (hfile : ∀ c ∈ file, c ≠ 0)
    (hlines : Bounded 0x0A 1023 file) :
    ∃ out, Returns (fun fuel => doOneFile calls fuel data s fname) (0, out) ∧
      (out = grepReport name search file ↔ ReportsLines data search file) :=
  ⟨_, doOneFile_returns hcalls data hs hname hsearch hfile hlines, reportsLines_iff hsearch data⟩

/-- With a zero behind the buffer, the second of the two lines is reported as one; and with a
newline there, the search for a string of the first line is not affected. -/
theorem doOneFile_reports_iff_twoLines :
    (∃ out, Returns (fun fuel => doOneFile (fileCalls twoLines) fuel (fun _ => 0)
        (literal [0x62]) (literal [0x66])) (0, out) ∧ out = grepReport [0x66] [0x62] twoLines) ∧
      ∃ out, Returns (fun fuel => doOneFile (fileCalls twoLines) fuel (fun _ => 0x0A)
        (literal [0x61]) (literal [0x66])) (0, out) ∧
        out = grepReport [0x66] [0x61] twoLines := by
  have hspells : ∀ c : UInt8, c ≠ 0 → Spells (literal [c]) [c] := fun c hc =>
    spells_literal (by simpa using hc) (by simp)
  constructor
  · obtain ⟨out, hreturns, hiff⟩ := doOneFile_reports_iff (fileCalls_deliver twoLines) (fun _ => 0)
      (hspells 0x62 (by decide)) (hspells 0x66 (by decide)) (by decide) twoLines_ne_zero
      twoLines_bounded
    exact ⟨out, hreturns, hiff.mpr (Or.inr ⟨by decide, fun hspare => absurd hspare (by decide)⟩)⟩
  · obtain ⟨out, hreturns, hiff⟩ := doOneFile_reports_iff (fileCalls_deliver twoLines)
      (fun _ => 0x0A) (hspells 0x61 (by decide)) (hspells 0x66 (by decide)) (by decide)
      twoLines_ne_zero twoLines_bounded
    refine ⟨out, hreturns, hiff.mpr (Or.inr ⟨by decide, fun _ front back hcut => Or.inr ?_⟩)⟩
    obtain ⟨rfl, rfl⟩ := Prod.mk.injEq _ _ _ _ ▸ Option.some.inj (twoLines_cut.symm.trans hcut)
    decide

/-- With a newline behind the buffer, the second of the two lines is reported as two; and a line
that is the negative character searched for is not reported. -/
theorem cut_line_reported_twice :
    (∃ out, Returns (fun fuel => doOneFile (fileCalls twoLines) fuel (fun _ => 0x0A)
        (literal [0x62]) (literal [0x66])) (0, out) ∧ out ≠ grepReport [0x66] [0x62] twoLines) ∧
      ∃ out, Returns (fun fuel => doOneFile (fileCalls [0xE9]) fuel (fun _ => 0)
        (literal [0xE9]) (literal [0x66])) (0, out) ∧ out ≠ grepReport [0x66] [0xE9] [0xE9] := by
  have hname : Spells (literal [0x66]) [0x66] := spells_literal (by simp) (by simp)
  constructor
  · refine ⟨_, doOneFile_returns (fileCalls_deliver _) _ (spells_literal (by simp) (by simp))
      hname (by decide) twoLines_ne_zero twoLines_bounded,
      mt (reportsLines_iff (List.cons_ne_nil 0x62 []) fun _ => 0x0A).mp ?_⟩
    have hin : [0x62] <:+: List.replicate 23 (0x62 : UInt8) ++ List.replicate 27 0x62 := by decide
    rintro (hnone | ⟨-, hcut⟩)
    · exact hnone _ (cutLine_mem twoLines_cut) hin
    · rcases hcut rfl _ _ twoLines_cut with hnil | hnot
      · exact absurd hnil (by decide)
      · exact hnot hin
  · refine ⟨_, doOneFile_returns (fileCalls_deliver _) _ (spells_literal (by simp) (by simp))
      hname (by decide) (by simp) ((bounded_of_not_mem (by decide)).mpr (by decide)),
      mt (reportsLines_iff (List.cons_ne_nil 0xE9 []) fun _ => 0).mp ?_⟩
    rintro (hnone | ⟨hchar, -⟩)
    · refine hnone [0xE9] ?_ (List.infix_refl _)
      rw [List.splitOn_eq_singleton (by decide)]
      exact List.mem_singleton_self _
    · exact absurd hchar (by decide)

end Ece391Kernel
