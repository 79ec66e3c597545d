import Ece391Kernel.Programs.Grep

/-!
# The runs of `grep`

What holds at the places of `grep` says what is still to be printed: by the strings that are about
to be written, by what the open file still delivers, and by the entries that are left.
-/

namespace Ece391Kernel

open TransitionSystem ByteMemory Lines Programs

/-- The descriptor of `do_one_file`, the first one behind that of the directory. -/
def grepFd : Nat := firstRegFile + 1

/-- The descriptors from one on are not in use. -/
def FreeFrom (fd : Nat) (table : Nat → FileDesc) : Prop :=
  ∀ j, fd ≤ j → j < lastRegFile → (table j).flag = 1

/-- What a file still makes the program print behind a read of `cnt` bytes, and the reads that this
takes. -/
inductive Remaining (b : Boot) (file : List UInt8) (g : GrepMain) (f : GrepFile)
    (desc : FileDesc) : Nat → List UInt8 → Nat → Prop
  | ended : Remaining b file g f desc 0 [] 0
  | more {cnt fuel : Nat} {rest out : List UInt8} (hcnt : cnt ≠ 0) (hlast : f.last < 1024)
      (hat : FileAt b rest desc)
      (hloop : readLoop (stringAt g.search 0) (stringAt g.buf 0)
        (ece391Strlen (stringAt g.search 0)) (fileCalls file) fuel rest ⟨f.data, f.last, []⟩ =
          some (0, out)) :
      Remaining b file g f desc cnt out (rest.length + 1)

section Holds

variable (b : Boot) (d : Nat) (stack : Nat → Int → UInt8)

/-- The directory is read on the first descriptor, up to an entry. -/
structure ListsUpTo (g : GrepMain) (p : Nat) (table : Nat → FileDesc) : Prop where
  fd : g.fd = firstRegFile
  flag : (table firstRegFile).flag = 0
  le : p ≤ d
  names : Yields b 32 (namesFrom b d p) (table firstRegFile)

/-- So many calls may have been made when so many bytes have been written. -/
def InBudget (count : Nat) (out : List UInt8) : Prop :=
  count ≤ 2 * out.length + grepCost b d (List.range d) + 2

/-- What the entries from one on make the program print. -/
def grepRest (g : GrepMain) (turn p : Nat) : List UInt8 :=
  grepFrom b d stack (stringAt g.search 0) turn (List.range' p (d - p))

/-- The calls that these entries take, but for the writes. -/
def restCost (p : Nat) : Nat := grepCost b d (List.range' p (d - p))

/-- These bytes and no others are still to be written. -/
def Due (trace : List (UserCall × UserReturn)) (out : List UInt8) : Prop :=
  trace ≠ [] ∧ grepOutcome b d stack (searchGiven trace) = (0, written trace ++ out)

/-- In `do_one_file`, behind a read of `cnt` bytes, with these strings to be written before the next
one. -/
def Pending (g : GrepMain) (f : GrepFile) (cnt : Nat) (ws : List (Nat → UInt8))
    (trace : List (UserCall × UserReturn)) (table : Nat → FileDesc) : Prop :=
  ∃ p out reads, p < d ∧ ListsUpTo b d g (p + 1) table ∧ f.fd = grepFd ∧
    (table grepFd).flag = 0 ∧ FreeFrom (grepFd + 1) table ∧
    Remaining b (contentOf b d p) g f (table grepFd) cnt out reads ∧
    InBudget b d (trace.length + ws.length + reads + 1 + restCost b d (p + 1))
      (written trace ++ ws.flatMap ece391Fdputs) ∧
    Due b d stack trace
      (ws.flatMap ece391Fdputs ++ out ++ grepRest b d stack g (g.turn + 1) (p + 1))

/-- What holds at the places of `grep`. -/
def grepHolds (place : GrepPlace) (trace : List (UserCall × UserReturn))
    (table : Nat → FileDesc) : Prop :=
  IoOpen table ∧
  match place with
  | .start _ _ => trace = [] ∧ NewTable table
  | .complaint text code => trace ≠ [] ∧ trace.length ≤ 2 ∧ written trace = [] ∧
      grepOutcome b d stack (searchGiven trace) = (code, ece391Fdputs (message text))
  | .named search _ => trace.length = 1 ∧ NewTable table ∧ written trace = [] ∧
      searchGiven trace = some search
  | .listing g => ∃ p, ListsUpTo b d g p table ∧ FreeFrom grepFd table ∧
      InBudget b d (trace.length + restCost b d p) (written trace) ∧
      Due b d stack trace (grepRest b d stack g g.turn p)
  | .opening g => ∃ p, p < d ∧ ListsUpTo b d g (p + 1) table ∧ FreeFrom grepFd table ∧
      ¬Hidden b p ∧ Spells (stringAt g.buf 0) (entryName b p) ∧
      InBudget b d (trace.length + (contentOf b d p).length + 3 + restCost b d (p + 1))
        (written trace) ∧
      Due b d stack trace
        (fileOutput (stack g.turn) (stringAt g.search 0) (entryName b p) (contentOf b d p) ++
          grepRest b d stack g (g.turn + 1) (p + 1))
  | .reading g f => Pending b d stack g f 1 [] trace table
  | .printing g f cnt w ws => Pending b d stack g f cnt (w :: ws) trace table
  | .closing g f => Pending b d stack g f 0 [] trace table
  | .exited code => InBudget b d trace.length (written trace) ∧
      grepOutcome b d stack (searchGiven trace) = (code, written trace)

end Holds

section Steps

variable {b : Boot} {d : Nat} {stack : Nat → Int → UInt8} {place : GrepPlace}
  {trace : List (UserCall × UserReturn)} {k k' : Kernel} {r : UserReturn}

theorem restCost_end : restCost b d d = 1 := by
  unfold restCost
  rw [Nat.sub_self]
  rfl

theorem restCost_pred {p : Nat} (hp : p < d) : restCost b d p =
    (if Hidden b p then 1 else (contentOf b d p).length + 4) + restCost b d (p + 1) := by
  unfold restCost
  rw [range'_pred hp]
  rfl

theorem restCost_zero : restCost b d 0 = grepCost b d (List.range d) := by
  rw [restCost, Nat.sub_zero, ← List.range_eq_range']

theorem grepCost_pos (is : List Nat) : 0 < grepCost b d is := by
  induction is with
  | nil => exact Nat.one_pos
  | cons i is ih => exact Nat.add_pos_right _ ih

theorem Due.concat {e : UserCall × UserReturn} {out out' : List UInt8}
    (h : Due b d stack trace out) (hout : written trace ++ out = written (trace ++ [e]) ++ out') :
    Due b d stack (trace ++ [e]) out' :=
  ⟨by simp, by rw [searchGiven_concat h.1, h.2, hout]⟩

theorem FreeFrom.of_other {fd fd' : Nat} {table table' : Nat → FileDesc} (h : FreeFrom fd table)
    (hfd : fd' < fd) (hothers : ∀ j ≠ fd', table' j = table j) : FreeFrom fd table' := by
  intro j hlo hhi
  rw [hothers j (by omega)]
  exact h j hlo hhi

theorem ListsUpTo.of_other {g : GrepMain} {p fd : Nat} {table table' : Nat → FileDesc}
    (h : ListsUpTo b d g p table) (hfd : firstRegFile < fd)
    (hothers : ∀ j ≠ fd, table' j = table j) : ListsUpTo b d g p table' := by
  have hsame := hothers firstRegFile (by omega)
  exact ⟨h.fd, by rw [hsame]; exact h.flag, h.le, by rw [hsame]; exact h.names⟩

/-- Behind the strings that are to be written the program is at the next place. -/
theorem Pending.next {g : GrepMain} {f : GrepFile} {cnt : Nat} {ws : List (Nat → UInt8)}
    {table : Nat → FileDesc} (hio : IoOpen table) (h : Pending b d stack g f cnt ws trace table) :
    grepHolds b d stack (printNext g f cnt ws) trace table := by
  cases ws with
  | cons w ws => exact ⟨hio, h⟩
  | nil =>
      unfold printNext
      by_cases hcnt : cnt = 0
      · subst hcnt
        exact ⟨hio, h⟩
      · rw [if_neg hcnt]
        obtain ⟨p, out, reads, hp, hlists, hfd, hflag, hfree, hremaining, hwithin, hdue⟩ := h
        refine ⟨hio, p, out, reads, hp, hlists, hfd, hflag, hfree, ?_, hwithin, hdue⟩
        cases hremaining with
        | ended => exact absurd rfl hcnt
        | more _ hlast hat hloop => exact .more Nat.one_ne_zero hlast hat hloop

theorem grepHolds_getargs {search buf : Int → UInt8}
    (h : grepHolds b d stack (.start search buf) trace k.table)
    (hperform : performCall b (.getargs search 1024) k = some (r, k')) :
    grepHolds b d stack (if 0 ≠ r.ret then .complaint "could not read argument\n" 3
      else .named (r.buf.getD search) buf) (trace ++ [(.getargs search 1024, r)]) k'.table := by
  obtain ⟨hio, rfl, hnew⟩ := h
  unfold performCall at hperform
  simp only [Option.some.injEq, Prod.mk.injEq] at hperform
  obtain ⟨rfl, rfl⟩ := hperform
  dsimp only
  by_cases hret : (sysGetargs (some search) 1024 k).1 = 0
  · rw [if_neg (by simp [hret])]
    exact ⟨hio, rfl, hnew, written_concat_getargs [] _ _ _, by simp [searchGiven, hret]⟩
  · rw [if_pos (Ne.symm hret)]
    refine ⟨hio, by simp, by simp, written_concat_getargs [] _ _ _, ?_⟩
    simp [searchGiven, hret, grepOutcome]

/-- `grep` opens the directory on the first free descriptor. -/
theorem grepHolds_dot (himage : GrepImage b d) {search buf : Int → UInt8}
    (h : grepHolds b d stack (.named search buf) trace k.table)
    (hperform : performCall b (.openFile (constant ".")) k = some (r, k')) :
    grepHolds b d stack (if -1 = r.ret then .complaint "directory open failed\n" 2
      else .listing ⟨search, buf, r.ret, 0⟩) (trace ++ [(.openFile (constant "."), r)])
      k'.table := by
  obtain ⟨hio, hlen, hnew, hwritten, hgiven⟩ := h
  have hne : trace ≠ [] := by
    rintro rfl
    exact absurd hlen (by decide)
  have hgiven' := searchGiven_concat hne (.openFile (constant "."), r)
  have hname := bufferString_dot
  cases hidx : findDirentry b dotName.at with
  | none =>
      have hopen : findDirentry b (bufferString (constant ".")).at = none := by rw [hname, hidx]
      obtain ⟨rfl, rfl⟩ := Prod.mk.inj (Option.some.inj
        ((performCall_open_none hopen k).symm.trans hperform))
      rw [if_pos rfl]
      refine ⟨hio, by simp, by simp [hlen], by simpa using hwritten, ?_⟩
      rw [hgiven', hgiven]
      simp only [grepOutcome, hidx]
  | some idx =>
      have hopen : findDirentry b (bufferString (constant ".")).at = some idx := by
        rw [hname, hidx]
      have hsize : dirNameLength ≤ 32 := by decide
      obtain ⟨k₁, hcall, hyields, hflag, hothers⟩ :=
        performCall_open himage.toGoodImage hsize (by decide) hopen hnew.freeDesc
      obtain ⟨rfl, rfl⟩ := Prod.mk.inj (Option.some.inj (hcall.symm.trans hperform))
      have htype := himage.dot idx hidx
      have hpieces : pieces b d 32 idx = namesFrom b d 0 := by
        unfold pieces
        rw [if_neg (by rw [htype]; decide), if_pos htype]
      rw [hpieces] at hyields
      rw [if_neg (by simp)]
      refine ⟨hio.of_other (Nat.le_refl _) hothers, 0, ⟨rfl, hflag, Nat.zero_le d, hyields⟩, ?_, ?_,
        by simp, ?_⟩
      · intro j hlo hhi
        simp only [grepFd] at hlo
        rw [hothers j (by omega)]
        exact hnew.free j (by omega) hhi
      · rw [restCost_zero, InBudget, List.length_append, hlen, List.length_singleton]
        omega
      · rw [hgiven', hgiven]
        simp only [grepOutcome, hidx, written_concat_open, hwritten, List.nil_append, grepRest,
          Nat.sub_zero, ← List.range_eq_range']

/-- A read delivers the next name; one that begins with a dot is passed over. -/
theorem grepHolds_list (himage : GrepImage b d) {g : GrepMain}
    (h : grepHolds b d stack (.listing g) trace k.table)
    (hperform : performCall b (.read g.fd g.buf 32) k = some (r, k')) :
    grepHolds b d stack (if 0 ≠ r.ret then
        if -1 = r.ret then .complaint "directory entry read failed\n" 3
        else if 0x2E = r.buf.getD g.buf 0 then .listing { g with buf := r.buf.getD g.buf }
        else .opening { g with buf := Function.update (r.buf.getD g.buf) r.ret 0 }
      else .exited 0) (trace ++ [(.read g.fd g.buf 32, r)]) k'.table := by
  obtain ⟨hio, p, hlists, hfree, hwithin, hdue⟩ := h
  have hflag := performCall_read_flag hperform firstRegFile
  rw [hlists.fd] at hperform
  unfold InBudget at hwithin
  rcases Nat.lt_or_eq_of_le hlists.le with hp | rfl
  · have hnames : namesFrom b d p = entryName b p :: namesFrom b d (p + 1) := by
      unfold namesFrom
      rw [range'_pred hp]
      rfl
    have hyields := hlists.names
    rw [hnames] at hyields
    obtain ⟨hname, hlen, k₁, hcall, hrest, hothers⟩ :=
      hyields.read_piece (Nat.le_refl _) (by decide) g.buf
    obtain ⟨rfl, rfl⟩ := Prod.mk.inj (Option.some.inj (hcall.symm.trans hperform))
    have hpos := List.length_pos_iff.mpr hname
    have hlists' : ∀ buf, ListsUpTo b d { g with buf := buf } (p + 1) k₁.table := fun buf =>
      ⟨hlists.fd, hflag.trans hlists.flag, hp, hrest⟩
    have hfree' := hfree.of_other (Nat.lt_succ_self firstRegFile) hothers
    have hio' := hio.of_other (Nat.le_refl _) hothers
    have hfirst : 0x2E = storeFrom g.buf 0 (entryName b p) 0 ↔ Hidden b p := by
      unfold Hidden
      cases hbytes : entryName b p with
      | nil => exact absurd hbytes hname
      | cons c cs =>
          have hstored := storeFrom_add g.buf 0 (c :: cs) 0
          rw [Nat.cast_zero, zero_add] at hstored
          rw [hstored, List.head?_cons, Option.some.injEq]
          exact eq_comm
    rw [restCost_pred hp] at hwithin
    have hoption : (some (storeFrom g.buf 0 (entryName b p))).getD g.buf =
        storeFrom g.buf 0 (entryName b p) := rfl
    rw [if_pos (by simp only; omega), if_neg (by simp only; omega), hoption]
    unfold grepRest at hdue
    rw [range'_pred hp, grepFrom] at hdue
    by_cases hhidden : Hidden b p
    · rw [if_pos (hfirst.mpr hhidden)]
      rw [if_pos hhidden] at hwithin hdue
      refine ⟨hio', p + 1, hlists' _, hfree', ?_, hdue.concat (by simp; rfl)⟩
      rw [InBudget, List.length_append, List.length_singleton, written_concat_read]
      omega
    · rw [if_neg (mt hfirst.mp hhidden)]
      rw [if_neg hhidden] at hwithin hdue
      refine ⟨hio', p, hp, hlists' _, hfree', hhidden, ?_, ?_, hdue.concat (by simp; rfl)⟩
      · have hclosed : Function.update (storeFrom g.buf 0 (entryName b p))
            (entryName b p).length 0 = storeFrom g.buf 0 (entryName b p ++ [0]) := by
          rw [storeFrom_append, zero_add]
          rfl
        simp only [hclosed]
        exact spells_storeFrom (stringFrom_nonzero _ _ _)
          (Nat.lt_of_le_of_lt hlen (by decide)) _ _
      · rw [InBudget, List.length_append, List.length_singleton, written_concat_read]
        omega
  · have hnames : namesFrom b p p = [] := by
      rw [namesFrom, Nat.sub_self]
      rfl
    have hyields := hlists.names
    rw [hnames] at hyields
    obtain ⟨k₁, hcall, hothers⟩ := hyields.read_end (Nat.le_refl _) (by decide) g.buf
    obtain ⟨rfl, rfl⟩ := Prod.mk.inj (Option.some.inj (hcall.symm.trans hperform))
    rw [if_neg (by simp)]
    refine ⟨hio.of_other (Nat.le_refl _) hothers, ?_, ?_⟩
    · rw [restCost_end] at hwithin
      rw [InBudget, List.length_append, List.length_singleton, written_concat_read]
      omega
    · rw [searchGiven_concat hdue.1, hdue.2, grepRest, Nat.sub_self]
      simp [grepFrom]

/-- `do_one_file` opens its file on the next descriptor. -/
theorem grepHolds_open (himage : GrepImage b d) {g : GrepMain}
    (h : grepHolds b d stack (.opening g) trace k.table)
    (hperform : performCall b (.openFile g.buf) k = some (r, k')) :
    grepHolds b d stack (if -1 = r.ret then .complaint "file open failed\n" 3
      else .reading g ⟨r.ret, stack g.turn, 0⟩) (trace ++ [(.openFile g.buf, r)]) k'.table := by
  obtain ⟨hio, p, hp, hlists, hfree, hhidden, hname, hwithin, hdue⟩ := h
  have hfirst : freeDesc k = some grepFd := by
    refine freeDesc_eq_some.mpr ⟨hfree grepFd (Nat.le_refl _) (by decide), ⟨by decide, by decide⟩,
      fun j hlo hhi => ?_⟩
    obtain rfl : j = firstRegFile := by
      simp only [grepFd] at hhi
      omega
    rw [hlists.flag]
    decide
  have hcall := performCall_open_bind (findDirentry_name himage hp hname) hfirst
  obtain ⟨rfl, rfl⟩ := Prod.mk.inj (Option.some.inj (hcall.symm.trans hperform))
  have hothers : ∀ j ≠ grepFd, (k.setDesc grepFd fun desc =>
      bindDriver b p { desc with flag := 0, filePosition := 0 }).table j = k.table j := by
    intro j hj
    rw [setDesc_table, Function.update_of_ne hj]
  rw [if_neg (by simp only; omega)]
  unfold InBudget at hwithin
  refine ⟨hio.of_other (by decide) hothers, p, _, _, hp,
    hlists.of_other (Nat.lt_succ_self _) hothers, rfl, ?_, ?_,
    .more Nat.one_ne_zero (Nat.zero_lt_succ 1023) ?_ (fileOutput_eq (stack g.turn) _ _ hname _),
    ?_, ?_⟩
  · rw [setDesc_table, Function.update_self, bindDriver_flag]
  · intro j hlo hhi
    rw [hothers j (by omega)]
    exact hfree j (by omega) hhi
  · rw [setDesc_table, Function.update_self]
    exact fileAt_open himage.toGoodImage hp (himage.files p hp hhidden) _
  · rw [InBudget, List.length_append, List.length_singleton, List.flatMap_nil, List.append_nil,
      written_concat_open, List.length_nil]
    omega
  · exact hdue.concat (by simp)

/-- A read delivers the next bytes, and the search of the buffer writes what they make it write. -/
theorem grepHolds_read (himage : GrepImage b d) {g : GrepMain} {f : GrepFile}
    (h : grepHolds b d stack (.reading g f) trace k.table)
    (hperform : performCall b
      (.read f.fd (fun i => f.data (f.last + i)) (1024 - f.last : Nat)) k = some (r, k')) :
    grepHolds b d stack (if -1 = r.ret then .complaint "file read failed\n" 3
      else searchRead g f r.ret.toNat fun i =>
        r.buf.getD (fun i => f.data (f.last + i)) (i - f.last))
      (trace ++ [(.read f.fd (fun i => f.data (f.last + i)) (1024 - f.last : Nat), r)])
      k'.table := by
  obtain ⟨hio, p, out, reads, hp, hlists, hfd, hflag, hfree, hremaining, hwithin, hdue⟩ := h
  have hflag' := performCall_read_flag hperform grepFd
  cases hremaining with
  | @more _ fuel rest _ _ hlast hat hloop =>
      rw [hfd] at hperform
      obtain ⟨k₁, hcall, hat', hothers⟩ := hat.read himage.wellFormed (by decide) (by decide)
        (1024 - f.last) (by omega) (by omega) fun i => f.data (f.last + i)
      obtain ⟨rfl, rfl⟩ := Prod.mk.inj (Option.some.inj (hcall.symm.trans hperform))
      have hstored : (fun i => (some (storeFrom (fun i => f.data (f.last + i)) 0
          (rest.take (1024 - f.last)))).getD (fun i => f.data (f.last + i)) (i - f.last)) =
            storeFrom f.data f.last (rest.take (1024 - f.last)) :=
        funext fun i => storeFrom_shift f.data f.last _ i
      rw [if_neg (by simp only; omega), Int.toNat_natCast, hstored]
      obtain ⟨fuel, rfl⟩ : ∃ n, fuel = n + 1 := by
        cases fuel with
        | zero => exact absurd hloop (by simp [readLoop])
        | succ n => exact ⟨n, rfl⟩
      obtain ⟨hend, hmore⟩ := readLoop_file_out hloop
      have hcount := length_bufferWrites_le (stringAt g.search 0) (stringAt g.buf 0)
        (ece391Strlen (stringAt g.search 0)) (rest.take (1024 - f.last)).length
        (f.last + (rest.take (1024 - f.last)).length)
        (storeFrom f.data f.last (rest.take (1024 - f.last))) 0
      have hroom : f.last + (rest.take (1024 - f.last)).length ≤ 1024 := by
        rw [List.length_take]
        omega
      have hnext := searchBuffer_last_lt (stringAt g.search 0) (stringAt g.buf 0)
        (ece391Strlen (stringAt g.search 0)) (rest.take (1024 - f.last)).length hroom
        (storeFrom f.data f.last (rest.take (1024 - f.last))) [] 0
      unfold searchRead
      refine Pending.next (hio.of_other (by decide) hothers) ?_
      rw [List.flatMap_nil, List.append_nil, InBudget, List.length_nil] at hwithin
      rw [List.flatMap_nil, List.nil_append] at hdue
      have hwritten := written_concat_read trace f.fd (fun i => f.data (f.last + i))
        (1024 - f.last : Nat) ⟨(rest.take (1024 - f.last)).length,
          some (storeFrom (fun i => f.data (f.last + i)) 0 (rest.take (1024 - f.last)))⟩
      by_cases hcnt : (rest.take (1024 - f.last)).length = 0
      · refine ⟨p, [], 0, hp, hlists.of_other (Nat.lt_succ_self _) hothers, hfd,
          hflag'.trans hflag, hfree.of_other (Nat.lt_succ_self _) hothers, ?_, ?_, ?_⟩
        · rw [hcnt]
          exact .ended
        · rw [InBudget, hwritten]
          simp only [List.length_append, List.length_singleton]
          omega
        · rw [hend hcnt] at hdue
          refine hdue.concat ?_
          rw [hwritten, List.append_nil]
      · obtain ⟨out', hout, hloop'⟩ := hmore hcnt
        refine ⟨p, out', _, hp, hlists.of_other (Nat.lt_succ_self _) hothers, hfd,
          hflag'.trans hflag, hfree.of_other (Nat.lt_succ_self _) hothers,
          .more hcnt hnext hat' hloop', ?_, ?_⟩
        · rw [List.length_take] at hcnt
          rw [InBudget, hwritten]
          simp only [List.length_append, List.length_singleton, List.length_drop]
          omega
        · rw [hout] at hdue
          refine hdue.concat ?_
          rw [hwritten]

theorem grepHolds_print {g : GrepMain} {f : GrepFile} {cnt : Nat} {w : Nat → UInt8}
    {ws : List (Nat → UInt8)} (h : grepHolds b d stack (.printing g f cnt w ws) trace k.table)
    (hperform : performCall b (fdputs 1 w) k = some (r, k')) :
    grepHolds b d stack (printNext g f cnt ws) (trace ++ [(fdputs 1 w, r)]) k'.table := by
  obtain ⟨hio, p, out, reads, hp, hlists, hfd, hflag, hfree, hremaining, hwithin, hdue⟩ := h
  have htable := performCall_fdputs hio hperform
  rw [htable]
  refine Pending.next hio ⟨p, out, reads, hp, hlists, hfd, hflag, hfree, hremaining, ?_, ?_⟩
  · rw [InBudget, List.length_cons, List.flatMap_cons] at hwithin
    rw [InBudget, written_concat_fdputs, List.append_assoc, List.length_append,
      List.length_singleton]
    omega
  · exact hdue.concat (by simp)

/-- The file is closed, and the loop of `main` goes on. -/
theorem grepHolds_close {g : GrepMain} {f : GrepFile}
    (h : grepHolds b d stack (.closing g f) trace k.table)
    (hperform : performCall b (.close f.fd) k = some (r, k')) :
    grepHolds b d stack (if -1 = r.ret then .complaint "file close failed\n" 3
      else .listing { g with turn := g.turn + 1 }) (trace ++ [(.close f.fd, r)]) k'.table := by
  obtain ⟨hio, p, out, reads, hp, hlists, hfd, hflag, hfree, hremaining, hwithin, hdue⟩ := h
  cases hremaining with
  | more hcnt => exact absurd rfl hcnt
  | ended =>
      rw [hfd] at hperform ⊢
      rcases sysClose_cases grepFd k with ⟨-, hclose⟩ | ⟨hnot, -⟩
      · have hcall : performCall b (.close grepFd) k =
            some (⟨0, none⟩, k.setDesc grepFd fun desc => { desc with flag := 1 }) := by
          simp only [performCall, hclose]
          rfl
        obtain ⟨rfl, rfl⟩ := Prod.mk.inj (Option.some.inj (hcall.symm.trans hperform))
        have hothers : ∀ j ≠ grepFd, (k.setDesc grepFd fun desc =>
            { desc with flag := 1 }).table j = k.table j := by
          intro j hj
          rw [setDesc_table, Function.update_of_ne hj]
        rw [if_neg (by decide)]
        refine ⟨hio.of_other (by decide) hothers, p + 1, ?_, ?_, ?_, hdue.concat ?_⟩
        · have hlists' := hlists.of_other (Nat.lt_succ_self firstRegFile) hothers
          exact ⟨hlists'.fd, hlists'.flag, hlists'.le, hlists'.names⟩
        · intro j hlo hhi
          by_cases hj : j = grepFd
          · rw [hj, setDesc_table, Function.update_self]
          · rw [hothers j hj]
            exact hfree j (by omega) hhi
        · rw [List.flatMap_nil, List.append_nil, InBudget, List.length_nil] at hwithin
          rw [InBudget, List.length_append, List.length_singleton, written_concat_close]
          omega
        · rw [written_concat_close]
          rfl
      · refine absurd ⟨by decide, by decide, ?_⟩ hnot
        rw [Int.toNat_natCast, hflag]
        decide

/-- Every call leads from what holds before it to what holds behind it. -/
theorem grep_outlined (himage : GrepImage b d) :
    Outlined b (grep stack) (grepHolds b d stack) := by
  intro place trace k c next r k' h haction hperform
  cases place with
  | start search buf =>
      obtain ⟨rfl, rfl⟩ := Action.call.inj haction
      exact grepHolds_getargs h hperform
  | complaint text code =>
      obtain ⟨rfl, rfl⟩ := Action.call.inj haction
      obtain ⟨hio, hne, hlen, hwritten, houtcome⟩ := h
      refine ⟨?_, ?_, ?_⟩
      · rw [performCall_fdputs hio hperform]
        exact hio
      · have hpos := grepCost_pos (b := b) (d := d) (List.range d)
        rw [InBudget, List.length_append, List.length_singleton]
        omega
      · rw [searchGiven_concat hne, written_concat_fdputs, hwritten]
        exact houtcome
  | named search buf =>
      obtain ⟨rfl, rfl⟩ := Action.call.inj haction
      exact grepHolds_dot himage h hperform
  | listing g =>
      obtain ⟨rfl, rfl⟩ := Action.call.inj haction
      exact grepHolds_list himage h hperform
  | opening g =>
      obtain ⟨rfl, rfl⟩ := Action.call.inj haction
      exact grepHolds_open himage h hperform
  | reading g f =>
      obtain ⟨rfl, rfl⟩ := Action.call.inj haction
      exact grepHolds_read himage h hperform
  | printing g f cnt w ws =>
      obtain ⟨rfl, rfl⟩ := Action.call.inj haction
      exact grepHolds_print h hperform
  | closing g f =>
      obtain ⟨rfl, rfl⟩ := Action.call.inj haction
      exact grepHolds_close h hperform
  | exited code => exact absurd haction (by simp [grep])

/-- No call of `grep` waits. -/
theorem grep_answered (himage : GrepImage b d) :
    Answered b (grep stack) (grepHolds b d stack) := by
  intro place trace k c next h haction
  cases place with
  | start search buf =>
      obtain ⟨rfl, rfl⟩ := Action.call.inj haction
      exact ⟨_, _, rfl⟩
  | complaint text code =>
      obtain ⟨rfl, rfl⟩ := Action.call.inj haction
      exact ⟨_, _, performCall_stdout b h.1 _ _⟩
  | named search buf =>
      obtain ⟨rfl, rfl⟩ := Action.call.inj haction
      exact ⟨_, _, rfl⟩
  | listing g =>
      obtain ⟨rfl, rfl⟩ := Action.call.inj haction
      obtain ⟨-, p, hlists, -⟩ := h
      rw [hlists.fd]
      exact hlists.names.read (Nat.le_refl _) (by decide) g.buf
  | opening g =>
      obtain ⟨rfl, rfl⟩ := Action.call.inj haction
      exact ⟨_, _, rfl⟩
  | reading g f =>
      obtain ⟨rfl, rfl⟩ := Action.call.inj haction
      obtain ⟨-, p, out, reads, -, -, hfd, -, -, hremaining, -⟩ := h
      cases hremaining with
      | more _ hlast hat =>
          obtain ⟨k', hcall, -⟩ := hat.read himage.wellFormed (by decide) (by decide)
            (1024 - f.last) (by omega) (by omega) fun i => f.data (f.last + i)
          rw [hfd]
          exact ⟨_, k', hcall⟩
  | printing g f cnt w ws =>
      obtain ⟨rfl, rfl⟩ := Action.call.inj haction
      exact ⟨_, _, performCall_stdout b h.1 _ _⟩
  | closing g f =>
      obtain ⟨rfl, rfl⟩ := Action.call.inj haction
      exact ⟨_, _, rfl⟩
  | exited code => exact absurd haction (by simp [grep])

/-- What has been written is a beginning of what should be, and there is an end of the calls. -/
theorem grepHolds_written {table : Nat → FileDesc} (h : grepHolds b d stack place trace table)
    (hne : trace ≠ []) :
    written trace <+: (grepOutcome b d stack (searchGiven trace)).2 ∧
      InBudget b d trace.length (grepOutcome b d stack (searchGiven trace)).2 := by
  have hlonger : ∀ {n : Nat} {out out' : List UInt8}, InBudget b d n out → out <+: out' →
      trace.length ≤ n → InBudget b d trace.length out' := by
    intro n out out' hwithin hprefix hle
    have hlen := hprefix.length_le
    unfold InBudget at hwithin ⊢
    omega
  have hpending : ∀ {g f cnt ws}, Pending b d stack g f cnt ws trace table →
      written trace <+: (grepOutcome b d stack (searchGiven trace)).2 ∧
        InBudget b d trace.length (grepOutcome b d stack (searchGiven trace)).2 := by
    rintro g f cnt ws ⟨p, out, reads, -, -, -, -, -, -, hwithin, -, houtcome⟩
    rw [houtcome, List.append_assoc, ← List.append_assoc (written trace)]
    exact ⟨(List.prefix_append _ _).trans (List.prefix_append _ _),
      hlonger hwithin (List.prefix_append _ _) (by omega)⟩
  obtain ⟨-, hplace⟩ := h
  cases place with
  | start search buf => exact absurd hplace.1 hne
  | complaint text code =>
      obtain ⟨-, hlen, hwritten, -⟩ := hplace
      rw [hwritten]
      exact ⟨List.nil_prefix, by unfold InBudget; omega⟩
  | named search buf =>
      obtain ⟨hlen, -, hwritten, -⟩ := hplace
      rw [hwritten]
      exact ⟨List.nil_prefix, by unfold InBudget; omega⟩
  | listing g =>
      obtain ⟨p, -, -, hwithin, -, houtcome⟩ := hplace
      rw [houtcome]
      exact ⟨List.prefix_append _ _, hlonger hwithin (List.prefix_append _ _) (by omega)⟩
  | opening g =>
      obtain ⟨p, -, -, -, -, -, hwithin, -, houtcome⟩ := hplace
      rw [houtcome]
      exact ⟨List.prefix_append _ _, hlonger hwithin (List.prefix_append _ _) (by omega)⟩
  | reading g f => exact hpending hplace
  | printing g f cnt w ws => exact hpending hplace
  | closing g f => exact hpending hplace
  | exited code =>
      obtain ⟨hwithin, houtcome⟩ := hplace
      rw [houtcome]
      exact ⟨List.prefix_refl _, hwithin⟩

/-- What holds of `grep` in every run. -/
theorem grepHolds_run (himage : GrepImage b d) {t : Fin 3} {n : Fin 6} {k₀ : Kernel}
    (hstart : RunsOn t n k₀) (hnew : NewTable (k₀.descs n)) {search buf : Int → UInt8}
    {events : List (Event UserCall UserReturn)} {m : Config Kernel GrepPlace}
    (hrun : Run (ProgramStep b t (grep stack)) ⟨k₀, .start search buf⟩ events m) :
    RunsOn t n m.state ∧ grepHolds b d stack m.place (calls events) (m.state.descs n) :=
  (grep_outlined himage).run hrun hstart ⟨hnew.io, rfl, hnew⟩

end Steps

/-! ## Text files -/

/-- The lines that contain a string, of all files but those with a dot, each with the name of its
file. -/
def grepReports (b : Boot) (d : Nat) (search : List UInt8) : List UInt8 :=
  ((List.range d).filter fun i => ¬Hidden b i).flatMap fun i =>
    grepReport (entryName b i) search (contentOf b d i)

/-- The file is text, and `do_one_file` reports its lines with what is in its buffer at each
call. -/
structure Reported (stack : Nat → Int → UInt8) (search file : List UInt8) : Prop where
  text : ∀ c ∈ file, c ≠ 0
  lines : Bounded 0x0A 1023 file
  reports : ∀ turn, ReportsLines (stack turn) search file

section Text

variable {b : Boot} {d : Nat} {stack : Nat → Int → UInt8} {search : List UInt8}

theorem Reported.fileOutput {file name : List UInt8} (h : Reported stack search file)
    {s : Nat → UInt8} (hs : Spells s search) (hsearch : search ≠ [])
    (hname : Spells (literal name) name) (turn : Nat) :
    fileOutput (stack turn) s name file = grepReport name search file := by
  obtain ⟨fuel, hfuel⟩ := doOneFile_returns (fileCalls_deliver file) (stack turn) hs hname hsearch
    h.text h.lines
  have hboth := hfuel (max fuel (file.length + 1)) (Nat.le_max_left _ _)
  have hloop := readLoop_le (fileOutput_eq (stack turn) s (literal name) hname file)
    (Nat.le_max_right fuel _)
  have hsame : doOneFile (fileCalls file) (max fuel (file.length + 1)) (stack turn) s
      (literal name) = some (0, Ece391Kernel.fileOutput (stack turn) s name file) := hloop
  have hout := congrArg Prod.snd (Option.some.inj (hsame.symm.trans hboth))
  exact hout.trans ((reportsLines_iff hsearch (stack turn)).mpr (h.reports turn))

/-- If all files are text on which `do_one_file` reports its lines, these are what is printed. -/
theorem grepFrom_eq {s : Nat → UInt8} (hs : Spells s search) (hsearch : search ≠ [])
    (hreported : ∀ i < d, ¬Hidden b i → Reported stack search (contentOf b d i)) :
    grepFrom b d stack s 0 (List.range d) = grepReports b d search := by
  have hall : ∀ is : List Nat, (∀ i ∈ is, i < d) → ∀ turn, grepFrom b d stack s turn is =
      (is.filter fun i => ¬Hidden b i).flatMap fun i =>
        grepReport (entryName b i) search (contentOf b d i) := by
    intro is
    induction is with
    | nil => exact fun _ _ => rfl
    | cons i is ih =>
        intro hlt turn
        have hrest := ih fun j hj => hlt j (List.mem_cons_of_mem i hj)
        have hlen : (entryName b i).length ≤ filenameLen := stringFrom_length_le _ _ _
        have hname : Spells (literal (entryName b i)) (entryName b i) :=
          spells_literal (stringFrom_nonzero _ _ _) (Nat.lt_of_le_of_lt hlen (by decide))
        unfold grepFrom
        by_cases hhidden : Hidden b i
        · rw [if_pos hhidden, List.filter_cons_of_neg (by simpa using hhidden), hrest]
        · rw [if_neg hhidden, List.filter_cons_of_pos (by simpa using hhidden), List.flatMap_cons,
            hrest, (hreported i (hlt i List.mem_cons_self) hhidden).fileOutput hs hsearch hname]
  exact hall _ (fun i hi => List.mem_range.mp hi) 0

end Text

/-- In every interleaving in which no key is control-C and the arguments of the other processes fit
into the buffer, `grep` has at every moment written a beginning of what `do_one_file` prints for the
files of the directory, one after the other, and nothing else; when it exits it has written all of
it, or the message for its failure. Reads of the clock, where it is one of the files, are taken to
return: then `grep` never waits, and it makes no more calls than two for every byte that it prints
and those that the directory and the files take. -/
theorem grep_searches_files {b : Boot} {d : Nat} (himage : GrepImage b d) {t : Fin 3} {n : Fin 6}
    {k₀ : Kernel} (hstart : RunsOn t n k₀) (hnew : NewTable (k₀.descs n))
    {stack : Nat → Int → UInt8} {search buf : Int → UInt8}
    {events : List (Event UserCall UserReturn)} {m : Config Kernel GrepPlace}
    (hrun : Run (ProgramStep b t (grep stack)) ⟨k₀, .start search buf⟩ events m) :
    (calls events ≠ [] →
      written (calls events) <+: (grepOutcome b d stack (searchGiven (calls events))).2 ∧
      (calls events).length ≤
        2 * (grepOutcome b d stack (searchGiven (calls events))).2.length +
          grepCost b d (List.range d) + 2) ∧
    (∀ code, m.place = .exited code →
      grepOutcome b d stack (searchGiven (calls events)) = (code, written (calls events))) ∧
    CanGoOn b (grep stack) t m := by
  obtain ⟨hruns, h⟩ := grepHolds_run himage hstart hnew hrun
  refine ⟨grepHolds_written h, fun code hcode => ?_, (grep_answered himage).canGoOn hruns h⟩
  rw [hcode] at h
  exact h.2.2

/-- The small image with a directory, in which the names of the programs begin with a dot. -/
def textBoot : Boot :=
  patchedBoot [(0, [4]), (direntryAddr 0, [0x2E]), (direntryAddr 1, [0x2E]),
    (direntryAddr 3, [0x2E]), (direntryAddr 3 + 32, [1])]

theorem textBoot_grepImage : GrepImage textBoot 4 where
  wellFormed := ⟨by decide, by decide +kernel, by decide +kernel, by decide +kernel⟩
  types := by
    have hcount : dirCount textBoot = 4 := by decide +kernel
    have hall : ∀ i < 4, direntryType textBoot i ∈ [rtcFile, dirFile, regFile] := by
      decide +kernel
    intro i hi
    rw [hcount] at hi
    exact hall i (by omega)
  lists :=
    { count := by decide +kernel
      le := by decide
      named := by decide +kernel
      unused := fun i hlo hhi j hj => by
        simp only [entriesNum] at hhi
        refine patchedBoot_unused (direntryAddr 4) (by decide) ?_ ?_ <;>
          simp only [direntryAddr, blockSize] <;> omega }
  room := by decide
  inodes := by decide +kernel
  dot := by
    have hidx : findDirentry textBoot dotName.at = some 3 := by decide +kernel
    have htype : direntryType textBoot 3 = dirFile := by decide +kernel
    rintro idx hsome
    obtain rfl := Option.some.inj (hidx.symm.trans hsome)
    exact htype
  distinct := by decide +kernel
  files := by decide +kernel

/-- The only text file of the image is `note`. -/
theorem textBoot_reported {i : Nat} (hi : i < 4) (hhidden : ¬Hidden textBoot i) :
    Reported (fun _ _ => 0) [0x68] (contentOf textBoot 4 i) := by
  have hnote : ∀ i < 4, ¬Hidden textBoot i → contentOf textBoot 4 i = [0x68, 0x69] := by
    decide +kernel
  rw [hnote i hi hhidden]
  refine ⟨by simp, (bounded_of_not_mem (by decide)).mpr (by decide), fun _ => Or.inr ?_⟩
  refine ⟨by decide, ?_⟩
  exact fun hnewline => absurd hnewline (by decide)

/-- The argument of a process that is alone. -/
theorem getargs_oneProcess {argument : List UInt8} (hbytes : ∀ c ∈ argument, c ≠ 0)
    (hne : argument ≠ []) (hlen : argument.length < 1024) (buf : Int → UInt8) (k : Kernel) :
    ∃ m, sysGetargs (some buf) 1024 (oneProcess argument k) = (0, some m) ∧
      Spells (stringAt m 0) argument := by
  have hpos := List.length_pos_iff.mpr hne
  have hcopy : ¬((oneProcess argument k).argLength = 0 ∨
      uint32 1024 < (oneProcess argument k).argLength) := by
    have hsize : uint32 1024 = 1024 := uint32_of_lt (by decide)
    rw [hsize]
    change ¬(argument.length = 0 ∨ 1024 < argument.length)
    omega
  refine ⟨_, if_neg hcopy, hbytes, by omega, fun i hi => ?_⟩
  unfold stringAt
  rw [storeFrom_add, List.getD_eq_getElem _ _ (by simp; omega), List.getElem_map]
  simp [oneProcess]

/-- A process that has been asked for the letter `h` is alone on this image. It finds the line of
`note`. -/
theorem grep_text_exits (others : Kernel → Kernel → Prop) : ∃ events k,
    Run (Step (grep fun _ _ => 0) (Performs textBoot 0) others)
      ⟨oneProcess [0x68] blankKernel, .start (fun _ => 0) fun _ => 0⟩ events ⟨k, .exited 0⟩ ∧
    ∃ search, searchGiven (calls events) = some search ∧ Spells (stringAt search 0) [0x68] := by
  have hnew := oneProcess_newTable [0x68] blankKernel
  have hbytes : ∀ c ∈ ([0x68] : List UInt8), c ≠ 0 := by simp
  obtain ⟨search, hargs, hsearch⟩ := getargs_oneProcess hbytes (by decide) (by decide)
    (fun _ => 0) blankKernel
  have hcall : performCall textBoot (.getargs (fun _ => 0) 1024) (oneProcess [0x68] blankKernel) =
      some (⟨0, some search⟩, oneProcess [0x68] blankKernel) := by
    simp only [performCall, hargs]
  have hfirst : Run (Step (grep fun _ _ => 0) (Performs textBoot 0) others)
      ⟨oneProcess [0x68] blankKernel, .start (fun _ => 0) fun _ => 0⟩
      [.own (.getargs (fun _ => 0) 1024) ⟨0, some search⟩]
      ⟨oneProcess [0x68] blankKernel, .named search fun _ => 0⟩ := by
    have haction : grep (fun _ _ => 0) (.start (fun _ => 0) fun _ => 0) =
        .call (.getargs (fun _ => 0) 1024) fun r =>
          if 0 ≠ r.ret then .complaint "could not read argument\n" 3
          else .named (r.buf.getD fun _ => 0) fun _ => 0 := rfl
    exact Run.single (.own haction ⟨rfl, hcall⟩)
  have hstart : grepHolds textBoot 4 (fun _ _ => 0) (.start (fun _ => 0) fun _ => 0) []
      (oneProcess [0x68] blankKernel).table := ⟨hnew.io, rfl, hnew⟩
  have houtlined : Outlined textBoot (grep fun _ _ => 0) (grepHolds textBoot 4 fun _ _ => 0) :=
    grep_outlined textBoot_grepImage
  obtain ⟨events, ⟨k, place⟩, hrun, h, hend⟩ :=
    houtlined.alone (grep_answered textBoot_grepImage) others hfirst rfl
      (grepHolds_getargs hstart hcall) 100
  have hgiven : searchGiven
      (calls ([.own (.getargs (fun _ => 0) 1024) ⟨0, some search⟩] ++ events)) = some search := rfl
  have houtcome : grepOutcome textBoot 4 (fun _ _ => 0) (some search) =
      (0, grepReports textBoot 4 [0x68]) := by
    have hidx : findDirentry textBoot dotName.at = some 3 := by decide +kernel
    simp only [grepOutcome, hidx]
    rw [grepFrom_eq hsearch (by decide) fun i hi => textBoot_reported hi]
  obtain ⟨-, hwithin⟩ := grepHolds_written h (by simp [calls])
  rw [hgiven, houtcome] at hwithin
  have hexit : ∃ code, grep (fun _ _ => 0) place = .exit code := by
    refine hend.resolve_left fun hlen => ?_
    have hprinted : (grepReports textBoot 4 [0x68]).length = 8 := by decide +kernel
    have hcost : grepCost textBoot 4 (List.range 4) = 10 := by decide +kernel
    simp only [InBudget, calls_append, List.length_append, hprinted, hcost] at hwithin
    omega
  obtain ⟨code, hcode⟩ := hexit
  cases place with
  | exited code =>
      obtain ⟨-, -, hends⟩ := h
      rw [hgiven, houtcome] at hends
      obtain ⟨rfl, -⟩ := Prod.mk.inj hends
      exact ⟨_, k, hrun, search, hgiven, hsearch⟩
  | start search buf => exact absurd hcode (by simp [grep])
  | complaint text code => exact absurd hcode (by simp [grep])
  | named search buf => exact absurd hcode (by simp [grep])
  | listing g => exact absurd hcode (by simp [grep])
  | opening g => exact absurd hcode (by simp [grep])
  | reading g f => exact absurd hcode (by simp [grep])
  | printing g f cnt w ws => exact absurd hcode (by simp [grep])
  | closing g f => exact absurd hcode (by simp [grep])

theorem grep_searches_files_text : ∃ events k search,
    Run (ProgramStep textBoot 0 (grep fun _ _ => 0))
      ⟨oneProcess [0x68] blankKernel, .start (fun _ => 0) fun _ => 0⟩ events ⟨k, .exited 0⟩ ∧
    grepOutcome textBoot 4 (fun _ _ => 0) (some search) = (0, written (calls events)) := by
  obtain ⟨events, k, hrun, search, hgiven, -⟩ := grep_text_exits (Elsewhere textBoot 0)
  obtain ⟨-, hexited, -⟩ := grep_searches_files textBoot_grepImage (oneProcess_runsOn _ _)
    (oneProcess_newTable _ _) hrun
  rw [hgiven] at hexited
  exact ⟨events, k, search, hrun, hexited 0 rfl⟩

end Ece391Kernel
