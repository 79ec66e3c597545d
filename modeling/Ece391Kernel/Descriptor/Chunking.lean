import Ece391Kernel.Descriptor.Calls
import Ece391Kernel.Library.Run

/-!
# Reading a file in chunks

A run of read calls of one process, on any of its descriptors. What the calls on
one descriptor deliver, put together, is a prefix of the file that was opened on
it, and its length depends on the number of bytes asked for only. The invariant
is that the file position is the number of bytes delivered; a call on another
descriptor does not touch it.
-/

namespace Ece391Kernel

open TransitionSystem ByteMemory

/-- A read call that has returned: its arguments, its result, and the buffer that
it has left. -/
structure ReadEvent where
  fd : Int
  argument : Buffer
  nbytes : Int
  ret : Int
  buf : Buffer

/-- The running process makes the call of the event. -/
def ReadStep (b : Boot) (k : Kernel) (e : ReadEvent) (k' : Kernel) : Prop :=
  sysRead b e.fd e.argument e.nbytes k = some ⟨e.ret, e.buf, k'⟩

/-- The first `n` bytes of a buffer. -/
def bufferBytes (buf : Buffer) (n : Int) : List UInt8 :=
  match buf with
  | none => []
  | some m => (List.range n.toNat).map fun i : Nat => m (i : Int)

/-- The bytes that the calls on a descriptor have delivered. -/
def delivered (fd : Int) (es : List ReadEvent) : List UInt8 :=
  (es.filter fun e => e.fd = fd).flatMap fun e => bufferBytes e.buf e.ret

/-- The bytes that the calls on a descriptor have asked for. -/
def asked (fd : Int) (es : List ReadEvent) : Nat :=
  ((es.filter fun e => e.fd = fd).map fun e => e.nbytes.toNat).sum

/-- A call on the descriptor `fd` asks for at least one byte, and has a buffer. -/
def ProperRead (fd : Int) (_ : Kernel) (e : ReadEvent) : Prop :=
  e.fd = fd → 0 < e.nbytes ∧ e.nbytes < 0x80000000 ∧ e.argument.isSome

/-- The descriptor of a regular file at a position. -/
def fileDesc (inode : Nat) (position : Int) : FileDesc where
  ftPtr := driverOps .file
  inode := inode
  filePosition := position
  flag := 0

/-! ## One call -/

/-- The table entry that `sys_open` makes for a regular file. -/
theorem sysOpen_regular {b : Boot} {name : CString} {k k' : Kernel} {fd : Int} {idx : Nat}
    (hidx : findDirentry b name.at = some idx) (htype : direntryType b idx = regFile)
    (hinode : direntryInode b idx < 64) (hopen : sysOpen b name k = (fd, k')) (hfd : fd ≠ -1) :
    ∃ n : Nat, fd = n ∧ firstRegFile ≤ n ∧ n < lastRegFile ∧
      k'.table n = fileDesc (direntryInode b idx) 0 := by
  unfold sysOpen at hopen
  rw [hidx] at hopen
  simp only at hopen
  cases hfree : freeDesc k with
  | none =>
      rw [hfree] at hopen
      exact absurd (congrArg Prod.fst hopen).symm hfd
  | some n =>
      rw [hfree] at hopen
      obtain ⟨hret, hk⟩ := Prod.mk.inj hopen
      have hmem := List.mem_of_find?_eq_some hfree
      rw [List.mem_range'_1] at hmem
      refine ⟨n, hret.symm, hmem.1, by simp at hmem ⊢; omega, ?_⟩
      rw [← hk, setDesc_table, Function.update_self]
      have hsigned : int32 (direntryInode b idx : Nat) = (direntryInode b idx : Int) :=
        int32_of_lt (by omega)
      unfold bindDriver
      rw [htype, if_neg (by decide), if_neg (by decide), if_pos rfl, hsigned]
      rfl

/-- A read of `n` bytes through the descriptor of a regular file, in terms of the
bytes of the file from its position on. -/
theorem sysRead_file {b : Boot} (hwf : WellFormedImage b) {inode position fd n : Nat} {k : Kernel}
    (hinode : inode < 64) (hfd : firstRegFile ≤ fd) (hfd' : fd < lastRegFile)
    (htable : k.table fd = fileDesc inode position) (hle : position ≤ inodeLength b inode)
    (hn : 0 < n) (hn' : n < 0x80000000) (m : Int → UInt8) :
    let chunk := ((fileContent b inode).drop position).take n
    ∃ k', sysRead b fd (some m) n k = some ⟨chunk.length, some (storeFrom m 0 chunk), k'⟩ ∧
      k'.table fd = fileDesc inode (position + chunk.length : Nat) ∧
      (position = inodeLength b inode → k' = k) := by
  intro chunk
  have hmax : inodeLength b inode ≤ 1023 * 4096 := by simpa using hwf.length_le inode hinode
  have hlen : chunk.length = min n (inodeLength b inode - position) := by
    simp only [chunk, List.length_take, List.length_drop, fileContent_length]
  have husable : usable 1 fd k := by
    refine ⟨by simp at hfd hfd' ⊢; omega, ?_⟩
    rw [Int.toNat_natCast, htable]
    simp [fileDesc]
  have htarget : sysReadTarget fd k = some (.fn .file .readOp) := by
    unfold sysReadTarget
    rw [if_pos husable, Int.toNat_natCast, htable]
    rfl
  have hcall : sysRead b fd (some m) n k = some (fileRead b fd (some m) n k) := by
    unfold sysRead
    rw [htarget]
    rfl
  have hrange : ¬((fd : Int) < 0 ∨ (fd : Int) > uppb) := by
    simp only [uppb, lastRegFile] at hfd' ⊢
    omega
  have hu : uint32 (inode : Int) = inode := uint32_of_lt (by omega)
  have hp : uint32 (position : Int) = position := uint32_of_lt (by omega)
  have hu' : uint32 (n : Int) = n := uint32_of_lt (by omega)
  have hL : int32 (inodeLength b inode : Nat) = (inodeLength b inode : Int) :=
    int32_of_lt (by omega)
  rw [hcall]
  unfold fileRead
  rw [if_neg hrange]
  simp only [Int.toNat_natCast, htable, fileDesc, hu, hL]
  by_cases hend : position = inodeLength b inode
  · -- the position is at the end of the file: nothing is read and nothing changes
    have hnil : chunk = [] := List.eq_nil_of_length_eq_zero (by omega)
    rw [if_pos (by omega), hnil]
    exact ⟨k, rfl, by simpa [fileDesc] using htable, fun _ => rfl⟩
  · have hfetches := hwf.readDataFetches_eq position hinode hn
    rw [if_pos hle] at hfetches
    have hvalues : (copyLoop b inode n position).map Fetch.value = chunk := copyLoop_values ..
    have hcount : (copyLoop b inode n position).length = chunk.length := by
      rw [← hvalues, List.length_map]
    have hret : int32 ((copyLoop b inode n position).length : Nat) = (chunk.length : Int) := by
      rw [hcount, int32_of_lt (by omega)]
    have hread : readData b inode (uint32 position) (some m) (uint32 n) =
        ((chunk.length : Int), some (storeFrom m 0 chunk)) := by
      simp only [readData, hp, hu', Option.isNone_some, hfetches, Option.map_some, hvalues]
      rw [hret]
    rw [if_neg (by omega), hread, if_pos (by omega)]
    refine ⟨_, rfl, ?_, fun h => absurd h hend⟩
    rw [setDesc_table, Function.update_self, htable]
    simp [fileDesc]

/-! ## Runs -/

theorem delivered_snoc_self {fd : Int} (es : List ReadEvent) {e : ReadEvent} (he : e.fd = fd) :
    delivered fd (es ++ [e]) = delivered fd es ++ bufferBytes e.buf e.ret := by
  simp [delivered, he]

theorem delivered_snoc_other {fd : Int} (es : List ReadEvent) {e : ReadEvent} (he : e.fd ≠ fd) :
    delivered fd (es ++ [e]) = delivered fd es := by
  simp [delivered, he]

theorem asked_snoc_self {fd : Int} (es : List ReadEvent) {e : ReadEvent} (he : e.fd = fd) :
    asked fd (es ++ [e]) = asked fd es + e.nbytes.toNat := by
  simp [asked, he]

theorem asked_snoc_other {fd : Int} (es : List ReadEvent) {e : ReadEvent} (he : e.fd ≠ fd) :
    asked fd (es ++ [e]) = asked fd es := by
  simp [asked, he]

theorem bufferBytes_storeFrom (m : Int → UInt8) (bytes : List UInt8) :
    bufferBytes (some (storeFrom m 0 bytes)) bytes.length = bytes := by
  unfold bufferBytes
  exact map_storeFrom m bytes

/-- The invariant of a run: what the descriptor has delivered is a prefix of the
file as long as what was asked for allows, and its position is the length. -/
def Chunked (b : Boot) (inode fd : Nat) (es : List ReadEvent) (k : Kernel) : Prop :=
  delivered fd es = (fileContent b inode).take (asked fd es) ∧
    k.table fd = fileDesc inode (delivered fd es).length

theorem chunked_run {b : Boot} (hwf : WellFormedImage b) {inode fd : Nat} (hinode : inode < 64)
    (hfd : firstRegFile ≤ fd) (hfd' : fd < lastRegFile) {k₀ k : Kernel}
    (htable : k₀.table fd = fileDesc inode 0) {es : List ReadEvent}
    (hrun : Run (guarded (ProperRead fd) (ReadStep b)) k₀ es k) : Chunked b inode fd es k := by
  induction hrun with
  | nil => exact ⟨by simp [delivered, asked], by simpa [delivered] using htable⟩
  | @snoc k k' es e _ hstep ih =>
      obtain ⟨hdelivered, hposition⟩ := ih
      obtain ⟨hproper, hcall⟩ := hstep
      by_cases he : e.fd = fd
      · obtain ⟨hpos, hsmall, hbuf⟩ := hproper he
        obtain ⟨m, hm⟩ := Option.isSome_iff_exists.mp hbuf
        obtain ⟨n, hn⟩ : ∃ n : Nat, e.nbytes = n := ⟨e.nbytes.toNat, by omega⟩
        have hle : (delivered fd es).length ≤ inodeLength b inode := by
          rw [hdelivered, List.length_take, fileContent_length]
          omega
        obtain ⟨k'', hread, hafter, -⟩ := sysRead_file (n := n) hwf hinode hfd hfd' hposition hle
          (by omega) (by omega) m
        unfold ReadStep at hcall
        rw [he, hm, hn, hread] at hcall
        obtain ⟨hret, hbytes, hk⟩ := ReadReturn.mk.inj (Option.some.inj hcall)
        -- the new chunk continues the prefix
        have hchunk : delivered fd (es ++ [e]) =
            delivered fd es ++ ((fileContent b inode).drop (delivered fd es).length).take n := by
          rw [delivered_snoc_self es he, ← hret, ← hbytes, bufferBytes_storeFrom]
        have htake : ((fileContent b inode).drop (delivered fd es).length).take n =
            ((fileContent b inode).drop (asked fd es)).take n := by
          rw [hdelivered, List.length_take]
          rcases Nat.le_total (asked fd es) (fileContent b inode).length with hlt | hge
          · rw [Nat.min_eq_left hlt]
          · rw [Nat.min_eq_right hge, List.drop_length, List.drop_of_length_le hge]
        refine ⟨?_, ?_⟩
        · have hsum : asked fd (es ++ [e]) = asked fd es + n := by
            rw [asked_snoc_self es he, hn, Int.toNat_natCast]
          rw [hchunk, htake, hsum, List.take_add, ← hdelivered]
        · rw [← hk, hafter, hchunk, List.length_append]
      · refine ⟨?_, ?_⟩
        · rw [delivered_snoc_other es he, asked_snoc_other es he, hdelivered]
        · rw [delivered_snoc_other es he, ← hposition]
          exact sysRead_other hcall (Ne.symm he)

/-- In every run of read calls, the bytes delivered by a descriptor opened on a
regular file are the prefix of the file whose length is the number of bytes asked
for, or the whole file; the position is the number of bytes delivered; and the
next call returns as many bytes as it asks for and the file has left, and changes
nothing at the end. -/
theorem chunked_reads_deliver_file (b : Boot) (hwf : WellFormedImage b) (name : CString)
    (idx : Nat) (hidx : findDirentry b name.at = some idx) (htype : direntryType b idx = regFile)
    (hinode : direntryInode b idx < 64) (k k₀ k₁ : Kernel) (fd : Int)
    (hopen : sysOpen b name k = (fd, k₀)) (hfd : fd ≠ -1) (es : List ReadEvent)
    (hrun : Run (guarded (ProperRead fd) (ReadStep b)) k₀ es k₁) :
    let file := fileContent b (direntryInode b idx)
    let rest := file.length - (delivered fd es).length
    delivered fd es = file.take (min (asked fd es) file.length) ∧
    (k₁.table fd.toNat).filePosition = (delivered fd es).length ∧
    ∀ (n : Nat) (m : Int → UInt8), 0 < n → n < 0x80000000 →
      ∃ r, sysRead b fd (some m) n k₁ = some r ∧ r.ret = (min n rest : Nat) ∧
        (rest = 0 → r.ret = 0 ∧ r.buf = some m ∧ r.kernel = k₁) := by
  intro file rest
  obtain ⟨d, rfl, hd, hd', hdesc⟩ := sysOpen_regular hidx htype hinode hopen hfd
  obtain ⟨hdelivered, htable⟩ := chunked_run hwf hinode hd hd' hdesc hrun
  have hlen : file.length = inodeLength b (direntryInode b idx) := fileContent_length b _
  have hle : (delivered d es).length ≤ inodeLength b (direntryInode b idx) := by
    rw [hdelivered, List.length_take, fileContent_length]
    omega
  refine ⟨?_, ?_, ?_⟩
  · rw [hdelivered]
    rcases Nat.le_total (asked d es) file.length with hasked | hasked
    · rw [Nat.min_eq_left hasked]
    · rw [Nat.min_eq_right hasked, List.take_of_length_le hasked, List.take_length]
  · rw [Int.toNat_natCast, htable]
    rfl
  · intro n m hn hn'
    obtain ⟨k₂, hread, -, hend⟩ := sysRead_file hwf hinode hd hd' htable hle hn hn' m
    refine ⟨_, hread, ?_, ?_⟩
    · simp only [rest, file, List.length_take, List.length_drop]
    · intro hzero
      have hnil : ((file.drop (delivered d es).length).take n) = [] :=
        List.eq_nil_of_length_eq_zero (by
          simp only [List.length_take, List.length_drop]
          omega)
      simp only [file] at hnil
      simp only [hnil]
      exact ⟨rfl, rfl, hend (by omega)⟩

/-- A process can make any sequence of reads. -/
theorem exists_reads {b : Boot} (hwf : WellFormedImage b) {inode fd : Nat} (hinode : inode < 64)
    (hfd : firstRegFile ≤ fd) (hfd' : fd < lastRegFile) (ns : List Nat)
    (hns : ∀ n ∈ ns, 0 < n ∧ n < 0x80000000) {position : Nat} {k : Kernel}
    (htable : k.table fd = fileDesc inode position) (hle : position ≤ inodeLength b inode) :
    ∃ es k', Run (guarded (ProperRead fd) (ReadStep b)) k es k' ∧
      es.map ReadEvent.nbytes = ns.map Int.ofNat ∧ ∀ e ∈ es, e.fd = fd := by
  induction ns generalizing position k with
  | nil => exact ⟨[], k, Run.nil k, rfl, fun _ he => absurd he List.not_mem_nil⟩
  | cons n ns ih =>
      rw [List.forall_mem_cons] at hns
      obtain ⟨k₁, hread, htable₁, -⟩ := sysRead_file hwf hinode hfd hfd' htable hle hns.1.1
        hns.1.2 fun _ => 0
      obtain ⟨es, k', hrun, hnbytes, hes⟩ := ih hns.2 htable₁ (by
        rw [List.length_take, List.length_drop, fileContent_length]
        omega)
      have hsmall : (n : Int) < 0x80000000 := by
        have hlt := hns.1.2
        omega
      have hfirst : Run (guarded (ProperRead fd) (ReadStep b)) k
          [⟨fd, some fun _ => 0, n, _, _⟩] k₁ :=
        Run.single ⟨fun _ => ⟨Int.natCast_pos.mpr hns.1.1, hsmall, rfl⟩, hread⟩
      refine ⟨_, k', hfirst.append hrun, congrArg (List.cons (n : Int)) hnbytes, ?_⟩
      rw [List.forall_mem_append, List.forall_mem_singleton]
      exact ⟨rfl, hes⟩

/-- A process with free descriptors opens the file `note`, which has two bytes, and reads one
byte, and then five bytes twice. -/
theorem chunked_reads_deliver_note :
    ∃ es k₁, Run (guarded (ProperRead 2) (ReadStep smallBoot))
        (sysOpen smallBoot noteName (clearDescriptors blankKernel)).2 es k₁ ∧
      es.map ReadEvent.nbytes = [1, 5, 5] ∧ delivered 2 es = fileContent smallBoot 2 := by
  have hidx : findDirentry smallBoot noteName.at = some 2 := by decide +kernel
  have htype : direntryType smallBoot 2 = regFile := by decide +kernel
  have hinode : direntryInode smallBoot 2 = 2 := by decide +kernel
  have hlen : inodeLength smallBoot 2 = 2 := by decide +kernel
  have hret : (sysOpen smallBoot noteName (clearDescriptors blankKernel)).1 = 2 := by
    decide +kernel
  generalize hopen : sysOpen smallBoot noteName (clearDescriptors blankKernel) = opened at hret ⊢
  obtain ⟨fd, k₀⟩ := opened
  obtain rfl : fd = 2 := hret
  obtain ⟨n, hn, hlo, hhi, htable⟩ := sysOpen_regular hidx htype (by omega) hopen (by decide)
  obtain rfl : n = 2 := by omega
  rw [hinode] at htable
  obtain ⟨es, k₁, hrun, hnbytes, hes⟩ := exists_reads smallBoot_wellFormed (by decide) hlo hhi
    [1, 5, 5] (by decide) htable (Nat.zero_le _)
  have hasked : asked 2 es = 11 := by
    have hall : (es.filter fun e => e.fd = 2) = es :=
      List.filter_eq_self.mpr fun e he => decide_eq_true (hes e he)
    have hsum : (es.map fun e => e.nbytes.toNat) = [1, 5, 5] := by
      rw [← Function.comp_def, ← List.map_map, hnbytes]
      rfl
    unfold asked
    rw [hall, hsum]
    rfl
  obtain ⟨hdelivered, -, -⟩ := chunked_reads_deliver_file smallBoot smallBoot_wellFormed noteName 2
    hidx htype (by omega) _ _ k₁ 2 hopen (by decide) _ hrun
  refine ⟨es, k₁, hrun, hnbytes, ?_⟩
  rw [hdelivered, hasked, hinode]
  exact List.take_of_length_le (by rw [fileContent_length, hlen]; decide)

end Ece391Kernel
