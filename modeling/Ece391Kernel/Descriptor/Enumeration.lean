import Ece391Kernel.Descriptor.Table

/-!
# Listing the directory

A program lists the directory by reading it until a read returns 0. `dir_read` has no
other sign of the end than an entry with an empty name, and the file position goes on
after it; so behind the 63 entries it takes the inode blocks for names.
-/

namespace Ece391Kernel

open TransitionSystem ByteMemory

/-- A read of the directory that has returned. -/
structure DirRead where
  buf : Int → UInt8
  nbytes : Int
  ret : Int
  result : Int → UInt8

/-- The running process reads the directory on descriptor `fd`. -/
def DirReadStep (b : Boot) (fd : Int) (k : Kernel) (r : DirRead) (k' : Kernel) : Prop :=
  sysRead b fd (some r.buf) r.nbytes k = some ⟨r.ret, some r.result, k'⟩

/-- The directory has `d` entries, with names, and the others are zeroed. -/
structure ListsDirectory (b : Boot) (d : Nat) : Prop where
  count : dirCount b = d
  le : d ≤ entriesNum
  named : ∀ i < d, entryName b i ≠ []
  unused : ∀ i, d ≤ i → i < entriesNum → ∀ j < 64, b.byte (direntryAddr i + j) = 0

/-- The read with number `i` delivers the name of entry `i`, or returns 0 when there is no
such entry. -/
def Delivers (b : Boot) (d i : Nat) (r : DirRead) : Prop :=
  if i < d then r.ret = (entryName b i).length ∧ r.result = storeFrom r.buf 0 (entryName b i)
  else r.ret = 0

/-! ## One read -/

theorem stringFrom_eq_nil (s : Nat → UInt8) (n i : Nat) :
    stringFrom s (n + 1) i = [] ↔ s i = 0 := by
  unfold stringFrom
  by_cases hzero : s i = 0
  · rw [if_pos hzero]
    exact iff_of_true rfl hzero
  · rw [if_neg hzero]
    exact iff_of_false (by simp) hzero

theorem entryName_eq_nil {b : Boot} {i : Nat} : entryName b i = [] ↔ direntryName b i 0 = 0 :=
  stringFrom_eq_nil (direntryName b i) 31 0

theorem strlenFrom_min (s : Nat → UInt8) {n m : Nat} (h : n ≤ m) (i : Nat) :
    min (strlenFrom s m i) (i + n) = i + (stringFrom s n i).length := by
  induction n generalizing m i with
  | zero =>
      have hle : ∀ m i, i ≤ strlenFrom s m i := by
        intro m
        induction m with
        | zero => exact fun i => Nat.le_refl i
        | succ m ih =>
            intro i
            unfold strlenFrom
            split
            · exact Nat.le_refl i
            · exact Nat.le_of_succ_le (ih (i + 1))
      exact Nat.min_eq_right (hle m i)
  | succ n ih =>
      obtain ⟨m, rfl⟩ : ∃ m', m = m' + 1 := ⟨m - 1, by omega⟩
      unfold strlenFrom stringFrom
      by_cases hzero : s i = 0
      · rw [if_pos hzero, if_pos hzero]
        simp
      · have hnext := ih (m := m) (by omega) (i + 1)
        rw [if_neg hzero, if_neg hzero, List.length_cons]
        omega

/-- The string is what is at its indices. -/
theorem stringFrom_eq_map (s : Nat → UInt8) (n i : Nat) :
    stringFrom s n i = (List.range' i (stringFrom s n i).length).map s := by
  induction n generalizing i with
  | zero => rfl
  | succ n ih =>
      unfold stringFrom
      split
      · rfl
      · rw [List.length_cons, List.range'_succ, List.map_cons, ← ih (i + 1)]

/-- The descriptor is open on the directory, at the given position. -/
structure AtEntry (k : Kernel) (fd p : Nat) : Prop where
  range : firstRegFile ≤ fd ∧ fd < lastRegFile
  flag : (k.table fd).flag = 0
  ftPtr : (k.table fd).ftPtr = driverOps .dir
  position : (k.table fd).filePosition = p

/-- A read delivers the name at the position, and moves on. -/
theorem AtEntry.read {b : Boot} {k : Kernel} {fd p : Nat} (h : AtEntry k fd p) (buf : Int → UInt8)
    {nbytes : Int} (hsize : dirNameLength ≤ nbytes) :
    ∃ k', sysRead b fd (some buf) nbytes k = some ⟨(entryName b (uint32 p)).length,
      some (storeFrom buf 0 (entryName b (uint32 p))), k'⟩ ∧ AtEntry k' fd (p + 1) := by
  obtain ⟨⟨hlo, hhi⟩, hflag, hptr, hposition⟩ := h
  simp only [firstRegFile, lastRegFile] at hlo hhi
  simp only [dirNameLength] at hsize
  have husable : usable 1 fd k := by
    refine ⟨by simp; omega, fun hfree => ?_⟩
    rw [Int.toNat_natCast, hflag] at hfree
    exact absurd hfree.2.2 (by decide)
  have hrange : ¬((fd : Int) < 0 ∨ (fd : Int) > uppb) := by simp; omega
  have hlen : min (min (strlen (direntryName b (uint32 p))) nbytes.toNat) dirNameLength =
      (entryName b (uint32 p)).length := by
    have hstring := strlenFrom_min (direntryName b (uint32 p)) (n := filenameLen) (m := 2 ^ 32)
      (by decide) 0
    unfold strlen entryName
    simp only [filenameLen, dirNameLength, Nat.zero_add] at hstring ⊢
    omega
  have hname : (List.range (entryName b (uint32 p)).length).map (direntryName b (uint32 p)) =
      entryName b (uint32 p) := by
    rw [List.range_eq_range']
    exact (stringFrom_eq_map (direntryName b (uint32 p)) filenameLen 0).symm
  have hread : sysRead b fd (some buf) nbytes k = some (dirRead b fd (some buf) nbytes k) := by
    unfold sysRead sysReadTarget
    rw [if_pos husable, Int.toNat_natCast, hptr]
    rfl
  have htable := setDesc_table k fd fun d => { d with filePosition := d.filePosition + 1 }
  refine ⟨k.setDesc fd fun d => { d with filePosition := d.filePosition + 1 }, ?_, ⟨hlo, hhi⟩,
    ?_, ?_, ?_⟩
  · rw [hread]
    unfold dirRead
    simp only [if_neg hrange, Int.toNat_natCast, hposition, hlen, hname]
  · rw [htable, Function.update_self]
    exact hflag
  · rw [htable, Function.update_self]
    exact hptr
  · rw [htable, Function.update_self]
    simp only [hposition]
    rfl

/-- The descriptor that `sys_open` returns for the directory is at its first entry. -/
theorem sysOpen_atEntry {b : Boot} {name : CString} {idx : Nat} {k k₁ : Kernel} {fd : Int}
    (hfind : findDirentry b name.at = some idx) (htype : direntryType b idx = dirFile)
    (hopen : sysOpen b name k = (fd, k₁)) (hfd : fd ≠ -1) : ∃ n : Nat, fd = n ∧ AtEntry k₁ n 0 := by
  rcases sysOpen_cases b name k with ⟨-, hfail⟩ | ⟨idx', n, hidx, hfree, hok⟩
  · obtain ⟨hret, -⟩ := Prod.mk.inj (hfail.symm.trans hopen)
    exact absurd hret.symm hfd
  · obtain ⟨hret, hk⟩ := Prod.mk.inj (hok.symm.trans hopen)
    obtain ⟨-, hrange, -⟩ := freeDesc_eq_some.mp hfree
    have hsame : idx' = idx := Option.some.inj (hidx.symm.trans hfind)
    subst hsame
    have hentry : k₁.table n =
        bindDriver b idx' { k.table n with flag := 0, filePosition := 0 } := by
      rw [← hk, setDesc_table, Function.update_self]
    have hkeeps := bindDriver_keeps b idx' { k.table n with flag := 0, filePosition := 0 }
    refine ⟨n, hret.symm, hrange, ?_, ?_, ?_⟩
    · rw [hentry, hkeeps.1]
    · rw [hentry]
      unfold bindDriver
      rw [htype, if_neg (by decide), if_pos rfl]
    · rw [hentry, hkeeps.2]
      rfl

/-! ## All reads -/

namespace AtEntry

variable {b : Boot} {k k' : Kernel} {fd : Nat} {reads : List DirRead}

/-- Read number `i` finds the descriptor at entry `i`. -/
theorem run (h : AtEntry k fd 0) (hsize : ∀ r ∈ reads, dirNameLength ≤ r.nbytes)
    (hrun : Run (DirReadStep b fd) k reads k') :
    AtEntry k' fd reads.length ∧ ∀ (i : Nat) (r : DirRead), reads[i]? = some r →
      r.ret = (entryName b (uint32 i)).length ∧
        r.result = storeFrom r.buf 0 (entryName b (uint32 i)) := by
  induction hrun with
  | nil => exact ⟨h, fun i r hr => absurd hr (by simp)⟩
  | @snoc m k' rs last _ hlast ih =>
      obtain ⟨hat, hbefore⟩ := ih fun r hr => hsize r (List.mem_append_left _ hr)
      obtain ⟨k'', hread, hat'⟩ := hat.read last.buf (hsize last (by simp)) (b := b)
      have hreturn : (⟨(entryName b (uint32 rs.length)).length,
          some (storeFrom last.buf 0 (entryName b (uint32 rs.length))), k''⟩ : ReadReturn) =
          ⟨last.ret, some last.result, k'⟩ := Option.some.inj (hread.symm.trans hlast)
      obtain ⟨hret, hresult, hkernel⟩ := ReadReturn.mk.inj hreturn
      subst hkernel
      refine ⟨by rwa [List.length_append], fun i r hr => ?_⟩
      rcases Nat.lt_trichotomy i rs.length with hlt | rfl | hgt
      · rw [List.getElem?_append_left hlt] at hr
        exact hbefore i r hr
      · rw [List.getElem?_concat_length] at hr
        obtain rfl := Option.some.inj hr
        exact ⟨hret.symm, (Option.some.inj hresult).symm⟩
      · rw [List.getElem?_eq_none (by simp; omega)] at hr
        exact absurd hr (by simp)

/-- The directory can be read any number of times. -/
theorem exists_run (h : AtEntry k fd 0) (b : Boot) (buf : Int → UInt8) (n : Nat) :
    ∃ (reads : List DirRead) (k' : Kernel), reads.length = n ∧
      (∀ r ∈ reads, dirNameLength ≤ r.nbytes) ∧ Run (DirReadStep b fd) k reads k' := by
  induction n with
  | zero => exact ⟨[], k, rfl, fun r hr => absurd hr (by simp), Run.nil k⟩
  | succ n ih =>
      obtain ⟨reads, k', hlen, hsize, hrun⟩ := ih
      obtain ⟨hat, -⟩ := h.run hsize hrun
      obtain ⟨k'', hread, -⟩ := hat.read buf (le_refl (dirNameLength : Int)) (b := b)
      have hstep : DirReadStep b fd k' ⟨buf, dirNameLength,
          (entryName b (uint32 reads.length)).length,
          storeFrom buf 0 (entryName b (uint32 reads.length))⟩ k'' := hread
      refine ⟨_, k'', ?_, ?_, Run.snoc hrun hstep⟩
      · rw [List.length_append, hlen]
        rfl
      · intro r hr
        rcases List.mem_append.mp hr with hr | hr
        · exact hsize r hr
        · rw [List.mem_singleton.mp hr]

end AtEntry

/-- The reads of the directory deliver the names of its entries in order and return 0 after
them, exactly as long as the inode blocks behind a full directory do not look like names;
and a read of the directory always returns. -/
theorem directory_reads_iff {b : Boot} {d idx : Nat} {name : CString} {k k₁ k₂ : Kernel} {fd : Int}
    {reads : List DirRead} (hlist : ListsDirectory b d) (hfind : findDirentry b name.at = some idx)
    (htype : direntryType b idx = dirFile) (hopen : sysOpen b name k = (fd, k₁)) (hfd : fd ≠ -1)
    (hsize : ∀ r ∈ reads, dirNameLength ≤ r.nbytes) (hrun : Run (DirReadStep b fd) k₁ reads k₂) :
    ((∀ (i : Nat) r, reads[i]? = some r → Delivers b d i r) ↔
      ∀ p : Nat, entriesNum ≤ p → p < reads.length → direntryName b (uint32 p) 0 = 0) ∧
    ∀ buf (nbytes : Int), dirNameLength ≤ nbytes →
      ∃ ret result k₃, DirReadStep b fd k₂ ⟨buf, nbytes, ret, result⟩ k₃ := by
  obtain ⟨n, rfl, hstart⟩ := sysOpen_atEntry hfind htype hopen hfd
  obtain ⟨hend, hreads⟩ := hstart.run hsize hrun
  have hle := hlist.le
  simp only [entriesNum] at hle
  refine ⟨⟨fun hdelivers p hlo hhi => ?_, fun hquiet i r hr => ?_⟩, fun buf nbytes hn => ?_⟩
  · have hr : reads[p]? = some reads[p] := List.getElem?_eq_getElem hhi
    have hzero := hdelivers p reads[p] hr
    unfold Delivers at hzero
    simp only [entriesNum] at hlo
    rw [if_neg (by omega), (hreads p reads[p] hr).1] at hzero
    exact entryName_eq_nil.mp (List.eq_nil_of_length_eq_zero (Int.ofNat_inj.mp hzero))
  · obtain ⟨hret, hresult⟩ := hreads i r hr
    obtain ⟨hlt, -⟩ := List.getElem?_eq_some_iff.mp hr
    unfold Delivers
    by_cases hi : i < d
    · rw [uint32_of_lt (by omega)] at hret hresult
      rw [if_pos hi]
      exact ⟨hret, hresult⟩
    · -- an unused entry of the directory, or what is behind the directory
      have hzero : direntryName b (uint32 i) 0 = 0 := by
        by_cases hin : i < entriesNum
        · simp only [entriesNum] at hin
          rw [uint32_of_lt (by omega)]
          exact hlist.unused i (by omega) hin 0 (by decide)
        · exact hquiet i (by omega) hlt
      rw [if_neg hi, hret, entryName_eq_nil.mpr hzero]
      rfl
  · obtain ⟨k₃, hread, -⟩ := hend.read buf hn (b := b)
    exact ⟨_, _, k₃, hread⟩

/-! ## A full directory -/

/-- An image with 63 directory entries, of which the first, `.`, is the directory; the
file of inode 0 has 28 bytes. -/
def fullDirectoryBoot : Boot :=
  { smallBoot with
    image := imageOf ((0, [63, 0, 0, 0, 64]) ::
      (List.range entriesNum).map (fun i => (direntryAddr i, [UInt8.ofNat (0x2E + i)])) ++
      [(direntryAddr 0 + 32, [1]), (inodeAddr 0, [28])]) }

/-- The name `.`. -/
def dotName : CString := ⟨[0x2E], by simp⟩

theorem fullDirectoryBoot_lists : ListsDirectory fullDirectoryBoot 63 where
  count := by decide
  le := by decide
  named := by
    have hfirst : ∀ i < 63, direntryName fullDirectoryBoot i 0 ≠ 0 := by decide +kernel
    exact fun i hi hnil => hfirst i hi (entryName_eq_nil.mp hnil)
  unused := fun i hlo hhi => absurd hlo (Nat.not_le_of_lt hhi)

theorem fullDirectoryBoot_find : findDirentry fullDirectoryBoot dotName.at = some 0 := by
  decide +kernel

theorem fullDirectoryBoot_type : direntryType fullDirectoryBoot 0 = dirFile := by
  decide +kernel

/-- A new process that has opened the directory of the full image. -/
theorem fullDirectoryBoot_open : ∃ (k k₁ : Kernel) (fd : Int),
    sysOpen fullDirectoryBoot dotName k = (fd, k₁) ∧ fd ≠ -1 := by
  have hinv := newProcess_tableInv blankKernel
  have hfree : freeDesc (openIo (clearDescriptors blankKernel)) ≠ none := fun hnone =>
    freeDesc_eq_none.mp hnone 2 (by decide) (by decide) (hinv.free 2 (by decide) (by decide) rfl)
  rcases sysOpen_cases fullDirectoryBoot dotName (openIo (clearDescriptors blankKernel)) with
    ⟨hnone | hnone, -⟩ | ⟨_, fd, _, _, hok⟩
  · exact absurd (hnone.symm.trans fullDirectoryBoot_find) (by simp)
  · exact absurd hnone hfree
  · exact ⟨openIo (clearDescriptors blankKernel), _, fd, hok, by omega⟩

theorem directory_reads_iff_full : ∃ (k₁ k₂ : Kernel) (fd : Int) (reads : List DirRead),
    reads.length = 63 ∧ Run (DirReadStep fullDirectoryBoot fd) k₁ reads k₂ ∧
      ∀ (i : Nat) r, reads[i]? = some r → Delivers fullDirectoryBoot 63 i r := by
  obtain ⟨k, k₁, fd, hopen, hfd⟩ := fullDirectoryBoot_open
  obtain ⟨n, rfl, hstart⟩ :=
    sysOpen_atEntry fullDirectoryBoot_find fullDirectoryBoot_type hopen hfd
  obtain ⟨reads, k₂, hlen, hsize, hrun⟩ :=
    hstart.exists_run fullDirectoryBoot (fun _ => 0) 63
  refine ⟨k₁, k₂, n, reads, hlen, hrun, ?_⟩
  refine (directory_reads_iff fullDirectoryBoot_lists fullDirectoryBoot_find fullDirectoryBoot_type
    hopen hfd hsize hrun).1.mpr fun p hlo hhi => ?_
  exact absurd (Nat.lt_of_lt_of_le hhi (Nat.le_of_eq hlen)) (Nat.not_lt_of_le hlo)

/-- The read after the 63 names of a full directory does not return 0. -/
theorem full_directory_reads_on : ¬∀ (b : Boot) (d idx : Nat) (name : CString) (k k₁ k₂ : Kernel)
    (fd : Int) (reads : List DirRead), ListsDirectory b d → findDirentry b name.at = some idx →
    direntryType b idx = dirFile → sysOpen b name k = (fd, k₁) → fd ≠ -1 →
    (∀ r ∈ reads, dirNameLength ≤ r.nbytes) → Run (DirReadStep b fd) k₁ reads k₂ →
    ∀ (i : Nat) r, reads[i]? = some r → Delivers b d i r := by
  intro hall
  obtain ⟨k, k₁, fd, hopen, hfd⟩ := fullDirectoryBoot_open
  obtain ⟨n, rfl, hstart⟩ :=
    sysOpen_atEntry fullDirectoryBoot_find fullDirectoryBoot_type hopen hfd
  obtain ⟨reads, k₂, hlen, hsize, hrun⟩ :=
    hstart.exists_run fullDirectoryBoot (fun _ => 0) 64
  obtain ⟨-, hreads⟩ := hstart.run hsize hrun
  have hlast : reads[63]? = some reads[63] := List.getElem?_eq_getElem (by omega)
  have hzero := hall fullDirectoryBoot 63 0 dotName k k₁ k₂ n reads fullDirectoryBoot_lists
    fullDirectoryBoot_find fullDirectoryBoot_type hopen hfd hsize hrun 63 reads[63] hlast
  have hname : entryName fullDirectoryBoot (uint32 (63 : Nat)) = [28] := by decide +kernel
  unfold Delivers at hzero
  rw [if_neg (by decide), (hreads 63 reads[63] hlast).1, hname] at hzero
  exact absurd hzero (by decide)

end Ece391Kernel
