import Ece391Kernel.Descriptor.Chunking
import Ece391Kernel.Descriptor.Enumeration
import Ece391Kernel.Library.Blocks
import Ece391Kernel.Programs.Calls

/-!
# An open file as a stream

What a program sees of an open file: reads of one size deliver pieces, one after the other, and
then 0. A regular file is cut at the size of the reads, a directory comes name by name, and the
clock delivers nothing. The pieces do not depend on what happens between two reads, as long as the
descriptor is left alone.
-/

namespace Ece391Kernel

open TransitionSystem ByteMemory

/-- An image whose directory has `d` entries, known files and room for another entry. -/
structure GoodImage (b : Boot) (d : Nat) : Prop where
  wellFormed : WellFormedImage b
  types : KnownTypes b
  lists : ListsDirectory b d
  room : d < entriesNum
  inodes : ∀ i < d, direntryType b i = regFile → direntryInode b i < 64

/-- The small image with a directory and the clock: `shell`, `ls`, `note`, `.` and `rtc`. -/
def sampleBoot : Boot :=
  patchedBoot [(0, [5]), (direntryAddr 3, [0x2E]), (direntryAddr 3 + 32, [1]),
    (direntryAddr 4, [0x72, 0x74, 0x63])]

theorem imageOf_eq_zero {segments : List (Nat × List UInt8)} {a : Nat}
    (h : ∀ s ∈ segments, a < s.1 ∨ s.1 + s.2.length ≤ a) : imageOf segments a = 0 := by
  induction segments with
  | nil => rfl
  | cons s rest ih =>
      obtain ⟨start, bytes⟩ := s
      have hout := h ⟨start, bytes⟩ List.mem_cons_self
      unfold imageOf
      rw [if_neg (by simp only at hout; omega)]
      exact ih fun s hs => h s (List.mem_cons_of_mem _ hs)

/-- Where no segment of a patched image lies, its bytes are zero. -/
theorem patchedBoot_unused {segments : List (Nat × List UInt8)} {a : Nat} (lo : Nat)
    (hside : ∀ s ∈ segments ++ smallImage, s.1 + s.2.length ≤ lo ∨ blockSize ≤ s.1)
    (hlo : lo ≤ a) (hhi : a < blockSize) : (patchedBoot segments).byte a = 0 := by
  have hlt : a < 2 ^ 32 := by
    simp only [blockSize] at hhi
    omega
  unfold Boot.byte
  rw [Nat.mod_eq_of_lt hlt]
  refine imageOf_eq_zero fun s hs => ?_
  have := hside s hs
  omega

theorem sampleBoot_goodImage : GoodImage sampleBoot 5 where
  wellFormed := ⟨by decide, by decide +kernel, by decide +kernel, by decide +kernel⟩
  types := by
    have hcount : dirCount sampleBoot = 5 := by decide +kernel
    have hall : ∀ i < 5, direntryType sampleBoot i ∈ [rtcFile, dirFile, regFile] := by
      decide +kernel
    intro i hi
    rw [hcount] at hi
    exact hall i (by omega)
  lists :=
    { count := by decide +kernel
      le := by decide
      named := by decide +kernel
      unused := fun i hlo hhi j hj => by
        simp only [entriesNum] at hhi
        refine patchedBoot_unused (direntryAddr 5) (by decide) ?_ ?_ <;>
          simp only [direntryAddr, blockSize] <;> omega }
  room := by decide
  inodes := by decide +kernel

/-- Reads of `size` bytes on a descriptor deliver these pieces, and then nothing. -/
def Yields (b : Boot) (size : Nat) : List (List UInt8) → FileDesc → Prop
  | [], d => ∀ (k : Kernel) (fd : Nat) (buf : Int → UInt8), firstRegFile ≤ fd → fd < lastRegFile →
      k.table fd = d → ∃ k', sysRead b fd (some buf) size k = some ⟨0, some buf, k'⟩
  | piece :: rest, d => piece ≠ [] ∧ piece.length ≤ size ∧ ∃ d', Yields b size rest d' ∧
      ∀ (k : Kernel) (fd : Nat) (buf : Int → UInt8), firstRegFile ≤ fd → fd < lastRegFile →
        k.table fd = d → ∃ k', sysRead b fd (some buf) size k =
          some ⟨piece.length, some (storeFrom buf 0 piece), k'⟩ ∧ k'.table fd = d'

/-! ## The three kinds of files -/

theorem yields_file {b : Boot} (hwf : WellFormedImage b) {inode size : Nat} (hinode : inode < 64)
    (hpos : 0 < size) (hsize : size < 0x80000000) {rest : List UInt8} {position : Nat}
    (hle : position ≤ inodeLength b inode) (hrest : (fileContent b inode).drop position = rest) :
    Yields b size (Blocks.split size rest) (fileDesc inode position) := by
  induction rest using Blocks.split.induct size generalizing position with
  | case1 rest hend =>
      obtain rfl := hend.resolve_left (Nat.ne_of_gt hpos)
      rw [Blocks.split_nil]
      intro k fd buf hlo hhi htable
      obtain ⟨k', hread, -, -⟩ := sysRead_file hwf hinode hlo hhi htable hle hpos hsize buf
      rw [hrest, List.take_nil] at hread
      exact ⟨k', hread⟩
  | case2 rest hmore ih =>
      obtain ⟨hne, hrest'⟩ := not_or.mp hmore
      have hlen : rest.length = inodeLength b inode - position := by
        rw [← hrest, List.length_drop, fileContent_length]
      have hlong := List.length_pos_iff.mpr hrest'
      rw [Blocks.split_of_ne hne hrest']
      refine ⟨?_, List.length_take_le _ _,
        fileDesc inode (position + (rest.take size).length : Nat), ?_, ?_⟩
      · rw [← List.length_pos_iff, List.length_take]
        omega
      · refine ih ?_ ?_
        · rw [List.length_take]
          omega
        · rw [← List.drop_drop, hrest]
          rcases Nat.le_total size rest.length with hle' | hge
          · rw [List.length_take_of_le hle']
          · rw [List.take_of_length_le hge, List.drop_length, List.drop_of_length_le hge]
      · intro k fd buf hlo hhi htable
        obtain ⟨k', hread, hafter, -⟩ := sysRead_file hwf hinode hlo hhi htable hle hpos hsize buf
        rw [hrest] at hread hafter
        exact ⟨k', hread, hafter⟩

/-- The descriptor of the directory at a position. -/
def dirDesc (position : Nat) : FileDesc where
  ftPtr := driverOps .dir
  inode := 0
  filePosition := position
  flag := 0

/-- One read of the directory, in terms of its descriptor. -/
theorem sysRead_dir (b : Boot) {fd p size : Nat} {k : Kernel} (hlo : firstRegFile ≤ fd)
    (hhi : fd < lastRegFile) (htable : k.table fd = dirDesc p) (hsize : dirNameLength ≤ size)
    (buf : Int → UInt8) :
    ∃ k', sysRead b fd (some buf) size k = some ⟨(entryName b (uint32 p)).length,
      some (storeFrom buf 0 (entryName b (uint32 p))), k'⟩ ∧ k'.table fd = dirDesc (p + 1) := by
  have hat : AtEntry k fd p := ⟨⟨hlo, hhi⟩, by rw [htable]; rfl, by rw [htable]; rfl, by
    rw [htable]; rfl⟩
  have hsize' : dirNameLength ≤ (size : Int) := by exact_mod_cast hsize
  obtain ⟨k', hread, hat'⟩ := hat.read (b := b) buf hsize'
  refine ⟨k', hread, ?_⟩
  obtain ⟨position, hafter⟩ := sysRead_position hread fd
  have hposition := hat'.position
  rw [hafter] at hposition ⊢
  rw [htable]
  simp only [dirDesc, FileDesc.mk.injEq, true_and, and_true]
  exact hposition

/-- The names of the directory from an entry on. -/
def namesFrom (b : Boot) (d p : Nat) : List (List UInt8) :=
  (List.range' p (d - p)).map (entryName b)

theorem yields_dir {b : Boot} {d size : Nat} (hlist : ListsDirectory b d) (hroom : d < entriesNum)
    (hsize : 32 ≤ size) {n p : Nat} (hp : p + n = d) :
    Yields b size (namesFrom b d p) (dirDesc p) := by
  simp only [entriesNum] at hroom
  have hindex : uint32 (p : Int) = p := uint32_of_lt (by omega)
  unfold namesFrom
  induction n generalizing p with
  | zero =>
      have hp' : d - p = 0 := by omega
      rw [hp', List.range'_zero]
      intro k fd buf hlo hhi htable
      obtain ⟨k', hread, -⟩ := sysRead_dir b hlo hhi htable hsize buf
      have hempty : entryName b p = [] :=
        entryName_eq_nil.mpr (hlist.unused p (by omega) (by simp only [entriesNum]; omega) 0
          (by decide))
      rw [hindex, hempty] at hread
      exact ⟨k', hread⟩
  | succ n ih =>
      have hp' : d - p = d - (p + 1) + 1 := by omega
      rw [hp', List.range'_succ, List.map_cons]
      have hlen : (entryName b p).length ≤ 32 := stringFrom_length_le _ _ _
      refine ⟨hlist.named p (by omega), by omega, dirDesc (p + 1),
        ih (by omega) (uint32_of_lt (by omega)), ?_⟩
      intro k fd buf hlo hhi htable
      have hread := sysRead_dir b hlo hhi htable hsize buf
      rwa [hindex] at hread

theorem yields_rtc (b : Boot) (size : Nat) (inode position : Int) :
    Yields b size [] ⟨driverOps .rtc, inode, position, 0⟩ := by
  intro k fd buf hlo hhi htable
  simp only [firstRegFile, lastRegFile] at hlo hhi
  have husable : usable 1 fd k := by
    refine ⟨by simp; omega, fun hfree => ?_⟩
    rw [Int.toNat_natCast, htable] at hfree
    exact absurd hfree.2.2 (by simp)
  have hread : sysRead b fd (some buf) size k = some (rtcRead (some buf) k) := by
    unfold sysRead sysReadTarget
    rw [if_pos husable, Int.toNat_natCast, htable]
    rfl
  exact ⟨_, hread⟩

/-! ## Opening -/

/-- What reads of the file of an entry deliver. -/
def pieces (b : Boot) (d size idx : Nat) : List (List UInt8) :=
  if direntryType b idx = regFile then Blocks.split size (fileContent b (direntryInode b idx))
  else if direntryType b idx = dirFile then namesFrom b d 0
  else []

/-- What reads deliver of the file of an entry, in all. -/
def contentOf (b : Boot) (d idx : Nat) : List UInt8 :=
  if direntryType b idx = regFile then fileContent b (direntryInode b idx)
  else if direntryType b idx = dirFile then (List.range d).flatMap (entryName b)
  else []

theorem pieces_flatten (b : Boot) (d : Nat) {size : Nat} (hpos : 0 < size) (idx : Nat) :
    (pieces b d size idx).flatten = contentOf b d idx := by
  unfold pieces contentOf
  split
  · exact Blocks.flatten_split (Nat.ne_of_gt hpos) _
  · split
    · unfold namesFrom
      rw [Nat.sub_zero, ← List.range_eq_range', List.flatMap_def]
    · rfl

/-- A call that opens an entry binds the first free descriptor to it. -/
theorem performCall_open_bind {b : Boot} {fname : Int → UInt8} {idx : Nat}
    (hidx : findDirentry b (bufferString fname).at = some idx) {k : Kernel} {fd : Nat}
    (hfree : freeDesc k = some fd) :
    performCall b (.openFile fname) k = some (⟨fd, none⟩, k.setDesc fd fun d =>
      bindDriver b idx { d with flag := 0, filePosition := 0 }) := by
  have hopen : sysOpen b (bufferString fname) k = ((fd : Int), k.setDesc fd fun d =>
      bindDriver b idx { d with flag := 0, filePosition := 0 }) := by
    unfold sysOpen
    rw [hidx]
    simp only [hfree]
  unfold performCall
  simp only [hopen]

theorem bindDriver_flag (b : Boot) (idx : Nat) (d : FileDesc) :
    (bindDriver b idx d).flag = d.flag := by
  unfold bindDriver
  split
  · rfl
  · split
    · rfl
    · split <;> rfl

/-- A call that opens a file of the directory, while there is a free descriptor. -/
theorem performCall_open {b : Boot} {d : Nat} (himage : GoodImage b d) {size : Nat}
    (hsize : dirNameLength ≤ size) (hsize' : size < 0x80000000) {fname : Int → UInt8} {idx : Nat}
    (hidx : findDirentry b (bufferString fname).at = some idx) {k : Kernel} {fd : Nat}
    (hfree : freeDesc k = some fd) :
    ∃ k', performCall b (.openFile fname) k = some (⟨fd, none⟩, k') ∧
      Yields b size (pieces b d size idx) (k'.table fd) ∧ (k'.table fd).flag = 0 ∧
        ∀ j ≠ fd, k'.table j = k.table j := by
  obtain ⟨hflag, hrange, -⟩ := freeDesc_eq_some.mp hfree
  refine ⟨_, performCall_open_bind hidx hfree, ?_, ?_, fun j hj => ?_⟩
  · have hlt : (idx : Int) < dirCount b := (findDirentry_eq_some.mp hidx).lt
    have hpos : 0 < size := Nat.lt_of_lt_of_le (by decide) hsize
    have htype := himage.types idx hlt
    simp only [List.mem_cons, List.not_mem_nil, or_false] at htype
    rw [himage.lists.count] at hlt
    rw [setDesc_table, Function.update_self]
    unfold pieces bindDriver
    rcases htype with h | h | h
    · rw [if_neg (by rw [h]; decide), if_neg (by rw [h]; decide), if_pos h]
      exact yields_rtc b size 0 0
    · rw [if_neg (by rw [h]; decide), if_pos h, if_neg (by rw [h]; decide), if_pos h]
      exact yields_dir himage.lists himage.room hsize (Nat.zero_add d)
    · have hinode := himage.inodes idx (by omega) h
      have hsigned : int32 (direntryInode b idx : Nat) = (direntryInode b idx : Int) :=
        int32_of_lt (by omega)
      rw [if_pos h, if_neg (by rw [h]; decide), if_neg (by rw [h]; decide), if_pos h, hsigned]
      exact yields_file himage.wellFormed hinode hpos hsize' (Nat.zero_le _) rfl
  · rw [setDesc_table, Function.update_self, bindDriver_flag]
  · rw [setDesc_table, Function.update_of_ne hj]

/-- A call that opens a file that is not in the directory. -/
theorem performCall_open_none {b : Boot} {fname : Int → UInt8}
    (hidx : findDirentry b (bufferString fname).at = none) (k : Kernel) :
    performCall b (.openFile fname) k = some (⟨-1, none⟩, k) := by
  have hopen : sysOpen b (bufferString fname) k = (-1, k) := by
    unfold sysOpen
    rw [hidx]
  unfold performCall
  simp only [hopen]

/-! ## Reading -/

section Reads

variable {b : Boot} {size fd : Nat} {k : Kernel}

theorem performCall_read {buf : Int → UInt8} {nbytes : Int} {r : ReadReturn}
    (hread : sysRead b fd (some buf) nbytes k = some r) :
    performCall b (.read fd buf nbytes) k = some (⟨r.ret, r.buf⟩, r.kernel) ∧
      ∀ j ≠ fd, r.kernel.table j = k.table j := by
  refine ⟨?_, fun j hj => sysRead_other hread (by omega)⟩
  unfold performCall
  simp only [hread, Option.map_some]

/-- A read opens and closes nothing. -/
theorem performCall_read_flag {fd : Int} {buf : Int → UInt8} {nbytes : Int} {r : UserReturn}
    {k' : Kernel} (hperform : performCall b (.read fd buf nbytes) k = some (r, k')) (j : Nat) :
    (k'.table j).flag = (k.table j).flag := by
  obtain ⟨q, hq, heq⟩ := Option.map_eq_some_iff.mp hperform
  obtain ⟨-, rfl⟩ := Prod.mk.inj heq
  obtain ⟨position, hafter⟩ := sysRead_position hq j
  rw [hafter]

/-- The read behind the last piece. -/
theorem Yields.read_end (h : Yields b size [] (k.table fd)) (hlo : firstRegFile ≤ fd)
    (hhi : fd < lastRegFile) (buf : Int → UInt8) :
    ∃ k', performCall b (.read fd buf size) k = some (⟨0, some buf⟩, k') ∧
      ∀ j ≠ fd, k'.table j = k.table j := by
  obtain ⟨k', hread⟩ := h k fd buf hlo hhi rfl
  exact ⟨k', performCall_read hread⟩

/-- A read of the next piece. -/
theorem Yields.read_piece {piece : List UInt8} {rest : List (List UInt8)}
    (h : Yields b size (piece :: rest) (k.table fd)) (hlo : firstRegFile ≤ fd)
    (hhi : fd < lastRegFile) (buf : Int → UInt8) :
    piece ≠ [] ∧ piece.length ≤ size ∧ ∃ k', performCall b (.read fd buf size) k =
        some (⟨piece.length, some (storeFrom buf 0 piece)⟩, k') ∧
      Yields b size rest (k'.table fd) ∧ ∀ j ≠ fd, k'.table j = k.table j := by
  obtain ⟨hpiece, hlen, d', hrest, hdelivers⟩ := h
  obtain ⟨k', hread, hafter⟩ := hdelivers k fd buf hlo hhi rfl
  obtain ⟨hcall, hothers⟩ := performCall_read hread
  exact ⟨hpiece, hlen, k', hcall, by rw [hafter]; exact hrest, hothers⟩

/-- A read of an open file always returns. -/
theorem Yields.read {rest : List (List UInt8)} (h : Yields b size rest (k.table fd))
    (hlo : firstRegFile ≤ fd) (hhi : fd < lastRegFile) (buf : Int → UInt8) :
    ∃ r k', performCall b (.read fd buf size) k = some (r, k') := by
  cases rest with
  | nil =>
      obtain ⟨k', hcall, -⟩ := h.read_end hlo hhi buf
      exact ⟨_, k', hcall⟩
  | cons piece rest =>
      obtain ⟨-, -, k', hcall, -⟩ := h.read_piece hlo hhi buf
      exact ⟨_, k', hcall⟩

theorem IoOpen.of_other {k' : Kernel} (h : IoOpen k.table) (hlo : firstRegFile ≤ fd)
    (hothers : ∀ j ≠ fd, k'.table j = k.table j) : IoOpen k'.table := by
  simp only [firstRegFile] at hlo
  exact ⟨(hothers 0 (by omega)).trans h.input, (hothers 1 (by omega)).trans h.output⟩

end Reads

end Ece391Kernel
