import Ece391Kernel.Process.Header
import Ece391Kernel.Process.Tree

/-!
# Programs that are too long for their page

The table of an inode has room for 1023 data blocks, and the page of a process for 952
behind `VIRTUALADDR`. `sys_execute` loads a program of any length, after it has mapped the
new process. So a file that the format allows, but that does not fit, neither runs nor is
refused.
-/

namespace Ece391Kernel

/-! ## Where the load stores -/

/-- The addresses that the second `read_data` stores to, in order. -/
def loadAddrs (b : Boot) (inode : Nat) : List Nat :=
  List.range' virtualAddr (programBytes b inode).length

/-- One store of the kernel; `none` is a page fault. -/
def storeByte (b : Boot) (k : Kernel) (v : Nat) (c : UInt8) : Option Kernel :=
  (translate b k.paging false v).map fun pa => k.withMem (Function.update k.mem pa c)

theorem storeBytes_eq_foldlM (b : Boot) (v : Nat) (bytes : List UInt8) (k : Kernel) :
    storeBytes b v bytes k =
      ((List.range' v bytes.length).zip bytes).foldlM (fun k s => storeByte b k s.1 s.2) k := by
  induction bytes generalizing v k with
  | nil => rfl
  | cons c cs ih =>
      rw [List.length_cons, List.range'_succ, List.zip_cons_cons, List.foldlM_cons]
      unfold storeBytes storeByte
      cases translate b k.paging false v with
      | none => rfl
      | some pa => exact ih (v + 1) _

/-- The load stores the bytes of the program to these addresses. -/
theorem loadProgram_eq_foldlM (b : Boot) (inode : Nat) (k : Kernel) :
    loadProgram b inode k = ((loadAddrs b inode).zip (programBytes b inode)).foldlM
      (fun k s => storeByte b k s.1 s.2) k :=
  storeBytes_eq_foldlM b virtualAddr (programBytes b inode) k

theorem loadAddrs_within_iff (b : Boot) (inode : Nat) :
    (∀ v ∈ loadAddrs b inode, virStart ≤ v ∧ v < virEnd) ↔ FitsFrame (programBytes b inode) := by
  unfold loadAddrs FitsFrame
  simp only [List.mem_range'_1, virtualAddr, virStart, virEnd, loadOffset, fourMB]
  constructor
  · intro h
    by_contra hlong
    have hlast := h (0x8048000 + ((programBytes b inode).length - 1)) (by omega)
    omega
  · intro h v hv
    omega

theorem storeAt_add {m : Nat → UInt8} {pa i : Nat} {bytes : List UInt8} (hi : i < bytes.length) :
    storeAt m pa bytes (pa + i) = bytes.getD i 0 := by
  unfold storeAt
  rw [if_pos (by omega), Nat.add_sub_cancel_left]

/-- What follows the load leaves memory and the mapping alone. -/
theorem launched_mem (n esp ebp : Nat) (k : Kernel) :
    (setTss n (attachPcb n esp ebp k)).mem = k.mem := by
  rw [setTss_mem, attachPcb_eq]
  rfl

theorem launched_paging (n esp ebp : Nat) (k : Kernel) :
    (setTss n (attachPcb n esp ebp k)).paging = k.paging := by
  rw [setTss_paging, attachPcb_eq]
  rfl

/-! ## A call for a program -/

/-- The new process has the file in its memory, and the load has stored nothing outside
the page of the process. -/
structure LoadedIn (b : Boot) (idx : Nat) (k k' : Kernel) : Prop where
  holds : ∀ i < (direntryContent b idx).length,
    userRead b k' (virtualAddr + i) = some ((direntryContent b idx).getD i 0)
  within : ∀ v ∈ loadAddrs b (direntryInode b idx), virStart ≤ v ∧ v < virEnd
  frame : ∃ n, freeSlot k = some n ∧
    ∀ pa, pa < frameAddr n ∨ frameAddr n + fourMB ≤ pa → k'.mem pa = k.mem pa

/-- The call starts the program, loaded into its page; or it returns before it has mapped
or loaded anything. -/
def LoadsOrRefuses (b : Boot) (a : ExecArgs) (idx : Nat) (k : Kernel) : Prop :=
  (∃ k', sysExecute b a k = .returned k' ∧ k'.paging = k.paging ∧ k'.mem = k.mem) ∨
    ∃ entry k', sysExecute b a k = .launched entry k' ∧ LoadedIn b idx k k'

/-- The file of a well-formed image that has a header, and the command that names it. -/
structure FindsProgram (b : Boot) (a : ExecArgs) (idx : Nat) : Prop where
  image : WellFormedImage b
  command : ∃ command, a.command = some command ∧
    findDirentry b (commandName command) = some idx
  inode : direntryInode b idx < 64
  header : magic <+: direntryContent b idx

namespace FindsProgram

variable {b : Boot} {a : ExecArgs} {idx : Nat} (h : FindsProgram b a idx) {k : Kernel}

include h

theorem programBytes_eq : programBytes b (direntryInode b idx) = direntryContent b idx :=
  h.image.programBytes_eq h.inode

theorem fits_iff : FitsFrame (programBytes b (direntryInode b idx)) ↔
    (direntryContent b idx).length ≤ 0x3B8000 := by
  rw [h.programBytes_eq]
  unfold FitsFrame
  simp only [loadOffset, fourMB]
  omega

theorem hasMagic (stack : Int → UInt8) : hasMagic (checkBuffer b stack idx) = true := by
  have hcount : inodeCount b = 64 := h.image.inodes
  have hinode := h.inode
  exact hasMagic_of_magic (by omega) (by omega) stack h.header

theorem sysExecute_eq (hnum : k.numProcessExecuting ≠ 6) :
    ∃ command, sysExecute b a k = launch b a idx (parseCommand command k) := by
  obtain ⟨command, hcommand, hidx⟩ := h.command
  exact ⟨command, sysExecute_checked hnum hcommand hidx (h.hasMagic a.stack)⟩

/-- A call that does as it should has a slot for the process, and room for the program. -/
theorem of_loadsOrRefuses (hnum : k.numProcessExecuting ≠ 6) (hloads : LoadsOrRefuses b a idx k) :
    (freeSlot k).isSome ∧ (direntryContent b idx).length ≤ 0x3B8000 := by
  obtain ⟨command, hcall⟩ := h.sysExecute_eq hnum
  rcases hloads with ⟨k', hret, -⟩ | ⟨entry, k', -, hloaded⟩
  · exact absurd (hcall.symm.trans hret) (launch_ne_returned _ _ _ _ _)
  · obtain ⟨n, hslot, -⟩ := hloaded.frame
    rw [hslot]
    exact ⟨rfl, h.fits_iff.mp ((loadAddrs_within_iff b _).mp hloaded.within)⟩

/-- And that is enough. -/
theorem loadsOrRefuses (hnum : k.numProcessExecuting ≠ 6) {n : Nat} (hslot : freeSlot k = some n)
    (hlen : (direntryContent b idx).length ≤ 0x3B8000) : LoadsOrRefuses b a idx k := by
  obtain ⟨command, hcall⟩ := h.sysExecute_eq hnum
  obtain ⟨slot, rfl, -⟩ := freeSlot_some hslot
  have hfit := h.fits_iff.mpr hlen
  unfold launch at hcall
  rw [freeSlot_parseCommand, hslot] at hcall
  simp only at hcall
  have hmem : (mapProcess slot (countProcess (claimSlot slot (parseCommand command k)))).mem =
      k.mem := rfl
  have hmapped : (mapProcess slot (countProcess (claimSlot slot
      (parseCommand command k)))).paging.pageDirectory virPro = processEntry slot :=
    processMap_pageDirectory_virPro _ slot.isLt
  generalize mapProcess slot (countProcess (claimSlot slot (parseCommand command k))) = k₁ at *
  have hload := loadProgram_frame (direntryInode b idx) hmapped hfit
  rw [h.programBytes_eq] at hload
  rw [hload] at hcall
  refine Or.inr ⟨_, _, hcall, ?_, (loadAddrs_within_iff b _).mpr hfit, slot, hslot, ?_⟩
  · -- the page of the process is its frame, and the file is stored there
    intro i hi
    have hdir : (virtualAddr + i) / fourMB = virPro := by
      simp only [virtualAddr, fourMB, virPro]
      omega
    have hmod : (virtualAddr + i) % fourMB = loadOffset + i := by
      simp only [virtualAddr, fourMB, loadOffset]
      omega
    unfold userRead
    rw [launched_paging, launched_mem, Kernel.withMem_paging, translate_process hmapped hdir, hmod]
    simp only [Option.map_some, Kernel.withMem_mem]
    rw [← frameAddr, ← Nat.add_assoc, storeAt_add hi]
  · intro pa hpa
    have hroom : frameAddr slot + loadOffset + (direntryContent b idx).length ≤
        frameAddr slot + fourMB := by
      simp only [loadOffset, fourMB]
      omega
    have hout : pa < frameAddr slot + loadOffset ∨
        frameAddr slot + loadOffset + (direntryContent b idx).length ≤ pa := by omega
    rw [launched_mem, Kernel.withMem_mem, storeAt_outside _ hout, hmem]

end FindsProgram

theorem smallBoot_findsProgram : FindsProgram smallBoot (smallArgs shellCommand) 0 where
  image := smallBoot_wellFormed
  command := ⟨shellCommand, rfl, by decide +kernel⟩
  inode := by decide +kernel
  header := by decide +kernel

/-- An image whose one file, `shell`, has as many data blocks as an inode has room for, in
their order. Its header is that of the programs of the small image. -/
def longBoot : Boot :=
  { smallBoot with
    image := fun a =>
      -- `data_block_num` of the first inode
      if inodeAddr 0 + 4 ≤ a ∧ a < inodeAddr 1 then
        UInt8.ofNat ((a - (inodeAddr 0 + 4)) / 4 / 256 ^ ((a - (inodeAddr 0 + 4)) % 4))
      else
        imageOf
          [ (0, [1, 0, 0, 0, 64, 0, 0, 0, 0xFF, 3, 0, 0]),
            (direntryAddr 0, [0x73, 0x68, 0x65, 0x6C, 0x6C]),
            (direntryAddr 0 + 32, [2, 0, 0, 0, 0, 0, 0, 0]),
            (inodeAddr 0, [0, 0xF0, 0x3F, 0]),
            (65 * 4096, smallProgram 1) ] a }

theorem longBoot_dataBlockNum {j : Nat} (hj : j < dataBNum) : dataBlockNum longBoot 0 j = j := by
  have hbyte : ∀ r < 4, longBoot.byte (inodeAddr 0 + 4 + 4 * j + r) =
      UInt8.ofNat (j / 256 ^ r) := by
    intro r hr
    have hmod : (inodeAddr 0 + 4 + 4 * j + r) % 2 ^ 32 = inodeAddr 0 + 4 + 4 * j + r := by
      simp only [inodeAddr, blockSize, dataBNum] at hj ⊢
      omega
    have hin : inodeAddr 0 + 4 ≤ inodeAddr 0 + 4 + 4 * j + r ∧
        inodeAddr 0 + 4 + 4 * j + r < inodeAddr 1 := by
      simp only [inodeAddr, blockSize, dataBNum] at hj ⊢
      omega
    have hsub : inodeAddr 0 + 4 + 4 * j + r - (inodeAddr 0 + 4) = 4 * j + r := by omega
    have hdiv : (4 * j + r) / 4 = j := by omega
    have hrest : (4 * j + r) % 4 = r := by omega
    unfold Boot.byte
    rw [hmod]
    unfold longBoot
    simp only
    rw [if_pos hin, hsub, hdiv, hrest]
  have h₀ := hbyte 0 (by decide)
  have h₁ := hbyte 1 (by decide)
  have h₂ := hbyte 2 (by decide)
  have h₃ := hbyte 3 (by decide)
  rw [Nat.add_zero] at h₀
  unfold dataBlockNum Boot.word
  rw [h₀, h₁, h₂, h₃]
  simp only [UInt8.toNat_ofNat', dataBNum] at hj ⊢
  omega

theorem longBoot_blockCount : blockCount longBoot 0 = dataBNum ∧
    ∀ i < 64, i ≠ 0 → blockCount longBoot i = 0 := by
  decide +kernel

theorem longBoot_wellFormed : WellFormedImage longBoot where
  inodes := by decide
  length_le := by decide +kernel
  block_lt := by
    intro i hi j hj
    obtain ⟨hfirst, hrest⟩ := longBoot_blockCount
    have hdata : dataCount longBoot = dataBNum := by decide +kernel
    by_cases hzero : i = 0
    · rw [hzero, hfirst] at hj
      rw [hzero, longBoot_dataBlockNum hj, hdata]
      exact hj
    · rw [hrest i hi hzero] at hj
      exact absurd hj (Nat.not_lt_zero j)
  block_inj := by
    intro i hi j hj j' hj' heq
    obtain ⟨hfirst, hrest⟩ := longBoot_blockCount
    by_cases hzero : i = 0
    · rw [hzero, hfirst] at hj hj'
      rwa [hzero, longBoot_dataBlockNum hj, longBoot_dataBlockNum hj'] at heq
    · rw [hrest i hi hzero] at hj
      exact absurd hj (Nat.not_lt_zero j)

theorem longBoot_length : (direntryContent longBoot 0).length = 1023 * 4096 := by
  unfold direntryContent
  rw [fileContent_length]
  decide +kernel

theorem longBoot_header : magic <+: direntryContent longBoot 0 := by
  have hcount : direntryInode longBoot 0 ≤ inodeCount longBoot := by decide +kernel
  have hinode : direntryInode longBoot 0 ≤ 63 := by decide +kernel
  have hmagic : hasMagic (checkBuffer longBoot (fun _ => 0) 0) = true := by decide +kernel
  rcases prefix_of_hasMagic hcount hinode _ hmagic with h | h
  · exact h
  · have hle := h.length_le
    rw [longBoot_length] at hle
    exact absurd hle (by decide)

end Ece391Kernel
