import Ece391Kernel.Screen.Vidmap
import Ece391Kernel.Paging.Isolation

/-!
# The pointer of `sys_vidmap`

`sys_vidmap` compares its pointer with the bounds of the user page and then stores an
address of four bytes through it. Both comparisons are strict, so the first place of the
page is refused, and the last three are accepted although the address does not fit behind
them.
-/

namespace Ece391Kernel

/-! ## The store -/

/-- The bytes of an address as the processor stores them. -/
def pointerBytes (addr : Nat) : List UInt8 :=
  (List.range 4).map fun i => UInt8.ofNat (addr / 256 ^ i)

/-- `sys_vidmap`, with its store; `none` is a page fault. -/
def callVidmap (b : Boot) (screenStart : Nat) (k : Kernel) : Option (Int × Kernel) :=
  match sysVidmap screenStart k with
  | (ret, none) => some (ret, k)
  | (ret, some addr) => (storeBytes b screenStart (pointerBytes addr) k).map fun k' => (ret, k')

theorem sysVidmap_accepted {screenStart : Nat} (k : Kernel)
    (h : virStart < screenStart ∧ screenStart < virEnd) :
    sysVidmap screenStart k = (0, some (vidmapAddr k.executingTerminal)) := by
  unfold sysVidmap
  rw [if_neg (by omega), if_neg (not_not.mpr h)]
  rfl

theorem sysVidmap_refused {screenStart : Nat} (k : Kernel)
    (h : ¬(virStart < screenStart ∧ screenStart < virEnd)) :
    sysVidmap screenStart k = (-1, none) := by
  unfold sysVidmap
  rw [if_pos h, ite_self]

theorem sysVidmap_zero_iff (screenStart : Nat) (k : Kernel) :
    (sysVidmap screenStart k).1 = 0 ↔ virStart < screenStart ∧ screenStart < virEnd := by
  by_cases h : virStart < screenStart ∧ screenStart < virEnd
  · rw [sysVidmap_accepted k h]
    exact iff_of_true rfl h
  · rw [sysVidmap_refused k h]
    exact iff_of_false (by decide) h

/-! ## The states that switches reach -/

/-- A state that mapping processes and switching terminals reach after boot, while any
terminal executes. -/
def FromSwitches (b : Boot) (k : Kernel) : Prop :=
  ∃ k₀ ops t, k = (runPagingOps b ops (boot b k₀)).onTerminal t

theorem PagingOp.apply_vidmapReady {b : Boot} {u : Fin 3} {k : Kernel} (h : VidmapReady b u k)
    (op : PagingOp) : VidmapReady b u (op.apply b k) := by
  cases op with
  | map p => exact ⟨h.tables.processMap p, h.entry⟩
  | switch t =>
      refine ⟨?_, h.entry.switchActiveTerminal t⟩
      unfold PagingOp.apply
      simp only [switchActiveTerminal_paging]
      exact h.tables.switchTables k.displayedTerminal t

theorem FromSwitches.vidmapReady {b : Boot} {k : Kernel} (h : FromSwitches b k) (u : Fin 3) :
    VidmapReady b u k := by
  obtain ⟨k₀, ops, t, rfl⟩ := h
  have hboot : VidmapReady b u (boot b k₀) :=
    ⟨boot_videoTables b k₀, (boot_ownsScreen b k₀).vidmap u⟩
  have hrun : VidmapReady b u (runPagingOps b ops (boot b k₀)) := by
    unfold runPagingOps
    exact List.foldlRecOn ops _ hboot fun k hk op _ => op.apply_vidmapReady hk
  exact ⟨hrun.tables, hrun.entry⟩

/-! ## The call -/

/-- A call for the process `p`: it accepts the pointer if and only if the four bytes behind
it are in the user page, and then stores there the address of the video page of the
executing terminal, which a program can access and which is video memory if and only if
this terminal is displayed; otherwise it returns -1 and nothing changes. -/
structure VidmapSafe (b : Boot) (p : Nat) (k : Kernel) (screenStart : Nat) : Prop where
  accepts : (sysVidmap screenStart k).1 = 0 ↔ virStart ≤ screenStart ∧ screenStart + 4 ≤ virEnd
  stores : (sysVidmap screenStart k).1 = 0 → callVidmap b screenStart k = some (0, k.withMem
    (storeAt k.mem (frameAddr p + (screenStart - virStart))
      (pointerBytes (vidmapAddr k.executingTerminal))))
  video : (sysVidmap screenStart k).1 = 0 → FromSwitches b k → ∀ off < fourKB, ∃ pa,
    translate b k.paging true (vidmapAddr k.executingTerminal + off) = some pa ∧
      (pa = vidAddr + off ↔ k.executingTerminal = k.displayedTerminal)
  refuses : (sysVidmap screenStart k).1 ≠ 0 → callVidmap b screenStart k = some (-1, k)

theorem callVidmap_stores {b : Boot} {p : Nat} {k : Kernel}
    (hmapped : k.paging.pageDirectory virPro = processEntry p) {screenStart : Nat}
    (hlow : virStart < screenStart) (hhigh : screenStart + 4 ≤ virEnd) :
    callVidmap b screenStart k = some (0, k.withMem
      (storeAt k.mem (frameAddr p + (screenStart - virStart))
        (pointerBytes (vidmapAddr k.executingTerminal)))) := by
  have hsplit : 0x8000000 + (screenStart - virStart) = screenStart := by
    simp only [virStart] at hlow ⊢
    omega
  have hfit : screenStart - virStart +
      (pointerBytes (vidmapAddr k.executingTerminal)).length ≤ fourMB := by
    have hlen : (pointerBytes (vidmapAddr k.executingTerminal)).length = 4 := rfl
    simp only [hlen, virStart, virEnd, fourMB] at hlow hhigh ⊢
    omega
  have hstored := storeBytes_frame (b := b) (screenStart - virStart) hmapped hfit
  rw [hsplit] at hstored
  unfold callVidmap
  rw [sysVidmap_accepted k ⟨hlow, by omega⟩]
  simp only [hstored]
  rfl

/-- The page of the executing terminal is accessible, and it is video memory exactly while
this terminal is displayed. -/
theorem VidmapReady.translate_iff {b : Boot} {k : Kernel} {t : Fin 3} (h : VidmapReady b t k)
    {off : Nat} (hoff : off < fourKB) : ∃ pa, translate b k.paging true (vidmapAddr t + off) =
      some pa ∧ (pa = vidAddr + off ↔ t = k.displayedTerminal) := by
  refine ⟨_, h.entry.translate h.tables hoff, ?_⟩
  unfold userPhys
  split
  · rename_i hshown
    exact iff_of_true rfl hshown
  · rename_i hback
    refine iff_of_false (fun heq => ?_) hback
    unfold backPhys at heq
    simp only [vidAddr, indexSeg, fourKB] at heq
    omega

/-- Process 2 is mapped, and terminal 1 is displayed. -/
theorem smallBoot_map_two : (runPagingOps smallBoot [.map 2, .switch 1]
    (boot smallBoot blankKernel)).paging.pageDirectory virPro = processEntry (2 : Fin 6) :=
  (runPagingOps_mapped [.map 2, .switch 1] (boot_mapped smallBoot blankKernel)).2 2 rfl

end Ece391Kernel
