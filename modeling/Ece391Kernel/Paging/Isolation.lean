import Ece391Kernel.Paging.Invariant
import Ece391Kernel.Screen.Frame
import Ece391Kernel.FileSystem.Image

/-!
# What a user program can reach

A run of the paging code after boot is a list of operations, each of which maps a
process or displays a terminal. Whatever the list, a user program reaches the
4MB page of the process that was mapped last and the seven video pages, and
nothing else.
-/

namespace Ece391Kernel

/-- The operations that patch the tables after boot. -/
inductive PagingOp
  | map (p : Fin 6)
  | switch (t : Fin 3)

def PagingOp.apply (b : Boot) : PagingOp → Kernel → Kernel
  | .map p, k => { k with paging := processMap p k.paging }
  | .switch t, k => switchActiveTerminal b t k

/-- The state after the operations, in this order. -/
def runPagingOps (b : Boot) (ops : List PagingOp) (k : Kernel) : Kernel :=
  ops.foldl (fun k op => op.apply b k) k

/-- The process that the operations map last. -/
def lastMapped (ops : List PagingOp) : Option (Fin 6) :=
  ops.foldl (fun last op => match op with
    | .map p => some p
    | .switch _ => last) none

/-- The tables are well formed, and the process page is that of `last`. -/
def Mapped (b : Boot) (pt : PageTables) (last : Option (Fin 6)) : Prop :=
  VideoTables b pt ∧ ∀ p : Fin 6, last = some p → pt.pageDirectory virPro = processEntry p

theorem boot_mapped (b : Boot) (k : Kernel) : Mapped b (boot b k).paging none := by
  rw [boot_paging]
  exact ⟨(initPage_videoTables b k.paging).terminalInitTables, by simp⟩

/-- One operation, with the process it maps. -/
theorem PagingOp.apply_mapped {b : Boot} {k : Kernel} {last : Option (Fin 6)}
    (h : Mapped b k.paging last) (op : PagingOp) :
    Mapped b (op.apply b k).paging (match op with
      | .map p => some p
      | .switch _ => last) := by
  obtain ⟨htables, hlast⟩ := h
  cases op with
  | map p =>
      refine ⟨htables.processMap p, ?_⟩
      intro q hq
      have hpq : p = q := Option.some.inj hq
      subst hpq
      exact processMap_pageDirectory_virPro k.paging p.isLt
  | switch t =>
      simp only [PagingOp.apply, switchActiveTerminal_paging]
      exact ⟨htables.switchTables k.displayedTerminal t, hlast⟩

theorem runPagingOps_mapped {b : Boot} (ops : List PagingOp) {k : Kernel}
    {last : Option (Fin 6)} (h : Mapped b k.paging last) :
    Mapped b (runPagingOps b ops k).paging
      (ops.foldl (fun last op => match op with
        | .map p => some p
        | .switch _ => last) last) := by
  induction ops generalizing k last with
  | nil => exact h
  | cons op ops ih =>
      unfold runPagingOps
      rw [List.foldl_cons, List.foldl_cons]
      exact ih (op.apply_mapped h)

/-- An address of the page that `process_map` maps at 128MB. -/
def InProcessPage (v : Nat) : Prop := 0x8000000 ≤ v ∧ v < 0x8400000

/-- An address of the seven video pages. -/
def InVideoPages (v : Nat) : Prop := farPage ≤ v ∧ v < farPage + fishBound * fourKB

instance (v : Nat) : Decidable (InProcessPage v) := inferInstanceAs (Decidable (_ ∧ _))

instance (v : Nat) : Decidable (InVideoPages v) := inferInstanceAs (Decidable (_ ∧ _))

/-- What a user program reaches through tables whose process page is that of `p`. -/
theorem Mapped.translate_user {b : Boot} {pt : PageTables} {p : Fin 6}
    (h : Mapped b pt (some p)) {v : Nat} (hv : v < 2 ^ 32) :
    (InProcessPage v ∧
        translate b pt true v = some (eightMB + fourMB * p + (v - 0x8000000))) ∨
      (InVideoPages v ∧
        ∃ pa, translate b pt true v = some pa ∧ 0xB8000 ≤ pa ∧ pa < 0xBF000) ∨
      (¬InProcessPage v ∧ ¬InVideoPages v ∧ translate b pt true v = none) := by
  obtain ⟨htables, hlast⟩ := h
  by_cases hpro : v / fourMB = virPro
  · have hpage : InProcessPage v := by
      simp only [fourMB, virPro] at hpro
      unfold InProcessPage
      omega
    have hoff : v % fourMB = v - 0x8000000 := by
      simp only [fourMB, virPro] at hpro ⊢
      omega
    left
    rw [translate_process (hlast p rfl) hpro, hoff]
    exact ⟨hpage, rfl⟩
  · have hnpage : ¬InProcessPage v := by
      simp only [fourMB, virPro] at hpro
      unfold InProcessPage
      omega
    by_cases hvid : v / fourMB = userVidPage
    · rcases htables.translate_user_video hvid with ⟨pa, htr, hlo, hhi, hin⟩ | ⟨htr, hout⟩
      · simp only [vidAddr, fishBound, fourKB] at hlo hhi
        exact Or.inr (Or.inl ⟨hin, pa, htr, by omega, by omega⟩)
      · exact Or.inr (Or.inr ⟨hnpage, hout, htr⟩)
    · have hnvid : ¬InVideoPages v := by
        simp only [fourMB, userVidPage] at hvid
        unfold InVideoPages
        simp only [farPage, fishBound, fourKB]
        omega
      exact Or.inr (Or.inr ⟨hnpage, hnvid, htables.translate_user_other hv hpro hvid⟩)

/-- A user program reaches the frame of the process that was mapped last, at the
process page, and video memory, at the seven video pages; so it reaches neither
the memory of the kernel nor the frame of another process. The kernel keeps its
identity mapping. -/
theorem user_reach_after_paging_ops (b : Boot) (k : Kernel) (ops : List PagingOp)
    (p : Fin 6) (hp : lastMapped ops = some p) :
    let pt := (runPagingOps b ops (boot b k)).paging
    (∀ v < 2 ^ 32,
      ((translate b pt true v).isSome ↔ InProcessPage v ∨ InVideoPages v) ∧
      (InProcessPage v →
        translate b pt true v = some (eightMB + fourMB * p + (v - 0x8000000))) ∧
      (InVideoPages v → ∃ pa, translate b pt true v = some pa ∧ 0xB8000 ≤ pa ∧ pa < 0xBF000) ∧
      ∀ pa, translate b pt true v = some pa →
        ¬(fourMB ≤ pa ∧ pa < eightMB) ∧
        ∀ q : Fin 6, q ≠ p → ¬(eightMB + fourMB * q ≤ pa ∧ pa < eightMB + fourMB * (q + 1))) ∧
    (∀ v, fourMB ≤ v → v < eightMB → translate b pt false v = some v) ∧
    (∀ v, 0xB8000 ≤ v → v < 0xB9000 → translate b pt false v = some v) := by
  intro pt
  have hmapped : Mapped b pt (some p) := by
    rw [← hp]
    exact runPagingOps_mapped ops (boot_mapped b k)
  refine ⟨?_, fun v hlo hhi => hmapped.1.translate_kernel hlo hhi, fun v hlo hhi =>
    hmapped.1.translate_video (by simpa using hlo) (by simpa using hhi)⟩
  intro v hv
  have hp6 : p.val < 6 := p.isLt
  rcases hmapped.translate_user hv with ⟨hin, htr⟩ | ⟨hin, pa, htr, hlo, hhi⟩ | ⟨hno, hno', htr⟩
  · -- the process page, which is not a video page
    have hnot : ¬InVideoPages v := by
      unfold InProcessPage at hin
      unfold InVideoPages
      simp only [farPage, fishBound, fourKB]
      omega
    refine ⟨by simp [htr, hin], fun _ => htr, fun h => absurd h hnot, ?_⟩
    intro pa hpa
    have hpa' : eightMB + fourMB * p + (v - 0x8000000) = pa := by
      rw [htr] at hpa
      exact Option.some.inj hpa
    unfold InProcessPage at hin
    simp only [eightMB, fourMB] at hpa' ⊢
    refine ⟨by omega, ?_⟩
    intro q hq hframe
    have hne : q.val ≠ p.val := fun h => hq (Fin.ext h)
    omega
  · have hnot : ¬InProcessPage v := by
      unfold InVideoPages at hin
      simp only [farPage, fishBound, fourKB] at hin
      unfold InProcessPage
      omega
    refine ⟨by simp [htr, hin], fun h => absurd h hnot, fun _ => ⟨pa, htr, hlo, hhi⟩, ?_⟩
    intro pa' hpa
    have hpa' : pa = pa' := by
      rw [htr] at hpa
      exact Option.some.inj hpa
    subst hpa'
    simp only [eightMB, fourMB]
    exact ⟨by omega, fun q _ hframe => by omega⟩
  · refine ⟨by simp [htr, hno, hno'], fun h => absurd h hno, fun h => absurd h hno', ?_⟩
    intro pa hpa
    rw [htr] at hpa
    exact absurd hpa (by simp)

/-- Process 2 is mapped and terminal 1 displayed. -/
theorem user_reach_after_map_two :
    translate smallBoot
      (runPagingOps smallBoot [.map 2, .switch 1] (boot smallBoot blankKernel)).paging true
      0x8048000 = some 0x1048000 := by
  obtain ⟨huser, -, -⟩ :=
    user_reach_after_paging_ops smallBoot blankKernel [.map 2, .switch 1] 2 rfl
  obtain ⟨-, hpage, -⟩ := huser 0x8048000 (by decide)
  exact hpage (by decide)

end Ece391Kernel
