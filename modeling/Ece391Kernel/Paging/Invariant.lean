import Ece391Kernel.Paging.Tables
import Mathlib.Tactic.IntervalCases
import Mathlib.Tactic.FinCases

/-!
# The invariant of the page tables

`VideoTables` is what the tables satisfy from `INIT_PAGE` on, whatever processes
are mapped and whatever terminals are displayed: the identity mapping of the
kernel and of the video page, the save pages, and vidmap entries that hold video
pages. Each kind of access is translated once, from the invariant.
-/

namespace Ece391Kernel

/-- The tables outside the entry of the process page. -/
structure VideoTables (b : Boot) (pt : PageTables) : Prop where
  dir_zero : pt.pageDirectory 0 = b.firstPageTable ||| wp
  dir_one : pt.pageDirectory 1 = fourMB ||| kernelSpec
  dir_video : pt.pageDirectory userVidPage = b.userVideoPageTable ||| (wp ||| userFlag)
  dir_other : ∀ i < kbSize, i ≠ 0 → i ≠ 1 → i ≠ virPro → i ≠ userVidPage →
    pt.pageDirectory i = notPresent
  first_video : pt.firstPageTable videoIndex = vidAddr ||| (present ||| wp)
  first_other : ∀ i < kbSize, i ≠ videoIndex → pt.firstPageTable i = i * fourKB ||| present
  user_save : ∀ n < 4, pt.userVideoPageTable (videoIndex + n) =
    (vidAddr + n * fourKB) ||| (wp ||| userFlag)
  user_vidmap : ∀ t : Fin 3, ∃ n < fishBound,
    pt.userVideoPageTable (videoIndex + indexSeg + t) =
      (vidAddr + n * fourKB) ||| (wp ||| userFlag)
  user_other : ∀ i < kbSize, i < videoIndex ∨ videoIndex + fishBound ≤ i →
    pt.userVideoPageTable i = i * fourKB ||| present

/-- The page directory entry that `process_map` writes for process `p`. -/
def processEntry (p : Nat) : Nat := (eightMB + fourMB * p) ||| (kernelSpec ||| userFlag)

/-! ## The writers of the tables -/

theorem processMap_pageDirectory_virPro (pt : PageTables) {p : Nat} (hp : p < maxNumProcess) :
    (processMap p pt).pageDirectory virPro = processEntry p := by
  have hlt : eightMB + fourMB * p < 2 ^ 32 := by simp at hp ⊢; omega
  unfold processMap processEntry
  simp only [Function.update_self, Nat.mod_eq_of_lt hlt, entry_or_or]

/-- The pages that `INIT_PAGE` gives to the programs of the terminals. -/
theorem initPage_vidmap (b : Boot) (pt : PageTables) (t : Fin 3) :
    (initPage b pt).userVideoPageTable (videoIndex + indexSeg + t) =
      (vidAddr + (indexSeg + t) * fourKB) ||| (wp ||| userFlag) := by
  have ht : t.val < 3 := t.isLt
  have hsub : 184 + 4 + t.val - 184 = 4 + t.val := by omega
  simp only [initPage, videoIndex, indexSeg, fishBound]
  rw [setEntries_of_mem _ _ ⟨by omega, by omega⟩, hsub, entry_or_or]

theorem initPage_videoTables (b : Boot) (pt : PageTables) : VideoTables b (initPage b pt) where
  dir_zero := by simp [initPage]
  dir_one := by simp [initPage]
  dir_video := by simp [initPage, entry_or_or]
  dir_other := by
    intro i hi h0 h1 hpro hvid
    simp only [kbSize] at hi
    simp only [virPro, userVidPage] at hpro hvid
    simp [initPage, setEntries, h0, h1, hvid, hi]
  first_video := by
    simp [initPage, setEntries, entry_or_or]
  first_other := by
    intro i hi hne
    simp only [kbSize] at hi
    simp only [videoIndex] at hne
    simp [initPage, setEntries, hne, hi]
  user_save := by
    intro n hn
    interval_cases n <;> simp [initPage, setEntries, entry_or_or]
  user_vidmap := fun t => ⟨indexSeg + t, by simp; omega, initPage_vidmap b pt t⟩
  user_other := by
    intro i hi hout
    simp only [kbSize] at hi
    simp only [videoIndex, fishBound] at hout
    have hne : i ≠ 184 := by omega
    simp only [initPage, videoIndex, fishBound]
    rw [setEntries_of_not_mem _ _ (by omega), Function.update_of_ne hne,
      setEntries_of_mem _ _ ⟨by omega, by simpa using hi⟩]

theorem VideoTables.processMap {b : Boot} {pt : PageTables} (h : VideoTables b pt) (p : Nat) :
    VideoTables b (processMap p pt) where
  dir_zero := by simp [Ece391Kernel.processMap, h.dir_zero]
  dir_one := by simp [Ece391Kernel.processMap, h.dir_one]
  dir_video := by simpa [Ece391Kernel.processMap] using h.dir_video
  dir_other := by
    intro i hi h0 h1 hpro hvid
    simp only [Ece391Kernel.processMap]
    rw [Function.update_of_ne hpro]
    exact h.dir_other i hi h0 h1 hpro hvid
  first_video := h.first_video
  first_other := h.first_other
  user_save := h.user_save
  user_vidmap := h.user_vidmap
  user_other := h.user_other

/-- Patching an entry of the three vidmap pages with a video page. -/
theorem VideoTables.update_vidmap {b : Boot} {pt : PageTables} (h : VideoTables b pt)
    (t : Fin 3) {n : Nat} (hn : n < fishBound) :
    VideoTables b { pt with
      userVideoPageTable := Function.update pt.userVideoPageTable (videoIndex + indexSeg + t)
        ((vidAddr + n * fourKB) ||| (wp ||| userFlag)) } where
  dir_zero := h.dir_zero
  dir_one := h.dir_one
  dir_video := h.dir_video
  dir_other := h.dir_other
  first_video := h.first_video
  first_other := h.first_other
  user_save := by
    intro m hm
    have hne : videoIndex + m ≠ videoIndex + indexSeg + t := by simp; omega
    exact (Function.update_of_ne hne _ _).trans (h.user_save m hm)
  user_vidmap := by
    intro u
    by_cases hu : u = t
    · exact ⟨n, hn, by rw [hu]; exact Function.update_self _ _ _⟩
    · have hne : videoIndex + indexSeg + u ≠ videoIndex + indexSeg + t := by
        simp only [ne_eq, Nat.add_left_cancel_iff]
        exact fun heq => hu (Fin.ext heq)
      obtain ⟨m, hm, hmap⟩ := h.user_vidmap u
      exact ⟨m, hm, (Function.update_of_ne hne _ _).trans hmap⟩
  user_other := by
    intro i hi hout
    have hne : i ≠ videoIndex + indexSeg + t := by
      have ht : t.val < 3 := t.isLt
      simp at hout ⊢
      omega
    exact (Function.update_of_ne hne _ _).trans (h.user_other i hi hout)

theorem VideoTables.terminalInitTables {b : Boot} {pt : PageTables} (h : VideoTables b pt) :
    VideoTables b (terminalInitTables pt) := by
  have hswap : vidAddr ||| userFlag ||| wp = (vidAddr + 0 * fourKB) ||| (wp ||| userFlag) := by
    decide
  have hzero : videoIndex + indexSeg = videoIndex + indexSeg + ((0 : Fin 3) : Nat) := by simp
  unfold Ece391Kernel.terminalInitTables
  rw [hswap, hzero]
  exact h.update_vidmap 0 (by simp)

theorem VideoTables.switchTables {b : Boot} {pt : PageTables} (h : VideoTables b pt)
    (displayed next : Fin 3) : VideoTables b (switchTables displayed next pt) := by
  have hdisplayed := h.update_vidmap displayed (n := indexSeg + displayed) (by simp; omega)
  have hnext := hdisplayed.update_vidmap next (n := 0) (by simp)
  have hd : videoIndex + displayed + indexSeg = videoIndex + indexSeg + displayed := by omega
  have hn : videoIndex + next + indexSeg = videoIndex + indexSeg + next := by omega
  unfold Ece391Kernel.switchTables
  simp only [hd, hn, entry_or_or]
  simpa using hnext

/-! ## Accesses -/

section Accesses

variable {b : Boot} {pt : PageTables} (h : VideoTables b pt)
include h

/-- The kernel sees its own 4MB at their physical addresses. -/
theorem VideoTables.translate_kernel {v : Nat} (hlo : fourMB ≤ v) (hhi : v < eightMB) :
    translate b pt false v = some v := by
  simp only [fourMB, eightMB] at hlo hhi
  have hdir : v / fourMB = 1 := by simp; omega
  have hpde : pt.pageDirectory (v / fourMB) = fourMB ||| kernelSpec := by rw [hdir, h.dir_one]
  rw [translate_of_large hpde (by simp) (by decide) (by decide) (by decide)]
  simp only [fourMB, Option.some.injEq]
  omega

/-- A kernel access through the first page table to the video page. -/
theorem VideoTables.translate_video {v : Nat} (hlo : vidAddr ≤ v) (hhi : v < vidAddr + fourKB) :
    translate b pt false v = some v := by
  simp only [vidAddr, fourKB] at hlo hhi
  have hdir : v / fourMB = 0 := by simp; omega
  have hpde : pt.pageDirectory (v / fourMB) = b.firstPageTable ||| wp := by rw [hdir, h.dir_zero]
  have hidx : v / fourKB % kbSize = videoIndex := by simp; omega
  have hpte : b.tableAt pt b.firstPageTable (v / fourKB % kbSize) =
      vidAddr ||| (present ||| wp) := by
    rw [hidx]
    unfold Boot.tableAt
    rw [if_pos rfl, h.first_video]
  rw [translate_of_table hpde b.firstPageTable_aligned (by decide) (by decide), hpte,
    permitted_or (by simp), if_pos (by decide)]
  have haddr : (vidAddr ||| (present ||| wp)) / fourKB * fourKB = vidAddr := by decide
  rw [haddr]
  simp only [vidAddr, fourKB, Option.some.injEq]
  omega

/-- An access through the video page table, to an entry that holds a video page. -/
theorem VideoTables.translate_entry {user : Bool} {v n : Nat} (hdir : v / fourMB = userVidPage)
    (hpte : pt.userVideoPageTable (v / fourKB % kbSize) =
      (vidAddr + n * fourKB) ||| (wp ||| userFlag)) :
    translate b pt user v = some (vidAddr + n * fourKB + v % fourKB) := by
  have hpde : pt.pageDirectory (v / fourMB) = b.userVideoPageTable ||| (wp ||| userFlag) := by
    rw [hdir, h.dir_video]
  have haligned : (vidAddr + n * fourKB) % fourKB = 0 := by simp
  have htable : b.tableAt pt b.userVideoPageTable (v / fourKB % kbSize) =
      (vidAddr + n * fourKB) ||| (wp ||| userFlag) := by
    unfold Boot.tableAt
    rw [if_neg b.pageTables_ne.symm, if_pos rfl, hpte]
  have hflags : permitted user (wp ||| userFlag) = true := by cases user <;> decide
  have haddr : ((vidAddr + n * fourKB) ||| (wp ||| userFlag)) / fourKB * fourKB =
      vidAddr + n * fourKB :=
    FlagWord.address_or (w := 12) (by simp) (by decide)
  rw [translate_of_table hpde b.userVideoPageTable_aligned (by decide) hflags, htable,
    permitted_or haligned, if_pos hflags, haddr]

/-- The save pages, and the page that aliases the video page, for the kernel. -/
theorem VideoTables.translate_farPage (n off : Nat) (hn : n < 4) (hoff : off < fourKB) :
    translate b pt false (farPage + n * fourKB + off) = some (vidAddr + n * fourKB + off) := by
  simp only [fourKB] at hoff
  have hdir : (farPage + n * fourKB + off) / fourMB = userVidPage := by simp; omega
  have hidx : (farPage + n * fourKB + off) / fourKB % kbSize = videoIndex + n := by simp; omega
  have hpte := h.user_save n hn
  rw [← hidx] at hpte
  rw [h.translate_entry hdir hpte]
  simp only [farPage, fourKB, vidAddr, Option.some.injEq]
  omega

/-- An access through the video page table, to an entry that maps no page. -/
theorem VideoTables.translate_entry_none {user : Bool} {v : Nat} (hdir : v / fourMB = userVidPage)
    (hout : v / fourKB % kbSize < videoIndex ∨ videoIndex + fishBound ≤ v / fourKB % kbSize) :
    translate b pt user v = none := by
  have hpde : pt.pageDirectory (v / fourMB) = b.userVideoPageTable ||| (wp ||| userFlag) := by
    rw [hdir, h.dir_video]
  have hidx : v / fourKB % kbSize < kbSize := Nat.mod_lt _ (by simp)
  have hflags : permitted user (wp ||| userFlag) = true := by cases user <;> decide
  have htable : b.tableAt pt b.userVideoPageTable (v / fourKB % kbSize) =
      (v / fourKB % kbSize) * fourKB ||| present := by
    unfold Boot.tableAt
    rw [if_neg b.pageTables_ne.symm, if_pos rfl, h.user_other _ hidx hout]
  rw [translate_of_table hpde b.userVideoPageTable_aligned (by decide) hflags, htable,
    permitted_or (by simp)]
  rfl

/-- A user access through the video page table. -/
theorem VideoTables.translate_user_video {v : Nat} (hdir : v / fourMB = userVidPage) :
    (∃ pa, translate b pt true v = some pa ∧ vidAddr ≤ pa ∧ pa < vidAddr + fishBound * fourKB ∧
      farPage ≤ v ∧ v < farPage + fishBound * fourKB) ∨
    (translate b pt true v = none ∧ ¬(farPage ≤ v ∧ v < farPage + fishBound * fourKB)) := by
  have hv : 33 * 4194304 ≤ v ∧ v < 34 * 4194304 := by simp at hdir; omega
  by_cases hin : farPage ≤ v ∧ v < farPage + fishBound * fourKB
  · left
    simp only [farPage, fishBound, fourKB] at hin
    -- the entry is that of a save page or of a vidmap page
    have hentry : ∃ n < fishBound, pt.userVideoPageTable (v / fourKB % kbSize) =
        (vidAddr + n * fourKB) ||| (wp ||| userFlag) := by
      by_cases hsave : v < farPage + 4 * fourKB
      · simp only [farPage, fourKB] at hsave
        have hidx : v / fourKB % kbSize = videoIndex + (v / fourKB - farPage / fourKB) := by
          simp; omega
        exact ⟨v / fourKB - farPage / fourKB, by simp; omega,
          by rw [hidx]; exact h.user_save _ (by simp; omega)⟩
      · simp only [farPage, fourKB] at hsave
        have hidx : v / fourKB % kbSize =
            videoIndex + indexSeg + (⟨v / 4096 - 33980, by omega⟩ : Fin 3) := by
          simp; omega
        rw [hidx]
        exact h.user_vidmap _
    obtain ⟨n, hn, hpte⟩ := hentry
    refine ⟨_, h.translate_entry hdir hpte, ?_⟩
    simp only [farPage, fishBound, fourKB, vidAddr] at hn ⊢
    omega
  · right
    refine ⟨h.translate_entry_none hdir ?_, hin⟩
    simp only [farPage, fishBound, fourKB] at hin
    simp
    omega

/-- A user access outside the process page and the video page table. -/
theorem VideoTables.translate_user_other {v : Nat} (hv : v < 2 ^ 32)
    (hpro : v / fourMB ≠ virPro) (hvid : v / fourMB ≠ userVidPage) :
    translate b pt true v = none := by
  by_cases h0 : v / fourMB = 0
  · have hpde : pt.pageDirectory (v / fourMB) = b.firstPageTable ||| wp := by rw [h0, h.dir_zero]
    exact translate_of_not_permitted hpde b.firstPageTable_aligned (by decide)
  · by_cases h1 : v / fourMB = 1
    · have hpde : pt.pageDirectory (v / fourMB) = fourMB ||| kernelSpec := by rw [h1, h.dir_one]
      exact translate_of_not_permitted hpde (by simp) (by decide)
    · have hlt : v / fourMB < kbSize := by simp; omega
      have hpde : pt.pageDirectory (v / fourMB) = 0 ||| notPresent := by
        rw [h.dir_other _ hlt h0 h1 hpro hvid, Nat.zero_or]
      exact translate_of_not_permitted hpde (by simp) (by decide)

omit h in
/-- An access to the process page. -/
theorem translate_process {user : Bool} {p v : Nat}
    (hpro : pt.pageDirectory virPro = processEntry p)
    (hdir : v / fourMB = virPro) :
    translate b pt user v = some (eightMB + fourMB * p + v % fourMB) := by
  have hpde : pt.pageDirectory (v / fourMB) =
      (eightMB + fourMB * p) ||| (kernelSpec ||| userFlag) := by rw [hdir, hpro, processEntry]
  exact translate_of_large hpde (by simp) (by decide) (by cases user <;> decide) (by decide)

end Accesses

end Ece391Kernel
