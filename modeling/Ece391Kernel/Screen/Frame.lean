import Ece391Kernel.Screen.Terminal
import Ece391Kernel.Library.ByteStore

/-!
# What printing leaves alone

Printing changes the bytes of memory and the cursors, and nothing else. This is
one relation, `ScreenOnly`, which composes, and one lemma for each function that
prints; the fields a caller needs unchanged are read off the relation.
-/

namespace Ece391Kernel

/-- The state with other bytes in memory and other cursors. -/
def withScreens (k : Kernel) (m : Nat → UInt8) (x y : Fin 3 → Int) : Kernel :=
  { k with
    mem := m
    terminals := fun t => { k.terminals t with screenX := x t, screenY := y t } }

/-- `k'` differs from `k` in memory and cursors only. -/
def ScreenOnly (k k' : Kernel) : Prop := ∃ m x y, k' = withScreens k m x y

namespace ScreenOnly

theorem refl (k : Kernel) : ScreenOnly k k :=
  ⟨k.mem, fun t => (k.terminals t).screenX, fun t => (k.terminals t).screenY, rfl⟩

theorem trans {k₁ k₂ k₃ : Kernel} (h₁ : ScreenOnly k₁ k₂) (h₂ : ScreenOnly k₂ k₃) :
    ScreenOnly k₁ k₃ := by
  obtain ⟨m₁, x₁, y₁, rfl⟩ := h₁
  obtain ⟨m₂, x₂, y₂, rfl⟩ := h₂
  exact ⟨m₂, x₂, y₂, rfl⟩

theorem of_mem (k : Kernel) (m : Nat → UInt8) : ScreenOnly k { k with mem := m } :=
  ⟨m, fun t => (k.terminals t).screenX, fun t => (k.terminals t).screenY, rfl⟩

theorem of_cursor (k : Kernel) (t : Fin 3) (x y : Terminal → Int) :
    ScreenOnly k
      (k.setTerminal t fun term => { term with screenX := x term, screenY := y term }) := by
  refine ⟨k.mem, fun u => if u = t then x (k.terminals t) else (k.terminals u).screenX,
    fun u => if u = t then y (k.terminals t) else (k.terminals u).screenY, ?_⟩
  unfold Kernel.setTerminal withScreens
  congr 1
  funext u
  by_cases hu : u = t
  · subst hu
    simp
  · simp [hu]

/-- A loop whose body changes memory and cursors only. -/
theorem fold {n : Nat} {f : (i : Nat) → i < n → Kernel → Kernel}
    (h : ∀ i hi k, ScreenOnly k (f i hi k)) (k : Kernel) : ScreenOnly k (Nat.fold n f k) :=
  ByteStore.fold_invariant (fun _ k' => ScreenOnly k k') n f k (refl k)
    fun i hi k' hk' => hk'.trans (h i hi k')

section Fields

variable {k k' : Kernel} (h : ScreenOnly k k')
include h

theorem numProcessExecuting_eq : k'.numProcessExecuting = k.numProcessExecuting := by
  obtain ⟨m, x, y, rfl⟩ := h; rfl

theorem paging_eq : k'.paging = k.paging := by obtain ⟨m, x, y, rfl⟩ := h; rfl

theorem pcbs_eq : k'.pcbs = k.pcbs := by obtain ⟨m, x, y, rfl⟩ := h; rfl

theorem displayedTerminal_eq : k'.displayedTerminal = k.displayedTerminal := by
  obtain ⟨m, x, y, rfl⟩ := h; rfl

theorem executingTerminal_eq : k'.executingTerminal = k.executingTerminal := by
  obtain ⟨m, x, y, rfl⟩ := h; rfl

theorem activePcb_eq (t : Fin 3) : (k'.terminals t).activePcb = (k.terminals t).activePcb := by
  obtain ⟨m, x, y, rfl⟩ := h; rfl

theorem numOnTerminal_eq (t : Fin 3) :
    (k'.terminals t).numProcessExecutingOnTerminal =
      (k.terminals t).numProcessExecutingOnTerminal := by
  obtain ⟨m, x, y, rfl⟩ := h; rfl

end Fields

end ScreenOnly

/-- `k'` differs from `k` in memory only. -/
def MemoryOnly (k k' : Kernel) : Prop := ∃ m, k' = { k with mem := m }

namespace MemoryOnly

theorem refl (k : Kernel) : MemoryOnly k k := ⟨k.mem, rfl⟩

theorem trans {k₁ k₂ k₃ : Kernel} (h₁ : MemoryOnly k₁ k₂) (h₂ : MemoryOnly k₂ k₃) :
    MemoryOnly k₁ k₃ := by
  obtain ⟨m₁, rfl⟩ := h₁
  obtain ⟨m₂, rfl⟩ := h₂
  exact ⟨m₂, rfl⟩

theorem fold {n : Nat} {f : (i : Nat) → i < n → Kernel → Kernel}
    (h : ∀ i hi k, MemoryOnly k (f i hi k)) (k : Kernel) : MemoryOnly k (Nat.fold n f k) :=
  ByteStore.fold_invariant (fun _ k' => MemoryOnly k k') n f k (refl k)
    fun i hi k' hk' => hk'.trans (h i hi k')

theorem screenOnly {k k' : Kernel} (h : MemoryOnly k k') : ScreenOnly k k' := by
  obtain ⟨m, rfl⟩ := h
  exact ScreenOnly.of_mem k m

theorem terminals_eq {k k' : Kernel} (h : MemoryOnly k k') : k'.terminals = k.terminals := by
  obtain ⟨m, rfl⟩ := h
  rfl

end MemoryOnly

/-! ## The functions that print -/

theorem writeByte_memoryOnly (b : Boot) (k : Kernel) (v : Nat) (c : UInt8) :
    MemoryOnly k (writeByte b k v c) := by
  unfold writeByte
  split
  · exact ⟨_, rfl⟩
  · exact MemoryOnly.refl k

theorem clear_memoryOnly (b : Boot) (k : Kernel) : MemoryOnly k (clear b k) :=
  MemoryOnly.fold (fun _ _ k =>
    (writeByte_memoryOnly b k _ _).trans (writeByte_memoryOnly b _ _ _)) k

theorem memcpy_memoryOnly (b : Boot) (dest src n : Nat) (k : Kernel) :
    MemoryOnly k (memcpy b dest src n k) :=
  MemoryOnly.fold (fun _ _ k => writeByte_memoryOnly b k _ _) k

theorem scrollAt_memoryOnly (b : Boot) (base : Nat) (k : Kernel) :
    MemoryOnly k (scrollAt b base k) := by
  unfold scrollAt
  have hmove := MemoryOnly.fold (n := numCols) (f := fun i _ k => Nat.fold (numRows - 1)
      (fun j _ k => writeByte b k (base + 2 * (numCols * j + i))
        (readByte b k (base + 2 * (numCols * (j + 1) + i)))) k)
    (fun i _ k => MemoryOnly.fold (fun j _ k => writeByte_memoryOnly b k _ _) k) k
  exact hmove.trans (MemoryOnly.fold (fun i _ k =>
    (writeByte_memoryOnly b k _ _).trans (writeByte_memoryOnly b _ _ _)) _)

theorem lineFeedAt_screenOnly (b : Boot) (base : Nat) (t : Fin 3) (k : Kernel) :
    ScreenOnly k (lineFeedAt b base t k) := by
  have hfeed := ScreenOnly.of_cursor k t (fun _ => 0) (fun term => term.screenY + 1)
  unfold lineFeedAt lineFeedWith
  simp only [directAccess_state, directAccess_silently]
  split
  · exact (hfeed.trans (ScreenOnly.of_cursor _ t (fun term => term.screenX) _)).trans
      (scrollAt_memoryOnly b base _).screenOnly
  · exact hfeed

theorem putcAt_screenOnly (b : Boot) (base : Nat) (t : Fin 3) (c : UInt8) (k : Kernel) :
    ScreenOnly k (putcAt b base t c k) := by
  unfold putcAt putcWith
  split
  · exact lineFeedAt_screenOnly b base t k
  · have hcell := (writeByte_memoryOnly b k
        (cellAddr base (k.terminals t).screenX (k.terminals t).screenY) c).trans
      (writeByte_memoryOnly b _
        (cellAddr base (k.terminals t).screenX (k.terminals t).screenY + 1) attrib)
    have hput := hcell.screenOnly.trans
      (ScreenOnly.of_cursor _ t (fun term => term.screenX + 1) (fun term => term.screenY))
    simp only [directAccess_state, directAccess_silently, storeCell_directAccess]
    split
    · exact hput.trans (lineFeedAt_screenOnly b base t _)
    · exact hput

theorem putc_screenOnly (b : Boot) (c : UInt8) (k : Kernel) : ScreenOnly k (putc b c k) :=
  putcAt_screenOnly b _ _ c k

theorem putcNonDisplayed_screenOnly (b : Boot) (c : UInt8) (k : Kernel) :
    ScreenOnly k (putcNonDisplayed b c k) :=
  putcAt_screenOnly b _ _ c k

theorem backspace_screenOnly (b : Boot) (k : Kernel) : ScreenOnly k (backspace b k) := by
  unfold backspace backspaceWith
  simp only [directAccess_state, directAccess_silently, storeCell_directAccess]
  split
  · exact ScreenOnly.refl k
  · split
    · have hmove := ScreenOnly.of_cursor k k.displayedTerminal (fun _ => numCols - 1)
        (fun term => term.screenY - 1)
      exact hmove.trans ((writeByte_memoryOnly b _ _ space).trans
        (writeByte_memoryOnly b _ _ attrib)).screenOnly
    · have hmove := ScreenOnly.of_cursor k k.displayedTerminal (fun term => term.screenX - 1)
        (fun term => term.screenY)
      exact (hmove.trans (putc_screenOnly b space _)).trans
        (ScreenOnly.of_cursor _ k.displayedTerminal (fun term => term.screenX - 1)
          (fun term => term.screenY))

theorem clearScreen_screenOnly (b : Boot) (k : Kernel) : ScreenOnly k (clearBuffer (clear b k)) :=
  (clear_memoryOnly b k).screenOnly.trans
    (ScreenOnly.of_cursor (clear b k) (clear b k).displayedTerminal (fun _ => 0) fun _ => 0)

theorem writeChar_screenOnly (b : Boot) (c : UInt8) (k : Kernel) :
    ScreenOnly k (writeChar b c k) := by
  unfold writeChar
  split
  · split
    · exact putc_screenOnly b c k
    · exact putcNonDisplayed_screenOnly b c k
  · exact ScreenOnly.refl k

theorem terminalWrite_screenOnly (b : Boot) (buf : Buffer) (nbytes : Int) (k : Kernel) :
    ScreenOnly k (terminalWrite b buf nbytes k).2 := by
  unfold terminalWrite
  split
  · exact ScreenOnly.refl k
  · split
    · exact ScreenOnly.refl k
    · exact ScreenOnly.fold (fun i _ k => writeChar_screenOnly b _ k) k

theorem blankPages_memoryOnly (b : Boot) (k : Kernel) : MemoryOnly k (blankPages b k) :=
  MemoryOnly.fold (fun _ _ k => MemoryOnly.fold (fun _ _ k =>
    (writeByte_memoryOnly b k _ _).trans (writeByte_memoryOnly b _ _ _)) k) k

/-- The three loops of `switch_active_terminal`. -/
theorem switchLoops_memoryOnly (b : Boot) (save restore : Nat) (k : Kernel) :
    MemoryOnly k (memcpy b vidAddr restore fourKB
      (clear b (memcpy b save vidAddr fourKB k))) :=
  ((memcpy_memoryOnly b save vidAddr fourKB k).trans (clear_memoryOnly b _)).trans
    (memcpy_memoryOnly b vidAddr restore fourKB _)

/-! ## The functions that patch the tables -/

theorem switchActiveTerminal_eq (b : Boot) (t : Fin 3) (k : Kernel) :
    ∃ k', MemoryOnly k k' ∧ switchActiveTerminal b t k = showTerminal t k' :=
  ⟨_, switchLoops_memoryOnly b _ _ k, rfl⟩

theorem switchActiveTerminal_terminals (b : Boot) (t : Fin 3) (k : Kernel) :
    (switchActiveTerminal b t k).terminals = k.terminals := by
  obtain ⟨k', hmem, heq⟩ := switchActiveTerminal_eq b t k
  rw [heq]
  exact hmem.terminals_eq

theorem switchActiveTerminal_executingTerminal (b : Boot) (t : Fin 3) (k : Kernel) :
    (switchActiveTerminal b t k).executingTerminal = k.executingTerminal := by
  obtain ⟨k', hmem, heq⟩ := switchActiveTerminal_eq b t k
  rw [heq]
  exact hmem.screenOnly.executingTerminal_eq

theorem switchActiveTerminal_displayedTerminal (b : Boot) (t : Fin 3) (k : Kernel) :
    (switchActiveTerminal b t k).displayedTerminal = t := rfl

theorem switchActiveTerminal_paging (b : Boot) (t : Fin 3) (k : Kernel) :
    (switchActiveTerminal b t k).paging = switchTables k.displayedTerminal t k.paging := by
  obtain ⟨k', hmem, heq⟩ := switchActiveTerminal_eq b t k
  rw [heq, showTerminal, hmem.screenOnly.paging_eq, hmem.screenOnly.displayedTerminal_eq]

/-- What boot leaves, apart from the bytes of memory. -/
theorem boot_eq (b : Boot) (k : Kernel) :
    ∃ k', MemoryOnly (terminalInitRecords
        { k with numProcessExecuting := 0, paging := initPage b k.paging }) k' ∧
      boot b k = patchUserVideo k' :=
  ⟨_, blankPages_memoryOnly b _, rfl⟩

theorem boot_paging (b : Boot) (k : Kernel) :
    (boot b k).paging = terminalInitTables (initPage b k.paging) := by
  obtain ⟨k', ⟨m, rfl⟩, heq⟩ := boot_eq b k
  rw [heq]
  rfl

theorem boot_terminals (b : Boot) (k : Kernel) (t : Fin 3) :
    (boot b k).terminals t = terminalInitRecord (k.terminals t) := by
  obtain ⟨k', ⟨m, rfl⟩, heq⟩ := boot_eq b k
  rw [heq]
  rfl

theorem boot_displayedTerminal (b : Boot) (k : Kernel) : (boot b k).displayedTerminal = 0 := by
  obtain ⟨k', ⟨m, rfl⟩, heq⟩ := boot_eq b k
  rw [heq]
  rfl

theorem boot_processes (b : Boot) (k : Kernel) {i : Nat} (hi : i < processSize) :
    (boot b k).processes i = 0 := by
  obtain ⟨k', ⟨m, rfl⟩, heq⟩ := boot_eq b k
  rw [heq]
  exact if_pos hi

theorem boot_numProcessExecuting (b : Boot) (k : Kernel) :
    (boot b k).numProcessExecuting = 0 := by
  obtain ⟨k', ⟨m, rfl⟩, heq⟩ := boot_eq b k
  rw [heq]
  rfl

theorem boot_executingTerminal (b : Boot) (k : Kernel) : (boot b k).executingTerminal = 0 := by
  obtain ⟨k', ⟨m, rfl⟩, heq⟩ := boot_eq b k
  rw [heq]
  rfl

end Ece391Kernel
