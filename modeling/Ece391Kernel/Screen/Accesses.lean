import Ece391Kernel.Screen.Refinement

/-!
# What printing touches

The output functions of `lib.c` with a record of the bytes that they read and write through
pointers to a screen. On a terminal with its cursor in the screen every access is to one of the
4000 bytes of the cells, and the cursor stays in the screen.
-/

namespace Ece391Kernel

open AccessTrace

/-- The bytes of the cells of the screen at `base`. -/
def cellBytes (base : Nat) : Set Nat := Set.Ico base (base + 4000)

abbrev TracedKernel := Traced Kernel Nat

/-- The bytes are those of the memory, and are recorded. -/
def recordedAccess (b : Boot) : MemoryAccess Kernel Nat UInt8 TracedKernel :=
  .recording (readByte b) (writeByte b)

@[simp] theorem recordedAccess_state (b : Boot) (s : TracedKernel) :
    (recordedAccess b).state s = s.state := rfl

@[simp] theorem recordedAccess_silently (b : Boot) (f : Kernel → Kernel) (s : TracedKernel) :
    (recordedAccess b).silently f s = s.silently f := rfl

/-! ## Without the record -/

section Forget

variable {τ υ : Type} {m : MemoryAccess Kernel Nat UInt8 τ} {m' : MemoryAccess Kernel Nat UInt8 υ}
  {φ : τ → υ}

theorem storeCell_map (h : m.Hom m' φ) (v : Nat) (c : UInt8) (s : τ) :
    φ (storeCell m v c s) = storeCell m' v c (φ s) := by
  unfold storeCell
  rw [h.write, h.write]

theorem clearWith_map (h : m.Hom m' φ) (s : τ) : φ (clearWith m s) = clearWith m' (φ s) :=
  MemoryAccess.map_fold (fun i _ s => storeCell_map h (vidAddr + 2 * i) space s) s

theorem scrollWith_map (h : m.Hom m' φ) (base : Nat) (s : τ) :
    φ (scrollWith m base s) = scrollWith m' base (φ s) := by
  unfold scrollWith
  simp only
  refine (MemoryAccess.map_fold (fun i _ s =>
    storeCell_map h (base + 2 * (numCols * (numRows - 1) + i)) space s) _).trans ?_
  congr 1
  refine MemoryAccess.map_fold (fun i _ s => MemoryAccess.map_fold (fun j _ s => ?_) s) s
  rw [h.write, h.read]

theorem lineFeedWith_map (h : m.Hom m' φ) (base : Nat) (t : Fin 3) (s : τ) :
    φ (lineFeedWith m base t s) = lineFeedWith m' base t (φ s) := by
  unfold lineFeedWith
  simp only [← h.silently, h.state]
  split
  · exact scrollWith_map h base _
  · rfl

theorem putcWith_map (h : m.Hom m' φ) (base : Nat) (t : Fin 3) (c : UInt8) (s : τ) :
    φ (putcWith m base t c s) = putcWith m' base t c (φ s) := by
  unfold putcWith
  simp only [← storeCell_map h, ← h.silently, h.state]
  split
  · exact lineFeedWith_map h base t s
  · split
    · exact lineFeedWith_map h base t _
    · rfl

theorem backspaceWith_map (h : m.Hom m' φ) (s : τ) :
    φ (backspaceWith m s) = backspaceWith m' (φ s) := by
  unfold backspaceWith
  simp only [← storeCell_map h, ← putcWith_map h, ← h.silently, h.state]
  split_ifs <;> rfl

end Forget

/-! ## The places -/

section Places

variable {b : Boot} {base : Nat}

theorem cell_mem {n : Nat} (hn : n < 2000) :
    base + 2 * n ∈ cellBytes base ∧ base + 2 * n + 1 ∈ cellBytes base := by
  simp only [cellBytes, Set.mem_Ico]
  omega

theorem storeCell_within {v : Nat} (hv : v ∈ cellBytes base ∧ v + 1 ∈ cellBytes base) (c : UInt8)
    (s : TracedKernel) : Within (cellBytes base) s (storeCell (recordedAccess b) v c s) :=
  (Within.write _ hv.1 c s).trans (Within.write _ hv.2 attrib _)

theorem clearWith_within (s : TracedKernel) :
    Within (cellBytes vidAddr) s (clearWith (recordedAccess b) s) :=
  Within.fold (fun i hi s => storeCell_within (cell_mem (by simpa using hi)) space s) s

/-- Scrolling reads the rows from the second to the last, and writes all of them. -/
theorem scrollWith_within (s : TracedKernel) :
    Within (cellBytes base) s (scrollWith (recordedAccess b) base s) := by
  have hmove : ∀ i < numCols, ∀ s : TracedKernel, Within (cellBytes base) s (Nat.fold (numRows - 1)
      (fun j _ s => (recordedAccess b).write (base + 2 * (numCols * j + i))
        ((recordedAccess b).read (base + 2 * (numCols * (j + 1) + i)) s).1
        ((recordedAccess b).read (base + 2 * (numCols * (j + 1) + i)) s).2) s) := by
    intro i hi s
    refine Within.fold (fun j hj s => ?_) s
    simp only [numCols, numRows] at hi hj ⊢
    exact (Within.read _ (cell_mem (by omega)).1 s).trans
      (Within.write _ (cell_mem (by omega)).1 _ _)
  refine (Within.fold hmove s).trans (Within.fold (fun i hi s => ?_) _)
  simp only [numCols, numRows] at hi ⊢
  exact storeCell_within (cell_mem (by omega)) space s

theorem lineFeedWith_within (t : Fin 3) (s : TracedKernel) :
    Within (cellBytes base) s (lineFeedWith (recordedAccess b) base t s) := by
  unfold lineFeedWith
  simp only
  split <;> simp only [recordedAccess_silently]
  · exact (Within.silently _ s).trans ((Within.silently _ _).trans (scrollWith_within _))
  · exact Within.silently _ s

end Places

/-- The cursor of a terminal is in the screen. -/
def InScreen (term : Terminal) : Prop :=
  0 ≤ term.screenX ∧ term.screenX < 80 ∧ 0 ≤ term.screenY ∧ term.screenY < 25

section Cursor

variable {b : Boot} {base : Nat} {t : Fin 3}

theorem cellAddr_mem (hbase : base + 4000 ≤ 0x100000000) {term : Terminal} (h : InScreen term) :
    cellAddr base term.screenX term.screenY ∈ cellBytes base ∧
      cellAddr base term.screenX term.screenY + 1 ∈ cellBytes base := by
  obtain ⟨hx, hx', hy, hy'⟩ := h
  have hcell : cellAddr base term.screenX term.screenY =
      base + 2 * (80 * term.screenY + term.screenX).toNat := by
    unfold cellAddr uint32
    simp only [numCols]
    omega
  rw [hcell]
  exact cell_mem (by omega)

theorem putcWith_within (hbase : base + 4000 ≤ 0x100000000) (c : UInt8) {s : TracedKernel}
    (h : InScreen (s.state.terminals t)) :
    Within (cellBytes base) s (putcWith (recordedAccess b) base t c s) := by
  unfold putcWith
  simp only
  split
  · exact lineFeedWith_within t s
  · have hcell : Within (cellBytes base) s (storeCell (recordedAccess b) _ c s) :=
      storeCell_within (cellAddr_mem hbase h) c s
    split <;> simp only [recordedAccess_silently]
    · exact hcell.trans ((Within.silently _ _).trans (lineFeedWith_within t _))
    · exact hcell.trans (Within.silently _ _)

theorem backspaceWith_within {s : TracedKernel}
    (h : InScreen (s.state.terminals s.state.displayedTerminal)) :
    Within (cellBytes vidAddr) s (backspaceWith (recordedAccess b) s) := by
  have hbase : vidAddr + 4000 ≤ 0x100000000 := by simp
  obtain ⟨hx, hx', hy, hy'⟩ := h
  unfold backspaceWith
  simp only
  split
  · exact Within.refl s
  · rename_i hfirst
    split
    all_goals
      rename_i hcol
      simp only [recordedAccess_state, recordedAccess_silently] at hfirst hcol ⊢
    · refine (Within.silently _ s).trans (storeCell_within (cellAddr_mem hbase ?_) space _)
      simp [InScreen]
      omega
    · refine (Within.silently _ s).trans ((putcWith_within hbase space ?_).trans
        (Within.silently _ _))
      simp [InScreen]
      omega

/-! ## The cursors -/

variable {k : Kernel}

/-- A terminal whose cursor is put into the screen, where the others are. -/
theorem cursorsInScreen_setTerminal (hothers : ∀ u, u ≠ t → InScreen (k.terminals u))
    {f : Terminal → Terminal} (hf : InScreen (f (k.terminals t))) :
    CursorsInScreen (k.setTerminal t f) := by
  intro u
  by_cases hu : u = t
  · rw [hu, Kernel.setTerminal_terminals_same]
    exact hf
  · rw [Kernel.setTerminal_terminals_ne k f hu]
    exact hothers u hu

theorem CursorsInScreen.setTerminal (h : CursorsInScreen k) {f : Terminal → Terminal}
    (hf : InScreen (f (k.terminals t))) : CursorsInScreen (k.setTerminal t f) :=
  cursorsInScreen_setTerminal (fun u _ => h u) hf

theorem CursorsInScreen.of_memoryOnly {k' : Kernel} (h : CursorsInScreen k)
    (hmem : MemoryOnly k k') : CursorsInScreen k' := by
  unfold CursorsInScreen
  rw [hmem.terminals_eq]
  exact h

/-- The column may be that behind the last, as it is when a row is full. -/
theorem lineFeedAt_cursors (hothers : ∀ u, u ≠ t → InScreen (k.terminals u))
    (hrow : 0 ≤ (k.terminals t).screenY ∧ (k.terminals t).screenY < 25) :
    CursorsInScreen (lineFeedAt b base t k) := by
  unfold lineFeedAt lineFeedWith
  simp only [directAccess_state, directAccess_silently, scrollWith_directAccess]
  split
  · refine (cursorsInScreen_setTerminal (fun u hu => ?_) ?_).of_memoryOnly
      (scrollAt_memoryOnly b base _)
    · rw [Kernel.setTerminal_terminals_ne k _ hu]
      exact hothers u hu
    · simp [InScreen]
  · rename_i hroom
    refine cursorsInScreen_setTerminal hothers ?_
    simp [InScreen] at hroom ⊢
    omega

theorem CursorsInScreen.putcAt (h : CursorsInScreen k) (c : UInt8) :
    CursorsInScreen (putcAt b base t c k) := by
  obtain ⟨hx, hx', hy⟩ := h t
  unfold Ece391Kernel.putcAt putcWith
  simp only [directAccess_state, directAccess_silently, storeCell_directAccess,
    lineFeedWith_directAccess]
  split
  · exact lineFeedAt_cursors (fun u _ => h u) hy
  · have hmem := (writeByte_memoryOnly b k
      (cellAddr base (k.terminals t).screenX (k.terminals t).screenY) c).trans
      (writeByte_memoryOnly b _
        (cellAddr base (k.terminals t).screenX (k.terminals t).screenY + 1) attrib)
    have hcell := h.of_memoryOnly hmem
    split
    · refine lineFeedAt_cursors (fun u hu => ?_) ?_
      · rw [Kernel.setTerminal_terminals_ne _ _ hu]
        exact hcell u
      · rw [Kernel.setTerminal_terminals_same, hmem.terminals_eq]
        exact hy
    · rename_i hroom
      refine hcell.setTerminal ?_
      rw [Kernel.setTerminal_terminals_same] at hroom
      simp [InScreen, hmem.terminals_eq] at hroom ⊢
      omega

/-- A character that leaves room in its row. -/
theorem putcAt_terminals (base : Nat) {c : UInt8} (hc : ¬(c = newline ∨ c = carriageReturn))
    (hroom : (k.terminals t).screenX + 1 < 80) :
    (putcAt b base t c k).terminals =
      (k.setTerminal t fun term => { term with screenX := term.screenX + 1 }).terminals := by
  have hmem := (writeByte_memoryOnly b k
    (cellAddr base (k.terminals t).screenX (k.terminals t).screenY) c).trans
    (writeByte_memoryOnly b _
      (cellAddr base (k.terminals t).screenX (k.terminals t).screenY + 1) attrib)
  unfold putcAt putcWith
  rw [if_neg hc]
  simp only [directAccess_state, directAccess_silently, storeCell_directAccess,
    Kernel.setTerminal_terminals_same, hmem.terminals_eq]
  rw [if_neg (by simp; omega)]
  simp only [Kernel.setTerminal_terminals, hmem.terminals_eq]

theorem CursorsInScreen.backspace (h : CursorsInScreen k) :
    CursorsInScreen (backspace b k) := by
  obtain ⟨hx, hx', hy, hy'⟩ := h k.displayedTerminal
  unfold Ece391Kernel.backspace backspaceWith
  simp only [directAccess_state, directAccess_silently, storeCell_directAccess,
    putcWith_directAccess]
  split
  · exact h
  · split
    · refine (h.setTerminal ?_).of_memoryOnly
        ((writeByte_memoryOnly b _ _ space).trans (writeByte_memoryOnly b _ _ attrib))
      simp [InScreen]
      omega
    · rename_i hzero
      -- the blank takes the cursor back to where it was, so that the column is at least 1 there
      have hspace : ¬(space = newline ∨ space = carriageReturn) := by decide
      have hput := putcAt_terminals (b := b) (t := k.displayedTerminal)
        (k := k.setTerminal k.displayedTerminal fun term =>
          { term with screenX := term.screenX - 1 }) vidAddr hspace (by simp; omega)
      refine ((h.setTerminal ?_).putcAt space).setTerminal ?_
      · simp [InScreen]
        omega
      · simp only [Kernel.setTerminal_displayedTerminal, hput]
        simp [InScreen]
        omega

end Cursor

/-! ## Runs -/

/-- A call of an output function, or the display or the turn of a terminal. -/
inductive ScreenCall
  | putc (c : UInt8)
  | putcNonDisplayed (c : UInt8)
  | backspace
  | clear
  | resetScreen
  | display (t : Fin 3)
  | schedule (t : Fin 3)

section Calls

variable (b : Boot)

def ScreenCall.apply (k : Kernel) : ScreenCall → Kernel
  | .putc c => Ece391Kernel.putc b c k
  | .putcNonDisplayed c => Ece391Kernel.putcNonDisplayed b c k
  | .backspace => Ece391Kernel.backspace b k
  | .clear => Ece391Kernel.clear b k
  | .resetScreen => Ece391Kernel.resetScreen k
  | .display t => switchActiveTerminal b t k
  | .schedule t => { k with executingTerminal := t }

/-- A call with the accesses of the output functions; what displays a terminal is none. -/
def ScreenCall.traced (k : Kernel) : ScreenCall → TracedKernel
  | .putc c => putcWith (recordedAccess b) vidAddr k.displayedTerminal c (.start k)
  | .putcNonDisplayed c =>
      putcWith (recordedAccess b) (savePage k.executingTerminal) k.executingTerminal c (.start k)
  | .backspace => backspaceWith (recordedAccess b) (.start k)
  | .clear => clearWith (recordedAccess b) (.start k)
  | .resetScreen => (Traced.start k).silently Ece391Kernel.resetScreen
  | .display t => (Traced.start k).silently (switchActiveTerminal b t)
  | .schedule t => (Traced.start k).silently fun k => { k with executingTerminal := t }

/-- The page that a call addresses. -/
def ScreenCall.page (k : Kernel) : ScreenCall → Nat
  | .putcNonDisplayed _ => savePage k.executingTerminal
  | _ => vidAddr

def runScreenCalls (calls : List ScreenCall) (k : Kernel) : Kernel :=
  calls.foldl (ScreenCall.apply b) k

variable {b} {k : Kernel}

theorem ScreenCall.traced_state (call : ScreenCall) :
    (call.traced b k).state = call.apply b k := by
  have hforget := MemoryAccess.recording_hom (readByte b) (writeByte b)
  cases call with
  | putc c => exact putcWith_map hforget _ _ c _
  | putcNonDisplayed c => exact putcWith_map hforget _ _ c _
  | backspace => exact backspaceWith_map hforget _
  | clear => exact clearWith_map hforget _
  | resetScreen => rfl
  | display t => rfl
  | schedule t => rfl

theorem ScreenCall.apply_cursors (h : CursorsInScreen k) (call : ScreenCall) :
    CursorsInScreen (call.apply b k) := by
  cases call with
  | putc c => exact h.putcAt c
  | putcNonDisplayed c => exact h.putcAt c
  | backspace => exact h.backspace
  | clear => exact h.of_memoryOnly (clear_memoryOnly b k)
  | resetScreen =>
      unfold ScreenCall.apply Ece391Kernel.resetScreen
      refine h.setTerminal ?_
      simp [InScreen]
  | display t =>
      intro u
      rw [ScreenCall.apply, switchActiveTerminal_terminals]
      exact h u
  | schedule t => exact h

theorem ScreenCall.accesses_mem (h : CursorsInScreen k) (call : ScreenCall) {a : Nat}
    (ha : a ∈ (call.traced b k).accesses) : a ∈ cellBytes (call.page k) := by
  have hvid : vidAddr + 4000 ≤ 0x100000000 := by decide
  have hsave : ∀ t : Fin 3, savePage t + 4000 ≤ 0x100000000 := by decide
  refine Within.mem (s := k) ?_ ha
  cases call with
  | putc c => exact putcWith_within hvid c (h _)
  | putcNonDisplayed c => exact putcWith_within (hsave _) c (h _)
  | backspace => exact backspaceWith_within (h _)
  | clear => exact clearWith_within _
  | resetScreen => exact Within.silently _ _
  | display t => exact Within.silently _ _
  | schedule t => exact Within.silently _ _

theorem runScreenCalls_cursors (h : CursorsInScreen k) (calls : List ScreenCall) :
    CursorsInScreen (runScreenCalls b calls k) := by
  induction calls generalizing k with
  | nil => exact h
  | cons call calls ih => exact ih (call.apply_cursors h)

end Calls

/-- From cursors at the first cell on, whatever is called, the cursors are in the screen, and the
next call reads and writes bytes of the 4000 of its page only. -/
theorem screen_calls_stay_in_screen (b : Boot) (k : Kernel)
    (hstart : ∀ t, (k.terminals t).screenX = 0 ∧ (k.terminals t).screenY = 0)
    (calls : List ScreenCall) :
    CursorsInScreen (runScreenCalls b calls k) ∧
      ∀ call : ScreenCall,
        (call.traced b (runScreenCalls b calls k)).state = runScreenCalls b (calls ++ [call]) k ∧
          ∀ a ∈ (call.traced b (runScreenCalls b calls k)).accesses,
            call.page (runScreenCalls b calls k) ≤ a ∧
              a < call.page (runScreenCalls b calls k) + 4000 := by
  have hcursors : CursorsInScreen k := by
    intro t
    obtain ⟨hx, hy⟩ := hstart t
    omega
  have hrun := runScreenCalls_cursors (b := b) hcursors calls
  refine ⟨hrun, fun call => ⟨?_, fun a ha => call.accesses_mem hrun ha⟩⟩
  rw [call.traced_state, runScreenCalls, runScreenCalls, List.foldl_concat]

example : ((ScreenCall.putc 0x41).traced smallBoot blankKernel).accesses = [0xB8000, 0xB8001] := rfl

/-- A character on two terminals, and then a backspace on the second. -/
theorem screen_calls_stay_in_screen_two :
    CursorsInScreen (runScreenCalls smallBoot
      [.putc 0x41, .schedule 1, .putcNonDisplayed 0x42, .display 1] blankKernel) ∧
      ∀ a ∈ (ScreenCall.backspace.traced smallBoot (runScreenCalls smallBoot
        [.putc 0x41, .schedule 1, .putcNonDisplayed 0x42, .display 1] blankKernel)).accesses,
        vidAddr ≤ a ∧ a < vidAddr + 4000 := by
  obtain ⟨hcursors, hnext⟩ := screen_calls_stay_in_screen smallBoot blankKernel
    (fun t => by decide +revert) [.putc 0x41, .schedule 1, .putcNonDisplayed 0x42, .display 1]
  exact ⟨hcursors, (hnext .backspace).2⟩

end Ece391Kernel
