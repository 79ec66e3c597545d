import Ece391Kernel.Screen.Keyboard
import Ece391Kernel.Schedule.ContextSwitch
import Ece391Kernel.Process.Tree

/-!
# The process that the keyboard interrupts

The keyboard interrupt runs in the context of whatever process it interrupts, and returns
into it. Control-C is for the terminal that is displayed: the handler makes it the executing
one and calls `signal_delivery`, but it neither maps the process of this terminal nor goes
back to the one that was interrupted. Everything else that the handler does leaves the
context alone. The source of `signal_delivery` is missing: it is a parameter here, that
leaves the variables of the context alone.
-/

namespace Ece391Kernel

/-! ## The context -/

/-- The executing terminal, the mapping of its process, the control blocks that are active on
the terminals and the processes that control blocks are of, are as before. -/
structure ContextKept (k k' : Kernel) : Prop where
  executingTerminal : k'.executingTerminal = k.executingTerminal
  mapping : k'.paging.pageDirectory virPro = k.paging.pageDirectory virPro
  activePcb : ∀ t, (k'.terminals t).activePcb = (k.terminals t).activePcb
  processNum : ∀ addr, (k'.pcbs addr).processNum = (k.pcbs addr).processNum

theorem ContextKept.trans {k₁ k₂ k₃ : Kernel} (h₁ : ContextKept k₁ k₂) (h₂ : ContextKept k₂ k₃) :
    ContextKept k₁ k₃ where
  executingTerminal := h₂.executingTerminal.trans h₁.executingTerminal
  mapping := h₂.mapping.trans h₁.mapping
  activePcb := fun t => (h₂.activePcb t).trans (h₁.activePcb t)
  processNum := fun addr => (h₂.processNum addr).trans (h₁.processNum addr)

theorem ScreenOnly.contextKept {k k' : Kernel} (h : ScreenOnly k k') : ContextKept k k' := by
  obtain ⟨m, x, y, rfl⟩ := h
  exact ⟨rfl, rfl, fun _ => rfl, fun _ => rfl⟩

theorem eventRecord_activePcb (e : KeyEvent) (term : Terminal) :
    (eventRecord e term).activePcb = term.activePcb := by
  cases e with
  | char c =>
      simp only [eventRecord, typeChar]
      split <;> rfl
  | erase =>
      simp only [eventRecord, eraseChar]
      split <;> rfl
  | enter => rfl
  | display t => rfl
  | other => rfl

/-- The keys of the line and the function keys leave the context alone. -/
theorem lineEffect_contextKept (e : KeyEvent) (k : Kernel) : ContextKept k (lineEffect e k) where
  executingTerminal := by cases e <;> rfl
  mapping := by cases e <;> rfl
  activePcb := by
    intro t
    rw [lineEffect_terminals]
    by_cases ht : t = k.displayedTerminal
    · rw [ht, Function.update_self, eventRecord_activePcb]
    · rw [Function.update_of_ne ht]
  processNum := by cases e <;> exact fun _ => rfl

/-- The handler returns into the process it has interrupted: the executing terminal is the
same, later calls find its control block, the page of programs is its frame, and the next tick
saves the registers in the record of its terminal and in no other. -/
structure KeepsContext (k k' : Kernel) : Prop where
  executingTerminal : k'.executingTerminal = k.executingTerminal
  active : k'.current.activePcb = k.current.activePcb
  mapped : k'.paging.pageDirectory virPro = processEntry k'.activePcb.processNum
  saves : ∀ a : SwitchArgs, ((parked a k').terminals k.executingTerminal).esp = a.esp ∧
    ((parked a k').terminals k.executingTerminal).ebp = a.ebp ∧
    ∀ u ≠ k.executingTerminal, (parked a k').terminals u = k'.terminals u

theorem ContextKept.keepsContext {k k' : Kernel} (h : ContextKept k k')
    (hmapped : k.paging.pageDirectory virPro = processEntry k.activePcb.processNum) :
    KeepsContext k k' := by
  have hactive : k'.current.activePcb = k.current.activePcb := by
    unfold Kernel.current
    rw [h.executingTerminal, h.activePcb]
  have hprocess : k'.activePcb.processNum = k.activePcb.processNum := by
    unfold Kernel.activePcb
    rw [hactive, h.processNum]
  have hmapped' : k'.paging.pageDirectory virPro = processEntry k'.activePcb.processNum := by
    rw [h.mapping, hmapped, hprocess]
  refine ⟨h.executingTerminal, hactive, hmapped', fun a => ?_⟩
  rw [parked_terminals, h.executingTerminal, Function.update_self]
  exact ⟨rfl, rfl, fun u hu => Function.update_of_ne hu _ _⟩

/-! ## The handler -/

/-- What is assumed of `signal_delivery`. -/
def SignalKeepsContext (signalDelivery : Nat → Kernel → Kernel) : Prop :=
  ∀ n k, ContextKept k (signalDelivery n k)

/-- The keyboard interrupt returns into the process it has interrupted, whatever the scancode
and the modifier keys, if and only if it is not control-C while another terminal than the
executing one is displayed. -/
theorem getScancode_keeps_context_iff (signalDelivery : Nat → Kernel → Kernel)
    (hsignal : SignalKeepsContext signalDelivery) (b : Boot) (c : UInt8) (kb : Keyboard)
    (k : Kernel) (hmapped : k.paging.pageDirectory virPro = processEntry k.activePcb.processNum) :
    KeepsContext k (getScancodeWith signalDelivery b c kb k).2 ↔
      ¬(kb.ctrl = true ∧ c = letterC ∧ k.displayedTerminal ≠ k.executingTerminal) := by
  have hctrl : c = letterC → (ctrlKey c kb).ctrl = kb.ctrl := by
    rintro rfl
    rfl
  rcases getScancodeWith_effect signalDelivery b c kb k with ⟨hpressed, hc, -, heq⟩ |
    ⟨hcut, hscreen⟩
  · rw [hctrl hc] at hpressed
    have hkept := hsignal 2 (k.onTerminal k.displayedTerminal)
    rw [heq]
    by_cases hshown : k.displayedTerminal = k.executingTerminal
    · rw [Kernel.onTerminal_eq hshown.symm] at hkept ⊢
      exact iff_of_true (hkept.keepsContext hmapped) fun hboth => hboth.2.2 hshown
    · refine iff_of_false (fun hkeeps => hshown ?_) (not_not.mpr ⟨hpressed, hc, hshown⟩)
      exact hkept.executingTerminal.symm.trans hkeeps.executingTerminal
  · have hkept := (lineEffect_contextKept ((kb.press c).event c) k).trans hscreen.contextKept
    refine iff_of_true (hkept.keepsContext hmapped) fun hboth => hcut ⟨?_, hboth.2.1⟩
    rw [hctrl hboth.2.1]
    exact hboth.1

/-- A process that has been started is mapped. -/
theorem Launch.mapped {k k' : Kernel} {n esp ebp : Nat} (h : Launch n esp ebp k k')
    (hn : n < maxNumProcess) :
    k'.paging.pageDirectory virPro = processEntry k'.activePcb.processNum := by
  unfold Kernel.activePcb
  rw [h.paging, h.current_activePcb, h.processNum, processMap_pageDirectory_virPro _ hn]

/-- The shell of the first terminal runs, and the second terminal is displayed. -/
theorem smallBoot_shell_behind :
    ∃ k₁, sysExecute smallBoot (smallArgs shellCommand) (boot smallBoot blankKernel) =
        .launched 0x08048000 k₁ ∧
      ∃ k, k = switchActiveTerminal smallBoot 1 k₁ ∧ k.executingTerminal = 0 ∧
        k.displayedTerminal = 1 ∧
        k.paging.pageDirectory virPro = processEntry k.activePcb.processNum := by
  have hslots := boot_usedBelow smallBoot blankKernel
  have hnum := boot_numProcessExecuting smallBoot blankKernel
  have hexec := boot_executingTerminal smallBoot blankKernel
  generalize boot smallBoot blankKernel = k₀ at hslots hnum hexec ⊢
  obtain ⟨k₁, hlaunched, hlaunch, -⟩ := smallBoot_next_shell hslots (by decide) hnum 0
  rw [Kernel.onTerminal_eq hexec] at hlaunched hlaunch
  obtain ⟨k', hmem, heq⟩ := switchActiveTerminal_eq smallBoot 1 k₁
  have hkept := hmem.screenOnly.contextKept.trans (lineEffect_contextKept (.display 1) k')
  refine ⟨k₁, hlaunched, _, rfl, ?_⟩
  rw [heq]
  refine ⟨?_, rfl, (hkept.keepsContext (hlaunch.mapped (by decide))).mapped⟩
  rw [← hexec, ← hlaunch.executingTerminal]
  exact hkept.executingTerminal

/-- The shell of the first terminal runs, behind the second terminal, and the key C is struck
alone. -/
theorem smallBoot_letterC_keeps_context :
    ∃ k : Kernel, k.displayedTerminal ≠ k.executingTerminal ∧
      KeepsContext k (getScancodeWith (fun _ k => k) smallBoot letterC keyboardInit k).2 := by
  obtain ⟨-, -, k, -, hexec, hshown, hmapped⟩ := smallBoot_shell_behind
  refine ⟨k, by rw [hexec, hshown]; decide, ?_⟩
  rw [getScancode_keeps_context_iff (fun _ k => k)
    (fun _ _ => ⟨rfl, rfl, fun _ => rfl, fun _ => rfl⟩) smallBoot letterC keyboardInit k hmapped]
  exact fun hboth => absurd hboth.1 (by decide)

/-- The shell of the first terminal runs, behind the second terminal, and control-C is
struck. -/
theorem controlC_leaves_context :
    ¬∀ (signalDelivery : Nat → Kernel → Kernel) (b : Boot) (c : UInt8) (kb : Keyboard)
        (k : Kernel), SignalKeepsContext signalDelivery →
      k.paging.pageDirectory virPro = processEntry k.activePcb.processNum →
      KeepsContext k (getScancodeWith signalDelivery b c kb k).2 := by
  intro hall
  obtain ⟨-, -, k, -, hexec, hshown, hmapped⟩ := smallBoot_shell_behind
  have hkeeps := hall (fun _ k => k) smallBoot letterC { keyboardInit with ctrl := true } k
    (fun _ _ => ⟨rfl, rfl, fun _ => rfl, fun _ => rfl⟩) hmapped
  rcases getScancodeWith_effect (fun _ k => k) smallBoot letterC { keyboardInit with ctrl := true }
      k with ⟨-, -, -, heq⟩ | ⟨hcut, -⟩
  · have hsame := hkeeps.executingTerminal
    rw [heq] at hsame
    exact absurd (hshown.symm.trans (hsame.trans hexec)) (by decide)
  · exact hcut ⟨rfl, rfl⟩

end Ece391Kernel
