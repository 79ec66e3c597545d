import Ece391Kernel.Process.Effects

/-!
# The timer interrupt

`pit_interrupt` and `context_switch`. A tick of the timer saves the stack
registers of the running process in the record of its terminal, and goes on with
the next terminal: it loads the registers that this one has saved or, if nothing
has been started there, starts a shell. As in the functions of `syscall.c`, the
registers come from outside the kernel data.
-/

namespace Ece391Kernel

/-- `SEG`. -/
@[simp] def seg : Nat := 4

/-- The stack registers when the timer interrupts, and what a shell that is started
then finds: the contents of the stack and the registers. -/
structure SwitchArgs where
  esp : Nat
  ebp : Nat
  stack : Int → UInt8
  shellEsp : Nat
  shellEbp : Nat

/-- A tick at which all registers are zero. -/
def smallTick : SwitchArgs := ⟨0, 0, fun _ => 0, 0, 0⟩

/-- How a tick ends: it returns into the process that it has interrupted; it goes on
with the stack of another terminal; a shell has been started; the shell has not
been found, and the call returns; or there is no state to go on in. -/
inductive SwitchOutcome
  | stayed (k : Kernel)
  | switched (esp ebp : Nat) (k : Kernel)
  | launched (firstInstruction : Nat) (k : Kernel)
  | failed (k : Kernel)
  | stuck

/-- The first assembly statement of `context_switch`. -/
@[simps! -fullyApplied] def saveRegisters (a : SwitchArgs) (k : Kernel) : Kernel :=
  k.setTerminal k.executingTerminal fun term => { term with esp := a.esp, ebp := a.ebp }

/-- The mapping and the kernel stack for process `n` of terminal `next`. -/
@[simps -fullyApplied] def remap (next : Fin 3) (n : Nat) (k : Kernel) : Kernel :=
  { k with
    paging := processMap n k.paging
    tss := { ss0 := kernelDs, esp0 := eightMB - eightKB * n - seg }
    executingTerminal := next }

/-- The call for a shell in `context_switch`. -/
def switchShell (a : SwitchArgs) : ExecArgs :=
  ⟨some shellCommand, a.stack, a.shellEsp, a.shellEbp⟩

/-- `context_switch`. -/
def contextSwitch (b : Boot) (a : SwitchArgs) (k : Kernel) : SwitchOutcome :=
  if (k.terminals firstTerminal).numProcessExecutingOnTerminal = 0 then .stayed k
  else if k.nextScheduledTerminal = k.executingTerminal then .stayed k
  else
    let next := k.nextScheduledTerminal
    let tempTerm := k.executingTerminal
    let k := saveRegisters a k
    if (k.terminals next).numProcessExecutingOnTerminal = 0 then
      match sysExecute b (switchShell a) (k.onTerminal next) with
      | .returned k =>
          .failed { k with executingTerminal := tempTerm, displayedTerminal := tempTerm }
      | .launched entry k => .launched entry k
      | _ => .stuck
    else
      .switched (k.terminals next).esp (k.terminals next).ebp
        (remap next (k.pcbs (k.terminals next).activePcb).processNum k)

/-- The assignment of `pit_interrupt`. -/
@[simps -fullyApplied] def scheduleNext (k : Kernel) : Kernel :=
  { k with nextScheduledTerminal := nextTerminal k.executingTerminal }

/-- `pit_interrupt`. -/
def pitInterrupt (b : Boot) (a : SwitchArgs) (k : Kernel) : SwitchOutcome :=
  contextSwitch b a (scheduleNext k)

/-! ## The cases of a tick -/

theorem nextTerminal_ne (t : Fin 3) : nextTerminal t ≠ t := by decide +revert

/-- The terminal whose turn comes next. -/
def Kernel.next (k : Kernel) : Fin 3 := nextTerminal k.executingTerminal

/-- The state in which a tick has saved the registers. -/
def parked (a : SwitchArgs) (k : Kernel) : Kernel := saveRegisters a (scheduleNext k)

theorem parked_terminals (a : SwitchArgs) (k : Kernel) :
    (parked a k).terminals = Function.update k.terminals k.executingTerminal
      { k.current with esp := a.esp, ebp := a.ebp } := rfl

/-- The record of the next terminal is not touched. -/
theorem parked_next (a : SwitchArgs) (k : Kernel) :
    (parked a k).terminals k.next = k.terminals k.next := by
  have hne : k.next ≠ k.executingTerminal := nextTerminal_ne k.executingTerminal
  rw [parked_terminals, Function.update_of_ne hne]

/-- A tick keeps the counts and the active processes of all terminals. -/
theorem parked_terminal (a : SwitchArgs) (k : Kernel) (t : Fin 3) :
    ((parked a k).terminals t).numProcessExecutingOnTerminal =
        (k.terminals t).numProcessExecutingOnTerminal ∧
      ((parked a k).terminals t).activePcb = (k.terminals t).activePcb := by
  rw [parked_terminals]
  by_cases ht : t = k.executingTerminal
  · rw [ht, Function.update_self]
    exact ⟨rfl, rfl⟩
  · rw [Function.update_of_ne ht]
    exact ⟨rfl, rfl⟩

/-- The comparison of the two terminals never succeeds. -/
theorem pitInterrupt_eq (b : Boot) (a : SwitchArgs) (k : Kernel) :
    pitInterrupt b a k =
      if (k.terminals 0).numProcessExecutingOnTerminal = 0 then .stayed (scheduleNext k)
      else if (k.terminals k.next).numProcessExecutingOnTerminal = 0 then
        match sysExecute b (switchShell a) ((parked a k).onTerminal k.next) with
        | .returned k' =>
            .failed { k' with
              executingTerminal := k.executingTerminal, displayedTerminal := k.executingTerminal }
        | .launched entry k' => .launched entry k'
        | _ => .stuck
      else
        .switched (k.terminals k.next).esp (k.terminals k.next).ebp
          (remap k.next (k.pcbs (k.terminals k.next).activePcb).processNum (parked a k)) := by
  have hne : (scheduleNext k).nextScheduledTerminal ≠ (scheduleNext k).executingTerminal :=
    nextTerminal_ne k.executingTerminal
  have hnext : (scheduleNext k).nextScheduledTerminal = k.next := rfl
  have hparked : saveRegisters a (scheduleNext k) = parked a k := rfl
  unfold pitInterrupt contextSwitch
  rw [if_neg hne]
  simp only [hnext, hparked, parked_next]
  rfl

theorem pitInterrupt_stayed {b : Boot} {a : SwitchArgs} {k k' : Kernel}
    (h : pitInterrupt b a k = .stayed k') : k' = scheduleNext k := by
  rw [pitInterrupt_eq] at h
  split at h
  · exact (SwitchOutcome.stayed.inj h).symm
  · split at h
    · split at h <;> exact absurd h (by simp)
    · exact absurd h (by simp)

theorem pitInterrupt_switched {b : Boot} {a : SwitchArgs} {k k' : Kernel} {esp ebp : Nat}
    (h : pitInterrupt b a k = .switched esp ebp k') :
    (k.terminals k.next).numProcessExecutingOnTerminal ≠ 0 ∧
      esp = (k.terminals k.next).esp ∧ ebp = (k.terminals k.next).ebp ∧
      k' = remap k.next (k.pcbs (k.terminals k.next).activePcb).processNum (parked a k) := by
  rw [pitInterrupt_eq] at h
  split at h
  · exact absurd h (by simp)
  · split at h
    · split at h <;> exact absurd h (by simp)
    · rename_i hstarted
      obtain ⟨hesp, hebp, hk'⟩ := SwitchOutcome.switched.inj h
      exact ⟨hstarted, hesp.symm, hebp.symm, hk'.symm⟩

/-- A tick that starts a shell calls `sys_execute` on the next terminal. -/
theorem pitInterrupt_executed {b : Boot} {a : SwitchArgs} {k k' : Kernel} {entry : Nat}
    (h : pitInterrupt b a k = .launched entry k') :
    (k.terminals k.next).numProcessExecutingOnTerminal = 0 ∧
      sysExecute b (switchShell a) ((parked a k).onTerminal k.next) = .launched entry k' := by
  rw [pitInterrupt_eq] at h
  split at h
  · exact absurd h (by simp)
  · split at h
    · rename_i hempty
      split at h
      · exact absurd h (by simp)
      · rename_i entry' k₁ hlaunched
        obtain ⟨rfl, rfl⟩ := SwitchOutcome.launched.inj h
        exact ⟨hempty, hlaunched⟩
      · exact absurd h (by simp)
    · exact absurd h (by simp)

theorem pitInterrupt_launched {b : Boot} {a : SwitchArgs} {k k' : Kernel} {entry : Nat}
    (h : pitInterrupt b a k = .launched entry k') :
    (k.terminals k.next).numProcessExecutingOnTerminal = 0 ∧
      ∃ n, freeSlot (parked a k) = some n ∧
        Launch n a.shellEsp a.shellEbp ((parked a k).onTerminal k.next) k' := by
  obtain ⟨hempty, hexecuted⟩ := pitInterrupt_executed h
  obtain ⟨n, hslot, hlaunch⟩ := sysExecute_launched hexecuted
  exact ⟨hempty, n, hslot, hlaunch⟩

/-- A tick whose shell does not start. -/
theorem pitInterrupt_failed {b : Boot} {a : SwitchArgs} {k k' : Kernel}
    (h : pitInterrupt b a k = .failed k') :
    (k.terminals 0).numProcessExecutingOnTerminal ≠ 0 ∧
      (k.terminals k.next).numProcessExecutingOnTerminal = 0 ∧
      ∃ k₁, sysExecute b (switchShell a) ((parked a k).onTerminal k.next) = .returned k₁ ∧
        k' = { k₁ with
          executingTerminal := k.executingTerminal, displayedTerminal := k.executingTerminal } := by
  rw [pitInterrupt_eq] at h
  split at h
  · exact absurd h (by simp)
  · rename_i hfirst
    split at h
    · rename_i hempty
      split at h
      · rename_i k₁ hreturned
        exact ⟨hfirst, hempty, k₁, hreturned, (SwitchOutcome.failed.inj h).symm⟩
      · exact absurd h (by simp)
      · exact absurd h (by simp)
    · exact absurd h (by simp)

end Ece391Kernel
