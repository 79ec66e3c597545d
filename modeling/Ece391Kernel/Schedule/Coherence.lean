import Ece391Kernel.Process.Tree
import Ece391Kernel.Schedule.ContextSwitch
import Mathlib.Data.List.Chain

/-!
# The context of the running process

When control is back in a process, the page at `0x8000000` is the frame of this
process, and `tss.esp0` points into its kernel stack. A call that starts a
process, a halt that goes back to the parent and the timer set the two in three
different ways; the halt relies on the value that the child has kept in
`curr_esp0` since it was started, and the timer on the process number in the
control block. `Coherent` says what these stored values mean.

The last part is about the stack registers. `Machine` adds to the kernel a record,
which no code reads, of the registers with which each terminal was last switched
away from.
-/

namespace Ece391Kernel

open TransitionSystem LinkedStack

/-- The address is in the kernel stack of process `n`, whose top is its highest
address. -/
def InKernelStack (n : Fin 6) (esp0 : Nat) : Prop :=
  eightMB - eightKB * (n + 1) < esp0 ∧ esp0 ≤ eightMB - eightKB * n

/-- The child has kept a stack pointer of its parent. -/
def KeptEsp0 (k : Kernel) (child parent : Fin 6) : Prop :=
  InKernelStack parent (k.pcbs (slotAddr child)).currEsp0

/-- The mapping and the kernel stack are those of process `n`. -/
structure InContext (k : Kernel) (n : Fin 6) : Prop where
  mapped : k.paging.pageDirectory virPro = processEntry n
  kernelStack : InKernelStack n k.tss.esp0

/-- The kernel keeps the stacks, the process on top of the executing one is in its
context, and every process has kept a stack pointer of its parent. -/
structure Coherent (k : Kernel) (s : ProcessStacks) : Prop where
  represents : Represents k s
  kept : ∀ t, (s.on t).IsChain (KeptEsp0 k)
  inContext : ∀ n l, s.on k.executingTerminal = n :: l → InContext k n

/-- The stack pointer of `sys_execute`. -/
theorem inKernelStack_top (n : Fin 6) : InKernelStack n (eightMB - eightKB * n) := by
  unfold InKernelStack
  simp only [eightMB, eightKB]
  omega

/-- The stack pointer of `context_switch`. -/
theorem inKernelStack_below_top (n : Fin 6) : InKernelStack n (eightMB - eightKB * n - seg) := by
  unfold InKernelStack
  simp only [eightMB, eightKB, seg]
  omega

namespace Coherent

variable {k k' k₁ : Kernel} {s : ProcessStacks}

/-- Only the stack pointers that the processes of a stack have kept matter. -/
theorem kept_congr {l : List (Fin 6)} (h : l.IsChain (KeptEsp0 k))
    (hsame : ∀ n ∈ l, (k'.pcbs (slotAddr n)).currEsp0 = (k.pcbs (slotAddr n)).currEsp0) :
    l.IsChain (KeptEsp0 k') := by
  refine h.imp_of_mem_imp fun n m hn _ hkept => ?_
  unfold KeptEsp0
  rw [hsame n hn]
  exact hkept

/-- A call that fails. -/
theorem fail (h : Coherent k s) (hfailed : Failed k k') : Coherent k' s where
  represents := h.represents.fail hfailed
  kept := fun t => kept_congr (h.kept t) fun n _ => by rw [hfailed.pcbs]
  inContext := by
    intro n l htop
    rw [hfailed.executingTerminal] at htop
    obtain ⟨hmapped, hstack⟩ := h.inContext n l htop
    exact ⟨by rw [hfailed.paging]; exact hmapped, by rw [hfailed.tss]; exact hstack⟩

/-- A process that is started runs in its own context, and keeps the stack pointer
of the process below it. -/
theorem launch (h : Coherent k s) {n : Fin 6} {esp ebp : Nat} (hfree : k.processes n = 0)
    (hlaunch : Launch n esp ebp k k') :
    ∃ hn : ¬s.Owned n, Coherent k' (s.push k.executingTerminal n hn) := by
  obtain ⟨hn, hk'⟩ := h.represents.launch hfree hlaunch
  have hother : ∀ t, ∀ m ∈ s.on t, k'.pcbs (slotAddr m) = k.pcbs (slotAddr m) := by
    intro t m hm
    refine hlaunch.pcbs_other _ fun heq => hn ⟨t, ?_⟩
    rwa [← slotAddr_injective heq]
  have hkept : ∀ t, (s.on t).IsChain (KeptEsp0 k') :=
    fun t => kept_congr (h.kept t) fun m hm => by rw [hother t m hm]
  refine ⟨hn, hk', ?_, ?_⟩
  · intro t
    by_cases ht : t = k.executingTerminal
    · rw [ht, Stacks.push_on_self, List.isChain_cons]
      refine ⟨fun m hm => ?_, hkept _⟩
      obtain ⟨l, hl⟩ := List.head?_eq_some_iff.mp (Option.mem_def.mp hm)
      have hesp0 : (k'.pcbs (slotAddr n)).currEsp0 = k.tss.esp0 := hlaunch.currEsp0
      unfold KeptEsp0
      rw [hesp0]
      exact (h.inContext m l hl).kernelStack
    · rw [Stacks.push_on_ne s n hn ht]
      exact hkept t
  · intro m l htop
    rw [hlaunch.executingTerminal, Stacks.push_on_self] at htop
    obtain ⟨rfl, -⟩ := List.cons.inj htop
    refine ⟨?_, ?_⟩
    · rw [hlaunch.paging]
      exact processMap_pageDirectory_virPro k.paging n.isLt
    · rw [hlaunch.tss]
      exact inKernelStack_top n

/-- Taking a process off its stack keeps what the others have kept. -/
theorem kept_pop (h : Coherent k s) (e : Fin 3)
    (hsame : ∀ addr, (k'.pcbs addr).currEsp0 = (k.pcbs addr).currEsp0) (t : Fin 3) :
    ((s.pop e).on t).IsChain (KeptEsp0 k') := by
  have hkept : ∀ u, (s.on u).IsChain (KeptEsp0 k') :=
    fun u => kept_congr (h.kept u) fun n _ => hsame _
  by_cases ht : t = e
  · rw [ht, Stacks.pop_on_self]
    exact (hkept e).tail
  · rw [Stacks.pop_on_ne s ht]
    exact hkept t

/-- The release of the last process of a terminal leaves no process there. -/
theorem release (h : Coherent k s) {n : Fin 6} (htop : s.on k.executingTerminal = [n])
    (hreleased : Released k k₁) : Coherent k₁ (s.pop k.executingTerminal) where
  represents := h.represents.release htop hreleased
  kept := h.kept_pop k.executingTerminal fun addr => (hreleased.pcb addr).2.2.1
  inContext := by
    intro m l hm
    rw [hreleased.executingTerminal, Stacks.pop_on_self, htop, List.tail_cons] at hm
    exact absurd hm (by simp)

/-- A halt goes back into the context of the parent. -/
theorem resume (h : Coherent k s) {n m : Fin 6} {l : List (Fin 6)}
    (htop : s.on k.executingTerminal = n :: m :: l) (hreleased : Released k k₁) {pcb : Pcb}
    (hpcb : pcb = k₁.pcbs k.current.activePcb) :
    Coherent (resumeParent pcb k₁) (s.pop k.executingTerminal) where
  represents := h.represents.resume htop hreleased hpcb
  kept := by
    refine h.kept_pop k.executingTerminal fun addr => ?_
    rw [resumeParent_pcbs]
    exact (hreleased.pcb addr).2.2.1
  inContext := by
    intro m' l' hm
    rw [resumeParent_executingTerminal, hreleased.executingTerminal, Stacks.pop_on_self, htop,
      List.tail_cons] at hm
    obtain ⟨rfl, -⟩ := List.cons.inj hm
    obtain ⟨hactive, -, hrest⟩ := h.represents.top htop
    have hcurrent : k.current.activePcb = slotAddr n := hactive
    have hparent : pcb.parentPcb = slotAddr m := by
      rw [hpcb, hcurrent, (hreleased.pcb _).2.1]
      exact hrest.top.1
    have hnum : (k₁.pcbs (slotAddr m)).processNum = m := by
      rw [(hreleased.pcb _).1]
      exact h.represents.processNum _ m (by rw [htop]; simp)
    have hkept := h.kept k.executingTerminal
    rw [htop, List.isChain_cons_cons] at hkept
    refine ⟨?_, ?_⟩
    · have hpaging : (resumeParent pcb k₁).paging =
          processMap (k₁.pcbs pcb.parentPcb).processNum k₁.paging := rfl
      rw [hpaging, hparent, hnum]
      exact processMap_pageDirectory_virPro k₁.paging m.isLt
    · have htss : (resumeParent pcb k₁).tss.esp0 = pcb.currEsp0 := rfl
      rw [htss, hpcb, hcurrent, (hreleased.pcb _).2.2.1]
      exact hkept.1

/-- A call keeps the context of the process in which it ends. -/
theorem call (h : Coherent k s) {b : Boot} {call : Call}
    (henabled : ∀ a, call = .halt a → 0 < k.current.numProcessExecutingOnTerminal)
    (hcall : (runCall b call k).state = some k') :
    ∃ s', Coherent k' s' ∧ StackStep k.executingTerminal s s' := by
  rcases runCall_cases hcall with ⟨a, -, hret⟩ | ⟨a, entry, n, -, -, hslot, hlaunch⟩ |
    ⟨a, k₁, n, hhalt, hzero, hreleased, hslot, hlaunch⟩ |
    ⟨a, k₁, pcb, hhalt, hparent, hreleased, hpcb, rfl, -⟩
  · exact ⟨s, h.fail (sysExecute_returned hret).1, StackStep.fail s⟩
  · obtain ⟨m, rfl, hfree⟩ := freeSlot_some hslot
    obtain ⟨hm, hk'⟩ := h.launch hfree hlaunch
    exact ⟨_, hk', StackStep.start s m hm⟩
  · obtain ⟨top, l, htop⟩ := h.represents.exists_top (henabled a hhalt)
    obtain rfl := (h.represents.parent_eq_zero htop).mp hzero
    obtain ⟨m, rfl, hfree⟩ := freeSlot_some hslot
    obtain ⟨hm, hk'⟩ := (h.release htop hreleased).launch hfree hlaunch
    revert hm hk'
    rw [hreleased.executingTerminal]
    exact fun hm hk' => ⟨_, hk', StackStep.restart s top m htop hm⟩
  · obtain ⟨top, l, htop⟩ := h.represents.exists_top (henabled a hhalt)
    cases l with
    | nil => exact absurd ((h.represents.parent_eq_zero htop).mpr rfl) hparent
    | cons m l => exact ⟨_, h.resume htop hreleased hpcb, StackStep.finish s top m l htop⟩

/-! ## The timer -/

theorem scheduleNext (h : Coherent k s) : Coherent (scheduleNext k) s where
  represents := h.represents.of_same rfl (fun _ => ⟨rfl, rfl⟩) fun _ => ⟨rfl, rfl⟩
  kept := h.kept
  inContext := fun n l htop => ⟨(h.inContext n l htop).mapped, (h.inContext n l htop).kernelStack⟩

/-- The tick goes on in the context of the next terminal. -/
theorem remap (h : Coherent k s) (a : SwitchArgs) :
    Coherent (remap k.next (k.pcbs (k.terminals k.next).activePcb).processNum (parked a k)) s where
  represents := h.represents.of_same rfl (fun _ => ⟨rfl, rfl⟩) (parked_terminal a k)
  kept := h.kept
  inContext := by
    intro n l htop
    rw [remap_executingTerminal] at htop
    obtain ⟨hactive, hnum, -⟩ := h.represents.top htop
    rw [hactive, hnum]
    refine ⟨?_, ?_⟩
    · rw [remap_paging]
      exact processMap_pageDirectory_virPro _ n.isLt
    · exact inKernelStack_below_top n

/-- There is no process on the next terminal before the shell is started there. -/
theorem parked (h : Coherent k s) (a : SwitchArgs)
    (hempty : (k.terminals k.next).numProcessExecutingOnTerminal = 0) :
    Coherent ((parked a k).onTerminal k.next) s where
  represents := h.represents.of_same rfl (fun _ => ⟨rfl, rfl⟩) (parked_terminal a k)
  kept := h.kept
  inContext := by
    intro n l htop
    have hlen := h.represents.length k.next
    rw [Kernel.onTerminal_executingTerminal] at htop
    rw [hempty, htop, List.length_cons] at hlen
    omega

end Coherent

/-! ## The machine -/

/-- The kernel, and the registers `(esp, ebp)` with which each terminal was last
switched away from. -/
structure Machine where
  kernel : Kernel
  saved : Fin 3 → Option (Nat × Nat)

/-- What can happen: the running process makes a call, or the timer ticks. -/
inductive MachineLabel
  | call (c : Call)
  | tick (a : SwitchArgs)

/-- The running process makes a call, or the timer ticks; a tick that leaves the
terminal is recorded. The shell that a tick starts is always found. -/
inductive MachineStep (b : Boot) : Machine → MachineLabel → Machine → Prop
  | call {k k' : Kernel} {saved : Fin 3 → Option (Nat × Nat)} {c : Call}
      (henabled : ∀ a, c = .halt a → 0 < k.current.numProcessExecutingOnTerminal)
      (h : (runCall b c k).state = some k') : MachineStep b ⟨k, saved⟩ (.call c) ⟨k', saved⟩
  | stay {k k' : Kernel} {saved : Fin 3 → Option (Nat × Nat)} {a : SwitchArgs}
      (h : pitInterrupt b a k = .stayed k') : MachineStep b ⟨k, saved⟩ (.tick a) ⟨k', saved⟩
  | switch {k k' : Kernel} {saved : Fin 3 → Option (Nat × Nat)} {a : SwitchArgs} {esp ebp : Nat}
      (h : pitInterrupt b a k = .switched esp ebp k') :
      MachineStep b ⟨k, saved⟩ (.tick a)
        ⟨k', Function.update saved k.executingTerminal (some (a.esp, a.ebp))⟩
  | launch {k k' : Kernel} {saved : Fin 3 → Option (Nat × Nat)} {a : SwitchArgs} {entry : Nat}
      (h : pitInterrupt b a k = .launched entry k') :
      MachineStep b ⟨k, saved⟩ (.tick a)
        ⟨k', Function.update saved k.executingTerminal (some (a.esp, a.ebp))⟩

/-- The machine after boot. -/
def Machine.boot (b : Boot) (k : Kernel) : Machine := ⟨Ece391Kernel.boot b k, fun _ => none⟩

/-- A terminal that has been switched away from still holds the registers of then. -/
def RegistersKept (m : Machine) : Prop :=
  ∀ t, t ≠ m.kernel.executingTerminal →
    0 < (m.kernel.terminals t).numProcessExecutingOnTerminal →
      m.saved t = some ((m.kernel.terminals t).esp, (m.kernel.terminals t).ebp)

/-- If there is a process at all, one runs on the executing terminal. -/
def Running (k : Kernel) (s : ProcessStacks) : Prop :=
  ∀ t, s.on t ≠ [] → s.on k.executingTerminal ≠ []

/-- What holds of the machine in every run. -/
def MachineInvariant (m : Machine) : Prop :=
  (∃ s, Coherent m.kernel s ∧ Running m.kernel s) ∧ RegistersKept m

/-- A call leaves the terminals alone on which it does not run. -/
theorem runCall_other {b : Boot} {call : Call} {k k' : Kernel}
    (h : (runCall b call k).state = some k') :
    k'.executingTerminal = k.executingTerminal ∧
      ∀ t, t ≠ k.executingTerminal → k'.terminals t = k.terminals t := by
  rcases runCall_cases h with ⟨a, -, hret⟩ | ⟨a, entry, n, -, -, -, hlaunch⟩ |
    ⟨a, k₁, n, -, -, hreleased, -, hlaunch⟩ | ⟨a, k₁, pcb, -, -, hreleased, -, rfl, -⟩
  · obtain ⟨hfailed, -⟩ := sysExecute_returned hret
    exact ⟨hfailed.executingTerminal, fun t _ => by rw [hfailed.terminals]⟩
  · refine ⟨hlaunch.executingTerminal, fun t ht => ?_⟩
    rw [hlaunch.terminals, Function.update_of_ne ht]
  · refine ⟨hlaunch.executingTerminal.trans hreleased.executingTerminal, fun t ht => ?_⟩
    rw [hlaunch.terminals, hreleased.executingTerminal, Function.update_of_ne ht,
      hreleased.terminals, Function.update_of_ne ht]
  · refine ⟨hreleased.executingTerminal, fun t ht => ?_⟩
    rw [resumeParent_terminals, hreleased.executingTerminal, Function.update_of_ne ht,
      hreleased.terminals, Function.update_of_ne ht]

/-- After a call a process runs, unless there was none and the call has failed. -/
theorem StackStep.running {t : Fin 3} {s s' : ProcessStacks} (h : StackStep t s s')
    (hs : ∀ u, s.on u ≠ [] → s.on t ≠ []) : ∀ u, s'.on u ≠ [] → s'.on t ≠ [] := by
  intro u hu
  cases h with
  | fail => exact hs u hu
  | start n h =>
      rw [Stacks.push_on_self]
      exact List.cons_ne_nil _ _
  | finish n m l htop =>
      rw [Stacks.pop_on_self, htop, List.tail_cons]
      exact List.cons_ne_nil _ _
  | restart n m htop h =>
      rw [Stacks.push_on_self]
      exact List.cons_ne_nil _ _

/-- Leaving a terminal records the registers that the tick saves there. -/
theorem RegistersKept.park {k k' : Kernel} {saved : Fin 3 → Option (Nat × Nat)}
    (h : RegistersKept ⟨k, saved⟩) (a : SwitchArgs) (hexec : k'.executingTerminal = k.next)
    (hterminals : ∀ t, t ≠ k.next → k'.terminals t = (parked a k).terminals t) :
    RegistersKept ⟨k', Function.update saved k.executingTerminal (some (a.esp, a.ebp))⟩ := by
  intro t ht hstarted
  simp only [hexec] at ht hstarted ⊢
  rw [hterminals t ht, parked_terminals] at hstarted ⊢
  by_cases hcurrent : t = k.executingTerminal
  · rw [hcurrent, Function.update_self, Function.update_self]
  · rw [Function.update_of_ne hcurrent] at hstarted ⊢
    rw [Function.update_of_ne hcurrent]
    exact h t hcurrent hstarted

theorem MachineInvariant.step {b : Boot} {m m' : Machine} {label : MachineLabel}
    (h : MachineInvariant m) (hstep : MachineStep b m label m') : MachineInvariant m' := by
  obtain ⟨⟨s, hs, hrunning⟩, hkept⟩ := h
  cases hstep with
  | @call k k' saved c henabled hcall =>
      obtain ⟨s', hs', hstack⟩ := hs.call henabled hcall
      obtain ⟨hexec, hother⟩ := runCall_other hcall
      refine ⟨⟨s', hs', ?_⟩, ?_⟩
      · unfold Running
        simp only [hexec]
        exact hstack.running hrunning
      · intro t ht hstarted
        simp only [hexec] at ht
        simp only [hother t ht] at hstarted ⊢
        exact hkept t ht hstarted
  | @stay k k' saved a htick =>
      rw [pitInterrupt_stayed htick]
      exact ⟨⟨s, hs.scheduleNext, hrunning⟩, hkept⟩
  | @switch k k' saved a esp ebp htick =>
      obtain ⟨hstarted, -, -, rfl⟩ := pitInterrupt_switched htick
      refine ⟨⟨s, hs.remap a, ?_⟩, hkept.park a rfl fun t _ => rfl⟩
      intro t _ hnil
      have hlen := hs.represents.length k.next
      rw [remap_executingTerminal] at hnil
      rw [hnil] at hlen
      exact hstarted hlen
  | @launch k k' saved a entry htick =>
      obtain ⟨hempty, n, hslot, hlaunch⟩ := pitInterrupt_launched htick
      obtain ⟨n, rfl, hfree⟩ := freeSlot_some hslot
      obtain ⟨hn, hk'⟩ := (hs.parked a hempty).launch hfree hlaunch
      refine ⟨⟨_, hk', ?_⟩, hkept.park a hlaunch.executingTerminal fun t ht => ?_⟩
      · intro t _
        simp only [hlaunch.executingTerminal]
        rw [Stacks.push_on_self]
        exact List.cons_ne_nil _ _
      · rw [hlaunch.terminals]
        exact Function.update_of_ne ht _ _

theorem boot_machineInvariant (b : Boot) (k : Kernel) : MachineInvariant (Machine.boot b k) := by
  have hs := boot_represents b k
  refine ⟨⟨Stacks.empty, ⟨hs, fun _ => List.isChain_nil, ?_⟩, ?_⟩, ?_⟩
  · exact fun n l htop => absurd htop (by simp [Stacks.empty])
  · exact fun t hne => absurd rfl hne
  · intro t _ hstarted
    have hlen := hs.length t
    rw [show (Machine.boot b k).kernel = boot b k from rfl, hlen] at hstarted
    exact absurd hstarted (by simp [Stacks.empty])

theorem MachineInvariant.run {b : Boot} {k₀ : Kernel} {labels : List MachineLabel} {m : Machine}
    (hrun : Run (MachineStep b) (Machine.boot b k₀) labels m) : MachineInvariant m :=
  hrun.invariant (fun _ _ _ h hstep => h.step hstep) (boot_machineInvariant b k₀)

/-! ## With the argument buffer in its place -/

/-- What can happen. The shell that a tick starts has no argument. -/
def MachineStepInPlace (b : Boot) (m : Machine) (label : MachineLabel) (m' : Machine) : Prop :=
  match label with
  | .call c => CallInPlace b c m.kernel m'.kernel ∧ m'.saved = m.saved
  | .tick a => MachineStep b m (.tick a) m'

/-- The argument of a call fits into the buffer. -/
def CallFits (_ : Machine) (label : MachineLabel) : Prop := ∀ c, label = .call c → c.Fits

/-- The step as it is carried out. -/
def MachineLabel.seen : MachineLabel → MachineLabel
  | .call c => .call c.seen
  | .tick a => .tick a

theorem machineStepInPlace_iff {b : Boot} {m m' : Machine} {label : MachineLabel}
    (hfits : CallFits m label) :
    MachineStepInPlace b m label m' ↔ MachineStep b m label.seen m' := by
  cases label with
  | tick a => rfl
  | call c =>
      obtain ⟨k, saved⟩ := m
      obtain ⟨k', saved'⟩ := m'
      unfold MachineStepInPlace MachineLabel.seen
      simp only [callInPlace_iff (hfits c rfl)]
      constructor
      · rintro ⟨⟨henabled, hcall⟩, rfl⟩
        exact MachineStep.call henabled hcall
      · intro hstep
        cases hstep with
        | call henabled hcall => exact ⟨⟨henabled, hcall⟩, rfl⟩

/-- In every run of calls and ticks from boot whose arguments fit into the buffer, once a
process has been started the page at `0x8000000` is the frame of the active process of the
executing terminal, and `tss.esp0` points into its kernel stack; and a tick that goes on with
another terminal loads the registers with which this one was last switched away from. -/
theorem context_coherent_in_every_run (b : Boot) (k₀ : Kernel) (m : Machine)
    (labels : List MachineLabel)
    (hrun : Run (guarded CallFits (MachineStepInPlace b)) (Machine.boot b k₀) labels m) :
    (∀ t, 0 < (m.kernel.terminals t).numProcessExecutingOnTerminal →
      ∃ n : Fin 6, m.kernel.activePcb.processNum = n ∧ InContext m.kernel n ∧
        ∀ user v, v / fourMB = virPro →
          translate b m.kernel.paging user v = some (frameAddr n + v % fourMB)) ∧
    ∀ a esp ebp k', pitInterrupt b a m.kernel = .switched esp ebp k' →
      m.saved k'.executingTerminal = some (esp, ebp) := by
  obtain ⟨⟨s, hs, hrunning⟩, hkept⟩ := MachineInvariant.run
    (hrun.map_labels fun _ _ _ hstep => (machineStepInPlace_iff hstep.1).mp hstep.2)
  constructor
  · intro t hstarted
    have hne : s.on m.kernel.executingTerminal ≠ [] := by
      obtain ⟨n, l, htop⟩ := hs.represents.exists_top hstarted
      exact hrunning t (by rw [htop]; exact List.cons_ne_nil _ _)
    obtain ⟨n, l, htop⟩ := List.exists_cons_of_ne_nil hne
    obtain ⟨hactive, hnum, -⟩ := hs.represents.top htop
    have hcontext := hs.inContext n l htop
    refine ⟨n, ?_, hcontext, fun user v hv => translate_process hcontext.mapped hv⟩
    unfold Kernel.activePcb Kernel.current
    rw [hactive, hnum]
  · intro a esp ebp k' htick
    obtain ⟨hstarted, rfl, rfl, rfl⟩ := pitInterrupt_switched htick
    rw [remap_executingTerminal]
    refine hkept _ (nextTerminal_ne _) ?_
    have hlen := hs.represents.length m.kernel.next
    omega

/-! ## A shell on every terminal -/

section Ticks

variable {k : Kernel} {s : ProcessStacks} (hs : Represents k s) (hfirst : s.on firstTerminal ≠ [])
include hs hfirst

theorem Represents.first_ne_zero :
    (k.terminals firstTerminal).numProcessExecutingOnTerminal ≠ 0 := by
  have hlen := hs.length firstTerminal
  have hpos := List.length_pos_iff.mpr hfirst
  omega

/-- In the small image a shell is found, and a tick starts it on the next terminal. -/
theorem smallBoot_tick_push {n : Fin 6} (hempty : s.on k.next = []) (hslots : UsedBelow n k)
    (hnum : k.numProcessExecuting = UInt32.ofNat n) :
    ∃ k' s', pitInterrupt smallBoot smallTick k = .launched 0x08048000 k' ∧ Represents k' s' ∧
      s'.on k.next = [n] ∧ (∀ u, u ≠ k.next → s'.on u = s.on u) ∧
      k'.executingTerminal = k.next ∧ UsedBelow (n + 1) k' ∧
      k'.numProcessExecuting = UInt32.ofNat (n + 1) := by
  have hparked : Represents ((parked smallTick k).onTerminal k.next) s :=
    hs.of_same rfl (fun _ => ⟨rfl, rfl⟩) (parked_terminal smallTick k)
  have hslots' : UsedBelow n (parked smallTick k) := ⟨hslots.used, hslots.free⟩
  obtain ⟨k', hk', hlaunch, hslots'', hnum'⟩ := smallBoot_next_shell hslots' n.isLt hnum k.next
  obtain ⟨hn, hs'⟩ := hparked.launch (hslots.free n (Nat.le_refl _) n.isLt) hlaunch
  have hcall : sysExecute smallBoot (switchShell smallTick)
      ((parked smallTick k).onTerminal k.next) = .launched 0x08048000 k' := hk'
  have hzero : (k.terminals k.next).numProcessExecutingOnTerminal = 0 := by
    rw [hs.length, hempty]
    rfl
  refine ⟨k', _, ?_, hs', ?_, fun u hu => Stacks.push_on_ne s n hn hu, hlaunch.executingTerminal,
    hslots'', hnum'⟩
  · rw [pitInterrupt_eq, if_neg (hs.first_ne_zero hfirst), if_pos hzero, hcall]
  · exact (Stacks.push_on_self s k.next n hn).trans (by rw [hempty])

/-- A tick goes on with a terminal that has been started. -/
theorem exists_tick_switch (b : Boot) (a : SwitchArgs) (hnext : s.on k.next ≠ []) :
    ∃ esp ebp k', pitInterrupt b a k = .switched esp ebp k' ∧ Represents k' s ∧
      k'.executingTerminal = k.next ∧ k'.processes = k.processes ∧
      k'.numProcessExecuting = k.numProcessExecuting := by
  have hstarted : (k.terminals k.next).numProcessExecutingOnTerminal ≠ 0 := by
    have hlen := hs.length k.next
    have hpos := List.length_pos_iff.mpr hnext
    omega
  have htick := pitInterrupt_eq b a k
  rw [if_neg (hs.first_ne_zero hfirst), if_neg hstarted] at htick
  exact ⟨_, _, _, htick, hs.of_same rfl (fun _ => ⟨rfl, rfl⟩) (parked_terminal a k), rfl, rfl, rfl⟩

end Ticks

/-- A shell is started on the first terminal, and ticks start one on each of the others and
come back to the first. -/
theorem exists_roundOfShells : ∃ m s,
    Run (MachineStep smallBoot) (Machine.boot smallBoot blankKernel)
        [.call (.execute (smallArgs shellCommand)), .tick smallTick, .tick smallTick,
          .tick smallTick] m ∧
      Represents m.kernel s ∧ s.on 0 = [0] ∧ s.on 1 = [1] ∧ m.kernel.executingTerminal = 0 ∧
      UsedBelow 3 m.kernel ∧ m.kernel.numProcessExecuting = 3 := by
  have hexec := boot_executingTerminal smallBoot blankKernel
  obtain ⟨k₁, s₁, ⟨-, hcall₁⟩, hs₁, htop₁, hother₁, hslots₁, hnum₁⟩ :=
    smallBoot_shell_push (n := 0) (boot_represents smallBoot blankKernel)
      (boot_usedBelow smallBoot blankKernel) (boot_numProcessExecuting smallBoot blankKernel) 0
  rw [Kernel.onTerminal_eq hexec] at hcall₁
  have hexec₁ : k₁.executingTerminal = 0 := (runCall_other hcall₁).1.trans hexec
  have hnext₁ : k₁.next = 1 := congrArg nextTerminal hexec₁
  have hone₁ : s₁.on 0 = [0] := htop₁
  obtain ⟨k₂, s₂, htick₂, hs₂, htop₂, hother₂, hexec₂, hslots₂, hnum₂⟩ :=
    smallBoot_tick_push (n := 1) hs₁ (by rw [hone₁]; simp)
      (by rw [hnext₁, hother₁ 1 (by decide)]; rfl) hslots₁ hnum₁
  have hnext₂ : k₂.next = 2 := congrArg nextTerminal (hexec₂.trans hnext₁)
  rw [hnext₁] at htop₂ hother₂
  have hone₂ : s₂.on 0 = [0] := (hother₂ 0 (by decide)).trans hone₁
  obtain ⟨k₃, s₃, htick₃, hs₃, htop₃, hother₃, hexec₃, hslots₃, hnum₃⟩ :=
    smallBoot_tick_push (n := 2) hs₂ (by rw [hone₂]; simp)
      (by rw [hnext₂, hother₂ 2 (by decide), hother₁ 2 (by decide)]; rfl) hslots₂ hnum₂
  have hnext₃ : k₃.next = 0 := congrArg nextTerminal (hexec₃.trans hnext₂)
  rw [hnext₂] at htop₃ hother₃
  have hone₃ : s₃.on 0 = [0] := (hother₃ 0 (by decide)).trans hone₂
  obtain ⟨esp, ebp, k₄, htick₄, hs₄, hexec₄, hprocesses₄, hnum₄⟩ :=
    exists_tick_switch hs₃ (by rw [hone₃]; simp) smallBoot smallTick (by rw [hnext₃, hone₃]; simp)
  have hslots₄ : UsedBelow 3 k₄ := ⟨by rw [hprocesses₄]; exact hslots₃.used,
    by rw [hprocesses₄]; exact hslots₃.free⟩
  exact ⟨_, s₃, Run.snoc (Run.snoc (Run.snoc (Run.single
    (MachineStep.call (fun a ha => absurd ha (by simp)) hcall₁)) (MachineStep.launch htick₂))
    (MachineStep.launch htick₃)) (MachineStep.switch htick₄), hs₄, hone₃,
    (hother₃ 1 (by decide)).trans htop₂, hexec₄.trans hnext₃, hslots₄, hnum₄.trans hnum₃⟩

/-- The first shell starts a child, which halts. -/
theorem exists_nestedRun : ∃ m,
    Run (MachineStep smallBoot) (Machine.boot smallBoot blankKernel)
        [.call (.execute (smallArgs shellCommand)), .tick smallTick, .tick smallTick,
          .tick smallTick, .call (.execute (smallArgs shellCommand)), .call (.halt smallHalt)] m ∧
      0 < (m.kernel.terminals 0).numProcessExecutingOnTerminal := by
  obtain ⟨⟨k, saved⟩, s, hrun, hs, hzero, -, hexec, hslots, hnum⟩ := exists_roundOfShells
  obtain ⟨k₁, s₁, ⟨-, hcall₁⟩, hs₁, htop₁, -, -, -⟩ :=
    smallBoot_shell_push (n := 3) hs hslots hnum 0
  rw [Kernel.onTerminal_eq hexec] at hcall₁
  have hexec₁ : k₁.executingTerminal = 0 := (runCall_other hcall₁).1.trans hexec
  obtain ⟨-, -, -, k₂, -, ⟨henabled, hcall₂⟩, hs₂, -⟩ :=
    hs₁.exists_halt (htop₁.trans (by rw [hzero])) smallBoot smallHalt
  rw [Kernel.onTerminal_eq hexec₁] at hcall₂
  have henabled' : 0 < k₁.current.numProcessExecutingOnTerminal := by
    unfold Kernel.current
    rw [hexec₁]
    exact henabled smallHalt rfl
  refine ⟨⟨k₂, saved⟩, Run.snoc (Run.snoc hrun
    (MachineStep.call (fun a ha => absurd ha (by simp)) hcall₁))
    (MachineStep.call (fun _ _ => henabled') hcall₂), ?_⟩
  rw [hs₂.length, Stacks.pop_on_self, htop₁, hzero]
  decide

/-- Calls that are carried out as they are. -/
theorem run_machineInPlace {b : Boot} {m m' : Machine} {labels : List MachineLabel}
    (hrun : Run (MachineStep b) m labels m')
    (hplain : ∀ label ∈ labels, ∀ c, label = .call c → c.Plain) :
    Run (guarded CallFits (MachineStepInPlace b)) m labels m' := by
  refine hrun.mono_of_labels (fun s label t hlabel hstep => ?_) hplain
  have hfits : CallFits s label := fun c hc => (hlabel c hc).fits
  have hseen : label.seen = label := by
    cases label with
    | tick a => rfl
    | call c => exact congrArg MachineLabel.call (hlabel c rfl).seen
  exact ⟨hfits, (machineStepInPlace_iff hfits).mpr (by rwa [hseen])⟩

theorem context_coherent_in_every_run_nested :
    ∃ m, Run (guarded CallFits (MachineStepInPlace smallBoot))
        (Machine.boot smallBoot blankKernel)
        [.call (.execute (smallArgs shellCommand)), .tick smallTick, .tick smallTick,
          .tick smallTick, .call (.execute (smallArgs shellCommand)), .call (.halt smallHalt)] m ∧
      ∃ n : Fin 6, m.kernel.activePcb.processNum = n ∧ InContext m.kernel n := by
  obtain ⟨m, hrun, hstarted⟩ := exists_nestedRun
  have hrun' := run_machineInPlace hrun fun label hlabel c hc => by
    subst hc
    simp only [List.mem_cons, List.not_mem_nil, or_false, MachineLabel.call.injEq, reduceCtorEq,
      false_or] at hlabel
    rcases hlabel with rfl | rfl | rfl
    · exact plain_shell
    · exact plain_shell
    · exact Call.plain_halt smallHalt
  obtain ⟨n, hnum, hcontext, -⟩ :=
    (context_coherent_in_every_run smallBoot blankKernel m _ hrun').1 0 hstarted
  exact ⟨m, hrun', n, hnum, hcontext⟩

/-- The call for a name that is not in the directory returns to the shell of the first
terminal, but the second is the executing one. -/
theorem exists_long_unknown : ∃ m,
    Run (MachineStepInPlace smallBoot) (Machine.boot smallBoot blankKernel)
        [.call (.execute (smallArgs shellCommand)), .tick smallTick, .tick smallTick,
          .tick smallTick, .call (.execute (smallArgs longUnknown))] m ∧
      0 < (m.kernel.terminals 0).numProcessExecutingOnTerminal ∧
      m.kernel.activePcb.processNum = 1 ∧
      m.kernel.paging.pageDirectory virPro = processEntry 0 := by
  obtain ⟨⟨k, saved⟩, s, hrun, hs, hzero, hone, hexec, -, hnum⟩ := exists_roundOfShells
  -- the mapping is that of the first shell
  obtain ⟨⟨s', hs', hrunning⟩, -⟩ := MachineInvariant.run hrun
  have hactive : (k.terminals 0).activePcb = slotAddr 0 := (hs.top hzero).1
  have hstarted : 0 < (k.terminals 0).numProcessExecutingOnTerminal := by
    rw [hs.length, hzero]
    decide
  obtain ⟨n, l, htop⟩ := hs'.represents.exists_top hstarted
  obtain rfl : n = 0 := slotAddr_injective ((hs'.represents.top htop).1.symm.trans hactive)
  have hmapped : k.paging.pageDirectory virPro = processEntry 0 :=
    (hs'.inContext 0 l (by rw [hexec]; exact htop)).mapped
  obtain ⟨count, hcall⟩ := sysExecuteInPlace_unknown (b := smallBoot) (k := k)
    (a := smallArgs longUnknown) (t := 1) (by rw [hnum]; decide) rfl (by decide +kernel)
    (by decide +kernel) (by decide +kernel)
  have hrun' := run_machineInPlace hrun fun label hlabel c hc => by
    subst hc
    simp only [List.mem_cons, List.not_mem_nil, or_false, MachineLabel.call.injEq,
      reduceCtorEq] at hlabel
    rcases hlabel with rfl
    exact plain_shell
  obtain ⟨hsecond, hsecondNum, -⟩ := hs.top hone
  have hpcb : (k.pcbs (k.terminals 1).activePcb).processNum = 1 := by
    rw [hsecond, hsecondNum]
    rfl
  refine ⟨⟨{ parseCommand longUnknown k with argLength := count, executingTerminal := 1 }, saved⟩,
    Run.snoc (hrun'.mono fun _ _ _ hstep => hstep.2)
      ⟨⟨fun a ha => absurd ha (by simp), ?_⟩, rfl⟩,
    hstarted, hpcb, hmapped⟩
  simp only [runCallInPlace, hcall, Option.bind_some, Outcome.state]

theorem long_argument_breaks_context :
    ¬∀ (b : Boot) (k₀ : Kernel) (m : Machine) (labels : List MachineLabel),
      Run (MachineStepInPlace b) (Machine.boot b k₀) labels m →
        ∀ t, 0 < (m.kernel.terminals t).numProcessExecutingOnTerminal →
          ∃ n : Fin 6, m.kernel.activePcb.processNum = n ∧ InContext m.kernel n := by
  intro hall
  obtain ⟨m, hrun, hstarted, hnum, hmapped⟩ := exists_long_unknown
  obtain ⟨n, hn, hcontext⟩ := hall smallBoot blankKernel m _ hrun 0 hstarted
  have hentry := hcontext.mapped
  rw [← hn, hnum, hmapped] at hentry
  exact absurd hentry (by decide)

end Ece391Kernel
