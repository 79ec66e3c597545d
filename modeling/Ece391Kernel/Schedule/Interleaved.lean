import Ece391Kernel.Schedule.Simulation
import Ece391Kernel.Process.Failure
import Mathlib.Algebra.BigOperators.Fin

/-!
# Interrupted calls against calls made at once

The comparison over whole runs. When all calls are over, the kernel is in the state
that the calls leave when they are made at once, in the order in which they were
decided, but for the context of the running process and the saved registers.

With a step that is not `Undisturbed` this fails: a call that is interrupted between
`parse_command` and its search of the directory looks for the name of another one.
-/

namespace Ece391Kernel

open TransitionSystem LinkedStack

/-- The call takes no further step. -/
def Progress.over : Progress → Bool
  | .idle => true
  | .starting .finished _ _ _ => true
  | .returned _ _ => true
  | _ => false

/-- The arguments of the call. -/
def Progress.args : Progress → Option ExecArgs
  | .idle => none
  | .entered a => some a
  | .tested a _ => some a
  | .parsed a _ => some a
  | .checked a _ _ => some a
  | .starting _ a _ _ => some a
  | .returned a _ => some a

/-- The two states agree in all that calls change but the context of the running
process: its entry of the page directory, the task state segment, the registers that
the timer saves, and the stack pointers kept from there. -/
structure SameOutcome (k k' : Kernel) : Prop where
  processes : k'.processes = k.processes
  numProcessExecuting : k'.numProcessExecuting = k.numProcessExecuting
  terminals : ∀ t, SameRecord (k.terminals t) (k'.terminals t)
  pcbs : ∀ addr, SamePcb (k.pcbs addr) (k'.pcbs addr)
  mem : k'.mem = k.mem
  buffers : SameBuffers k k'
  directory : ∀ i, i ≠ virPro → k'.paging.pageDirectory i = k.paging.pageDirectory i
  tables : k'.paging.firstPageTable = k.paging.firstPageTable ∧
    k'.paging.userVideoPageTable = k.paging.userVideoPageTable
  displayedTerminal : k'.displayedTerminal = k.displayedTerminal

theorem SameRecord.symm {term term' : Terminal} (h : SameRecord term term') :
    SameRecord term' term := by
  obtain ⟨esp, ebp, rfl⟩ := h
  exact ⟨term.esp, term.ebp, rfl⟩

theorem SamePcb.refl (p : Pcb) : SamePcb p p := ⟨p.currEsp0, rfl⟩

theorem SamePcb.join {p p₁ p₂ : Pcb} (h₁ : SamePcb p p₁) (h₂ : SamePcb p p₂) : SamePcb p₁ p₂ := by
  obtain ⟨_, rfl⟩ := h₁
  obtain ⟨esp0, rfl⟩ := h₂
  exact ⟨esp0, rfl⟩

/-- The effects say what the state is, but for the context and the buffers. -/
theorem Applied.sameOutcome {b : Boot} {k₀ k k' : Kernel} {effects : Fin 3 → Effects}
    (h : Applied b k₀ effects k) (h' : Applied b k₀ effects k') (hbuffers : SameBuffers k k') :
    SameOutcome k k' where
  processes := by
    funext n
    by_cases hn : ∃ t, (effects t).slot = some n
    · obtain ⟨t, ht⟩ := hn
      rw [h.marked t n ht, h'.marked t n ht]
    · rw [not_exists] at hn
      rw [h.unmarked n hn, h'.unmarked n hn]
  numProcessExecuting := h'.count.trans h.count.symm
  terminals := fun t => (h.terminals t).symm.trans (h'.terminals t)
  pcbs := by
    intro addr
    by_cases haddr : ∃ t n a, (effects t).child = some (n, a) ∧ addr = pcbAddr n
    · obtain ⟨t, n, a, hchild, rfl⟩ := haddr
      exact (h.child t n a hchild).join (h'.child t n a hchild)
    · have hother : ∀ t n a, (effects t).child = some (n, a) → addr ≠ pcbAddr n :=
        fun t n a hchild heq => haddr ⟨t, n, a, hchild, heq⟩
      rw [h.noChild addr hother, h'.noChild addr hother]
      exact SamePcb.refl _
  mem := by
    funext x
    by_cases hx : ∃ t n inode, (effects t).program = some (n, inode) ∧ InFrame n x
    · obtain ⟨t, n, inode, hprogram, hframe⟩ := hx
      rw [h.program t n inode hprogram x hframe, h'.program t n inode hprogram x hframe]
    · have hother : ∀ t n inode, (effects t).program = some (n, inode) → ¬InFrame n x :=
        fun t n inode hprogram hframe => hx ⟨t, n, inode, hprogram, hframe⟩
      rw [h.noProgram x hother, h'.noProgram x hother]
  buffers := hbuffers
  directory := fun i hi => (h'.directory i hi).trans (h.directory i hi).symm
  tables := ⟨h'.tables.1.trans h.tables.1.symm, h'.tables.2.trans h.tables.2.symm⟩
  displayedTerminal := h'.displayedTerminal.trans h.displayedTerminal.symm

/-- The outcome is enough to tell the stacks of processes. -/
theorem SameOutcome.represents {k k' : Kernel} {s : ProcessStacks} (h : SameOutcome k k')
    (hs : Represents k s) : Represents k' s := by
  have hpcb : ∀ addr, (k'.pcbs addr).processNum = (k.pcbs addr).processNum ∧
      (k'.pcbs addr).parentPcb = (k.pcbs addr).parentPcb := by
    intro addr
    obtain ⟨_, hpcb⟩ := h.pcbs addr
    rw [hpcb]
    exact ⟨rfl, rfl⟩
  refine hs.of_same h.processes hpcb fun t => ?_
  obtain ⟨_, _, hterm⟩ := h.terminals t
  rw [hterm]
  exact ⟨rfl, rfl⟩

theorem callStep_args {b : Boot} {p p' : Progress} {k k' : Kernel}
    (h : callStep b p k = some (p', k')) : p'.args = p.args := by
  cases p with
  | idle => exact absurd h (by simp [callStep])
  | entered a =>
      simp only [callStep] at h
      split at h
      · rw [← (Prod.mk.inj (Option.some.inj h)).1]
        rfl
      · split at h <;> rw [← (Prod.mk.inj (Option.some.inj h)).1] <;> rfl
  | tested a command =>
      obtain ⟨k₁, -, hk₁⟩ := Option.bind_eq_some_iff.mp h
      split at hk₁
      · rw [← (Prod.mk.inj (Option.some.inj hk₁)).1]
        rfl
      · exact absurd hk₁ (by simp)
  | parsed a command =>
      simp only [callStep] at h
      split at h
      · rw [← (Prod.mk.inj (Option.some.inj h)).1]
        rfl
      · split at h <;> rw [← (Prod.mk.inj (Option.some.inj h)).1] <;> rfl
  | checked a command idx =>
      obtain ⟨n, -, hn⟩ := Option.map_eq_some_iff.mp h
      rw [← (Prod.mk.inj hn).1]
      rfl
  | starting s a idx n =>
      cases s with
      | mapped =>
          obtain ⟨kl, -, hkl⟩ := Option.map_eq_some_iff.mp h
          rw [← (Prod.mk.inj hkl).1]
          rfl
      | finished => exact absurd h (by simp [callStep])
      | _ =>
          rw [← (Prod.mk.inj (Option.some.inj h)).1]
          rfl
  | returned a rejected => exact absurd h (by simp [callStep])

/-- Every terminal is in the call that it has been given. -/
theorem args_run {b : Boot} {k₀ : Kernel} {calls : Fin 3 → Option ExecArgs} {m : Interleaving}
    {labels : List PreemptLabel} (hrun : Run (PreemptStep b) (Interleaving.start k₀ calls) labels m)
    (t : Fin 3) : (m.progress t).args = calls t := by
  refine hrun.invariant (P := fun m => ∀ t, (m.progress t).args = calls t) ?_ ?_ t
  · intro m label m' h hstep u
    cases hstep with
    | tick htick => exact h u
    | @run k k' progress splits p hstep =>
        by_cases hu : u = k.executingTerminal
        · rw [hu]
          simp only [Function.update_self, callStep_args hstep]
          exact h k.executingTerminal
        · simp only [Function.update_of_ne hu]
          exact h u
  · intro u
    unfold Interleaving.start
    simp only
    cases calls u <;> rfl

/-- What can be said of a call that has found slot `n`: its own command names the
program, the slot has been free and is marked for this call only, the frame of the
slot gets the bytes of the file, the process becomes the active one of its terminal,
and it starts in its own context. -/
structure StartsOwn (b : Boot) (k₀ : Kernel) (m : Interleaving) (t : Fin 3) (s : Stage)
    (a : ExecArgs) (idx n : Nat) : Prop where
  file : ∃ command, NamesProgram b a command idx
  slot : n < maxNumProcess ∧ k₀.processes n = 0 ∧ m.kernel.processes n = 1
  alone : ∀ u s' a' idx', m.progress u = .starting s' a' idx' n → u = t
  loaded : s.hasLoaded = true → ∀ x, InFrame n x → m.kernel.mem x =
    storeAt k₀.mem (frameAddr n + loadOffset) (programBytes b (direntryInode b idx)) x
  active : s.hasAttached = true → (m.kernel.terminals t).activePcb = pcbAddr n ∧
    (m.kernel.pcbs (pcbAddr n)).processNum = n
  context : s = .finished → t = m.kernel.executingTerminal →
    ∃ n' : Fin 6, n = n' ∧ InContext m.kernel n'

namespace Serialised

variable {b : Boot} {k₀ : Kernel} {m : Interleaving} {plan : List Planned}

theorem startsOwn (h : Serialised b k₀ m plan)
    (hstarted : ∀ t, 0 < (k₀.terminals t).numProcessExecutingOnTerminal) {t : Fin 3} {s : Stage}
    {a : ExecArgs} {idx n : Nat} (hq : m.progress t = .starting s a idx n) :
    StartsOwn b k₀ m t s a idx n := by
  have hslot : ((m.progress t).effects b).slot = some n := by rw [hq]; rfl
  have hown := h.own t
  rw [hq] at hown
  have hslots := h.slots hstarted
  obtain ⟨hn, hfree⟩ := hslots.free t n hslot
  refine ⟨hown, ⟨hn, hfree, h.applied.marked t n hslot⟩, ?_, ?_, ?_, ?_⟩
  · intro u s' a' idx' hu
    exact hslots.distinct u t n (by simp only [hu, Progress.effects]) hslot
  · intro hs x hx
    refine h.applied.program t n _ ?_ x hx
    simp only [hq, Progress.effects, hs, if_true]
  · intro hs
    have hchild : ((m.progress t).effects b).child = some (n, a) := by
      simp only [hq, Progress.effects, hs, if_true]
    obtain ⟨_, _, hrecord⟩ := h.applied.terminals t
    obtain ⟨_, hpcb⟩ := h.applied.child t n a hchild
    refine ⟨?_, ?_⟩
    · rw [hrecord]
      simp only [Effects.onRecord, hchild, Option.elim]
    · rw [hpcb]
      rfl
  · rintro rfl rfl
    exact ⟨⟨n, hn⟩, rfl, h.context a idx ⟨n, hn⟩ hq⟩

/-- Nothing is stored outside the frames of the calls. -/
theorem mem_other (h : Serialised b k₀ m plan) {x : Nat}
    (hx : ∀ t s a idx n, m.progress t = .starting s a idx n → s.hasLoaded = true → ¬InFrame n x) :
    m.kernel.mem x = k₀.mem x := by
  refine h.applied.noProgram x fun t n inode hprogram => ?_
  cases hq : m.progress t with
  | starting s a idx n' =>
      simp only [hq, Progress.effects] at hprogram
      split at hprogram
      · rename_i hs
        obtain ⟨rfl, -⟩ := Prod.mk.inj (Option.some.inj hprogram)
        exact hx t s a idx n' hq hs
      · exact absurd hprogram (by simp)
  | returned a rejected =>
      rw [hq] at hprogram
      cases rejected <;> exact absurd hprogram (by simp [Progress.effects, Effects.none])
  | _ =>
      rw [hq] at hprogram
      exact absurd hprogram (by simp [Progress.effects, Effects.none])

/-- A call that is not over takes a step, if this is undisturbed. -/
theorem run_enabled (h : Serialised b k₀ m plan)
    (hstarted : ∀ t, 0 < (k₀.terminals t).numProcessExecutingOnTerminal)
    (hover : m.running.over = false) (hguard : Undisturbed b m .run) :
    ∃ m', PreemptStep b m .run m' := by
  obtain ⟨k, progress, splits⟩ := m
  suffices henabled : ∃ p k', callStep b (progress k.executingTerminal) k = some (p, k') by
    obtain ⟨p, k', hstep⟩ := henabled
    exact ⟨_, PreemptStep.run hstep⟩
  unfold Interleaving.running at hover
  simp only at hover
  have hcondition := hguard
  unfold Undisturbed Interleaving.running at hcondition
  cases hq : progress k.executingTerminal with
  | idle => exact absurd hover (by rw [hq]; decide)
  | entered a =>
      simp only [callStep]
      split
      · exact ⟨_, _, rfl⟩
      · split <;> exact ⟨_, _, rfl⟩
  | tested a command =>
      simp only [hq] at hcondition
      simp only [callStep, parseCommandInPlace_of_fits hcondition.1, Option.bind_some,
        parseCommand_executingTerminal, if_true]
      exact ⟨_, _, rfl⟩
  | parsed a command =>
      simp only [callStep]
      split
      · exact ⟨_, _, rfl⟩
      · split <;> exact ⟨_, _, rfl⟩
  | checked a command idx =>
      obtain ⟨n, -, hslot, -⟩ := h.step_checked hstarted hq hguard
      simp only [callStep, hslot]
      exact ⟨_, _, rfl⟩
  | starting s a idx n =>
      cases s with
      | mapped =>
          simp only [hq] at hcondition
          simp only [callStep, loadProgram_frame _ hcondition (h.planned_starting hq).1]
          exact ⟨_, _, rfl⟩
      | finished =>
          rw [hq] at hover
          exact absurd hover Bool.noConfusion
      | _ => exact ⟨_, _, rfl⟩
  | returned a rejected =>
      rw [hq] at hover
      exact absurd hover Bool.noConfusion

/-- A tick goes on with the next terminal if all terminals have been started. -/
theorem tick_enabled (h : Serialised b k₀ m plan)
    (hstarted : ∀ t, 0 < (k₀.terminals t).numProcessExecutingOnTerminal) (a : SwitchArgs) :
    ∃ m', PreemptStep b m (.tick a) m' := by
  have hnum : ∀ t, (m.kernel.terminals t).numProcessExecutingOnTerminal ≠ 0 := by
    intro t
    have hpos := hstarted t
    obtain ⟨_, _, hrecord⟩ := h.applied.terminals t
    have honTerminal : 0 ≤ ((m.progress t).effects b).onTerminal := by
      cases m.progress t with
      | starting s a idx n =>
          simp only [Progress.effects]
          split <;> simp
      | returned a rejected => cases rejected <;> exact Int.le_refl 0
      | _ => exact Int.le_refl 0
    rw [hrecord]
    simp only [Effects.onRecord]
    omega
  obtain ⟨k, progress, splits⟩ := m
  have htick := pitInterrupt_eq b a k
  rw [if_neg (hnum 0), if_neg (hnum k.next)] at htick
  exact ⟨_, PreemptStep.tick htick⟩

/-- The plan has the calls that are decided, with their ends. -/
theorem mem_labels (h : Serialised b k₀ m plan) (t : Fin 3) (a : ExecArgs) (result : Option Nat) :
    (t, a, result) ∈ plan.map (Planned.label b) ↔
      (m.progress t).outcome b = some (a, result) := by
  have houtcome : ∀ e ∈ plan, (m.progress e.terminal).outcome b = some (e.label b).2 :=
    fun e he => (h.agrees e he).outcome (h.sound e he) (h.own e.terminal)
  constructor
  · intro hmem
    obtain ⟨e, he, hlabel⟩ := List.mem_map.mp hmem
    have hterminal : e.terminal = t := congrArg Prod.fst hlabel
    rw [← hterminal, houtcome e he, hlabel]
  · intro hsome
    rcases h.cases t with ⟨e, he, rfl⟩ | ⟨hdecided, -⟩
    · rw [houtcome e he] at hsome
      exact List.mem_map.mpr ⟨e, he, Prod.ext rfl (Option.some.inj hsome)⟩
    · rw [(Progress.undecided hdecided).2.2.2] at hsome
      exact absurd hsome (by simp)

/-- A call that is over has ended as the plan has it. -/
theorem ending_of_over (h : Serialised b k₀ m plan) {e : Planned} (he : e ∈ plan)
    (hover : (m.progress e.terminal).over = true) : m.progress e.terminal = e.ending := by
  have hagrees := h.agrees e he
  unfold Planned.ending
  generalize m.progress e.terminal = p at hagrees hover
  generalize e.fate = fate at hagrees
  cases hagrees with
  | starting stage command idx n =>
      cases stage with
      | finished => rfl
      | _ => exact absurd hover Bool.noConfusion
  | full => rfl
  | noCommand => rfl
  | returned command rejected => rfl
  | _ => exact absurd hover Bool.noConfusion

/-- When all calls are over, they have changed what they change at once. -/
theorem sameOutcome (h : Serialised b k₀ m plan) {k : Kernel} (hmade : Made b k₀ plan k)
    (hover : ∀ t, (m.progress t).over = true) :
    SameOutcome m.kernel k ∧ SameOutcome k m.kernel := by
  have heffects : planEffects b plan = fun t => (m.progress t).effects b := by
    funext t
    rcases h.cases t with ⟨e, he, rfl⟩ | ⟨hdecided, hnone⟩
    · rw [planEffects_of_mem h.once he, h.ending_of_over he (hover _)]
    · rw [hnone, (Progress.undecided hdecided).1]
  have hatomic := hmade.applied
  rw [heffects] at hatomic
  have hbuffers := h.buffers.symm.trans hmade.buffers
  exact ⟨h.applied.sameOutcome hatomic hbuffers, hatomic.sameOutcome h.applied hbuffers.symm⟩

end Serialised

/-- All terminals have been started, and each makes at most one call. In every run
whose steps are undisturbed, a call that has found a slot starts the program of its own
command in this slot; nothing is stored outside the frames of the calls; the run can go
on; and the calls end as they do when they are made at once, one after the other, in an
order of those that have split their commands or returned before. When all are over, the
kernel is as these leave it, and keeps the stacks of processes. -/
theorem interleaved_calls_serialise (b : Boot) {k₀ : Kernel} {s₀ : ProcessStacks}
    (hs₀ : Represents k₀ s₀)
    (hstarted : ∀ t, 0 < (k₀.terminals t).numProcessExecutingOnTerminal)
    (calls : Fin 3 → Option ExecArgs) (m : Interleaving) (labels : List PreemptLabel)
    (hrun : Run (guarded (Undisturbed b) (PreemptStep b)) (Interleaving.start k₀ calls) labels m) :
    (∀ t, (m.progress t).args = calls t) ∧
    (∀ t s a idx n, m.progress t = .starting s a idx n → StartsOwn b k₀ m t s a idx n) ∧
    (∀ x, (∀ t s a idx n, m.progress t = .starting s a idx n → s.hasLoaded = true →
      ¬InFrame n x) → m.kernel.mem x = k₀.mem x) ∧
    (m.running.over = false → Undisturbed b m .run → ∃ m', PreemptStep b m .run m') ∧
    (∀ a, ∃ m', PreemptStep b m (.tick a) m') ∧
    ∃ order k, Run (AtomicStep b) k₀ order k ∧ (order.map Prod.fst).Nodup ∧
      (∀ t a result, (t, a, result) ∈ order ↔ (m.progress t).outcome b = some (a, result)) ∧
      ((∀ t, (m.progress t).over = true) →
        SameOutcome m.kernel k ∧ ∃ s, Represents m.kernel s) := by
  obtain ⟨plan, h⟩ := hrun.invariant (P := fun m => ∃ plan, Serialised b k₀ m plan)
    (fun _ _ _ ⟨_, h⟩ hstep => h.step hstarted hstep.1 hstep.2) ⟨[], Serialised.start b k₀ calls⟩
  obtain ⟨k, hatomic, hmade, hkept⟩ := h.exists_made hstarted
  refine ⟨args_run hrun.of_guarded, fun t s a idx n hq => h.startsOwn hstarted hq,
    fun x hx => h.mem_other hx, h.run_enabled hstarted, h.tick_enabled hstarted,
    plan.map (Planned.label b), k, hatomic, ?_, h.mem_labels, fun hover => ?_⟩
  · rw [List.map_map]
    exact h.once
  · obtain ⟨hsame, hsame'⟩ := h.sameOutcome hmade hover
    obtain ⟨s, hs⟩ := hkept s₀ hs₀
    exact ⟨hsame, s, hsame'.represents hs⟩

/-! ## Calls on the small image -/

/-- Every terminal runs a shell, terminal `t` is the executing one, and there are `n`
processes in the lowest slots. -/
structure Shells (t : Fin 3) (n : Nat) (k : Kernel) : Prop where
  executingTerminal : k.executingTerminal = t
  numProcessExecuting : k.numProcessExecuting = UInt32.ofNat n
  started : ∀ u, 0 < (k.terminals u).numProcessExecutingOnTerminal
  slots : UsedBelow n k

/-- A shell can be started on every terminal. -/
theorem exists_threeShells : ∃ k s, Represents k s ∧ Shells 0 3 k := by
  have hzero : ∀ t,
      ((boot smallBoot blankKernel).terminals t).numProcessExecutingOnTerminal = 0 := by
    intro t
    rw [boot_terminals]
    rfl
  obtain ⟨k₁, -, hlaunch₁, hslots₁, hnum₁⟩ := smallBoot_next_shell
    (boot_usedBelow smallBoot blankKernel) (by decide)
    (boot_numProcessExecuting smallBoot blankKernel) 1
  obtain ⟨s₁, hs₁⟩ := hlaunch₁.represents ((boot_represents smallBoot blankKernel).onTerminal 1)
    ((boot_usedBelow smallBoot blankKernel).onTerminal 1) (by decide)
  obtain ⟨k₂, -, hlaunch₂, hslots₂, hnum₂⟩ := smallBoot_next_shell hslots₁ (by decide) hnum₁ 2
  obtain ⟨s₂, hs₂⟩ := hlaunch₂.represents (hs₁.onTerminal 2) (hslots₁.onTerminal 2) (by decide)
  obtain ⟨k₃, -, hlaunch₃, hslots₃, hnum₃⟩ := smallBoot_next_shell hslots₂ (by decide) hnum₂ 0
  obtain ⟨s₃, hs₃⟩ := hlaunch₃.represents (hs₂.onTerminal 0) (hslots₂.onTerminal 0) (by decide)
  have hone : (k₃.terminals 1).numProcessExecutingOnTerminal = 0 + 1 := by
    rw [hlaunch₃.num_other (by decide), hlaunch₂.num_other (by decide), hlaunch₁.num_same, hzero]
  have htwo : (k₃.terminals 2).numProcessExecutingOnTerminal = 0 + 1 := by
    rw [hlaunch₃.num_other (by decide), hlaunch₂.num_same, hlaunch₁.num_other (by decide), hzero]
  have hfirst : (k₃.terminals 0).numProcessExecutingOnTerminal = 0 + 1 := by
    rw [hlaunch₃.num_same, hlaunch₂.num_other (by decide), hlaunch₁.num_other (by decide), hzero]
  refine ⟨k₃, s₃, hs₃, hlaunch₃.executingTerminal, hnum₃, fun u => ?_, hslots₃⟩
  match u with
  | 0 => rw [hfirst]; decide
  | 1 => rw [hone]; decide
  | 2 => rw [htwo]; decide

/-- The calls of the first two terminals. -/
def twoCalls (p q : Progress) : Fin 3 → Progress :=
  Function.update (Function.update (fun _ => .idle) (nextTerminal firstTerminal) q) firstTerminal p

/-- The first two terminals make a call each. -/
def twoTerminals (a a' : ExecArgs) : Fin 3 → Option ExecArgs :=
  Function.update (Function.update (fun _ => none) (nextTerminal firstTerminal) (some a'))
    firstTerminal (some a)

theorem start_twoTerminals (k : Kernel) (a a' : ExecArgs) :
    Interleaving.start k (twoTerminals a a') = ⟨k, twoCalls (.entered a) (.entered a'), []⟩ := by
  unfold Interleaving.start
  congr 1
  funext t
  match t with
  | 0 | 1 | 2 => rfl

theorem update_twoCalls_first (p p' q : Progress) :
    Function.update (twoCalls p q) 0 p' = twoCalls p' q := Function.update_idem _ _ _

theorem update_twoCalls_second (p q q' : Progress) :
    Function.update (twoCalls p q) 1 q' = twoCalls p q' := by
  unfold twoCalls
  rw [Function.update_comm (by decide)]
  exact congrArg (fun calls : Fin 3 → Progress => Function.update calls firstTerminal p)
    (Function.update_idem _ _ _)

/-- A step of the call of terminal `t`. -/
theorem PreemptStep.of_callStep (splits : List (Fin 3)) {b : Boot} {k k' : Kernel}
    {progress : Fin 3 → Progress} {t : Fin 3} {q p : Progress} (ht : k.executingTerminal = t)
    (hq : progress t = q) (hstep : callStep b q k = some (p, k')) :
    PreemptStep b ⟨k, progress, splits⟩ .run
      ⟨k', Function.update progress t p, q.record t splits⟩ := by
  subst ht hq
  exact PreemptStep.run hstep

/-- A tick never disturbs a call. -/
theorem PreemptStep.guarded {b : Boot} {m m' : Interleaving} {a : SwitchArgs}
    (h : PreemptStep b m (.tick a) m') :
    guarded (Undisturbed b) (PreemptStep b) m (.tick a) m' := ⟨trivial, h⟩

namespace Shells

variable {k : Kernel} {t : Fin 3} {n : Nat} {a : ExecArgs} {command : CString} {idx : Nat}

theorem ne_six (h : Shells t n k) (hn : n < maxNumProcess) : k.numProcessExecuting ≠ 6 := by
  have hlt : n < 6 := hn
  rw [h.numProcessExecuting]
  interval_cases n <;> decide

theorem parseCommand (h : Shells t n k) (command : CString) :
    Shells t n (parseCommand command k) :=
  ⟨h.executingTerminal, h.numProcessExecuting, h.started, ⟨h.slots.used, h.slots.free⟩⟩

/-- A tick goes on with the next terminal. -/
theorem tick (h : Shells t n k) {u : Fin 3} (hu : nextTerminal t = u) (a : SwitchArgs)
    (progress : Fin 3 → Progress) (splits : List (Fin 3)) :
    ∃ k', PreemptStep smallBoot ⟨k, progress, splits⟩ (.tick a) ⟨k', progress, splits⟩ ∧
      Shells u n k' ∧ k'.fname = k.fname := by
  have hne : ∀ u, (k.terminals u).numProcessExecutingOnTerminal ≠ 0 := by
    intro u
    have hpos := h.started u
    omega
  have htick := pitInterrupt_eq smallBoot a k
  rw [if_neg (hne 0), if_neg (hne k.next)] at htick
  refine ⟨_, PreemptStep.tick htick, ⟨?_, h.numProcessExecuting, fun v => ?_,
    ⟨h.slots.used, h.slots.free⟩⟩, rfl⟩
  · rw [remap_executingTerminal, ← hu, ← h.executingTerminal]
    rfl
  · rw [remap_terminals, (parked_terminal a k v).1]
    exact h.started v

variable (progress : Fin 3 → Progress) (splits : List (Fin 3))

/-- The test for a full table lets a call pass. -/
theorem test (h : Shells t n k) (hn : n < maxNumProcess) (hq : progress t = .entered a)
    (hcommand : a.command = some command) :
    guarded (Undisturbed smallBoot) (PreemptStep smallBoot) ⟨k, progress, splits⟩ .run
      ⟨k, Function.update progress t (.tested a command), splits⟩ := by
  refine ⟨?_, PreemptStep.of_callStep splits h.executingTerminal hq ?_⟩
  · unfold Undisturbed Interleaving.running
    simp only [h.executingTerminal, hq]
    exact fun _ hfull => absurd hfull (h.ne_six hn)
  · simp only [callStep, if_neg (h.ne_six hn), hcommand]

/-- The splitting of a command that fits. -/
theorem split (h : Shells t n k) (hq : progress t = .tested a command)
    (hfits : (argText command).length ≤ argLen) :
    PreemptStep smallBoot ⟨k, progress, splits⟩ .run
      ⟨Ece391Kernel.parseCommand (seenCommand command) k,
        Function.update progress t (.parsed a command), splits ++ [t]⟩ := by
  refine PreemptStep.of_callStep splits h.executingTerminal hq ?_
  simp only [callStep, parseCommandInPlace_of_fits hfits, Option.bind_some,
    parseCommand_executingTerminal, if_true]

/-- The search of the directory finds the program that the command names. -/
theorem lookup (h : Shells t n k) (hq : progress t = .parsed a command)
    (hverdict : verdict smallBoot a command = .program idx)
    (hname : (findDirentry smallBoot fun i : Nat => k.fname i) =
      findDirentry smallBoot (commandName (seenCommand command))) :
    guarded (Undisturbed smallBoot) (PreemptStep smallBoot) ⟨k, progress, splits⟩ .run
      ⟨k, Function.update progress t (.checked a command idx), splits⟩ := by
  obtain ⟨hidx, hmagic⟩ := verdict_eq_program.mp hverdict
  refine ⟨?_, PreemptStep.of_callStep splits h.executingTerminal hq ?_⟩
  · unfold Undisturbed Interleaving.running
    simp only [h.executingTerminal, hq]
    exact hname
  · simp only [callStep, hname, hidx, executableCheck, hmagic, if_true]

/-- A step of a call that has found a slot, with the mapping of its process. -/
theorem stage (s : Stage) (a : ExecArgs) (idx n : Nat) {k k' : Kernel}
    (ht : k.executingTerminal = t)
    (hmapped : s = .mapped ∨ s = .attached → k.paging.pageDirectory virPro = processEntry n)
    (hstep : callStep smallBoot (.starting s a idx n) k = some (.starting s.next a idx n, k')) :
    guarded (Undisturbed smallBoot) (PreemptStep smallBoot)
      ⟨k, Function.update progress t (.starting s a idx n), splits⟩ .run
      ⟨k', Function.update progress t (.starting s.next a idx n), splits⟩ := by
  have hself : Function.update progress t (.starting s a idx n) t = .starting s a idx n :=
    Function.update_self _ _ _
  have hrun := PreemptStep.of_callStep splits ht hself hstep
  rw [Function.update_idem] at hrun
  refine ⟨?_, hrun⟩
  unfold Undisturbed Interleaving.running
  simp only [ht, hself]
  cases s with
  | mapped => exact hmapped (Or.inl rfl)
  | attached => exact hmapped (Or.inr rfl)
  | _ => trivial

/-- A call that marks its slot in its turn, and is not interrupted, starts its program. -/
theorem finish (h : Shells t n k) (hn : n < maxNumProcess)
    (hq : progress t = .checked a command idx)
    (hfit : FitsFrame (programBytes smallBoot (direntryInode smallBoot idx)))
    (horder : ∀ u other, [u, t].Sublist splits → (progress u).pending smallBoot = some other →
      SplitsAlike other command) :
    ∃ k', Run (guarded (Undisturbed smallBoot) (PreemptStep smallBoot)) ⟨k, progress, splits⟩
        (List.replicate 6 .run)
        ⟨k', Function.update progress t (.starting .finished a idx n), splits⟩ ∧
      Shells t (n + 1) k' := by
  have hmark : guarded (Undisturbed smallBoot) (PreemptStep smallBoot) ⟨k, progress, splits⟩ .run
      ⟨claimSlot n k, Function.update progress t (.starting .claimed a idx n), splits⟩ := by
    refine ⟨?_, PreemptStep.of_callStep splits h.executingTerminal hq ?_⟩
    · unfold Undisturbed Interleaving.running
      simp only [h.executingTerminal, hq]
      exact horder
    · simp only [callStep, h.slots.freeSlot hn, Option.map_some]
  have hpage := processMap_pageDirectory_virPro (countProcess (claimSlot n k)).paging hn
  obtain ⟨kl, hload, hkl⟩ : ∃ kl, loadProgram smallBoot (direntryInode smallBoot idx)
      (mapProcess n (countProcess (claimSlot n k))) = some kl ∧
        ∃ mem, kl = (mapProcess n (countProcess (claimSlot n k))).withMem mem :=
    ⟨_, loadProgram_frame _ hpage hfit, _, rfl⟩
  obtain ⟨mem, rfl⟩ := hkl
  -- the stages one after the other
  have hcounted := stage progress splits .claimed a idx n (k := claimSlot n k)
    h.executingTerminal (by simp) rfl
  have hmapped := stage progress splits .counted a idx n (k := countProcess (claimSlot n k))
    h.executingTerminal (by simp) rfl
  have hloaded := stage progress splits .mapped a idx n
    (k := mapProcess n (countProcess (claimSlot n k))) h.executingTerminal (fun _ => hpage)
    (by simp only [callStep, hload, Option.map_some]; rfl)
  have hattached := stage progress splits .loaded a idx n
    (k := (mapProcess n (countProcess (claimSlot n k))).withMem mem) h.executingTerminal
    (by simp) rfl
  have hfinished := stage progress splits .attached a idx n (t := t)
    (k := attachPcb n a.esp a.ebp ((mapProcess n (countProcess (claimSlot n k))).withMem mem))
    (by rw [attachPcb_eq]; exact h.executingTerminal) (fun _ => by rw [attachPcb_eq]; exact hpage)
    rfl
  have hlaunch : launch smallBoot a idx k = .launched (loader (checkBuffer smallBoot a.stack idx))
      (setTss n (attachPcb n a.esp a.ebp
        ((mapProcess n (countProcess (claimSlot n k))).withMem mem))) := by
    unfold launch
    simp only [h.slots.freeSlot hn, hload]
  obtain ⟨m, hm, hlaunched⟩ := launch_launched hlaunch
  obtain rfl := Option.some.inj ((h.slots.freeSlot hn).symm.trans hm)
  refine ⟨_, (((((Run.single hmark).snoc hcounted).snoc hmapped).snoc hloaded).snoc
    hattached).snoc hfinished, hlaunched.executingTerminal.trans h.executingTerminal, ?_,
    fun u => ?_, h.slots.launch hlaunched⟩
  · rw [hlaunched.numProcessExecuting, h.numProcessExecuting, UInt32.ofNat_add]
    rfl
  · have hstarted := h.started u
    have hrecord := congrFun hlaunched.terminals u
    rw [hrecord]
    by_cases hu : u = k.executingTerminal
    · rw [hu, Function.update_self]
      rw [hu] at hstarted
      exact Int.add_pos hstarted (by decide)
    · rw [Function.update_of_ne hu]
      exact hstarted

end Shells

/-- The verdicts on the commands of the small image. -/
theorem verdict_shell :
    verdict smallBoot (smallArgs shellCommand) shellCommand = .program 0 ∧
    verdict smallBoot (smallArgs shellWithArg) shellWithArg = .program 0 ∧
    verdict smallBoot (smallArgs unknownName) unknownName = .unknown := by
  decide +kernel

/-- A call that waits for its turn to mark a slot leaves room for another one. -/
theorem Shells.hasRoom {t : Fin 3} {k : Kernel} (h : Shells t 3 k) {p q : Progress}
    {splits : List (Fin 3)} : Interleaving.HasRoom smallBoot ⟨k, twoCalls p q, splits⟩ := by
  have hpending : (Finset.univ.filter fun t =>
      ((twoCalls p q t).pending smallBoot).isSome).card ≤ (Finset.univ.erase (2 : Fin 3)).card := by
    refine Finset.card_le_card fun u hu => ?_
    rw [Finset.mem_filter] at hu
    refine Finset.mem_erase.mpr ⟨?_, Finset.mem_univ u⟩
    rintro rfl
    exact absurd hu.2 (by simp [show twoCalls p q 2 = .idle from rfl, Progress.pending])
  have hfree : (Finset.univ.filter fun n : Fin 6 => 3 ≤ n).card ≤
      (Finset.univ.filter fun n : Fin 6 => k.processes n = 0).card := by
    refine Finset.card_le_card fun n hn => ?_
    rw [Finset.mem_filter] at hn ⊢
    exact ⟨hn.1, h.slots.free n hn.2 n.isLt⟩
  unfold Interleaving.HasRoom
  exact lt_of_le_of_lt hpending (lt_of_lt_of_le (by decide) hfree)

/-- The splitting of a command for the shell, while at most one call waits for its turn. -/
theorem Shells.split_shell {t : Fin 3} {k : Kernel} (h : Shells t 3 k) (p q : Progress)
    (splits : List (Fin 3)) {command : CString}
    (hq : twoCalls p q t = .tested (smallArgs command) command)
    (hfits : (argText command).length ≤ argLen)
    (hverdict : verdict smallBoot (smallArgs command) command = .program 0)
    (hsettled : p.unsettled smallBoot + q.unsettled smallBoot = 0 ∨
      p.unsettled smallBoot + q.unsettled smallBoot = 1) :
    guarded (Undisturbed smallBoot) (PreemptStep smallBoot) ⟨k, twoCalls p q, splits⟩ .run
      ⟨Ece391Kernel.parseCommand (seenCommand command) k,
        Function.update (twoCalls p q) t (.parsed (smallArgs command) command), splits ++ [t]⟩ := by
  refine ⟨?_, h.split (twoCalls p q) splits hq hfits⟩
  unfold Undisturbed Interleaving.running
  simp only [h.executingTerminal, hq]
  refine ⟨hfits, ?_, fun idx hidx => ⟨h.hasRoom, ?_⟩⟩
  · have hsum : ∑ u, (twoCalls p q u).unsettled smallBoot =
        p.unsettled smallBoot + q.unsettled smallBoot := by
      rw [Fin.sum_univ_three]
      exact add_zero _
    unfold Interleaving.settledCount
    simp only [h.numProcessExecuting, hsum]
    rcases hsettled with hzero | hone
    · rw [hzero]
      decide
    · rw [hone]
      decide
  · obtain rfl := Verdict.program.inj (hverdict.symm.trans hidx)
    decide +kernel

/-- A call for the shell on the first terminal is interrupted when it has found the file, by
one with an argument on the next terminal, which is interrupted at the same place; each starts
its program when its turn comes again. -/
theorem interleaved_calls_serialise_shells : ∃ k₀ m,
    Run (guarded (Undisturbed smallBoot) (PreemptStep smallBoot))
      (Interleaving.start k₀ (twoTerminals (smallArgs shellCommand) (smallArgs shellWithArg)))
      (List.replicate 3 .run ++ [.tick smallTick] ++ List.replicate 3 .run ++ [.tick smallTick] ++
        [.tick smallTick] ++ List.replicate 6 .run ++ [.tick smallTick] ++ List.replicate 6 .run)
      m ∧
    (∀ t, 0 < (k₀.terminals t).numProcessExecutingOnTerminal) ∧
    StartsOwn smallBoot k₀ m 0 .finished (smallArgs shellCommand) 0 3 ∧
    StartsOwn smallBoot k₀ m 1 .finished (smallArgs shellWithArg) 0 4 ∧
    ∃ order k, Run (AtomicStep smallBoot) k₀ order k ∧ SameOutcome m.kernel k := by
  obtain ⟨k, s, hs, hk⟩ := exists_threeShells
  obtain ⟨hshell, hwithArg, -⟩ := verdict_shell
  have hfit : FitsFrame (programBytes smallBoot (direntryInode smallBoot 0)) := by decide +kernel
  have hname : ∀ command k, (findDirentry smallBoot fun i : Nat =>
      (Ece391Kernel.parseCommand (seenCommand command) k).fname i) =
        findDirentry smallBoot (commandName (seenCommand command)) :=
    fun command k => findDirentry_parseCommand smallBoot (seenCommand command) k
  -- the first call, as far as the marking of its slot
  have htest₀ := hk.test (twoCalls (.entered (smallArgs shellCommand))
    (.entered (smallArgs shellWithArg))) [] (by decide) rfl rfl
  rw [update_twoCalls_first] at htest₀
  have hsplit₀ := hk.split_shell (.tested (smallArgs shellCommand) shellCommand)
    (.entered (smallArgs shellWithArg)) [] rfl (by decide) hshell (Or.inl rfl)
  rw [update_twoCalls_first] at hsplit₀
  have hk₀ := hk.parseCommand (seenCommand shellCommand)
  have hlookup₀ := hk₀.lookup (twoCalls (.parsed (smallArgs shellCommand) shellCommand)
    (.entered (smallArgs shellWithArg))) ([] ++ [0]) rfl hshell (hname _ k)
  rw [update_twoCalls_first] at hlookup₀
  obtain ⟨k₁, htick₁, hk₁, -⟩ := hk₀.tick (u := 1) rfl smallTick (twoCalls
    (.checked (smallArgs shellCommand) shellCommand 0) (.entered (smallArgs shellWithArg)))
    ([] ++ [0])
  -- the second, while the first waits for its turn
  have htest₁ := hk₁.test (twoCalls (.checked (smallArgs shellCommand) shellCommand 0)
    (.entered (smallArgs shellWithArg))) ([] ++ [0]) (by decide) rfl rfl
  rw [update_twoCalls_second] at htest₁
  have hsplit₁ := hk₁.split_shell (.checked (smallArgs shellCommand) shellCommand 0)
    (.tested (smallArgs shellWithArg) shellWithArg) ([] ++ [0]) rfl (by decide) hwithArg
    (Or.inr rfl)
  rw [update_twoCalls_second] at hsplit₁
  have hk₁' := hk₁.parseCommand (seenCommand shellWithArg)
  have hlookup₁ := hk₁'.lookup (twoCalls (.checked (smallArgs shellCommand) shellCommand 0)
    (.parsed (smallArgs shellWithArg) shellWithArg)) ([] ++ [0] ++ [1]) rfl hwithArg (hname _ k₁)
  rw [update_twoCalls_second] at hlookup₁
  obtain ⟨k₂, htick₂, hk₂, -⟩ := hk₁'.tick (u := 2) rfl smallTick (twoCalls
    (.checked (smallArgs shellCommand) shellCommand 0)
    (.checked (smallArgs shellWithArg) shellWithArg 0)) ([] ++ [0] ++ [1])
  obtain ⟨k₃, htick₃, hk₃, -⟩ := hk₂.tick (u := 0) rfl smallTick (twoCalls
    (.checked (smallArgs shellCommand) shellCommand 0)
    (.checked (smallArgs shellWithArg) shellWithArg 0)) ([] ++ [0] ++ [1])
  -- each marks its slot in its turn
  have hturn₀ : ∀ u other, [u, (0 : Fin 3)].Sublist ([] ++ [0] ++ [1]) → (twoCalls
      (.checked (smallArgs shellCommand) shellCommand 0)
      (.checked (smallArgs shellWithArg) shellWithArg 0) u).pending smallBoot = some other →
      SplitsAlike other shellCommand := fun u other hsub => absurd hsub (by revert u; decide)
  obtain ⟨k₄, hrun₄, hk₄⟩ := hk₃.finish _ ([] ++ [0] ++ [1]) (by decide) rfl hfit hturn₀
  rw [update_twoCalls_first] at hrun₄
  obtain ⟨k₅, htick₅, hk₅, -⟩ := hk₄.tick (u := 1) rfl smallTick (twoCalls
    (.starting .finished (smallArgs shellCommand) 0 3)
    (.checked (smallArgs shellWithArg) shellWithArg 0)) ([] ++ [0] ++ [1])
  have hturn₁ : ∀ u other, [u, (1 : Fin 3)].Sublist ([] ++ [0] ++ [1]) → (twoCalls
      (.starting .finished (smallArgs shellCommand) 0 3)
      (.checked (smallArgs shellWithArg) shellWithArg 0) u).pending smallBoot = some other →
      SplitsAlike other shellWithArg := by
    intro u other hsub hother
    match u with
    | 0 => exact absurd (show none = some other from hother) (by simp)
    | 1 | 2 => exact absurd hsub (by decide)
  obtain ⟨k₆, hrun₆, -⟩ := hk₅.finish _ ([] ++ [0] ++ [1]) (by decide) rfl hfit hturn₁
  rw [update_twoCalls_second] at hrun₆
  have hrun := ((((((((((Run.single htest₀).snoc hsplit₀).snoc hlookup₀).snoc
    htick₁.guarded).append (((Run.single htest₁).snoc hsplit₁).snoc hlookup₁)).snoc
    htick₂.guarded).snoc htick₃.guarded).append hrun₄).snoc htick₅.guarded).append hrun₆)
  rw [← start_twoTerminals] at hrun
  obtain ⟨-, hown, -, -, -, order, k', hatomic, -, -, hover⟩ :=
    interleaved_calls_serialise smallBoot hs hk.started _ _ _ hrun
  refine ⟨k, _, hrun, hk.started, hown 0 _ _ _ _ rfl, hown 1 _ _ _ _ rfl, order, k', hatomic,
    (hover fun t => ?_).1⟩
  match t with
  | 0 | 1 | 2 => rfl

/-- Calls made at once never find that there is no program `shell`. -/
theorem crossing_atomic {k : Kernel} (hnum : k.numProcessExecuting = UInt32.ofNat 3)
    {order : List (Fin 3 × ExecArgs × Option Nat)} {k' : Kernel}
    (hrun : Run (AtomicStep smallBoot) k order k')
    (horder : ∀ label ∈ order, label = (0, smallArgs shellCommand, none) ∨
      label = (1, smallArgs unknownName, none)) :
    k'.numProcessExecuting = UInt32.ofNat 3 ∧ (0, smallArgs shellCommand, none) ∉ order := by
  obtain ⟨hshell, -, hunknown⟩ := verdict_shell
  induction hrun with
  | nil => exact ⟨hnum, List.not_mem_nil⟩
  | @snoc k₁ k₂ ls label _ hstep ih =>
      obtain ⟨hnum₁, hnot⟩ := ih fun l hl => horder l (List.mem_append_left _ hl)
      have hroom : ∀ t, (k₁.onTerminal t).numProcessExecuting ≠ 6 := by
        intro t
        rw [Kernel.onTerminal_numProcessExecuting, hnum₁]
        decide
      rcases horder label (List.mem_append_right _ (List.mem_singleton.mpr rfl)) with rfl | rfl
      · have hcall := sysExecuteInPlace_starts (a := smallArgs shellCommand) rfl (by decide)
          (hroom 0) hshell
        exact absurd (Option.some.inj (hcall.symm.trans hstep)) (launch_ne_returned _ _ _ _ _)
      · have hcall := sysExecuteInPlace_returns (a := smallArgs unknownName) rfl (by decide)
          (hroom 1) false hunknown
        obtain rfl := Outcome.returned.inj (Option.some.inj (hcall.symm.trans hstep))
        refine ⟨hnum₁, ?_⟩
        rw [List.mem_append, List.mem_singleton, not_or]
        exact ⟨hnot, by simp⟩

/-- No order of calls made at once ends with both of them refused. -/
theorem crossing_not_atomic {k : Kernel} (hk : Shells 0 3 k) :
    ¬∃ order k', Run (AtomicStep smallBoot) k order k' ∧
      ∀ t a result, (t, a, result) ∈ order ↔ (twoCalls (.returned (smallArgs shellCommand) false)
        (.returned (smallArgs unknownName) false) t).outcome smallBoot = some (a, result) := by
  rintro ⟨order, k', hrun, horder⟩
  have hends : ∀ label ∈ order, label = (0, smallArgs shellCommand, none) ∨
      label = (1, smallArgs unknownName, none) := by
    rintro ⟨t, a, result⟩ hmem
    have houtcome := (horder t a result).mp hmem
    match t with
    | 0 =>
        obtain ⟨rfl, rfl⟩ := Prod.mk.inj (Option.some.inj houtcome)
        exact Or.inl rfl
    | 1 =>
        obtain ⟨rfl, rfl⟩ := Prod.mk.inj (Option.some.inj houtcome)
        exact Or.inr rfl
    | 2 => exact absurd (show none = some (a, result) from houtcome) (by simp)
  exact (crossing_atomic hk.numProcessExecuting hrun hends).2 ((horder 0 _ none).mpr rfl)

namespace Shells

variable {k : Kernel} {t : Fin 3} {n : Nat} {a : ExecArgs} {command : CString}
  (progress : Fin 3 → Progress) (splits : List (Fin 3))

/-- A call gets as far as the search of the directory. -/
theorem test_split (h : Shells t n k) (hn : n < maxNumProcess) (hq : progress t = .entered a)
    (hcommand : a.command = some command) (hfits : (argText command).length ≤ argLen) :
    Run (PreemptStep smallBoot) ⟨k, progress, splits⟩ [.run, .run]
      ⟨Ece391Kernel.parseCommand (seenCommand command) k,
        Function.update progress t (.parsed a command), splits ++ [t]⟩ := by
  have htest := (h.test progress splits hn hq hcommand).2
  have hsplit := h.split _ splits (Function.update_self t (.tested a command) progress) hfits
  rw [Function.update_idem] at hsplit
  exact (Run.single htest).snoc hsplit

/-- A call that has split its command finds no file of the name in `fname`. -/
theorem lookup_unknown (h : Shells t n k) (hq : progress t = .parsed a command)
    (hfname : (findDirentry smallBoot fun i : Nat => k.fname i) = none) :
    PreemptStep smallBoot ⟨k, progress, splits⟩ .run
      ⟨k, Function.update progress t (.returned a false), splits⟩ := by
  refine PreemptStep.of_callStep splits h.executingTerminal hq ?_
  simp only [callStep, hfname]

end Shells

/-- The call for `shell` is interrupted after it has split its command, by a call for a
name that is not in the directory: it searches for this name, and returns -1. At once
it would have started the shell, before the other call and after it. -/
theorem crossing_calls_not_serialisable :
    ∃ k₀ s₀ labels m, Represents k₀ s₀ ∧
      (∀ t, 0 < (k₀.terminals t).numProcessExecutingOnTerminal) ∧
      Run (PreemptStep smallBoot) (Interleaving.start k₀ (twoTerminals (smallArgs shellCommand)
        (smallArgs unknownName))) labels m ∧
      (∀ t, (m.progress t).over = true) ∧
      ¬∃ order k, Run (AtomicStep smallBoot) k₀ order k ∧
        ∀ t a result, (t, a, result) ∈ order ↔
          (m.progress t).outcome smallBoot = some (a, result) := by
  obtain ⟨k, s, hs, hk⟩ := exists_threeShells
  have hunknown : ∀ k, (findDirentry smallBoot fun i : Nat =>
      (Ece391Kernel.parseCommand (seenCommand unknownName) k).fname i) = none := fun k =>
    (findDirentry_parseCommand smallBoot (seenCommand unknownName) k).trans
      (verdict_eq_unknown.mp verdict_shell.2.2)
  -- the first terminal, as far as the splitting of the command
  have hrun₀ := hk.test_split (twoCalls (.entered (smallArgs shellCommand))
    (.entered (smallArgs unknownName))) [] (by decide) rfl rfl (by decide)
  rw [update_twoCalls_first] at hrun₀
  obtain ⟨k₁, htick₁, hk₁, -⟩ := (hk.parseCommand (seenCommand shellCommand)).tick (u := 1) rfl
    smallTick (twoCalls (.parsed (smallArgs shellCommand) shellCommand)
      (.entered (smallArgs unknownName))) ([] ++ [0])
  -- the second, to its end
  have hrun₁ := hk₁.test_split (twoCalls (.parsed (smallArgs shellCommand) shellCommand)
    (.entered (smallArgs unknownName))) ([] ++ [0]) (by decide) rfl rfl (by decide)
  rw [update_twoCalls_second] at hrun₁
  have hk₁' := hk₁.parseCommand (seenCommand unknownName)
  have hlookup₁ := hk₁'.lookup_unknown (twoCalls (.parsed (smallArgs shellCommand) shellCommand)
    (.parsed (smallArgs unknownName) unknownName)) ([] ++ [0] ++ [1]) rfl (hunknown k₁)
  rw [update_twoCalls_second] at hlookup₁
  -- back to the first, over the third
  obtain ⟨k₂, htick₂, hk₂, hfname₂⟩ := hk₁'.tick (u := 2) rfl smallTick (twoCalls
    (.parsed (smallArgs shellCommand) shellCommand) (.returned (smallArgs unknownName) false))
    ([] ++ [0] ++ [1])
  obtain ⟨k₃, htick₃, hk₃, hfname₃⟩ := hk₂.tick (u := 0) rfl smallTick (twoCalls
    (.parsed (smallArgs shellCommand) shellCommand) (.returned (smallArgs unknownName) false))
    ([] ++ [0] ++ [1])
  have hlookup₀ := hk₃.lookup_unknown (twoCalls (.parsed (smallArgs shellCommand) shellCommand)
    (.returned (smallArgs unknownName) false)) ([] ++ [0] ++ [1]) rfl
    (by rw [hfname₃, hfname₂]; exact hunknown k₁)
  rw [update_twoCalls_first] at hlookup₀
  have hrun := (((((hrun₀.snoc htick₁).append hrun₁).snoc hlookup₁).snoc htick₂).snoc htick₃).snoc
    hlookup₀
  rw [← start_twoTerminals] at hrun
  refine ⟨k, s, _, _, hs, hk.started, hrun, fun t => ?_, crossing_not_atomic hk⟩
  match t with
  | 0 | 1 | 2 => rfl

end Ece391Kernel
