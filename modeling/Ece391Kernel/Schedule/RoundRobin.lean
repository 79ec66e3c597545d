import Ece391Kernel.Programs.Calls
import Ece391Kernel.Schedule.Coherence

/-!
# Turns

The ticks hand the processor round the three terminals, whatever the processes, the keyboard and the
clock do in between, as long as no key is control-C, which takes a turn away, and no argument runs
past its buffer. A terminal without a process gets a shell when its turn comes; while this shell is
refused, the round does not get past it.
-/

namespace Ece391Kernel

open TransitionSystem LinkedStack

/-- A tick hands the processor to a terminal, or the shell that it calls for does not start, or
there is no process yet; or a process starts a program or exits; or something else happens. -/
inductive SystemEvent
  | turn (t : Fin 3)
  | refused
  | stayed
  | process (c : Call)
  | other

/-- The steps of the system, in which no key is control-C and all arguments fit into the buffer. -/
inductive SystemStep (b : Boot) : Kernel → SystemEvent → Kernel → Prop
  | switched {k k' : Kernel} (a : SwitchArgs) {esp ebp : Nat}
      (h : pitInterrupt b a k = .switched esp ebp k') :
      SystemStep b k (.turn k'.executingTerminal) k'
  | launched {k k' : Kernel} (a : SwitchArgs) {entry : Nat}
      (h : pitInterrupt b a k = .launched entry k') :
      SystemStep b k (.turn k'.executingTerminal) k'
  | failed {k k' : Kernel} (a : SwitchArgs) (h : pitInterrupt b a k = .failed k') :
      SystemStep b k .refused k'
  | stayed {k k' : Kernel} (a : SwitchArgs) (h : pitInterrupt b a k = .stayed k') :
      SystemStep b k .stayed k'
  | process {k k' : Kernel} (c : Call) (hfits : c.Fits) (h : CallInPlace b c k k') :
      SystemStep b k (.process c) k'
  | serve {k k' : Kernel} (c : UserCall) (r : UserReturn) (h : performCall b c k = some (r, k')) :
      SystemStep b k .other k'
  | rtc (k : Kernel) : SystemStep b k .other (rtcInterrupt k)
  | key {k k' : Kernel} (c : UInt8) (kb kb' : Keyboard)
      (h : getScancode b c kb k = some (kb', k')) : SystemStep b k .other k'

/-- An event is the turn of a terminal. -/
def SystemEvent.isTurnOf (t : Fin 3) : SystemEvent → Bool
  | .turn u => u = t
  | _ => false

/-- An event is a turn. -/
def SystemEvent.isTurn : SystemEvent → Bool
  | .turn _ => true
  | _ => false

/-! ## The stacks of the terminals -/

theorem StackStep.nonempty {t u : Fin 3} {s s' : ProcessStacks} (h : StackStep t s s')
    (hu : s.on u ≠ []) : s'.on u ≠ [] := by
  by_cases ht : u = t
  · subst ht
    cases h with
    | fail => exact hu
    | start n h =>
        rw [Stacks.push_on_self]
        exact List.cons_ne_nil _ _
    | finish n m l htop =>
        rw [Stacks.pop_on_self, htop, List.tail_cons]
        exact List.cons_ne_nil _ _
    | restart n m htop h =>
        rw [Stacks.push_on_self]
        exact List.cons_ne_nil _ _
  · rwa [h.other ht]

section Steps

variable {b : Boot} {k k' : Kernel} {s : ProcessStacks} {e : SystemEvent}

/-- The kernel keeps its stacks, and a terminal that has been started keeps a process. -/
theorem SystemStep.stacks (h : SystemStep b k e k') (hs : Represents k s) :
    ∃ s', Represents k' s' ∧ ∀ t, s.on t ≠ [] → s'.on t ≠ [] := by
  have hframe : ∀ {k'}, CallFrame k k' → ∃ s', Represents k' s' ∧ ∀ t, s.on t ≠ [] → s'.on t ≠ [] :=
    fun h => ⟨s, h.represents hs, fun _ => id⟩
  have hparked : ∀ a, Represents ((parked a k).onTerminal k.next) s :=
    fun a => hs.of_same rfl (fun _ => ⟨rfl, rfl⟩) (parked_terminal a k)
  cases h with
  | switched a htick =>
      obtain ⟨-, -, -, rfl⟩ := pitInterrupt_switched htick
      exact ⟨s, hs.of_same rfl (fun _ => ⟨rfl, rfl⟩) (parked_terminal a k), fun _ => id⟩
  | launched a htick =>
      obtain ⟨-, n, hslot, hlaunch⟩ := pitInterrupt_launched htick
      obtain ⟨n, rfl, hfree⟩ := freeSlot_some hslot
      obtain ⟨hn, hk'⟩ := (hparked a).launch hfree hlaunch
      exact ⟨_, hk', fun _ => (StackStep.start s n hn).nonempty⟩
  | failed a htick =>
      obtain ⟨-, -, k₁, hreturned, rfl⟩ := pitInterrupt_failed htick
      have hfailed := (hparked a).fail (sysExecute_returned hreturned).1
      exact ⟨s, hfailed.of_same rfl (fun _ => ⟨rfl, rfl⟩) fun _ => ⟨rfl, rfl⟩, fun _ => id⟩
  | stayed a htick =>
      rw [pitInterrupt_stayed htick]
      exact ⟨s, hs.of_same rfl (fun _ => ⟨rfl, rfl⟩) fun _ => ⟨rfl, rfl⟩, fun _ => id⟩
  | process c hfits hcall =>
      obtain ⟨henabled, hstate⟩ := (callInPlace_iff hfits).mp hcall
      obtain ⟨s', hs', hstack⟩ := hs.call henabled hstate
      exact ⟨s', hs', fun _ => hstack.nonempty⟩
  | serve c r hcall => exact hframe (performCall_callFrame hcall)
  | rtc => exact hframe (CallFrame.rtcInterrupt k)
  | key c kb kb' hkey => exact hframe (getScancode_callFrame hkey).1

/-- The first terminal has been started. -/
def Started (k : Kernel) : Prop := ∃ s, Represents k s ∧ s.on firstTerminal ≠ []

theorem Started.step (h : Started k) (hstep : SystemStep b k e k') : Started k' := by
  obtain ⟨s, hs, hfirst⟩ := h
  obtain ⟨s', hs', hkept⟩ := hstep.stacks hs
  exact ⟨s', hs', hkept _ hfirst⟩

theorem Started.num_ne_zero (h : Started k) :
    (k.terminals firstTerminal).numProcessExecutingOnTerminal ≠ 0 := by
  obtain ⟨s, hs, hfirst⟩ := h
  have hlen := hs.length firstTerminal
  have hpos := List.length_pos_iff.mpr hfirst
  omega

/-- Only a tick changes the terminal that executes. -/
theorem SystemStep.executingTerminal (h : SystemStep b k e k') :
    k'.executingTerminal = if e.isTurn then k.next else k.executingTerminal := by
  cases h with
  | switched a htick =>
      obtain ⟨-, -, -, rfl⟩ := pitInterrupt_switched htick
      rfl
  | launched a htick =>
      obtain ⟨-, n, -, hlaunch⟩ := pitInterrupt_launched htick
      exact hlaunch.executingTerminal
  | failed a htick =>
      obtain ⟨-, -, k₁, -, rfl⟩ := pitInterrupt_failed htick
      rfl
  | stayed a htick =>
      rw [pitInterrupt_stayed htick]
      rfl
  | process c hfits hcall => exact (runCall_other (hcall.runCall hfits)).1
  | serve c r hcall => exact (performCall_callFrame hcall).executingTerminal
  | rtc => rfl
  | key c kb kb' hkey => exact (getScancode_callFrame hkey).1.executingTerminal

theorem SystemStep.turn_eq {t : Fin 3} (h : SystemStep b k (.turn t) k') :
    t = k'.executingTerminal := by
  cases h <;> rfl

end Steps

/-! ## The round -/

/-- The turns of a terminal. -/
def turnsOf (t : Fin 3) (events : List SystemEvent) : Nat :=
  events.countP (SystemEvent.isTurnOf t)

/-- All turns. -/
def turns (events : List SystemEvent) : Nat := events.countP SystemEvent.isTurn

/-- Terminals that take turns, with `e` the last one: the longer ago a terminal had its turn, the
fewer it has had, and the numbers differ by one at most. -/
structure TakesTurns (e : Fin 3) (count : Fin 3 → Nat) : Prop where
  first : count (nextTerminal e) ≤ count (nextTerminal (nextTerminal e))
  second : count (nextTerminal (nextTerminal e)) ≤ count e
  last : count e ≤ count (nextTerminal e) + 1

theorem nextTerminal_three (e : Fin 3) : nextTerminal (nextTerminal (nextTerminal e)) = e := by
  decide +revert

theorem eq_of_three (e t : Fin 3) :
    t = e ∨ t = nextTerminal e ∨ t = nextTerminal (nextTerminal e) := by decide +revert

theorem TakesTurns.turn {e : Fin 3} {count : Fin 3 → Nat} (h : TakesTurns e count) :
    TakesTurns (nextTerminal e) fun t => count t + if nextTerminal e = t then 1 else 0 := by
  have hback := nextTerminal_three e
  have hne : nextTerminal e ≠ nextTerminal (nextTerminal e) := (nextTerminal_ne _).symm
  have hne' : nextTerminal e ≠ e := nextTerminal_ne e
  constructor <;> simp only [hback, if_neg hne, if_neg hne', if_true, Nat.add_zero]
  · exact h.second
  · exact h.last
  · exact Nat.add_le_add_right h.first 1

theorem TakesTurns.le {e : Fin 3} {count : Fin 3 → Nat} (h : TakesTurns e count) (t u : Fin 3) :
    count t ≤ count u + 1 := by
  obtain ⟨hfirst, hsecond, hlast⟩ := h
  have hbetween : ∀ v, count (nextTerminal e) ≤ count v ∧ count v ≤ count (nextTerminal e) + 1 := by
    intro v
    rcases eq_of_three e v with hv | hv | hv <;> rw [hv] <;> omega
  have ht := hbetween t
  have hu := hbetween u
  omega

section Rounds

variable {b : Boot} {k k' : Kernel} {events : List SystemEvent}

theorem Started.run (h : Started k) (hrun : Run (SystemStep b) k events k') : Started k' :=
  hrun.invariant (fun _ _ _ hstarted hstep => hstarted.step hstep) h

/-- The executing terminal is the one that had its turn last. -/
theorem takesTurns_run (hrun : Run (SystemStep b) k events k') :
    k'.executingTerminal = nextTerminal^[turns events] k.executingTerminal ∧
      TakesTurns k'.executingTerminal fun t => turnsOf t events := by
  unfold turns turnsOf
  induction hrun with
  | nil => exact ⟨rfl, ⟨Nat.le_refl _, Nat.le_refl _, Nat.le_succ _⟩⟩
  | @snoc k₁ k₂ events e hfirst hlast ih =>
      obtain ⟨hexec, htakes⟩ := ih
      have hafter := hlast.executingTerminal
      simp only [List.countP_append, List.countP_singleton]
      cases e with
      | turn t =>
          have hturn : k₂.executingTerminal = nextTerminal k₁.executingTerminal := hafter
          obtain rfl : t = nextTerminal k₁.executingTerminal := hlast.turn_eq.trans hturn
          rw [hturn]
          refine ⟨?_, by simpa [SystemEvent.isTurnOf] using htakes.turn⟩
          simp only [SystemEvent.isTurn, if_true]
          rw [Function.iterate_succ_apply', ← hexec]
      | _ =>
          have hsame : k₂.executingTerminal = k₁.executingTerminal := hafter
          rw [hsame]
          exact ⟨hexec, htakes⟩

end Rounds

/-- A tick leaves the processor where it is only if there is no process yet or if a shell is
refused. -/
theorem Started.not_stayed {b : Boot} {k k' : Kernel} (h : Started k) :
    ¬SystemStep b k .stayed k' := by
  intro hstep
  cases hstep with
  | stayed a htick =>
      rw [pitInterrupt_eq, if_neg h.num_ne_zero] at htick
      split at htick
      · split at htick <;> exact absurd htick (by simp)
      · exact absurd htick (by simp)

/-- From any state of a run from boot in which the first terminal has been started, and through any
interleaving of ticks, calls whose arguments fit, keys other than control-C and clock interrupts:
the turns go round the terminals one after the other, so that no terminal gets two more than
another; and every tick is a turn, unless it calls for a shell and the shell is refused. -/
theorem turns_go_round (b : Boot) (k₀ : Kernel) {before events : List SystemEvent} {k k' : Kernel}
    (hboot : Run (SystemStep b) (boot b k₀) before k)
    (hstarted : 0 < (k.terminals firstTerminal).numProcessExecutingOnTerminal)
    (hrun : Run (SystemStep b) k events k') :
    k'.executingTerminal = nextTerminal^[turns events] k.executingTerminal ∧
    (∀ t u, turnsOf t events ≤ turnsOf u events + 1) ∧
    SystemEvent.stayed ∉ events := by
  obtain ⟨s, hs⟩ := hboot.invariant (P := fun k => ∃ s, Represents k s)
    (fun _ _ _ ⟨s, hs⟩ hstep => ⟨_, (hstep.stacks hs).choose_spec.1⟩) ⟨_, boot_represents b k₀⟩
  have hstart : Started k := by
    obtain ⟨n, l, htop⟩ := hs.exists_top hstarted
    exact ⟨s, hs, by rw [htop]; exact List.cons_ne_nil n l⟩
  obtain ⟨hexec, htakes⟩ := takesTurns_run hrun
  refine ⟨hexec, htakes.le, ?_⟩
  clear hexec htakes
  induction hrun with
  | nil => exact List.not_mem_nil
  | snoc hfirst hlast ih =>
      intro hmem
      rcases List.mem_append.mp hmem with hbefore | hnow
      · exact ih hbefore
      · obtain rfl := List.mem_singleton.mp hnow
        exact (hstart.run hfirst).not_stayed hlast

/-- The first shell is started, and then two ticks come. -/
theorem exists_two_turns (k₀ : Kernel) : ∃ k₁ k₂ k₃,
    SystemStep smallBoot (boot smallBoot k₀) (.process (.execute (smallArgs shellCommand))) k₁ ∧
      0 < (k₁.terminals firstTerminal).numProcessExecutingOnTerminal ∧
      SystemStep smallBoot k₁ (.turn k₂.executingTerminal) k₂ ∧
      SystemStep smallBoot k₂ (.turn k₃.executingTerminal) k₃ := by
  have hexec := boot_executingTerminal smallBoot k₀
  obtain ⟨k₁, s₁, hstep₁, hs₁, htop₁, hother₁, hslots₁, hnum₁⟩ := smallBoot_shell_push (n := 0)
    (boot_represents smallBoot k₀) (boot_usedBelow smallBoot k₀)
    (boot_numProcessExecuting smallBoot k₀) 0
  have hcall : CallInPlace smallBoot (.execute (smallArgs shellCommand)) (boot smallBoot k₀)
      k₁ := by
    have hinPlace := (procStepInPlace_iff plain_shell.fits).mpr
      (show ProcStep smallBoot _ (seenLabel (0, .execute (smallArgs shellCommand))) k₁ by
        unfold seenLabel
        rw [plain_shell.seen]
        exact hstep₁)
    rw [ProcStepInPlace, Kernel.onTerminal_eq hexec] at hinPlace
    exact ⟨fun a ha => absurd ha (by simp), hinPlace.2⟩
  have hone₁ : s₁.on 0 = [0] := htop₁
  have hexec₁ : k₁.executingTerminal = 0 :=
    (runCall_other (hcall.runCall plain_shell.fits)).1.trans hexec
  have hnext₁ : k₁.next = 1 := congrArg nextTerminal hexec₁
  obtain ⟨k₂, s₂, htick₂, hs₂, htop₂, hother₂, hexec₂, hslots₂, hnum₂⟩ :=
    smallBoot_tick_push (n := 1) hs₁ (by rw [hone₁]; simp)
      (by rw [hnext₁, hother₁ 1 (by decide)]; rfl) hslots₁ hnum₁
  have hnext₂ : k₂.next = 2 := congrArg nextTerminal (hexec₂.trans hnext₁)
  rw [hnext₁] at hother₂
  obtain ⟨k₃, s₃, htick₃, -⟩ :=
    smallBoot_tick_push (n := 2) hs₂ (by rw [hother₂ 0 (by decide), hone₁]; simp)
      (by rw [hnext₂, hother₂ 2 (by decide), hother₁ 2 (by decide)]; rfl) hslots₂ hnum₂
  refine ⟨k₁, k₂, k₃, .process _ plain_shell.fits hcall, ?_, .launched smallTick htick₂,
    .launched smallTick htick₃⟩
  rw [hs₁.length, hone₁]
  decide

theorem turns_go_round_two : ∃ before events k k',
    Run (SystemStep smallBoot) (boot smallBoot blankKernel) before k ∧
      Run (SystemStep smallBoot) k events k' ∧ turns events = 2 ∧
        k'.executingTerminal = nextTerminal^[2] k.executingTerminal := by
  obtain ⟨k₁, k₂, k₃, hfirst, hpos, hone, htwo⟩ := exists_two_turns blankKernel
  have hrun := (Run.single hone).snoc htwo
  obtain ⟨hround, -, -⟩ :=
    turns_go_round smallBoot blankKernel (Run.single hfirst) hpos hrun
  exact ⟨_, _, _, _, Run.single hfirst, hrun, rfl, hround⟩

/-! ## A refused shell -/

section Blocked

variable {b : Boot} {k k' : Kernel} {e : SystemEvent} {events : List SystemEvent}

theorem Blocked.callFrame (h : Blocked k) (hframe : CallFrame k k') : Blocked k' :=
  h.of_same hframe.numProcessExecuting hframe.executingTerminal fun t => (hframe.terminals t).1

/-- Only a halt can end this. -/
theorem Blocked.step (h : Blocked k) (hstep : SystemStep b k e k')
    (hhalt : ∀ a, e ≠ .process (.halt a)) : Blocked k' ∧ e.isTurn = false := by
  cases hstep with
  | switched a htick => exact absurd ((h.pitInterrupt a).symm.trans htick) (by simp)
  | launched a htick => exact absurd ((h.pitInterrupt a).symm.trans htick) (by simp)
  | stayed a htick => exact absurd ((h.pitInterrupt a).symm.trans htick) (by simp)
  | failed a htick =>
      obtain rfl := SwitchOutcome.failed.inj ((h.pitInterrupt a).symm.trans htick)
      exact ⟨h.of_same rfl rfl fun t => (parked_terminal a k t).1, rfl⟩
  | process c hfits hcall =>
      cases c with
      | halt a => exact absurd rfl (hhalt a)
      | execute a =>
          have hearly : runCall b (.execute a.seen) k = .returned k :=
            sysExecute_early (Or.inl h.full)
          have hstate : (runCall b (.execute a.seen) k).state = some k' := hcall.runCall hfits
          rw [hearly] at hstate
          rw [← Option.some.inj hstate]
          exact ⟨h, rfl⟩
  | serve c r hcall => exact ⟨h.callFrame (performCall_callFrame hcall), rfl⟩
  | rtc => exact ⟨h.callFrame (CallFrame.rtcInterrupt k), rfl⟩
  | key c kb kb' hkey => exact ⟨h.callFrame (getScancode_callFrame hkey).1, rfl⟩

theorem Blocked.run (h : Blocked k) (hrun : Run (SystemStep b) k events k')
    (hhalt : ∀ a, SystemEvent.process (.halt a) ∉ events) : Blocked k' ∧ turns events = 0 := by
  unfold turns
  induction hrun with
  | nil => exact ⟨h, rfl⟩
  | snoc hfirst hlast ih =>
      obtain ⟨hbefore, hturns⟩ := ih fun a hmem => hhalt a (List.mem_append_left _ hmem)
      obtain ⟨hafter, hturn⟩ := hbefore.step hlast fun a heq =>
        hhalt a (List.mem_append_right _ (by rw [heq]; exact List.mem_singleton_self _))
      refine ⟨hafter, ?_⟩
      rw [List.countP_append, hturns, List.countP_singleton, hturn]
      rfl

end Blocked

/-- Once the table is full while the next terminal has no process, the round stops: whatever is
called or started, and whatever is typed but control-C, all ticks leave the processor to the
terminal that has it, and the processes of the other terminals wait until a process of this one
exits. -/
theorem full_table_stops_round {b : Boot} {k k' : Kernel} {events : List SystemEvent}
    (hblocked : Blocked k) (hrun : Run (SystemStep b) k events k')
    (hhalt : ∀ a, SystemEvent.process (.halt a) ∉ events) :
    k'.executingTerminal = k.executingTerminal ∧ (∀ t, SystemEvent.turn t ∉ events) ∧
      Blocked k' := by
  obtain ⟨hblocked', hturns⟩ := hblocked.run hrun hhalt
  refine ⟨?_, fun t hmem => ?_, hblocked'⟩
  · rw [(takesTurns_run hrun).1, hturns]
    rfl
  · exact absurd rfl (List.countP_eq_zero.mp hturns _ hmem)

/-- With six shells on the first terminal, a tick, the clock, a call for one more shell, and another
tick. -/
theorem full_table_stops_round_six : ∃ k k',
    Run (SystemStep smallBoot) k
        [.refused, .other, .process (.execute (smallArgs shellCommand)), .refused] k' ∧
      Blocked k ∧ k'.executingTerminal = k.executingTerminal ∧ Blocked k' := by
  obtain ⟨k, -, hblocked, -⟩ := exists_blocked blankKernel
  have htick := SystemStep.failed smallTick (hblocked.pitInterrupt (b := smallBoot) smallTick)
  have hblocked₁ := (hblocked.step htick fun a ha => SystemEvent.noConfusion ha).1
  have hclock := SystemStep.rtc (b := smallBoot) { (parked smallTick k).onTerminal k.next with
    executingTerminal := k.executingTerminal, displayedTerminal := k.executingTerminal }
  have hblocked₂ := (hblocked₁.step hclock fun a ha => SystemEvent.noConfusion ha).1
  generalize rtcInterrupt _ = k₂ at hclock hblocked₂
  have hearly : sysExecute smallBoot (smallArgs shellCommand) k₂ = .returned k₂ :=
    sysExecute_early (Or.inl hblocked₂.full)
  have hcall : CallInPlace smallBoot (.execute (smallArgs shellCommand)) k₂ k₂ :=
    ⟨fun a ha => absurd ha (by simp), by
      rw [plain_shell.runCallInPlace, runCall, hearly]
      rfl⟩
  have hrun := Run.snoc (Run.snoc (Run.snoc (Run.single htick) hclock)
    (SystemStep.process _ plain_shell.fits hcall))
    (SystemStep.failed smallTick (hblocked₂.pitInterrupt smallTick))
  obtain ⟨hexec', -, hblocked'⟩ := full_table_stops_round hblocked hrun (by simp)
  exact ⟨k, _, hrun, hblocked, hexec', hblocked'⟩

end Ece391Kernel
