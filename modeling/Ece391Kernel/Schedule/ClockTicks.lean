import Ece391Kernel.Schedule.Display

/-!
# Waiting for the clock

`rtc_read` clears the flag of the executing terminal and tests it until it is set;
`rtc_interrupt` sets the flags of all terminals. The loop is preempted by ticks of the
timer, so its steps interleave with those of the readers on the other terminals.
-/

namespace Ece391Kernel

open TransitionSystem

/-! ## The accesses of `rtc_read` -/

/-- The assignment of `rtc_read`. -/
def clearInterruptFlag (k : Kernel) : Kernel :=
  k.setTerminal k.executingTerminal fun term => { term with interruptFlag := 0 }

/-- The terminal has had an interrupt since its flag was cleared. -/
def Kernel.flagged (k : Kernel) (t : Fin 3) : Prop := (k.terminals t).interruptFlag ≠ 0

/-- The condition on which `rtc_read` leaves its loop. -/
def interruptFlagSet (k : Kernel) : Prop := k.flagged k.executingTerminal

theorem rtcInterrupt_flagged (k : Kernel) (t : Fin 3) : (rtcInterrupt k).flagged t :=
  Nat.one_ne_zero

theorem clearInterruptFlag_self (k : Kernel) :
    ¬(clearInterruptFlag k).flagged k.executingTerminal := by
  unfold clearInterruptFlag Kernel.flagged
  rw [Kernel.setTerminal_terminals_same]
  exact not_not_intro rfl

theorem clearInterruptFlag_ne {k : Kernel} {t : Fin 3} (h : t ≠ k.executingTerminal) :
    (clearInterruptFlag k).flagged t ↔ k.flagged t := by
  unfold clearInterruptFlag Kernel.flagged
  rw [Kernel.setTerminal_terminals_ne k _ h]

/-- The flags belong to the clock: a tick of the timer leaves them alone, whether it goes on
with a process, starts a shell or fails to. -/
theorem pitInterrupt_flagged {b : Boot} {a : SwitchArgs} {k k' : Kernel}
    (h : (pitInterrupt b a k).state = some k') (t : Fin 3) : k'.flagged t ↔ k.flagged t := by
  have hparked : ((parked a k).terminals t).interruptFlag = (k.terminals t).interruptFlag := by
    rw [parked_terminals]
    by_cases ht : t = k.executingTerminal
    · rw [ht, Function.update_self]
      rfl
    · rw [Function.update_of_ne ht]
  unfold Kernel.flagged
  cases htick : pitInterrupt b a k with
  | stayed k₁ =>
      rw [htick] at h
      rw [← Option.some.inj h, pitInterrupt_stayed htick]
      exact Iff.rfl
  | switched esp ebp k₁ =>
      rw [htick] at h
      rw [← Option.some.inj h, (pitInterrupt_switched htick).2.2.2, ← hparked]
      exact Iff.rfl
  | launched entry k₁ =>
      rw [htick] at h
      obtain ⟨-, n, -, hlaunch⟩ := pitInterrupt_launched htick
      rw [← Option.some.inj h, hlaunch.terminals, ← hparked]
      have hnext : ((parked a k).onTerminal k.next).executingTerminal = k.next := rfl
      rw [hnext]
      by_cases ht : t = k.next
      · rw [ht, Function.update_self]
        exact Iff.rfl
      · rw [Function.update_of_ne ht]
        exact Iff.rfl
  | failed k₁ =>
      rw [htick] at h
      obtain ⟨-, -, k₂, hreturned, rfl⟩ := pitInterrupt_failed htick
      rw [← Option.some.inj h, ← hparked]
      simp only [(sysExecute_returned hreturned).1.terminals]
      exact Iff.rfl
  | stuck =>
      rw [htick] at h
      exact absurd h (by simp [SwitchOutcome.state])

/-! ## Runs -/

/-- The kernel, and the terminals whose process is in the loop of `rtc_read`. -/
structure ClockState where
  kernel : Kernel
  waiting : Finset (Fin 3)

/-- An interrupt of the clock, a tick of the timer, or an access of `rtc_read` by the process
of a terminal: the assignment, or a test, after which it returns or goes on. -/
inductive ClockEvent
  | rtc
  | tick (a : SwitchArgs)
  | clear (t : Fin 3)
  | test (t : Fin 3) (returns : Bool)

/-- The steps, of which those of `rtc_read` need the terminal to be the executing one. -/
inductive ClockStep (b : Boot) : ClockState → ClockEvent → ClockState → Prop
  | rtc (m : ClockState) : ClockStep b m .rtc ⟨rtcInterrupt m.kernel, m.waiting⟩
  | tick {m : ClockState} {a : SwitchArgs} {k' : Kernel}
      (h : (pitInterrupt b a m.kernel).state = some k') :
      ClockStep b m (.tick a) ⟨k', m.waiting⟩
  | clear {m : ClockState} {t : Fin 3} (hexec : m.kernel.executingTerminal = t)
      (h : t ∉ m.waiting) :
      ClockStep b m (.clear t) ⟨clearInterruptFlag m.kernel, insert t m.waiting⟩
  | spin {m : ClockState} {t : Fin 3} (hexec : m.kernel.executingTerminal = t)
      (h : t ∈ m.waiting) (hclear : ¬interruptFlagSet m.kernel) :
      ClockStep b m (.test t false) m
  | leave {m : ClockState} {t : Fin 3} (hexec : m.kernel.executingTerminal = t)
      (h : t ∈ m.waiting) (hset : interruptFlagSet m.kernel) :
      ClockStep b m (.test t true) ⟨m.kernel, m.waiting.erase t⟩

/-- The last `rtc_read` of a terminal has cleared the flag, and what has happened since
contains an interrupt if `ticked` says so. -/
def ClearedThen (t : Fin 3) (ticked : Prop) (labels : List ClockEvent) : Prop :=
  ∃ before after, labels = before ++ .clear t :: after ∧ .clear t ∉ after ∧
    (ticked → .rtc ∈ after)

theorem ClearedThen.concat {t : Fin 3} {ticked ticked' : Prop} {labels : List ClockEvent}
    {e : ClockEvent} (h : ClearedThen t ticked labels) (he : e ≠ .clear t)
    (hticked : ticked' → ticked ∨ e = .rtc) : ClearedThen t ticked' (labels ++ [e]) := by
  obtain ⟨before, after, rfl, hlast, hrtc⟩ := h
  refine ⟨before, after ++ [e], by simp, ?_, fun hset => List.mem_append.mpr ?_⟩
  · rw [List.mem_append, List.mem_singleton]
    exact not_or_intro hlast he.symm
  · rcases hticked hset with hbefore | rfl
    · exact Or.inl (hrtc hbefore)
    · exact Or.inr (List.mem_singleton.mpr rfl)

theorem ClearedThen.clear (t : Fin 3) {ticked : Prop} (labels : List ClockEvent) (h : ¬ticked) :
    ClearedThen t ticked (labels ++ [.clear t]) :=
  ⟨labels, [], rfl, List.not_mem_nil, fun hset => absurd hset h⟩

/-- Every terminal that waits has cleared its flag, and its flag is set only if the clock has
interrupted since. -/
theorem waiting_clearedThen {b : Boot} {k : Kernel} {labels : List ClockEvent} {m : ClockState}
    (h : Run (ClockStep b) ⟨k, ∅⟩ labels m) (t : Fin 3) (ht : t ∈ m.waiting) :
    ClearedThen t (m.kernel.flagged t) labels := by
  induction h with
  | nil => exact absurd ht (Finset.notMem_empty t)
  | snoc _ hstep ih =>
      cases hstep with
      | rtc => exact (ih ht).concat (by simp) fun _ => Or.inr rfl
      | tick htick =>
          exact (ih ht).concat (by simp) fun hset =>
            Or.inl ((pitInterrupt_flagged htick t).mp hset)
      | @clear u hexec _ =>
          by_cases hsame : t = u
          · rw [hsame, ← hexec]
            exact ClearedThen.clear _ _ (clearInterruptFlag_self _)
          · refine (ih (Finset.mem_of_mem_insert_of_ne ht hsame)).concat ?_ fun hset => ?_
            · simpa using Ne.symm hsame
            · exact Or.inl ((clearInterruptFlag_ne (hexec ▸ hsame)).mp hset)
      | spin => exact (ih ht).concat (by simp) Or.inl
      | leave => exact (ih (Finset.mem_of_mem_erase ht)).concat (by simp) Or.inl

/-- A terminal that waits with its flag set does so until its own next test. -/
theorem waiting_flagged {b : Boot} {m m' : ClockState} {labels : List ClockEvent} {t : Fin 3}
    (hrun : Run (ClockStep b) m labels m') (hwaits : t ∈ m.waiting) (hset : m.kernel.flagged t)
    (huntested : ∀ r, .test t r ∉ labels) : t ∈ m'.waiting ∧ m'.kernel.flagged t := by
  induction hrun with
  | nil => exact ⟨hwaits, hset⟩
  | @snoc _ _ labels e _ hstep ih =>
      obtain ⟨hstill, hkept⟩ := ih fun r hr =>
        huntested r (List.mem_append_left _ hr)
      have hlast : ∀ r, e ≠ .test t r := fun r hr =>
        huntested r (List.mem_append_right _ (List.mem_singleton.mpr hr.symm))
      cases hstep with
      | rtc => exact ⟨hstill, rtcInterrupt_flagged _ t⟩
      | tick htick => exact ⟨hstill, (pitInterrupt_flagged htick t).mpr hkept⟩
      | @clear u hexec hfree =>
          -- the terminal that calls `rtc_read` is another one, since this one still waits
          have hne : t ≠ u := fun hsame => hfree (hsame ▸ hstill)
          exact ⟨Finset.mem_insert_of_mem hstill,
            (clearInterruptFlag_ne (hexec ▸ hne)).mpr hkept⟩
      | spin => exact ⟨hstill, hkept⟩
      | @leave u _ _ _ =>
          have hne : t ≠ u := fun hsame => hlast true (congrArg (ClockEvent.test · true) hsame.symm)
          exact ⟨Finset.mem_erase.mpr ⟨hne, hstill⟩, hkept⟩

/-- A terminal that waits with its flag set returns at its test. -/
theorem ClockStep.test_returns {b : Boot} {m m' : ClockState} {t : Fin 3} {r : Bool}
    (hset : m.kernel.flagged t) (h : ClockStep b m (.test t r) m') : r = true := by
  cases h with
  | spin hexec _ hclear => exact absurd hset (hexec ▸ hclear)
  | leave => rfl

/-- The call by itself: the assignment, an interrupt, and a test that returns. -/
theorem rtcRead_run (b : Boot) (buf : Buffer) (k : Kernel) :
    Run (ClockStep b) ⟨k, ∅⟩
      [.clear k.executingTerminal, .rtc, .test k.executingTerminal true]
      ⟨(rtcRead buf k).kernel, ∅⟩ := by
  have hclear : ClockStep b ⟨k, ∅⟩ (.clear k.executingTerminal)
      ⟨clearInterruptFlag k, {k.executingTerminal}⟩ :=
    .clear rfl (Finset.notMem_empty _)
  have hleave : ClockStep b ⟨rtcInterrupt (clearInterruptFlag k), {k.executingTerminal}⟩
      (.test k.executingTerminal true)
      ⟨rtcInterrupt (clearInterruptFlag k), ({k.executingTerminal} : Finset (Fin 3)).erase
        k.executingTerminal⟩ :=
    .leave rfl (Finset.mem_singleton_self _) (rtcInterrupt_flagged _ _)
  rw [Finset.erase_singleton] at hleave
  exact Run.snoc (Run.snoc (Run.single hclear) (.rtc _)) hleave

/-- Every terminal has a process, so a tick starts no shell. -/
def Occupied (k : Kernel) : Prop := ∀ t, (k.terminals t).numProcessExecutingOnTerminal ≠ 0

theorem Occupied.tick {k : Kernel} (h : Occupied k) (b : Boot) (a : SwitchArgs)
    (waiting : Finset (Fin 3)) :
    ∃ k', ClockStep b ⟨k, waiting⟩ (.tick a) ⟨k', waiting⟩ ∧ Occupied k' ∧
      k'.executingTerminal = k.next ∧ ∀ t, k'.flagged t ↔ k.flagged t := by
  have htick := pitInterrupt_eq b a k
  rw [if_neg (h 0), if_neg (h k.next)] at htick
  have hstate := congrArg SwitchOutcome.state htick
  refine ⟨_, .tick hstate, fun t => ?_, ?_, pitInterrupt_flagged hstate⟩
  · rw [remap_terminals, (parked_terminal a k t).1]
    exact h t
  · rw [remap_executingTerminal]

theorem Occupied.clear {k : Kernel} (h : Occupied k) : Occupied (clearInterruptFlag k) := by
  intro t
  unfold clearInterruptFlag
  by_cases ht : t = k.executingTerminal
  · rw [ht, Kernel.setTerminal_terminals_same]
    exact h k.executingTerminal
  · rw [Kernel.setTerminal_terminals_ne k _ ht]
    exact h t

/-- For every interleaving: an `rtc_read` that returns has seen an interrupt that came after it
cleared its flag; and an interrupt reaches every terminal that waits, whatever happens before
the next test of that terminal. -/
theorem rtcRead_waits_for_tick (b : Boot) :
    (∀ k labels t m, Run (ClockStep b) ⟨k, ∅⟩ (labels ++ [.test t true]) m →
      ∃ before after, labels = before ++ .clear t :: after ∧ .clear t ∉ after ∧ .rtc ∈ after) ∧
    ∀ m m₁ labels m' t, t ∈ m.waiting → ClockStep b m .rtc m₁ →
      Run (ClockStep b) m₁ labels m' → (∀ r, .test t r ∉ labels) →
      t ∈ m'.waiting ∧ m'.kernel.flagged t ∧
        (m'.kernel.executingTerminal = t → ∃ m'', ClockStep b m' (.test t true) m'') ∧
        ∀ r m'', ClockStep b m' (.test t r) m'' → r = true := by
  refine ⟨fun k labels t m hrun => ?_, fun m m₁ labels m' t hwaits hrtc hrun huntested => ?_⟩
  · obtain ⟨m₀, hbefore, hlast⟩ := hrun.of_concat
    cases hlast with
    | leave hexec hwaits hset =>
        obtain ⟨before, after, hlabels, hcleared, hticked⟩ := waiting_clearedThen hbefore t hwaits
        exact ⟨before, after, hlabels, hcleared, hticked (hexec ▸ hset)⟩
  · cases hrtc
    obtain ⟨hstill, hset⟩ := waiting_flagged hrun hwaits (rtcInterrupt_flagged _ t) huntested
    refine ⟨hstill, hset, fun hexec => ⟨_, .leave hexec hstill ?_⟩, fun r m'' hstep =>
      hstep.test_returns hset⟩
    unfold interruptFlagSet
    rwa [hexec]

/-- Two terminals wait in turns: the first clears its flag and finds it clear, the second
clears its own, and after an interrupt of the clock both of them return. -/
theorem rtcRead_waits_for_tick_turns : ∃ k m₁ m₂ m₃ m₄,
    Run (ClockStep smallBoot) ⟨k, ∅⟩
      ([.clear 0] ++ [.test 0 false] ++ [.tick smallTick] ++ [.clear 1]) m₁ ∧
    ClockStep smallBoot m₁ .rtc m₂ ∧
    Run (ClockStep smallBoot) m₂ ([.test 1 true] ++ [.tick smallTick] ++ [.tick smallTick]) m₃ ∧
    ClockStep smallBoot m₃ (.test 0 true) m₄ ∧
    (∀ r m, ClockStep smallBoot m₃ (.test 0 r) m → r = true) ∧
    ∃ before after,
      [.clear 0] ++ [.test 0 false] ++ [.tick smallTick] ++ [.clear 1] ++ [.rtc] ++
          ([.test 1 true] ++ [.tick smallTick] ++ [.tick smallTick]) =
        before ++ ClockEvent.clear 0 :: after ∧ .clear 0 ∉ after ∧ .rtc ∈ after := by
  have hturns := rtcRead_waits_for_tick smallBoot
  obtain ⟨k, hexec, hk⟩ : ∃ k : Kernel, k.executingTerminal = 0 ∧ Occupied k :=
    ⟨{ blankKernel with terminals := fun t =>
        { blankKernel.terminals t with numProcessExecutingOnTerminal := 1 } },
      rfl, fun _ => one_ne_zero⟩
  -- the first terminal, up to the tick
  have hexec₀ : (clearInterruptFlag k).executingTerminal = 0 := hexec
  have hclear₀ : ClockStep smallBoot ⟨k, ∅⟩ (.clear 0) ⟨clearInterruptFlag k, {0}⟩ :=
    .clear hexec (Finset.notMem_empty _)
  have hspin : ClockStep smallBoot ⟨clearInterruptFlag k, {0}⟩ (.test 0 false) _ :=
    .spin hexec₀ (Finset.mem_singleton_self 0) (clearInterruptFlag_self k)
  obtain ⟨k₁, htick₁, hk₁, hexec₁, -⟩ := hk.clear.tick smallBoot smallTick {0}
  -- the second terminal, up to its return
  rw [Kernel.next, hexec₀] at hexec₁
  have hclear₁ : ClockStep smallBoot ⟨k₁, {0}⟩ (.clear 1) ⟨clearInterruptFlag k₁, {1, 0}⟩ :=
    .clear hexec₁ (by simp)
  have hrtc := ClockStep.rtc (b := smallBoot) ⟨clearInterruptFlag k₁, {1, 0}⟩
  obtain ⟨k₂, hk₂⟩ : ∃ k₂, rtcInterrupt (clearInterruptFlag k₁) = k₂ := ⟨_, rfl⟩
  have hset₂ : ∀ t, k₂.flagged t := fun t => hk₂ ▸ rtcInterrupt_flagged _ t
  have hexec₂ : k₂.executingTerminal = 1 := hk₂ ▸ hexec₁
  have hoccupied₂ : Occupied k₂ := hk₂ ▸ hk₁.clear
  rw [hk₂] at hrtc
  have hleave : ClockStep smallBoot ⟨k₂, {1, 0}⟩ (.test 1 true) ⟨k₂, {0}⟩ :=
    .leave hexec₂ (Finset.mem_insert_self 1 _) (hset₂ _)
  -- two ticks back to the first terminal
  obtain ⟨k₃, htick₃, hk₃, hexec₃, -⟩ := hoccupied₂.tick smallBoot smallTick {0}
  obtain ⟨k₄, htick₄, -, hexec₄, -⟩ := hk₃.tick smallBoot smallTick {0}
  rw [Kernel.next, hexec₂] at hexec₃
  rw [Kernel.next, hexec₃] at hexec₄
  have hbefore := (((Run.single hclear₀).snoc hspin).snoc htick₁).snoc hclear₁
  have hafter := ((Run.single hleave).snoc htick₃).snoc htick₄
  obtain ⟨-, -, hreturns, htests⟩ :=
    hturns.2 _ _ _ _ 0 (by simp) hrtc hafter (by simp)
  obtain ⟨m, hreturn⟩ := hreturns hexec₄
  exact ⟨k, _, _, _, m, hbefore, hrtc, hafter, hreturn, htests,
    hturns.1 k _ 0 m (((hbefore.snoc hrtc).append hafter).snoc hreturn)⟩

end Ece391Kernel
