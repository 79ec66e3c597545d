import Ece391Kernel.Schedule.Serialisation

/-!
# The steps of the interrupted calls

A run of calls with ticks between their steps is compared with the run in which each
call is made at once, when it splits its command or returns before. The plan has the
calls in this order. Each step of an interrupted call, and each tick, keeps `Serialised`:
the calls are on the way to the ends that the plan has for them. A call that marks its
slot before another that leaves the same in the buffers takes the other's place.

The comparison holds as long as the steps are `Undisturbed`. It fails without: `fname` and
`arg` belong to all calls, and the mapping follows `active_pcb`.
-/

namespace Ece391Kernel

open TransitionSystem LinkedStack

/-! ## Calls on the way -/

/-- The command of the call names the file, and the file is a program. -/
def NamesProgram (b : Boot) (a : ExecArgs) (command : CString) (idx : Nat) : Prop :=
  a.command = some command ∧ findDirentry b (commandName (seenCommand command)) = some idx ∧
    hasMagic (checkBuffer b a.stack idx) = true

/-- The command and the file of the call are its own. -/
def Progress.OwnFile (b : Boot) : Progress → Prop
  | .tested a command => a.command = some command
  | .parsed a command => a.command = some command
  | .checked a command idx => NamesProgram b a command idx
  | .starting _ a idx _ => ∃ command, NamesProgram b a command idx
  | _ => True

/-- It is decided how the call ends. -/
def Progress.decided : Progress → Bool
  | .idle | .entered _ | .tested _ _ => false
  | _ => true

/-- A call with these arguments, which ends in this way, can be so far. -/
inductive OnTheWay (a : ExecArgs) : Progress → Fate → Prop
  | returning (own command : CString) (rejected : Bool) :
      OnTheWay a (.parsed a own) (.returns command rejected)
  | parsed (own command : CString) (idx n : Nat) :
      OnTheWay a (.parsed a own) (.starts command idx n)
  | checked (own command : CString) (idx n : Nat) :
      OnTheWay a (.checked a own idx) (.starts command idx n)
  | starting (stage : Stage) (command : CString) (idx n : Nat) :
      OnTheWay a (.starting stage a idx n) (.starts command idx n)
  | full : OnTheWay a (.returned a false) .full
  | noCommand : OnTheWay a (.returned a false) .noCommand
  | returned (command : CString) (rejected : Bool) :
      OnTheWay a (.returned a rejected) (.returns command rejected)

/-- The program that is started has its own mapping and kernel stack. -/
def OwnContext (m : Interleaving) : Prop :=
  ∀ a idx (n : Fin 6), m.running = .starting .finished a idx n → InContext m.kernel n

/-- Two calls are in the order in which they have split their commands, or leave the same in
the buffers, if both have still to mark their slots. -/
def InOrder (b : Boot) (m : Interleaving) (e e' : Planned) : Prop :=
  ∀ own own', (m.progress e.terminal).pending b = some own →
    (m.progress e'.terminal).pending b = some own' →
    [e.terminal, e'.terminal].Sublist m.splits ∨ SplitsAlike own own'

/-- The calls that are decided are those of the plan, and on the way to the ends that it has
for them; made at once, in this order, they leave the buffers as they are. -/
structure Serialised (b : Boot) (k₀ : Kernel) (m : Interleaving) (plan : List Planned) :
    Prop where
  applied : Applied b k₀ (fun t => (m.progress t).effects b) m.kernel
  own : ∀ t, (m.progress t).OwnFile b
  sound : ∀ e ∈ plan, e.fate.Sound b e.args
  valid : ValidFrom k₀ (plan.map Planned.fate)
  once : (plan.map Planned.terminal).Nodup
  planned : ∀ t, (m.progress t).decided = true → t ∈ plan.map Planned.terminal
  agrees : ∀ e ∈ plan, OnTheWay e.args (m.progress e.terminal) e.fate
  buffers : SameBuffers (settle k₀ (plan.map Planned.fate)) m.kernel
  inOrder : plan.Pairwise (InOrder b m)
  recorded : ∀ t, ((m.progress t).pending b).isSome → t ∈ m.splits
  context : OwnContext m

theorem update_progress {β : Type*} (f : Progress → β) (progress : Fin 3 → Progress) (t : Fin 3)
    (p : Progress) :
    (fun u => f (Function.update progress t p u)) =
      Function.update (fun u => f (progress u)) t (f p) := by
  funext u
  by_cases hu : u = t
  · rw [hu, Function.update_self, Function.update_self]
  · rw [Function.update_of_ne hu, Function.update_of_ne hu]

section OnTheWay

variable {b : Boot} {t : Fin 3} {a : ExecArgs} {p : Progress} {fate : Fate}

/-- The slot of the program that is loaded and of the process that is attached. -/
theorem effects_slot (p : Progress) {n : Nat}
    (h : (p.effects b).program.map Prod.fst = some n ∨ (p.effects b).child.map Prod.fst = some n) :
    (p.effects b).slot = some n := by
  cases p with
  | starting s a idx m =>
      simp only [Progress.effects] at h ⊢
      rcases h with hprogram | hchild
      · split at hprogram
        · exact hprogram
        · exact absurd hprogram (by simp)
      · split at hchild
        · exact hchild
        · exact absurd hchild (by simp)
  | returned a rejected => cases rejected <;> simp [Progress.effects, Effects.none] at h
  | _ => simp [Progress.effects, Effects.none] at h

theorem effects_program (p : Progress) {n inode : Nat}
    (h : (p.effects b).program = some (n, inode)) : (p.effects b).slot = some n :=
  effects_slot p (Or.inl (by rw [h]; rfl))

theorem effects_child (p : Progress) {n : Nat} {a : ExecArgs}
    (h : (p.effects b).child = some (n, a)) : (p.effects b).slot = some n :=
  effects_slot p (Or.inr (by rw [h]; rfl))

/-- A call that is not decided has changed nothing. -/
theorem Progress.undecided (h : p.decided = false) :
    p.effects b = Effects.none ∧ p.unsettled b = 0 ∧ p.pending b = none ∧ p.outcome b = none := by
  cases p with
  | idle => exact ⟨rfl, rfl, rfl, rfl⟩
  | entered a => exact ⟨rfl, rfl, rfl, rfl⟩
  | tested a command => exact ⟨rfl, rfl, rfl, rfl⟩
  | _ => exact absurd h (by simp [Progress.decided])

namespace OnTheWay

theorem decided (h : OnTheWay a p fate) : p.decided = true := by
  cases h <;> rfl

/-- A slot that is marked is the one of the plan. -/
theorem slot (h : OnTheWay a p fate) {n : Nat} (hn : (p.effects b).slot = some n) :
    (((⟨t, a, fate⟩ : Planned).ending).effects b).slot = some n := by
  cases h with
  | starting stage command idx m => exact hn
  | returned command rejected =>
      cases rejected <;> exact absurd hn (by simp [Progress.effects, Effects.none])
  | _ => exact absurd hn (by simp [Progress.effects, Effects.none])

/-- A slot of the plan is marked, or still to be marked. -/
theorem slot_or_pending (h : OnTheWay a p fate) (hsound : fate.Sound b a) (hown : p.OwnFile b)
    {n : Nat} (hn : (((⟨t, a, fate⟩ : Planned).ending).effects b).slot = some n) :
    (p.effects b).slot = some n ∨ (p.pending b).isSome := by
  cases h with
  | parsed own command idx m =>
      obtain ⟨own', hcommand, -, -, hverdict, -⟩ := hsound
      obtain rfl := Option.some.inj (hcommand.symm.trans hown)
      exact Or.inr (by simp [Progress.pending, hverdict])
  | checked own command idx m => exact Or.inr rfl
  | starting stage command idx m => exact Or.inl hn
  | returning own command rejected =>
      cases rejected <;> exact absurd hn (by simp [Planned.ending, Progress.effects, Effects.none])
  | returned command rejected =>
      cases rejected <;> exact absurd hn (by simp [Planned.ending, Progress.effects, Effects.none])
  | _ => exact absurd hn (by simp [Planned.ending, Progress.effects, Effects.none])

/-- What a call adds to the count, it has added or has still to add. -/
theorem count (h : OnTheWay a p fate) (hsound : fate.Sound b a) (hown : p.OwnFile b) :
    (((⟨t, a, fate⟩ : Planned).ending).effects b).count =
      (p.effects b).count + p.unsettled b := by
  cases h with
  | returning own command rejected =>
      obtain ⟨own', hcommand, -, -, hverdict⟩ := hsound
      obtain rfl := Option.some.inj (hcommand.symm.trans hown)
      cases rejected <;>
        simp [Planned.ending, Progress.effects, Effects.none, Progress.unsettled, hverdict,
          Verdict.count]
  | parsed own command idx n =>
      obtain ⟨own', hcommand, -, -, hverdict, -⟩ := hsound
      obtain rfl := Option.some.inj (hcommand.symm.trans hown)
      simp [Planned.ending, Progress.effects, Effects.none, Progress.unsettled, hverdict,
        Verdict.count, Stage.hasCounted]
  | checked own command idx n => rfl
  | starting stage command idx n => cases stage <;> rfl
  | returned command rejected => cases rejected <;> rfl
  | _ => rfl

/-- The end of the call is the one of the plan. -/
theorem outcome (h : OnTheWay a p fate) (hsound : fate.Sound b a) (hown : p.OwnFile b) :
    p.outcome b = some ((⟨t, a, fate⟩ : Planned).label b).2 := by
  cases h with
  | returning own command rejected =>
      obtain ⟨own', hcommand, -, -, hverdict⟩ := hsound
      obtain rfl := Option.some.inj (hcommand.symm.trans hown)
      cases rejected <;> simp [Planned.label, Progress.outcome, hverdict]
  | parsed own command idx n =>
      obtain ⟨own', hcommand, -, -, hverdict, -⟩ := hsound
      obtain rfl := Option.some.inj (hcommand.symm.trans hown)
      simp [Planned.label, Progress.outcome, hverdict]
  | _ => rfl

/-- A call that has still to mark its slot starts a program. -/
theorem pending (h : OnTheWay a p fate) (hsound : fate.Sound b a) (hown : p.OwnFile b)
    {own : CString} (hpending : p.pending b = some own) :
    ∃ command idx n, fate = .starts command idx n ∧ a.command = some own ∧
      (argText own).length ≤ argLen ∧ SplitsAlike command own ∧ verdict b a own = .program idx ∧
      FitsFrame (programBytes b (direntryInode b idx)) ∧
      ((p = .parsed a own ∨ p = .checked a own idx) ∧ (p.effects b) = Effects.none) := by
  cases h with
  | returning own' command rejected =>
      obtain ⟨own'', hcommand, -, -, hverdict⟩ := hsound
      obtain rfl := Option.some.inj (hcommand.symm.trans hown)
      cases rejected <;> simp [Progress.pending, hverdict] at hpending
  | parsed own' command idx n =>
      obtain ⟨own'', hcommand, hfits, halike, hverdict, hfit⟩ := hsound
      obtain rfl := Option.some.inj (hcommand.symm.trans hown)
      simp only [Progress.pending, hverdict, Option.some.injEq] at hpending
      subst hpending
      exact ⟨command, idx, n, rfl, hcommand, hfits, halike, hverdict, hfit, Or.inl rfl, rfl⟩
  | checked own' command idx n =>
      obtain ⟨own'', hcommand, hfits, halike, hverdict, hfit⟩ := hsound
      obtain rfl := Option.some.inj (hcommand.symm.trans hown.1)
      obtain rfl := Option.some.inj hpending
      exact ⟨command, idx, n, rfl, hcommand, hfits, halike, hverdict, hfit, Or.inr rfl, rfl⟩
  | _ => exact absurd hpending (by simp [Progress.pending])

/-- Of two calls that have still to mark their slots and leave the same in the buffers, one can
end as the other does. -/
theorem exchange {a' : ExecArgs} {p' : Progress} {fate' : Fate} {own own' : CString}
    (h : OnTheWay a p fate) (hsound : fate.Sound b a) (hown : p.OwnFile b)
    (hpending : p.pending b = some own) (h' : OnTheWay a' p' fate') (hsound' : fate'.Sound b a')
    (hown' : p'.OwnFile b) (hpending' : p'.pending b = some own') (halike : SplitsAlike own' own)
    (k : Kernel) : fate'.Sound b a ∧ OnTheWay a p fate' := by
  obtain ⟨_, idx, _, -, hcommand, hfits, -, hverdict, -, hprogress, -⟩ :=
    h.pending hsound hown hpending
  obtain ⟨command', idx', n', rfl, -, -, halike', hverdict', hfit', -⟩ :=
    h'.pending hsound' hown' hpending'
  have hidx : findDirentry b (commandName (seenCommand own)) = some idx' := by
    rw [← halike.findDirentry_eq b k]
    exact (verdict_eq_program.mp hverdict').1
  obtain rfl := Option.some.inj ((verdict_eq_program.mp hverdict).1.symm.trans hidx)
  refine ⟨⟨own, hcommand, hfits, halike'.trans halike, hverdict, hfit'⟩, ?_⟩
  rcases hprogress with hp | hp <;> rw [hp] <;> constructor

end OnTheWay

end OnTheWay

/-- The slot that the search finds is the first free one. -/
theorem freeSlot_eq_some {k : Kernel} {n : Nat} : freeSlot k = some n ↔
    n < maxNumProcess ∧ k.processes n = 0 ∧ ∀ i < n, k.processes i ≠ 0 := by
  unfold freeSlot
  rw [List.find?_range_eq_some, List.mem_range]
  simp only [beq_iff_eq, Bool.not_eq_true', beq_eq_false_iff_ne]
  exact and_left_comm

namespace Serialised

variable {b : Boot} {k₀ k k' : Kernel} {progress : Fin 3 → Progress} {splits : List (Fin 3)}
  {m : Interleaving} {plan : List Planned} {p : Progress}

/-- The calls of the plan, made at once. -/
theorem exists_made (h : Serialised b k₀ m plan)
    (hstarted : ∀ t, 0 < (k₀.terminals t).numProcessExecutingOnTerminal) :
    ∃ k, Run (AtomicStep b) k₀ (plan.map (Planned.label b)) k ∧ Made b k₀ plan k ∧
      ∀ s₀, Represents k₀ s₀ → ∃ s, Represents k s :=
  h.valid.exists_made h.once h.sound hstarted

/-- Each call is decided, and on the way to its end; or it is not, and has changed nothing. -/
theorem cases (h : Serialised b k₀ m plan) (t : Fin 3) :
    (∃ e ∈ plan, e.terminal = t) ∨
      (m.progress t).decided = false ∧ planEffects b plan t = Effects.none := by
  by_cases ht : t ∈ plan.map Planned.terminal
  · obtain ⟨e, he, hterminal⟩ := List.mem_map.mp ht
    exact Or.inl ⟨e, he, hterminal⟩
  · refine Or.inr ⟨?_, planEffects_of_notMem ht⟩
    by_contra hdecided
    exact ht (h.planned t (by simpa using hdecided))

theorem plan_slot (h : Serialised b k₀ m plan) {t : Fin 3} {n : Nat}
    (hn : ((m.progress t).effects b).slot = some n) : (planEffects b plan t).slot = some n := by
  rcases h.cases t with ⟨e, he, rfl⟩ | ⟨hdecided, -⟩
  · rw [planEffects_of_mem h.once he]
    exact (h.agrees e he).slot hn
  · rw [(Progress.undecided hdecided).1] at hn
    exact absurd hn (by simp [Effects.none])

/-- A slot of the plan is marked, or is still to be marked. -/
theorem slot_or_pending (h : Serialised b k₀ m plan) {t : Fin 3} {n : Nat}
    (hn : (planEffects b plan t).slot = some n) :
    ((m.progress t).effects b).slot = some n ∨ ((m.progress t).pending b).isSome := by
  rcases h.cases t with ⟨e, he, rfl⟩ | ⟨-, hnone⟩
  · rw [planEffects_of_mem h.once he] at hn
    exact (h.agrees e he).slot_or_pending (h.sound e he) (h.own e.terminal) hn
  · rw [hnone] at hn
    exact absurd hn (by simp [Effects.none])

/-- The calls have marked slots of their own. -/
theorem slots (h : Serialised b k₀ m plan)
    (hstarted : ∀ t, 0 < (k₀.terminals t).numProcessExecutingOnTerminal) :
    OwnSlots k₀ fun t => (m.progress t).effects b := by
  obtain ⟨k, -, hmade, -⟩ := h.exists_made hstarted
  exact hmade.slots.of_slot (fun _ _ hn => h.plan_slot hn) (fun _ _ _ hn => effects_program _ hn)
    fun _ _ _ hn => effects_child _ hn

/-- The count after the calls of the plan is the settled one. -/
theorem settledCount_eq (h : Serialised b k₀ m plan) :
    (settle k₀ (plan.map Planned.fate)).numProcessExecuting = m.settledCount b := by
  have heach : ∀ t, (planEffects b plan t).count =
      ((m.progress t).effects b).count + (m.progress t).unsettled b := by
    intro t
    rcases h.cases t with ⟨e, he, rfl⟩ | ⟨hdecided, hnone⟩
    · rw [planEffects_of_mem h.once he]
      exact (h.agrees e he).count (h.sound e he) (h.own e.terminal)
    · obtain ⟨heffects, hunsettled, -⟩ := Progress.undecided (b := b) hdecided
      rw [hnone, heffects, hunsettled]
      rfl
  rw [settle_numProcessExecuting (b := b) h.once]
  unfold Interleaving.settledCount
  rw [h.applied.count, add_assoc, ← Finset.sum_add_distrib]
  exact congrArg _ (Finset.sum_congr rfl fun t _ => heach t)

/-- A slot that is marked after the calls of the plan is marked, or is still to be marked. -/
theorem settled_slot (h : Serialised b k₀ m plan) {n : Nat}
    (hn : (settle k₀ (plan.map Planned.fate)).processes n ≠ 0) :
    m.kernel.processes n ≠ 0 ∨
      ∃ t, (planEffects b plan t).slot = some n ∧ ((m.progress t).pending b).isSome := by
  obtain ⟨-, hunmarked⟩ := settle_processes b k₀ h.once n
  by_cases hslot : ∃ t, (planEffects b plan t).slot = some n
  · obtain ⟨t, ht⟩ := hslot
    rcases h.slot_or_pending ht with hmarked | hpending
    · rw [h.applied.marked t n hmarked]
      exact Or.inl (by decide)
    · exact Or.inr ⟨t, ht, hpending⟩
  · rw [not_exists] at hslot
    rw [hunmarked hslot] at hn
    rw [h.applied.unmarked n fun t ht => hslot t (h.plan_slot ht)]
    exact Or.inl hn

/-- If there is room, one more call finds a slot after those of the plan. -/
theorem exists_freeSlot (h : Serialised b k₀ m plan) (hroom : m.HasRoom b) :
    ∃ n, freeSlot (settle k₀ (plan.map Planned.fate)) = some n := by
  -- there is a free slot that no call will mark
  have hcard : ((Finset.univ.filter fun t => ((m.progress t).pending b).isSome).image
      fun t => (planEffects b plan t).slot).card <
      ((Finset.univ.filter fun n : Fin 6 => m.kernel.processes n = 0).image
        fun n : Fin 6 => some (n : Nat)).card := by
    rw [Finset.card_image_of_injective _ fun n n' hn => Fin.ext (Option.some.inj hn)]
    exact lt_of_le_of_lt Finset.card_image_le hroom
  obtain ⟨slot, hslot, hother⟩ := Finset.exists_mem_notMem_of_card_lt_card hcard
  obtain ⟨n, hn, rfl⟩ := Finset.mem_image.mp hslot
  rw [Finset.mem_filter] at hn
  refine freeSlot_isSome (m := n) ?_
  by_contra hmarked
  rcases h.settled_slot hmarked with hn' | ⟨t, ht, hpending⟩
  · exact hn' hn.2
  · refine hother (Finset.mem_image.mpr ⟨t, ?_, ht⟩)
    rw [Finset.mem_filter]
    exact ⟨Finset.mem_univ t, hpending⟩

/-- The first call of the plan that has still to mark its slot. -/
theorem exists_first_pending {e : Planned} (he : e ∈ plan)
    (hpending : ((m.progress e.terminal).pending b).isSome) :
    ∃ before x after, plan = before ++ x :: after ∧
      (∃ other, (m.progress x.terminal).pending b = some other) ∧ (e = x ∨ e ∈ after) ∧
      ∀ e' ∈ before, (m.progress e'.terminal).pending b = none := by
  cases hfirst : plan.find? fun e => ((m.progress e.terminal).pending b).isSome with
  | none => exact absurd hpending (List.find?_eq_none.mp hfirst e he)
  | some x =>
      obtain ⟨hx, before, after, rfl, hbefore⟩ := List.find?_eq_some_iff_append.mp hfirst
      have hnone : ∀ e' ∈ before, (m.progress e'.terminal).pending b = none := fun e' he' => by
        simpa using hbefore e' he'
      refine ⟨before, x, after, rfl, Option.isSome_iff_exists.mp hx, ?_, hnone⟩
      rcases List.mem_append.mp he with hmem | hmem
      · rw [hnone e hmem] at hpending
        exact absurd hpending (by simp)
      · exact List.mem_cons.mp hmem

/-- Two calls of the plan that have still to mark their slots exchange their ends. -/
theorem exchange {before between rest : List Planned} {x e : Planned} {own other : CString}
    (h : Serialised b k₀ m (before ++ x :: (between ++ e :: rest)))
    (hbefore : ∀ e' ∈ before, (m.progress e'.terminal).pending b = none)
    (hx : (m.progress x.terminal).pending b = some other)
    (he : (m.progress e.terminal).pending b = some own)
    (halike : ∀ y own', InOrder b m y e → (m.progress y.terminal).pending b = some own' →
      SplitsAlike own' own) :
    Serialised b k₀ m (before ++ ⟨e.terminal, e.args, x.fate⟩ ::
      (between ++ ⟨x.terminal, x.args, e.fate⟩ :: rest)) := by
  have hinOrder := h.inOrder
  rw [List.pairwise_append, List.pairwise_cons, List.pairwise_append, List.pairwise_cons]
    at hinOrder
  obtain ⟨hpairs, ⟨hxall, hbetween, ⟨herest, hrest⟩, hcross⟩, -⟩ := hinOrder
  have hmarks : ∀ y ∈ before, ∀ z, InOrder b m y z := fun y hy z own₁ own₂ h₁ =>
    absurd h₁ (by rw [hbefore y hy]; simp)
  have hxe := halike x other (hxall e (by simp)) hx
  obtain ⟨hsoundBefore, hsoundx, hsoundBetween, hsounde, hsoundRest⟩ := by
    have hsound := h.sound
    simp only [List.forall_mem_append, List.forall_mem_cons] at hsound
    exact hsound
  obtain ⟨hagreesBefore, hagreesx, hagreesBetween, hagreese, hagreesRest⟩ := by
    have hagrees := h.agrees
    simp only [List.forall_mem_append, List.forall_mem_cons] at hagrees
    exact hagrees
  obtain ⟨hsounde', hagreese'⟩ := hagreese.exchange hsounde (h.own _) he hagreesx hsoundx (h.own _)
    hx hxe k₀
  obtain ⟨hsoundx', hagreesx'⟩ := hagreesx.exchange hsoundx (h.own _) hx hagreese hsounde (h.own _)
    he hxe.symm k₀
  have hfates : ((before ++ ⟨e.terminal, e.args, x.fate⟩ :: (between ++
      ⟨x.terminal, x.args, e.fate⟩ :: rest)).map Planned.fate) =
      (before ++ x :: (between ++ e :: rest)).map Planned.fate := by simp
  have hterminals : ((before ++ ⟨e.terminal, e.args, x.fate⟩ :: (between ++
      ⟨x.terminal, x.args, e.fate⟩ :: rest)).map Planned.terminal).Perm
      ((before ++ x :: (between ++ e :: rest)).map Planned.terminal) := by
    simp only [List.map_append, List.map_cons]
    refine List.Perm.append_left _ ?_
    exact (List.perm_middle.cons _).trans ((List.Perm.swap _ _ _).trans
      (List.perm_middle.symm.cons _))
  exact
    { applied := h.applied
      own := h.own
      sound := by
        simp only [List.forall_mem_append, List.forall_mem_cons]
        exact ⟨hsoundBefore, hsounde', hsoundBetween, hsoundx', hsoundRest⟩
      valid := by
        rw [hfates]
        exact h.valid
      once := hterminals.nodup_iff.mpr h.once
      planned := fun t ht => hterminals.mem_iff.mpr (h.planned t ht)
      agrees := by
        simp only [List.forall_mem_append, List.forall_mem_cons]
        exact ⟨hagreesBefore, hagreese', hagreesBetween, hagreesx', hagreesRest⟩
      buffers := by
        rw [hfates]
        exact h.buffers
      inOrder := by
        simp only [List.pairwise_append, List.pairwise_cons, List.forall_mem_append,
          List.forall_mem_cons]
        refine ⟨hpairs, ⟨⟨?_, ?_, herest⟩, hbetween, ⟨?_, hrest⟩, ?_⟩, ?_⟩
        · intro y hy own₁ own₂ h₁ h₂
          obtain rfl := Option.some.inj (he.symm.trans h₁)
          exact Or.inr (halike y own₂ (hcross y hy e List.mem_cons_self) h₂).symm
        · intro own₁ own₂ h₁ h₂
          obtain rfl := Option.some.inj (he.symm.trans h₁)
          obtain rfl := Option.some.inj (hx.symm.trans h₂)
          exact Or.inr hxe.symm
        · exact fun y hy => hxall y (by simp [hy])
        · intro y hy
          refine ⟨fun own₁ own₂ h₁ h₂ => ?_, fun z hz => hcross y hy z (List.mem_cons_of_mem _ hz)⟩
          obtain rfl := Option.some.inj (hx.symm.trans h₂)
          exact Or.inr ((halike y own₁ (hcross y hy e List.mem_cons_self) h₁).trans hxe.symm)
        · exact fun y hy => ⟨hmarks y hy _, fun z _ => hmarks y hy z, hmarks y hy _,
            fun z _ => hmarks y hy z⟩
      recorded := h.recorded
      context := h.context }

/-- A call that may mark its slot can be taken to be the first of those that have still to
mark theirs: those before it leave the same in the buffers, so it takes the place of the
first one. -/
theorem reorder (h : Serialised b k₀ m plan) {t : Fin 3} {own : CString}
    (hpending : (m.progress t).pending b = some own)
    (hguard : ∀ u other, [u, t].Sublist m.splits → (m.progress u).pending b = some other →
      SplitsAlike other own) :
    ∃ before e after, Serialised b k₀ m (before ++ e :: after) ∧ e.terminal = t ∧
      ∀ e' ∈ before, (m.progress e'.terminal).pending b = none := by
  obtain ⟨e, he, rfl⟩ | ⟨hdecided, -⟩ := h.cases t
  · obtain ⟨before, x, after, rfl, ⟨other, hx⟩, rfl | hmem, hbefore⟩ :=
      exists_first_pending he (Option.isSome_iff_exists.mpr ⟨own, hpending⟩)
    · exact ⟨before, e, after, h, rfl, hbefore⟩
    · obtain ⟨between, rest, rfl⟩ := List.append_of_mem hmem
      have halike : ∀ y own', InOrder b m y e → (m.progress y.terminal).pending b = some own' →
          SplitsAlike own' own := fun y own' hy hown' =>
        (hy own' own hown' hpending).elim (fun hsplits => hguard _ _ hsplits hown') id
      exact ⟨before, _, _, h.exchange hbefore hx hpending halike, rfl, hbefore⟩
  · rw [(Progress.undecided hdecided).2.2.1] at hpending
    exact absurd hpending (by simp)

/-- The search finds the slot that the plan has for the first of those calls. -/
theorem freeSlot_eq (h : Serialised b k₀ m plan)
    (hstarted : ∀ t, 0 < (k₀.terminals t).numProcessExecutingOnTerminal)
    {before after : List Planned} {e : Planned} (hplan : plan = before ++ e :: after)
    (hbefore : ∀ e' ∈ before, (m.progress e'.terminal).pending b = none)
    (hnone : ((m.progress e.terminal).effects b).slot = none) {command : CString} {idx n : Nat}
    (hfate : e.fate = .starts command idx n) : freeSlot m.kernel = some n := by
  have he : e ∈ plan := by simp [hplan]
  have hslot : (planEffects b plan e.terminal).slot = some n := by
    rw [planEffects_of_mem h.once he]
    unfold Planned.ending
    simp only [hfate]
    rfl
  obtain ⟨_, -, hmade, -⟩ := h.exists_made hstarted
  obtain ⟨hn, hfree⟩ := hmade.slots.free _ n hslot
  -- the slot is taken by this call only, and those before it are taken by the calls before it
  have hunmarked : ∀ t, ((m.progress t).effects b).slot ≠ some n := by
    intro t ht
    obtain rfl := hmade.slots.distinct _ _ n (h.plan_slot ht) hslot
    rw [hnone] at ht
    exact absurd ht (by simp)
  have honce := h.once
  have hvalid := h.valid
  rw [hplan, List.map_append, List.nodup_append] at honce
  rw [hplan, List.map_append, validFrom_append, List.map_cons] at hvalid
  obtain ⟨-, hvalid, -⟩ := hvalid
  rw [hfate] at hvalid
  refine freeSlot_eq_some.mpr ⟨hn, (h.applied.unmarked n hunmarked).trans hfree, fun i hi => ?_⟩
  have htaken := (freeSlot_eq_some.mp hvalid.2).2.2 i hi
  obtain ⟨-, hkept⟩ := settle_processes b k₀ honce.1 i
  by_cases hi' : ∃ t, (planEffects b before t).slot = some i
  · obtain ⟨t, ht⟩ := hi'
    by_cases hmem : t ∈ before.map Planned.terminal
    · obtain ⟨e', he', rfl⟩ := List.mem_map.mp hmem
      have hmem' : e' ∈ plan := by simp [hplan, he']
      rw [planEffects_of_mem honce.1 he', ← planEffects_of_mem h.once hmem'] at ht
      rcases h.slot_or_pending ht with hmarked | hpending
      · rw [h.applied.marked _ i hmarked]
        decide
      · rw [hbefore e' he'] at hpending
        exact absurd hpending (by simp)
    · rw [planEffects_of_notMem hmem] at ht
      exact absurd ht (by simp [Effects.none])
  · rw [not_exists] at hi'
    rw [hkept hi'] at htaken
    by_cases hmarked : ∃ t, ((m.progress t).effects b).slot = some i
    · obtain ⟨t, ht⟩ := hmarked
      rw [h.applied.marked t i ht]
      decide
    · rw [not_exists] at hmarked
      rw [h.applied.unmarked i hmarked]
      exact htaken

end Serialised

/-! ## The steps -/

/-- At the start a terminal is before its call, or makes none. -/
theorem start_progress {β : Type*} (f : Progress → β) {x : β} (hidle : f .idle = x)
    (hentered : ∀ a, f (.entered a) = x) (k₀ : Kernel) (calls : Fin 3 → Option ExecArgs)
    (t : Fin 3) : f ((Interleaving.start k₀ calls).progress t) = x := by
  unfold Interleaving.start
  simp only
  cases calls t with
  | none => exact hidle
  | some a => exact hentered a

/-- The call of the running terminal is no program that has been started. -/
theorem OwnContext.of_ne {k' : Kernel} {progress : Fin 3 → Progress} {t : Fin 3} {p : Progress}
    {splits : List (Fin 3)} (ht : k'.executingTerminal = t)
    (hne : ∀ a idx n, p ≠ .starting .finished a idx n) :
    OwnContext ⟨k', Function.update progress t p, splits⟩ := by
  intro a idx n hp
  unfold Interleaving.running at hp
  simp only [ht, Function.update_self] at hp
  exact absurd hp (hne a idx n)

namespace Serialised

variable {b : Boot} {k₀ k k' : Kernel} {m m' : Interleaving} {progress : Fin 3 → Progress}
  {splits splits' : List (Fin 3)} {plan : List Planned} {p : Progress} {a : ExecArgs}
  {command : CString} {idx : Nat}

/-- The effects after a step of the running call. -/
theorem applied_update (h : Applied b k₀ (Function.update (fun t => (progress t).effects b)
      k.executingTerminal (p.effects b)) k') :
    Applied b k₀ (fun t => (Function.update progress k.executingTerminal p t).effects b) k' := by
  rw [update_progress fun q => q.effects b]
  exact h

/-- A step that has no effect. -/
theorem applied_same (h : Applied b k₀ (fun t => (progress t).effects b) k')
    (heffects : p.effects b = (progress k.executingTerminal).effects b) :
    Applied b k₀ (Function.update (fun t => (progress t).effects b) k.executingTerminal
      (p.effects b)) k' := by
  rw [heffects, Function.update_eq_self]
  exact h

theorem own_update (h : ∀ t, (progress t).OwnFile b) (hown : p.OwnFile b) (u : Fin 3) :
    (Function.update progress k.executingTerminal p u).OwnFile b := by
  by_cases hu : u = k.executingTerminal
  · rw [hu, Function.update_self]
    exact hown
  · rw [Function.update_of_ne hu]
    exact h u

/-- The calls that have still to mark a slot are in order after a step that adds none. -/
theorem inOrder_update {e e' : Planned} (h : InOrder b ⟨k, progress, splits⟩ e e')
    (hsplits : splits.Sublist splits')
    (hpending : ∀ own, p.pending b = some own →
      (progress k.executingTerminal).pending b = some own) :
    InOrder b ⟨k', Function.update progress k.executingTerminal p, splits'⟩ e e' := by
  have hbefore : ∀ u own, (Function.update progress k.executingTerminal p u).pending b = some own →
      (progress u).pending b = some own := by
    intro u own hu
    by_cases hut : u = k.executingTerminal
    · rw [hut, Function.update_self] at hu
      rw [hut]
      exact hpending own hu
    · rwa [Function.update_of_ne hut] at hu
  intro own own' hown hown'
  exact (h own own' (hbefore _ own hown) (hbefore _ own' hown')).imp_left
    fun hsub => hsub.trans hsplits

/-- A step that decides nothing. -/
theorem advance (h : Serialised b k₀ ⟨k, progress, splits⟩ plan)
    (happlied : Applied b k₀ (Function.update (fun t => (progress t).effects b)
      k.executingTerminal (p.effects b)) k')
    (hown : p.OwnFile b)
    (hdecided : p.decided = true → (progress k.executingTerminal).decided = true)
    (hagrees : ∀ e ∈ plan, e.terminal = k.executingTerminal → OnTheWay e.args p e.fate)
    (hpending : ∀ own, p.pending b = some own →
      (progress k.executingTerminal).pending b = some own)
    (hbuffers : SameBuffers k k')
    (hcontext : OwnContext ⟨k', Function.update progress k.executingTerminal p, splits⟩) :
    Serialised b k₀ ⟨k', Function.update progress k.executingTerminal p, splits⟩ plan where
  applied := applied_update happlied
  own := own_update h.own hown
  sound := h.sound
  valid := h.valid
  once := h.once
  planned := by
    intro u hu
    by_cases hut : u = k.executingTerminal
    · simp only [hut, Function.update_self] at hu
      rw [hut]
      exact h.planned _ (hdecided hu)
    · simp only [Function.update_of_ne hut] at hu
      exact h.planned u hu
  agrees := by
    intro e he
    by_cases hut : e.terminal = k.executingTerminal
    · simp only [hut, Function.update_self]
      exact hagrees e he hut
    · simp only [Function.update_of_ne hut]
      exact h.agrees e he
  buffers := h.buffers.trans hbuffers
  inOrder := h.inOrder.imp fun hpair => inOrder_update hpair (List.Sublist.refl _) hpending
  recorded := by
    intro u hu
    by_cases hut : u = k.executingTerminal
    · simp only [hut, Function.update_self] at hu
      obtain ⟨own, hsome⟩ := Option.isSome_iff_exists.mp hu
      exact h.recorded u (by rw [hut]; exact Option.isSome_iff_exists.mpr ⟨own, hpending own hsome⟩)
    · simp only [Function.update_of_ne hut] at hu
      exact h.recorded u hu
  context := hcontext

/-- A call that is not decided is not in the plan. -/
theorem not_planned (h : Serialised b k₀ m plan) {t : Fin 3}
    (hbefore : (m.progress t).decided = false) (e : Planned) (he : e ∈ plan) : e.terminal ≠ t := by
  rintro rfl
  exact absurd ((h.agrees e he).decided.symm.trans hbefore) (by decide)

theorem sublist_splits
    (h : splits' = splits ∧ p.pending b = none ∨ splits' = splits ++ [k.executingTerminal]) :
    splits.Sublist splits' := by
  rcases h with ⟨rfl, -⟩ | rfl
  · exact List.Sublist.refl _
  · exact List.sublist_append_left _ _

/-- The call that is decided last is behind the others, since they have split their commands
before. -/
theorem inOrder_concat (h : Serialised b k₀ ⟨k, progress, splits⟩ plan) {fate : Fate}
    (hne : ∀ e ∈ plan, e.terminal ≠ k.executingTerminal)
    (hsplits : splits' = splits ∧ p.pending b = none ∨
      splits' = splits ++ [k.executingTerminal]) :
    (plan ++ [(⟨k.executingTerminal, a, fate⟩ : Planned)]).Pairwise
      (InOrder b ⟨k', Function.update progress k.executingTerminal p, splits'⟩) := by
  rw [List.pairwise_append]
  refine ⟨?_, List.pairwise_singleton _ _, ?_⟩
  · refine h.inOrder.imp_of_mem fun {e e'} he he' hpair own own' hown hown' => ?_
    simp only [Function.update_of_ne (hne e he)] at hown
    simp only [Function.update_of_ne (hne e' he')] at hown'
    exact (hpair own own' hown hown').imp_left fun hsub => hsub.trans (sublist_splits hsplits)
  · intro e he e' he' own own' hown hown'
    rw [List.mem_singleton] at he'
    rw [he'] at hown' ⊢
    simp only [Function.update_self] at hown'
    simp only [Function.update_of_ne (hne e he)] at hown
    rcases hsplits with ⟨-, hnone⟩ | rfl
    · rw [hnone] at hown'
      exact absurd hown' (by simp)
    · have hrecorded := h.recorded e.terminal (Option.isSome_iff_exists.mpr ⟨own, hown⟩)
      exact Or.inl ((List.singleton_sublist.mpr hrecorded).append (List.Sublist.refl _))

/-- A step that decides how the call ends. -/
theorem commit (h : Serialised b k₀ ⟨k, progress, splits⟩ plan) (fate : Fate)
    (hbefore : (progress k.executingTerminal).decided = false)
    (happlied : Applied b k₀ (fun t => (progress t).effects b) k')
    (heffects : p.effects b = Effects.none) (hown : p.OwnFile b)
    (hsound : fate.Sound b a) (hvalid : fate.Valid (settle k₀ (plan.map Planned.fate)))
    (hagrees : OnTheWay a p fate)
    (hsplits : splits' = splits ∧ p.pending b = none ∨ splits' = splits ++ [k.executingTerminal])
    (hbuffers : SameBuffers (fate.apply (settle k₀ (plan.map Planned.fate))) k')
    (hcontext : OwnContext ⟨k', Function.update progress k.executingTerminal p, splits'⟩) :
    Serialised b k₀ ⟨k', Function.update progress k.executingTerminal p, splits'⟩
      (plan ++ [⟨k.executingTerminal, a, fate⟩]) := by
  have hne := h.not_planned hbefore
  have hnot : k.executingTerminal ∉ plan.map Planned.terminal := by
    intro hmem
    obtain ⟨e, he, heq⟩ := List.mem_map.mp hmem
    exact hne e he heq
  exact
    { applied := by
        refine applied_update (applied_same happlied ?_)
        rw [heffects, (Progress.undecided hbefore).1]
      own := own_update h.own hown
      sound := by
        rw [List.forall_mem_append, List.forall_mem_singleton]
        exact ⟨h.sound, hsound⟩
      valid := by
        rw [List.map_append, List.map_singleton, validFrom_concat]
        exact ⟨h.valid, hvalid⟩
      once := by
        rw [List.map_append, List.nodup_append]
        refine ⟨h.once, by simp, ?_⟩
        rintro u hu v hv rfl
        rw [List.map_singleton, List.mem_singleton] at hv
        rw [show u = k.executingTerminal from hv] at hu
        exact hnot hu
      planned := by
        intro u hu
        rw [List.map_append, List.mem_append, List.map_singleton, List.mem_singleton]
        by_cases hut : u = k.executingTerminal
        · exact Or.inr hut
        · simp only [Function.update_of_ne hut] at hu
          exact Or.inl (h.planned u hu)
      agrees := by
        rw [List.forall_mem_append, List.forall_mem_singleton]
        refine ⟨fun e he => ?_, ?_⟩
        · simp only [Function.update_of_ne (hne e he)]
          exact h.agrees e he
        · simp only [Function.update_self]
          exact hagrees
      buffers := by
        rw [List.map_append, List.map_singleton, settle_concat]
        exact hbuffers
      inOrder := h.inOrder_concat hne hsplits
      recorded := by
        intro u hu
        by_cases hut : u = k.executingTerminal
        · simp only [hut, Function.update_self] at hu
          rcases hsplits with ⟨-, hnone⟩ | rfl
          · rw [hnone] at hu
            exact absurd hu (by simp)
          · simp [hut]
        · simp only [Function.update_of_ne hut] at hu
          exact (sublist_splits hsplits).subset (h.recorded u hu)
      context := hcontext }

/-- The table is full, or there is no command. -/
theorem step_early (h : Serialised b k₀ ⟨k, progress, splits⟩ plan)
    (hq : progress k.executingTerminal = .entered a)
    (hguard : Undisturbed b ⟨k, progress, splits⟩ .run)
    (hearly : k.numProcessExecuting = 6 ∨ a.command = none) :
    ∃ plan', Serialised b k₀
      ⟨k, Function.update progress k.executingTerminal (.returned a false), splits⟩ plan' := by
  unfold Undisturbed Interleaving.running at hguard
  simp only [hq] at hguard
  have hbefore : (progress k.executingTerminal).decided = false := by rw [hq]; rfl
  have hcontext : OwnContext
      ⟨k, Function.update progress k.executingTerminal (.returned a false), splits⟩ :=
    OwnContext.of_ne rfl (by simp)
  by_cases hcommand : a.command = none
  · exact ⟨_, h.commit .noCommand hbefore h.applied rfl trivial hcommand trivial
      .noCommand (Or.inl ⟨rfl, rfl⟩) h.buffers hcontext⟩
  · have hfull := hguard hcommand (hearly.resolve_right hcommand)
    exact ⟨_, h.commit .full hbefore h.applied rfl trivial trivial
      (h.settledCount_eq.trans hfull) .full (Or.inl ⟨rfl, rfl⟩) h.buffers hcontext⟩

/-- There is room, and a command. -/
theorem step_entered (h : Serialised b k₀ ⟨k, progress, splits⟩ plan)
    (hq : progress k.executingTerminal = .entered a) (hcommand : a.command = some command) :
    Serialised b k₀
      ⟨k, Function.update progress k.executingTerminal (.tested a command), splits⟩ plan := by
  have hbefore : (progress k.executingTerminal).decided = false := by rw [hq]; rfl
  refine h.advance (applied_same h.applied (by rw [hq]; rfl)) hcommand
    (fun hdecided => absurd hdecided (by simp [Progress.decided]))
    (fun e he heq => absurd heq (h.not_planned hbefore e he))
    (fun own hpending => absurd hpending (by simp [Progress.pending])) (SameBuffers.refl k)
    (OwnContext.of_ne rfl (by simp))

/-- The splitting of the command decides how the call ends. -/
theorem step_tested (h : Serialised b k₀ ⟨k, progress, splits⟩ plan)
    (hq : progress k.executingTerminal = .tested a command)
    (hguard : Undisturbed b ⟨k, progress, splits⟩ .run) :
    ∃ plan', Serialised b k₀ ⟨parseCommand (seenCommand command) k,
      Function.update progress k.executingTerminal (.parsed a command),
      splits ++ [k.executingTerminal]⟩ plan' := by
  unfold Undisturbed Interleaving.running at hguard
  simp only [hq] at hguard
  obtain ⟨hfits, hsettled, hprogram⟩ := hguard
  have hbefore : (progress k.executingTerminal).decided = false := by rw [hq]; rfl
  have hown := h.own k.executingTerminal
  simp only [hq] at hown
  have hnum : (settle k₀ (plan.map Planned.fate)).numProcessExecuting ≠ 6 := by
    rw [h.settledCount_eq]
    exact hsettled
  have hbuffers := h.buffers.parseCommand (seenCommand command)
  have happlied := h.applied.parseCommand (seenCommand command)
  have hcontext : OwnContext ⟨parseCommand (seenCommand command) k,
      Function.update progress k.executingTerminal (.parsed a command),
      splits ++ [k.executingTerminal]⟩ := OwnContext.of_ne rfl (by simp)
  cases hverdict : verdict b a command with
  | unknown =>
      exact ⟨_, h.commit (.returns command false) hbefore happlied rfl hown
        ⟨command, hown, hfits, SplitsAlike.refl command, hverdict⟩ hnum (.returning _ _ _)
        (Or.inr rfl) hbuffers hcontext⟩
  | rejected =>
      exact ⟨_, h.commit (.returns command true) hbefore happlied rfl hown
        ⟨command, hown, hfits, SplitsAlike.refl command, hverdict⟩ hnum (.returning _ _ _)
        (Or.inr rfl) ⟨hbuffers.fname, hbuffers.arg, hbuffers.argLength⟩ hcontext⟩
  | program idx =>
      obtain ⟨hroom, hfit⟩ := hprogram idx hverdict
      obtain ⟨n, hslot⟩ := h.exists_freeSlot hroom
      exact ⟨_, h.commit (.starts command idx n) hbefore happlied rfl hown
        ⟨command, hown, hfits, SplitsAlike.refl command, hverdict, hfit⟩ ⟨hnum, hslot⟩
        (.parsed _ _ _ _) (Or.inr rfl) ⟨hbuffers.fname, hbuffers.arg, hbuffers.argLength⟩ hcontext⟩

/-- What the plan has for a call that has split its command. -/
theorem planned_parsed (h : Serialised b k₀ m plan) {e : Planned} (he : e ∈ plan)
    (hq : m.progress e.terminal = .parsed a command) :
    e.args = a ∧ ((∃ c, e.fate = .returns c false ∧ verdict b a command = .unknown) ∨
      (∃ c, e.fate = .returns c true ∧ verdict b a command = .rejected) ∨
      ∃ c idx n, e.fate = .starts c idx n ∧ verdict b a command = .program idx) := by
  have hagrees := h.agrees e he
  have hsound := h.sound e he
  have hown := h.own e.terminal
  rw [hq] at hagrees hown
  generalize hfate : e.fate = fate at hagrees hsound
  cases hagrees with
  | returning own c rejected =>
      obtain ⟨own', hcommand, -, -, hverdict⟩ := hsound
      obtain rfl := Option.some.inj (hcommand.symm.trans hown)
      cases rejected with
      | false => exact ⟨rfl, Or.inl ⟨c, rfl, hverdict⟩⟩
      | true => exact ⟨rfl, Or.inr (Or.inl ⟨c, rfl, hverdict⟩)⟩
  | parsed own c idx n =>
      obtain ⟨own', hcommand, -, -, hverdict, -⟩ := hsound
      obtain rfl := Option.some.inj (hcommand.symm.trans hown)
      exact ⟨rfl, Or.inr (Or.inr ⟨c, idx, n, rfl, hverdict⟩)⟩

/-- There is no file of the name. -/
theorem step_unknown (h : Serialised b k₀ ⟨k, progress, splits⟩ plan)
    (hq : progress k.executingTerminal = .parsed a command)
    (hverdict : verdict b a command = .unknown) :
    Serialised b k₀
      ⟨k, Function.update progress k.executingTerminal (.returned a false), splits⟩ plan := by
  refine h.advance (applied_same h.applied (by rw [hq]; rfl)) trivial (fun _ => by rw [hq]; rfl)
    (fun e he heq => ?_) (fun own hpending => absurd hpending (by simp [Progress.pending]))
    (SameBuffers.refl k) (OwnContext.of_ne rfl (by simp))
  rw [← heq] at hq
  obtain ⟨rfl, ⟨c, hfate, -⟩ | ⟨c, -, hother⟩ | ⟨c, idx, n, -, hother⟩⟩ := h.planned_parsed he hq
  · rw [hfate]
    exact .returned c false
  all_goals
    rw [hverdict] at hother
    exact absurd hother (by simp)

/-- The file is no program. -/
theorem step_rejected (h : Serialised b k₀ ⟨k, progress, splits⟩ plan)
    (hq : progress k.executingTerminal = .parsed a command)
    (hverdict : verdict b a command = .rejected) :
    Serialised b k₀ ⟨dropCount k,
      Function.update progress k.executingTerminal (.returned a true), splits⟩ plan := by
  have hnone : (progress k.executingTerminal).effects b = Effects.none := by rw [hq]; rfl
  have happlied := h.applied.dropCount (t := k.executingTerminal) (by rw [hnone]; rfl)
  simp only [hnone] at happlied
  refine h.advance happlied trivial (fun _ => by rw [hq]; rfl)
    (fun e he heq => ?_) (fun own hpending => absurd hpending (by simp [Progress.pending]))
    ⟨rfl, rfl, rfl⟩ (OwnContext.of_ne rfl (by simp))
  rw [← heq] at hq
  obtain ⟨rfl, ⟨c, -, hother⟩ | ⟨c, hfate, -⟩ | ⟨c, idx, n, -, hother⟩⟩ := h.planned_parsed he hq
  · rw [hverdict] at hother
    exact absurd hother (by simp)
  · rw [hfate]
    exact .returned c true
  · rw [hverdict] at hother
    exact absurd hother (by simp)

/-- The file is a program. -/
theorem step_parsed (h : Serialised b k₀ ⟨k, progress, splits⟩ plan)
    (hq : progress k.executingTerminal = .parsed a command)
    (hverdict : verdict b a command = .program idx) :
    Serialised b k₀ ⟨k,
      Function.update progress k.executingTerminal (.checked a command idx), splits⟩ plan := by
  have hown := h.own k.executingTerminal
  simp only [hq] at hown
  refine h.advance (applied_same h.applied (by rw [hq]; rfl))
    ⟨hown, verdict_eq_program.mp hverdict⟩ (fun _ => by rw [hq]; rfl) (fun e he heq => ?_)
    (fun own hpending => ?_) (SameBuffers.refl k) (OwnContext.of_ne rfl (by simp))
  · rw [← heq] at hq
    obtain ⟨rfl, ⟨c, -, hother⟩ | ⟨c, -, hother⟩ | ⟨c, idx', n, hfate, hother⟩⟩ :=
      h.planned_parsed he hq
    · rw [hverdict] at hother
      exact absurd hother (by simp)
    · rw [hverdict] at hother
      exact absurd hother (by simp)
    · obtain rfl := Verdict.program.inj (hverdict.symm.trans hother)
      rw [hfate]
      exact .checked command c idx n
  · rw [hq]
    simp only [Progress.pending, hverdict]
    exact hpending

/-- The marking of a slot. -/
theorem step_checked (h : Serialised b k₀ ⟨k, progress, splits⟩ plan)
    (hstarted : ∀ t, 0 < (k₀.terminals t).numProcessExecutingOnTerminal)
    (hq : progress k.executingTerminal = .checked a command idx)
    (hguard : Undisturbed b ⟨k, progress, splits⟩ .run) :
    ∃ n plan', freeSlot k = some n ∧ Serialised b k₀ ⟨claimSlot n k,
      Function.update progress k.executingTerminal (.starting .claimed a idx n), splits⟩
      plan' := by
  unfold Undisturbed Interleaving.running at hguard
  simp only [hq] at hguard
  have hpending : (progress k.executingTerminal).pending b = some command := by rw [hq]; rfl
  obtain ⟨before, e, after, h', heq, hbefore⟩ := h.reorder hpending hguard
  have he : e ∈ before ++ e :: after := by simp
  have hnone : (progress k.executingTerminal).effects b = Effects.none := by rw [hq]; rfl
  have hown := h.own k.executingTerminal
  simp only [hq] at hown
  obtain ⟨c, n, rfl, hfate⟩ : ∃ c n, e.args = a ∧ e.fate = .starts c idx n := by
    have hagrees := h'.agrees e he
    simp only [heq, hq] at hagrees
    generalize hfate : e.fate = fate at hagrees
    cases hagrees with
    | checked own c idx n => exact ⟨c, n, rfl, rfl⟩
  have hslot : freeSlot k = some n :=
    h'.freeSlot_eq hstarted rfl hbefore (by simp only [heq, hnone]; rfl) hfate
  have happlied := h'.applied.claimSlot (t := k.executingTerminal) (by rw [hnone]; rfl) n
  simp only [hnone] at happlied
  refine ⟨n, _, hslot, h'.advance happlied ⟨command, hown⟩ (fun _ => by rw [hq]; rfl)
    (fun e' he' heq' => ?_) (fun own hpending => absurd hpending (by simp [Progress.pending]))
    ⟨rfl, rfl, rfl⟩ (OwnContext.of_ne rfl (by simp))⟩
  obtain rfl := List.inj_on_of_nodup_map h'.once he' he (heq'.trans heq.symm)
  rw [hfate]
  exact .starting .claimed c idx n

/-- The program of a call that has found a slot fits, and the plan has this slot. -/
theorem planned_starting (h : Serialised b k₀ m plan) {t : Fin 3} {s : Stage} {n : Nat}
    (hq : m.progress t = .starting s a idx n) :
    FitsFrame (programBytes b (direntryInode b idx)) ∧
      ∀ e ∈ plan, e.terminal = t → ∃ c, e.args = a ∧ e.fate = .starts c idx n := by
  have hplanned : ∀ e ∈ plan, e.terminal = t → ∃ c, e.args = a ∧ e.fate = .starts c idx n := by
    rintro e he rfl
    have hagrees := h.agrees e he
    rw [hq] at hagrees
    generalize hfate : e.fate = fate at hagrees
    cases hagrees with
    | starting stage c idx n => exact ⟨c, rfl, rfl⟩
  refine ⟨?_, hplanned⟩
  obtain ⟨e, he, heq⟩ := List.mem_map.mp (h.planned t (by rw [hq]; rfl))
  obtain ⟨c, -, hfate⟩ := hplanned e he heq
  have hsound := h.sound e he
  rw [hfate] at hsound
  obtain ⟨_, -, -, -, -, hfit⟩ := hsound
  exact hfit

/-- A step of a call that has found a slot. -/
theorem step_starting (h : Serialised b k₀ ⟨k, progress, splits⟩ plan)
    (hstarted : ∀ t, 0 < (k₀.terminals t).numProcessExecutingOnTerminal) {s : Stage} {n : Nat}
    (hq : progress k.executingTerminal = .starting s a idx n)
    (hguard : Undisturbed b ⟨k, progress, splits⟩ .run) {p : Progress}
    (hstep : callStep b (.starting s a idx n) k = some (p, k')) :
    Serialised b k₀ ⟨k', Function.update progress k.executingTerminal p, splits⟩ plan := by
  unfold Undisturbed Interleaving.running at hguard
  simp only [hq] at hguard
  have hown := h.own k.executingTerminal
  simp only [hq] at hown
  obtain ⟨hfit, hplanned⟩ := h.planned_starting (t := k.executingTerminal) hq
  obtain ⟨rfl, hexec, hbuffers, happlied⟩ := h.applied.stage (h.slots hstarted) rfl
    (by simp only [hq]) (hstarted _) (fun hs => ⟨by subst hs; exact hguard, hfit⟩) hstep
  refine h.advance happlied hown (fun _ => by rw [hq]; rfl) (fun e he heq => ?_)
    (fun own hpending => absurd hpending (by simp [Progress.pending])) hbuffers ?_
  · obtain ⟨c, rfl, hfate⟩ := hplanned e he heq
    rw [hfate]
    exact .starting s.next c idx n
  · cases s with
    | attached =>
        obtain ⟨-, rfl⟩ := Prod.mk.inj (Option.some.inj hstep)
        intro a' idx' n' hp
        unfold Interleaving.running at hp
        simp only [hexec, Function.update_self] at hp
        obtain ⟨-, -, -, rfl⟩ := Progress.starting.inj hp
        exact ⟨hguard, inKernelStack_top n'⟩
    | finished => exact absurd hstep (by simp [callStep])
    | _ => exact OwnContext.of_ne hexec (by simp [Stage.next])

/-- A tick goes on with another call, and maps the active process of its terminal. -/
theorem tick (h : Serialised b k₀ ⟨k, progress, splits⟩ plan)
    (hstarted : ∀ t, 0 < (k₀.terminals t).numProcessExecutingOnTerminal) {a : SwitchArgs}
    {esp ebp : Nat} (hstep : pitInterrupt b a k = .switched esp ebp k') :
    Serialised b k₀ ⟨k', progress, splits⟩ plan := by
  obtain ⟨-, -, -, rfl⟩ := pitInterrupt_switched hstep
  exact
    { applied := h.applied.remap a k.next _
      own := h.own
      sound := h.sound
      valid := h.valid
      once := h.once
      planned := h.planned
      agrees := h.agrees
      buffers := h.buffers.trans ⟨rfl, rfl, rfl⟩
      inOrder := h.inOrder
      recorded := h.recorded
      context := by
        intro a' idx n hq
        have heffects : ((progress k.next).effects b).child = some ((n : Nat), a') := by
          unfold Interleaving.running at hq
          simp only [remap_executingTerminal] at hq
          rw [hq]
          rfl
        obtain ⟨_, _, hrecord⟩ := h.applied.terminals k.next
        obtain ⟨_, hpcb⟩ := h.applied.child k.next n a' heffects
        have hnum : (k.pcbs (k.terminals k.next).activePcb).processNum = n := by
          simp only at hrecord hpcb
          rw [hrecord]
          simp only [Effects.onRecord, heffects, Option.elim, hpcb]
          rfl
        have hn := ((h.slots hstarted).free _ n ((h.slots hstarted).child _ n a' heffects)).1
        refine ⟨?_, ?_⟩
        · rw [hnum]
          exact processMap_pageDirectory_virPro _ hn
        · rw [hnum]
          exact inKernelStack_below_top n }

/-- Every undisturbed step keeps the comparison. -/
theorem step (h : Serialised b k₀ m plan)
    (hstarted : ∀ t, 0 < (k₀.terminals t).numProcessExecutingOnTerminal) {label : PreemptLabel}
    (hguard : Undisturbed b m label) (hstep : PreemptStep b m label m') :
    ∃ plan', Serialised b k₀ m' plan' := by
  cases hstep with
  | tick hswitch => exact ⟨plan, h.tick hstarted hswitch⟩
  | @run k k' progress splits p hstep =>
      cases hq : progress k.executingTerminal with
      | idle =>
          rw [hq] at hstep
          exact absurd hstep (by simp [callStep])
      | entered a =>
          rw [hq] at hstep
          simp only [callStep] at hstep
          split at hstep
          · rename_i hfull
            obtain ⟨rfl, rfl⟩ := Prod.mk.inj (Option.some.inj hstep)
            exact h.step_early hq hguard (Or.inl hfull)
          · split at hstep
            · rename_i hcommand
              obtain ⟨rfl, rfl⟩ := Prod.mk.inj (Option.some.inj hstep)
              exact h.step_early hq hguard (Or.inr hcommand)
            · rename_i command hcommand
              obtain ⟨rfl, rfl⟩ := Prod.mk.inj (Option.some.inj hstep)
              exact ⟨plan, h.step_entered hq hcommand⟩
      | tested a command =>
          have hfits : (argText command).length ≤ argLen := by
            unfold Undisturbed Interleaving.running at hguard
            simp only [hq] at hguard
            exact hguard.1
          rw [hq] at hstep
          simp only [callStep, parseCommandInPlace_of_fits hfits, Option.bind_some,
            parseCommand_executingTerminal, if_true] at hstep
          obtain ⟨rfl, rfl⟩ := Prod.mk.inj (Option.some.inj hstep)
          exact h.step_tested hq hguard
      | parsed a command =>
          have hname := hguard
          unfold Undisturbed Interleaving.running at hname
          simp only [hq] at hname
          rw [hq] at hstep
          simp only [callStep, hname] at hstep
          cases hverdict : verdict b a command with
          | unknown =>
              rw [verdict_eq_unknown.mp hverdict] at hstep
              obtain ⟨rfl, rfl⟩ := Prod.mk.inj (Option.some.inj hstep)
              exact ⟨plan, h.step_unknown hq hverdict⟩
          | rejected =>
              obtain ⟨idx, hidx, hmagic⟩ := verdict_eq_rejected.mp hverdict
              simp only [hidx, executableCheck, hmagic] at hstep
              obtain ⟨rfl, rfl⟩ := Prod.mk.inj (Option.some.inj hstep)
              exact ⟨plan, h.step_rejected hq hverdict⟩
          | program idx =>
              obtain ⟨hidx, hmagic⟩ := verdict_eq_program.mp hverdict
              simp only [hidx, executableCheck, hmagic, if_true] at hstep
              obtain ⟨rfl, rfl⟩ := Prod.mk.inj (Option.some.inj hstep)
              exact ⟨plan, h.step_parsed hq hverdict⟩
      | checked a command idx =>
          rw [hq] at hstep
          obtain ⟨n, plan', hslot, h'⟩ := h.step_checked hstarted hq hguard
          simp only [callStep, hslot, Option.map_some] at hstep
          obtain ⟨rfl, rfl⟩ := Prod.mk.inj (Option.some.inj hstep)
          exact ⟨plan', h'⟩
      | starting s a idx n =>
          rw [hq] at hstep
          exact ⟨plan, h.step_starting hstarted hq hguard hstep⟩
      | returned a rejected =>
          rw [hq] at hstep
          exact absurd hstep (by simp [callStep])

/-- No call is decided. -/
theorem start (b : Boot) (k₀ : Kernel) (calls : Fin 3 → Option ExecArgs) :
    Serialised b k₀ (Interleaving.start k₀ calls) [] where
  applied := by
    have heffects : ∀ t, ((Interleaving.start k₀ calls).progress t).effects b = Effects.none :=
      start_progress (fun p => p.effects b) rfl (fun _ => rfl) k₀ calls
    simp only [heffects]
    exact Applied.start b k₀
  own := fun t => start_progress (fun p => p.OwnFile b) rfl (fun _ => rfl) k₀ calls t ▸ trivial
  sound := fun _ he => absurd he List.not_mem_nil
  valid := trivial
  once := List.nodup_nil
  planned := by
    intro t ht
    rw [start_progress Progress.decided rfl (fun _ => rfl) k₀ calls t] at ht
    exact absurd ht (by decide)
  agrees := fun _ he => absurd he List.not_mem_nil
  buffers := SameBuffers.refl k₀
  inOrder := List.Pairwise.nil
  recorded := by
    intro t ht
    rw [start_progress (fun p => p.pending b) rfl (fun _ => rfl) k₀ calls t] at ht
    exact absurd ht (by simp [Progress.pending])
  context := by
    intro a idx n hq
    have hnone := start_progress Progress.decided rfl (fun _ => rfl) k₀ calls
      (Interleaving.start k₀ calls).kernel.executingTerminal
    unfold Interleaving.running at hq
    rw [hq] at hnone
    exact absurd hnone (by simp [Progress.decided])

end Serialised

end Ece391Kernel
