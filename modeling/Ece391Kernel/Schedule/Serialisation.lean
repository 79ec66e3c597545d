import Ece391Kernel.Schedule.Applied
import Ece391Kernel.Schedule.Coherence

/-!
# Calls made at once

How a call of `sys_execute` ends is decided when it splits its command, or before if it
finds the table full or has no command. A plan has the calls that are decided, each with
the end that it comes to. This module makes the calls of a plan at once, one after the
other: if each of them is right about the full table and its slot, with the calls before
it taken into account, they do what the plan says.
-/

namespace Ece391Kernel

open TransitionSystem LinkedStack

/-! ## Plans -/

/-- How a call ends: it finds the table full, or has no command; or it returns after it has
split its command, with or without a file that is no program; or it starts a program in a
slot. -/
inductive Fate
  | full
  | noCommand
  | returns (command : CString) (rejected : Bool)
  | starts (command : CString) (directoryIdx n : Nat)

/-- The call of a terminal, and how it ends. -/
structure Planned where
  terminal : Fin 3
  args : ExecArgs
  fate : Fate

/-- What a call leaves in the buffers, the count and the table of the slots. -/
def Fate.apply : Fate → Kernel → Kernel
  | .full, k => k
  | .noCommand, k => k
  | .returns command false, k => parseCommand (seenCommand command) k
  | .returns command true, k => dropCount (parseCommand (seenCommand command) k)
  | .starts command _ n, k => countProcess (claimSlot n (parseCommand (seenCommand command) k))

/-- The table is full, or is not, and the slot is the one that the search finds. -/
def Fate.Valid (k : Kernel) : Fate → Prop
  | .full => k.numProcessExecuting = 6
  | .noCommand => True
  | .returns _ _ => k.numProcessExecuting ≠ 6
  | .starts _ _ n => k.numProcessExecuting ≠ 6 ∧ freeSlot k = some n

/-- What the calls leave there, one after the other. -/
def settle (k : Kernel) (fates : List Fate) : Kernel := fates.foldl (fun k fate => fate.apply k) k

/-- Each call is valid after those before it. -/
def ValidFrom : Kernel → List Fate → Prop
  | _, [] => True
  | k, fate :: fates => fate.Valid k ∧ ValidFrom (fate.apply k) fates

/-- The end is that of a command which the call may have split: it leaves the same in the
buffers, fits, and comes to this. -/
def Fate.Sound (b : Boot) (a : ExecArgs) : Fate → Prop
  | .full => True
  | .noCommand => a.command = none
  | .returns command rejected =>
      ∃ own, a.command = some own ∧ (argText own).length ≤ argLen ∧ SplitsAlike command own ∧
        verdict b a own = if rejected then .rejected else .unknown
  | .starts command directoryIdx _ =>
      ∃ own, a.command = some own ∧ (argText own).length ≤ argLen ∧ SplitsAlike command own ∧
        verdict b a own = .program directoryIdx ∧
        FitsFrame (programBytes b (direntryInode b directoryIdx))

/-- The call when it is over. -/
def Planned.ending (e : Planned) : Progress :=
  match e.fate with
  | .full => .returned e.args false
  | .noCommand => .returned e.args false
  | .returns _ rejected => .returned e.args rejected
  | .starts _ directoryIdx n => .starting .finished e.args directoryIdx n

/-- How a call ends once this is decided: with the first instruction of a program,
or by returning -1. -/
def Progress.outcome (b : Boot) : Progress → Option (ExecArgs × Option Nat)
  | .parsed a command =>
      match verdict b a command with
      | .program directoryIdx => some (a, some (loader (checkBuffer b a.stack directoryIdx)))
      | _ => some (a, none)
  | .checked a _ directoryIdx => some (a, some (loader (checkBuffer b a.stack directoryIdx)))
  | .starting _ a directoryIdx _ => some (a, some (loader (checkBuffer b a.stack directoryIdx)))
  | .returned a _ => some (a, none)
  | _ => none

/-- The call made at once, with its end. -/
def Planned.label (b : Boot) (e : Planned) : Fin 3 × ExecArgs × Option Nat :=
  (e.terminal, e.args,
    match e.fate with
    | .starts _ directoryIdx _ => some (loader (checkBuffer b e.args.stack directoryIdx))
    | _ => none)

/-- What the calls of a plan have changed when they are over. -/
def planEffects (b : Boot) (plan : List Planned) : Fin 3 → Effects :=
  plan.foldl (fun effects e => Function.update effects e.terminal (e.ending.effects b))
    fun _ => Effects.none

/-! ## Commands -/

theorem SameBuffers.symm {k k' : Kernel} (h : SameBuffers k k') : SameBuffers k' k :=
  ⟨h.fname.symm, h.arg.symm, h.argLength.symm⟩

theorem SameBuffers.parseCommand {k k' : Kernel} (h : SameBuffers k k') (command : CString) :
    SameBuffers (parseCommand command k) (parseCommand command k') where
  fname := by rw [parseCommand_fname, parseCommand_fname, h.fname]
  arg := by rw [parseCommand_arg, parseCommand_arg, h.arg]
  argLength := by rw [parseCommand_argLength, parseCommand_argLength]

namespace SplitsAlike

variable {command command' command'' : CString}

theorem refl (command : CString) : SplitsAlike command command := fun _ => SameBuffers.refl _

theorem symm (h : SplitsAlike command command') : SplitsAlike command' command :=
  fun k => (h k).symm

theorem trans (h : SplitsAlike command command') (h' : SplitsAlike command' command'') :
    SplitsAlike command command'' := fun k => (h k).trans (h' k)

/-- Such commands name the same file. -/
theorem findDirentry_eq (h : SplitsAlike command command') (b : Boot) (k : Kernel) :
    findDirentry b (commandName (seenCommand command)) =
      findDirentry b (commandName (seenCommand command')) := by
  rw [← findDirentry_parseCommand b (seenCommand command) k,
    ← findDirentry_parseCommand b (seenCommand command') k, (h k).fname]

end SplitsAlike

section Verdict

variable {b : Boot} {a : ExecArgs} {command : CString} {idx : Nat}

theorem verdict_eq_unknown : verdict b a command = .unknown ↔
    findDirentry b (commandName (seenCommand command)) = none := by
  unfold verdict
  cases findDirentry b (commandName (seenCommand command)) with
  | none => simp
  | some idx => by_cases hmagic : hasMagic (checkBuffer b a.stack idx) <;> simp [hmagic]

theorem verdict_eq_rejected : verdict b a command = .rejected ↔
    ∃ idx, findDirentry b (commandName (seenCommand command)) = some idx ∧
      hasMagic (checkBuffer b a.stack idx) = false := by
  unfold verdict
  cases findDirentry b (commandName (seenCommand command)) with
  | none => simp
  | some idx => by_cases hmagic : hasMagic (checkBuffer b a.stack idx) <;> simp [hmagic]

theorem verdict_eq_program : verdict b a command = .program idx ↔
    findDirentry b (commandName (seenCommand command)) = some idx ∧
      hasMagic (checkBuffer b a.stack idx) = true := by
  unfold verdict
  cases findDirentry b (commandName (seenCommand command)) with
  | none => simp
  | some idx' =>
      by_cases hmagic : hasMagic (checkBuffer b a.stack idx') = true
      · simp only [hmagic, if_true, Verdict.program.injEq, Option.some.injEq]
        refine ⟨fun hidx => ⟨hidx, hidx ▸ hmagic⟩, And.left⟩
      · simp only [hmagic]
        refine ⟨fun hidx => absurd hidx (by simp), fun ⟨hidx, hmagic'⟩ => ?_⟩
        obtain rfl := Option.some.inj hidx
        exact absurd hmagic' hmagic

end Verdict

/-! ## What a plan leaves -/

@[simp] theorem settle_nil (k : Kernel) : settle k [] = k := rfl

theorem settle_append (k : Kernel) (fates fates' : List Fate) :
    settle k (fates ++ fates') = settle (settle k fates) fates' := List.foldl_append

theorem settle_concat (k : Kernel) (fates : List Fate) (fate : Fate) :
    settle k (fates ++ [fate]) = fate.apply (settle k fates) := by
  rw [settle_append]
  rfl

theorem validFrom_append {k : Kernel} {fates fates' : List Fate} :
    ValidFrom k (fates ++ fates') ↔ ValidFrom k fates ∧ ValidFrom (settle k fates) fates' := by
  induction fates generalizing k with
  | nil => simp [ValidFrom]
  | cons fate fates ih =>
      simp only [List.cons_append, ValidFrom, ih, and_assoc]
      rfl

theorem validFrom_concat {k : Kernel} {fates : List Fate} {fate : Fate} :
    ValidFrom k (fates ++ [fate]) ↔ ValidFrom k fates ∧ fate.Valid (settle k fates) := by
  rw [validFrom_append]
  simp [ValidFrom]

section Plan

variable {b : Boot} {k₀ : Kernel} {plan : List Planned} {e : Planned}

theorem planEffects_concat (b : Boot) (plan : List Planned) (e : Planned) :
    planEffects b (plan ++ [e]) =
      Function.update (planEffects b plan) e.terminal (e.ending.effects b) := by
  unfold planEffects
  rw [List.foldl_append]
  rfl

/-- A terminal whose call is not decided has changed nothing. -/
theorem planEffects_of_notMem {t : Fin 3} (h : t ∉ plan.map Planned.terminal) :
    planEffects b plan t = Effects.none := by
  induction plan using List.reverseRecOn with
  | nil => rfl
  | append_singleton plan e ih =>
      rw [List.map_append, List.mem_append, not_or, List.map_singleton, List.mem_singleton] at h
      rw [planEffects_concat, Function.update_of_ne h.2]
      exact ih h.1

theorem planEffects_of_mem (honce : (plan.map Planned.terminal).Nodup) (he : e ∈ plan) :
    planEffects b plan e.terminal = e.ending.effects b := by
  induction plan using List.reverseRecOn with
  | nil => exact absurd he List.not_mem_nil
  | append_singleton plan e' ih =>
      rw [planEffects_concat]
      rw [List.map_append, List.nodup_append] at honce
      obtain ⟨honce', -, hne⟩ := honce
      rcases List.mem_append.mp he with hbefore | hlast
      · rw [Function.update_of_ne (hne _ (List.mem_map_of_mem hbefore) _ (by simp))]
        exact ih honce' hbefore
      · obtain rfl := List.mem_singleton.mp hlast
        exact Function.update_self _ _ _

theorem Planned.apply_numProcessExecuting (e : Planned) (b : Boot) (k : Kernel) :
    (e.fate.apply k).numProcessExecuting = k.numProcessExecuting + (e.ending.effects b).count := by
  obtain ⟨t, a, fate⟩ := e
  cases fate with
  | returns command rejected =>
      cases rejected with
      | false => exact (add_zero _).symm
      | true => exact sub_eq_add_neg k.numProcessExecuting 1
  | starts command idx n => rfl
  | _ => exact (add_zero _).symm

theorem Planned.apply_processes (e : Planned) (b : Boot) (k : Kernel) (n : Nat) :
    (e.fate.apply k).processes n =
      if (e.ending.effects b).slot = some n then 1 else k.processes n := by
  obtain ⟨t, a, fate⟩ := e
  cases fate with
  | returns command rejected => cases rejected <;> rfl
  | starts command idx m =>
      simp only [Fate.apply, Planned.ending, Progress.effects, countProcess_processes,
        claimSlot_processes, parseCommand_processes, Option.some.injEq]
      by_cases hmn : m = n
      · rw [hmn, Function.update_self, if_pos rfl]
      · rw [Function.update_of_ne (Ne.symm hmn), if_neg hmn]
  | _ => rfl

theorem settle_numProcessExecuting (honce : (plan.map Planned.terminal).Nodup) :
    (settle k₀ (plan.map Planned.fate)).numProcessExecuting =
      k₀.numProcessExecuting + ∑ t, (planEffects b plan t).count := by
  induction plan using List.reverseRecOn with
  | nil => simp [planEffects, Effects.none]
  | append_singleton plan e ih =>
      rw [List.map_append, List.nodup_append] at honce
      obtain ⟨honce', -, hne⟩ := honce
      have hnone : planEffects b plan e.terminal = Effects.none :=
        planEffects_of_notMem fun hmem => hne _ hmem _ (List.mem_singleton.mpr rfl) rfl
      rw [List.map_append, List.map_singleton, settle_concat, e.apply_numProcessExecuting b,
        ih honce', planEffects_concat, sum_update_count, hnone, add_assoc]
      simp [Effects.none]

/-- The slots that the calls have marked, and the others. -/
theorem settle_processes (b : Boot) (k₀ : Kernel)
    (honce : (plan.map Planned.terminal).Nodup) (n : Nat) :
    ((∃ t, (planEffects b plan t).slot = some n) →
      (settle k₀ (plan.map Planned.fate)).processes n = 1) ∧
    ((∀ t, (planEffects b plan t).slot ≠ some n) →
      (settle k₀ (plan.map Planned.fate)).processes n = k₀.processes n) := by
  induction plan using List.reverseRecOn with
  | nil => exact ⟨fun ⟨_, ht⟩ => absurd ht (by simp [planEffects, Effects.none]), fun _ => rfl⟩
  | append_singleton plan e ih =>
      rw [List.map_append, List.nodup_append] at honce
      obtain ⟨honce', -, hne⟩ := honce
      have hnone : planEffects b plan e.terminal = Effects.none :=
        planEffects_of_notMem fun hmem => hne _ hmem _ (List.mem_singleton.mpr rfl) rfl
      obtain ⟨hmarked, hunmarked⟩ := ih honce'
      rw [List.map_append, List.map_singleton, settle_concat, e.apply_processes b,
        planEffects_concat]
      constructor
      · rintro ⟨t, ht⟩
        by_cases hte : t = e.terminal
        · rw [hte, Function.update_self] at ht
          rw [if_pos ht]
        · rw [Function.update_of_ne hte] at ht
          rw [hmarked ⟨t, ht⟩, ite_self]
      · intro hnot
        have hself := hnot e.terminal
        rw [Function.update_self] at hself
        rw [if_neg hself]
        refine hunmarked fun t ht => ?_
        by_cases hte : t = e.terminal
        · rw [hte, hnone] at ht
          exact absurd ht (by simp [Effects.none])
        · exact hnot t (by rw [Function.update_of_ne hte]; exact ht)

/-- A state with the effects of the plan has the count and the slots of the plan. -/
theorem Applied.settled {k : Kernel} (h : Applied b k₀ (planEffects b plan) k)
    (honce : (plan.map Planned.terminal).Nodup) :
    k.numProcessExecuting = (settle k₀ (plan.map Planned.fate)).numProcessExecuting ∧
      k.processes = (settle k₀ (plan.map Planned.fate)).processes := by
  refine ⟨h.count.trans (settle_numProcessExecuting honce).symm, funext fun n => ?_⟩
  obtain ⟨hmarked, hunmarked⟩ := settle_processes b k₀ honce n
  by_cases hn : ∃ t, (planEffects b plan t).slot = some n
  · obtain ⟨t, ht⟩ := hn
    rw [h.marked t n ht, hmarked ⟨t, ht⟩]
  · rw [not_exists] at hn
    rw [h.unmarked n hn, hunmarked hn]

/-- The slot that is found after the calls of a plan has been free from the start. -/
theorem settle_freeSlot (honce : (plan.map Planned.terminal).Nodup) {n : Nat}
    (h : freeSlot (settle k₀ (plan.map Planned.fate)) = some n) :
    n < maxNumProcess ∧ k₀.processes n = 0 ∧ ∀ t, (planEffects b plan t).slot ≠ some n := by
  obtain ⟨m, rfl, hfree⟩ := freeSlot_some h
  obtain ⟨hmarked, hunmarked⟩ := settle_processes b k₀ honce m
  have hother : ∀ t, (planEffects b plan t).slot ≠ some (m : Nat) := by
    intro t ht
    rw [hmarked ⟨t, ht⟩] at hfree
    exact absurd hfree (by decide)
  exact ⟨m.isLt, (hunmarked hother).symm.trans hfree, hother⟩

end Plan

/-! ## The calls at once -/

/-- The calls of the plan have been made at once, and this has left the state. -/
structure Made (b : Boot) (k₀ : Kernel) (plan : List Planned) (k : Kernel) : Prop where
  applied : Applied b k₀ (planEffects b plan) k
  slots : OwnSlots k₀ (planEffects b plan)
  buffers : SameBuffers (settle k₀ (plan.map Planned.fate)) k

/-- Calls that use no other slots than these. -/
theorem OwnSlots.of_slot {k₀ : Kernel} {effects effects' : Fin 3 → Effects}
    (h : OwnSlots k₀ effects) (hslot : ∀ t n, (effects' t).slot = some n →
      (effects t).slot = some n)
    (hprogram : ∀ t n inode, (effects' t).program = some (n, inode) → (effects' t).slot = some n)
    (hchild : ∀ t n a, (effects' t).child = some (n, a) → (effects' t).slot = some n) :
    OwnSlots k₀ effects' where
  free := fun t n hn => h.free t n (hslot t n hn)
  distinct := fun t u n ht hu => h.distinct t u n (hslot t n ht) (hslot u n hu)
  program := hprogram
  child := hchild

/-- What is found after the effects of a call without this is another call's. -/
theorem of_update_effects {β : Type*} (f : Effects → Option β) (effects : Fin 3 → Effects)
    {t u : Fin 3} {e : Effects} {v : β} (hnone : f e = none)
    (h : f (Function.update effects t e u) = some v) : u ≠ t ∧ f (effects u) = some v := by
  have hu : u ≠ t := by
    rintro rfl
    rw [Function.update_self, hnone] at h
    cases h
  rw [Function.update_of_ne hu] at h
  exact ⟨hu, h⟩

section Atomic

variable {b : Boot} {a : ExecArgs} {k : Kernel} {own : CString}
  (hcommand : a.command = some own) (hfits : (argText own).length ≤ argLen)
include hcommand hfits

theorem sysExecuteInPlace_seen :
    sysExecuteInPlace b a k = some (sysExecute b a.seen k) ∧
      a.seen.command = some (seenCommand own) := by
  refine ⟨sysExecuteInPlace_of_fits b (fun command hown => ?_) k, ?_⟩
  · obtain rfl := Option.some.inj (hcommand.symm.trans hown)
    exact hfits
  · unfold ExecArgs.seen
    simp only [hcommand, Option.map_some]

/-- The call keeps the stacks of processes. -/
theorem sysExecuteInPlace_represents {o : Outcome} (h : sysExecuteInPlace b a k = some o)
    {k' : Kernel} (hstate : o.state = some k') {s : ProcessStacks} (hs : Represents k s) :
    ∃ s', Represents k' s' := by
  obtain ⟨hseen, -⟩ := sysExecuteInPlace_seen (b := b) (k := k) hcommand hfits
  obtain rfl := Option.some.inj (hseen.symm.trans h)
  have hcall : (runCall b (.execute a.seen) k).state = some k' := hstate
  obtain ⟨s', hs', -⟩ := hs.call (fun _ ha => absurd ha (by simp)) hcall
  exact ⟨s', hs'⟩

variable (hnum : k.numProcessExecuting ≠ 6)
include hnum

/-- A call that returns after it has split its command. -/
theorem sysExecuteInPlace_returns (rejected : Bool)
    (hverdict : verdict b a own = if rejected then .rejected else .unknown) :
    sysExecuteInPlace b a k = some (.returned ((Fate.returns own rejected).apply k)) := by
  obtain ⟨hseen, hcommand'⟩ := sysExecuteInPlace_seen (b := b) (k := k) hcommand hfits
  rw [hseen]
  cases rejected with
  | false =>
      exact congrArg some (sysExecute_unknown hnum hcommand' (verdict_eq_unknown.mp hverdict))
  | true =>
      obtain ⟨idx, hidx, hmagic⟩ := verdict_eq_rejected.mp hverdict
      exact congrArg some (sysExecute_rejected hnum hcommand' hidx hmagic)

/-- A call that goes on to the search for a slot. -/
theorem sysExecuteInPlace_starts {idx : Nat} (hverdict : verdict b a own = .program idx) :
    sysExecuteInPlace b a k = some (launch b a idx (parseCommand (seenCommand own) k)) := by
  obtain ⟨hseen, hcommand'⟩ := sysExecuteInPlace_seen (b := b) (k := k) hcommand hfits
  obtain ⟨hidx, hmagic⟩ := verdict_eq_program.mp hverdict
  rw [hseen]
  exact congrArg some (sysExecute_checked hnum hcommand' hidx hmagic)

end Atomic

namespace Made

variable {b : Boot} {k₀ k : Kernel} {plan : List Planned} {e : Planned}

/-- No call has been made. -/
theorem nil (b : Boot) (k₀ : Kernel) : Made b k₀ [] k₀ where
  applied := Applied.start b k₀
  slots :=
    { free := fun _ _ ht => absurd ht (by simp [planEffects, Effects.none])
      distinct := fun _ _ _ ht => absurd ht (by simp [planEffects, Effects.none])
      program := fun _ _ _ ht => absurd ht (by simp [planEffects, Effects.none])
      child := fun _ _ _ ht => absurd ht (by simp [planEffects, Effects.none]) }
  buffers := SameBuffers.refl k₀

/-- One more call, which marks no slot. -/
theorem returned (h : Made b k₀ plan k) {k' : Kernel}
    (happlied : Applied b k₀ (Function.update (planEffects b plan) e.terminal
      (e.ending.effects b)) k')
    (hnot : (e.ending.effects b).slot = none ∧ (e.ending.effects b).program = none ∧
      (e.ending.effects b).child = none)
    (hbuffers : SameBuffers (e.fate.apply (settle k₀ (plan.map Planned.fate))) k') :
    Made b k₀ (plan ++ [e]) k' where
  applied := by
    rw [planEffects_concat]
    exact happlied
  slots := by
    rw [planEffects_concat]
    refine h.slots.of_slot
      (fun t n hn => (of_update_effects Effects.slot _ hnot.1 hn).2) ?_ ?_
    · intro t n inode hn
      obtain ⟨ht, hprogram⟩ := of_update_effects Effects.program _ hnot.2.1 hn
      rw [Function.update_of_ne ht]
      exact h.slots.program t n inode hprogram
    · intro t n a hn
      obtain ⟨ht, hchild⟩ := of_update_effects Effects.child _ hnot.2.2 hn
      rw [Function.update_of_ne ht]
      exact h.slots.child t n a hchild
  buffers := by
    rw [List.map_append, List.map_singleton, settle_concat]
    exact hbuffers

/-- The next call of a plan is made at once. -/
theorem concat (h : Made b k₀ plan k)
    (hstarted : ∀ t, 0 < (k₀.terminals t).numProcessExecutingOnTerminal)
    (honce : ((plan ++ [e]).map Planned.terminal).Nodup) (hsound : e.fate.Sound b e.args)
    (hvalid : e.fate.Valid (settle k₀ (plan.map Planned.fate))) :
    ∃ k', AtomicStep b k (e.label b) k' ∧ Made b k₀ (plan ++ [e]) k' ∧
      ∀ s, Represents k s → ∃ s', Represents k' s' := by
  rw [List.map_append, List.nodup_append] at honce
  obtain ⟨honce', -, hne⟩ := honce
  have hnone : planEffects b plan e.terminal = Effects.none :=
    planEffects_of_notMem fun hmem => hne _ hmem _ (List.mem_singleton.mpr rfl) rfl
  obtain ⟨hcount, hprocesses⟩ := h.applied.settled honce'
  have hempty : Function.update (planEffects b plan) e.terminal Effects.none =
      planEffects b plan := by
    rw [← hnone, Function.update_eq_self]
  have hon := h.applied.onTerminal e.terminal
  obtain ⟨t, a, fate⟩ := e
  simp only at hvalid hsound hnone hempty hon
  cases fate with
  | full =>
      refine ⟨k.onTerminal t, ?_, h.returned (by rw [← hempty] at hon; exact hon) ⟨rfl, rfl, rfl⟩
        (h.buffers.trans ⟨rfl, rfl, rfl⟩), fun s hs => ⟨s, hs.onTerminal t⟩⟩
      exact if_pos (hcount.trans hvalid)
  | noCommand =>
      refine ⟨k.onTerminal t, ?_, h.returned (by rw [← hempty] at hon; exact hon) ⟨rfl, rfl, rfl⟩
        (h.buffers.trans ⟨rfl, rfl, rfl⟩), fun s hs => ⟨s, hs.onTerminal t⟩⟩
      have hcommand : a.command = none := hsound
      unfold AtomicStep Planned.label sysExecuteInPlace
      simp only [hcommand, ite_self]
  | returns command rejected =>
      obtain ⟨own, hcommand, hfits, halike, hverdict⟩ := hsound
      have hnum : (k.onTerminal t).numProcessExecuting ≠ 6 := fun hfull =>
        hvalid (hcount.symm.trans hfull)
      have hcall := sysExecuteInPlace_returns hcommand hfits hnum rejected hverdict
      refine ⟨_, hcall, h.returned ?_ ?_ ?_, fun s hs =>
        sysExecuteInPlace_represents hcommand hfits hcall rfl (hs.onTerminal t)⟩
      · cases rejected with
        | false =>
            rw [← hempty] at hon
            exact hon.parseCommand _
        | true =>
            have hdrop := (hon.parseCommand (seenCommand own)).dropCount (t := t)
              (by rw [hnone]; rfl)
            rw [hnone] at hdrop
            exact hdrop
      · cases rejected <;> exact ⟨rfl, rfl, rfl⟩
      · have hsplit := (h.buffers.parseCommand (seenCommand command)).trans (halike k)
        cases rejected with
        | false => exact hsplit.trans ⟨rfl, rfl, rfl⟩
        | true => exact ⟨hsplit.fname, hsplit.arg, hsplit.argLength⟩
  | starts command idx n =>
      obtain ⟨own, hcommand, hfits, halike, hverdict, hfit⟩ := hsound
      obtain ⟨hroom, hslot⟩ := hvalid
      obtain ⟨hn, hfree, hother⟩ := settle_freeSlot (b := b) honce' hslot
      have hslot' : freeSlot (parseCommand (seenCommand own) (k.onTerminal t)) = some n := by
        rw [← hslot]
        unfold freeSlot
        rw [← hprocesses]
        rfl
      obtain ⟨k', hlaunch, hbuffers, happlied⟩ := launch_applied a idx
        (hon.parseCommand (seenCommand own)) h.slots rfl hnone (hstarted t) hslot' hn hfree hother
        hfit
      have hnum : (k.onTerminal t).numProcessExecuting ≠ 6 := fun hfull =>
        hroom (hcount.symm.trans hfull)
      have hcall := (sysExecuteInPlace_starts hcommand hfits hnum hverdict).trans
        (congrArg some hlaunch)
      refine ⟨k', hcall, ⟨?_, ?_, ?_⟩, fun s hs =>
        sysExecuteInPlace_represents hcommand hfits hcall rfl (hs.onTerminal t)⟩
      · rw [planEffects_concat]
        exact happlied
      · rw [planEffects_concat]
        exact h.slots.starting b .finished a idx hn hfree fun u _ => hother u
      · rw [List.map_append, List.map_singleton, settle_concat]
        have hsplit := (h.buffers.parseCommand (seenCommand command)).trans (halike k)
        have hon' : SameBuffers (parseCommand (seenCommand own) k)
            (parseCommand (seenCommand own) (k.onTerminal t)) := ⟨rfl, rfl, rfl⟩
        have hall := (hsplit.trans hon').trans hbuffers
        exact ⟨hall.fname, hall.arg, hall.argLength⟩

end Made

/-- The calls of a plan made at once do what the plan says. -/
theorem ValidFrom.exists_made {b : Boot} {k₀ : Kernel} {plan : List Planned}
    (h : ValidFrom k₀ (plan.map Planned.fate)) (honce : (plan.map Planned.terminal).Nodup)
    (hsound : ∀ e ∈ plan, e.fate.Sound b e.args)
    (hstarted : ∀ t, 0 < (k₀.terminals t).numProcessExecutingOnTerminal) :
    ∃ k, Run (AtomicStep b) k₀ (plan.map (Planned.label b)) k ∧ Made b k₀ plan k ∧
      ∀ s₀, Represents k₀ s₀ → ∃ s, Represents k s := by
  induction plan using List.reverseRecOn with
  | nil => exact ⟨k₀, Run.nil k₀, Made.nil b k₀, fun s₀ hs₀ => ⟨s₀, hs₀⟩⟩
  | append_singleton plan e ih =>
      have honce' := honce
      rw [List.map_append, List.nodup_append] at honce'
      rw [List.map_append, List.map_singleton, validFrom_concat] at h
      obtain ⟨k, hrun, hmade, hkept⟩ := ih h.1 honce'.1 fun e' he' =>
        hsound e' (List.mem_append_left _ he')
      obtain ⟨k', hstep, hmade', hkept'⟩ := hmade.concat hstarted honce
        (hsound e (List.mem_append_right _ (List.mem_singleton.mpr rfl))) h.2
      refine ⟨k', ?_, hmade', fun s₀ hs₀ => ?_⟩
      swap
      · obtain ⟨s, hs⟩ := hkept s₀ hs₀
        exact hkept' s hs
      rw [List.map_append, List.map_singleton]
      exact hrun.snoc hstep

end Ece391Kernel
