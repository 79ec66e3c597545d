import Ece391Kernel.Process.Tree
import Mathlib.Algebra.BigOperators.Ring.Finset
import Mathlib.Algebra.Order.BigOperators.Group.Finset

/-!
# Counting the processes

The kernel counts its processes three times: in `num_process_executing`, in the
marks of `processes`, and terminal by terminal. The search of `sys_execute` for
a free slot relies on the first count, which it tests, agreeing with the second,
which it reads. A file that is no program breaks the agreement, because
`executable_check` takes one off a count to which nothing has been added; without
such a call the three stay equal.
-/

namespace Ece391Kernel

open TransitionSystem LinkedStack

/-- The slots that are marked as used. -/
def usedSlots (k : Kernel) : Finset (Fin 6) := Finset.univ.filter fun n => k.processes n = 1

/-- The processes of the three terminals together. -/
def countOnTerminals (k : Kernel) : Int :=
  ∑ t, (k.terminals t).numProcessExecutingOnTerminal

/-- The three counts are the same. -/
structure Accounted (k : Kernel) : Prop where
  slots : k.numProcessExecuting.toNat = (usedSlots k).card
  terminals : (k.numProcessExecuting.toNat : Int) = countOnTerminals k

/-- The search finds a slot below 6 when the test for a full table lets it start. -/
def SlotFound (k : Kernel) : Prop :=
  k.numProcessExecuting ≠ 6 → ∃ n < maxNumProcess, freeSlot k = some n

/-- The call does not get as far as the check of a file that is no program. -/
def NoRejection (b : Boot) (k : Kernel) (label : Fin 3 × Call) : Prop :=
  ∀ a, label.2 = .execute a → ¬Rejected b a (k.onTerminal label.1)

/-! ## The counts and the stacks -/

namespace Represents

variable {k : Kernel} {s : ProcessStacks}

theorem usedSlots_eq (h : Represents k s) : usedSlots k = s.live := by
  ext n
  rw [usedSlots, Finset.mem_filter, s.mem_live]
  constructor
  · rintro ⟨-, hused⟩
    by_contra hnot
    rw [h.unused n hnot] at hused
    exact absurd hused (by decide)
  · exact fun howned => ⟨Finset.mem_univ n, h.used n howned⟩

theorem countOnTerminals_eq (h : Represents k s) : countOnTerminals k = s.live.card := by
  unfold countOnTerminals
  rw [s.card_live, Nat.cast_sum]
  exact Finset.sum_congr rfl fun t _ => h.length t

/-- Counting the stacks is enough. -/
theorem accounted_iff (h : Represents k s) :
    Accounted k ↔ k.numProcessExecuting.toNat = s.live.card := by
  constructor
  · intro hk
    rw [hk.slots, h.usedSlots_eq]
  · intro hnum
    refine ⟨?_, ?_⟩
    · rw [hnum, h.usedSlots_eq]
    · rw [hnum, h.countOnTerminals_eq]

theorem card_le (s : ProcessStacks) : s.live.card ≤ 6 := by
  have hle := Finset.card_le_univ s.live
  rwa [Fintype.card_fin] at hle

/-- A table that is not full has a free slot. -/
theorem slotFound (h : Represents k s) (hk : Accounted k) : SlotFound k := by
  intro hnum
  have hcard := h.accounted_iff.mp hk
  have hlt : s.live.card ≠ 6 := by
    intro heq
    exact hnum (UInt32.toNat_inj.mp (hcard.trans heq))
  obtain ⟨m, hm⟩ : ∃ m, m ∉ s.live := by
    by_contra hall
    simp only [not_exists, not_not] at hall
    rw [Finset.eq_univ_of_forall hall, Finset.card_univ, Fintype.card_fin] at hlt
    exact hlt rfl
  rw [s.mem_live] at hm
  obtain ⟨n, hslot⟩ := freeSlot_isSome (h.unused m hm)
  obtain ⟨n', rfl, -⟩ := freeSlot_some hslot
  exact ⟨n', n'.isLt, hslot⟩

end Represents

/-! ## The counts after a call -/

theorem sum_update_terminals (k : Kernel) (e : Fin 3) (term : Terminal) :
    ∑ t, (Function.update k.terminals e term t).numProcessExecutingOnTerminal =
      countOnTerminals k + (term.numProcessExecutingOnTerminal -
        (k.terminals e).numProcessExecutingOnTerminal) := by
  unfold countOnTerminals
  have hother : ∀ t ∈ Finset.univ.erase e,
      (Function.update k.terminals e term t).numProcessExecutingOnTerminal =
        (k.terminals t).numProcessExecutingOnTerminal := by
    intro t ht
    rw [Function.update_of_ne (Finset.ne_of_mem_erase ht)]
  rw [← Finset.add_sum_erase _ _ (Finset.mem_univ e), Function.update_self,
    Finset.sum_congr rfl hother, ← Finset.add_sum_erase _ _ (Finset.mem_univ e)]
  ring

theorem Launch.countOnTerminals {n esp ebp : Nat} {k k' : Kernel} (h : Launch n esp ebp k k') :
    countOnTerminals k' = countOnTerminals k + 1 := by
  unfold Ece391Kernel.countOnTerminals
  rw [h.terminals, sum_update_terminals]
  unfold Ece391Kernel.countOnTerminals Kernel.current
  ring

theorem Released.countOnTerminals {k k' : Kernel} (h : Released k k') :
    countOnTerminals k' = countOnTerminals k - 1 := by
  unfold Ece391Kernel.countOnTerminals
  rw [h.terminals, sum_update_terminals]
  unfold Ece391Kernel.countOnTerminals Kernel.current
  ring

theorem resumeParent_countOnTerminals (pcb : Pcb) (k : Kernel) :
    countOnTerminals (resumeParent pcb k) = countOnTerminals k := by
  unfold countOnTerminals
  rw [resumeParent_terminals, sum_update_terminals]
  unfold countOnTerminals
  simp

/-- A count of the processes is followed by one more process. -/
theorem toNat_add_one {num : UInt32} {m : Int} (h : (num.toNat : Int) = m) (hle : m + 1 ≤ 6) :
    ((num + 1).toNat : Int) = m + 1 := by
  rw [UInt32.toNat_add]
  have hone : (1 : UInt32).toNat = 1 := rfl
  rw [hone]
  omega

theorem toNat_sub_one {num : UInt32} {m : Int} (h : (num.toNat : Int) = m) (hle : 1 ≤ m) :
    ((num - 1).toNat : Int) = m - 1 := by
  have hlt := num.toNat_lt
  rw [UInt32.toNat_sub]
  have hone : (1 : UInt32).toNat = 1 := rfl
  rw [hone]
  omega

/-- The count and the count of the terminals move together, but for a rejected file. -/
theorem runCall_counts {b : Boot} {call : Call} {k k' : Kernel}
    (h : (runCall b call k).state = some k') (hk : (k.numProcessExecuting.toNat : Int) =
      countOnTerminals k) (hpos : ∀ a, call = .halt a → 1 ≤ countOnTerminals k)
    (hle : countOnTerminals k' ≤ 6) :
    (k'.numProcessExecuting.toNat : Int) = countOnTerminals k' ↔
      ∀ a, call = .execute a → ¬Rejected b a k := by
  rcases runCall_cases h with ⟨a, rfl, hret⟩ | ⟨a, entry, n, rfl, hout, -, hlaunch⟩ |
    ⟨a, k₁, n, rfl, -, hreleased, -, hlaunch⟩ | ⟨a, k₁, pcb, rfl, -, hreleased, -, rfl, -⟩
  · obtain ⟨hfailed, hnum⟩ := sysExecute_returned hret
    have hterm : countOnTerminals k' = countOnTerminals k := by
      unfold countOnTerminals
      rw [hfailed.terminals]
    rw [hterm, ← hk]
    rcases hnum with ⟨hrejected, hnum⟩ | ⟨hnot, hnum⟩
    · refine iff_of_false ?_ fun hall => hall a rfl hrejected
      rw [hnum, UInt32.toNat_sub]
      have hone : (1 : UInt32).toNat = 1 := rfl
      have hlt := k.numProcessExecuting.toNat_lt
      rw [hone]
      omega
    · refine iff_of_true (by rw [hnum]) ?_
      rintro a' ha'
      obtain rfl := Call.execute.inj ha'
      exact hnot
  · refine iff_of_true ?_ ?_
    · have hsum := hlaunch.countOnTerminals
      rw [hlaunch.numProcessExecuting, hsum]
      exact toNat_add_one hk (by omega)
    · rintro a' ha' hrejected
      obtain rfl := Call.execute.inj ha'
      obtain ⟨k₁, hret⟩ := hrejected.returned
      exact absurd (hret.symm.trans hout) (by simp)
  · refine iff_of_true ?_ fun a' ha' => absurd ha' (by simp)
    have hsum := hlaunch.countOnTerminals
    have hsum₁ := hreleased.countOnTerminals
    have hone := toNat_sub_one hk (hpos a rfl)
    rw [← hreleased.numProcessExecuting, ← hsum₁] at hone
    rw [hlaunch.numProcessExecuting, hsum]
    exact toNat_add_one hone (by omega)
  · refine iff_of_true ?_ fun a' ha' => absurd ha' (by simp)
    rw [resumeParent_countOnTerminals, hreleased.countOnTerminals]
    show ((k₁.numProcessExecuting.toNat : Nat) : Int) = _
    rw [hreleased.numProcessExecuting]
    exact toNat_sub_one hk (hpos a rfl)

/-! ## Runs -/

/-- The kernel keeps the stacks, and counts them rightly. -/
def Counted (k : Kernel) : Prop := (∃ s, Represents k s) ∧ Accounted k

theorem Represents.accounted_iff_terminals {k : Kernel} {s : ProcessStacks} (h : Represents k s) :
    Accounted k ↔ (k.numProcessExecuting.toNat : Int) = countOnTerminals k := by
  rw [h.accounted_iff, h.countOnTerminals_eq, Nat.cast_inj]

/-- From a state that counts rightly, a call leads to another one unless it meets a
file that is no program. -/
theorem Counted.step {b : Boot} {k k' : Kernel} {label : Fin 3 × Call} (h : Counted k)
    (hstep : ProcStep b k label k') :
    (∃ s, Represents k' s) ∧ (Accounted k' ↔ NoRejection b k label) := by
  obtain ⟨t, call⟩ := label
  obtain ⟨⟨s, hs⟩, hk⟩ := h
  obtain ⟨s', hs', -⟩ := hs.step hstep
  refine ⟨⟨s', hs'⟩, ?_⟩
  rw [hs'.accounted_iff_terminals]
  refine runCall_counts hstep.2 (hs.accounted_iff_terminals.mp hk) ?_ ?_
  · intro a ha
    have hlen := hstep.1 a ha
    have hpos := Finset.single_le_sum (s := Finset.univ)
      (f := fun u => (k.terminals u).numProcessExecutingOnTerminal)
      (fun u _ => by rw [hs.length u]; exact Int.natCast_nonneg _) (Finset.mem_univ t)
    exact le_trans hlen hpos
  · rw [hs'.countOnTerminals_eq]
    exact_mod_cast Represents.card_le s'

theorem boot_counted (b : Boot) (k : Kernel) : Counted (boot b k) := by
  have hs := boot_represents b k
  refine ⟨⟨_, hs⟩, hs.accounted_iff_terminals.mpr ?_⟩
  rw [boot_numProcessExecuting, hs.countOnTerminals_eq, Stacks.card_live]
  rfl

theorem counted_run {b : Boot} {k₀ k : Kernel} {labels : List (Fin 3 × Call)}
    (hrun : Run (guarded (NoRejection b) (ProcStep b)) (boot b k₀) labels k) : Counted k :=
  hrun.invariant
    (fun _ _ _ hk hstep => ⟨(hk.step hstep.2).1, (hk.step hstep.2).2.mpr hstep.1⟩)
    (boot_counted b k₀)

/-- A call never goes on without a slot when the counts agree. -/
theorem Counted.ne_noSlot {b : Boot} {k : Kernel} {t : Fin 3} {call : Call} (h : Counted k)
    (henabled : ∀ a, call = .halt a → 0 < (k.terminals t).numProcessExecutingOnTerminal) :
    runCall b call (k.onTerminal t) ≠ .noSlot := by
  obtain ⟨⟨s, hs⟩, hk⟩ := h
  intro hout
  cases call with
  | execute a =>
      obtain ⟨hnum, hnone⟩ := sysExecute_noSlot hout
      obtain ⟨n, -, hslot⟩ := hs.slotFound hk hnum
      exact absurd (hslot.symm.trans hnone) (by simp)
  | halt a =>
      obtain ⟨n, l, htop⟩ := hs.exists_top (henabled a rfl)
      have hreleased := release_released (k.onTerminal t)
      obtain ⟨hactive, hnum, -⟩ := (hs.onTerminal t).top htop
      -- the slot of the process that ends is free for the shell
      have hfree : (releaseProcess (closeFiles (k.onTerminal t))).processes n = 0 := by
        rw [hreleased.processes]
        unfold Kernel.activePcb Kernel.current
        rw [Kernel.onTerminal_executingTerminal, hactive, hnum, Function.update_self]
      obtain ⟨m, hslot⟩ := freeSlot_isSome hfree
      simp only [runCall] at hout
      rcases sysHalt_cases b a (k.onTerminal t) with ⟨-, ⟨k₁, -, hfault⟩ | ⟨-, hshell⟩⟩ |
        ⟨-, pcb, -, hresumed⟩
      · exact absurd (hfault.symm.trans hout) (by simp)
      · obtain ⟨-, hnone⟩ := sysExecute_noSlot (hshell.symm.trans hout)
        exact absurd (hslot.symm.trans hnone) (by simp)
      · exact absurd (hresumed.symm.trans hout) (by simp)

theorem smallBoot_shell_noRejection (k : Kernel) (t : Fin 3) :
    NoRejection smallBoot k (t, .execute (smallArgs shellCommand)) := by
  rintro a ha ⟨-, command, hcommand, idx, hidx, hmagic⟩
  obtain rfl := Call.execute.inj ha
  obtain rfl : shellCommand = command := Option.some.inj hcommand
  have hfound : findDirentry smallBoot (commandName shellCommand) = some 0 := by decide +kernel
  obtain rfl : 0 = idx := Option.some.inj (hfound.symm.trans hidx)
  have hshell : hasMagic (checkBuffer smallBoot (smallArgs shellCommand).stack 0) = true := by
    decide +kernel
  exact absurd (hshell.symm.trans hmagic) (by decide)

/-- The first shell after boot. -/
theorem smallBoot_first_shell : ∃ k,
    Run (guarded (NoRejection smallBoot) (ProcStep smallBoot)) (boot smallBoot blankKernel)
      [(0, .execute (smallArgs shellCommand))] k ∧ k.numProcessExecuting = 1 := by
  obtain ⟨k, hk, hnum⟩ := smallBoot_shell_step (boot_usedBelow smallBoot blankKernel) (by decide)
    (boot_numProcessExecuting smallBoot blankKernel) 0
  exact ⟨k, Run.single ⟨smallBoot_shell_noRejection _ 0, hk⟩, hnum⟩

/-- The argument of the call fits into the buffer, and the call does not get as far as the
check of a file that is no program. -/
def CountsRightly (b : Boot) (k : Kernel) (label : Fin 3 × Call) : Prop :=
  FitsBuffer k label ∧ NoRejection b k (seenLabel label)

/-- Starting and ending shells. -/
theorem smallBoot_countsRightly {k k' : Kernel} {label : Fin 3 × Call}
    (hlabel : label.2 = .execute (smallArgs shellCommand) ∨ label.2 = .halt smallHalt)
    (hstep : ProcStep smallBoot k label k') :
    guarded (CountsRightly smallBoot) (ProcStepInPlace smallBoot) k label k' := by
  obtain ⟨t, call⟩ := label
  have hplain : call.Plain := by
    rcases hlabel with rfl | rfl
    · exact plain_shell
    · exact Call.plain_halt smallHalt
  have hseen : seenLabel (t, call) = (t, call) := by
    unfold seenLabel
    rw [hplain.seen]
  refine ⟨⟨hplain.fits, ?_⟩, (procStepInPlace_iff hplain.fits).mpr (by rwa [hseen])⟩
  rw [hseen]
  rcases hlabel with rfl | rfl
  · exact smallBoot_shell_noRejection k t
  · exact fun a ha => absurd ha (by simp)

/-- In every run from boot whose arguments fit into the buffer and whose calls meet no file
that is no program, the three counts of the processes agree in every state, and the slot
search finds a slot whenever it is reached. The next call whose argument fits keeps the
agreement exactly when it meets no such file. -/
theorem accounted_without_rejection (b : Boot) (k₀ k : Kernel) (labels : List (Fin 3 × Call))
    (hrun : Run (guarded (CountsRightly b) (ProcStepInPlace b)) (boot b k₀) labels k) :
    Accounted k ∧ SlotFound k ∧
      ∀ label, FitsBuffer k label → (∀ a, label.2 = .halt a →
          0 < (k.terminals label.1).numProcessExecutingOnTerminal) →
        runCallInPlace b label.2 (k.onTerminal label.1) ≠ some .noSlot ∧
          ∀ k', ProcStepInPlace b k label k' →
            (Accounted k' ↔ NoRejection b k (seenLabel label)) := by
  have hk := counted_run (hrun.map_labels fun _ _ _ hstep =>
    ⟨hstep.1.2, (procStepInPlace_iff hstep.1.1).mp hstep.2⟩)
  obtain ⟨s, hs⟩ := hk.1
  refine ⟨hk.2, hs.slotFound hk.2, fun label hfits henabled => ⟨?_, fun k' hstep => ?_⟩⟩
  · rw [runCallInPlace_of_fits b hfits]
    intro hnone
    exact hk.ne_noSlot (fun a ha => henabled a (Call.seen_eq_halt.mp ha)) (Option.some.inj hnone)
  · exact (hk.step ((procStepInPlace_iff hfits).mp hstep)).2

theorem accounted_without_rejection_halt :
    ∃ k, Run (guarded (CountsRightly smallBoot) (ProcStepInPlace smallBoot))
        (boot smallBoot blankKernel)
        [(0, .execute (smallArgs shellCommand)), (0, .execute (smallArgs shellCommand)),
          (1, .execute (smallArgs shellCommand)), (0, .halt smallHalt)] k ∧
      k.numProcessExecuting = 2 ∧ Accounted k ∧ SlotFound k := by
  obtain ⟨k, s, hrun, hs, htop, -, hnum⟩ := exists_threeProcesses
  obtain ⟨-, -, -, k', -, hstep, -, hnum'⟩ := hs.exists_halt htop smallBoot smallHalt
  have hrun' := (Run.snoc hrun hstep).mono_of_labels (fun _ _ _ => smallBoot_countsRightly)
    (by simp)
  obtain ⟨haccounted, hslot, -⟩ := accounted_without_rejection smallBoot blankKernel k' _ hrun'
  exact ⟨k', hrun', by rw [hnum', hnum]; decide, haccounted, hslot⟩

/-- A shell, and then a call for the file `note`, which is no program: the count is 0
and the slot of the shell is in use. -/
theorem accounting_drifts : ∃ k labels,
    Run (ProcStepInPlace smallBoot) (boot smallBoot blankKernel) labels k ∧
      k.numProcessExecuting = 0 ∧ (usedSlots k).card = 1 ∧ countOnTerminals k = 1 ∧
      ¬Accounted k := by
  obtain ⟨k, hrun, hnum⟩ := smallBoot_first_shell
  have hk := (counted_run hrun).2
  have hone : k.numProcessExecuting.toNat = 1 := by rw [hnum]; rfl
  have hne : (k.onTerminal 0).numProcessExecuting ≠ 6 := by
    rw [Kernel.onTerminal_numProcessExecuting, hnum]
    decide
  obtain ⟨hrejected, k', hret⟩ := smallBoot_note hne
  have hstep : ProcStep smallBoot k (0, .execute (smallArgs noteName)) k' := by
    refine ⟨fun a ha => absurd ha (by simp), ?_⟩
    simp only [runCall, hret, Outcome.state]
  obtain ⟨hfailed, hnum' | ⟨hnot, -⟩⟩ := sysExecute_returned hret
  · have hzero : k'.numProcessExecuting = 0 := by
      rw [hnum'.2, Kernel.onTerminal_numProcessExecuting, hnum]
      decide
    have hslots : (usedSlots k').card = 1 := by
      unfold usedSlots
      rw [hfailed.processes]
      exact hk.slots.symm.trans hone
    have hterminals : countOnTerminals k' = 1 := by
      unfold countOnTerminals
      rw [hfailed.terminals]
      exact hk.terminals.symm.trans (by rw [hone]; rfl)
    have hrun' := run_inPlace (Run.snoc hrun.of_guarded hstep) fun label hlabel => by
      simp only [List.singleton_append, List.mem_cons, List.not_mem_nil, or_false] at hlabel
      rcases hlabel with rfl | rfl
      · exact plain_shell
      · exact plain_note
    refine ⟨k', _, hrun'.of_guarded, hzero, hslots, hterminals, fun hk' => ?_⟩
    have hslots' := hk'.slots
    rw [hzero, hslots] at hslots'
    exact absurd hslots' (by decide)
  · exact absurd hrejected hnot

end Ece391Kernel
