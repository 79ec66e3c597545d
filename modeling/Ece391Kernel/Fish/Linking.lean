import Ece391Kernel.Fish.Refinement
import Ece391Kernel.Library.Run

/-!
# The list stays a list

`mp1_ioctl_add` accepts location 0, and `mp1_malloc` takes an entry with location 0 for a free one.
An entry in use is then handed out again, and put in front of a list that it is in already. The
calls keep the list if and only if no structure is added while a structure at location 0 lies
before every free entry.
-/

namespace Ece391Kernel

open LinkedList TransitionSystem

/-- The pointers lead along the structures of the list, each in its entry and each entry once, to
the null pointer. -/
structure Visits (f : Fish) (p : BlinkList) : Prop where
  chain : Chain f.links.next f.mp1ListHead p.indices
  nodup : p.indices.Nodup
  contents : ∀ e ∈ p.entries, (f.blinkArray e.1).toBlink = e.2

/-- Whatever calls have been made, they have returned, the structures that are visited are those
added and not removed, and no entry has been allocated that was linked. -/
structure StaysList (vmem : Nat → UInt8) (calls : List BlinkCall) : Prop where
  returns : ∀ front, front <+: calls → ∃ f, Run Calls (initialFish vmem) front f
  visits : ∀ front, front <+: calls → ∀ f, Run Calls (initialFish vmem) front f →
    Visits f (BlinkList.after front)
  allocates : ∀ front data, front ++ [.add data] <+: calls → data.location.toNat < 80 * 25 →
    ∀ f, Run Calls (initialFish vmem) front f → ∀ i, mp1Malloc f = some i →
      ∀ l, Chain f.links.next f.mp1ListHead l → i ∉ l

section Linking

variable {f : Fish} {p : BlinkList}

theorem HoldsBlinks.visits (h : HoldsBlinks f p) : Visits f p where
  chain := h.chain
  nodup := p.nodup
  contents := h.contents

theorem initialFish_holds (vmem : Nat → UInt8) : HoldsBlinks (initialFish vmem) .empty where
  chain := chain_nil.mpr rfl
  contents := fun _ he => absurd he List.not_mem_nil
  unused := fun _ _ => rfl

theorem accepted_of_not_safe {data : Mp1BlinkStruct} (h : ¬p.Safe (.add data)) :
    data.location.toNat < 80 * 25 := by
  by_contra hnot
  exact h fun hlt => absurd hlt hnot

/-- Where an addition is not safe, an entry of the list is allocated. -/
theorem Visits.malloc_linked (h : Visits f p) {data : Mp1BlinkStruct}
    (hbad : ¬p.Safe (.add data)) : ∃ i ∈ p.indices, mp1Malloc f = some i := by
  simp only [BlinkList.Safe, not_forall, not_exists, not_and, not_not] at hbad
  obtain ⟨-, e, he, hzero, hused⟩ := hbad
  have hlocation : (f.blinkArray e.1).location = 0 := by
    rw [← h.contents e he] at hzero
    exact hzero
  cases hmalloc : mp1Malloc f with
  | none =>
      have hnone := List.find?_eq_none.mp hmalloc e.1 (List.mem_finRange e.1)
      exact absurd hlocation (by simpa using hnone)
  | some i =>
      refine ⟨i, ?_, rfl⟩
      obtain ⟨-, hbefore⟩ := BlinkList.find?_finRange.mp hmalloc
      have hle : i ≤ e.1 := by
        refine not_lt.mp fun hlt => ?_
        simpa [hlocation] using hbefore e.1 hlt
      rcases hle.eq_or_lt with rfl | hlt
      · exact BlinkList.mem_indices he
      · exact hused i hlt

/-- After such an addition the loop of the tasklet does not end. -/
theorem Visits.cycle (h : Visits f p) {data : Mp1BlinkStruct} (hbad : ¬p.Safe (.add data))
    (fuel : Nat) : mp1RtcTasklet fuel (mp1IoctlAdd data f).2 = none := by
  obtain ⟨i, hi, hmalloc⟩ := h.malloc_linked hbad
  rw [mp1IoctlAdd_linked (accepted_of_not_safe hbad) hmalloc]
  refine Option.eq_none_iff_forall_ne_some.mpr fun g hrun => ?_
  obtain ⟨l, hl⟩ := exists_chain_of_forEach taskletBody_next hrun
  have hchain : Chain (f.linkFront i data.toBlink.started).links.next (some i) l := hl
  rw [Fish.linkFront_next] at hchain
  exact h.chain.not_push hi hchain

/-- Safe calls return, and keep the list. -/
theorem holds_after {vmem : Nat → UInt8} {calls : List BlinkCall}
    (hsafe : ∀ front c, front ++ [c] <+: calls → (BlinkList.after front).Safe c) :
    (∃ f, Run Calls (initialFish vmem) calls f) ∧
      ∀ f, Run Calls (initialFish vmem) calls f → HoldsBlinks f (BlinkList.after calls) := by
  induction calls using List.reverseRecOn with
  | nil =>
      refine ⟨⟨_, Run.nil _⟩, fun f hrun => ?_⟩
      obtain rfl := hrun.eq_of_nil
      exact initialFish_holds vmem
  | append_singleton calls c ih =>
      obtain ⟨⟨f, hrun⟩, hholds⟩ := ih fun front c' hpre =>
        hsafe front c' (hpre.trans (List.prefix_append calls [c]))
      have hc := hsafe calls c (List.prefix_refl _)
      constructor
      · obtain ⟨f', hcall⟩ := (hholds f hrun).exists_calls hc
        exact ⟨f', hrun.snoc hcall⟩
      · intro f' hrun'
        obtain ⟨g, hbefore, hcall⟩ := hrun'.of_concat
        rw [BlinkList.after_concat]
        exact ((hholds g hbefore).calls hc hcall).1

/-- An addition that is not safe breaks the list. -/
theorem StaysList.safe {vmem : Nat → UInt8} {calls front : List BlinkCall} {c : BlinkCall}
    (h : StaysList vmem calls) (hpre : front ++ [c] <+: calls) :
    (BlinkList.after front).Safe c := by
  have hfront : front <+: calls := (List.prefix_append front [c]).trans hpre
  obtain ⟨f, hrun⟩ := h.returns front hfront
  cases c with
  | add data =>
      have hvisits := h.visits front hfront f hrun
      by_contra hbad
      obtain ⟨i, hi, hmalloc⟩ := hvisits.malloc_linked hbad
      exact h.allocates front data hpre (accepted_of_not_safe hbad) f hrun i hmalloc _
        hvisits.chain hi
  | _ => trivial

end Linking

/-- The calls keep the list, if and only if no structure is added while a structure at location 0
lies before every free entry. -/
theorem staysList_iff (vmem : Nat → UInt8) (calls : List BlinkCall) :
    StaysList vmem calls ↔
      ∀ front c, front ++ [c] <+: calls → (BlinkList.after front).Safe c := by
  constructor
  · exact fun h front c hpre => h.safe hpre
  · intro hsafe
    have hholds : ∀ front, front <+: calls → (∃ f, Run Calls (initialFish vmem) front f) ∧
        ∀ f, Run Calls (initialFish vmem) front f → HoldsBlinks f (BlinkList.after front) :=
      fun front hfront => holds_after fun front' c hpre => hsafe front' c (hpre.trans hfront)
    refine ⟨fun front hfront => (hholds front hfront).1,
      fun front hfront f hrun => ((hholds front hfront).2 f hrun).visits, ?_⟩
    intro front data hpre hloc f hrun i hmalloc l hl
    have hf := (hholds front ((List.prefix_append _ _).trans hpre)).2 f hrun
    rw [hf.malloc (hsafe front _ hpre hloc)] at hmalloc
    rw [hl.unique hf.chain]
    exact BlinkList.firstFree_not_mem hmalloc

/-- The structure of `main`, at another location. -/
def letterAt (location : BitVec 16) : Mp1BlinkStruct :=
  { zeroBlink with
    location := location
    onChar := 0x49
    offChar := 0x4D
    onLength := 7
    offLength := 6 }

theorem after_letterAt (location : BitVec 16) (h : location.toNat < 80 * 25) :
    (BlinkList.after [.add (letterAt location)]).entries =
      [(0, (letterAt location).toBlink.started)] := by
  have hfree : BlinkList.empty.firstFree = some 0 :=
    BlinkList.find?_finRange.mpr ⟨by simp [BlinkList.indices, BlinkList.empty],
      fun j hj => absurd hj (Fin.not_lt_zero j)⟩
  have hloc : (letterAt location).location.toNat < 80 * 25 := h
  simp only [BlinkList.after, List.foldl_cons, List.foldl_nil, BlinkList.step]
  rw [if_pos hloc, BlinkList.add_eq_insert hfree]
  rfl

/-- A structure at location 0, and then another one: they get the same entry, which is its own
successor, and the next tick does not return. -/
theorem location_zero_allocated_twice :
    ¬StaysList (fun _ => 0) [.add (letterAt 0), .add (letterAt 1)] ∧
      ∃ f, Run Calls (initialFish fun _ => 0) [.add (letterAt 0), .add (letterAt 1)] f ∧
        ∀ fuel, mp1RtcTasklet fuel f = none := by
  have hentries := after_letterAt 0 (by decide)
  have hbad : ¬(BlinkList.after [.add (letterAt 0)]).Safe (.add (letterAt 1)) := by
    intro hsafe
    obtain ⟨i, hi, -⟩ := hsafe (by decide) (0, (letterAt 0).toBlink.started)
      (by rw [hentries]; exact List.mem_cons_self) rfl
    exact absurd hi (Fin.not_lt_zero i)
  have hempty : BlinkList.empty.Safe (.add (letterAt 0)) := fun _ e he =>
    absurd he List.not_mem_nil
  obtain ⟨f, hfirst⟩ := (initialFish_holds fun _ => 0).exists_calls hempty
  have hvisits : Visits f (BlinkList.after [.add (letterAt 0)]) := by
    rw [BlinkList.after, List.foldl_cons, List.foldl_nil]
    exact ((initialFish_holds fun _ => 0).calls hempty hfirst).1.visits
  have hsecond : Calls f (.add (letterAt 1)) (mp1IoctlAdd (letterAt 1) f).2 := ⟨0, rfl⟩
  refine ⟨fun h => ?_, _, (Run.single hfirst).snoc hsecond, hvisits.cycle hbad⟩
  exact hbad (h.safe (List.prefix_refl _))

end Ece391Kernel
