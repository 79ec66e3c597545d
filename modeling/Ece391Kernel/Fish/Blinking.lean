import Ece391Kernel.Fish.Cells
import Ece391Kernel.Fish.Linking

/-!
# Blinking characters

As long as the structures of the list have locations of their own, every call but one prints what
the status of its structure says. `mp1_ioctl_sync` tests the status bit, but the conditional move
after the test looks at other flags and never moves, so the off character is printed in any case.
The two structures blink together all the same.
-/

namespace Ece391Kernel

open LinkedList TransitionSystem

/-- The structure is in the list. -/
def Fish.Linked (f : Fish) (i : BlinkIndex) : Prop :=
  ∃ l, Chain f.links.next f.mp1ListHead l ∧ i ∈ l

/-- The structures of the list are at different locations, and none is at location 0. -/
structure DistinctLocations (f : Fish) : Prop where
  ne : ∀ i j, f.Linked i → f.Linked j → i ≠ j →
    (f.blinkArray i).location ≠ (f.blinkArray j).location
  ne_zero : ∀ i, f.Linked i → (f.blinkArray i).location ≠ 0

/-- A call that returns, and leaves the structures of the list at different locations. -/
def DistinctCalls (f : Fish) (c : BlinkCall) (f' : Fish) : Prop :=
  Calls f c f' ∧ DistinctLocations f'

/-- The cell of each structure of the list holds its on character if its status bit is 1, and its
off character if it is 0. -/
def CellsMatch (f : Fish) : Prop :=
  ∀ i, f.Linked i → f.vmem (cellOffset (f.blinkArray i).location) =
    if (f.blinkArray i).status.getLsbD 0 then (f.blinkArray i).onChar
    else (f.blinkArray i).offChar

/-- The structures of the list at the two locations of a synchronisation, the source in the upper
half. -/
structure SyncPair (f : Fish) (arg : BitVec 32) (i j : BlinkIndex) : Prop where
  source_linked : f.Linked i
  source : (f.blinkArray i).location = (arg >>> 16).setWidth 16
  target_linked : f.Linked j
  target : (f.blinkArray j).location = (arg &&& 0xFFFF).setWidth 16

/-- The call neither removes a structure at the location nor synchronises it. -/
def LeavesAlone (location : BitVec 16) (f : Fish) : BlinkCall → Prop
  | .remove arg => arg.setWidth 16 ≠ location
  | .sync arg => ∀ fuel f', mp1IoctlSync fuel arg f = some (0, f') →
      (arg &&& 0xFFFF).setWidth 16 ≠ location
  | _ => True

/-- Two structures of the list are in phase, and a tick changes both or none. -/
structure BlinkTogether (f : Fish) (i j : BlinkIndex) : Prop where
  linked : f.Linked i ∧ f.Linked j
  inPhase : (f.blinkArray i).toBlink.InPhase (f.blinkArray j).toBlink
  toggle : ∀ f', Calls f .tasklet f' →
    ((f'.blinkArray i).status ≠ (f.blinkArray i).status ↔
      (f'.blinkArray j).status ≠ (f.blinkArray j).status)

/-- Whatever calls have been made, the characters are those that the statuses say, and two
structures that have been synchronised blink together, whatever follows, until one of them is
removed or synchronised again. -/
structure BlinksMatch (vmem : Nat → UInt8) (calls : List BlinkCall) : Prop where
  cells : ∀ front, front <+: calls → ∀ f, Run DistinctCalls (initialFish vmem) front f →
    CellsMatch f
  together : ∀ front arg, front ++ [.sync arg] <+: calls →
    ∀ f, Run DistinctCalls (initialFish vmem) front f →
      ∀ fuel g, mp1IoctlSync fuel arg f = some (0, g) →
        ∃ i j, SyncPair f arg i j ∧ ∀ rest h, Run (guarded (fun f c =>
          LeavesAlone ((arg >>> 16).setWidth 16) f c ∧
            LeavesAlone ((arg &&& 0xFFFF).setWidth 16) f c) DistinctCalls) g rest h →
              BlinkTogether h i j

section Blinking

variable {f f' : Fish} {p : BlinkList} {c : BlinkCall} {arg : BitVec 32} {i j : BlinkIndex}

theorem HoldsBlinks.linked_iff (h : HoldsBlinks f p) : f.Linked i ↔ i ∈ p.indices := by
  constructor
  · rintro ⟨l, hl, hi⟩
    rwa [hl.unique h.chain] at hi
  · exact fun hi => ⟨_, h.chain, hi⟩

/-- An entry of the list, with what the array holds. -/
theorem HoldsBlinks.mem_iff (h : HoldsBlinks f p) {b : Blink} :
    (i, b) ∈ p.entries ↔ f.Linked i ∧ (f.blinkArray i).toBlink = b := by
  rw [h.linked_iff]
  constructor
  · exact fun hb => ⟨BlinkList.mem_indices hb, h.contents _ hb⟩
  · rintro ⟨hi, rfl⟩
    obtain ⟨b, hb⟩ := BlinkList.exists_of_mem_indices hi
    rw [h.contents _ hb]
    exact hb

theorem HoldsBlinks.distinct_iff (h : HoldsBlinks f p) : DistinctLocations f ↔ p.Distinct := by
  constructor
  · intro hf
    refine ⟨List.Nodup.map_on ?_ p.nodup.of_map, fun e he => ?_⟩
    · intro e he e' he' hloc
      obtain ⟨hi, hb⟩ := h.mem_iff.mp he
      obtain ⟨hi', hb'⟩ := h.mem_iff.mp he'
      have hindex : e.1 = e'.1 := by
        by_contra hne
        refine hf.ne _ _ hi hi' hne ?_
        rw [hb, hb', hloc]
      exact List.inj_on_of_nodup_map p.nodup he he' hindex
    · obtain ⟨hi, hb⟩ := h.mem_iff.mp he
      rw [← hb]
      exact hf.ne_zero _ hi
  · intro hp
    refine ⟨fun i j hi hj hne hloc => ?_, fun i hi => ?_⟩
    · have hbi := h.mem_iff.mpr ⟨hi, rfl⟩
      have hbj := h.mem_iff.mpr ⟨hj, rfl⟩
      exact hne (congrArg Prod.fst (hp.eq_of_location hbi hbj hloc))
    · exact hp.2 _ (h.mem_iff.mpr ⟨hi, rfl⟩)

theorem HoldsBlinks.cells_iff (h : HoldsBlinks f p) : CellsMatch f ↔ p.Matches f.vmem := by
  constructor
  · intro hf e he
    obtain ⟨hi, hb⟩ := h.mem_iff.mp he
    have hcell := hf _ hi
    rw [← hb]
    exact hcell
  · exact fun hp i hi => hp _ (h.mem_iff.mpr ⟨hi, rfl⟩)

theorem HoldsBlinks.spares (h : HoldsBlinks f p) {location : BitVec 16}
    (halone : LeavesAlone location f c) : p.Spares location c := by
  cases c with
  | remove arg => exact halone
  | sync arg =>
      intro hboth
      obtain ⟨f', hrun, -⟩ := h.sync arg (Nat.lt_succ_self (80 * 25))
      rw [if_pos hboth] at hrun
      exact halone _ f' hrun
  | _ => trivial

/-! ### Runs -/

/-- The array holds the list, and its locations are different. -/
structure HoldsDistinct (f : Fish) (p : BlinkList) : Prop extends HoldsBlinks f p where
  distinct : p.Distinct

theorem HoldsDistinct.step (h : HoldsDistinct f p) (hcall : DistinctCalls f c f') :
    HoldsDistinct f' (p.step c) ∧ f'.vmem = p.printed f.vmem c := by
  obtain ⟨hholds, hvmem⟩ := h.toHoldsBlinks.calls (h.distinct.safe c) hcall.1
  exact ⟨⟨hholds, hholds.distinct_iff.mp hcall.2⟩, hvmem⟩

theorem HoldsDistinct.exists_step (h : HoldsDistinct f p) (hnext : (p.step c).Distinct) :
    ∃ f', DistinctCalls f c f' ∧ HoldsDistinct f' (p.step c) := by
  obtain ⟨f', hcall⟩ := h.exists_calls (h.distinct.safe c)
  have hholds := (h.calls (h.distinct.safe c) hcall).1
  exact ⟨f', ⟨hcall, hholds.distinct_iff.mpr hnext⟩, hholds, hnext⟩

theorem HoldsDistinct.step_after (calls : List BlinkCall) (c : BlinkCall)
    (h : HoldsDistinct f (BlinkList.after calls))
    (hnext : (BlinkList.after (calls ++ [c])).Distinct) :
    ∃ f', DistinctCalls f c f' ∧ HoldsDistinct f' (BlinkList.after (calls ++ [c])) := by
  rw [BlinkList.after_concat] at hnext ⊢
  exact h.exists_step hnext

theorem initialFish_holdsDistinct (vmem : Nat → UInt8) :
    HoldsDistinct (initialFish vmem) .empty where
  toHoldsBlinks := initialFish_holds vmem
  distinct := ⟨List.nodup_nil, fun _ he => absurd he List.not_mem_nil⟩

theorem exists_holdsDistinct {vmem : Nat → UInt8} {calls : List BlinkCall}
    (hrun : Run DistinctCalls (initialFish vmem) calls f) : ∃ p, HoldsDistinct f p := by
  refine hrun.invariant (P := fun f => ∃ p, HoldsDistinct f p) ?_
    ⟨_, initialFish_holdsDistinct vmem⟩
  rintro f c f' ⟨p, h⟩ hcall
  exact ⟨_, (h.step hcall).1⟩

/-! ### Synchronisation -/

theorem HoldsBlinks.syncPair (h : HoldsBlinks f p) {a b : BlinkIndex × Blink}
    (hsource : p.find ((arg >>> 16).setWidth 16) = some a)
    (htarget : p.find ((arg &&& 0xFFFF).setWidth 16) = some b) : SyncPair f arg a.1 b.1 := by
  obtain ⟨ha, haloc⟩ := BlinkList.find_mem hsource
  obtain ⟨hb, hbloc⟩ := BlinkList.find_mem htarget
  refine ⟨(h.mem_iff.mp ha).1, ?_, (h.mem_iff.mp hb).1, ?_⟩
  · rw [← h.contents a ha] at haloc
    exact haloc
  · rw [← h.contents b hb] at hbloc
    exact hbloc

theorem HoldsDistinct.find_syncPair (h : HoldsDistinct f p) (hpair : SyncPair f arg i j) :
    p.find ((arg >>> 16).setWidth 16) = some (i, (f.blinkArray i).toBlink) ∧
      p.find ((arg &&& 0xFFFF).setWidth 16) = some (j, (f.blinkArray j).toBlink) := by
  rw [← hpair.source, ← hpair.target]
  exact ⟨h.distinct.find (h.mem_iff.mpr ⟨hpair.source_linked, rfl⟩),
    h.distinct.find (h.mem_iff.mpr ⟨hpair.target_linked, rfl⟩)⟩

/-- The character that a synchronisation prints is the right one: the source is off, or the off
character of the target is its on character too. -/
def OffCharRight (f : Fish) (arg : BitVec 32) : Prop :=
  ∀ i j, SyncPair f arg i j → (f.blinkArray i).status.getLsbD 0 = true →
    (f.blinkArray j).onChar = (f.blinkArray j).offChar

theorem HoldsDistinct.offCharRight_iff (h : HoldsDistinct f p) :
    OffCharRight f arg ↔ p.SyncShows (.sync arg) := by
  constructor
  · intro hright a b hsource htarget hon
    have ha := h.contents a (BlinkList.find_mem hsource).1
    have hb := h.contents b (BlinkList.find_mem htarget).1
    rw [← ha] at hon
    rw [← hb]
    exact hright a.1 b.1 (h.syncPair hsource htarget) hon
  · intro hshows i j hpair hon
    obtain ⟨hsource, htarget⟩ := h.find_syncPair hpair
    exact hshows _ _ hsource htarget hon

/-- The cells stay right as long as the synchronisations print the right characters. -/
theorem matches_after {vmem : Nat → UInt8} {calls : List BlinkCall}
    (hright : ∀ front arg, front ++ [.sync arg] <+: calls →
      ∀ f, Run DistinctCalls (initialFish vmem) front f → OffCharRight f arg) :
    ∀ f, Run DistinctCalls (initialFish vmem) calls f →
      ∃ p, HoldsDistinct f p ∧ p.Matches f.vmem := by
  induction calls using List.reverseRecOn with
  | nil =>
      intro f hrun
      obtain rfl := hrun.eq_of_nil
      exact ⟨_, initialFish_holdsDistinct vmem, fun e he => absurd he List.not_mem_nil⟩
  | append_singleton calls c ih =>
      intro f' hrun
      obtain ⟨f, hbefore, hcall⟩ := hrun.of_concat
      obtain ⟨p, h, hmatches⟩ := ih (fun front arg hpre =>
        hright front arg (hpre.trans (List.prefix_append calls [c]))) f hbefore
      obtain ⟨hnext, hvmem⟩ := h.step hcall
      have hshows : p.SyncShows c := by
        cases c with
        | sync arg => exact h.offCharRight_iff.mp (hright calls arg (List.prefix_refl _) f hbefore)
        | _ => trivial
      refine ⟨_, hnext, ?_⟩
      rw [hvmem]
      exact hmatches.step h.distinct hnext.distinct hshows

/-! ### Two structures in phase -/

theorem HoldsBlinks.together (h : HoldsBlinks f p) {a b : Blink} (ha : (i, a) ∈ p.entries)
    (hb : (j, b) ∈ p.entries) (hphase : a.InPhase b) : BlinkTogether f i j := by
  obtain ⟨hi, rfl⟩ := h.mem_iff.mp ha
  obtain ⟨hj, rfl⟩ := h.mem_iff.mp hb
  refine ⟨⟨hi, hj⟩, hphase, fun f' hcall => ?_⟩
  obtain ⟨hticked, -⟩ := h.calls (c := .tasklet) trivial hcall
  obtain ⟨-, ha'⟩ := hticked.mem_iff.mp (BlinkList.mem_step (c := .tasklet) ha trivial)
  obtain ⟨-, hb'⟩ := hticked.mem_iff.mp (BlinkList.mem_step (c := .tasklet) hb trivial)
  have hstatus : (f'.blinkArray i).status = (f'.blinkArray j).status := by
    have hnext := (hphase.next .tasklet).status
    rwa [← ha', ← hb'] at hnext
  rw [hstatus, hphase.status]

/-- Two structures that are left alone stay together. -/
theorem HoldsDistinct.blinkTogether (h : HoldsDistinct f p) {a b : Blink}
    (ha : (i, a) ∈ p.entries) (hb : (j, b) ∈ p.entries) (hphase : a.InPhase b)
    {calls : List BlinkCall} (hrun : Run (guarded (fun f c =>
      LeavesAlone a.location f c ∧ LeavesAlone b.location f c) DistinctCalls) f calls f') :
    BlinkTogether f' i j := by
  have hend : ∃ p x y, HoldsDistinct f' p ∧ (i, x) ∈ p.entries ∧ (j, y) ∈ p.entries ∧
      x.location = a.location ∧ y.location = b.location ∧ x.InPhase y := by
    refine hrun.invariant (P := fun f => ∃ p x y, HoldsDistinct f p ∧ (i, x) ∈ p.entries ∧
      (j, y) ∈ p.entries ∧ x.location = a.location ∧ y.location = b.location ∧ x.InPhase y) ?_
      ⟨p, a, b, h, ha, hb, rfl, rfl, hphase⟩
    rintro f c f' ⟨p, x, y, h, hx, hy, hxloc, hyloc, hphase⟩ ⟨⟨hleft, hright⟩, hcall⟩
    rw [← hxloc] at hleft
    rw [← hyloc] at hright
    refine ⟨_, x.next c, y.next c, (h.step hcall).1, BlinkList.mem_step hx (h.spares hleft),
      BlinkList.mem_step hy (h.spares hright), ?_, ?_, hphase.next c⟩
    · rw [Blink.next_location, hxloc]
    · rw [Blink.next_location, hyloc]
  obtain ⟨q, x, y, hq, hx, hy, -, -, hphase'⟩ := hend
  exact hq.together hx hy hphase'

/-- A synchronisation that succeeds has found both structures. -/
theorem HoldsDistinct.synced (h : HoldsDistinct f p) {fuel : Nat} {g : Fish}
    (hrun : mp1IoctlSync fuel arg f = some (0, g)) :
    HoldsDistinct g (p.step (.sync arg)) ∧ ∃ a b,
      p.find ((arg >>> 16).setWidth 16) = some a ∧
        p.find ((arg &&& 0xFFFF).setWidth 16) = some b := by
  have hcall : Calls f (.sync arg) g := ⟨fuel, congrArg (Option.map Prod.snd) hrun⟩
  refine ⟨⟨(h.calls (h.distinct.safe _) hcall).1, h.distinct.sync _ _⟩, ?_⟩
  have hcode := h.sync_code hrun
  split at hcode
  · rename_i hboth
    obtain ⟨a, ha⟩ := Option.isSome_iff_exists.mp hboth.1
    obtain ⟨b, hb⟩ := Option.isSome_iff_exists.mp hboth.2
    exact ⟨a, b, ha, hb⟩
  · exact absurd hcode (by decide)

/-- The cells after a synchronisation show whether it has printed the right character. -/
theorem BlinksMatch.offCharRight {vmem : Nat → UInt8} {calls front : List BlinkCall}
    (h : BlinksMatch vmem calls) (hpre : front ++ [.sync arg] <+: calls)
    (hrun : Run DistinctCalls (initialFish vmem) front f) : OffCharRight f arg := by
  obtain ⟨p, hf⟩ := exists_holdsDistinct hrun
  obtain ⟨g, hcall, hg⟩ := hf.exists_step (c := .sync arg) (hf.distinct.sync _ _)
  have hcells := h.cells _ hpre g (hrun.snoc hcall)
  rw [hg.cells_iff, (hf.step hcall).2] at hcells
  exact hf.offCharRight_iff.mpr hcells.syncShows

end Blinking

/-- The characters are those that the statuses say, if and only if no synchronisation is made whose
source is on and whose target has another on character than off character. -/
theorem blinksMatch_iff (vmem : Nat → UInt8) (calls : List BlinkCall) :
    BlinksMatch vmem calls ↔
      ∀ front arg, front ++ [.sync arg] <+: calls →
        ∀ f, Run DistinctCalls (initialFish vmem) front f → OffCharRight f arg := by
  constructor
  · exact fun h front arg hpre f hrun => h.offCharRight hpre hrun
  · intro hright
    refine ⟨fun front hfront f hrun => ?_, fun front arg hpre f hrun fuel g hsync => ?_⟩
    · obtain ⟨p, hf, hmatches⟩ := matches_after
        (fun front' arg hpre => hright front' arg (hpre.trans hfront)) f hrun
      exact hf.cells_iff.mpr hmatches
    · obtain ⟨p, hf⟩ := exists_holdsDistinct hrun
      obtain ⟨hg, a, b, hsource, htarget⟩ := hf.synced hsync
      obtain ⟨ha, hb⟩ := BlinkList.mem_sync hsource htarget
      refine ⟨a.1, b.1, hf.syncPair hsource htarget, fun rest h hrest => ?_⟩
      rw [← (BlinkList.find_mem hsource).2, ← (BlinkList.find_mem htarget).2] at hrest
      exact hg.blinkTogether ha hb (a.2.synced_inPhase b.2) hrest

theorem after_letterAt_two {a b : BitVec 16} (ha : a.toNat < 80 * 25) (hb : b.toNat < 80 * 25) :
    (BlinkList.after [.add (letterAt a), .add (letterAt b)]).entries =
      [(1, (letterAt b).toBlink.started), (0, (letterAt a).toBlink.started)] := by
  have hentries := after_letterAt a ha
  have hfree : (BlinkList.after [.add (letterAt a)]).firstFree = some 1 := by
    refine BlinkList.find?_finRange.mpr ⟨?_, fun j hj => ?_⟩
    · simp [BlinkList.indices, hentries]
    · obtain rfl : j = 0 := Fin.ext (Nat.lt_one_iff.mp hj)
      simp [BlinkList.indices, hentries]
  have hloc : (letterAt b).location.toNat < 80 * 25 := hb
  have htwo := BlinkList.after_concat [.add (letterAt a)] (.add (letterAt b))
  rw [List.singleton_append] at htwo
  rw [htwo, BlinkList.step, if_pos hloc, BlinkList.add_eq_insert hfree]
  exact congrArg (List.cons _) hentries

/-- Two structures are added, and the second is synchronised with the first at once: its status is
1, and its off character is on the screen. -/
theorem sync_prints_off_char :
    ¬BlinksMatch (fun _ => 0) [.add (letterAt 40), .add (letterAt 540), .sync 0x0028021C] := by
  have hentries := after_letterAt_two (a := 40) (b := 540) (by decide) (by decide)
  have hone : (BlinkList.after [.add (letterAt 40)]).Distinct := by
    rw [BlinkList.Distinct, after_letterAt 40 (by decide)]
    decide
  have htwo : (BlinkList.after [.add (letterAt 40), .add (letterAt 540)]).Distinct := by
    rw [BlinkList.Distinct, hentries]
    decide
  obtain ⟨f, hfirst, hf⟩ := (initialFish_holdsDistinct fun _ => 0).step_after [] _ hone
  obtain ⟨g, hsecond, hg⟩ := hf.step_after [.add (letterAt 40)] _ htwo
  intro h
  have hright := h.offCharRight (List.prefix_refl _) ((Run.single hfirst).snoc hsecond)
  have hsource := htwo.find (e := (0, (letterAt 40).toBlink.started))
    (by rw [hentries]; exact List.mem_cons_of_mem _ List.mem_cons_self)
  have htarget := htwo.find (e := (1, (letterAt 540).toBlink.started))
    (by rw [hentries]; exact List.mem_cons_self)
  have hchars := hg.offCharRight_iff.mp hright _ _ hsource htarget rfl
  exact absurd hchars (by decide)

end Ece391Kernel
