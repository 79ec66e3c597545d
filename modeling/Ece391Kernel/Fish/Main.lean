import Ece391Kernel.Fish.Frames

/-!
# The screen that `main` leaves

`main` of `fish.c` adds the frames, a letter of its own, synchronises the letter with the first
place of the frames, and removes it, and waits between these calls. When the letter is synchronised
the first place shows the second frame, so the character that is printed is the right one. What a
structure has printed last stays on the screen when it is removed.
-/

namespace Ece391Kernel

open TransitionSystem

/-! ## The function -/

/-- `WAIT` ticks. -/
def waitTicks : List BlinkCall := List.replicate 100 .tasklet

/-- The structure of `main`, on what the stack holds. -/
def letterStruct (stack : Mp1BlinkStruct) : Mp1BlinkStruct :=
  { stack with
    onChar := 0x49
    offChar := 0x4D
    onLength := 7
    offLength := 6
    location := 6 * 80 + 60 }

/-- The calls of `main` behind `add_frames`. -/
def mainCalls (stack : Mp1BlinkStruct) : List BlinkCall :=
  waitTicks ++ .add (letterStruct stack) :: waitTicks ++
    .sync (40#32 <<< 16 ||| (6 * 80 + 60)) :: waitTicks ++ .remove (6 * 80 + 60) :: waitTicks

/-- `main`, for what the two files hold, and with what the stacks of `add_frames` and of `main`
hold in place of their structures. -/
def fishMain (fuel : Nat) (framesStack mainStack : Mp1BlinkStruct) (file0 file1 : List UInt8)
    (vmem : Nat → UInt8) : Option Fish := do
  let f ← addFrames fuel framesStack file0 file1 (initialFish vmem)
  (mainCalls mainStack).foldlM (fun f c => c.run fuel f) f

/-! ## Locations -/

/-- The locations of the structures that are added. -/
def addedLocations (calls : List BlinkCall) : List (BitVec 16) :=
  calls.filterMap fun c =>
    match c with
    | .add data => some data.location
    | _ => none

namespace BlinkList

variable {p : BlinkList} {c : BlinkCall} {v : Nat → UInt8} {a : Nat} {location : BitVec 16}

/-- The structures at a location have been there, or have just been added. -/
theorem location_step {e : BlinkIndex × Blink} (he : e ∈ (p.step c).entries) :
    (∃ e' ∈ p.entries, e'.2.location = e.2.location) ∨ e.2.location ∈ addedLocations [c] := by
  have hmap : ∀ g : BlinkIndex → Blink → Blink, (∀ i b, (g i b).location = b.location) →
      e ∈ (p.map g).entries → ∃ e' ∈ p.entries, e'.2.location = e.2.location := by
    intro g hg hmem
    obtain ⟨b, hb, heq⟩ := BlinkList.mem_map.mp hmem
    exact ⟨_, hb, by rw [← heq, hg]⟩
  cases c with
  | add data =>
      unfold step at he
      simp only at he
      split at he
      · cases hfree : p.firstFree with
        | none =>
            rw [add_eq_self hfree] at he
            exact Or.inl ⟨e, he, rfl⟩
        | some i =>
            rw [add_eq_insert hfree] at he
            rcases List.mem_cons.mp he with rfl | he
            · exact Or.inr List.mem_cons_self
            · exact Or.inl ⟨e, he, rfl⟩
      · exact Or.inl ⟨e, he, rfl⟩
  | remove arg => exact Or.inl ⟨e, mem_of_mem_remove he, rfl⟩
  | find data => exact Or.inl ⟨e, he, rfl⟩
  | sync arg =>
      unfold step sync at he
      simp only at he
      split at he
      · refine Or.inl (hmap _ (fun i b => ?_) he)
        split <;> rfl
      · exact Or.inl ⟨e, he, rfl⟩
  | tasklet => exact Or.inl (hmap _ (fun _ => Blink.tick_location) he)

/-- The structures keep their locations apart, unless one is added where there is one. -/
theorem Distinct.step (h : p.Distinct) (hnew : ∀ l ∈ addedLocations [c],
    l ≠ 0 ∧ ∀ e ∈ p.entries, e.2.location ≠ l) : (p.step c).Distinct := by
  cases c with
  | add data =>
      obtain ⟨hzero, hother⟩ := hnew data.location List.mem_cons_self
      unfold BlinkList.step
      simp only
      split
      · cases hfree : p.firstFree with
        | none =>
            rw [add_eq_self hfree]
            exact h
        | some i =>
            rw [add_eq_insert hfree]
            refine ⟨List.nodup_cons.mpr ⟨fun hmem => ?_, h.1⟩, fun e he => ?_⟩
            · obtain ⟨e, he, heq⟩ := List.mem_map.mp hmem
              exact hother e he heq
            · rcases List.mem_cons.mp he with rfl | he
              · exact hzero
              · exact h.2 e he
      · exact h
  | remove arg =>
      exact ⟨h.1.sublist ((List.eraseP_sublist).map _), fun e he => h.2 e (mem_of_mem_remove he)⟩
  | find data => exact h
  | sync arg => exact h.sync _ _
  | tasklet => exact h.map fun _ => Blink.tick_location

/-- A call prints in the cells of the structures only. -/
theorem printed_elsewhere (hp : ∀ e ∈ p.entries, a ≠ cellOffset e.2.location)
    (hadded : ∀ l ∈ addedLocations [c], a ≠ cellOffset l) : p.printed v c a = v a := by
  have hticks : ∀ (l : List (BlinkIndex × Blink)) (v : Nat → UInt8),
      (∀ e ∈ l, a ≠ cellOffset e.2.location) →
        l.foldl (fun v e => if e.2.expires then e.2.tick.drawn v else v) v a = v a := by
    intro l
    induction l with
    | nil => exact fun v _ => rfl
    | cons e l ih =>
        intro v hl
        rw [List.foldl_cons, ih _ fun e he => hl e (List.mem_cons_of_mem _ he)]
        split
        · have hne := hl e List.mem_cons_self
          rw [← Blink.tick_location] at hne
          exact Function.update_of_ne hne _ _
        · rfl
  unfold printed
  cases c with
  | add data =>
      simp only
      split
      · exact Function.update_of_ne (hadded data.location List.mem_cons_self) _ _
      · rfl
  | remove arg => rfl
  | find data => rfl
  | sync arg =>
      simp only
      cases hsource : p.find ((arg >>> 16).setWidth 16) with
      | none => rfl
      | some e =>
          cases htarget : p.find ((arg &&& 0xFFFF).setWidth 16) with
          | none => rfl
          | some b => exact Function.update_of_ne (hp b (find_mem htarget).1) _ _
  | tasklet => exact hticks p.entries v hp

/-- No other structure is left at the location of a removal. -/
theorem Distinct.not_mem_remove (h : p.Distinct) :
    ∀ e ∈ (p.remove location).entries, e.2.location ≠ location := by
  intro e he hloc
  have hmem := mem_of_mem_remove he
  have hfind := h.find hmem
  rw [hloc] at hfind
  have hindex := mem_indices he
  rw [indices_remove hfind] at hindex
  exact (p.nodup.mem_erase_iff.mp hindex).1 rfl

end BlinkList

@[simp] theorem addedLocations_waitTicks : addedLocations waitTicks = [] :=
  List.filterMap_replicate_of_none rfl

@[simp] theorem addedLocations_add (data : Mp1BlinkStruct) (calls : List BlinkCall) :
    addedLocations (.add data :: calls) = data.location :: addedLocations calls := rfl

@[simp] theorem addedLocations_sync (arg : BitVec 32) (calls : List BlinkCall) :
    addedLocations (.sync arg :: calls) = addedLocations calls := rfl

@[simp] theorem addedLocations_remove (arg : BitVec 32) (calls : List BlinkCall) :
    addedLocations (.remove arg :: calls) = addedLocations calls := rfl

@[simp] theorem addedLocations_append (calls calls' : List BlinkCall) :
    addedLocations (calls ++ calls') = addedLocations calls ++ addedLocations calls' :=
  List.filterMap_append

/-- The structures that calls leave are at locations where there was one, or one was added. -/
theorem BlinkList.location_foldl (p : BlinkList) (calls : List BlinkCall) :
    ∀ e ∈ (calls.foldl BlinkList.step p).entries,
      (∃ e' ∈ p.entries, e'.2.location = e.2.location) ∨ e.2.location ∈ addedLocations calls := by
  induction calls using List.reverseRecOn with
  | nil => exact fun e he => Or.inl ⟨e, he, rfl⟩
  | append_singleton calls c ih =>
      intro e he
      rw [List.foldl_concat] at he
      rw [addedLocations_append, List.mem_append]
      rcases BlinkList.location_step he with ⟨e', he', hloc⟩ | hadded
      · rw [← hloc]
        exact (ih e' he').imp_right Or.inl
      · exact Or.inr (Or.inr hadded)

section Runs

variable {f f' : Fish} {p : BlinkList} {calls : List BlinkCall}

/-- Elsewhere than in the cells of the structures nothing is printed. -/
theorem HoldsDistinct.unprinted (h : HoldsDistinct f p) (hrun : Run DistinctCalls f calls f')
    {a : Nat} (hp : ∀ e ∈ p.entries, a ≠ cellOffset e.2.location)
    (hadded : ∀ l ∈ addedLocations calls, a ≠ cellOffset l) : f'.vmem a = f.vmem a := by
  induction hrun with
  | nil => rfl
  | snoc hbefore hlast ih =>
      rename_i calls c
      rw [addedLocations_append] at hadded
      have hcalls : ∀ l ∈ addedLocations calls, a ≠ cellOffset l := fun l hl =>
        hadded l (List.mem_append_left _ hl)
      rw [((h.run hbefore).step hlast).2, BlinkList.printed_elsewhere _ fun l hl =>
        hadded l (List.mem_append_right _ hl)]
      · exact ih hcalls
      · intro e he
        rcases p.location_foldl calls e he with ⟨e', he', hloc⟩ | hmem
        · rw [← hloc]
          exact hp e' he'
        · exact hcalls _ hmem

/-- Calls that add structures at different new locations return. -/
theorem HoldsDistinct.exists_run (h : HoldsDistinct f p) {fuel : Nat} (hfuel : 80 * 25 < fuel)
    (hnodup : (addedLocations calls).Nodup)
    (hnew : ∀ l ∈ addedLocations calls, l ≠ 0 ∧ ∀ e ∈ p.entries, e.2.location ≠ l) :
    ∃ f', calls.foldlM (fun f c => c.run fuel f) f = some f' ∧ Run DistinctCalls f calls f' := by
  induction calls using List.reverseRecOn with
  | nil => exact ⟨f, rfl, Run.nil f⟩
  | append_singleton calls c ih =>
      rw [addedLocations_append] at hnodup hnew
      obtain ⟨hcalls, -, hdifferent⟩ := List.nodup_append.mp hnodup
      obtain ⟨g, hg, hrun⟩ := ih hcalls fun l hl => hnew l (List.mem_append_left _ hl)
      have hholds := h.run hrun
      have hnext : ((calls.foldl BlinkList.step p).step c).Distinct := by
        refine hholds.distinct.step fun l hl => ?_
        obtain ⟨hzero, hother⟩ := hnew l (List.mem_append_right _ hl)
        refine ⟨hzero, fun e he heq => ?_⟩
        rcases p.location_foldl calls e he with ⟨e', he', hloc⟩ | hmem
        · exact hother e' he' (hloc.trans heq)
        · exact hdifferent _ hmem _ hl heq
      obtain ⟨f', hcode, hholds', -⟩ := hholds.toHoldsBlinks.run (hholds.distinct.safe c) hfuel
      refine ⟨f', ?_, hrun.snoc ⟨⟨fuel, hcode⟩, hholds'.distinct_iff.mpr hnext⟩⟩
      rw [List.foldlM_append, hg]
      simpa using hcode

end Runs

/-! ## The letter -/

section Letter

/-- The letter with the lengths of the frames. -/
def letterInPhase (stack : Mp1BlinkStruct) : Blink :=
  { (letterStruct stack).toBlink with onLength := 15, offLength := 15 }

theorem letterStruct_period (stack : Mp1BlinkStruct) :
    (letterStruct stack).toBlink.period = 13 := rfl

theorem letterStruct_shownAfter (stack : Mp1BlinkStruct) (n : Nat) :
    (letterStruct stack).toBlink.shownAfter n = if n % 13 < 7 then 0x49 else 0x4D := rfl

theorem letterInPhase_shownAfter (stack : Mp1BlinkStruct) (n : Nat) :
    (letterInPhase stack).shownAfter n = if n % 30 < 15 then 0x49 else 0x4D := rfl

theorem ticks_waitTicks : ticks waitTicks = 100 := rfl

theorem ticks_add (data : Mp1BlinkStruct) (calls : List BlinkCall) :
    ticks (.add data :: calls) = ticks calls := rfl

theorem ticks_sync (arg : BitVec 32) (calls : List BlinkCall) :
    ticks (.sync arg :: calls) = ticks calls := rfl

theorem ticks_remove (arg : BitVec 32) (calls : List BlinkCall) :
    ticks (.remove arg :: calls) = ticks calls := rfl

/-- After 200 ticks the frames are off, and the letter goes on as if it had been added with their
lengths 20 ticks ago. -/
theorem letter_synced (stack stack' : Mp1BlinkStruct) (row col : Nat) (c0 c1 : UInt8) :
    (Blink.tick^[200] (frameStruct stack row col c0 c1).toBlink.started).synced
      (Blink.tick^[100] (letterStruct stack').toBlink.started) =
        Blink.tick^[20] (letterInPhase stack').started := by
  have hframe : (frameStruct stack row col c0 c1).toBlink.period = 30 := rfl
  have hphase : (letterInPhase stack').period = 30 := rfl
  rw [Blink.tick_iterate, Blink.tick_iterate, Blink.tick_iterate, hframe, letterStruct_period,
    hphase]
  rfl

/-- Ticks leave every structure alone. -/
theorem leavesAlone_waitTicks (location : BitVec 16) :
    ∀ c ∈ waitTicks, ∀ f, LeavesAlone location f c := by
  intro c hc f
  rw [List.eq_of_mem_replicate hc]
  trivial

theorem guarded_waitTicks {f f' : Fish} (location : BitVec 16)
    (hrun : Run DistinctCalls f waitTicks f') :
    Run (guarded (LeavesAlone location) DistinctCalls) f waitTicks f' :=
  hrun.guarded_of_labels (leavesAlone_waitTicks location)

variable {vmem : Nat → UInt8} {file0 file1 : List UInt8} {framesStack mainStack : Mp1BlinkStruct}
  {f g : Fish} {p : BlinkList}

/-- The letter is at a place of its own. -/
theorem HoldsAdded.letter_free (hp : HoldsAdded vmem (frameAdds framesStack file0 file1) g p)
    (hfits : FitsScreen file0 file1) (hfree : ¬Drawn file0 file1 6 20) :
    ∀ e ∈ p.entries, e.2.location ≠ 6 * 80 + 60 := by
  intro e he heq
  obtain ⟨d, hd, -, hstarted⟩ := hp.from_added e he
  obtain ⟨row, col, hdrawn, rfl⟩ := mem_frameAdds.mp hd
  obtain ⟨hcol, hword⟩ := hfits row col hdrawn
  have hnum := frameStruct_location framesStack hword (pictureAt file0 row col)
    (pictureAt file1 row col)
  rw [hstarted] at heq
  have hletter : (6 * 80 + 60 : BitVec 16).toNat = placeNum row col := by
    rw [← hnum, ← heq]
    rfl
  have hvalue : (6 * 80 + 60 : BitVec 16).toNat = 540 := rfl
  rw [hvalue] at hletter
  unfold placeNum at hletter
  obtain rfl : row = 6 := by omega
  obtain rfl : col = 20 := by omega
  exact hfree hdrawn

/-- The letter, 100 ticks after it has been added. -/
theorem HoldsAdded.letter_added (hp : HoldsAdded vmem (frameAdds framesStack file0 file1) g p)
    (hletter : ∀ e ∈ p.entries, e.2.location ≠ 6 * 80 + 60)
    (hrun : Run DistinctCalls g (waitTicks ++ .add (letterStruct mainStack) :: waitTicks) f) :
    ∃ i, (i, Blink.tick^[100] (letterStruct mainStack).toBlink.started) ∈
        ((waitTicks ++ .add (letterStruct mainStack) :: waitTicks).foldl BlinkList.step p).entries ∧
      f.vmem (cellOffset (6 * 80 + 60)) =
        (Blink.tick^[100] (letterStruct mainStack).toBlink.started).shown := by
  obtain ⟨f₁, hfirst, hrest⟩ := hrun.of_append
  obtain ⟨f₂, hadd, hlast⟩ := hrest.of_cons
  have hholds := hp.toHoldsDistinct.run hfirst
  have hold : ∀ e ∈ (waitTicks.foldl BlinkList.step p).entries,
      e.2.location ≠ 6 * 80 + 60 ∧ e.2.location.toNat < 80 * 25 := by
    intro e he
    rcases p.location_foldl waitTicks e he with ⟨e', he', hloc⟩ | hadded
    · obtain ⟨d, -, hlt, hstarted⟩ := hp.from_added e' he'
      rw [← hloc]
      refine ⟨hletter e' he', ?_⟩
      rw [hstarted]
      exact hlt
    · rw [addedLocations_waitTicks] at hadded
      exact absurd hadded List.not_mem_nil
  obtain ⟨i, hfree⟩ : ∃ i, (waitTicks.foldl BlinkList.step p).firstFree = some i := by
    refine BlinkList.exists_firstFree (6 * 80 + 60)
      (List.nodup_cons.mpr ⟨fun hmem => ?_, hholds.distinct.1⟩) fun a ha => ?_
    · obtain ⟨e, he, heq⟩ := List.mem_map.mp hmem
      exact (hold e he).1 heq
    · rcases List.mem_cons.mp ha with rfl | ha
      · decide
      · obtain ⟨e, he, rfl⟩ := List.mem_map.mp ha
        exact (hold e he).2
  have hloc : (letterStruct mainStack).location.toNat < 80 * 25 :=
    (by decide : (6 * 80 + 60 : BitVec 16).toNat < 80 * 25)
  obtain ⟨hmem, hcell⟩ := hholds.added_free hadd hloc hfree
  obtain ⟨hmem', hcell'⟩ := (hholds.step hadd).1.blinks hmem hcell (guarded_waitTicks _ hlast)
  rw [ticks_waitTicks] at hmem' hcell'
  refine ⟨i, ?_, hcell'⟩
  rw [List.foldl_append, List.foldl_cons]
  exact hmem'

/-- What stands at the first place when the letter is synchronised. -/
theorem HoldsAdded.first_place (hp : HoldsAdded vmem (frameAdds framesStack file0 file1) g p)
    (hrun : Run DistinctCalls g (waitTicks ++ .add (letterStruct mainStack) :: waitTicks) f)
    {e : BlinkIndex × Blink} (he : e ∈ ((waitTicks ++ .add (letterStruct mainStack) ::
      waitTicks).foldl BlinkList.step p).entries) (hloc : e.2.location = 40) :
    ∃ row col c0 c1, e.2 =
      Blink.tick^[200] (frameStruct framesStack row col c0 c1).toBlink.started := by
  have hguarded : Run (guarded (LeavesAlone 40) DistinctCalls) g
      (waitTicks ++ .add (letterStruct mainStack) :: waitTicks) f := by
    refine hrun.guarded_of_labels fun c hc f => ?_
    rcases List.mem_append.mp hc with hc | hc
    · exact leavesAlone_waitTicks 40 c hc f
    · rcases List.mem_cons.mp hc with rfl | hc
      · trivial
      · exact leavesAlone_waitTicks 40 c hc f
  rcases p.location_foldl _ e he with ⟨e', he', hloc'⟩ | hadded
  · obtain ⟨d, hd, hlt, hstarted⟩ := hp.from_added e' he'
    obtain ⟨row, col, hdrawn, rfl⟩ := mem_frameAdds.mp hd
    have hlocation : (frameStruct framesStack row col (pictureAt file0 row col)
        (pictureAt file1 row col)).toBlink.started.location = 40 := by
      rw [← hstarted, hloc', hloc]
    have hcell := (hp.listed _ hd hlt).2
    have hmem : (e'.1, (frameStruct framesStack row col (pictureAt file0 row col)
        (pictureAt file1 row col)).toBlink.started) ∈ p.entries := by
      rw [← hstarted]
      exact he'
    rw [← hlocation] at hguarded
    obtain ⟨hmem', -⟩ := hp.toHoldsDistinct.blinks hmem hcell hguarded
    have hticks : ticks (waitTicks ++ .add (letterStruct mainStack) :: waitTicks) = 200 := by
      rw [ticks_append, ticks_add, ticks_waitTicks]
    rw [hticks] at hmem'
    have hentry := (hp.toHoldsDistinct.run hrun).distinct.eq_of_location he hmem'
      (by rw [hloc, Blink.iterate_location, hlocation])
    exact ⟨row, col, pictureAt file0 row col, pictureAt file1 row col, by rw [hentry]⟩
  · rw [addedLocations_append, addedLocations_add, addedLocations_waitTicks, List.nil_append,
      List.mem_singleton, hloc] at hadded
    exact absurd hadded (by decide : (40 : BitVec 16) ≠ 6 * 80 + 60)

end Letter

section Screen

variable {vmem : Nat → UInt8} {file0 file1 : List UInt8} {framesStack mainStack : Mp1BlinkStruct}
  {f g : Fish} {p : BlinkList}

/-- The synchronisation prints the right character, as the first place is off, or there is nothing
at it: the letter stands in its cell, and is on after 100 more ticks. -/
theorem HoldsAdded.letter_in_phase (hp : HoldsAdded vmem (frameAdds framesStack file0 file1) g p)
    (hletter : ∀ e ∈ p.entries, e.2.location ≠ 6 * 80 + 60)
    (hrun : Run DistinctCalls g (waitTicks ++ .add (letterStruct mainStack) :: waitTicks) f)
    {f' : Fish} (hsync : DistinctCalls f (.sync (40#32 <<< 16 ||| (6 * 80 + 60))) f') :
    ∃ p' i b, HoldsDistinct f' p' ∧ (i, b) ∈ p'.entries ∧ b.location = 6 * 80 + 60 ∧
      f'.vmem (cellOffset (6 * 80 + 60)) = b.shown ∧ (Blink.tick^[100] b).shown = 0x49 := by
  have hholds := hp.toHoldsDistinct.run hrun
  obtain ⟨i, hmem, hcell⟩ := hp.letter_added hletter hrun
  obtain ⟨hnext, hvmem⟩ := hholds.step hsync
  have hfind := hholds.distinct.find hmem
  have hlocation : (Blink.tick^[100] (letterStruct mainStack).toBlink.started).location =
      6 * 80 + 60 := Blink.iterate_location _ _
  have hsource : ((40#32 <<< 16 ||| (6 * 80 + 60)) >>> 16).setWidth 16 = 40 := by decide
  have htarget : ((40#32 <<< 16 ||| (6 * 80 + 60)) &&& 0xFFFF).setWidth 16 =
      (6 * 80 + 60 : BitVec 16) := by decide
  simp only [hlocation] at hfind
  generalize hq : (waitTicks ++ .add (letterStruct mainStack) :: waitTicks).foldl
    BlinkList.step p = q at hholds hmem hnext hvmem hfind
  rw [BlinkList.step, hsource, htarget] at hnext
  rw [BlinkList.printed, hsource, htarget] at hvmem
  cases hfirst : q.find 40 with
  | none =>
      rw [BlinkList.sync, hfirst, hfind] at hnext
      rw [hfirst, hfind] at hvmem
      refine ⟨q, i, _, hnext, hmem, hlocation, ?_, ?_⟩
      · rw [hvmem]
        exact hcell
      · rw [← Function.iterate_add_apply, Blink.iterate_shown, letterStruct_shownAfter]
        rfl
  | some a =>
      rw [hfirst, hfind] at hvmem
      simp only [hlocation] at hvmem
      obtain ⟨ha, hloc⟩ := BlinkList.find_mem hfirst
      rw [← hq] at ha
      obtain ⟨row, col, c0, c1, hframe⟩ := hp.first_place hrun ha hloc
      have hsynced := (BlinkList.mem_sync hfirst hfind).2
      dsimp only at hsynced
      rw [hframe, letter_synced framesStack mainStack row col c0 c1] at hsynced
      refine ⟨_, i, _, hnext, hsynced, Blink.iterate_location _ _, ?_, ?_⟩
      · rw [hvmem, Function.update_self, Blink.iterate_shown, letterInPhase_shownAfter,
          Blink.tick_iterate, letterStruct_period]
        rfl
      · rw [← Function.iterate_add_apply, Blink.iterate_shown, letterInPhase_shownAfter]
        rfl

/-- What the letter has printed last stays. -/
theorem HoldsAdded.letter_stays (hp : HoldsAdded vmem (frameAdds framesStack file0 file1) g p)
    (hletter : ∀ e ∈ p.entries, e.2.location ≠ 6 * 80 + 60)
    (hrun : Run DistinctCalls g (mainCalls mainStack) f) :
    f.vmem (cellOffset (6 * 80 + 60)) = 0x49 := by
  obtain ⟨f₅, hrun₅, hlast⟩ := hrun.of_append
  obtain ⟨f₃, hrun₃, hmiddle⟩ := hrun₅.of_append
  obtain ⟨f₄, hsync, hwait⟩ := hmiddle.of_cons
  obtain ⟨f₆, hremove, hend⟩ := hlast.of_cons
  obtain ⟨p₄, i, b, hholds, hmem, hloc, hcell, hshown⟩ := hp.letter_in_phase hletter hrun₃ hsync
  rw [← hloc] at hcell
  obtain ⟨-, hcell₅⟩ := hholds.blinks hmem hcell (guarded_waitTicks _ hwait)
  rw [ticks_waitTicks, hshown, hloc] at hcell₅
  have hholds₅ := hholds.run hwait
  obtain ⟨hholds₆, hvmem₆⟩ := hholds₅.step hremove
  have hkept := hholds₆.unprinted hend (a := cellOffset (6 * 80 + 60)) (fun e he => ?_) ?_
  · rw [hkept, hvmem₆]
    exact hcell₅
  · exact BlinkList.cellOffset_ne (hholds₅.distinct.not_mem_remove e he).symm
  · rw [addedLocations_waitTicks]
    exact fun l hl => absurd hl List.not_mem_nil

end Screen

theorem ticks_mainCalls (stack : Mp1BlinkStruct) : ticks (mainCalls stack) = 400 := by
  unfold mainCalls
  rw [ticks_append, ticks_append, ticks_append, ticks_add, ticks_sync, ticks_remove,
    ticks_waitTicks]

/-- Only the letter is removed or synchronised. -/
theorem leavesAlone_mainCalls (stack : Mp1BlinkStruct) {location : BitVec 16}
    (hne : location ≠ 6 * 80 + 60) :
    ∀ c ∈ mainCalls stack, ∀ f, LeavesAlone location f c := by
  intro c hc f
  have hwait : c ∈ waitTicks → LeavesAlone location f c :=
    fun hmem => leavesAlone_waitTicks location c hmem f
  unfold mainCalls at hc
  simp only [List.mem_append, List.mem_cons] at hc
  rcases hc with ((hc | rfl | hc) | rfl | hc) | rfl | hc
  · exact hwait hc
  · trivial
  · exact hwait hc
  · exact fun _ _ _ heq => hne (heq.symm.trans (by decide))
  · exact hwait hc
  · exact fun heq => hne (heq.symm.trans (by decide))
  · exact hwait hc

/-- `main` ends. The places where one of the frames is not blank show the first frame, its letter
is there, and nothing else has been printed. -/
theorem fish_leaves_screen (framesStack mainStack : Mp1BlinkStruct) {file0 file1 : List UInt8}
    (hfits : FitsScreen file0 file1) (hfree : ¬Drawn file0 file1 6 20) (vmem : Nat → UInt8)
    {fuel : Nat} (hfuel : 80 * 25 < fuel) (hlong : file0.length + file1.length + 3 < fuel) :
    ∃ f, fishMain fuel framesStack mainStack file0 file1 vmem = some f ∧
      (∀ row col, Drawn file0 file1 row col → placeNum row col < 80 * 25 →
        f.vmem (placeNum row col * 2) = pictureAt file0 row col) ∧
      f.vmem ((6 * 80 + 60) * 2) = 0x49 ∧
      ∀ a, (∀ row col, Drawn file0 file1 row col → placeNum row col < 80 * 25 →
        a ≠ placeNum row col * 2) → a ≠ (6 * 80 + 60) * 2 → f.vmem a = vmem a := by
  obtain ⟨g, p, hg, hp⟩ := exists_addFrames framesStack hfits vmem hlong
  have hletter := hp.letter_free hfits hfree
  have hadded : addedLocations (mainCalls mainStack) = [6 * 80 + 60] := by
    simp only [mainCalls, addedLocations_append, addedLocations_add, addedLocations_sync,
      addedLocations_remove, addedLocations_waitTicks]
    rfl
  obtain ⟨f, hf, hrun⟩ := hp.toHoldsDistinct.exists_run hfuel
    (by rw [hadded]; exact List.nodup_singleton _) fun l hl => by
      rw [hadded, List.mem_singleton] at hl
      subst hl
      exact ⟨by decide, hletter⟩
  refine ⟨f, ?_, fun row col hdrawn hplace => ?_, hp.letter_stays hletter hrun, fun a ha hne => ?_⟩
  · unfold fishMain
    rw [hg]
    exact hf
  · obtain ⟨i, hi, -⟩ := hp.place hfits hdrawn hplace
    have hne : BitVec.ofNat 16 (placeNum row col) ≠ 6 * 80 + 60 := hletter _ hi
    rw [hp.place_shows hfits hdrawn hplace
      (hrun.guarded_of_labels (leavesAlone_mainCalls mainStack hne)), ticks_mainCalls]
    rfl
  · have hcells : ∀ d ∈ frameAdds framesStack file0 file1, d.location.toNat < 80 * 25 →
        a ≠ cellOffset d.location := ne_cell_of_frameAdds hfits ha
    rw [← hp.unprinted a hcells]
    refine hp.toHoldsDistinct.unprinted hrun (fun e he => ?_) fun l hl => ?_
    · obtain ⟨d, hd, hlt, hstarted⟩ := hp.from_added e he
      rw [hstarted]
      exact hcells d hd hlt
    · rw [hadded, List.mem_singleton] at hl
      rw [hl]
      exact hne

/-- The two small frames leave an `A`, a blank and the letter. -/
theorem fish_leaves_screen_small : ∃ f,
    fishMain 2001 zeroBlink zeroBlink [0x41, 0x0A] [0x0A, 0x42] (fun _ => 0) = some f ∧
      f.vmem 80 = 0x41 ∧ f.vmem 240 = 0x20 ∧ f.vmem 1080 = 0x49 := by
  have hfits : FitsScreen [0x41, 0x0A] [0x0A, 0x42] := fitsScreen_of_lines (by decide)
  have hfree : ¬Drawn [0x41, 0x0A] [0x0A, 0x42] 6 20 := by
    unfold Drawn
    decide
  obtain ⟨f, hf, hframes, hletter, -⟩ := fish_leaves_screen zeroBlink zeroBlink hfits hfree
    (fun _ => 0) (by decide : 80 * 25 < 2001) (by decide)
  exact ⟨f, hf, hframes 0 0 (Or.inl (by decide)) (by decide),
    hframes 1 0 (Or.inr (by decide)) (by decide), hletter⟩

end Ece391Kernel
