import Ece391Kernel.Fish.Refinement

/-!
# Characters in their cells

The list of characters and the screen. As long as no two structures are at one location, what a
call prints for one structure leaves the cells of the others alone. Two structures with the same
lengths and in the same phase stay so on every tick.
-/

namespace Ece391Kernel

namespace Blink

/-- The two structures have the same lengths and are at the same point of them. -/
structure InPhase (a b : Blink) : Prop where
  onLength : a.onLength = b.onLength
  offLength : a.offLength = b.offLength
  countdown : a.countdown = b.countdown
  status : a.status = b.status

theorem synced_inPhase (a b : Blink) : a.InPhase (a.synced b) := ⟨rfl, rfl, rfl, rfl⟩

theorem InPhase.tick {a b : Blink} (h : a.InPhase b) : a.tick.InPhase b.tick := by
  have hexpires : a.expires = b.expires := by
    rw [expires, expires, h.countdown]
  have hon : a.isOn = b.isOn := by
    rw [isOn, isOn, h.status]
  unfold Blink.tick
  rw [hexpires, hon, h.onLength, h.offLength, h.countdown, h.status]
  split <;> exact ⟨rfl, rfl, rfl, rfl⟩

/-- What a call leaves of a structure that it spares. -/
def next (b : Blink) : BlinkCall → Blink
  | .tasklet => b.tick
  | _ => b

@[simp] theorem next_location (b : Blink) (c : BlinkCall) : (b.next c).location = b.location := by
  cases c <;> simp [next]

theorem InPhase.next {a b : Blink} (h : a.InPhase b) (c : BlinkCall) :
    (a.next c).InPhase (b.next c) := by
  cases c with
  | tasklet => exact h.tick
  | _ => exact h

end Blink

namespace BlinkList

/-- No two structures are at one location, and none at location 0. -/
def Distinct (p : BlinkList) : Prop :=
  (p.entries.map fun e => e.2.location).Nodup ∧ ∀ e ∈ p.entries, e.2.location ≠ 0

/-- Each structure stands in its cell. -/
def Matches (p : BlinkList) (vmem : Nat → UInt8) : Prop :=
  ∀ e ∈ p.entries, vmem (cellOffset e.2.location) = e.2.shown

section Cells

variable {p : BlinkList} {v : Nat → UInt8} {e e' : BlinkIndex × Blink}

theorem cellOffset_ne {a b : BitVec 16} (h : a ≠ b) : cellOffset a ≠ cellOffset b := by
  intro heq
  unfold cellOffset at heq
  exact h (BitVec.eq_of_toNat_eq (by omega))

theorem Distinct.eq_of_location (h : p.Distinct) (he : e ∈ p.entries) (he' : e' ∈ p.entries)
    (hloc : e.2.location = e'.2.location) : e = e' :=
  List.inj_on_of_nodup_map h.1 he he' hloc

/-- At a location there is one structure to be found. -/
theorem Distinct.find (h : p.Distinct) (he : e ∈ p.entries) : p.find e.2.location = some e := by
  cases hfind : p.find e.2.location with
  | none => exact absurd rfl (find_none hfind e he)
  | some e' =>
      obtain ⟨he', hloc⟩ := find_mem hfind
      rw [h.eq_of_location he' he hloc]

theorem Distinct.safe (h : p.Distinct) (c : BlinkCall) : p.Safe c := by
  cases c with
  | add data => exact fun _ e he hzero => absurd hzero (h.2 e he)
  | _ => trivial

theorem Distinct.map (h : p.Distinct) {g : BlinkIndex → Blink → Blink}
    (hg : ∀ i b, (g i b).location = b.location) : (p.map g).Distinct := by
  constructor
  · have hlocations : ((p.map g).entries.map fun e => e.2.location) =
        p.entries.map fun e => e.2.location := by
      simp [BlinkList.map, hg]
    rw [hlocations]
    exact h.1
  · intro e he
    obtain ⟨b, hb, heq⟩ := mem_map.mp he
    rw [← heq, hg]
    exact h.2 _ hb

/-- What the structures print on a tick is in their cells, and nothing else. -/
theorem foldl_drawn {l : List (BlinkIndex × Blink)} (hl : (l.map fun e => e.2.location).Nodup)
    (v : Nat → UInt8) :
    (∀ e ∈ l, l.foldl (fun v e => if e.2.expires then e.2.tick.drawn v else v) v
        (cellOffset e.2.location) =
      if e.2.expires then e.2.tick.shown else v (cellOffset e.2.location)) ∧
    ∀ a, a ∉ l.map (fun e => e.2.location) →
      l.foldl (fun v e => if e.2.expires then e.2.tick.drawn v else v) v (cellOffset a) =
        v (cellOffset a) := by
  induction l generalizing v with
  | nil => exact ⟨fun e he => absurd he List.not_mem_nil, fun a _ => rfl⟩
  | cons x l ih =>
      obtain ⟨hx, hl⟩ := List.nodup_cons.mp hl
      obtain ⟨hin, hout⟩ := ih hl (if x.2.expires then x.2.tick.drawn v else v)
      have hfirst : ∀ a, a ≠ x.2.location →
          (if x.2.expires then x.2.tick.drawn v else v) (cellOffset a) = v (cellOffset a) := by
        intro a ha
        split
        · exact Function.update_of_ne (cellOffset_ne (by simpa using ha)) _ _
        · rfl
      constructor
      · intro e he
        rw [List.foldl_cons]
        rcases List.mem_cons.mp he with rfl | he
        · rw [hout _ hx]
          cases hexp : e.2.expires with
          | true => simp [Blink.drawn]
          | false => simp
        · have hne : e.2.location ≠ x.2.location := fun heq =>
            hx (List.mem_map.mpr ⟨e, he, heq⟩)
          rw [hin e he, hfirst _ hne]
      · intro a ha
        obtain ⟨hne, ha⟩ := not_or.mp (mt List.mem_cons.mpr ha)
        rw [List.foldl_cons, hout a ha, hfirst a hne]

/-- A synchronisation prints the right character. -/
def SyncShows (p : BlinkList) : BlinkCall → Prop
  | .sync arg => ∀ a b, p.find ((arg >>> 16).setWidth 16) = some a →
      p.find ((arg &&& 0xFFFF).setWidth 16) = some b →
        a.2.isOn = true → b.2.onChar = b.2.offChar
  | _ => True

/-- A structure that is printed at a location of its own. -/
theorem Matches.drawn (h : p.Matches v) {b : Blink} (he : e ∈ p.entries)
    (hne : e.2.location ≠ b.location) : b.drawn v (cellOffset e.2.location) = e.2.shown := by
  rw [Blink.drawn, Function.update_of_ne (cellOffset_ne hne)]
  exact h e he

/-- The off character may stand in the cell of the copy, unless the copy is on and has another on
character. -/
theorem Matches.copied (h : p.Matches v) (hdistinct : p.Distinct) {a b : BlinkIndex × Blink}
    (hb : b ∈ p.entries) (hshown : a.2.isOn = true → b.2.onChar = b.2.offChar) :
    (p.map fun i c => if i = b.1 then a.2.synced c else c).Matches
      (Function.update v (cellOffset b.2.location) b.2.offChar) := by
  intro e he
  obtain ⟨c, hc, hcopy⟩ := mem_map.mp he
  by_cases hi : e.1 = b.1
  · rw [if_pos hi, eq_of_mem hc (hi ▸ hb : (e.1, b.2) ∈ p.entries)] at hcopy
    rw [← hcopy, Blink.synced_location, Function.update_self]
    rw [Blink.shown]
    split
    · rename_i hon
      exact (hshown hon).symm
    · rfl
  · rw [if_neg hi] at hcopy
    rw [← hcopy]
    have hne : c.location ≠ b.2.location := by
      intro heq
      have hentry : (e.1, c) = b := hdistinct.eq_of_location hc hb heq
      exact hi (by rw [← hentry])
    rw [Function.update_of_ne (cellOffset_ne hne)]
    exact h _ hc

/-- A new structure is printed in a cell that no other one has. -/
theorem Matches.inserted (h : p.Matches v) {i : BlinkIndex} {b : Blink} {hi : i ∉ p.indices}
    (hnext : (p.insert i b hi).Distinct) : (p.insert i b hi).Matches (b.drawn v) := by
  obtain ⟨hnew, -⟩ := List.nodup_cons.mp hnext.1
  intro e he
  rcases List.mem_cons.mp he with rfl | he
  · exact Function.update_self _ _ _
  · exact h.drawn he fun heq => hnew (List.mem_map.mpr ⟨e, he, heq⟩)

/-- On a tick the structures that change are printed. -/
theorem Matches.ticked (h : p.Matches v) (hdistinct : p.Distinct) :
    p.tick.Matches
      (p.entries.foldl (fun v e => if e.2.expires then e.2.tick.drawn v else v) v) := by
  obtain ⟨hin, -⟩ := foldl_drawn hdistinct.1 v
  intro e he
  obtain ⟨b, hb, hticked⟩ := mem_map.mp he
  rw [← hticked, Blink.tick_location]
  refine (hin _ hb).trans ?_
  cases hexpires : b.expires with
  | true => rfl
  | false => exact (h _ hb).trans (Blink.tick_shown_of_not_expires hexpires).symm

/-- Each call keeps the structures in their cells, a synchronisation if it prints the right
character. -/
theorem Matches.step (h : p.Matches v) (hdistinct : p.Distinct) {c : BlinkCall}
    (hnext : (p.step c).Distinct) (hshows : p.SyncShows c) :
    (p.step c).Matches (p.printed v c) := by
  cases c with
  | add data =>
      unfold BlinkList.step at hnext ⊢
      unfold printed
      simp only at hnext ⊢
      by_cases hloc : data.location.toNat < 80 * 25
      · rw [if_pos hloc] at hnext ⊢
        cases hfree : p.firstFree with
        | none =>
            rw [add_eq_self hfree, if_neg (by simp)]
            exact h
        | some i =>
            rw [add_eq_insert hfree] at hnext ⊢
            rw [if_pos ⟨hloc, rfl⟩]
            exact h.inserted hnext
      · rw [if_neg hloc, if_neg fun hboth => hloc hboth.1]
        exact h
  | remove arg => exact fun e he => h e (mem_of_mem_remove he)
  | find data => exact h
  | sync arg =>
      unfold BlinkList.step BlinkList.sync printed
      simp only
      cases hsource : p.find ((arg >>> 16).setWidth 16) with
      | none => exact h
      | some a =>
          cases htarget : p.find ((arg &&& 0xFFFF).setWidth 16) with
          | none => exact h
          | some b => exact h.copied hdistinct (find_mem htarget).1 (hshows a b hsource htarget)
  | tasklet => exact h.ticked hdistinct

/-- If the structures are in their cells after a synchronisation, it has printed the right
character. -/
theorem Matches.syncShows {arg : BitVec 32}
    (h : (p.step (.sync arg)).Matches (p.printed v (.sync arg))) : p.SyncShows (.sync arg) := by
  intro a b hsource htarget hon
  have hb := (find_mem htarget).1
  unfold BlinkList.step BlinkList.sync printed at h
  simp only [hsource, htarget] at h
  have hcell := h (b.1, a.2.synced b.2) (mem_map.mpr ⟨b.2, hb, if_pos rfl⟩)
  rw [Blink.synced_location, Function.update_self] at hcell
  have hshown : (a.2.synced b.2).shown = b.2.onChar := if_pos hon
  exact (hcell.trans hshown).symm

theorem Distinct.sync (h : p.Distinct) (source target : BitVec 16) :
    (p.sync source target).Distinct := by
  unfold BlinkList.sync
  split
  · refine h.map fun i c => ?_
    split <;> rfl
  · exact h

end Cells

/-! ## Structures that are left alone -/

/-- The call neither removes a structure at the location nor synchronises it. -/
def Spares (p : BlinkList) (location : BitVec 16) : BlinkCall → Prop
  | .remove arg => arg.setWidth 16 ≠ location
  | .sync arg => (p.find ((arg >>> 16).setWidth 16)).isSome ∧
      (p.find ((arg &&& 0xFFFF).setWidth 16)).isSome → (arg &&& 0xFFFF).setWidth 16 ≠ location
  | _ => True

theorem mem_step {p : BlinkList} {i : BlinkIndex} {b : Blink} {c : BlinkCall}
    (hb : (i, b) ∈ p.entries) (hspares : p.Spares b.location c) :
    (i, b.next c) ∈ (p.step c).entries := by
  cases c with
  | add data =>
      unfold BlinkList.step
      simp only
      split
      · cases hfree : p.firstFree with
        | none =>
            rw [add_eq_self hfree]
            exact hb
        | some j =>
            rw [add_eq_insert hfree]
            exact List.mem_cons_of_mem _ hb
      · exact hb
  | remove arg => exact mem_remove_of_ne hb hspares.symm
  | find data => exact hb
  | sync arg =>
      unfold BlinkList.step BlinkList.sync
      simp only
      cases hsource : p.find ((arg >>> 16).setWidth 16) with
      | none => exact hb
      | some a =>
          cases htarget : p.find ((arg &&& 0xFFFF).setWidth 16) with
          | none => exact hb
          | some e =>
              obtain ⟨he, hloc⟩ := find_mem htarget
              refine mem_map.mpr ⟨b, hb, if_neg ?_⟩
              rintro rfl
              rw [eq_of_mem hb he] at hspares
              exact hspares ⟨Option.isSome_of_eq_some hsource, Option.isSome_of_eq_some htarget⟩
                hloc.symm
  | tasklet => exact mem_map.mpr ⟨b, hb, rfl⟩

/-- A synchronisation leaves the source as it is, and the target in phase with it. -/
theorem mem_sync {p : BlinkList} {source target : BitVec 16} {a b : BlinkIndex × Blink}
    (hsource : p.find source = some a) (htarget : p.find target = some b) :
    a ∈ (p.sync source target).entries ∧
      (b.1, a.2.synced b.2) ∈ (p.sync source target).entries := by
  have ha := (find_mem hsource).1
  have hb := (find_mem htarget).1
  unfold BlinkList.sync
  simp only [hsource, htarget]
  refine ⟨mem_map.mpr ⟨a.2, ha, ?_⟩, mem_map.mpr ⟨b.2, hb, if_pos rfl⟩⟩
  split <;> rfl

end BlinkList

end Ece391Kernel
