import Ece391Kernel.Fish.Blink

/-!
# The list of blinking characters

What the structures are for: the characters that have been added and not yet removed, the newest
first, each in an entry of the array that no other one is in. Here an entry is free if it is not
in use, whatever it holds. A structure shows one of its characters, and counts down to the tick on
which it changes to the other.
-/

namespace Ece391Kernel

namespace Blink

/-- A structure as it is when it has been added. -/
def started (b : Blink) : Blink := { b with countdown := b.onLength, status := 1 }

def isOn (b : Blink) : Bool := b.status.getLsbD 0

/-- The character that a structure stands for. -/
def shown (b : Blink) : UInt8 := if b.isOn then b.onChar else b.offChar

/-- The next tick changes the character. -/
def expires (b : Blink) : Bool := !(0#16).slt (b.countdown - 1)

def tick (b : Blink) : Blink :=
  if b.expires then
    { b with countdown := if b.isOn then b.offLength else b.onLength, status := b.status ^^^ 1 }
  else { b with countdown := b.countdown - 1 }

/-- The second structure with the lengths and the phase of the first. -/
def synced (a b : Blink) : Blink :=
  { b with
    onLength := a.onLength
    offLength := a.offLength
    countdown := a.countdown
    status := a.status }

/-- The character is on the screen, at the location. -/
def drawn (b : Blink) (vmem : Nat → UInt8) : Nat → UInt8 :=
  Function.update vmem (cellOffset b.location) b.shown

@[simp] theorem synced_location (a b : Blink) : (a.synced b).location = b.location := rfl

@[simp] theorem tick_location (b : Blink) : b.tick.location = b.location := by
  unfold tick
  split <;> rfl

theorem started_shown (b : Blink) : b.started.shown = b.onChar := by
  simp [shown, isOn, started]

theorem tick_of_expires {b : Blink} (h : b.expires = true) :
    b.tick = { b with
      countdown := if b.isOn then b.offLength else b.onLength
      status := b.status ^^^ 1 } := if_pos h

/-- The character changes to the other one. -/
theorem tick_shown_of_expires {b : Blink} (h : b.expires = true) :
    b.tick.shown = if b.isOn then b.offChar else b.onChar := by
  have htoggled : b.tick.isOn = !b.isOn := by
    simp [tick_of_expires h, isOn]
  rw [shown, htoggled, tick_of_expires h]
  cases b.isOn <;> rfl

theorem tick_shown_of_not_expires {b : Blink} (h : b.expires = false) : b.tick.shown = b.shown := by
  rw [tick, h, if_neg Bool.false_ne_true]
  rfl

end Blink

/-- The structures in use, with the indices of their entries. -/
structure BlinkList where
  entries : List (BlinkIndex × Blink)
  nodup : (entries.map Prod.fst).Nodup

namespace BlinkList

def empty : BlinkList := ⟨[], List.nodup_nil⟩

def indices (p : BlinkList) : List BlinkIndex := p.entries.map Prod.fst

/-- The first entry that is not in use. -/
def firstFree (p : BlinkList) : Option BlinkIndex :=
  (List.finRange (80 * 25)).find? fun i => i ∉ p.indices

/-- The newest structure at a location. -/
def find (location : BitVec 16) (p : BlinkList) : Option (BlinkIndex × Blink) :=
  p.entries.find? fun e => e.2.location = location

/-- A structure in an entry that is not in use. -/
def insert (i : BlinkIndex) (b : Blink) (p : BlinkList) (h : i ∉ p.indices) : BlinkList :=
  ⟨(i, b) :: p.entries, List.nodup_cons.mpr ⟨h, p.nodup⟩⟩

theorem firstFree_not_mem {p : BlinkList} {i : BlinkIndex} (h : p.firstFree = some i) :
    i ∉ p.indices := by
  simpa using List.find?_some h

/-- A structure in the first entry that is not in use. -/
def add (b : Blink) (p : BlinkList) : BlinkList :=
  match h : p.firstFree with
  | none => p
  | some i => p.insert i b (firstFree_not_mem h)

def remove (location : BitVec 16) (p : BlinkList) : BlinkList :=
  ⟨p.entries.eraseP fun e => e.2.location = location,
    p.nodup.sublist ((List.eraseP_sublist).map Prod.fst)⟩

/-- Other structures in the same entries. -/
def map (g : BlinkIndex → Blink → Blink) (p : BlinkList) : BlinkList :=
  ⟨p.entries.map fun e => (e.1, g e.1 e.2), by
    rw [List.map_map]
    exact p.nodup⟩

/-- The structure at the second location goes on as that at the first. -/
def sync (source target : BitVec 16) (p : BlinkList) : BlinkList :=
  match p.find source, p.find target with
  | some a, some b => p.map fun i c => if i = b.1 then a.2.synced c else c
  | _, _ => p

def tick (p : BlinkList) : BlinkList := p.map fun _ => Blink.tick

/-- What a call does to the structures. -/
def step (p : BlinkList) : BlinkCall → BlinkList
  | .add data => if data.location.toNat < 80 * 25 then p.add data.toBlink.started else p
  | .remove arg => p.remove (arg.setWidth 16)
  | .find _ => p
  | .sync arg => p.sync ((arg >>> 16).setWidth 16) ((arg &&& 0xFFFF).setWidth 16)
  | .tasklet => p.tick

/-- The structures that the calls have added and not removed. -/
def after (calls : List BlinkCall) : BlinkList := calls.foldl step empty

theorem after_concat (calls : List BlinkCall) (c : BlinkCall) :
    after (calls ++ [c]) = (after calls).step c := by
  rw [after, List.foldl_concat, after]

/-! ## Indices and locations -/

section Lemmas

variable {p : BlinkList} {i : BlinkIndex} {e : BlinkIndex × Blink}

theorem mem_indices (h : e ∈ p.entries) : e.1 ∈ p.indices := List.mem_map_of_mem h

theorem exists_of_mem_indices (h : i ∈ p.indices) : ∃ b, (i, b) ∈ p.entries := by
  obtain ⟨⟨j, b⟩, hmem, rfl⟩ := List.mem_map.mp h
  exact ⟨b, hmem⟩

/-- An entry holds one structure. -/
theorem eq_of_mem {b c : Blink} (hb : (i, b) ∈ p.entries) (hc : (i, c) ∈ p.entries) : b = c :=
  congrArg Prod.snd (List.inj_on_of_nodup_map p.nodup hb hc rfl)

theorem length_indices_le (p : BlinkList) : p.indices.length ≤ 80 * 25 := by
  have hcard := p.nodup.length_le_card
  rwa [Fintype.card_fin] at hcard

/-- The first entry that meets a condition. -/
theorem find?_finRange {n : Nat} {q : Fin n → Bool} {i : Fin n} :
    (List.finRange n).find? q = some i ↔ q i ∧ ∀ j < i, q j = false := by
  rw [List.find?_eq_some_iff_getElem]
  simp only [List.getElem_finRange]
  constructor
  · rintro ⟨hi, k, hk, rfl, hbefore⟩
    refine ⟨hi, fun j hj => ?_⟩
    simpa using hbefore j hj
  · rintro ⟨hi, hbefore⟩
    refine ⟨hi, i, by simp, by simp, fun j hj => ?_⟩
    simpa using hbefore ⟨j, by omega⟩ hj

@[simp] theorem indices_map (g : BlinkIndex → Blink → Blink) : (p.map g).indices = p.indices := by
  simp [indices, map]

theorem mem_map {g : BlinkIndex → Blink → Blink} :
    e ∈ (p.map g).entries ↔ ∃ b, (e.1, b) ∈ p.entries ∧ g e.1 b = e.2 := by
  simp only [map, List.mem_map, Prod.exists]
  constructor
  · rintro ⟨j, b, hmem, rfl⟩
    exact ⟨b, hmem, rfl⟩
  · rintro ⟨b, hmem, heq⟩
    exact ⟨e.1, b, hmem, by rw [heq]⟩

theorem add_eq_insert {b : Blink} (h : p.firstFree = some i) :
    p.add b = p.insert i b (firstFree_not_mem h) := by
  unfold add
  split
  · rename_i hnone
    rw [h] at hnone
    cases hnone
  · rename_i j hsome
    obtain rfl := Option.some.inj (h.symm.trans hsome)
    rfl

theorem add_eq_self {b : Blink} (h : p.firstFree = none) : p.add b = p := by
  unfold add
  split
  · rfl
  · rename_i j hsome
    rw [h] at hsome
    cases hsome

/-! ### Removal -/

theorem find_mem {location : BitVec 16} (h : p.find location = some e) :
    e ∈ p.entries ∧ e.2.location = location :=
  ⟨List.mem_of_find?_eq_some h, by simpa using List.find?_some h⟩

theorem find_none {location : BitVec 16} (h : p.find location = none) :
    ∀ e ∈ p.entries, e.2.location ≠ location := by
  simpa [find] using h

theorem remove_eq_self {location : BitVec 16} (h : p.find location = none) :
    p.remove location = p := by
  have hentries : p.entries.eraseP (fun e => e.2.location = location) = p.entries :=
    List.eraseP_of_forall_not fun e he => by simpa using find_none h e he
  unfold remove
  simp only [hentries]

/-- Only the entry of the newest structure at the location is given up. -/
theorem indices_remove {location : BitVec 16} (h : p.find location = some e) :
    (p.remove location).indices = p.indices.erase e.1 := by
  obtain ⟨l, hnodup⟩ := p
  unfold find at h
  unfold remove indices
  simp only at h ⊢
  induction l with
  | nil => cases h
  | cons x l ih =>
      by_cases hx : x.2.location = location
      · rw [List.find?_cons_of_pos (by simpa using hx)] at h
        obtain rfl := Option.some.inj h
        rw [List.eraseP_cons_of_pos (by simpa using hx), List.map_cons, List.erase_cons_head]
      · rw [List.find?_cons_of_neg (by simpa using hx)] at h
        obtain ⟨hnot, hrest⟩ := List.nodup_cons.mp hnodup
        have hne : x.1 ≠ e.1 := fun heq =>
          hnot (heq ▸ List.mem_map_of_mem (List.mem_of_find?_eq_some h))
        rw [List.eraseP_cons_of_neg (by simpa using hx), List.map_cons, List.map_cons, ih hrest h,
          List.erase_cons_tail (by simpa using hne)]

theorem mem_of_mem_remove {location : BitVec 16} (h : e ∈ (p.remove location).entries) :
    e ∈ p.entries := List.mem_of_mem_eraseP h

theorem mem_remove_of_ne {location : BitVec 16} (h : e ∈ p.entries)
    (hne : e.2.location ≠ location) : e ∈ (p.remove location).entries := by
  refine (List.mem_eraseP_of_neg ?_).mpr h
  simpa using hne

end Lemmas

end BlinkList

end Ece391Kernel
