import Ece391Kernel.Library.LinkedStack

/-!
# Singly linked lists

Nodes of one pool, each with a pointer to its successor, and a pointer to the first node of a
list. The pointers may form a cycle, so the loops over a list take fuel and may run out of it.
`Chain` says that a pointer leads along the nodes of a list to the null pointer; then the list is
determined, no node is in it twice, and with fuel for one step more than its length each loop
does what it should. The walk that looks for the place of a pointer goes over places, the first
pointer and the successors of the nodes, so that the place found can be overwritten.
-/

namespace LinkedList

open LinkedStack

variable {ι σ : Type*}

/-- The pointer leads along the nodes of the list to the null pointer. -/
abbrev Chain (next : ι → Option ι) : Option ι → List ι → Prop :=
  Linked some none (Option.bind · next)

section Chain

variable {next next' : ι → Option ι} {p : Option ι} {n : ι} {l l' : List ι}

theorem chain_nil : Chain next p [] ↔ p = none :=
  ⟨fun h => h.eq_null_iff.mpr rfl, fun h => h ▸ Linked.nil⟩

theorem chain_cons : Chain next p (n :: l) ↔ p = some n ∧ Chain next (next n) l := by
  constructor
  · intro h
    exact ⟨h.top.1, h.rest⟩
  · rintro ⟨rfl, h⟩
    exact Linked.cons (Option.some_ne_none n) h

theorem Chain.eq_nil (h : Chain next none l) : l = [] := h.eq_null_iff.mp rfl

theorem Chain.exists_cons (h : Chain next (some n) l) :
    ∃ l', l = n :: l' ∧ Chain next (next n) l' := by
  cases l with
  | nil => exact absurd (chain_nil.mp h) (Option.some_ne_none n)
  | cons m l =>
      obtain ⟨heq, hrest⟩ := chain_cons.mp h
      obtain rfl := Option.some.inj heq
      exact ⟨l, rfl, hrest⟩

/-- A pointer leads along one list only. -/
theorem Chain.unique (h : Chain next p l) (h' : Chain next p l') : l = l' := by
  induction l generalizing p l' with
  | nil =>
      obtain rfl := chain_nil.mp h
      exact h'.eq_nil.symm
  | cons n l ih =>
      obtain ⟨rfl, hrest⟩ := chain_cons.mp h
      obtain ⟨l'', rfl, hrest'⟩ := h'.exists_cons
      rw [ih hrest hrest']

theorem Chain.suffix {a : List ι} (h : Chain next p (a ++ n :: l)) : Chain next (next n) l := by
  induction a generalizing p with
  | nil => exact (chain_cons.mp h).2
  | cons m a ih => exact ih (chain_cons.mp h).2

/-- A node that came twice would come again and again. -/
theorem Chain.nodup (h : Chain next p l) : l.Nodup := by
  induction l generalizing p with
  | nil => exact List.nodup_nil
  | cons n l ih =>
      have hrest := (chain_cons.mp h).2
      refine List.nodup_cons.mpr ⟨fun hmem => ?_, ih hrest⟩
      obtain ⟨a, b, rfl⟩ := List.append_of_mem hmem
      have hlength := congrArg List.length (hrest.unique hrest.suffix)
      simp at hlength
      omega

/-- Putting a node in front that is not in the list. -/
theorem Chain.push [DecidableEq ι] (h : Chain next p l) (hn : n ∉ l) :
    Chain (Function.update next n p) (some n) (n :: l) := by
  rw [chain_cons, Function.update_self]
  refine ⟨rfl, h.congr fun m hm => ?_⟩
  have hne : m ≠ n := fun heq => hn (heq ▸ hm)
  exact Function.update_of_ne hne p next

/-- Where only the successor of `n` is another one, a list that leads to `n` still does. -/
theorem Chain.mem_of_agree (h : Chain next p l) (hn : n ∈ l)
    (hsame : ∀ m, m ≠ n → next' m = next m) (h' : Chain next' p l') : n ∈ l' := by
  induction l generalizing p l' with
  | nil => exact absurd hn List.not_mem_nil
  | cons m l ih =>
      obtain ⟨rfl, hrest⟩ := chain_cons.mp h
      obtain ⟨l'', rfl, hrest'⟩ := h'.exists_cons
      by_cases hm : m = n
      · exact hm ▸ List.mem_cons_self
      · rw [hsame m hm] at hrest'
        exact List.mem_cons_of_mem m
          (ih hrest ((List.mem_cons.mp hn).resolve_left (Ne.symm hm)) hrest')

/-- Putting a node in front that is in the list already makes a cycle. -/
theorem Chain.not_push [DecidableEq ι] (h : Chain next p l) (hn : n ∈ l) :
    ¬Chain (Function.update next n p) (some n) l' := by
  intro h'
  obtain ⟨l'', rfl, hrest⟩ := h'.exists_cons
  rw [Function.update_self] at hrest
  have hmem := h.mem_of_agree hn (fun m hm => Function.update_of_ne hm p next) hrest
  exact (List.nodup_cons.mp h'.nodup).1 hmem

end Chain

/-! ## Loops over a list -/

section Loops

variable {next : ι → Option ι} {p : Option ι} {n : ι} {l : List ι} {fuel : Nat}

/-- The first node that meets a condition; `none` without enough fuel. -/
def search (next : ι → Option ι) (found : ι → Bool) : Nat → Option ι → Option (Option ι)
  | 0, _ => none
  | _ + 1, none => some none
  | fuel + 1, some n => if found n then some (some n) else search next found fuel (next n)

theorem Chain.search_eq (h : Chain next p l) (found : ι → Bool) (hfuel : l.length < fuel) :
    search next found fuel p = some (l.find? found) := by
  induction l generalizing p fuel with
  | nil =>
      obtain ⟨fuel, rfl⟩ := Nat.exists_eq_add_one_of_ne_zero (Nat.ne_zero_of_lt hfuel)
      rw [chain_nil.mp h]
      rfl
  | cons n l ih =>
      obtain ⟨fuel, rfl⟩ := Nat.exists_eq_add_one_of_ne_zero (Nat.ne_zero_of_lt hfuel)
      obtain ⟨rfl, hrest⟩ := chain_cons.mp h
      rw [search, List.find?_cons]
      cases found n with
      | true => rfl
      | false => exact ih hrest (Nat.lt_of_succ_lt_succ hfuel)

/-- More fuel does not change what is found. -/
theorem search_mono {found : ι → Bool} {r : Option ι} (h : search next found fuel p = some r) :
    ∀ fuel' ≥ fuel, search next found fuel' p = some r := by
  induction fuel generalizing p with
  | zero => exact absurd h (by simp [search])
  | succ fuel ih =>
      intro fuel' hle
      obtain ⟨fuel', rfl⟩ := Nat.exists_eq_add_one_of_ne_zero (Nat.ne_zero_of_lt hle)
      cases p with
      | none => exact h
      | some n =>
          rw [search] at h ⊢
          split
          · rename_i hn
            rwa [if_pos hn] at h
          · rename_i hn
            rw [if_neg hn] at h
            exact ih h fuel' (Nat.le_of_succ_le_succ hle)

/-- Do a step at every node, and then go on to the successor that it has. -/
def forEach (next : σ → ι → Option ι) (step : ι → σ → σ) : Nat → Option ι → σ → Option σ
  | 0, _, _ => none
  | _ + 1, none, s => some s
  | fuel + 1, some n, s => forEach next step fuel (next (step n s) n) (step n s)

section ForEach

variable {next : σ → ι → Option ι} {step : ι → σ → σ}

theorem Chain.forEach_eq (hkeep : ∀ n s, next (step n s) = next s) {s : σ}
    (h : Chain (next s) p l) (hfuel : l.length < fuel) :
    forEach next step fuel p s = some (l.foldl (fun s n => step n s) s) := by
  induction l generalizing p s fuel with
  | nil =>
      obtain ⟨fuel, rfl⟩ := Nat.exists_eq_add_one_of_ne_zero (Nat.ne_zero_of_lt hfuel)
      rw [chain_nil.mp h]
      rfl
  | cons n l ih =>
      obtain ⟨fuel, rfl⟩ := Nat.exists_eq_add_one_of_ne_zero (Nat.ne_zero_of_lt hfuel)
      obtain ⟨rfl, hrest⟩ := chain_cons.mp h
      rw [forEach, List.foldl_cons]
      rw [← hkeep n s] at hrest
      exact ih hrest (Nat.lt_of_succ_lt_succ hfuel)

theorem forEach_mono {s s' : σ} (h : forEach next step fuel p s = some s') :
    ∀ fuel' ≥ fuel, forEach next step fuel' p s = some s' := by
  induction fuel generalizing p s with
  | zero => exact absurd h (by simp [forEach])
  | succ fuel ih =>
      intro fuel' hle
      obtain ⟨fuel', rfl⟩ := Nat.exists_eq_add_one_of_ne_zero (Nat.ne_zero_of_lt hle)
      cases p with
      | none => exact h
      | some n => exact ih h fuel' (Nat.le_of_succ_le_succ hle)

/-- Where the loop ends, the pointers form a list. -/
theorem exists_chain_of_forEach (hkeep : ∀ n s, next (step n s) = next s) {s s' : σ}
    (h : forEach next step fuel p s = some s') : ∃ l, Chain (next s) p l := by
  induction fuel generalizing p s with
  | zero => exact absurd h (by simp [forEach])
  | succ fuel ih =>
      cases p with
      | none => exact ⟨[], chain_nil.mpr rfl⟩
      | some n =>
          obtain ⟨l, hl⟩ := ih h
          rw [hkeep] at hl
          exact ⟨n :: l, chain_cons.mpr ⟨rfl, hl⟩⟩

end ForEach

end Loops

/-! ## Places of pointers -/

/-- The pointer to the first node, and those to the successors. -/
structure Links (ι : Type*) where
  head : Option ι
  next : ι → Option ι

/-- The place of a pointer. -/
inductive Place (ι : Type*)
  | head
  | next (n : ι)

namespace Links

def get (s : Links ι) : Place ι → Option ι
  | .head => s.head
  | .next n => s.next n

variable [DecidableEq ι]

def set (s : Links ι) (a : Place ι) (p : Option ι) : Links ι :=
  match a with
  | .head => { s with head := p }
  | .next n => { s with next := Function.update s.next n p }

/-- The place of the pointer to `n`, looked for from a place on; `none` without enough fuel, or
where the list ends before. -/
def findPlace (s : Links ι) (n : ι) : Nat → Place ι → Option (Place ι)
  | 0, _ => none
  | fuel + 1, a =>
      if s.get a = some n then some a
      else (s.get a).bind fun m => findPlace s n fuel (.next m)

theorem get_set_self (s : Links ι) (a : Place ι) (p : Option ι) : (s.set a p).get a = p := by
  cases a with
  | head => rfl
  | next n => exact Function.update_self n p s.next

theorem get_set_of_ne (s : Links ι) {a c : Place ι} (h : c ≠ a) (p : Option ι) :
    (s.set a p).get c = s.get c := by
  cases a with
  | head =>
      cases c with
      | head => exact absurd rfl h
      | next m => rfl
  | next n =>
      cases c with
      | head => rfl
      | next m =>
          have hne : m ≠ n := fun heq => h (congrArg Place.next heq)
          exact Function.update_of_ne hne p s.next

/-- The pointer to a node of the list is found, and is in the place looked at first or in a node
of the list; with the pointer to the successor there the node is out of the list. -/
theorem exists_findPlace {s : Links ι} {n : ι} {a : Place ι} {l : List ι} {fuel : Nat}
    (h : Chain s.next (s.get a) l) (hn : n ∈ l) (ha : ∀ m, a = .next m → m ∉ l)
    (hfuel : l.length ≤ fuel) :
    ∃ c, s.findPlace n fuel a = some c ∧ (c = a ∨ ∃ m ∈ l, c = .next m) ∧
      Chain (s.set c (s.next n)).next ((s.set c (s.next n)).get a) (l.erase n) := by
  induction l generalizing a fuel with
  | nil => exact absurd hn List.not_mem_nil
  | cons m l ih =>
      obtain ⟨fuel, rfl⟩ := Nat.exists_eq_add_one_of_ne_zero
        (Nat.ne_zero_of_lt (Nat.lt_of_lt_of_le (Nat.zero_lt_succ _) hfuel))
      obtain ⟨hget, hrest⟩ := chain_cons.mp h
      rw [findPlace, hget]
      by_cases hm : m = n
      · subst hm
        refine ⟨a, if_pos rfl, Or.inl rfl, ?_⟩
        rw [List.erase_cons_head, get_set_self]
        refine hrest.congr fun k hk => ?_
        have hne : Place.next k ≠ a := fun heq => ha k heq.symm (List.mem_cons_of_mem m hk)
        exact get_set_of_ne s hne (s.next m)
      · have hm' : m ∉ l := (List.nodup_cons.mp h.nodup).1
        obtain ⟨c, hfind, hplace, hchain⟩ := ih (a := .next m) hrest
          ((List.mem_cons.mp hn).resolve_left (Ne.symm hm))
          (fun k hk => by cases hk; exact hm') (Nat.le_of_succ_le_succ hfuel)
        refine ⟨c, ?_, ?_, ?_⟩
        · rw [if_neg (fun heq => hm (Option.some.inj heq))]
          exact hfind
        · rcases hplace with rfl | ⟨k, hk, rfl⟩
          · exact Or.inr ⟨m, List.mem_cons_self, rfl⟩
          · exact Or.inr ⟨k, List.mem_cons_of_mem m hk, rfl⟩
        · have hne : a ≠ c := by
            rintro rfl
            rcases hplace with rfl | ⟨k, hk, rfl⟩
            · exact ha m rfl List.mem_cons_self
            · exact ha k rfl (List.mem_cons_of_mem m hk)
          rw [List.erase_cons_tail (by simpa using hm), chain_cons, get_set_of_ne s hne]
          exact ⟨hget, hchain⟩

theorem findPlace_mono {s : Links ι} {n : ι} {a c : Place ι} {fuel : Nat}
    (h : s.findPlace n fuel a = some c) : ∀ fuel' ≥ fuel, s.findPlace n fuel' a = some c := by
  induction fuel generalizing a with
  | zero => exact absurd h (by simp [findPlace])
  | succ fuel ih =>
      intro fuel' hle
      obtain ⟨fuel', rfl⟩ := Nat.exists_eq_add_one_of_ne_zero (Nat.ne_zero_of_lt hle)
      rw [findPlace] at h ⊢
      split
      · rename_i hn
        rwa [if_pos hn] at h
      · rename_i hn
        rw [if_neg hn] at h
        obtain ⟨m, hm, hrest⟩ := Option.bind_eq_some_iff.mp h
        rw [hm]
        exact ih hrest fuel' (Nat.le_of_succ_le_succ hle)

end Links

end LinkedList
