import Mathlib.Data.List.Basic
import Mathlib.Data.Fintype.BigOperators
import Mathlib.Data.Fintype.Card
import Mathlib.Data.Finset.Card
import Mathlib.Algebra.BigOperators.Group.Finset.Basic

/-!
# Stacks of nodes

Stacks whose nodes come from one pool: no node is twice on a stack or on two
stacks. `Stacks` carries this in its fields, so that pushing asks for a node
that is on no stack.

A stack can be kept as a linked list: every node has a place, which holds the
place of the node below, and a null place ends the list. `Linked` relates the
place of the top node to the list of the nodes.
-/

namespace LinkedStack

/-! ## The stacks -/

/-- One stack for each `τ`, of nodes of `ι`. -/
structure Stacks (τ ι : Type*) where
  on : τ → List ι
  nodup : ∀ t, (on t).Nodup
  disjoint : ∀ t u, t ≠ u → ∀ n ∈ on t, n ∉ on u

namespace Stacks

section Operations

variable {τ ι : Type*}

/-- The node is on some stack. -/
def Owned (s : Stacks τ ι) (n : ι) : Prop := ∃ t, n ∈ s.on t

def empty : Stacks τ ι where
  on := fun _ => []
  nodup := fun _ => List.nodup_nil
  disjoint := fun _ _ _ n hn => absurd hn (List.not_mem_nil (a := n))

variable [DecidableEq τ]

/-- Push a node that is on no stack. -/
def push (s : Stacks τ ι) (t : τ) (n : ι) (h : ¬s.Owned n) : Stacks τ ι where
  on := Function.update s.on t (n :: s.on t)
  nodup := by
    intro u
    by_cases hu : u = t
    · rw [hu, Function.update_self]
      exact List.nodup_cons.mpr ⟨fun hn => h ⟨t, hn⟩, s.nodup t⟩
    · rw [Function.update_of_ne hu]
      exact s.nodup u
  disjoint := by
    intro u v huv m hm
    by_cases hu : u = t
    · have hv : v ≠ t := fun hv => huv (hu.trans hv.symm)
      rw [hu, Function.update_self] at hm
      rw [Function.update_of_ne hv]
      rcases List.mem_cons.mp hm with rfl | hm
      · exact fun hn => h ⟨v, hn⟩
      · exact s.disjoint t v (Ne.symm hv) m hm
    · rw [Function.update_of_ne hu] at hm
      by_cases hv : v = t
      · rw [hv, Function.update_self]
        intro hmem
        rcases List.mem_cons.mp hmem with rfl | hmem
        · exact h ⟨u, hm⟩
        · exact s.disjoint u t hu m hm hmem
      · rw [Function.update_of_ne hv]
        exact s.disjoint u v huv m hm

/-- Take the top node off a stack. -/
def pop (s : Stacks τ ι) (t : τ) : Stacks τ ι where
  on := Function.update s.on t (s.on t).tail
  nodup := by
    intro u
    by_cases hu : u = t
    · rw [hu, Function.update_self]
      exact (s.nodup t).tail
    · rw [Function.update_of_ne hu]
      exact s.nodup u
  disjoint := by
    have hsub : ∀ u, ∀ m ∈ Function.update s.on t (s.on t).tail u, m ∈ s.on u := by
      intro u m hm
      by_cases hu : u = t
      · rw [hu, Function.update_self] at hm
        rw [hu]
        exact List.mem_of_mem_tail hm
      · rwa [Function.update_of_ne hu] at hm
    exact fun u v huv m hm hm' => s.disjoint u v huv m (hsub u m hm) (hsub v m hm')

@[simp] theorem push_on_self (s : Stacks τ ι) (t : τ) (n : ι) (h : ¬s.Owned n) :
    (s.push t n h).on t = n :: s.on t := Function.update_self t _ _

theorem push_on_ne (s : Stacks τ ι) {t u : τ} (n : ι) (h : ¬s.Owned n) (hu : u ≠ t) :
    (s.push t n h).on u = s.on u := Function.update_of_ne hu _ _

@[simp] theorem pop_on_self (s : Stacks τ ι) (t : τ) : (s.pop t).on t = (s.on t).tail :=
  Function.update_self t _ _

theorem pop_on_ne (s : Stacks τ ι) {t u : τ} (hu : u ≠ t) : (s.pop t).on u = s.on u :=
  Function.update_of_ne hu _ _

theorem push_owned (s : Stacks τ ι) (t : τ) (n : ι) (h : ¬s.Owned n) (m : ι) :
    (s.push t n h).Owned m ↔ m = n ∨ s.Owned m := by
  constructor
  · rintro ⟨u, hm⟩
    by_cases hu : u = t
    · rw [hu, push_on_self] at hm
      rcases List.mem_cons.mp hm with rfl | hm
      · exact Or.inl rfl
      · exact Or.inr ⟨t, hm⟩
    · rw [push_on_ne s n h hu] at hm
      exact Or.inr ⟨u, hm⟩
  · rintro (rfl | ⟨u, hm⟩)
    · exact ⟨t, by simp⟩
    · by_cases hu : u = t
      · exact ⟨t, by rw [push_on_self]; exact List.mem_cons_of_mem n (hu ▸ hm)⟩
      · exact ⟨u, by rwa [push_on_ne s n h hu]⟩

theorem pop_owned (s : Stacks τ ι) {t : τ} {n : ι} {l : List ι} (htop : s.on t = n :: l) (m : ι) :
    (s.pop t).Owned m ↔ m ≠ n ∧ s.Owned m := by
  have hnodup := s.nodup t
  rw [htop] at hnodup
  obtain ⟨hn, -⟩ := List.nodup_cons.mp hnodup
  constructor
  · rintro ⟨u, hm⟩
    by_cases hu : u = t
    · rw [hu, pop_on_self, htop] at hm
      exact ⟨fun heq => hn (heq ▸ hm), t, by rw [htop]; exact List.mem_cons_of_mem n hm⟩
    · rw [pop_on_ne s hu] at hm
      refine ⟨fun heq => s.disjoint u t hu m hm ?_, u, hm⟩
      rw [htop, heq]
      exact List.mem_cons_self
  · rintro ⟨hne, u, hm⟩
    by_cases hu : u = t
    · rw [hu, htop] at hm
      rcases List.mem_cons.mp hm with heq | hm
      · exact absurd heq hne
      · exact ⟨t, by rw [pop_on_self, htop]; exact hm⟩
    · exact ⟨u, by rwa [pop_on_ne s hu]⟩

end Operations

section Live

variable {τ ι : Type*} [Fintype τ] [DecidableEq ι]

/-- The nodes on the stacks. -/
def live (s : Stacks τ ι) : Finset ι := Finset.univ.biUnion fun t => (s.on t).toFinset

theorem mem_live (s : Stacks τ ι) (n : ι) : n ∈ s.live ↔ s.Owned n := by
  simp [live, Owned]

/-- Every node on the stacks is counted once. -/
theorem card_live (s : Stacks τ ι) : s.live.card = ∑ t, (s.on t).length := by
  unfold live
  rw [Finset.card_biUnion]
  · exact Finset.sum_congr rfl fun t _ => List.toFinset_card_of_nodup (s.nodup t)
  · intro t _ u _ htu
    exact Finset.disjoint_left.mpr fun n hn hn' =>
      s.disjoint t u htu n (List.mem_toFinset.mp hn) (List.mem_toFinset.mp hn')

end Live

end Stacks

/-! ## The linked lists -/

/-- From the place `a` on, the places of the nodes `l` are linked down to the null
place. -/
inductive Linked {ι α : Type*} (place : ι → α) (null : α) (below : α → α) : α → List ι → Prop
  | nil : Linked place null below null []
  | cons {n : ι} {l : List ι} : place n ≠ null → Linked place null below (below (place n)) l →
      Linked place null below (place n) (n :: l)

namespace Linked

variable {ι α : Type*} {place : ι → α} {null : α} {below below' : α → α}

/-- Only the links of the nodes of the list matter. -/
theorem congr {a : α} {l : List ι} (h : Linked place null below a l)
    (hsame : ∀ n ∈ l, below' (place n) = below (place n)) : Linked place null below' a l := by
  induction h with
  | nil => exact Linked.nil
  | @cons n l hne _ ih =>
      refine Linked.cons hne ?_
      rw [hsame n List.mem_cons_self]
      exact ih fun m hm => hsame m (List.mem_cons_of_mem n hm)

theorem top {a : α} {n : ι} {l : List ι} (h : Linked place null below a (n :: l)) :
    a = place n ∧ place n ≠ null := by
  cases h with
  | cons hne _ => exact ⟨rfl, hne⟩

theorem rest {n : ι} {l : List ι} {a : α} (h : Linked place null below a (n :: l)) :
    Linked place null below (below (place n)) l := by
  cases h with
  | cons _ hrest => exact hrest

/-- The null place is linked to nothing. -/
theorem eq_null_iff {a : α} {l : List ι} (h : Linked place null below a l) :
    a = null ↔ l = [] := by
  cases h with
  | nil => simp
  | cons hne _ => simp [hne]

end Linked

end LinkedStack
