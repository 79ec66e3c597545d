import Mathlib.Logic.Function.Basic
import Mathlib.Data.List.GetD
import Mathlib.Algebra.Order.Ring.Int
import Mathlib.Tactic.Ring

/-!
# Storing a list of values at consecutive places

`storeFrom m a vs` stores the values `vs` one after the other at `a`, `a + 1`
and so on. It is the shape of every copying and clearing loop, so a loop is
described by the list it stores. Places are numbered by integers, because a C
index may be negative: `storeFrom_apply` reads any place back, and says that
the places outside `[a, a + length)` are left alone. `storesFrom` lists the
single stores, for what is said about each of them.
-/

namespace ByteMemory

variable {α : Type*}

/-- Store `vs` at `a`, `a + 1`, … in this order. -/
def storeFrom (m : Int → α) : Int → List α → Int → α
  | _, [] => m
  | a, v :: vs => storeFrom (Function.update m a v) (a + 1) vs

@[simp] theorem storeFrom_nil (m : Int → α) (a : Int) : storeFrom m a [] = m := rfl

theorem storeFrom_cons (m : Int → α) (a : Int) (v : α) (vs : List α) :
    storeFrom m a (v :: vs) = storeFrom (Function.update m a v) (a + 1) vs := rfl

/-- A place before the first store is left alone. -/
theorem storeFrom_of_lt (m : Int → α) (a : Int) (vs : List α) {x : Int} (hx : x < a) :
    storeFrom m a vs x = m x := by
  induction vs generalizing m a with
  | nil => rfl
  | cons v vs ih =>
      rw [storeFrom_cons, ih _ _ (by omega)]
      exact Function.update_of_ne (by omega) _ _

/-- The place `a + i` holds the `i`-th value, if there is one. -/
theorem storeFrom_add (m : Int → α) (a : Int) (vs : List α) (i : Nat) :
    storeFrom m a vs (a + i) = vs.getD i (m (a + i)) := by
  induction vs generalizing m a i with
  | nil => simp
  | cons v vs ih =>
      rw [storeFrom_cons]
      cases i with
      | zero =>
          have hlt : a + ((0 : Nat) : Int) < a + 1 := by omega
          rw [storeFrom_of_lt _ _ _ hlt]
          simp
      | succ i =>
          have hshift : a + ((i + 1 : Nat) : Int) = (a + 1) + (i : Int) := by push_cast; ring
          have hne : (a + 1) + (i : Int) ≠ a := by omega
          rw [hshift, ih, Function.update_of_ne hne]
          simp

theorem storeFrom_apply (m : Int → α) (a : Int) (vs : List α) (x : Int) :
    storeFrom m a vs x =
      if a ≤ x ∧ x < a + vs.length then vs.getD (x - a).toNat (m x) else m x := by
  by_cases hx : a ≤ x
  · obtain ⟨i, rfl⟩ : ∃ i : Nat, x = a + i := ⟨(x - a).toNat, by omega⟩
    have hi : (a + (i : Int) - a).toNat = i := by omega
    rw [storeFrom_add, hi]
    split
    · rfl
    · rename_i hout
      have hlen : vs.length ≤ i := by omega
      exact List.getD_eq_default _ _ hlen
  · have hlt : x < a := by omega
    rw [storeFrom_of_lt _ _ _ hlt, if_neg (by omega)]

/-- A place outside the stored range is left alone. -/
theorem storeFrom_outside (m : Int → α) (a : Int) (vs : List α) {x : Int}
    (hx : x < a ∨ a + vs.length ≤ x) : storeFrom m a vs x = m x := by
  rw [storeFrom_apply, if_neg (by omega)]

/-- What was stored is read back. -/
theorem map_storeFrom (m : Int → α) (vs : List α) :
    ((List.range vs.length).map fun i : Nat => storeFrom m 0 vs i) = vs := by
  apply List.ext_getElem
  · simp
  · intro i hi hi'
    have hstored := storeFrom_add m 0 vs i
    rw [Int.zero_add] at hstored
    rw [List.getElem_map, List.getElem_range, hstored, List.getD_eq_getElem _ _ hi']

theorem storeFrom_append (m : Int → α) (a : Int) (vs ws : List α) :
    storeFrom m a (vs ++ ws) = storeFrom (storeFrom m a vs) (a + vs.length) ws := by
  induction vs generalizing m a with
  | nil => simp
  | cons v vs ih =>
      rw [List.cons_append, storeFrom_cons, ih, storeFrom_cons, List.length_cons, Nat.cast_add,
        Nat.cast_one, add_assoc, add_comm (1 : Int)]

/-- Stores through a pointer into the middle. -/
theorem storeFrom_shift (m : Int → α) (a : Int) (vs : List α) (x : Int) :
    storeFrom (fun i => m (a + i)) 0 vs (x - a) = storeFrom m a vs x := by
  have hback : a + (x - a) = x := by ring
  rw [storeFrom_apply, storeFrom_apply]
  simp only [hback, sub_zero, zero_add, sub_nonneg, sub_lt_iff_lt_add']

/-- Stores in ranges that do not meet can be made in either order. -/
theorem storeFrom_comm (m : Int → α) {a b : Int} {vs ws : List α} (hab : a + vs.length ≤ b) :
    storeFrom (storeFrom m b ws) a vs = storeFrom (storeFrom m a vs) b ws := by
  funext x
  by_cases hx : x < b
  · rw [storeFrom_of_lt _ b _ hx, storeFrom_apply, storeFrom_of_lt _ b _ hx, storeFrom_apply]
  · rw [storeFrom_outside _ a _ (by omega), storeFrom_apply, storeFrom_apply,
      storeFrom_outside _ a _ (by omega)]

/-! ## The single stores -/

/-- The single stores that `storeFrom` makes: place and value, in order. -/
def storesFrom : Int → List α → List (Int × α)
  | _, [] => []
  | a, v :: vs => (a, v) :: storesFrom (a + 1) vs

/-- Make single stores one after the other. -/
def replay (m : Int → α) (stores : List (Int × α)) : Int → α :=
  stores.foldl (fun m s => Function.update m s.1 s.2) m

theorem replay_append (m : Int → α) (stores stores' : List (Int × α)) :
    replay m (stores ++ stores') = replay (replay m stores) stores' :=
  List.foldl_append

theorem replay_storesFrom (m : Int → α) (a : Int) (vs : List α) :
    replay m (storesFrom a vs) = storeFrom m a vs := by
  induction vs generalizing m a with
  | nil => rfl
  | cons v vs ih => exact ih (Function.update m a v) (a + 1)

/-- The stores are within a range if and only if the first and the last are. -/
theorem storesFrom_within_iff (a : Int) (vs : List α) (low high : Int) :
    (∀ s ∈ storesFrom a vs, low ≤ s.1 ∧ s.1 < high) ↔
      vs = [] ∨ (low ≤ a ∧ a + vs.length ≤ high) := by
  induction vs generalizing a with
  | nil => simp [storesFrom]
  | cons v vs ih =>
      have hlen : ((v :: vs).length : Int) = vs.length + 1 := by simp
      rw [storesFrom, List.forall_mem_cons, ih, hlen]
      rcases vs with _ | ⟨w, vs⟩
      · simp only [List.length_nil, Int.natCast_zero, true_or, and_true, reduceCtorEq, false_or]
        omega
      · simp only [reduceCtorEq, false_or]
        omega

end ByteMemory
