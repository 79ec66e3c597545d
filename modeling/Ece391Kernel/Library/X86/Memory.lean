import Mathlib.Data.BitVec
import Mathlib.Tactic.SplitIfs

/-!
# A memory of bytes with 32-bit addresses

Words are stored with the least significant byte first, at any alignment, and
addresses wrap. `Holds m a ws` says that the words `ws` stand at the address `a`
and the addresses above it, as on a stack that grows downwards.
-/

namespace X86

abbrev Word := BitVec 32

abbrev Mem := Word → UInt8

/-- Byte `i` of a word, the least significant byte being byte 0. -/
def byteOf (w : Word) (i : Nat) : UInt8 := ⟨w.extractLsb' (8 * i) 8⟩

def loadWord (m : Mem) (a : Word) : Word :=
  (m (a + 3)).toBitVec ++ (m (a + 2)).toBitVec ++ (m (a + 1)).toBitVec ++ (m a).toBitVec

/-- The address `x` is one of the `n` addresses from `a` on. -/
def Within (a : Word) (n : Nat) (x : Word) : Prop := (x - a).toNat < n

instance (a : Word) (n : Nat) (x : Word) : Decidable (Within a n x) :=
  inferInstanceAs (Decidable (_ < _))

/-- One address more in front. -/
theorem within_pred {a x : Word} {n : Nat} (hn : n < 2 ^ 32) :
    Within (a - 1) (n + 1) x ↔ x = a - 1 ∨ Within a n x := by
  have hdistance : x - (a - 1) = x - a + 1 := by
    rw [sub_sub_eq_add_sub, add_sub_right_comm]
  unfold Within
  rw [hdistance]
  constructor
  · intro h
    refine or_iff_not_imp_left.mpr fun hne => ?_
    bv_omega
  · rintro (rfl | h)
    · bv_omega
    · bv_omega

def storeByte (m : Mem) (a : Word) (v : UInt8) : Mem := Function.update m a v

def storeWord (m : Mem) (a w : Word) : Mem :=
  fun x => if Within a 4 x then byteOf w (x - a).toNat else m x

theorem storeWord_of_within {m : Mem} {a w x : Word} (h : Within a 4 x) :
    storeWord m a w x = byteOf w (x - a).toNat := if_pos h

theorem storeWord_of_not_within {m : Mem} {a w x : Word} (h : ¬Within a 4 x) :
    storeWord m a w x = m x := if_neg h

theorem bytes_append (w : Word) :
    (byteOf w 3).toBitVec ++ (byteOf w 2).toBitVec ++ (byteOf w 1).toBitVec ++
      (byteOf w 0).toBitVec = w := by
  apply BitVec.eq_of_getLsbD_eq
  intro i hi
  simp only [byteOf, BitVec.getLsbD_append, BitVec.getLsbD_extractLsb']
  split_ifs <;> simp <;> grind

theorem byteOf_loadWord (m : Mem) (a : Word) :
    byteOf (loadWord m a) 0 = m a ∧ byteOf (loadWord m a) 1 = m (a + 1) ∧
      byteOf (loadWord m a) 2 = m (a + 2) ∧ byteOf (loadWord m a) 3 = m (a + 3) := by
  refine ⟨?_, ?_, ?_, ?_⟩ <;>
  · apply UInt8.toBitVec_inj.mp
    apply BitVec.eq_of_getLsbD_eq
    intro i hi
    simp only [byteOf, loadWord, BitVec.getLsbD_append, BitVec.getLsbD_extractLsb']
    split_ifs <;> simp <;> grind

theorem loadWord_congr {m m' : Mem} {a : Word} (h : ∀ x, Within a 4 x → m' x = m x) :
    loadWord m' a = loadWord m a := by
  have hbyte : ∀ i : Word, i.toNat < 4 → m' (a + i) = m (a + i) := by
    intro i hi
    refine h _ ?_
    unfold Within
    rwa [add_sub_cancel_left]
  have hzero := hbyte 0 (by decide)
  rw [add_zero] at hzero
  unfold loadWord
  rw [hbyte 3 (by decide), hbyte 2 (by decide), hbyte 1 (by decide), hzero]

/-- What has been stored is read back. -/
theorem loadWord_storeWord (m : Mem) (a w : Word) : loadWord (storeWord m a w) a = w := by
  have hbyte : ∀ i : Word, i.toNat < 4 → storeWord m a w (a + i) = byteOf w i.toNat := by
    intro i hi
    have hsub : a + i - a = i := add_sub_cancel_left a i
    rw [storeWord_of_within (by unfold Within; rwa [hsub]), hsub]
  have hzero := hbyte 0 (by decide)
  rw [add_zero] at hzero
  unfold loadWord
  rw [hbyte 3 (by decide), hbyte 2 (by decide), hbyte 1 (by decide), hzero]
  exact bytes_append w

/-- A word is stored as four bytes. -/
theorem storeWord_eq_storeByte (m : Mem) (a w : Word) :
    storeWord m a w = storeByte (storeByte (storeByte (storeByte m a (byteOf w 0)) (a + 1)
      (byteOf w 1)) (a + 2) (byteOf w 2)) (a + 3) (byteOf w 3) := by
  funext x
  unfold storeByte
  by_cases hin : Within a 4 x
  · have hcases : x = a ∨ x = a + 1 ∨ x = a + 2 ∨ x = a + 3 := by
      unfold Within at hin
      bv_omega
    rw [storeWord_of_within hin]
    rcases hcases with rfl | rfl | rfl | rfl <;> simp [add_sub_cancel_left]
  · have hne : x ≠ a ∧ x ≠ a + 1 ∧ x ≠ a + 2 ∧ x ≠ a + 3 := by
      unfold Within at hin
      bv_omega
    obtain ⟨h₀, h₁, h₂, h₃⟩ := hne
    rw [storeWord_of_not_within hin, Function.update_of_ne h₃, Function.update_of_ne h₂,
      Function.update_of_ne h₁, Function.update_of_ne h₀]

/-! ## Blocks -/

/-- The loop that stores a byte at `n` addresses. -/
def byteSet (m : Mem) (a : Word) (v : UInt8) : Nat → Mem
  | 0 => m
  | n + 1 => storeByte (byteSet m a v n) (a + BitVec.ofNat 32 n) v

/-- The loop that copies `n` bytes, the first one first. -/
def byteCopy (m : Mem) (dest src : Word) : Nat → Mem
  | 0 => m
  | n + 1 => storeByte (byteCopy m dest src n) (dest + BitVec.ofNat 32 n)
      (byteCopy m dest src n (src + BitVec.ofNat 32 n))

theorem byteSet_apply {m : Mem} {a : Word} {v : UInt8} {n : Nat} (hn : n ≤ 2 ^ 32) (x : Word) :
    byteSet m a v n x = if Within a n x then v else m x := by
  induction n with
  | zero => exact (if_neg (Nat.not_lt_zero _)).symm
  | succ n ih =>
      unfold byteSet storeByte
      by_cases hlast : x = a + BitVec.ofNat 32 n
      · have hin : Within a (n + 1) x := by
          unfold Within
          bv_omega
        rw [hlast, Function.update_self, if_pos (hlast ▸ hin)]
      · have hsame : Within a (n + 1) x ↔ Within a n x := by
          unfold Within
          bv_omega
        rw [Function.update_of_ne hlast, ih (by omega)]
        simp only [hsame]

/-- If no byte is written before it is read, the loop copies what was there at first. -/
theorem byteCopy_apply {m : Mem} {dest src : Word} {n : Nat} (hn : n ≤ 2 ^ 32)
    (hfresh : ∀ i j, i < j → j < n → dest + BitVec.ofNat 32 i ≠ src + BitVec.ofNat 32 j)
    (x : Word) :
    byteCopy m dest src n x = if Within dest n x then m (src + (x - dest)) else m x := by
  induction n generalizing x with
  | zero => exact (if_neg (Nat.not_lt_zero _)).symm
  | succ n ih =>
      have hbefore := ih (by omega) fun i j hij hj => hfresh i j hij (by omega)
      have hunread : ¬Within dest n (src + BitVec.ofNat 32 n) := by
        intro hin
        have hne := hfresh (src + BitVec.ofNat 32 n - dest).toNat n hin (Nat.lt_succ_self n)
        rw [BitVec.ofNat_toNat, BitVec.setWidth_eq] at hne
        exact hne (add_sub_cancel dest _)
      unfold byteCopy storeByte
      by_cases hlast : x = dest + BitVec.ofNat 32 n
      · have hin : Within dest (n + 1) x := by
          unfold Within
          bv_omega
        rw [hlast, Function.update_self, if_pos (hlast ▸ hin), hbefore, if_neg hunread,
          add_sub_cancel_left]
      · have hsame : Within dest (n + 1) x ↔ Within dest n x := by
          unfold Within
          bv_omega
        rw [Function.update_of_ne hlast, hbefore]
        simp only [hsame]

/-- A byte that the loop does not write is read as it was at first. -/
theorem byteCopy_of_not_within {m : Mem} {dest src x : Word} {n : Nat} (hn : n ≤ 2 ^ 32)
    (hx : ¬Within dest n x) : byteCopy m dest src n x = m x := by
  induction n with
  | zero => rfl
  | succ n ih =>
      have hne : x ≠ dest + BitVec.ofNat 32 n := by
        unfold Within at hx
        bv_omega
      unfold byteCopy storeByte
      rw [Function.update_of_ne hne]
      refine ih (by omega) fun hin => hx ?_
      unfold Within at hin ⊢
      omega

/-! ## Stacks -/

/-- The words at an address and above it. -/
def Holds (m : Mem) (a : Word) : List Word → Prop
  | [] => True
  | w :: ws => loadWord m a = w ∧ Holds m (a + 4) ws

/-- Words are where they were if their bytes are. -/
theorem Holds.congr {m m' : Mem} {ws : List Word} {a : Word} (hlen : 4 * ws.length ≤ 2 ^ 32)
    (hsame : ∀ x, Within a (4 * ws.length) x → m' x = m x) (h : Holds m a ws) : Holds m' a ws := by
  induction ws generalizing a with
  | nil => trivial
  | cons w ws ih =>
      simp only [List.length_cons] at hlen hsame
      refine ⟨?_, ih (by omega) (fun x hx => hsame x ?_) h.2⟩
      · rw [loadWord_congr fun x hx => hsame x ?_]
        · exact h.1
        · unfold Within at hx ⊢
          omega
      · unfold Within at hx ⊢
        bv_omega

/-- A word stored below the others. -/
theorem Holds.storeWord {m : Mem} {ws : List Word} {a : Word} (hlen : 4 * ws.length + 4 ≤ 2 ^ 32)
    (h : Holds m a ws) (w : Word) : Holds (storeWord m (a - 4) w) (a - 4) (w :: ws) := by
  refine ⟨loadWord_storeWord m (a - 4) w, ?_⟩
  rw [BitVec.sub_add_cancel]
  refine h.congr (by omega) fun x hx => storeWord_of_not_within ?_
  unfold Within at hx ⊢
  bv_omega

end X86
