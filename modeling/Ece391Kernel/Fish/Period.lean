import Ece391Kernel.Fish.Blinking

/-!
# The period of a blinking character

A length between 1 and `2^15` is the number of ticks that a character stands. Any other counts as
1, as the countdown is compared with 0 as a signed number. A structure that is left alone shows its
two characters in turn, from the tick on which it was added, whatever is done to the others that
puts none of them at its location or at 0.
-/

namespace Ece391Kernel

open TransitionSystem

/-! ## One structure -/

namespace Blink

/-- The number of ticks that a character of this length stands. -/
def standing (length : BitVec 16) : Nat :=
  if 0 < length.toNat ∧ length.toNat ≤ 2 ^ 15 then length.toNat else 1

def period (b : Blink) : Nat := standing b.onLength + standing b.offLength

/-- The character that stands after some ticks. -/
def shownAfter (b : Blink) (n : Nat) : UInt8 :=
  if n % b.period < standing b.onLength then b.onChar else b.offChar

/-- The structure at a point of its period. -/
def atPoint (b : Blink) (m : Nat) : Blink :=
  if m < standing b.onLength then
    { b with countdown := b.onLength - BitVec.ofNat 16 m, status := 1 }
  else
    { b with countdown := b.offLength - BitVec.ofNat 16 (m - standing b.onLength), status := 0 }

theorem standing_pos (length : BitVec 16) : 0 < standing length := by
  unfold standing
  split <;> omega

theorem period_pos (b : Blink) : 0 < b.period :=
  Nat.add_pos_left (standing_pos b.onLength) _

/-- A word is positive as a signed number. -/
theorem zero_slt (x : BitVec 16) : (0#16).slt x = decide (0 < x.toNat ∧ x.toNat < 2 ^ 15) := by
  rw [BitVec.slt_eq_decide]
  congr 1
  rw [BitVec.toInt_eq_toNat_cond, BitVec.toInt_eq_toNat_cond]
  simp only [BitVec.toNat_ofNat, eq_iff_iff]
  have hlt := x.isLt
  split <;> omega

/-- The countdown of a length runs out on the last of its ticks. -/
theorem countdown_expires {length : BitVec 16} {m : Nat} (hm : m < standing length) :
    (!(0#16).slt (length - BitVec.ofNat 16 m - 1)) = decide (m + 1 = standing length) := by
  have hlt := length.isLt
  have hsub : (length - BitVec.ofNat 16 m - 1).toNat = (length.toNat + (65535 - m)) % 65536 := by
    have hone : (1 : BitVec 16).toNat = 1 := rfl
    unfold standing at hm
    simp only [BitVec.toNat_sub, BitVec.toNat_ofNat, hone]
    split at hm <;> omega
  rw [zero_slt, hsub, ← decide_not, decide_eq_decide]
  unfold standing at hm ⊢
  split at hm
  · rename_i hin
    rw [if_pos hin]
    omega
  · rename_i hout
    rw [if_neg hout]
    omega

theorem atPoint_on {b : Blink} {m : Nat} (h : m < standing b.onLength) :
    b.atPoint m = { b with countdown := b.onLength - BitVec.ofNat 16 m, status := 1 } :=
  if_pos h

theorem atPoint_off {b : Blink} {m : Nat} (h : standing b.onLength ≤ m) :
    b.atPoint m = { b with
      countdown := b.offLength - BitVec.ofNat 16 (m - standing b.onLength)
      status := 0 } :=
  if_neg (not_lt.mpr h)

theorem started_eq_atPoint (b : Blink) : b.started = b.atPoint 0 := by
  rw [atPoint_on (standing_pos b.onLength)]
  simp [started]

theorem tick_atPoint_on (b : Blink) {m : Nat} (hm : m < standing b.onLength) :
    (b.atPoint m).tick = b.atPoint (m + 1) := by
  rw [atPoint_on hm, tick, expires, countdown_expires hm]
  by_cases hlast : m + 1 = standing b.onLength
  · rw [if_pos (decide_eq_true hlast), atPoint_off hlast.ge, hlast, Nat.sub_self]
    simp [isOn]
  · rw [if_neg (by simpa using hlast), atPoint_on (by omega), BitVec.ofNat_add, BitVec.sub_sub]
    rfl

theorem tick_atPoint_off (b : Blink) {m : Nat} (hlo : standing b.onLength ≤ m)
    (hhi : m < b.period) :
    (b.atPoint m).tick = if m + 1 = b.period then b.atPoint 0 else b.atPoint (m + 1) := by
  have hrest : m - standing b.onLength < standing b.offLength := by
    unfold period at hhi
    omega
  have hend : m + 1 = b.period ↔ m - standing b.onLength + 1 = standing b.offLength := by
    unfold period
    omega
  rw [atPoint_off hlo, tick, expires, countdown_expires hrest]
  by_cases hlast : m - standing b.onLength + 1 = standing b.offLength
  · rw [if_pos (decide_eq_true hlast), if_pos (hend.mpr hlast), ← started_eq_atPoint]
    simp [isOn, started]
  · have hsucc : m + 1 - standing b.onLength = m - standing b.onLength + 1 := by omega
    rw [if_neg (by simpa using hlast), if_neg (mt hend.mp hlast), atPoint_off (by omega), hsucc,
      BitVec.ofNat_add, BitVec.sub_sub]
    rfl

/-- A tick leads from one point of the period to the next. -/
theorem tick_atPoint (b : Blink) {m : Nat} (hm : m < b.period) :
    (b.atPoint m).tick = b.atPoint ((m + 1) % b.period) := by
  rcases Nat.lt_or_ge m (standing b.onLength) with hon | hoff
  · have hnext : m + 1 < b.period := by
      have hpos := standing_pos b.offLength
      unfold period
      omega
    rw [tick_atPoint_on b hon, Nat.mod_eq_of_lt hnext]
  · rw [tick_atPoint_off b hoff hm]
    split
    · rename_i hend
      rw [hend, Nat.mod_self]
    · rw [Nat.mod_eq_of_lt (by omega)]

theorem tick_iterate (b : Blink) (n : Nat) : tick^[n] b.started = b.atPoint (n % b.period) := by
  induction n with
  | zero => exact b.started_eq_atPoint
  | succ n ih =>
      rw [Function.iterate_succ_apply', ih, b.tick_atPoint (Nat.mod_lt n b.period_pos),
        Nat.mod_add_mod]

theorem iterate_shown (b : Blink) (n : Nat) : (tick^[n] b.started).shown = b.shownAfter n := by
  rw [tick_iterate, shownAfter, atPoint]
  split <;> simp [shown, isOn]

@[simp] theorem iterate_location (b : Blink) (n : Nat) :
    (tick^[n] b).location = b.location := by
  induction n with
  | zero => rfl
  | succ n ih => rw [Function.iterate_succ_apply', tick_location, ih]

end Blink

/-! ## Among the others -/

/-- How many of the calls are ticks. -/
def ticks (calls : List BlinkCall) : Nat :=
  calls.countP fun c =>
    match c with
    | .tasklet => true
    | _ => false

theorem ticks_append (calls calls' : List BlinkCall) :
    ticks (calls ++ calls') = ticks calls + ticks calls' :=
  List.countP_append

theorem Blink.iterate_next (b : Blink) (calls : List BlinkCall) (c : BlinkCall) :
    (tick^[ticks calls] b).next c = tick^[ticks (calls ++ [c])] b := by
  rw [ticks_append]
  cases c with
  | tasklet => exact (Function.iterate_succ_apply' tick (ticks calls) b).symm
  | _ => rfl

section Cells

variable {p : BlinkList} {v : Nat → UInt8} {c : BlinkCall} {i : BlinkIndex} {b : Blink}

/-- What a call prints in the cell of a structure that it spares. -/
theorem BlinkList.printed_cell (hdistinct : p.Distinct) (hnext : (p.step c).Distinct)
    (hb : (i, b) ∈ p.entries) (hspares : p.Spares b.location c)
    (hcell : v (cellOffset b.location) = b.shown) :
    p.printed v c (cellOffset b.location) = (b.next c).shown := by
  cases c with
  | add data =>
      unfold BlinkList.step at hnext
      unfold printed
      simp only at hnext ⊢
      split
      · rename_i hadded
        obtain ⟨j, hfree⟩ := Option.isSome_iff_exists.mp hadded.2
        rw [if_pos hadded.1, add_eq_insert hfree] at hnext
        have hne : b.location ≠ data.toBlink.started.location := fun heq =>
          (List.nodup_cons.mp hnext.1).1 (List.mem_map.mpr ⟨(i, b), hb, heq⟩)
        rw [Blink.drawn, Function.update_of_ne (cellOffset_ne hne)]
        exact hcell
      · exact hcell
  | remove arg => exact hcell
  | find data => exact hcell
  | sync arg =>
      unfold printed
      simp only
      cases hsource : p.find ((arg >>> 16).setWidth 16) with
      | none => exact hcell
      | some a =>
          cases htarget : p.find ((arg &&& 0xFFFF).setWidth 16) with
          | none => exact hcell
          | some e =>
              have hne : e.2.location ≠ b.location := by
                rw [(find_mem htarget).2]
                exact hspares ⟨Option.isSome_of_eq_some hsource, Option.isSome_of_eq_some htarget⟩
              simp only
              rw [Function.update_of_ne (cellOffset_ne hne.symm)]
              exact hcell
  | tasklet =>
      refine ((foldl_drawn hdistinct.1 v).1 (i, b) hb).trans ?_
      cases hexpires : b.expires with
      | true => rfl
      | false => exact hcell.trans (Blink.tick_shown_of_not_expires hexpires).symm

theorem HoldsDistinct.run {f f' : Fish} (h : HoldsDistinct f p) {calls : List BlinkCall}
    (hrun : Run DistinctCalls f calls f') :
    HoldsDistinct f' (calls.foldl BlinkList.step p) := by
  induction hrun with
  | nil => exact h
  | snoc _ hlast ih =>
      rw [List.foldl_concat]
      exact (ih.step hlast).1

/-- A structure that is left alone goes on by one point on every tick, and stands in its cell. -/
theorem HoldsDistinct.blinks {f f' : Fish} (h : HoldsDistinct f p) (hb : (i, b) ∈ p.entries)
    (hcell : f.vmem (cellOffset b.location) = b.shown) {calls : List BlinkCall}
    (hrun : Run (guarded (LeavesAlone b.location) DistinctCalls) f calls f') :
    (i, Blink.tick^[ticks calls] b) ∈ (calls.foldl BlinkList.step p).entries ∧
      f'.vmem (cellOffset b.location) = (Blink.tick^[ticks calls] b).shown := by
  induction hrun with
  | nil => exact ⟨hb, hcell⟩
  | snoc hbefore hlast ih =>
      rename_i calls c
      obtain ⟨hmem, hshown⟩ := ih
      obtain ⟨halone, hcall⟩ := hlast
      have hholds := h.run hbefore.of_guarded
      obtain ⟨hnext, hvmem⟩ := hholds.step hcall
      have hloc : (Blink.tick^[ticks calls] b).location = b.location := b.iterate_location _
      rw [← hloc] at halone hshown ⊢
      have hspares := hholds.toHoldsBlinks.spares halone
      rw [List.foldl_concat, hvmem, ← Blink.iterate_next]
      exact ⟨BlinkList.mem_step hmem hspares,
        BlinkList.printed_cell hholds.distinct hnext.distinct hmem hspares hshown⟩

/-- A structure that has been put into a free entry is in the list, and in its cell. -/
theorem HoldsDistinct.added_free {f g : Fish} (h : HoldsDistinct f p) {data : Mp1BlinkStruct}
    (hcall : DistinctCalls f (.add data) g) (hloc : data.location.toNat < 80 * 25)
    (hfree : p.firstFree = some i) :
    (i, data.toBlink.started) ∈ (p.step (.add data)).entries ∧
      g.vmem (cellOffset data.location) = data.toBlink.started.shown := by
  constructor
  · rw [BlinkList.step, if_pos hloc, BlinkList.add_eq_insert hfree]
    exact List.mem_cons_self
  · rw [(h.step hcall).2, BlinkList.printed, if_pos ⟨hloc, Option.isSome_of_eq_some hfree⟩]
    exact Function.update_self _ _ _

/-- An addition that succeeds has found a free entry. -/
theorem HoldsDistinct.exists_free {f g : Fish} (h : HoldsDistinct f p) {data : Mp1BlinkStruct}
    (hadd : mp1IoctlAdd data f = (0, g)) :
    data.location.toNat < 80 * 25 ∧ ∃ i, p.firstFree = some i := by
  have hloc : data.location.toNat < 80 * 25 := by
    by_contra hnot
    rw [mp1IoctlAdd_rejected (not_lt.mp hnot)] at hadd
    exact absurd (Prod.mk.inj hadd).1 (by decide)
  have hmalloc := h.malloc (h.distinct.safe (.add data) hloc)
  refine ⟨hloc, ?_⟩
  cases hfree : p.firstFree with
  | none =>
      rw [mp1IoctlAdd_full (hmalloc.trans hfree)] at hadd
      exact absurd (Prod.mk.inj hadd).1 (by decide)
  | some i => exact ⟨i, rfl⟩

end Cells

/-- From when it was added, a structure shows its on character for the one length and its off
character for the other, in turn, as long as it is neither removed nor synchronised, and as the
structures stay at locations that are not 0 and all different. -/
theorem blinks_in_turn {vmem : Nat → UInt8} {front rest : List BlinkCall} {f g h : Fish}
    {data : Mp1BlinkStruct} (hfront : Run DistinctCalls (initialFish vmem) front f)
    (hadd : mp1IoctlAdd data f = (0, g)) (hdistinct : DistinctLocations g)
    (hrest : Run (guarded (LeavesAlone data.location) DistinctCalls) g rest h) :
    h.vmem (cellOffset data.location) = data.shownAfter (ticks rest) := by
  obtain ⟨p, hf⟩ := exists_holdsDistinct hfront
  have hcall : DistinctCalls f (.add data) g := ⟨⟨0, by rw [BlinkCall.run, hadd]⟩, hdistinct⟩
  obtain ⟨hloc, i, hfree⟩ := hf.exists_free hadd
  obtain ⟨hmem, hcell⟩ := hf.added_free hcall hloc hfree
  obtain ⟨-, hshown⟩ := (hf.step hcall).1.blinks hmem hcell hrest
  exact hshown.trans (data.toBlink.iterate_shown _)

/-- Ticks leave every structure alone, and return. -/
theorem HoldsDistinct.exists_ticks {f : Fish} {p : BlinkList} (h : HoldsDistinct f p)
    (location : BitVec 16) (n : Nat) : ∃ f' p', HoldsDistinct f' p' ∧
      Run (guarded (LeavesAlone location) DistinctCalls) f (List.replicate n .tasklet) f' := by
  induction n with
  | zero => exact ⟨f, p, h, Run.nil f⟩
  | succ n ih =>
      obtain ⟨g, p', hg, hrun⟩ := ih
      have hnext : (p'.step .tasklet).Distinct := hg.distinct.map fun _ => Blink.tick_location
      obtain ⟨f', hcall, hf'⟩ := hg.exists_step hnext
      rw [List.replicate_succ']
      exact ⟨f', _, hf', hrun.snoc ⟨trivial, hcall⟩⟩

/-- The structure of `main` has length 7 and length 6, and shows its off character after 8 ticks. -/
theorem blinks_in_turn_letter : ∃ g h,
    mp1IoctlAdd (letterAt 40) (initialFish fun _ => 0) = (0, g) ∧ DistinctLocations g ∧
      Run (guarded (LeavesAlone 40) DistinctCalls) g (List.replicate 8 .tasklet) h ∧
      h.vmem 80 = 0x4D := by
  have hempty := initialFish_holdsDistinct fun _ => 0
  have hmalloc : mp1Malloc (initialFish fun _ => 0) = some 0 :=
    BlinkList.find?_finRange.mpr ⟨rfl, fun j hj => absurd hj (Fin.not_lt_zero j)⟩
  have hadd : mp1IoctlAdd (letterAt 40) (initialFish fun _ => 0) =
      (0, (initialFish fun _ => 0).linkFront 0 (letterAt 40).toBlink.started) :=
    mp1IoctlAdd_linked (by decide) hmalloc
  have hnext : (BlinkList.empty.step (.add (letterAt 40))).Distinct := by
    have hentries := after_letterAt 40 (by decide)
    rw [BlinkList.after, List.foldl_cons, List.foldl_nil] at hentries
    rw [BlinkList.Distinct, hentries]
    decide
  obtain ⟨g, ⟨⟨fuel, hg⟩, hdistinct⟩, hholds⟩ := hempty.exists_step hnext
  obtain ⟨h, -, -, hrun⟩ := hholds.exists_ticks 40 8
  rw [BlinkCall.run, hadd] at hg
  obtain rfl := Option.some.inj hg
  exact ⟨_, h, hadd, hdistinct, hrun, blinks_in_turn (Run.nil _) hadd hdistinct hrun⟩

end Ece391Kernel
