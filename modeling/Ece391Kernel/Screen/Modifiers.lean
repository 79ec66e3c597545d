import Ece391Kernel.Screen.LineEditor

/-!
# The modifier keys

The keyboard interrupt knows the state of the modifier keys from the codes it has seen:
flags for the keys that are held, and a mode that stands for both shift and caps lock. The
machine here remembers beside them which keys are held and how often caps lock was pressed.
The two agree as long as no shift key is released while the other one is held: they share
one flag.
-/

namespace Ece391Kernel

open TransitionSystem

/-! ## The mode -/

/-- Caps lock is on in the mode. -/
def KeyMode.caps : KeyMode → Bool
  | .orig => false
  | .origShift => false
  | .capShift => true
  | .cap => true

/-- A shift key is held in the mode. -/
def KeyMode.shifted : KeyMode → Bool
  | .orig => false
  | .origShift => true
  | .capShift => true
  | .cap => false

/-- The letters in the table. -/
def isLetter (ch : UInt8) : Bool := 0x61 ≤ ch.toNat && ch.toNat ≤ 0x7A

/-- The capital letters. -/
def isUpper (ch : UInt8) : Bool := 0x41 ≤ ch.toNat && ch.toNat ≤ 0x5A

/-- The character of a key, given whether a shift key is held and whether caps lock is on:
caps lock reverses shift for the letters, and has no effect on the other keys. -/
def keyChar (c : UInt8) (shift caps : Bool) : UInt8 :=
  if isLetter (scancode KeyMode.orig.row c.toNat) then
    scancode (if shift ^^ caps then KeyMode.origShift.row else KeyMode.orig.row) c.toNat
  else scancode (if shift then KeyMode.origShift.row else KeyMode.orig.row) c.toNat

/-- A key with a character, other than the enter key. -/
def CharKey (c : UInt8) : Prop := scancode KeyMode.orig.row c.toNat ≠ 0 ∧ c ≠ enterKey

instance (c : UInt8) : Decidable (CharKey c) := inferInstanceAs (Decidable (_ ∧ _))

/-- A key behind the table has no character. -/
theorem scancode_orig_of_le {n : Nat} (h : scancodeSize ≤ n) : scancode KeyMode.orig.row n = 0 :=
  List.getD_eq_default _ _ h

theorem CharKey.lt {c : UInt8} (h : CharKey c) : c.toNat < scancodeSize := by
  by_contra hlt
  exact h.1 (scancode_orig_of_le (Nat.le_of_not_lt hlt))

theorem CharKey.ne {c : UInt8} (h : CharKey c) :
    c ≠ backspaceKey ∧ c ≠ leftCtrlOn ∧ c ≠ leftShiftOn ∧ c ≠ rightShiftOn ∧ c ≠ capslockOn := by
  refine ⟨?_, ?_, ?_, ?_, ?_⟩ <;>
  · rintro rfl
    exact absurd h (by decide)

/-- The rows of the table say so. -/
theorem scancode_eq_keyChar (mode : KeyMode) {n : Nat} (hn : n < scancodeSize) :
    scancode mode.row n = keyChar (UInt8.ofNat n) mode.shifted mode.caps := by
  have hall : ∀ n < scancodeSize, ∀ mode ∈ [KeyMode.orig, .origShift, .capShift, .cap],
      scancode mode.row n = keyChar (UInt8.ofNat n) mode.shifted mode.caps := by
    decide +kernel
  exact hall n hn mode (by cases mode <;> simp)

theorem keyChar_ne_zero {c : UInt8} (h : CharKey c) (shift caps : Bool) :
    keyChar c shift caps ≠ 0 := by
  have hall : ∀ n < scancodeSize, scancode KeyMode.orig.row n ≠ 0 →
      scancode KeyMode.origShift.row n ≠ 0 := by
    decide +kernel
  have hshift := hall c.toNat h.lt h.1
  unfold keyChar
  split_ifs
  · exact hshift
  · exact h.1
  · exact hshift
  · exact h.1

/-- A letter is a capital one if and only if one of shift and caps lock is active. -/
theorem isUpper_keyChar {c : UInt8} (h : isLetter (scancode KeyMode.orig.row c.toNat) = true)
    (shift caps : Bool) : isUpper (keyChar c shift caps) = (shift ^^ caps) := by
  have hlt : c.toNat < scancodeSize := by
    by_contra hlt
    rw [scancode_orig_of_le (Nat.le_of_not_lt hlt)] at h
    exact absurd h (by decide)
  have hall : ∀ n < scancodeSize, isLetter (scancode KeyMode.orig.row n) = true →
      isUpper (scancode KeyMode.origShift.row n) = true ∧
        isUpper (scancode KeyMode.orig.row n) = false := by
    decide +kernel
  obtain ⟨hupper, hlower⟩ := hall c.toNat hlt h
  unfold keyChar
  rw [if_pos h]
  cases shift <;> cases caps <;> simp [hupper, hlower]

/-! ## What a code does to the keyboard -/

@[simp] theorem ctrlKey_shift (c : UInt8) (kb : Keyboard) : (ctrlKey c kb).shift = kb.shift := by
  unfold ctrlKey
  split_ifs <;> rfl

@[simp] theorem ctrlKey_mode (c : UInt8) (kb : Keyboard) : (ctrlKey c kb).mode = kb.mode := by
  unfold ctrlKey
  split_ifs <;> rfl

@[simp] theorem capslockKey_shift (c : UInt8) (kb : Keyboard) :
    (capslockKey c kb).shift = kb.shift := by
  unfold capslockKey
  split
  · cases kb.mode <;> rfl
  · rfl

@[simp] theorem capslockKey_caps (c : UInt8) (kb : Keyboard) :
    (capslockKey c kb).mode.caps = if c = capslockOn then !kb.mode.caps else kb.mode.caps := by
  unfold capslockKey
  split
  · obtain ⟨mode, -, -, -⟩ := kb
    cases mode <;> rfl
  · rfl

@[simp] theorem shiftKey_mode (c : UInt8) (kb : Keyboard) : (shiftKey c kb).mode = kb.mode := by
  unfold shiftKey
  split_ifs <;> rfl

@[simp] theorem shiftMode_shift (kb : Keyboard) : (shiftMode kb).shift = kb.shift := by
  unfold shiftMode
  split
  · obtain ⟨mode, alt, shift, ctrl⟩ := kb
    cases shift <;> cases mode <;> rfl
  · rfl

@[simp] theorem shiftMode_caps (kb : Keyboard) : (shiftMode kb).mode.caps = kb.mode.caps := by
  unfold shiftMode
  split
  · obtain ⟨mode, alt, shift, ctrl⟩ := kb
    cases shift <;> cases mode <;> rfl
  · rfl

/-- While the control key is up the mode follows the shift flag. -/
theorem shiftMode_shifted {kb : Keyboard} (h : kb.ctrl = false) :
    (shiftMode kb).mode.shifted = kb.shift := by
  unfold shiftMode
  rw [if_pos h]
  obtain ⟨mode, alt, shift, ctrl⟩ := kb
  cases shift <;> cases mode <;> rfl

@[simp] theorem altKey_shift (c : UInt8) (kb : Keyboard) : (altKey c kb).shift = kb.shift := by
  unfold altKey
  split_ifs <;> rfl

@[simp] theorem altKey_mode (c : UInt8) (kb : Keyboard) : (altKey c kb).mode = kb.mode := by
  unfold altKey
  split_ifs <;> rfl

theorem shiftKey_shift (c : UInt8) (kb : Keyboard) :
    (shiftKey c kb).shift =
      if c = leftShiftOn ∨ c = rightShiftOn then true
      else if c = leftShiftOff ∨ c = rightShiftOff then false else kb.shift := by
  unfold shiftKey
  split_ifs <;> rfl

/-- Any code of a shift key sets the one flag. -/
theorem press_shift (c : UInt8) (kb : Keyboard) :
    (kb.press c).shift =
      if c = leftShiftOn ∨ c = rightShiftOn then true
      else if c = leftShiftOff ∨ c = rightShiftOff then false else kb.shift := by
  unfold Keyboard.press
  simp only [altKey_shift, shiftMode_shift, shiftKey_shift, capslockKey_shift, ctrlKey_shift]

theorem press_caps (c : UInt8) (kb : Keyboard) :
    (kb.press c).mode.caps = if c = capslockOn then !kb.mode.caps else kb.mode.caps := by
  unfold Keyboard.press
  simp only [altKey_mode, shiftMode_caps, shiftKey_mode, capslockKey_caps, ctrlKey_mode]

theorem press_shifted {c : UInt8} {kb : Keyboard} (h : (kb.press c).ctrl = false) :
    (kb.press c).mode.shifted = (kb.press c).shift := by
  unfold Keyboard.press at h ⊢
  simp only [altKey_ctrl, shiftMode_ctrl] at h
  simp only [altKey_mode, altKey_shift, shiftMode_shift]
  exact shiftMode_shifted h

theorem press_ctrl_eq (c : UInt8) (kb : Keyboard) :
    (kb.press c).ctrl =
      if c = leftCtrlOn then true else if c = leftCtrlOff then false else kb.ctrl := by
  rw [press_ctrl]
  unfold ctrlKey
  split_ifs <;> rfl

/-! ## The keys that are held -/

/-- The keyboard, the keys that are held by their make codes, and how often caps lock was
pressed. -/
structure HeldKeys where
  keyboard : Keyboard
  held : UInt8 → Bool
  capsPresses : Nat

/-- A key, by its make code, is pressed or released. -/
inductive KeyLabel
  | press (c : UInt8)
  | release (c : UInt8)

namespace HeldKeys

/-- No key is held. -/
def start : HeldKeys := ⟨keyboardInit, fun _ => false, 0⟩

/-- A shift key is held. -/
def shift (m : HeldKeys) : Bool := m.held leftShiftOn || m.held rightShiftOn

/-- Caps lock was pressed an odd number of times. -/
def caps (m : HeldKeys) : Bool := m.capsPresses % 2 == 1

/-- The make code of the key arrives. -/
def pressed (c : UInt8) (m : HeldKeys) : HeldKeys where
  keyboard := m.keyboard.press c
  held := Function.update m.held c true
  capsPresses := if c = capslockOn then m.capsPresses + 1 else m.capsPresses

/-- The break code of the key arrives. -/
def released (c : UInt8) (m : HeldKeys) : HeldKeys where
  keyboard := m.keyboard.press (c + 0x80)
  held := Function.update m.held c false
  capsPresses := m.capsPresses

end HeldKeys

/-- Presses and releases of a key alternate. -/
inductive KeyStep (m : HeldKeys) : KeyLabel → HeldKeys → Prop
  | press {c : UInt8} (hc : c.toNat < 0x80) (hup : m.held c = false) :
      KeyStep m (.press c) (m.pressed c)
  | release {c : UInt8} (hc : c.toNat < 0x80) (hdown : m.held c = true) :
      KeyStep m (.release c) (m.released c)

/-- No shift key is released while the other one is held. -/
def ShiftApart (m : HeldKeys) (label : KeyLabel) : Prop :=
  (label = .release leftShiftOn → m.held rightShiftOn = false) ∧
    (label = .release rightShiftOn → m.held leftShiftOn = false)

/-- The keyboard knows which modifier keys are held; while the control key is held the mode
may be behind. -/
structure FollowsKeys (m : HeldKeys) : Prop where
  ctrl : m.keyboard.ctrl = m.held leftCtrlOn
  shift : m.keyboard.shift = m.shift
  caps : m.keyboard.mode.caps = m.caps
  mode : m.keyboard.ctrl = false → m.keyboard.mode.shifted = m.keyboard.shift

/-- A break code is that of one key, and no make code. -/
theorem break_eq_iff {c d : UInt8} : c + 0x80 = d + 0x80 ↔ c = d := by
  refine ⟨fun h => ?_, fun h => by rw [h]⟩
  have hsub := congrArg (fun x : UInt8 => x - 0x80) h
  simpa using hsub

theorem break_ne {c d : UInt8} (hc : c.toNat < 0x80) (hd : d.toNat < 0x80) : c + 0x80 ≠ d := by
  intro h
  have hnat := congrArg UInt8.toNat h
  have hbreak : (0x80 : UInt8).toNat = 0x80 := rfl
  rw [UInt8.toNat_add, hbreak] at hnat
  omega

theorem start_followsKeys : FollowsKeys HeldKeys.start :=
  ⟨rfl, rfl, rfl, fun _ => rfl⟩

namespace FollowsKeys

variable {m : HeldKeys} (h : FollowsKeys m) {c : UInt8} (hc : c.toNat < 0x80)

include h hc

theorem pressed : FollowsKeys (m.pressed c) where
  ctrl := by
    have hoff : c ≠ leftCtrlOff := by rintro rfl; exact absurd hc (by decide)
    unfold HeldKeys.pressed
    simp only
    rw [press_ctrl_eq, if_neg hoff, h.ctrl]
    by_cases hctrl : c = leftCtrlOn
    · rw [if_pos hctrl, hctrl, Function.update_self]
    · rw [if_neg hctrl, Function.update_of_ne (Ne.symm hctrl)]
  shift := by
    have hleft : c ≠ leftShiftOff := by rintro rfl; exact absurd hc (by decide)
    have hright : c ≠ rightShiftOff := by rintro rfl; exact absurd hc (by decide)
    unfold HeldKeys.pressed HeldKeys.shift
    simp only
    rw [press_shift, if_neg (not_or.mpr ⟨hleft, hright⟩), h.shift]
    by_cases hl : c = leftShiftOn
    · rw [if_pos (Or.inl hl), hl, Function.update_self, Bool.true_or]
    · by_cases hr : c = rightShiftOn
      · rw [if_pos (Or.inr hr), hr, Function.update_self, Bool.or_true]
      · rw [if_neg (not_or.mpr ⟨hl, hr⟩), Function.update_of_ne (Ne.symm hl),
          Function.update_of_ne (Ne.symm hr)]
        rfl
  caps := by
    unfold HeldKeys.pressed HeldKeys.caps
    simp only
    rw [press_caps, h.caps]
    split
    · unfold HeldKeys.caps
      rcases Nat.mod_two_eq_zero_or_one m.capsPresses with heven | hodd
      · rw [Nat.add_mod, heven]
        rfl
      · rw [Nat.add_mod, hodd]
        rfl
    · rfl
  mode := press_shifted

theorem released (hapart : ShiftApart m (.release c)) : FollowsKeys (m.released c) where
  ctrl := by
    have hon : c + 0x80 ≠ leftCtrlOn := break_ne hc (by decide)
    have hoff : c + 0x80 = leftCtrlOff ↔ c = leftCtrlOn := break_eq_iff (d := leftCtrlOn)
    unfold HeldKeys.released
    simp only
    rw [press_ctrl_eq, if_neg hon, h.ctrl]
    by_cases hctrl : c = leftCtrlOn
    · rw [if_pos (hoff.mpr hctrl), hctrl, Function.update_self]
    · rw [if_neg (mt hoff.mp hctrl), Function.update_of_ne (Ne.symm hctrl)]
  shift := by
    have hon : ¬(c + 0x80 = leftShiftOn ∨ c + 0x80 = rightShiftOn) :=
      not_or.mpr ⟨break_ne hc (by decide), break_ne hc (by decide)⟩
    have hoff : (c + 0x80 = leftShiftOff ∨ c + 0x80 = rightShiftOff) ↔
        (c = leftShiftOn ∨ c = rightShiftOn) :=
      or_congr (break_eq_iff (d := leftShiftOn)) (break_eq_iff (d := rightShiftOn))
    unfold HeldKeys.released HeldKeys.shift
    simp only
    rw [press_shift, if_neg hon, h.shift]
    by_cases hl : c = leftShiftOn
    · -- the other shift key is up
      have hother := hapart.1 (congrArg KeyLabel.release hl)
      rw [if_pos (hoff.mpr (Or.inl hl)), hl, Function.update_self,
        Function.update_of_ne (by decide : rightShiftOn ≠ leftShiftOn), hother, Bool.or_false]
    · by_cases hr : c = rightShiftOn
      · have hother := hapart.2 (congrArg KeyLabel.release hr)
        rw [if_pos (hoff.mpr (Or.inr hr)), hr, Function.update_self,
          Function.update_of_ne (by decide : leftShiftOn ≠ rightShiftOn), hother, Bool.or_false]
      · rw [if_neg (mt hoff.mp (not_or.mpr ⟨hl, hr⟩)), Function.update_of_ne (Ne.symm hl),
          Function.update_of_ne (Ne.symm hr)]
        rfl
  caps := by
    unfold HeldKeys.released
    simp only
    rw [press_caps, if_neg (break_ne hc (by decide)), h.caps]
    rfl
  mode := press_shifted

omit hc in
/-- What a key with a character does while the control key is up. -/
theorem event (hkey : CharKey c) (hctrl : m.held leftCtrlOn = false) :
    (m.keyboard.press c).ctrl = false ∧
      (m.keyboard.press c).event c = .char (keyChar c m.shift m.caps) := by
  have hlt : c.toNat < 59 := hkey.lt
  obtain ⟨herase, hctrlKey, hleft, hright, hcaps⟩ := hkey.ne
  have hfollows := h.pressed (c := c) (by omega)
  have hup : (m.pressed c).keyboard.ctrl = false := by
    rw [hfollows.ctrl]
    exact (Function.update_of_ne (Ne.symm hctrlKey) _ _).trans hctrl
  have hshift : (m.pressed c).keyboard.mode.shifted = m.shift := by
    rw [hfollows.mode hup, hfollows.shift]
    unfold HeldKeys.shift HeldKeys.pressed
    simp only
    rw [Function.update_of_ne (Ne.symm hleft), Function.update_of_ne (Ne.symm hright)]
  have hcapsSame : (m.pressed c).keyboard.mode.caps = m.caps := by
    rw [hfollows.caps]
    unfold HeldKeys.caps HeldKeys.pressed
    simp only
    rw [if_neg hcaps]
  have hchar := scancode_eq_keyChar (m.pressed c).keyboard.mode hkey.lt
  rw [hshift, hcapsSame, UInt8.ofNat_toNat] at hchar
  have hne : scancode (m.pressed c).keyboard.mode.row c.toNat ≠ 0 := by
    rw [hchar]
    exact keyChar_ne_zero hkey _ _
  refine ⟨hup, ?_⟩
  change (m.pressed c).keyboard.event c = _
  unfold Keyboard.event
  rw [if_neg hkey.2, if_neg herase, if_pos ⟨hne, hkey.lt, hup⟩, hchar]

end FollowsKeys

theorem FollowsKeys.step {m m' : HeldKeys} {label : KeyLabel} (h : FollowsKeys m)
    (hapart : ShiftApart m label) (hstep : KeyStep m label m') : FollowsKeys m' := by
  cases hstep with
  | press hc _ => exact h.pressed hc
  | release hc _ => exact h.released hc hapart

theorem FollowsKeys.run {labels : List KeyLabel} {m : HeldKeys}
    (hrun : Run (guarded ShiftApart KeyStep) HeldKeys.start labels m) : FollowsKeys m :=
  hrun.invariant (fun _ _ _ h hstep => h.step hstep.1 hstep.2) start_followsKeys

/-! ## Runs -/

/-- The key stores the character that the keys held and caps lock say, if there is room. -/
def StoresKeyChar (m : HeldKeys) (c : UInt8) : Prop :=
  ∀ (signal : Nat → Kernel → Kernel) (b : Boot) (k : Kernel) (n : Nat),
    (k.terminals k.displayedTerminal).curBufSize = n → n ≤ 126 →
      (((getScancodeWith signal b c m.keyboard k).2.terminals k.displayedTerminal).keyboardBuf n =
          keyChar c m.shift m.caps ∧
        ((getScancodeWith signal b c m.keyboard k).2.terminals k.displayedTerminal).curBufSize =
          n + 1)

theorem FollowsKeys.storesKeyChar {m : HeldKeys} (h : FollowsKeys m) {c : UInt8} (hkey : CharKey c)
    (hctrl : m.held leftCtrlOn = false) : StoresKeyChar m c := by
  intro signal b k n hsize hn
  obtain ⟨hup, hevent⟩ := h.event hkey hctrl
  rcases getScancodeWith_effect signal b c m.keyboard k with ⟨hcut, -⟩ | ⟨-, hscreen⟩
  · rw [← press_ctrl, hup] at hcut
    exact absurd hcut (by simp)
  · rw [hevent] at hscreen
    have hkept := hscreen.linesKept k.displayedTerminal
    have hfits : (k.terminals k.displayedTerminal).curBufSize < keyboardBufSize - minu ∨
        (k.terminals k.displayedTerminal).curBufSize = keyboardBufSize - minu := by
      simp only [keyboardBufSize, minu]
      omega
    rw [hkept.keyboardBuf, hkept.curBufSize]
    rw [lineEffect_terminals, Function.update_self]
    simp only [eventRecord, typeChar]
    rw [if_pos hfits]
    unfold pushChar
    rw [hsize, Int.toNat_natCast]
    exact ⟨Function.update_self n _ _, rfl⟩

theorem released_held_of_ne (m : HeldKeys) {c d : UInt8} (h : d ≠ c) :
    (m.released c).held d = m.held d := Function.update_of_ne h _ _

/-- The shift flag is right after a step if and only if no shift key was released while the
other one was held. -/
theorem FollowsKeys.shift_iff {m m' : HeldKeys} {label : KeyLabel} (h : FollowsKeys m)
    (hstep : KeyStep m label m') : m'.keyboard.shift = m'.shift ↔ ShiftApart m label := by
  refine ⟨fun hshift => ?_, fun hapart => (h.step hapart hstep).shift⟩
  have hflag : ∀ c, c = leftShiftOn ∨ c = rightShiftOn →
      (m.released c).keyboard.shift = false := by
    rintro c (rfl | rfl)
    · exact press_shift leftShiftOff m.keyboard
    · exact press_shift rightShiftOff m.keyboard
  cases hstep with
  | press _ _ =>
      exact ⟨fun hlabel => absurd hlabel (by simp), fun hlabel => absurd hlabel (by simp)⟩
  | @release c _ _ =>
      refine ⟨fun hlabel => ?_, fun hlabel => ?_⟩
      · obtain rfl := KeyLabel.release.inj hlabel
        rw [hflag _ (Or.inl rfl)] at hshift
        have hboth := Bool.or_eq_false_iff.mp hshift.symm
        exact (released_held_of_ne m (by decide)).symm.trans hboth.2
      · obtain rfl := KeyLabel.release.inj hlabel
        rw [hflag _ (Or.inr rfl)] at hshift
        have hboth := Bool.or_eq_false_iff.mp hshift.symm
        exact (released_held_of_ne m (by decide)).symm.trans hboth.1

/-- In every run in which no shift key is released while the other one is held, a key with
a character that is pressed while the control key is up stores what the keys held and caps
lock say; a letter is a capital one if and only if exactly one of shift and caps lock is
active. And the shift flag stays right if and only if the run goes on like that. -/
theorem modifiers_follow_keys (labels : List KeyLabel) (m : HeldKeys)
    (hrun : Run (guarded ShiftApart KeyStep) HeldKeys.start labels m) :
    (∀ c, CharKey c → m.held leftCtrlOn = false → StoresKeyChar m c ∧
      (isLetter (scancode KeyMode.orig.row c.toNat) = true →
        isUpper (keyChar c m.shift m.caps) = (m.shift ^^ m.caps))) ∧
    ∀ label m', KeyStep m label m' → (m'.keyboard.shift = m'.shift ↔ ShiftApart m label) := by
  have hfollows := FollowsKeys.run hrun
  refine ⟨fun c hkey hctrl => ⟨hfollows.storesKeyChar hkey hctrl, fun hletter => ?_⟩,
    fun label m' hstep => hfollows.shift_iff hstep⟩
  exact isUpper_keyChar hletter m.shift m.caps

/-- Both shift keys are pressed. -/
def bothShifts : HeldKeys := (HeldKeys.start.pressed leftShiftOn).pressed rightShiftOn

theorem bothShifts_run : Run KeyStep HeldKeys.start [.press leftShiftOn, .press rightShiftOn]
    bothShifts :=
  (Run.single (.press (by decide) rfl)).snoc (.press (by decide) rfl)

/-- The left shift key is pressed and released, then caps lock, and then the right shift key
is pressed: the letter `a` is a small one. -/
theorem modifiers_follow_keys_caps : ∃ m,
    Run (guarded ShiftApart KeyStep) HeldKeys.start
      ([.press leftShiftOn] ++ [.release leftShiftOn] ++ [.press capslockOn] ++
        [.release capslockOn] ++ [.press rightShiftOn]) m ∧
    m.shift = true ∧ m.caps = true ∧ StoresKeyChar m 0x1E ∧
      isUpper (keyChar 0x1E m.shift m.caps) = false := by
  have hpress : ∀ {m : HeldKeys} {c : UInt8}, c.toNat < 0x80 → m.held c = false →
      guarded ShiftApart KeyStep m (.press c) (m.pressed c) :=
    fun hc hup => ⟨⟨nofun, nofun⟩, .press hc hup⟩
  have hrelease : ∀ {m : HeldKeys} {c : UInt8}, c.toNat < 0x80 → m.held c = true →
      (c = leftShiftOn → m.held rightShiftOn = false) →
      (c = rightShiftOn → m.held leftShiftOn = false) →
      guarded ShiftApart KeyStep m (.release c) (m.released c) :=
    fun hc hdown hleft hright => ⟨⟨fun h => hleft (KeyLabel.release.inj h),
      fun h => hright (KeyLabel.release.inj h)⟩, .release hc hdown⟩
  have hrun := ((((Run.single
    (hpress (m := HeldKeys.start) (c := leftShiftOn) (by decide) rfl)).snoc
    (hrelease (c := leftShiftOn) (by decide) (by decide) (by decide) (by decide))).snoc
    (hpress (c := capslockOn) (by decide) (by decide))).snoc
    (hrelease (c := capslockOn) (by decide) (by decide) (by decide) (by decide))).snoc
    (hpress (c := rightShiftOn) (by decide) (by decide))
  have hfollows := (modifiers_follow_keys _ _ hrun).1 0x1E (by decide) (by decide)
  exact ⟨_, hrun, by decide, by decide, hfollows.1, (hfollows.2 (by decide)).trans (by decide)⟩

/-- One of two shift keys is released, and the letter `a` is pressed. -/
theorem modifiers_forget_shift : ¬∀ (labels : List KeyLabel) (m : HeldKeys),
    Run KeyStep HeldKeys.start labels m →
      ∀ c, CharKey c → m.held c = false → m.held leftCtrlOn = false → StoresKeyChar m c := by
  intro hall
  have hrun := bothShifts_run.snoc (.release (c := rightShiftOn) (by decide) (by decide))
  have hstores := hall _ _ hrun 0x1E (by decide) (by decide) (by decide) (fun _ k => k) smallBoot
    blankKernel 0 (by decide) (by decide)
  exact absurd hstores.1 (by decide +kernel)

end Ece391Kernel
