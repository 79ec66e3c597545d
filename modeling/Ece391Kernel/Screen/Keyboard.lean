import Ece391Kernel.Screen.Frame

/-!
# The keyboard interrupt

`getScancode` of `keyboard.c`, with the line editing it does on the displayed terminal.
Its static variables are the `Keyboard`; they depend on the scancodes only. What one
interrupt does, apart from echoing, is read off the scancode and the keyboard: the
`KeyEvent`, and `lineEffect` for the kernel.
-/

namespace Ece391Kernel

/-- The values of `mode`. -/
inductive KeyMode
  | orig
  | origShift
  | capShift
  | cap
  deriving DecidableEq, Repr

/-- The row of `Scancode` for a mode. -/
def KeyMode.row : KeyMode → Fin 4
  | .orig => ⟨0, by decide⟩
  | .origShift => ⟨1, by decide⟩
  | .capShift => ⟨2, by decide⟩
  | .cap => ⟨3, by decide⟩

/-- The static variables of `keyboard.c`; `true` is `pressed`. -/
structure Keyboard where
  mode : KeyMode
  alt : Bool
  shift : Bool
  ctrl : Bool
  deriving DecidableEq, Repr

/-- `keyboard_init`. -/
def keyboardInit : Keyboard := ⟨.orig, false, false, false⟩

@[simp] def leftCtrlOn : UInt8 := 0x1D

@[simp] def leftCtrlOff : UInt8 := 0x9D

@[simp] def leftShiftOn : UInt8 := 0x2A

@[simp] def leftShiftOff : UInt8 := 0xAA

@[simp] def rightShiftOn : UInt8 := 0x36

@[simp] def rightShiftOff : UInt8 := 0xB6

@[simp] def capslockOn : UInt8 := 0x3A

@[simp] def leftAltOn : UInt8 := 0x38

@[simp] def leftAltOff : UInt8 := 0xB8

/-- `ENTER`. -/
@[simp] def enterKey : UInt8 := 0x1C

/-- `LETTER_L`. -/
@[simp] def letterL : UInt8 := 0x26

/-- The scancode `0x2E` of the letter C, which the source writes out. -/
@[simp] def letterC : UInt8 := 0x2E

/-- `BACKSPACE`. -/
@[simp] def backspaceKey : UInt8 := 0x0E

/-- The scancodes `F1`, `F2` and `F3`, of the first function key and of the next two. -/
@[simp] def f1 : UInt8 := 0x3B

@[simp] def f2 : UInt8 := 0x3C

@[simp] def f3 : UInt8 := 0x3D

@[simp] def keyboardBufSize : Nat := 128

@[simp] def minu : Nat := 2

/-! ## The modifier keys -/

def ctrlKey (c : UInt8) (kb : Keyboard) : Keyboard :=
  if c = leftCtrlOn then { kb with ctrl := true }
  else if c = leftCtrlOff then { kb with ctrl := false }
  else kb

def capslockKey (c : UInt8) (kb : Keyboard) : Keyboard :=
  if c = capslockOn then
    match kb.mode with
    | .orig => { kb with mode := .cap }
    | .origShift => { kb with mode := .capShift }
    | .capShift => { kb with mode := .orig }
    | .cap => { kb with mode := .orig }
  else kb

def shiftKey (c : UInt8) (kb : Keyboard) : Keyboard :=
  if c = leftShiftOn ∨ c = rightShiftOn then { kb with shift := true }
  else if c = leftShiftOff ∨ c = rightShiftOff then { kb with shift := false }
  else kb

/-- The two switches over `mode` that follow the shift keys. -/
def shiftMode (kb : Keyboard) : Keyboard :=
  if kb.ctrl = false then
    match kb.shift, kb.mode with
    | true, .orig => { kb with mode := .origShift }
    | true, .origShift => { kb with mode := .origShift }
    | true, .capShift => { kb with mode := .capShift }
    | true, .cap => { kb with mode := .capShift }
    | false, .orig => { kb with mode := .orig }
    | false, .origShift => { kb with mode := .orig }
    | false, .capShift => { kb with mode := .cap }
    | false, .cap => { kb with mode := .cap }
  else kb

def altKey (c : UInt8) (kb : Keyboard) : Keyboard :=
  if c = leftAltOn then { kb with alt := true }
  else if c = leftAltOff then { kb with alt := false }
  else kb

/-! ## The line -/

/-- Store a character at the end of the line. -/
def pushChar (c : UInt8) (term : Terminal) : Terminal :=
  { term with
    keyboardBuf := Function.update term.keyboardBuf term.curBufSize.toNat c
    curBufSize := term.curBufSize + 1 }

/-- Take the last character off the line. -/
def popChar (term : Terminal) : Terminal := { term with curBufSize := term.curBufSize - 1 }

/-- The loop of `getScancode` that copies the line, and the sizes after it. -/
def storeOldBuf (term : Terminal) : Terminal :=
  { term with
    storedOldBuf := fun i =>
      if (i : Int) < term.curBufSize then term.keyboardBuf i else term.storedOldBuf i
    oldBufSize := term.curBufSize
    curBufSize := 0 }

/-- The enter key. -/
def enterLine (b : Boot) (k : Kernel) : Kernel :=
  let k := k.setTerminal k.displayedTerminal fun term => { term with enterFlag := 1 }
  let k := putc b newline k
  k.setTerminal k.displayedTerminal fun term => storeOldBuf (pushChar newline term)

/-- `store_in_buffer`, for the scancode `c` in the keyboard mode `mode`. -/
def storeInBuffer (b : Boot) (mode : Fin 4) (c : UInt8) (k : Kernel) : Kernel :=
  let size := (k.terminals k.displayedTerminal).curBufSize
  if (size < keyboardBufSize - minu ∨ size = keyboardBufSize - minu) ∧ c ≠ backspaceKey then
    if c = enterKey then k
    else outKey b mode c.toNat
      (k.setTerminal k.displayedTerminal (pushChar (scancode mode c.toNat)))
  else if c = backspaceKey ∧ size ≠ 0 then
    backspace b (k.setTerminal k.displayedTerminal popChar)
  else k

/-- The terminal that a function key displays. -/
def functionTerminal (c : UInt8) : Option (Fin 3) :=
  if c = f1 then some firstTerminal
  else if c = f2 then some (nextTerminal firstTerminal)
  else if c = f3 then some (nextTerminal (nextTerminal firstTerminal))
  else none

/-- The function keys. -/
def functionKey (b : Boot) (c : UInt8) (k : Kernel) : Kernel :=
  match functionTerminal c with
  | some t => switchActiveTerminal b t k
  | none => k

/-- The keyboard after a scancode. -/
def Keyboard.press (c : UInt8) (kb : Keyboard) : Keyboard :=
  altKey c (shiftMode (shiftKey c (capslockKey c (ctrlKey c kb))))

@[simp] theorem capslockKey_ctrl (c : UInt8) (kb : Keyboard) :
    (capslockKey c kb).ctrl = kb.ctrl := by
  unfold capslockKey
  split
  · cases kb.mode <;> rfl
  · rfl

@[simp] theorem shiftKey_ctrl (c : UInt8) (kb : Keyboard) : (shiftKey c kb).ctrl = kb.ctrl := by
  unfold shiftKey
  split_ifs <;> rfl

@[simp] theorem shiftMode_ctrl (kb : Keyboard) : (shiftMode kb).ctrl = kb.ctrl := by
  unfold shiftMode
  split
  · cases kb.shift <;> cases kb.mode <;> rfl
  · rfl

@[simp] theorem altKey_ctrl (c : UInt8) (kb : Keyboard) : (altKey c kb).ctrl = kb.ctrl := by
  unfold altKey
  split_ifs <;> rfl

/-- Only the control key itself changes its flag. -/
theorem press_ctrl (c : UInt8) (kb : Keyboard) : (kb.press c).ctrl = (ctrlKey c kb).ctrl := by
  unfold Keyboard.press
  simp only [altKey_ctrl, shiftMode_ctrl, shiftKey_ctrl, capslockKey_ctrl]

/-- The part of `getScancode` that comes after the modifier keys. The source handles the
alt key behind the enter key, which does not look at it. -/
def keyActions (b : Boot) (c : UInt8) (kb : Keyboard) (k : Kernel) : Kernel :=
  let k := if c = enterKey then enterLine b k else k
  let k := if kb.alt = true then functionKey b c k else k
  if scancode kb.mode.row c.toNat ≠ 0 ∧ c.toNat < scancodeSize ∧ kb.ctrl = false then
    storeInBuffer b kb.mode.row c k
  else if c = backspaceKey then storeInBuffer b kb.mode.row c k
  else k

/-- `getScancode`, for the scancode read from the port; `none` for control-C, whose
`signal_delivery` is not in the source. -/
def getScancode (b : Boot) (c : UInt8) (kb : Keyboard) (k : Kernel) : Option (Keyboard × Kernel) :=
  if (ctrlKey c kb).ctrl = true ∧ c = letterC then none
  else
    let k := if (ctrlKey c kb).ctrl = true ∧ c = letterL then clearBuffer (clear b k) else k
    some (kb.press c, keyActions b c (kb.press c) k)

/-- `getScancode` with control-C, given what `signal_delivery` does to the kernel. -/
def getScancodeWith (signalDelivery : Nat → Kernel → Kernel) (b : Boot) (c : UInt8) (kb : Keyboard)
    (k : Kernel) : Keyboard × Kernel :=
  let k :=
    if (ctrlKey c kb).ctrl = true then
      if c = letterL then clearBuffer (clear b k)
      else if c = letterC then signalDelivery 2 (k.onTerminal k.displayedTerminal)
      else k
    else k
  (kb.press c, keyActions b c (kb.press c) k)

/-- Apart from control-C it makes no difference what `signal_delivery` does. -/
theorem getScancode_eq (signalDelivery : Nat → Kernel → Kernel) (b : Boot) (c : UInt8)
    (kb : Keyboard) (k : Kernel) :
    getScancode b c kb k =
      if (ctrlKey c kb).ctrl = true ∧ c = letterC then none
      else some (getScancodeWith signalDelivery b c kb k) := by
  unfold getScancode getScancodeWith
  by_cases hctrl : (ctrlKey c kb).ctrl = true
  · by_cases hc : c = letterC
    · rw [if_pos ⟨hctrl, hc⟩, if_pos ⟨hctrl, hc⟩]
    · simp only [hctrl, hc, if_false, if_true, true_and, and_false]
  · simp only [hctrl, false_and, if_false, Bool.false_eq_true]

/-! ## What one interrupt does -/

/-- What a key does to the line and to the display. -/
inductive KeyEvent
  | char (c : UInt8)
  | erase
  | enter
  | display (t : Fin 3)
  | other
  deriving DecidableEq, Repr

/-- What a scancode does, in the keyboard state after it. -/
def Keyboard.event (kb : Keyboard) (c : UInt8) : KeyEvent :=
  if c = enterKey then .enter
  else if c = backspaceKey then .erase
  else if scancode kb.mode.row c.toNat ≠ 0 ∧ c.toNat < scancodeSize ∧ kb.ctrl = false then
    .char (scancode kb.mode.row c.toNat)
  else if kb.alt = true then
    match functionTerminal c with
    | some t => .display t
    | none => .other
  else .other

/-! ## The keys, event by event -/

/-- The modifier keys and the keys of the line are not function keys. -/
theorem functionTerminal_eq_none {c : UInt8} (h : c.toNat < scancodeSize) :
    functionTerminal c = none := by
  have hne : ∀ f : UInt8, scancodeSize ≤ f.toNat → c ≠ f := by
    rintro f hf rfl
    exact absurd h (Nat.not_lt_of_le hf)
  unfold functionTerminal
  rw [if_neg (hne f1 (by decide)), if_neg (hne f2 (by decide)), if_neg (hne f3 (by decide))]

section Events

variable {b : Boot} {kb : Keyboard} {c ch : UInt8} {t : Fin 3} {k : Kernel}

theorem Keyboard.event_eq_enter : kb.event c = .enter ↔ c = enterKey := by
  unfold Keyboard.event
  by_cases hc : c = enterKey
  · rw [if_pos hc]
    exact iff_of_true rfl hc
  · rw [if_neg hc]
    refine iff_of_false ?_ hc
    split_ifs
    · simp
    · simp
    · cases functionTerminal c <;> simp
    · simp

/-- A character comes from the table. -/
theorem event_eq_char (h : kb.event c = .char ch) :
    c ≠ enterKey ∧ c ≠ backspaceKey ∧ (scancode kb.mode.row c.toNat ≠ 0 ∧
      c.toNat < scancodeSize ∧ kb.ctrl = false) ∧ scancode kb.mode.row c.toNat = ch := by
  unfold Keyboard.event at h
  split_ifs at h with henter herase hchar halt
  · exact ⟨henter, herase, hchar, KeyEvent.char.inj h⟩
  · cases hterminal : functionTerminal c <;> simp [hterminal] at h

theorem event_eq_erase (h : kb.event c = .erase) : c = backspaceKey := by
  unfold Keyboard.event at h
  split_ifs at h with henter herase hchar halt
  · exact herase
  · cases hterminal : functionTerminal c <;> simp [hterminal] at h

theorem event_eq_other (h : kb.event c = .other) :
    c ≠ enterKey ∧ c ≠ backspaceKey ∧
      ¬(scancode kb.mode.row c.toNat ≠ 0 ∧ c.toNat < scancodeSize ∧ kb.ctrl = false) ∧
      (kb.alt = true → functionTerminal c = none) := by
  unfold Keyboard.event at h
  split_ifs at h with henter herase hchar halt
  · refine ⟨henter, herase, hchar, fun _ => ?_⟩
    cases hterminal : functionTerminal c with
    | none => rfl
    | some t => simp [hterminal] at h
  · exact ⟨henter, herase, hchar, fun halt' => absurd halt' halt⟩

theorem event_eq_display (h : kb.event c = .display t) :
    c ≠ enterKey ∧ c ≠ backspaceKey ∧
      ¬(scancode kb.mode.row c.toNat ≠ 0 ∧ c.toNat < scancodeSize ∧ kb.ctrl = false) ∧
      kb.alt = true ∧ functionTerminal c = some t := by
  unfold Keyboard.event at h
  split_ifs at h with henter herase hchar halt
  refine ⟨henter, herase, hchar, halt, ?_⟩
  cases hterminal : functionTerminal c with
  | none => simp [hterminal] at h
  | some u => simpa [hterminal] using h

theorem keyActions_enter (h : kb.event c = .enter) : keyActions b c kb k = enterLine b k := by
  obtain rfl := Keyboard.event_eq_enter.mp h
  have hnone : functionTerminal enterKey = none := functionTerminal_eq_none (by decide)
  have hstored (k : Kernel) : storeInBuffer b kb.mode.row enterKey k = k := by
    unfold storeInBuffer
    simp
  unfold keyActions
  simp only [if_true, functionKey, hnone, ite_self, hstored]

theorem keyActions_char (h : kb.event c = .char ch) :
    keyActions b c kb k =
      if (k.terminals k.displayedTerminal).curBufSize < keyboardBufSize - minu ∨
          (k.terminals k.displayedTerminal).curBufSize = keyboardBufSize - minu then
        putc b ch (k.setTerminal k.displayedTerminal (pushChar ch))
      else k := by
  obtain ⟨henter, herase, hchar, rfl⟩ := event_eq_char h
  have hnone : functionTerminal c = none := functionTerminal_eq_none hchar.2.1
  unfold keyActions
  simp only [functionKey, hnone, ite_self, if_neg henter, if_pos hchar]
  unfold storeInBuffer outKey
  simp only [ne_eq, herase, not_false_eq_true, and_true, henter, if_false, false_and,
    if_pos hchar.2.1]

theorem keyActions_erase (h : kb.event c = .erase) :
    keyActions b c kb k =
      if (k.terminals k.displayedTerminal).curBufSize ≠ 0 then
        backspace b (k.setTerminal k.displayedTerminal popChar)
      else k := by
  obtain rfl := event_eq_erase h
  have hnone : functionTerminal backspaceKey = none := functionTerminal_eq_none (by decide)
  have henter : backspaceKey ≠ enterKey := by decide
  unfold keyActions
  simp only [functionKey, hnone, ite_self, if_neg henter, if_true]
  unfold storeInBuffer
  simp only [ne_eq, not_true_eq_false, and_false, if_false, true_and]

theorem keyActions_other (h : kb.event c = .other) : keyActions b c kb k = k := by
  obtain ⟨henter, herase, hchar, hterminal⟩ := event_eq_other h
  unfold keyActions
  simp only [if_neg henter, if_neg hchar, if_neg herase]
  split
  · rename_i halt
    unfold functionKey
    rw [hterminal halt]
  · rfl

theorem keyActions_display (h : kb.event c = .display t) :
    keyActions b c kb k = switchActiveTerminal b t k := by
  obtain ⟨henter, herase, hchar, halt, hterminal⟩ := event_eq_display h
  unfold keyActions functionKey
  simp only [if_neg henter, if_neg hchar, if_neg herase, if_pos halt, hterminal]

end Events

/-! ## The line effect of an event -/

/-- A character that fits is stored. -/
def typeChar (c : UInt8) (term : Terminal) : Terminal :=
  if term.curBufSize < keyboardBufSize - minu ∨ term.curBufSize = keyboardBufSize - minu then
    pushChar c term
  else term

/-- A character that is there is taken off. -/
def eraseChar (term : Terminal) : Terminal :=
  if term.curBufSize ≠ 0 then popChar term else term

/-- The enter key, for the record of the terminal. -/
def completeLine (term : Terminal) : Terminal :=
  storeOldBuf (pushChar newline { term with enterFlag := 1 })

/-- The change of the kernel, apart from the echo. -/
def lineEffect (e : KeyEvent) (k : Kernel) : Kernel :=
  match e with
  | .char c => k.setTerminal k.displayedTerminal (typeChar c)
  | .erase => k.setTerminal k.displayedTerminal eraseChar
  | .enter => k.setTerminal k.displayedTerminal completeLine
  | .display t => showTerminal t k
  | .other => k

/-- The change of the record of the displayed terminal. -/
def eventRecord (e : KeyEvent) (term : Terminal) : Terminal :=
  match e with
  | .char c => typeChar c term
  | .erase => eraseChar term
  | .enter => completeLine term
  | .display _ => term
  | .other => term

/-- No other record changes. -/
theorem lineEffect_terminals (e : KeyEvent) (k : Kernel) :
    (lineEffect e k).terminals = Function.update k.terminals k.displayedTerminal
      (eventRecord e (k.terminals k.displayedTerminal)) := by
  cases e with
  | char c => rfl
  | erase => rfl
  | enter => rfl
  | display t => exact (Function.update_eq_self k.displayedTerminal k.terminals).symm
  | other => exact (Function.update_eq_self k.displayedTerminal k.terminals).symm

/-! ## The echo changes the screen only -/

/-- A change of a record that does not look at the cursor. -/
theorem ScreenOnly.setTerminal {k k' : Kernel} (h : ScreenOnly k k') (t : Fin 3)
    {f : Terminal → Terminal}
    (hf : ∀ term x y, f { term with screenX := x, screenY := y } =
      { f term with screenX := x, screenY := y }) :
    ScreenOnly (k.setTerminal t f) (k'.setTerminal t f) := by
  obtain ⟨m, x, y, rfl⟩ := h
  refine ⟨m, x, y, ?_⟩
  unfold Kernel.setTerminal withScreens
  congr 1
  funext u
  by_cases hu : u = t
  · subst hu
    simp only [Function.update_self]
    exact hf _ _ _
  · simp [hu]

theorem typeChar_cursor (c : UInt8) (term : Terminal) (x y : Int) :
    typeChar c { term with screenX := x, screenY := y } =
      { typeChar c term with screenX := x, screenY := y } := by
  unfold typeChar
  split <;> rfl

theorem eraseChar_cursor (term : Terminal) (x y : Int) :
    eraseChar { term with screenX := x, screenY := y } =
      { eraseChar term with screenX := x, screenY := y } := by
  unfold eraseChar
  split <;> rfl

theorem ScreenOnly.lineEffect {k k' : Kernel} (h : ScreenOnly k k') (e : KeyEvent) :
    ScreenOnly (lineEffect e k) (lineEffect e k') := by
  have hdisplayed := h.displayedTerminal_eq
  cases e with
  | char c =>
      unfold Ece391Kernel.lineEffect
      simp only [hdisplayed]
      exact h.setTerminal _ (typeChar_cursor c)
  | erase =>
      unfold Ece391Kernel.lineEffect
      simp only [hdisplayed]
      exact h.setTerminal _ eraseChar_cursor
  | enter =>
      unfold Ece391Kernel.lineEffect
      simp only [hdisplayed]
      exact h.setTerminal _ fun _ _ _ => rfl
  | display t =>
      obtain ⟨m, x, y, rfl⟩ := h
      exact ⟨m, x, y, rfl⟩
  | other => exact h

theorem setTerminal_setTerminal (k : Kernel) (t : Fin 3) (f g : Terminal → Terminal) :
    (k.setTerminal t f).setTerminal t g = k.setTerminal t fun term => g (f term) := by
  unfold Kernel.setTerminal
  simp

theorem lineEffect_char (c : UInt8) (k : Kernel) :
    lineEffect (.char c) k =
      if (k.terminals k.displayedTerminal).curBufSize < keyboardBufSize - minu ∨
          (k.terminals k.displayedTerminal).curBufSize = keyboardBufSize - minu then
        k.setTerminal k.displayedTerminal (pushChar c)
      else k := by
  simp only [lineEffect, Kernel.setTerminal, typeChar]
  split
  · rfl
  · rw [Function.update_eq_self]

theorem lineEffect_erase (k : Kernel) :
    lineEffect .erase k =
      if (k.terminals k.displayedTerminal).curBufSize ≠ 0 then
        k.setTerminal k.displayedTerminal popChar
      else k := by
  simp only [lineEffect, Kernel.setTerminal, eraseChar]
  split
  · rfl
  · rw [Function.update_eq_self]

theorem enterLine_effect (b : Boot) (k : Kernel) :
    ScreenOnly (lineEffect .enter k) (enterLine b k) := by
  have hputc := putc_screenOnly b newline
    (k.setTerminal k.displayedTerminal fun term => { term with enterFlag := 1 })
  have hstore := hputc.setTerminal k.displayedTerminal
    (f := fun term => storeOldBuf (pushChar newline term)) fun _ _ _ => rfl
  rw [setTerminal_setTerminal] at hstore
  unfold enterLine
  simp only [hputc.displayedTerminal_eq, Kernel.setTerminal_displayedTerminal]
  exact hstore

/-- The keys after the modifier keys do what the event says, and echo. -/
theorem keyActions_effect (b : Boot) (c : UInt8) (kb : Keyboard) (k : Kernel) :
    ScreenOnly (lineEffect (kb.event c) k) (keyActions b c kb k) := by
  cases hevent : kb.event c with
  | char ch =>
      rw [keyActions_char hevent, lineEffect_char]
      split
      · exact putc_screenOnly b ch _
      · exact ScreenOnly.refl k
  | erase =>
      rw [keyActions_erase hevent, lineEffect_erase]
      split
      · exact backspace_screenOnly b _
      · exact ScreenOnly.refl k
  | enter =>
      rw [keyActions_enter hevent]
      exact enterLine_effect b k
  | display t =>
      obtain ⟨k', hmem, heq⟩ := switchActiveTerminal_eq b t k
      rw [keyActions_display hevent, heq]
      exact hmem.screenOnly.lineEffect (.display t)
  | other =>
      rw [keyActions_other hevent]
      exact ScreenOnly.refl k

/-- What one interrupt does. -/
theorem getScancode_effect {b : Boot} {c : UInt8} {kb kb' : Keyboard} {k k' : Kernel}
    (h : getScancode b c kb k = some (kb', k')) :
    kb' = kb.press c ∧ ScreenOnly (lineEffect (kb'.event c) k) k' := by
  unfold getScancode at h
  by_cases hcut : (ctrlKey c kb).ctrl = true ∧ c = letterC
  · rw [if_pos hcut] at h
    exact absurd h (by simp)
  · rw [if_neg hcut] at h
    obtain ⟨rfl, rfl⟩ := Prod.mk.inj (Option.some.inj h)
    have hclear : ScreenOnly k
        (if (ctrlKey c kb).ctrl = true ∧ c = letterL then clearBuffer (clear b k) else k) := by
      split
      · exact clearScreen_screenOnly b k
      · exact ScreenOnly.refl k
    exact ⟨rfl, (hclear.lineEffect _).trans (keyActions_effect b c (kb.press c) _)⟩

/-- Control-C is no key of the line, and no function key. -/
theorem event_interrupt {kb : Keyboard} (hctrl : kb.ctrl = true) : kb.event letterC = .other := by
  have hnone : functionTerminal letterC = none := functionTerminal_eq_none (by decide)
  unfold Keyboard.event
  rw [if_neg (by decide), if_neg (by decide), if_neg (by simp [hctrl]), hnone, ite_self]

/-- What one interrupt does, with control-C. -/
theorem getScancodeWith_effect (signalDelivery : Nat → Kernel → Kernel) (b : Boot) (c : UInt8)
    (kb : Keyboard) (k : Kernel) :
    ((ctrlKey c kb).ctrl = true ∧ c = letterC ∧ (kb.press c).event c = .other ∧
      (getScancodeWith signalDelivery b c kb k).2 =
        signalDelivery 2 (k.onTerminal k.displayedTerminal)) ∨
    (¬((ctrlKey c kb).ctrl = true ∧ c = letterC) ∧
      ScreenOnly (lineEffect ((kb.press c).event c) k)
        (getScancodeWith signalDelivery b c kb k).2) := by
  by_cases hcut : (ctrlKey c kb).ctrl = true ∧ c = letterC
  · obtain ⟨hctrl, rfl⟩ := hcut
    have hevent := event_interrupt ((press_ctrl letterC kb).trans hctrl)
    refine Or.inl ⟨hctrl, rfl, hevent, ?_⟩
    unfold getScancodeWith
    simp only [if_true]
    rw [if_pos hctrl, if_neg (by decide), keyActions_other hevent]
  · refine Or.inr ⟨hcut, ?_⟩
    have heq := getScancode_eq signalDelivery b c kb k
    rw [if_neg hcut] at heq
    exact (getScancode_effect heq).2

end Ece391Kernel
