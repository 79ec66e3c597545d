import Ece391Kernel.Screen.LineInput
import Ece391Kernel.FileSystem.Image

/-!
# The line editor

Every terminal has its own line, which the keyboard interrupt edits while the terminal is
displayed. What the line holds is a fold over the keys since the last enter key, whatever
the scancodes and the switches between the terminals; and every store that the interrupt
makes to a line buffer is within its 128 bytes, also that of the newline after a line that
is full. The source of `signal_delivery` is missing: it is a parameter here, that leaves
the line buffers alone.
-/

namespace Ece391Kernel

open TransitionSystem ByteMemory

/-! ## What an interrupt stores -/

/-- The line buffers of a terminal are as before. -/
structure SameLine (term term' : Terminal) : Prop where
  keyboardBuf : term'.keyboardBuf = term.keyboardBuf
  storedOldBuf : term'.storedOldBuf = term.storedOldBuf
  curBufSize : term'.curBufSize = term.curBufSize
  oldBufSize : term'.oldBufSize = term.oldBufSize

theorem SameLine.refl (term : Terminal) : SameLine term term := ⟨rfl, rfl, rfl, rfl⟩

/-- The line buffers of all terminals are as before. -/
def LinesKept (k k' : Kernel) : Prop := ∀ t, SameLine (k.terminals t) (k'.terminals t)

theorem ScreenOnly.linesKept {k k' : Kernel} (h : ScreenOnly k k') : LinesKept k k' := by
  obtain ⟨m, x, y, rfl⟩ := h
  exact fun _ => ⟨rfl, rfl, rfl, rfl⟩

theorem switchActiveTerminal_linesKept (b : Boot) (t : Fin 3) (k : Kernel) :
    LinesKept k (switchActiveTerminal b t k) := by
  obtain ⟨k', ⟨m, rfl⟩, heq⟩ := switchActiveTerminal_eq b t k
  rw [heq]
  exact fun _ => SameLine.refl _

/-- The stores of a key to `keyboard_buf`, in order. -/
def keyboardBufStores (e : KeyEvent) (term : Terminal) : List (Int × UInt8) :=
  match e with
  | .char c =>
      if term.curBufSize < keyboardBufSize - minu ∨ term.curBufSize = keyboardBufSize - minu then
        storesFrom term.curBufSize [c]
      else []
  | .enter => storesFrom term.curBufSize [newline]
  | .erase => []
  | .display _ => []
  | .other => []

/-- The stores of a key to `stored_old_buf`, in order: those of the loop that copies the
line with its newline. -/
def storedOldBufStores (e : KeyEvent) (term : Terminal) : List (Int × UInt8) :=
  match e with
  | .enter =>
      storesFrom 0 ((List.range (term.curBufSize + 1).toNat).map
        (pushChar newline term).keyboardBuf)
  | .char _ => []
  | .erase => []
  | .display _ => []
  | .other => []

/-- A buffer after stores with indices that are not negative. -/
def replayBuf (buf : Nat → UInt8) (stores : List (Int × UInt8)) (i : Nat) : UInt8 :=
  replay (fun x : Int => buf x.toNat) stores i

/-- One store to a buffer. -/
theorem replayBuf_single (buf : Nat → UInt8) (n : Nat) (c : UInt8) :
    replayBuf buf (storesFrom n [c]) = Function.update buf n c := by
  funext i
  unfold replayBuf storesFrom replay
  by_cases hi : i = n
  · subst hi
    simp [storesFrom]
  · have hne : (i : Int) ≠ n := by omega
    simp [storesFrom, Function.update_of_ne hi, Function.update_of_ne hne]

/-- The stores of a copying loop. -/
theorem replayBuf_copy (buf buf' : Nat → UInt8) (n : Nat) :
    replayBuf buf (storesFrom 0 ((List.range n).map buf')) =
      fun i => if i < n then buf' i else buf i := by
  funext i
  have hstored := storeFrom_add (fun x : Int => buf x.toNat) 0 ((List.range n).map buf') i
  rw [Int.zero_add] at hstored
  unfold replayBuf
  rw [replay_storesFrom, hstored]
  by_cases hi : i < n
  · rw [if_pos hi, List.getD_eq_getElem _ _ (by simpa using hi)]
    simp
  · rw [if_neg hi, List.getD_eq_default _ _ (by simpa using hi), Int.toNat_natCast]

theorem eventRecord_keyboardBuf (e : KeyEvent) {term : Terminal} (hsize : 0 ≤ term.curBufSize) :
    (eventRecord e term).keyboardBuf = replayBuf term.keyboardBuf (keyboardBufStores e term) := by
  obtain ⟨n, hn⟩ := Int.eq_ofNat_of_zero_le hsize
  have hsingle (c : UInt8) : replayBuf term.keyboardBuf (storesFrom term.curBufSize [c]) =
      Function.update term.keyboardBuf term.curBufSize.toNat c := by
    rw [hn, replayBuf_single, Int.toNat_natCast]
  cases e with
  | char c =>
      simp only [eventRecord, typeChar, keyboardBufStores]
      split
      · exact (hsingle c).symm
      · rfl
  | erase =>
      simp only [eventRecord, eraseChar]
      split <;> rfl
  | enter => exact (hsingle newline).symm
  | display t => rfl
  | other => rfl

theorem eventRecord_storedOldBuf (e : KeyEvent) (term : Terminal) :
    (eventRecord e term).storedOldBuf =
      replayBuf term.storedOldBuf (storedOldBufStores e term) := by
  cases e with
  | char c =>
      simp only [eventRecord, typeChar]
      split <;> rfl
  | erase =>
      simp only [eventRecord, eraseChar]
      split <;> rfl
  | enter =>
      unfold storedOldBufStores
      rw [replayBuf_copy]
      funext i
      have hiff : (i : Int) < term.curBufSize + 1 ↔ i < (term.curBufSize + 1).toNat := by omega
      exact if_congr hiff rfl rfl
  | display t => rfl
  | other => rfl

/-! ## The machine -/

/-- The keys of the displayed terminal since the last enter key, after one more. -/
def recordKey (e : KeyEvent) (t : Fin 3) (pending : Fin 3 → List LineKey) : Fin 3 → List LineKey :=
  match e with
  | .char c => Function.update pending t (pending t ++ [.char c])
  | .erase => Function.update pending t (pending t ++ [.erase])
  | .enter => Function.update pending t []
  | .display _ => pending
  | .other => pending

/-- What `signal_delivery` may do: anything that leaves the line buffers alone. -/
structure SignalDelivery where
  deliver : Nat → Kernel → Kernel
  linesKept : ∀ n k, LinesKept k (deliver n k)

/-- The console, and the keys on each terminal since the last enter key there. -/
structure Editor where
  keyboard : Keyboard
  kernel : Kernel
  pending : Fin 3 → List LineKey

/-- A keyboard interrupt, or a switch of the displayed terminal. -/
inductive EditorLabel
  | key (c : UInt8) (signal : SignalDelivery)
  | switch (t : Fin 3)

namespace Editor

variable (b : Boot) (m : Editor)

/-- The event of a scancode. -/
def event (c : UInt8) : KeyEvent := (m.keyboard.press c).event c

/-- The record of the displayed terminal. -/
def shown : Terminal := m.kernel.terminals m.kernel.displayedTerminal

/-- What a label does. -/
def step : EditorLabel → Editor
  | .key c signal =>
      { keyboard := (getScancodeWith signal.deliver b c m.keyboard m.kernel).1
        kernel := (getScancodeWith signal.deliver b c m.keyboard m.kernel).2
        pending := recordKey (m.event c) m.kernel.displayedTerminal m.pending }
  | .switch t => { m with kernel := switchActiveTerminal b t m.kernel }

/-- What the labels do. -/
def run (labels : List EditorLabel) : Editor := labels.foldl (step b) m

/-- All lines are empty. -/
def Empty : Prop := ∀ t, (m.kernel.terminals t).curBufSize = 0 ∧ m.pending t = []

/-- The line of every terminal holds what its keys type. -/
def HoldsLines : Prop :=
  ∀ t, Holds (m.kernel.terminals t).keyboardBuf (m.kernel.terminals t).curBufSize
    (typed (m.pending t))

/-- The kernel after a key: the stores to the buffers of the displayed terminal are within
them, the enter key has completed the line, and the other terminals are as before. -/
structure Edits (c : UInt8) (k' : Kernel) : Prop where
  keyboardBuf : (k'.terminals m.kernel.displayedTerminal).keyboardBuf =
    replayBuf m.shown.keyboardBuf (keyboardBufStores (m.event c) m.shown)
  storedOldBuf : (k'.terminals m.kernel.displayedTerminal).storedOldBuf =
    replayBuf m.shown.storedOldBuf (storedOldBufStores (m.event c) m.shown)
  within : ∀ s ∈ keyboardBufStores (m.event c) m.shown, 0 ≤ s.1 ∧ s.1 < 128
  storedWithin : ∀ s ∈ storedOldBufStores (m.event c) m.shown, 0 ≤ s.1 ∧ s.1 < 128
  enter : c = enterKey → Holds (k'.terminals m.kernel.displayedTerminal).storedOldBuf
    (k'.terminals m.kernel.displayedTerminal).oldBufSize
    (typedLine (m.pending m.kernel.displayedTerminal))
  others : ∀ u ≠ m.kernel.displayedTerminal, SameLine (m.kernel.terminals u) (k'.terminals u)

end Editor

/-! ## One step -/

theorem SameLine.holds {term term' : Terminal} (h : SameLine term term') {l : List UInt8}
    (hline : Holds term.keyboardBuf term.curBufSize l) :
    Holds term'.keyboardBuf term'.curBufSize l := by
  rw [h.keyboardBuf, h.curBufSize]
  exact hline

/-- The lines after the effect of a key hold what is recorded. -/
theorem lineEffect_holds {k : Kernel} {pending : Fin 3 → List LineKey} (e : KeyEvent)
    (h : ∀ t, Holds (k.terminals t).keyboardBuf (k.terminals t).curBufSize (typed (pending t)))
    (t : Fin 3) :
    Holds ((lineEffect e k).terminals t).keyboardBuf ((lineEffect e k).terminals t).curBufSize
      (typed (recordKey e k.displayedTerminal pending t)) := by
  rw [lineEffect_terminals]
  by_cases ht : t = k.displayedTerminal
  · rw [ht, Function.update_self]
    have hline := h k.displayedTerminal
    cases e with
    | char c =>
        simp only [recordKey, Function.update_self]
        exact hline.typeChar c
    | erase =>
        simp only [recordKey, Function.update_self]
        exact hline.eraseChar
    | enter =>
        simp only [recordKey, Function.update_self]
        exact ⟨rfl, rfl⟩
    | display u => exact hline
    | other => exact hline
  · have hsame : recordKey e k.displayedTerminal pending t = pending t := by
      cases e <;> simp [recordKey, ht]
    rw [hsame, Function.update_of_ne ht]
    exact h t

namespace Editor

variable {b : Boot} {m : Editor}

theorem HoldsLines.size (h : m.HoldsLines) (t : Fin 3) :
    0 ≤ (m.kernel.terminals t).curBufSize ∧ (m.kernel.terminals t).curBufSize ≤ 127 := by
  have hle := typed_length_le (m.pending t)
  rw [(h t).1]
  omega

/-- The stores of a key to the line are within its buffer: a character is stored if there
are not more than 126, and the newline may follow 127. -/
theorem HoldsLines.within (h : m.HoldsLines) (e : KeyEvent) :
    ∀ s ∈ keyboardBufStores e m.shown, 0 ≤ s.1 ∧ s.1 < 128 := by
  obtain ⟨hlow, hhigh⟩ := h.size m.kernel.displayedTerminal
  have hsize :
      m.shown.curBufSize = (m.kernel.terminals m.kernel.displayedTerminal).curBufSize := rfl
  cases e with
  | char c =>
      unfold keyboardBufStores
      simp only
      split
      · rename_i hfits
        rw [storesFrom_within_iff]
        simp only [keyboardBufSize, minu, List.length_singleton] at hfits ⊢
        right
        omega
      · simp
  | enter =>
      unfold keyboardBufStores
      rw [storesFrom_within_iff]
      right
      rw [List.length_singleton]
      omega
  | erase => simp [keyboardBufStores]
  | display t => simp [keyboardBufStores]
  | other => simp [keyboardBufStores]

theorem HoldsLines.storedWithin (h : m.HoldsLines) (e : KeyEvent) :
    ∀ s ∈ storedOldBufStores e m.shown, 0 ≤ s.1 ∧ s.1 < 128 := by
  obtain ⟨hlow, hhigh⟩ := h.size m.kernel.displayedTerminal
  have hsize :
      m.shown.curBufSize = (m.kernel.terminals m.kernel.displayedTerminal).curBufSize := rfl
  cases e with
  | enter =>
      unfold storedOldBufStores
      rw [storesFrom_within_iff]
      right
      rw [List.length_map, List.length_range]
      omega
  | char c => simp [storedOldBufStores]
  | erase => simp [storedOldBufStores]
  | display t => simp [storedOldBufStores]
  | other => simp [storedOldBufStores]

theorem HoldsLines.step (h : m.HoldsLines) (l : EditorLabel) : (m.step b l).HoldsLines := by
  cases l with
  | key c signal =>
      intro t
      rcases getScancodeWith_effect signal.deliver b c m.keyboard m.kernel with
        ⟨-, -, hevent, hkernel⟩ | ⟨-, hscreen⟩
      · have hrecord : recordKey (m.event c) m.kernel.displayedTerminal m.pending = m.pending := by
          unfold Editor.event
          rw [hevent]
          rfl
        unfold Editor.step
        simp only [hkernel, hrecord]
        exact (signal.linesKept 2 _ t).holds (h t)
      · exact (hscreen.linesKept t).holds (lineEffect_holds (m.event c) h t)
  | switch u => exact fun t => (switchActiveTerminal_linesKept b u m.kernel t).holds (h t)

/-- An interrupt edits the line of the displayed terminal, and only that. -/
theorem HoldsLines.edits (h : m.HoldsLines) (c : UInt8) (signal : SignalDelivery) :
    m.Edits c (m.step b (.key c signal)).kernel := by
  have hpress : m.event c = (m.keyboard.press c).event c := rfl
  rcases getScancodeWith_effect signal.deliver b c m.keyboard m.kernel with
    ⟨-, hc, hevent, hkernel⟩ | ⟨-, hscreen⟩
  · have hkept : LinesKept m.kernel (m.step b (.key c signal)).kernel := by
      unfold Editor.step
      simp only [hkernel]
      exact fun t => signal.linesKept 2 (m.kernel.onTerminal m.kernel.displayedTerminal) t
    refine ⟨?_, ?_, h.within _, h.storedWithin _, fun henter => ?_, fun u _ => hkept u⟩
    · rw [(hkept _).keyboardBuf, hpress, hevent]
      rfl
    · rw [(hkept _).storedOldBuf, hpress, hevent]
      rfl
    · exact absurd (hc.symm.trans henter) (by decide)
  · have hshown := hscreen.linesKept m.kernel.displayedTerminal
    rw [lineEffect_terminals, Function.update_self] at hshown
    refine ⟨?_, ?_, h.within _, h.storedWithin _, fun henter => ?_, fun u hu => ?_⟩
    · exact hshown.keyboardBuf.trans
        (eventRecord_keyboardBuf (m.event c) (h.size m.kernel.displayedTerminal).1)
    · exact hshown.storedOldBuf.trans (eventRecord_storedOldBuf (m.event c) _)
    · have hevent : (m.keyboard.press c).event c = .enter := Keyboard.event_eq_enter.mpr henter
      rw [hevent] at hshown
      unfold Editor.step
      rw [hshown.storedOldBuf, hshown.oldBufSize]
      exact (h m.kernel.displayedTerminal).completeLine
    · have hother := hscreen.linesKept u
      rwa [lineEffect_terminals, Function.update_of_ne hu] at hother

theorem HoldsLines.run (h : m.HoldsLines) (labels : List EditorLabel) :
    (m.run b labels).HoldsLines := by
  induction labels generalizing m with
  | nil => exact h
  | cons l labels ih => exact ih (h.step l)

theorem Empty.holdsLines (h : m.Empty) : m.HoldsLines := by
  intro t
  obtain ⟨hsize, hpending⟩ := h t
  rw [hsize, hpending]
  exact ⟨rfl, rfl⟩

end Editor

/-! ## Runs -/

/-- After any sequence of scancodes and switches that starts with empty lines, every line
holds what has been typed on its terminal since the last enter key there, 127 characters at
most; and the next scancode edits the line of the displayed terminal within its buffers, and
a switch none. -/
theorem keyboard_edits_lines (b : Boot) (m₀ : Editor) (hempty : m₀.Empty)
    (labels : List EditorLabel) :
    (∀ t, 0 ≤ ((m₀.run b labels).kernel.terminals t).curBufSize ∧
      ((m₀.run b labels).kernel.terminals t).curBufSize ≤ 127 ∧
      Holds ((m₀.run b labels).kernel.terminals t).keyboardBuf
        ((m₀.run b labels).kernel.terminals t).curBufSize
        (typed ((m₀.run b labels).pending t))) ∧
    (∀ c signal, (m₀.run b labels).Edits c ((m₀.run b labels).step b (.key c signal)).kernel) ∧
    ∀ t, LinesKept (m₀.run b labels).kernel ((m₀.run b labels).step b (.switch t)).kernel := by
  have hlines := hempty.holdsLines.run (b := b) labels
  refine ⟨fun t => ⟨(hlines.size t).1, (hlines.size t).2, hlines t⟩, ?_, ?_⟩
  · exact fun c signal => hlines.edits c signal
  · exact fun t => switchActiveTerminal_linesKept b t _

/-- A `signal_delivery` that does nothing. -/
def noSignal : SignalDelivery := ⟨fun _ k => k, fun _ _ _ => SameLine.refl _⟩

/-- The letter `a`, backspace twice, and the letter `b`. -/
def letterKeys : List EditorLabel :=
  [.key 0x1E noSignal, .key 0x0E noSignal, .key 0x0E noSignal, .key 0x30 noSignal]

theorem keyboard_edits_lines_letters :
    Holds (((Editor.mk keyboardInit blankKernel fun _ => []).run smallBoot
          letterKeys).kernel.terminals 0).keyboardBuf
      (((Editor.mk keyboardInit blankKernel fun _ => []).run smallBoot
          letterKeys).kernel.terminals 0).curBufSize [0x62] := by
  have hempty : (Editor.mk keyboardInit blankKernel fun _ => []).Empty := fun _ => ⟨rfl, rfl⟩
  have hlines := ((keyboard_edits_lines smallBoot _ hempty letterKeys).1 0).2.2
  have hpending : ((Editor.mk keyboardInit blankKernel fun _ => []).run smallBoot
      letterKeys).pending 0 = [.char 0x61, .erase, .erase, .char 0x62] := by decide +kernel
  rw [hpending] at hlines
  exact hlines

end Ece391Kernel
