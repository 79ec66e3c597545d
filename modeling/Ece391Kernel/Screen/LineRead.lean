import Ece391Kernel.Screen.LineInput
import Ece391Kernel.FileSystem.Image

/-!
# Reading typed lines

A read returns the line that was completed last on its terminal, and a completed line is
returned once at most. Nothing keeps a second enter key from overwriting a line that no
program has read yet: the lines that are read are all the lines that were typed exactly
in the runs where that does not happen.
-/

namespace Ece391Kernel

open TransitionSystem ByteMemory

/-- A read of terminal `t`. -/
def ConsoleLabel.ReadsFrom (l : ConsoleLabel) (t : Fin 3) : Prop :=
  ∃ buf nbytes ret result, l = .read t buf nbytes ret result

/-- The reads of a run return typed lines; `lineOf` says which line some keys type. -/
structure ReadsLines (lineOf : List LineKey → List UInt8) (d : Typing)
    (labels : List ConsoleLabel) : Prop where
  /-- The line completed last on the terminal, as far as it fits. -/
  returns : ∀ before t buf (nbytes ret : Int) result,
    before ++ [.read t buf nbytes ret result] <+: labels →
      ∃ keys, ((d.after before).mail t).sent.getLast? = some keys ∧
        ret = min (nbytes - 1) (lineOf keys).length ∧
        result = storeFrom buf 0 ((lineOf keys).take ret.toNat)
  /-- Between two reads of a terminal a line has been completed there. -/
  once : ∀ before between t l l', l.ReadsFrom t → l'.ReadsFrom t →
    before ++ [l] ++ between ++ [l'] <+: labels →
      ((d.after before).mail t).sent.length <
        ((d.after (before ++ [l] ++ between)).mail t).sent.length
  /-- The characters of a line have been typed while the terminal was displayed. -/
  own : ∀ before t keys c, before <+: labels → keys ∈ ((d.after before).mail t).sent →
    .char c ∈ keys → ∃ earlier code, earlier ++ [.key code] <+: before ∧
      (d.after earlier).displayed = t ∧
      ((d.after earlier).keyboard.press code).event code = .char c

/-! ## What has been typed -/

namespace Typing

/-- The character is on a line of the terminal. -/
def HasChar (d : Typing) (t : Fin 3) (c : UInt8) : Prop :=
  .char c ∈ d.pending t ∨ ∃ keys ∈ (d.mail t).sent, .char c ∈ keys

theorem edit_hasChar {d : Typing} {key : LineKey} {t : Fin 3} {c : UInt8}
    (h : (d.edit key).HasChar t c) : d.HasChar t c ∨ d.displayed = t ∧ key = .char c := by
  rcases h with hpending | hsent
  · by_cases ht : t = d.displayed
    · subst ht
      simp only [edit, Function.update_self] at hpending
      rcases List.mem_append.mp hpending with hbefore | hkey
      · exact Or.inl (Or.inl hbefore)
      · exact Or.inr ⟨rfl, (List.mem_singleton.mp hkey).symm⟩
    · simp only [edit, Function.update_of_ne ht] at hpending
      exact Or.inl (Or.inl hpending)
  · exact Or.inl (Or.inr hsent)

theorem complete_hasChar {d : Typing} {t : Fin 3} {c : UInt8} (h : d.complete.HasChar t c) :
    d.HasChar t c := by
  unfold complete at h
  by_cases ht : t = d.displayed
  · subst ht
    rcases h with hpending | ⟨keys, hsent, hchar⟩
    · simp at hpending
    · simp only [Function.update_self, Mailbox.put_sent] at hsent
      rcases List.mem_append.mp hsent with hbefore | hlast
      · exact Or.inr ⟨keys, hbefore, hchar⟩
      · rw [List.mem_singleton.mp hlast] at hchar
        exact Or.inl hchar
  · unfold HasChar at h
    simp only [Function.update_of_ne ht] at h
    exact h

theorem read_hasChar {d : Typing} {u t : Fin 3} {c : UInt8} (h : (d.read u).HasChar t c) :
    d.HasChar t c := by
  unfold read at h
  by_cases ht : t = u
  · subst ht
    unfold HasChar at h
    simp only [Function.update_self, Mailbox.take_sent] at h
    exact h
  · unfold HasChar at h
    simp only [Function.update_of_ne ht] at h
    exact h

/-- A character that a scancode brings to a terminal is typed on the displayed one. -/
theorem press_hasChar {d : Typing} {code : UInt8} {t : Fin 3} {c : UInt8}
    (h : (d.press code).HasChar t c) :
    d.HasChar t c ∨ d.displayed = t ∧ (d.keyboard.press code).event code = .char c := by
  unfold press at h
  cases hevent : (d.keyboard.press code).event code with
  | char c' =>
      rw [hevent] at h
      rcases edit_hasChar h with hbefore | ⟨hdisplayed, hkey⟩
      · exact Or.inl hbefore
      · exact Or.inr ⟨hdisplayed, congrArg KeyEvent.char (LineKey.char.inj hkey)⟩
  | erase =>
      rw [hevent] at h
      rcases edit_hasChar h with hbefore | ⟨-, hkey⟩
      · exact Or.inl hbefore
      · exact absurd hkey (by simp)
  | enter =>
      rw [hevent] at h
      exact Or.inl (complete_hasChar h)
  | display u =>
      rw [hevent] at h
      exact Or.inl h
  | other =>
      rw [hevent] at h
      exact Or.inl h

/-- The characters of a terminal come from scancodes that arrived while it was displayed. -/
theorem exists_key {d : Typing} {labels : List ConsoleLabel} {t : Fin 3} {c : UInt8}
    (hstart : ¬d.HasChar t c) (h : (d.after labels).HasChar t c) :
    ∃ earlier code, earlier ++ [.key code] <+: labels ∧ (d.after earlier).displayed = t ∧
      ((d.after earlier).keyboard.press code).event code = .char c := by
  induction labels using List.reverseRecOn with
  | nil => exact absurd h hstart
  | append_singleton labels l ih =>
      rw [after_concat] at h
      have hnew : (d.after labels).HasChar t c ∨ ∃ code, l = .key code ∧
          (d.after labels).displayed = t ∧
          ((d.after labels).keyboard.press code).event code = .char c := by
        cases l with
        | key code =>
            rcases press_hasChar h with hbefore | hnow
            · exact Or.inl hbefore
            · exact Or.inr ⟨code, rfl, hnow⟩
        | read u buf nbytes ret result => exact Or.inl (read_hasChar h)
      rcases hnew with hbefore | ⟨code, rfl, hnow⟩
      · obtain ⟨earlier, code, hpre, hkey⟩ := ih hbefore
        exact ⟨earlier, code, hpre.trans (List.prefix_append labels [l]), hkey⟩
      · exact ⟨labels, code, List.prefix_rfl, hnow⟩

/-- The step completes a line on terminal `t`. -/
def Completes (d : Typing) (l : ConsoleLabel) (t : Fin 3) : Prop :=
  l = .key enterKey ∧ d.displayed = t

/-- A step takes the line of the terminal from its place when it is a read of the terminal,
puts one there when it completes a line, and otherwise leaves it. -/
theorem step_mail (d : Typing) (l : ConsoleLabel) (t : Fin 3) :
    (¬l.ReadsFrom t ∧ ¬d.Completes l t) ∧ (d.step l).mail t = d.mail t ∨
    (l.ReadsFrom t ∧ ¬d.Completes l t) ∧ (d.step l).mail t = (d.mail t).take ∨
    d.Completes l t ∧ (d.step l).mail t = (d.mail t).put (d.pending t) := by
  cases l with
  | read u buf nbytes ret result =>
      have hread : ¬d.Completes (.read u buf nbytes ret result) t := fun h => absurd h.1 (by simp)
      by_cases ht : t = u
      · subst ht
        exact Or.inr (Or.inl ⟨⟨⟨buf, nbytes, ret, result, rfl⟩, hread⟩,
          Function.update_self t _ d.mail⟩)
      · refine Or.inl ⟨⟨?_, hread⟩, Function.update_of_ne ht _ d.mail⟩
        rintro ⟨buf', nbytes', ret', result', heq⟩
        exact ht (ConsoleLabel.read.inj heq).1.symm
  | key code =>
      have hkey : ¬(ConsoleLabel.key code).ReadsFrom t := by
        rintro ⟨buf, nbytes, ret, result, heq⟩
        exact absurd heq (by simp)
      have hother : (d.keyboard.press code).event code ≠ .enter → ¬d.Completes (.key code) t :=
        fun hne h => hne (Keyboard.event_eq_enter.mpr (ConsoleLabel.key.inj h.1))
      have hpress : d.step (.key code) = event ((d.keyboard.press code).event code)
        { d with keyboard := d.keyboard.press code } := rfl
      rw [hpress]
      cases hevent : (d.keyboard.press code).event code with
      | enter =>
          by_cases ht : t = d.displayed
          · subst ht
            rw [Keyboard.event_eq_enter.mp hevent]
            exact Or.inr (Or.inr ⟨⟨rfl, rfl⟩, Function.update_self d.displayed _ d.mail⟩)
          · exact Or.inl ⟨⟨hkey, fun h => ht h.2.symm⟩, Function.update_of_ne ht _ d.mail⟩
      | char c => exact Or.inl ⟨⟨hkey, hother (by simp [hevent])⟩, rfl⟩
      | erase => exact Or.inl ⟨⟨hkey, hother (by simp [hevent])⟩, rfl⟩
      | display u => exact Or.inl ⟨⟨hkey, hother (by simp [hevent])⟩, rfl⟩
      | other => exact Or.inl ⟨⟨hkey, hother (by simp [hevent])⟩, rfl⟩

/-- A line is overwritten when the next one is completed before it is read. -/
theorem overwritten_step (d : Typing) (l : ConsoleLabel) (t : Fin 3) :
    ((d.step l).mail t).overwritten = 0 ↔
      (d.mail t).overwritten = 0 ∧ (d.Completes l t → (d.mail t).contents = none) := by
  rcases d.step_mail l t with ⟨⟨-, hnot⟩, hsame⟩ | ⟨⟨-, hnot⟩, htake⟩ | ⟨hcompletes, hput⟩
  · rw [hsame]
    exact ⟨fun h => ⟨h, fun hc => absurd hc hnot⟩, And.left⟩
  · rw [htake, Mailbox.take_overwritten]
    exact ⟨fun h => ⟨h, fun hc => absurd hc hnot⟩, And.left⟩
  · rw [hput, Mailbox.put_overwritten, Nat.add_eq_zero_iff]
    have hempty : (d.mail t).contents.toList.length = 0 ↔ (d.mail t).contents = none := by
      cases (d.mail t).contents <;> simp
    rw [hempty]
    exact ⟨fun h => ⟨h.1, fun _ => h.2⟩, fun h => ⟨h.1, h.2 hcompletes⟩⟩

theorem seen_mono (d : Typing) (labels : List ConsoleLabel) (t : Fin 3) :
    (d.mail t).seen ≤ ((d.after labels).mail t).seen := by
  induction labels using List.reverseRecOn with
  | nil => exact Nat.le_refl _
  | append_singleton labels l ih =>
      rw [after_concat]
      refine Nat.le_trans ih ?_
      rcases step_mail (d.after labels) l t with ⟨-, hsame⟩ | ⟨-, htake⟩ | ⟨-, hput⟩
      · rw [hsame]
      · rw [htake]
        exact Nat.le_of_add_right_le ((d.after labels).mail t).seen_le
      · rw [hput]
        exact Nat.le_refl _

end Typing

/-! ## The lines that are read -/

/-- No line has been typed, or is waiting to be read. -/
def Quiet (k : Kernel) : Prop :=
  ∀ t, (k.terminals t).curBufSize = 0 ∧ (k.terminals t).enterFlag = 0

theorem boot_quiet (b : Boot) (k : Kernel) : Quiet (boot b k) := by
  intro t
  rw [boot_terminals]
  exact ⟨rfl, rfl⟩

theorem Quiet.agrees {k : Kernel} (h : Quiet k) (kb : Keyboard) :
    Agrees ⟨kb, k⟩ (Typing.start kb k.displayedTerminal) where
  keyboard := rfl
  displayed := rfl
  lines := by
    intro t
    refine ⟨⟨(h t).1, rfl⟩, iff_of_true (h t).2 rfl, fun keys hkeys => ?_⟩
    have hnone : none = some keys := hkeys
    exact absurd hnone (by simp)

section Reads

variable {b : Boot} {m m' : Console} {d : Typing} {labels : List ConsoleLabel}

/-- The line that a read returns is the one completed last. -/
theorem Agrees.returns (h : Agrees m d) {t : Fin 3} {buf result : Int → UInt8} {nbytes ret : Int}
    (hstep : ConsoleStep b m (.read t buf nbytes ret result) m') :
    ∃ keys, (d.mail t).contents = some keys ∧ (d.mail t).sent.getLast? = some keys ∧
      ret = min (nbytes - 1) (typedLine keys).length ∧
      result = storeFrom buf 0 ((typedLine keys).take ret.toNat) := by
  obtain ⟨hn, -, hread⟩ := hstep
  cases hkeys : (d.mail t).contents with
  | none =>
      rw [h.terminalRead_eq_none hkeys] at hread
      exact absurd hread (by simp)
  | some keys =>
      rw [h.terminalRead_eq_some hkeys buf hn] at hread
      obtain ⟨hret, hrest⟩ := Prod.mk.inj (Option.some.inj hread)
      have hresult := Option.some.inj (Prod.mk.inj hrest).1
      rw [hret] at hresult
      exact ⟨keys, rfl, (d.mail t).newest keys hkeys, hret.symm, hresult.symm⟩

theorem Agrees.readsLines (h : Agrees m d) (hstart : ∀ t c, ¬d.HasChar t c)
    (hrun : Run (ConsoleStep b) m labels m') : ReadsLines typedLine d labels where
  returns := by
    intro before t buf nbytes ret result hpre
    obtain ⟨m₂, hrun₂⟩ := hrun.of_prefix hpre
    obtain ⟨m₁, hrun₁, hstep⟩ := hrun₂.of_concat
    obtain ⟨keys, -, hkeys⟩ := (h.run hrun₁).returns hstep
    exact ⟨keys, hkeys⟩
  once := by
    rintro before between t l l' ⟨buf, nbytes, ret, result, rfl⟩
      ⟨buf', nbytes', ret', result', rfl⟩ hpre
    obtain ⟨m₂, hrun₂⟩ := hrun.of_prefix hpre
    obtain ⟨m₁, hrun₁, hstep⟩ := hrun₂.of_concat
    obtain ⟨keys, hkeys, -⟩ := (h.run hrun₁).returns hstep
    have hseen : ((d.after (before ++ [.read t buf nbytes ret result])).mail t).seen =
        ((d.after before).mail t).sent.length := by
      rw [Typing.after_concat]
      unfold Typing.step Typing.read
      simp only [Function.update_self, Mailbox.take_seen]
    have hmono := (d.after (before ++ [.read t buf nbytes ret result])).seen_mono between t
    rw [hseen, Typing.after_append] at hmono
    exact Nat.lt_of_le_of_lt hmono (Mailbox.seen_lt hkeys)
  own := by
    intro before t keys c _ hkeys hchar
    exact Typing.exists_key (hstart t c) (Or.inr ⟨keys, hkeys, hchar⟩)

end Reads

theorem Typing.start_hasChar (kb : Keyboard) (displayed t : Fin 3) (c : UInt8) :
    ¬(Typing.start kb displayed).HasChar t c := by
  rintro (hpending | ⟨keys, hsent, -⟩)
  · exact absurd hpending List.not_mem_nil
  · exact absurd hsent List.not_mem_nil

/-- In every run of keyboard interrupts and reads, a read returns the line completed last on
its terminal. -/
theorem reads_return_typed_lines {b : Boot} {kb : Keyboard} {k : Kernel} (hk : Quiet k)
    {labels : List ConsoleLabel} {m : Console} (hrun : Run (ConsoleStep b) ⟨kb, k⟩ labels m) :
    ReadsLines typedLine (Typing.start kb k.displayedTerminal) labels :=
  (hk.agrees kb).readsLines (Typing.start_hasChar kb k.displayedTerminal) hrun

/-! ## Runs -/

/-- Every key but control-C can be pressed. -/
theorem exists_keyStep (b : Boot) (m : Console) (c : UInt8) (hc : c ≠ letterC) :
    ∃ m', ConsoleStep b m (.key c) m' := by
  have hkey : ∃ r, getScancode b c m.keyboard m.kernel = some r := by
    unfold getScancode
    rw [if_neg fun hcut => hc hcut.2]
    exact ⟨_, rfl⟩
  obtain ⟨⟨kb', k'⟩, hr⟩ := hkey
  exact ⟨⟨kb', k'⟩, hr⟩

theorem exists_keys (b : Boot) {codes : List UInt8} (hcodes : letterC ∉ codes) (m : Console) :
    ∃ m', Run (ConsoleStep b) m (codes.map .key) m' := by
  induction codes using List.reverseRecOn with
  | nil => exact ⟨m, Run.nil m⟩
  | append_singleton codes c ih =>
      obtain ⟨m₁, hrun⟩ := ih fun hmem => hcodes (List.mem_append_left _ hmem)
      obtain ⟨m₂, hstep⟩ := exists_keyStep b m₁ c fun hc =>
        hcodes (List.mem_append_right _ (by rw [hc]; exact List.mem_singleton_self _))
      rw [List.map_append]
      exact ⟨m₂, Run.snoc hrun hstep⟩

/-- A line that is there can be read. -/
theorem Agrees.exists_read (b : Boot) {m : Console} {d : Typing} (h : Agrees m d) {t : Fin 3}
    {keys : List LineKey} (hkeys : (d.mail t).contents = some keys) {nbytes : Int}
    (hn : 2 ≤ nbytes) : ∃ (buf result : Int → UInt8) (ret : Int) (m' : Console),
      ConsoleStep b m (.read t buf nbytes ret result) m' :=
  ⟨fun _ => 0, _, _, ⟨m.keyboard, (m.kernel.onTerminal t).setTerminal t fun term =>
    { term with enterFlag := 0 }⟩, hn, rfl, h.terminalRead_eq_some hkeys (fun _ => 0) hn⟩

/-- The kernel after boot, with no key pressed. -/
def bootConsole : Console := ⟨keyboardInit, boot smallBoot blankKernel⟩

theorem bootConsole_agrees : Agrees bootConsole (Typing.start keyboardInit 0) := by
  have hagrees := (boot_quiet smallBoot blankKernel).agrees keyboardInit
  rw [boot_displayedTerminal] at hagrees
  exact hagrees

/-- From boot, keys that complete a line on the first terminal can be typed, and the line read. -/
theorem exists_keys_read (codes : List UInt8) (hcodes : letterC ∉ codes) (keys : List LineKey)
    (hkeys : (((Typing.start keyboardInit 0).after (codes.map .key)).mail 0).contents = some keys)
    (nbytes : Int) (hn : 2 ≤ nbytes) :
    ∃ (buf result : Int → UInt8) (ret : Int) (m : Console),
      Run (ConsoleStep smallBoot) bootConsole
        (codes.map .key ++ [.read 0 buf nbytes ret result]) m := by
  obtain ⟨m₁, hrun⟩ := exists_keys smallBoot hcodes bootConsole
  obtain ⟨buf, result, ret, m₂, hread⟩ :=
    (bootConsole_agrees.run hrun).exists_read smallBoot hkeys hn
  exact ⟨buf, result, ret, m₂, Run.snoc hrun hread⟩

theorem reads_return_typed_lines_letter : ∃ labels m,
    Run (ConsoleStep smallBoot) bootConsole labels m ∧ (∃ l ∈ labels, l.ReadsFrom 0) ∧
      ReadsLines typedLine (Typing.start keyboardInit 0) labels := by
  obtain ⟨buf, result, ret, m, hrun⟩ := exists_keys_read [0x1E, enterKey] (by decide)
    [.char 0x61] (by decide) 128 (by decide)
  have hreads := reads_return_typed_lines (boot_quiet smallBoot blankKernel) hrun
  rw [boot_displayedTerminal] at hreads
  exact ⟨_, m, hrun, ⟨_, by simp, buf, 128, ret, result, rfl⟩, hreads⟩

/-- The line that some keys type when the backspaces are applied before it is cut. -/
def editedLine (keys : List LineKey) : List UInt8 :=
  (keys.foldl (fun line key =>
    match key with
    | .char c => line ++ [c]
    | .erase => line.dropLast) []).take 127 ++ [newline]

/-- A character that does not fit does not take part in the editing. -/
theorem reads_not_editedLine : ¬∀ (b : Boot) (kb : Keyboard) (k : Kernel)
    (labels : List ConsoleLabel) (m : Console), Quiet k → Run (ConsoleStep b) ⟨kb, k⟩ labels m →
    ReadsLines editedLine (Typing.start kb k.displayedTerminal) labels := by
  intro hall
  have hkeys : (((Typing.start keyboardInit 0).after ((List.replicate 128 0x1E ++
      [backspaceKey, enterKey]).map .key)).mail 0).contents =
      some (List.replicate 128 (.char 0x61) ++ [.erase]) := by decide +kernel
  obtain ⟨buf, result, ret, m, hrun⟩ := exists_keys_read (List.replicate 128 0x1E ++
    [backspaceKey, enterKey]) (by decide) _ hkeys 129 (by decide)
  have hclaimed := hall smallBoot keyboardInit _ _ m (boot_quiet smallBoot blankKernel) hrun
  have htyped := bootConsole_agrees.readsLines (Typing.start_hasChar keyboardInit 0) hrun
  rw [boot_displayedTerminal] at hclaimed
  obtain ⟨keys, hlast, hret, -⟩ := hclaimed.returns _ 0 buf 129 ret result List.prefix_rfl
  obtain ⟨keys', hlast', hret', -⟩ := htyped.returns _ 0 buf 129 ret result List.prefix_rfl
  have hnewest := Mailbox.newest _ _ hkeys
  obtain rfl := Option.some.inj (hlast.symm.trans hnewest)
  obtain rfl := Option.some.inj (hlast'.symm.trans hnewest)
  have hedited : (editedLine (List.replicate 128 (.char 0x61) ++ [.erase])).length = 128 := by
    decide +kernel
  have hline : (typedLine (List.replicate 128 (.char 0x61) ++ [.erase])).length = 127 := by
    decide +kernel
  rw [hedited] at hret
  rw [hline] at hret'
  exact absurd (hret.symm.trans hret') (by decide)

/-! ## Lost lines -/

/-- The bytes that the reads of terminal `t` return, read by read. -/
def returnedLines (t : Fin 3) (labels : List ConsoleLabel) : List (List UInt8) :=
  labels.filterMap fun l =>
    match l with
    | .key _ => none
    | .read u _ _ ret result =>
        if u = t then some ((List.range ret.toNat).map fun i : Nat => result i) else none

/-- The reads have room for every line. -/
def RoomForLines (labels : List ConsoleLabel) : Prop :=
  ∀ t buf nbytes ret result, .read t buf nbytes ret result ∈ labels → 129 ≤ nbytes

/-- The lines read on a terminal, with the one that is still to be read, are the lines
completed there. -/
def NoLineLost (d : Typing) (labels : List ConsoleLabel) : Prop :=
  ∀ t, returnedLines t labels ++ (((d.after labels).mail t).contents.toList.map typedLine) =
    ((d.after labels).mail t).sent.map typedLine

/-- The enter key is not pressed while the displayed terminal has an unread line. -/
def LineRead (m : Console) (l : ConsoleLabel) : Prop :=
  l = .key enterKey → (m.kernel.terminals m.kernel.displayedTerminal).enterFlag = 0

theorem returnedLines_concat (t : Fin 3) (labels : List ConsoleLabel) (l : ConsoleLabel) :
    returnedLines t (labels ++ [l]) = returnedLines t labels ++ returnedLines t [l] :=
  List.filterMap_append

section Lines

variable {b : Boot} {m m' : Console} {d : Typing} {labels : List ConsoleLabel}

/-- What a step adds to the lines received is what it returns. -/
theorem Agrees.returnedLines_step (h : Agrees m d) {l : ConsoleLabel}
    (hstep : ConsoleStep b m l m') (hroom : RoomForLines [l]) (t : Fin 3) :
    ((d.step l).mail t).received.map typedLine =
      (d.mail t).received.map typedLine ++ returnedLines t [l] := by
  rcases d.step_mail l t with ⟨⟨hother, -⟩, hsame⟩ | ⟨⟨hread, -⟩, htake⟩ | ⟨⟨rfl, -⟩, hput⟩
  · have hnone : returnedLines t [l] = [] := by
      cases l with
      | key c => rfl
      | read u buf nbytes ret result =>
          have hne : u ≠ t := fun heq => hother ⟨buf, nbytes, ret, result, by rw [heq]⟩
          unfold returnedLines
          simp [hne]
    rw [hsame, hnone, List.append_nil]
  · obtain ⟨buf, nbytes, ret, result, rfl⟩ := hread
    obtain ⟨keys, hkeys, -, hret, hresult⟩ := h.returns hstep
    have hlarge := hroom t buf nbytes ret result (List.mem_singleton_self _)
    have hlength := typedLine_length keys
    have hle := typed_length_le keys
    have hwhole : ret = (typedLine keys).length := by omega
    have hline : returnedLines t [.read t buf nbytes ret result] = [typedLine keys] := by
      rw [hwhole, Int.toNat_natCast, List.take_length] at hresult
      unfold returnedLines
      simp only [List.filterMap_cons, if_true, List.filterMap_nil, hwhole, Int.toNat_natCast,
        hresult, map_storeFrom]
    rw [htake, hline, Mailbox.take_received, hkeys, List.map_append]
    rfl
  · rw [hput]
    exact (List.append_nil _).symm

/-- The lines received are the lines returned. -/
theorem Agrees.returnedLines_run (h : Agrees m d) (hstart : ∀ t, (d.mail t).received = [])
    (hrun : Run (ConsoleStep b) m labels m') (hroom : RoomForLines labels) (t : Fin 3) :
    ((d.after labels).mail t).received.map typedLine = returnedLines t labels := by
  induction hrun with
  | nil =>
      unfold Typing.after
      rw [List.foldl_nil, hstart]
      rfl
  | snoc hbefore hlast ih =>
      have hstep := (h.run hbefore).returnedLines_step hlast
        (fun u buf nbytes ret result hmem => hroom u buf nbytes ret result
          (List.mem_append_right _ hmem)) t
      have hreturned := ih fun u buf nbytes ret result hmem =>
        hroom u buf nbytes ret result (List.mem_append_left _ hmem)
      rw [Typing.after_concat, hstep, hreturned, ← returnedLines_concat]

/-- No line is lost exactly when none has been overwritten. -/
theorem Agrees.noLineLost_iff (h : Agrees m d) (hstart : ∀ t, (d.mail t).received = [])
    (hrun : Run (ConsoleStep b) m labels m') (hroom : RoomForLines labels) :
    NoLineLost d labels ↔ ∀ t, ((d.after labels).mail t).overwritten = 0 := by
  constructor
  · intro hlost t
    have hlength := congrArg List.length (hlost t)
    rw [← h.returnedLines_run hstart hrun hroom t, List.length_append] at hlength
    simp only [List.length_map] at hlength
    exact (Mailbox.overwritten_eq_zero_iff _).mpr hlength
  · intro hnone t
    rw [← h.returnedLines_run hstart hrun hroom t, ← List.map_append]
    exact congrArg (List.map typedLine) (Mailbox.inOrder _ (hnone t))

/-- The enter key finds no unread line on the displayed terminal. -/
theorem Agrees.lineRead_iff (h : Agrees m d) (l : ConsoleLabel) :
    LineRead m l ↔ ∀ t, d.Completes l t → (d.mail t).contents = none := by
  unfold LineRead
  rw [h.displayed, (h.lines d.displayed).flag]
  constructor
  · rintro hread t ⟨hl, rfl⟩
    exact hread hl
  · intro hnone hl
    exact hnone d.displayed ⟨hl, rfl⟩

/-- No line has been overwritten in exactly those runs in which the enter key never finds an
unread line. -/
theorem Agrees.guarded_iff (h : Agrees m d) (hstart : ∀ t, (d.mail t).overwritten = 0)
    (hrun : Run (ConsoleStep b) m labels m') :
    Run (guarded LineRead (ConsoleStep b)) m labels m' ↔
      ∀ t, ((d.after labels).mail t).overwritten = 0 := by
  constructor
  · intro hguarded
    induction hguarded with
    | nil => exact hstart
    | snoc hbefore hlast ih =>
        intro t
        rw [Typing.after_concat, Typing.overwritten_step]
        have hread := ((h.run hbefore.of_guarded).lineRead_iff _).mp hlast.1
        exact ⟨ih hbefore.of_guarded t, hread t⟩
  · intro hnone
    induction hrun with
    | nil => exact Run.nil _
    | snoc hbefore hlast ih =>
        have hboth : ∀ t, _ := fun t => (Typing.overwritten_step _ _ t).mp
          (by rw [← Typing.after_concat]; exact hnone t)
        exact Run.snoc (ih fun t => (hboth t).1)
          ⟨((h.run hbefore).lineRead_iff _).mpr fun t => (hboth t).2, hlast⟩

end Lines

/-- In a run of keyboard interrupts and reads with room for every line, and without control-C, the
lines that are read are the lines that were completed, exactly when the enter key is never pressed
while the displayed terminal has an unread line. -/
theorem no_line_lost_iff {b : Boot} {kb : Keyboard} {k : Kernel} (hk : Quiet k)
    {labels : List ConsoleLabel} {m : Console} (hrun : Run (ConsoleStep b) ⟨kb, k⟩ labels m)
    (hroom : RoomForLines labels) :
    NoLineLost (Typing.start kb k.displayedTerminal) labels ↔
      Run (guarded LineRead (ConsoleStep b)) ⟨kb, k⟩ labels m := by
  have hagrees := hk.agrees kb
  rw [hagrees.noLineLost_iff (fun _ => rfl) hrun hroom, hagrees.guarded_iff (fun _ => rfl) hrun]

theorem roomForLines_keys_read (codes : List UInt8) (t : Fin 3) (buf result : Int → UInt8)
    (ret : Int) : RoomForLines (codes.map .key ++ [.read t buf 129 ret result]) := by
  intro u buf' nbytes ret' result' hmem
  rcases List.mem_append.mp hmem with hkey | hread
  · obtain ⟨c, -, hc⟩ := List.mem_map.mp hkey
    exact absurd hc (by simp)
  · rw [(ConsoleLabel.read.inj (List.mem_singleton.mp hread)).2.2.1]

theorem no_line_lost_iff_letter : ∃ labels m, Run (ConsoleStep smallBoot) bootConsole labels m ∧
    (∃ l ∈ labels, l.ReadsFrom 0) ∧
      (NoLineLost (Typing.start keyboardInit 0) labels ↔
        Run (guarded LineRead (ConsoleStep smallBoot)) bootConsole labels m) := by
  obtain ⟨buf, result, ret, m, hrun⟩ := exists_keys_read [0x1E, enterKey] (by decide)
    [.char 0x61] (by decide) 129 (by decide)
  have hiff := no_line_lost_iff (boot_quiet smallBoot blankKernel) hrun
    (roomForLines_keys_read _ 0 buf result ret)
  rw [boot_displayedTerminal] at hiff
  exact ⟨_, m, hrun, ⟨_, by simp, buf, 129, ret, result, rfl⟩, hiff⟩

/-- A second line, completed before the first is read, takes its place. -/
theorem enter_overwrites_line : ¬∀ (b : Boot) (kb : Keyboard) (k : Kernel)
    (labels : List ConsoleLabel) (m : Console), Quiet k → Run (ConsoleStep b) ⟨kb, k⟩ labels m →
    RoomForLines labels → NoLineLost (Typing.start kb k.displayedTerminal) labels := by
  intro hall
  obtain ⟨buf, result, ret, m, hrun⟩ := exists_keys_read [0x1E, enterKey, 0x30, enterKey]
    (by decide) [.char 0x62] (by decide) 129 (by decide)
  have hroom := roomForLines_keys_read [0x1E, enterKey, 0x30, enterKey] 0 buf result ret
  have hlost := hall smallBoot keyboardInit _ _ m (boot_quiet smallBoot blankKernel) hrun hroom
  rw [boot_displayedTerminal, bootConsole_agrees.noLineLost_iff (fun _ => rfl) hrun hroom] at hlost
  have hbefore := ((Typing.overwritten_step _ _ 0).mp
    (by rw [← Typing.after_concat]; exact hlost 0)).1
  exact absurd hbefore (by decide)

end Ece391Kernel
