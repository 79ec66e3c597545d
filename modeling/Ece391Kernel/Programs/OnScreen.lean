import Ece391Kernel.Programs.Cat
import Ece391Kernel.Screen.Refinement

/-!
# A program and its screen

What a program writes goes to the private screen of its terminal, whether this terminal is
displayed or not, and nothing else does, as long as nobody types on the terminal, no control-C is
typed on another one, and no tick fails to start a shell behind the screen of another terminal.
-/

namespace Ece391Kernel

open TransitionSystem Programs

/-! ## The screens of the others -/

/-- The cursors are where they were. -/
def CursorsKept (k k' : Kernel) : Prop :=
  ∀ u, (k'.terminals u).screenX = (k.terminals u).screenX ∧
    (k'.terminals u).screenY = (k.terminals u).screenY

namespace CursorsKept

variable {k k' : Kernel}

theorem of_eq (h : k'.terminals = k.terminals) : CursorsKept k k' := fun u => by
  rw [h]
  exact ⟨rfl, rfl⟩

theorem trans {k₁ k₂ k₃ : Kernel} (h₁ : CursorsKept k₁ k₂) (h₂ : CursorsKept k₂ k₃) :
    CursorsKept k₁ k₃ :=
  fun u => ⟨(h₂ u).1.trans (h₁ u).1, (h₂ u).2.trans (h₁ u).2⟩

/-- A change of one record that does not touch its cursor. -/
theorem of_update {t : Fin 3} {term : Terminal}
    (h : k'.terminals = Function.update k.terminals t term)
    (hx : term.screenX = (k.terminals t).screenX) (hy : term.screenY = (k.terminals t).screenY) :
    CursorsKept k k' := by
  intro u
  rw [h]
  by_cases hu : u = t
  · rw [hu, Function.update_self]
    exact ⟨hx, hy⟩
  · rw [Function.update_of_ne hu]
    exact ⟨rfl, rfl⟩

theorem launch {n esp ebp : Nat} (h : Launch n esp ebp k k') : CursorsKept k k' :=
  of_update h.terminals rfl rfl

theorem release (h : Released k k') : CursorsKept k k' := of_update h.terminals rfl rfl

theorem parked (a : SwitchArgs) (k : Kernel) : CursorsKept k (parked a k) :=
  of_update (parked_terminals a k) rfl rfl

theorem switch (a : SwitchArgs) (k : Kernel) :
    CursorsKept k ((Ece391Kernel.parked a k).onTerminal k.next) :=
  (parked a k).trans (of_eq rfl)

theorem runCall {b : Boot} {c : Call} (h : (runCall b c k).state = some k') : CursorsKept k k' := by
  rcases runCall_cases h with ⟨a, -, hret⟩ | ⟨a, entry, m, -, -, -, hlaunch⟩ |
    ⟨a, k₁, m, -, -, hk₁, -, hlaunch⟩ | ⟨a, k₁, pcb, -, -, hk₁, -, rfl, -⟩
  · exact of_eq (sysExecute_returned hret).1.terminals
  · exact launch hlaunch
  · exact (release hk₁).trans (launch hlaunch)
  · exact (release hk₁).trans (of_update (t := k₁.executingTerminal) rfl rfl rfl)

theorem tick {b : Boot} {a : SwitchArgs} (h : (pitInterrupt b a k).state = some k') :
    CursorsKept k k' := by
  cases hout : pitInterrupt b a k with
  | stayed k₁ =>
      rw [hout] at h
      rw [← Option.some.inj h, pitInterrupt_stayed hout]
      exact of_eq rfl
  | switched esp ebp k₁ =>
      rw [hout] at h
      rw [← Option.some.inj h]
      obtain ⟨-, -, -, rfl⟩ := pitInterrupt_switched hout
      exact (parked a k).trans (of_eq rfl)
  | launched entry k₁ =>
      rw [hout] at h
      rw [← Option.some.inj h]
      obtain ⟨-, hexecute⟩ := pitInterrupt_executed hout
      obtain ⟨m, -, hlaunch⟩ := sysExecute_launched hexecute
      exact (switch a k).trans (launch hlaunch)
  | failed k₁ =>
      rw [hout] at h
      rw [← Option.some.inj h]
      obtain ⟨-, -, k₂, hreturned, rfl⟩ := pitInterrupt_failed hout
      have hfailed : CursorsKept ((Ece391Kernel.parked a k).onTerminal k.next) k₂ :=
        of_eq (sysExecute_returned hreturned).1.terminals
      exact (switch a k).trans (hfailed.trans (of_eq rfl))
  | stuck =>
      rw [hout] at h
      exact absurd h (by simp [SwitchOutcome.state])

end CursorsKept

section Screens

variable {b : Boot} {k k' : Kernel} {S : Fin 3 → Screen}

theorem Multiplexed.keep (h : Multiplexed b k S) (hkept : ScreensKept b k k')
    (hcursors : CursorsKept k k') : Multiplexed b k' S := by
  obtain ⟨htables, hshows⟩ := h
  have hpage : ∀ u, screenPage k' u = screenPage k u := by
    intro u
    unfold screenPage
    rw [hkept.displayedTerminal]
  refine ⟨hkept.tables htables, fun u => ?_⟩
  unfold Shows
  rw [hpage]
  refine ⟨(hshows u).contents.of_mem (screenPage_isScreenPage k u) htables (hkept.tables htables)
    (hkept.mem htables), ?_, ?_⟩
  · rw [(hcursors u).2]
    exact (hshows u).row
  · rw [(hcursors u).1]
    exact (hshows u).col

theorem Multiplexed.setTerminal (h : Multiplexed b k S) (t : Fin 3) {f : Terminal → Terminal}
    (hx : (f (k.terminals t)).screenX = (k.terminals t).screenX)
    (hy : (f (k.terminals t)).screenY = (k.terminals t).screenY) :
    Multiplexed b (k.setTerminal t f) S :=
  h.keep (ScreensKept.of_same rfl rfl rfl) (CursorsKept.of_update (t := t) rfl hx hy)

/-- A tick that does not give up a shell behind another screen. -/
theorem Multiplexed.tick (h : Multiplexed b k S) {a : SwitchArgs}
    (hshown : ShellRefused b a k → k.displayedTerminal = k.executingTerminal)
    (htick : (pitInterrupt b a k).state = some k') : Multiplexed b k' S := by
  refine h.keep ?_ (CursorsKept.tick htick)
  rcases pitInterrupt_screens htick with ⟨-, hkept⟩ | ⟨hrefused, k₁, hkept, rfl⟩
  · exact hkept
  · refine hkept.trans (ScreensKept.of_same ?_ rfl rfl)
    rw [hkept.displayedTerminal, hshown hrefused]

/-- Terminal `d` is displayed, and the other terminals show their screens. -/
def ShowsOthers (b : Boot) (d : Fin 3) (S : Fin 3 → Screen) (k : Kernel) : Prop :=
  k.displayedTerminal = d ∧ ∃ s, Multiplexed b k (Function.update S d s)

namespace ShowsOthers

variable {d : Fin 3}

theorem of_multiplexed (h : Multiplexed b k S) : ShowsOthers b k.displayedTerminal S k :=
  ⟨rfl, S k.displayedTerminal, by rwa [Function.update_eq_self]⟩

theorem putc (h : ShowsOthers b d S k) (c : UInt8) : ShowsOthers b d S (putc b c k) := by
  obtain ⟨rfl, s, hs⟩ := h
  refine ⟨(putc_screenOnly b c k).displayedTerminal_eq, s.print c, ?_⟩
  simpa only [Function.update_idem, Function.update_self] using hs.putc c

theorem backspace (h : ShowsOthers b d S k) : ShowsOthers b d S (backspace b k) := by
  obtain ⟨rfl, s, hs⟩ := h
  refine ⟨(backspace_screenOnly b k).displayedTerminal_eq, s.backspace, ?_⟩
  simpa only [Function.update_idem, Function.update_self] using hs.backspace

theorem clearScreen (h : ShowsOthers b d S k) :
    ShowsOthers b d S (clearBuffer (clear b k)) := by
  obtain ⟨rfl, s, hs⟩ := h
  refine ⟨(clearScreen_screenOnly b k).displayedTerminal_eq, Screen.clear, ?_⟩
  simpa only [Function.update_idem] using hs.clearScreen

theorem setTerminal (h : ShowsOthers b d S k) (t : Fin 3) {f : Terminal → Terminal}
    (hx : ∀ term, (f term).screenX = term.screenX) (hy : ∀ term, (f term).screenY = term.screenY) :
    ShowsOthers b d S (k.setTerminal t f) := by
  obtain ⟨rfl, s, hs⟩ := h
  exact ⟨rfl, s, hs.setTerminal t (hx _) (hy _)⟩

theorem enterLine (h : ShowsOthers b d S k) : ShowsOthers b d S (enterLine b k) := by
  have hflag := h.setTerminal k.displayedTerminal (f := fun term => { term with enterFlag := 1 })
    (fun _ => rfl) fun _ => rfl
  have hline := hflag.putc newline
  exact hline.setTerminal _ (f := fun term => storeOldBuf (pushChar newline term)) (fun _ => rfl)
    fun _ => rfl

end ShowsOthers

/-- A key acts on the screen of the displayed terminal and leaves the others alone. -/
theorem Multiplexed.key (h : Multiplexed b k S) {c : UInt8} {kb kb' : Keyboard}
    (hkey : getScancode b c kb k = some (kb', k')) :
    ∃ s, Multiplexed b k' (Function.update S k.displayedTerminal s) := by
  have hothers := ShowsOthers.of_multiplexed h
  generalize k.displayedTerminal = d at hothers ⊢
  unfold getScancode at hkey
  split at hkey
  · exact absurd hkey (by simp)
  · obtain ⟨-, rfl⟩ := Prod.mk.inj (Option.some.inj hkey)
    -- control-L comes first
    have hcleared : ShowsOthers b d S (if (ctrlKey c kb).ctrl = true ∧ c = letterL then
        clearBuffer (clear b k) else k) := by
      split
      · exact hothers.clearScreen
      · exact hothers
    generalize (if (ctrlKey c kb).ctrl = true ∧ c = letterL then clearBuffer (clear b k)
      else k) = k₁ at hcleared
    cases hevent : (kb.press c).event c with
    | char ch =>
        rw [keyActions_char hevent]
        split
        · have hpushed := hcleared.setTerminal k₁.displayedTerminal (f := pushChar ch)
            (fun _ => rfl) fun _ => rfl
          exact (hpushed.putc ch).2
        · exact hcleared.2
    | erase =>
        rw [keyActions_erase hevent]
        split
        · have hpopped := hcleared.setTerminal k₁.displayedTerminal (f := popChar)
            (fun _ => rfl) fun _ => rfl
          exact hpopped.backspace.2
        · exact hcleared.2
    | enter =>
        rw [keyActions_enter hevent]
        exact hcleared.enterLine.2
    | display u =>
        obtain ⟨s, hs⟩ := hcleared.2
        rw [keyActions_display hevent]
        exact ⟨s, hs.switchActiveTerminal u⟩
    | other =>
        rw [keyActions_other hevent]
        exact hcleared.2

/-- A key that shows another terminal, or a modifier key, acts on no screen. -/
theorem Multiplexed.key_quiet (h : Multiplexed b k S) {c : UInt8} {kb kb' : Keyboard}
    (hquiet : (∃ u, kb'.event c = .display u) ∨ kb'.event c = .other ∧ c ≠ letterL)
    (hkey : getScancode b c kb k = some (kb', k')) : Multiplexed b k' S := by
  unfold getScancode at hkey
  split at hkey
  · exact absurd hkey (by simp)
  · obtain ⟨rfl, rfl⟩ := Prod.mk.inj (Option.some.inj hkey)
    have hc : c ≠ letterL := by
      rcases hquiet with ⟨u, hu⟩ | ⟨-, hc⟩
      · rintro rfl
        have hnone : functionTerminal letterL = none := functionTerminal_eq_none (by decide)
        exact absurd (hnone.symm.trans (event_eq_display hu).2.2.2.2) (by simp)
      · exact hc
    rw [if_neg fun hboth => hc hboth.2]
    rcases hquiet with ⟨u, hu⟩ | ⟨hother, -⟩
    · rw [keyActions_display hu]
      exact h.switchActiveTerminal u
    · rw [keyActions_other hother]
      exact h

theorem DescOnly.screens (h : DescOnly k k') : ScreensKept b k k' ∧ CursorsKept k k' := by
  obtain ⟨d, rfl⟩ := h
  exact ⟨ScreensKept.of_same rfl rfl rfl, CursorsKept.of_eq rfl⟩

theorem sysRead_screens {fd : Int} {buf : Buffer} {nbytes : Int} {r : ReadReturn}
    (h : sysRead b fd buf nbytes k = some r) :
    ScreensKept b k r.kernel ∧ CursorsKept k r.kernel := by
  have hsame : ScreensKept b k k ∧ CursorsKept k k := ⟨ScreensKept.refl k, CursorsKept.of_eq rfl⟩
  have hflag : ∀ (t : Fin 3) (f : Terminal → Terminal), (∀ term, (f term).screenX = term.screenX) →
      (∀ term, (f term).screenY = term.screenY) →
      ScreensKept b k (k.setTerminal t f) ∧ CursorsKept k (k.setTerminal t f) :=
    fun t f hx hy => ⟨ScreensKept.of_same rfl rfl rfl,
      CursorsKept.of_update (t := t) rfl (hx _) (hy _)⟩
  have hmoved : ∀ n : Int, ScreensKept b k (k.setDesc fd.toNat fun d =>
      { d with filePosition := d.filePosition + n }) ∧ CursorsKept k (k.setDesc fd.toNat fun d =>
      { d with filePosition := d.filePosition + n }) :=
    fun _ => (DescOnly.setDesc k fd.toNat _).screens
  unfold sysRead at h
  split at h
  · rw [← Option.some.inj h]
    exact hsame
  · unfold callRead at h
    split at h
    · obtain ⟨q, hq, rfl⟩ := Option.map_eq_some_iff.mp h
      unfold terminalRead at hq
      split at hq
      · exact absurd hq (by simp)
      · split at hq
        · rw [← Option.some.inj hq]
          exact hsame
        · split at hq
          · rw [← Option.some.inj hq]
            exact hsame
          · rw [← Option.some.inj hq]
            exact hflag _ (fun term => { term with enterFlag := 0 }) (fun _ => rfl) fun _ => rfl
    · rw [← Option.some.inj h]
      obtain ⟨hkept, hcursors⟩ := hflag k.executingTerminal
        (fun term => { term with interruptFlag := 0 }) (fun _ => rfl) fun _ => rfl
      exact ⟨hkept.trans (ScreensKept.of_same rfl rfl rfl), hcursors.trans fun _ => ⟨rfl, rfl⟩⟩
    · rw [← Option.some.inj h]
      unfold dirRead
      split
      · exact hsame
      · split
        · exact hsame
        · exact hmoved 1
    · rw [← Option.some.inj h]
      unfold fileRead
      split
      · exact hsame
      · simp only
        split
        · exact hsame
        · split
          · exact hmoved _
          · exact hsame
    · exact absurd h (by simp)

/-- `terminal_write` prints its bytes, but for zeroes, on the screen of the executing terminal. -/
theorem Multiplexed.terminalWrite (h : Multiplexed b k S) (buf : Int → UInt8) (nbytes : Int) :
    Multiplexed b (terminalWrite b (some buf) nbytes k).2 (Function.update S k.executingTerminal
      (((bufferBytes (some buf) nbytes).filter (· ≠ 0)).foldl (fun s c => s.print c)
        (S k.executingTerminal))) := by
  have hwrite := TermOp.apply_multiplexed h (.write (some buf) nbytes)
  simp only [TermOp.apply, TermOp.target, TermOp.effects, List.foldl_map] at hwrite
  exact hwrite

/-- A call that is not a write changes no screen. -/
theorem Multiplexed.performCall_quiet (h : Multiplexed b k S) {c : UserCall} {r : UserReturn}
    (hc : ∀ fd buf nbytes, c ≠ .write fd buf nbytes)
    (hperform : performCall b c k = some (r, k')) : Multiplexed b k' S := by
  cases c with
  | getargs buf nbytes =>
      obtain ⟨-, rfl⟩ := Prod.mk.inj (Option.some.inj hperform)
      exact h
  | openFile fname =>
      obtain ⟨-, rfl⟩ := Prod.mk.inj (Option.some.inj hperform)
      obtain ⟨hkept, hcursors⟩ := (sysOpen_descOnly b (bufferString fname) k).screens (b := b)
      exact h.keep hkept hcursors
  | read fd buf nbytes =>
      obtain ⟨q, hq, heq⟩ := Option.map_eq_some_iff.mp hperform
      obtain ⟨-, rfl⟩ := Prod.mk.inj heq
      obtain ⟨hkept, hcursors⟩ := sysRead_screens hq
      exact h.keep hkept hcursors
  | write fd buf nbytes => exact absurd rfl (hc fd buf nbytes)
  | close fd =>
      obtain ⟨-, rfl⟩ := Prod.mk.inj (Option.some.inj hperform)
      obtain ⟨hkept, hcursors⟩ := (DescOnly.sysClose fd k).screens (b := b)
      exact h.keep hkept hcursors

/-- A call of a process changes no screen but that of its terminal. -/
theorem Multiplexed.performCall (h : Multiplexed b k S) {c : UserCall} {r : UserReturn}
    (hperform : performCall b c k = some (r, k')) :
    ∃ s, Multiplexed b k' (Function.update S k.executingTerminal s) := by
  have hsame : Multiplexed b k (Function.update S k.executingTerminal (S k.executingTerminal)) := by
    rwa [Function.update_eq_self]
  by_cases hc : ∃ fd buf nbytes, c = .write fd buf nbytes
  · obtain ⟨fd, buf, nbytes, rfl⟩ := hc
    obtain ⟨q, hq, heq⟩ := Option.map_eq_some_iff.mp hperform
    obtain ⟨-, rfl⟩ := Prod.mk.inj heq
    unfold sysWrite at hq
    split at hq
    · rw [← Option.some.inj hq]
      exact ⟨_, hsame⟩
    · unfold callWrite at hq
      split at hq
      · rw [← Option.some.inj hq]
        exact ⟨_, h.terminalWrite buf nbytes⟩
      · rw [← Option.some.inj hq, rtcWrite_kernel]
        exact ⟨_, hsame⟩
      · rw [← Option.some.inj hq]
        exact ⟨_, hsame⟩
      · rw [← Option.some.inj hq]
        exact ⟨_, hsame⟩
      · exact absurd hq (by simp)
  · have hquiet := h.performCall_quiet (fun fd buf nbytes heq => hc ⟨fd, buf, nbytes, heq⟩) hperform
    exact ⟨S k.executingTerminal, by rwa [Function.update_eq_self]⟩

end Screens

/-! ## The screen of the program -/

/-- What may happen elsewhere while nobody types on terminal `t`, nor control-C on another one, no
shell is refused while another terminal than the executing one is displayed, and the arguments of
the other processes fit into the buffer. -/
inductive Untyped (b : Boot) (t : Fin 3) : Kernel → Kernel → Prop
  | tick {k k' : Kernel} (a : SwitchArgs)
      (hshown : ShellRefused b a k → k.displayedTerminal = k.executingTerminal)
      (h : (pitInterrupt b a k).state = some k') : Untyped b t k k'
  | rtc (k : Kernel) : Untyped b t k (rtcInterrupt k)
  | key {k k' : Kernel} (c : UInt8) (kb kb' : Keyboard)
      (hquiet : k.displayedTerminal = t →
        (∃ u, kb'.event c = .display u) ∨ kb'.event c = .other ∧ c ≠ letterL)
      (h : getScancode b c kb k = some (kb', k')) : Untyped b t k k'
  | process {k k' : Kernel} (c : Call) (hother : k.executingTerminal ≠ t)
      (hstarted : 0 < k.current.numProcessExecutingOnTerminal) (hfits : c.Fits)
      (h : CallInPlace b c k k') : Untyped b t k k'
  | serve {k k' : Kernel} (c : UserCall) (r : UserReturn) (hother : k.executingTerminal ≠ t)
      (hstarted : 0 < k.current.numProcessExecutingOnTerminal)
      (h : performCall b c k = some (r, k')) : Untyped b t k k'

theorem Untyped.elsewhere {b : Boot} {t : Fin 3} {k k' : Kernel} (h : Untyped b t k k') :
    Elsewhere b t k k' := by
  cases h with
  | tick a _ h => exact .tick a h
  | rtc => exact .rtc k
  | key c kb kb' _ h => exact .key c kb kb' h
  | process c hother hstarted hfits h => exact .process c hother hstarted hfits h
  | serve c r hother hstarted h => exact .serve c r hother hstarted h

/-- The terminals show their screens, and terminal `t` shows `s`. -/
def ShowsOn (b : Boot) (t : Fin 3) (s : Screen) (k : Kernel) : Prop :=
  ∃ S, Multiplexed b k S ∧ S t = s

/-- Nothing that happens elsewhere touches the screen. -/
theorem ShowsOn.elsewhere {b : Boot} {t : Fin 3} {s : Screen} {k k' : Kernel}
    (h : ShowsOn b t s k) (hstep : Untyped b t k k') : ShowsOn b t s k' := by
  obtain ⟨S, hS, rfl⟩ := h
  cases hstep with
  | tick a hshown htick => exact ⟨S, hS.tick hshown htick, rfl⟩
  | rtc => exact ⟨S, hS.keep (ScreensKept.of_same rfl rfl rfl) fun _ => ⟨rfl, rfl⟩, rfl⟩
  | key c kb kb' hquiet hkey =>
      by_cases hdisplayed : k.displayedTerminal = t
      · exact ⟨S, hS.key_quiet (hquiet hdisplayed) hkey, rfl⟩
      · obtain ⟨s, hs⟩ := hS.key hkey
        exact ⟨_, hs, Function.update_of_ne (Ne.symm hdisplayed) _ _⟩
  | process c _ _ hfits hcall =>
      have hstate := hcall.runCall hfits
      exact ⟨S, hS.keep (ScreensKept.runCall hstate) (CursorsKept.runCall hstate), rfl⟩
  | serve c r hother _ hcall =>
      obtain ⟨s, hs⟩ := hS.performCall hcall
      exact ⟨_, hs, Function.update_of_ne (Ne.symm hother) _ _⟩

/-- Print bytes on a screen; `terminal_write` leaves out zeroes. -/
def Screen.printAll (s : Screen) (bytes : List UInt8) : Screen :=
  (bytes.filter (· ≠ 0)).foldl (fun s c => s.print c) s

theorem Screen.printAll_append (s : Screen) (bytes bytes' : List UInt8) :
    s.printAll (bytes ++ bytes') = (s.printAll bytes).printAll bytes' := by
  unfold printAll
  rw [List.filter_append, List.foldl_append]

/-- All writes of a program are to standard output. -/
def WritesOutput {L : Type} (program : L → Action UserCall UserReturn L) : Prop :=
  ∀ l fd buf nbytes next, program l = .call (.write fd buf nbytes) next → fd = 1

/-- A call of the program prints what it writes. -/
theorem ShowsOn.call {b : Boot} {s : Screen} {k k' : Kernel} {c : UserCall} {r : UserReturn}
    (h : ShowsOn b k.executingTerminal s k) (hio : IoOpen k.table)
    (hout : ∀ fd buf nbytes, c = .write fd buf nbytes → fd = 1)
    (hperform : performCall b c k = some (r, k')) :
    ShowsOn b k.executingTerminal (s.printAll (written [(c, r)])) k' := by
  obtain ⟨S, hS, rfl⟩ := h
  by_cases hc : ∃ fd buf nbytes, c = .write fd buf nbytes
  · obtain ⟨fd, buf, nbytes, rfl⟩ := hc
    obtain rfl := hout fd buf nbytes rfl
    obtain ⟨rfl, rfl⟩ := Prod.mk.inj
      (Option.some.inj ((performCall_stdout b hio buf nbytes).symm.trans hperform))
    refine ⟨_, hS.terminalWrite buf nbytes, ?_⟩
    have hwritten := written_concat_write [] buf nbytes ⟨nbytes, none⟩
    rw [List.nil_append, written_nil, List.nil_append] at hwritten
    rw [Function.update_self, hwritten]
    rfl
  · have hnot : ∀ fd buf nbytes, c ≠ .write fd buf nbytes :=
      fun fd buf nbytes heq => hc ⟨fd, buf, nbytes, heq⟩
    have hwritten : written [(c, r)] = [] := by
      cases c with
      | write fd buf nbytes => exact absurd rfl (hnot fd buf nbytes)
      | getargs buf nbytes => rfl
      | openFile fname => rfl
      | read fd buf nbytes => rfl
      | close fd => rfl
    exact ⟨S, hS.performCall_quiet hnot hperform, by rw [hwritten]; rfl⟩

section Runs

variable {b : Boot} {t : Fin 3} {n : Fin 6} {L : Type}
  {program : L → Action UserCall UserReturn L} {m m' : Config Kernel L} {s : Screen}
  {events : List (Event UserCall UserReturn)}

theorem run_elsewhere (hrun : Run (Step program (Performs b t) (Untyped b t)) m events m') :
    Run (ProgramStep b t program) m events m' := by
  induction hrun with
  | nil => exact Run.nil _
  | snoc _ hlast ih =>
      refine ih.snoc ?_
      cases hlast with
      | own haction hperform => exact .own haction hperform
      | other hstep => exact .other hstep.elsewhere

/-- The screen of a program after a run. -/
theorem ShowsOn.run (hout : WritesOutput program)
    (hrun : Run (Step program (Performs b t) (Untyped b t)) m events m')
    (hruns : RunsOn t n m.state) (hio : IoOpen (m.state.descs n)) (hshows : ShowsOn b t s m.state) :
    ShowsOn b t (s.printAll (written (calls events))) m'.state := by
  have hstart : ShowsOn b t (s.printAll (written [])) m.state := hshows
  refine (outline (I := fun _ trace k => RunsOn t n k ∧ IoOpen (k.descs n) ∧
    ShowsOn b t (s.printAll (written trace)) k) ?_ ?_ hrun ⟨hruns, hio, hstart⟩).2.2
  · rintro l trace k c next r k' ⟨hruns, hio, hshows⟩ haction ⟨rfl, hperform⟩
    have hframe := performCall_callFrame hperform
    have hruns' := hruns.callFrame hframe
    have htable' := hruns'.table_eq hframe.executingTerminal
    rw [← hruns.table_eq rfl] at hio
    rw [← htable', written_append, Screen.printAll_append]
    refine ⟨hruns', hio.performCall hperform, hshows.call hio ?_ hperform⟩
    rintro fd buf nbytes rfl
    exact hout l fd buf nbytes next haction
  · rintro l trace k k' ⟨hruns, hio, hshows⟩ hothers
    obtain ⟨hruns', hdescs⟩ := hruns.elsewhere hothers.elsewhere
    exact ⟨hruns', by rwa [hdescs], hshows.elsewhere hothers⟩

/-- In every interleaving in which nobody types on the terminal of a program, nor control-C on
another, and in which no shell is refused behind another screen and the arguments of the other
processes fit into the buffer, the private screen of the terminal shows the bytes that the program
has written, printed in the order of its calls, and nothing else, whichever terminal is
displayed. -/
theorem program_output_on_screen (hout : WritesOutput program)
    (hrun : Run (Step program (Performs b t) (Untyped b t)) m events m')
    (hruns : RunsOn t n m.state) (hio : IoOpen (m.state.descs n)) {S : Fin 3 → Screen}
    (hshows : Multiplexed b m.state S) :
    Shows b m'.state t ((S t).printAll (written (calls events))) := by
  obtain ⟨S', hS', heq⟩ := ShowsOn.run hout hrun hruns hio ⟨S, hshows, rfl⟩
  rw [← heq]
  exact hS'.2 t

end Runs

theorem exists_multiplexed {b : Boot} {k : Kernel} (htables : VideoTables b k.paging)
    (hcursors : ∀ t, (k.terminals t).screenY = 0 ∧ (k.terminals t).screenX = 0) :
    ∃ S, Multiplexed b k S := by
  have hshows : ∀ t, ∃ s, Shows b k t s := by
    intro t
    obtain ⟨s, hs, -⟩ := exists_shows b 0 0 (hcursors t).1 (hcursors t).2 (by decide) (by decide)
    exact ⟨s, hs⟩
  choose S hS using hshows
  exact ⟨S, htables, hS⟩

theorem boot_cursors (b : Boot) (t : Fin 3) :
    ((boot b blankKernel).terminals t).screenY = 0 ∧
      ((boot b blankKernel).terminals t).screenX = 0 := by
  rw [boot_terminals]
  exact ⟨rfl, rfl⟩

theorem oneProcess_paging (argument : List UInt8) (k : Kernel) :
    (oneProcess argument k).paging = k.paging := rfl

theorem oneProcess_cursors (argument : List UInt8) (k : Kernel) :
    CursorsKept k (oneProcess argument k) := fun _ => ⟨rfl, rfl⟩

/-- After boot, with a process that has been given an argument. -/
theorem exists_multiplexed_oneProcess (b : Boot) (argument : List UInt8) :
    ∃ S, Multiplexed b (oneProcess argument (boot b blankKernel)) S := by
  refine exists_multiplexed ?_ fun t => ?_
  · rw [oneProcess_paging]
    exact boot_videoTables b blankKernel
  · obtain ⟨hy, hx⟩ := boot_cursors b t
    rw [(oneProcess_cursors argument _ t).2, (oneProcess_cursors argument _ t).1]
    exact ⟨hy, hx⟩

theorem cat_writesOutput : WritesOutput cat := by
  intro place fd buf nbytes next haction
  cases place <;> simp_all [cat, fdputs]

/-- The process exits, and its screen shows what it has written. -/
theorem program_output_on_screen_note : ∃ (S : Fin 3 → Screen)
    (events : List (Event UserCall UserReturn)) (k : Kernel) (code : Int),
    Run (Step cat (Performs sampleBoot 0) (Untyped sampleBoot 0))
      ⟨oneProcess noteName.bytes (boot sampleBoot blankKernel), .start fun _ => 0⟩ events
      ⟨k, .exited code⟩ ∧
    Shows sampleBoot k 0 ((S 0).printAll (written (calls events))) := by
  obtain ⟨S, hS⟩ := exists_multiplexed_oneProcess sampleBoot noteName.bytes
  obtain ⟨events, k, code, hrun⟩ := cat_sample_exits (Untyped sampleBoot 0) noteName.bytes
    (boot sampleBoot blankKernel)
  exact ⟨S, events, k, code, hrun, program_output_on_screen cat_writesOutput hrun
    (oneProcess_runsOn _ _) (oneProcess_newTable _ _).io hS⟩

/-- From the file system to the screen: when `cat` has exited in such an interleaving, the screen of
its terminal is the one before it with the contents of the file printed on it, or the message for
the failure. Reads of the clock, if this is the file, are taken to return. -/
theorem cat_shows_file {b : Boot} {d : Nat} (himage : GoodImage b d) {t : Fin 3} {n : Fin 6}
    {k₀ : Kernel} (hstart : RunsOn t n k₀) (hnew : NewTable (k₀.descs n)) {S : Fin 3 → Screen}
    (hshows : Multiplexed b k₀ S) {buf : Int → UInt8} {events : List (Event UserCall UserReturn)}
    {k : Kernel} {code : Int}
    (hrun : Run (Step cat (Performs b t) (Untyped b t)) ⟨k₀, .start buf⟩ events
      ⟨k, .exited code⟩) :
    code = (catOutcome b d (argument (calls events))).1 ∧
      Shows b k t ((S t).printAll (catOutcome b d (argument (calls events))).2) := by
  obtain ⟨-, h⟩ := (cat_outlined himage).run (run_elsewhere hrun) hstart ⟨hnew.io, rfl, hnew⟩
  obtain ⟨-, -, houtcome⟩ := h
  obtain ⟨S', hS', heq⟩ := ShowsOn.run cat_writesOutput hrun hstart hnew.io ⟨S, hshows, rfl⟩
  rw [houtcome]
  refine ⟨rfl, ?_⟩
  rw [← heq]
  exact hS'.2 t

/-- The process that has been asked for the file `note`. -/
theorem cat_shows_file_note : ∃ (S : Fin 3 → Screen)
    (events : List (Event UserCall UserReturn)) (k : Kernel) (code : Int),
    Run (Step cat (Performs sampleBoot 0) (Untyped sampleBoot 0))
      ⟨oneProcess noteName.bytes (boot sampleBoot blankKernel), .start fun _ => 0⟩ events
      ⟨k, .exited code⟩ ∧
    Shows sampleBoot k 0
      ((S 0).printAll (catOutcome sampleBoot 5 (argument (calls events))).2) := by
  obtain ⟨S, hS⟩ := exists_multiplexed_oneProcess sampleBoot noteName.bytes
  obtain ⟨events, k, code, hrun⟩ := cat_sample_exits (Untyped sampleBoot 0) noteName.bytes
    (boot sampleBoot blankKernel)
  exact ⟨S, events, k, code, hrun, (cat_shows_file sampleBoot_goodImage (oneProcess_runsOn _ _)
    (oneProcess_newTable _ _) hS hrun).2⟩

end Ece391Kernel
