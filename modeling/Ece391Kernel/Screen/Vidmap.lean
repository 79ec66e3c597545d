import Ece391Kernel.Schedule.Display

/-!
# Video memory of a program

`sys_vidmap` gives the programs of a terminal an address behind which is video memory
while the terminal is displayed, and a page of its own while it is not. A switch copies
between video memory and the save pages, and never to or from these pages. So what a
program has written is still there after a switch only if the other page happens to hold
it already.
-/

namespace Ece391Kernel

open TransitionSystem

/-! ## The call and the accesses -/

/-- `TIMES`. -/
@[simp] def times : Nat := 4

/-- `sys_vidmap`: the result, and the address that is stored at `screenStart`. -/
def sysVidmap (screenStart : Nat) (k : Kernel) : Int × Option Nat :=
  if screenStart = 0 then (-1, none)
  else if ¬(virStart < screenStart ∧ screenStart < virEnd) then (-1, none)
  else (0, some (farPage + k.executingTerminal * fourKB + fourKB * times))

/-- The address that `sys_vidmap` returns on terminal `t`. -/
def vidmapAddr (t : Fin 3) : Nat := farPage + t * fourKB + fourKB * times

theorem sysVidmap_addr {screenStart addr : Nat} {k : Kernel}
    (h : sysVidmap screenStart k = (0, some addr)) : addr = vidmapAddr k.executingTerminal := by
  unfold sysVidmap at h
  split at h
  · exact absurd h (by simp)
  · split at h
    · exact absurd h (by simp)
    · simpa [vidmapAddr] using h.symm

/-! ## Where the pages are -/

/-- The physical page behind the save page of a terminal. -/
def savePhys (t : Fin 3) : Nat := vidAddr + (t + 1) * fourKB

/-- The physical page of the programs of a terminal that is not displayed. -/
def backPhys (t : Fin 3) : Nat := vidAddr + (indexSeg + t) * fourKB

/-- The physical page behind the address that the programs of a terminal write to. -/
def userPhys (k : Kernel) (t : Fin 3) : Nat :=
  if t = k.displayedTerminal then vidAddr else backPhys t

theorem screenPhys_savePage (t : Fin 3) : screenPhys (savePage t) = savePhys t := by
  decide +revert

theorem VidmapEntry.translate {b : Boot} {k : Kernel} {t : Fin 3} (h : VidmapEntry k t)
    (htables : VideoTables b k.paging) {off : Nat} (hoff : off < fourKB) :
    translate b k.paging true (vidmapAddr t + off) = some (userPhys k t + off) := by
  simp only [fourKB] at hoff
  have hdir : (vidmapAddr t + off) / fourMB = userVidPage := by
    unfold vidmapAddr
    simp
    omega
  have hindex : (vidmapAddr t + off) / fourKB % kbSize = videoIndex + indexSeg + t := by
    unfold vidmapAddr
    simp
    omega
  have hmod : (vidmapAddr t + off) % fourKB = off := by
    unfold vidmapAddr
    simp
    omega
  have hentry := h
  unfold VidmapEntry at hentry
  rw [← hindex] at hentry
  unfold userPhys
  by_cases ht : t = k.displayedTerminal
  · rw [if_pos ht] at hentry ⊢
    have hpage : Ece391Kernel.translate b k.paging true (vidmapAddr t + off) =
        some (vidAddr + 0 * fourKB + (vidmapAddr t + off) % fourKB) :=
      htables.translate_entry hdir (by simpa using hentry)
    rw [hpage, hmod]
    simp
  · rw [if_neg ht] at hentry ⊢
    rw [htables.translate_entry hdir hentry, hmod]
    rfl

/-! ## What a switch does to the pages -/

section Switch

variable {b : Boot} {k : Kernel} (htables : VideoTables b k.paging) (t : Fin 3)

theorem showTerminal_mem (k : Kernel) : (showTerminal t k).mem = k.mem := rfl

theorem savePhys_separate {x : Nat} (h : InPage (savePhys t) x) : ¬InPage vidAddr x := by
  unfold InPage savePhys at *
  simp only [vidAddr, fourKB] at *
  omega

theorem savePhys_ne {t u : Fin 3} (h : t ≠ u) {x : Nat} (hx : InPage (savePhys t) x) :
    ¬InPage (savePhys u) x := by
  intro hu
  unfold InPage savePhys at *
  simp only [vidAddr, fourKB] at *
  exact h (Fin.ext (by omega))

theorem backPhys_separate {x : Nat} (h : InPage (backPhys t) x) (u : Fin 3) :
    ¬InPage vidAddr x ∧ ¬InPage (savePhys u) x := by
  unfold InPage savePhys backPhys at *
  simp only [vidAddr, fourKB, indexSeg] at *
  omega

include htables

/-- The loops of `switch_active_terminal`, one after the other. -/
theorem switchActiveTerminal_loops : ∃ k₁ k₂,
    (∀ off < fourKB, k₁.mem (savePhys k.displayedTerminal + off) = k.mem (vidAddr + off)) ∧
    SameOutside (savePhys k.displayedTerminal) k k₁ ∧ SameOutside vidAddr k₁ k₂ ∧
    (∀ off < fourKB,
      (switchActiveTerminal b t k).mem (vidAddr + off) = k₂.mem (savePhys t + off)) ∧
    SameOutside vidAddr k₂ (switchActiveTerminal b t k) := by
  have hvideo : IsScreenPage vidAddr := Or.inl rfl
  have hsave : ∀ u, IsScreenPage (savePage u) := fun u => Or.inr ⟨u, rfl⟩
  have hphys : screenPhys vidAddr = vidAddr := by decide
  have hmem₁ := memcpy_memoryOnly b (savePage k.displayedTerminal) vidAddr fourKB k
  have htables₁ : VideoTables b
      (memcpy b (savePage k.displayedTerminal) vidAddr fourKB k).paging := by
    rw [hmem₁.screenOnly.paging_eq]
    exact htables
  have hmem₂ := clear_memoryOnly b (memcpy b (savePage k.displayedTerminal) vidAddr fourKB k)
  have htables₂ : VideoTables b
      (clear b (memcpy b (savePage k.displayedTerminal) vidAddr fourKB k)).paging := by
    rw [hmem₂.screenOnly.paging_eq]
    exact htables₁
  refine ⟨memcpy b (savePage k.displayedTerminal) vidAddr fourKB k, clear b _,
    fun off hoff => ?_, ?_, clear_sameOutside htables₁, fun off hoff => ?_, ?_⟩
  · have hcopied := memcpy_mem htables (hsave k.displayedTerminal) hvideo
      (savePage_ne_vidAddr _) hoff
    rwa [screenPhys_savePage, hphys] at hcopied
  · have hsame := memcpy_sameOutside htables (hsave k.displayedTerminal) vidAddr
      (Nat.le_refl fourKB)
    rwa [screenPhys_savePage] at hsame
  · have hcopied := memcpy_mem htables₂ hvideo (hsave t) (savePage_ne_vidAddr t).symm hoff
    rw [screenPhys_savePage, hphys] at hcopied
    rw [switchActiveTerminal_savePages, showTerminal_mem]
    exact hcopied
  · have hsame := memcpy_sameOutside htables₂ hvideo (savePage t) (Nat.le_refl fourKB)
    rw [hphys] at hsame
    intro x hx
    rw [switchActiveTerminal_savePages, showTerminal_mem]
    exact hsame x hx

/-- Video memory gets what is in the save page of the new terminal. -/
theorem switchActiveTerminal_video {off : Nat} (hoff : off < fourKB) :
    (switchActiveTerminal b t k).mem (vidAddr + off) =
      if t = k.displayedTerminal then k.mem (vidAddr + off) else k.mem (savePhys t + off) := by
  obtain ⟨k₁, k₂, hsaved, hsame₁, hsame₂, hrestored, -⟩ := switchActiveTerminal_loops htables t
  have hin : InPage (savePhys t) (savePhys t + off) := ⟨by omega, by omega⟩
  rw [hrestored off hoff, hsame₂ _ (savePhys_separate t hin)]
  by_cases ht : t = k.displayedTerminal
  · rw [if_pos ht, ht, hsaved off hoff]
  · rw [if_neg ht, hsame₁ _ (savePhys_ne ht hin)]

/-- The save page of the old terminal gets what is in video memory. -/
theorem switchActiveTerminal_saved {off : Nat} (hoff : off < fourKB) :
    (switchActiveTerminal b t k).mem (savePhys k.displayedTerminal + off) =
      k.mem (vidAddr + off) := by
  obtain ⟨k₁, k₂, hsaved, -, hsame₂, -, hsame₃⟩ := switchActiveTerminal_loops htables t
  have hin : InPage (savePhys k.displayedTerminal) (savePhys k.displayedTerminal + off) :=
    ⟨by omega, by omega⟩
  rw [hsame₃ _ (savePhys_separate _ hin), hsame₂ _ (savePhys_separate _ hin), hsaved off hoff]

/-- Nothing but video memory and the save page of the old terminal changes. -/
theorem switchActiveTerminal_outside {x : Nat} (hvideo : ¬InPage vidAddr x)
    (hsave : ¬InPage (savePhys k.displayedTerminal) x) :
    (switchActiveTerminal b t k).mem x = k.mem x := by
  obtain ⟨k₁, k₂, -, hsame₁, hsame₂, -, hsame₃⟩ := switchActiveTerminal_loops htables t
  rw [hsame₃ x hvideo, hsame₂ x hvideo, hsame₁ x hsave]

end Switch

/-! ## A program that writes, and switches -/

/-- The kernel, and the byte that the program has written last to each cell of its page. -/
structure UserScreen where
  kernel : Kernel
  written : Nat → Option UInt8

/-- What happens: the program writes a byte, or another terminal is displayed. -/
inductive UserLabel
  | write (off : Nat) (c : UInt8)
  | display (u : Fin 3)

/-- The program writes through the address that `sys_vidmap` has returned to it. -/
def UserStep (b : Boot) (addr : Nat) (m : UserScreen) (label : UserLabel) (m' : UserScreen) :
    Prop :=
  match label with
  | .write off c =>
      off < fourKB ∧ userWrite b m.kernel (addr + off) c = some m'.kernel ∧
        m'.written = Function.update m.written off (some c)
  | .display u => m'.kernel = switchActiveTerminal b u m.kernel ∧ m'.written = m.written

/-- A read through the address gives the byte that was written last to the cell, and while
the terminal is displayed this byte is in video memory. -/
def Persistent (b : Boot) (t : Fin 3) (addr : Nat) (m : UserScreen) : Prop :=
  ∀ off < fourKB, ∀ c, m.written off = some c →
    userRead b m.kernel (addr + off) = some c ∧
      (m.kernel.displayedTerminal = t → m.kernel.mem (vidAddr + off) = c)

/-- The physical page at `base` holds what was written last. -/
def HoldsWritten (m : UserScreen) (base : Nat) : Prop :=
  ∀ off < fourKB, ∀ c, m.written off = some c → m.kernel.mem (base + off) = c

/-- When terminal `t` leaves the screen, the page of its programs already holds what was
written last; and when it comes back, its save page does. -/
def PagesAgree (t : Fin 3) (m : UserScreen) (label : UserLabel) : Prop :=
  ∀ u, label = .display u →
    (m.kernel.displayedTerminal = t → u ≠ t → HoldsWritten m (backPhys t)) ∧
      (m.kernel.displayedTerminal ≠ t → u = t → HoldsWritten m (savePhys t))

/-- The tables through which a program of terminal `t` writes are in order. -/
structure VidmapReady (b : Boot) (t : Fin 3) (k : Kernel) : Prop where
  tables : VideoTables b k.paging
  entry : VidmapEntry k t

section Steps

variable {b : Boot} {m m' : UserScreen} {t : Fin 3} (hready : VidmapReady b t m.kernel)
include hready

theorem persistent_iff :
    Persistent b t (vidmapAddr t) m ↔ HoldsWritten m (userPhys m.kernel t) := by
  have hread : ∀ off < fourKB, userRead b m.kernel (vidmapAddr t + off) =
      some (m.kernel.mem (userPhys m.kernel t + off)) := by
    intro off hoff
    unfold userRead
    rw [hready.entry.translate hready.tables hoff]
    rfl
  constructor
  · intro h off hoff c hc
    have hbyte := (h off hoff c hc).1
    rw [hread off hoff] at hbyte
    exact Option.some.inj hbyte
  · intro h off hoff c hc
    have hbyte := h off hoff c hc
    refine ⟨by rw [hread off hoff, hbyte], fun hdisplayed => ?_⟩
    unfold userPhys at hbyte
    rwa [if_pos hdisplayed.symm] at hbyte

/-- A write does not fault. -/
theorem exists_write {off : Nat} (hoff : off < fourKB) (c : UInt8) :
    ∃ m', UserStep b (vidmapAddr t) m (.write off c) m' := by
  refine ⟨⟨m.kernel.withMem (Function.update m.kernel.mem (userPhys m.kernel t + off) c),
    Function.update m.written off (some c)⟩, hoff, ?_, rfl⟩
  unfold userWrite
  rw [hready.entry.translate hready.tables hoff]
  rfl

/-- A write through the address. -/
theorem write_holds {off : Nat} {c : UInt8}
    (hstep : UserStep b (vidmapAddr t) m (.write off c) m')
    (h : HoldsWritten m (userPhys m.kernel t)) :
    VidmapReady b t m'.kernel ∧ HoldsWritten m' (userPhys m'.kernel t) := by
  obtain ⟨hoff, hwrite, hwritten⟩ := hstep
  unfold userWrite at hwrite
  rw [hready.entry.translate hready.tables hoff] at hwrite
  have hk' : m.kernel.withMem (Function.update m.kernel.mem (userPhys m.kernel t + off) c) =
      m'.kernel := Option.some.inj hwrite
  refine ⟨?_, fun off' hoff' c' hc' => ?_⟩
  · rw [← hk']
    exact ⟨hready.tables, hready.entry⟩
  · have hsame : userPhys m'.kernel t = userPhys m.kernel t := by
      rw [← hk']
      rfl
    rw [hwritten] at hc'
    rw [hsame, ← hk', Kernel.withMem_mem]
    by_cases heq : off' = off
    · rw [heq, Function.update_self] at hc'
      rw [heq, Function.update_self]
      exact Option.some.inj hc'
    · rw [Function.update_of_ne heq] at hc'
      rw [Function.update_of_ne (by omega)]
      exact h off' hoff' c' hc'

/-- The terminal is displayed after a switch: video memory was behind the address before,
or is filled from the save page. -/
theorem display_shown_iff {addr : Nat} (hstep : UserStep b addr m (.display t) m')
    (h : HoldsWritten m (userPhys m.kernel t)) :
    HoldsWritten m' vidAddr ↔ (m.kernel.displayedTerminal ≠ t → HoldsWritten m (savePhys t)) := by
  obtain ⟨hk', hwritten⟩ := hstep
  have hvideo : ∀ off < fourKB, m'.kernel.mem (vidAddr + off) =
      if t = m.kernel.displayedTerminal then m.kernel.mem (vidAddr + off)
      else m.kernel.mem (savePhys t + off) := by
    intro off hoff
    rw [hk', switchActiveTerminal_video hready.tables t hoff]
  unfold userPhys at h
  by_cases hbefore : t = m.kernel.displayedTerminal
  · rw [if_pos hbefore] at h
    refine iff_of_true (fun off hoff c hc => ?_) fun hne => absurd hbefore.symm hne
    rw [hwritten] at hc
    rw [hvideo off hoff, if_pos hbefore]
    exact h off hoff c hc
  · have hholds : HoldsWritten m' vidAddr ↔ HoldsWritten m (savePhys t) := by
      unfold HoldsWritten
      rw [hwritten]
      refine forall₂_congr fun off hoff => ?_
      rw [hvideo off hoff, if_neg hbefore]
    rw [hholds]
    exact ⟨fun hsave _ => hsave, fun hsave => hsave (Ne.symm hbefore)⟩

/-- A switch leaves the page of its own alone, which was behind the address before if the
terminal was not displayed. -/
theorem display_hidden_iff {addr : Nat} {u : Fin 3} (hstep : UserStep b addr m (.display u) m')
    (h : HoldsWritten m (userPhys m.kernel t)) :
    HoldsWritten m' (backPhys t) ↔
      (m.kernel.displayedTerminal = t → HoldsWritten m (backPhys t)) := by
  obtain ⟨hk', hwritten⟩ := hstep
  have hback : ∀ off < fourKB,
      m'.kernel.mem (backPhys t + off) = m.kernel.mem (backPhys t + off) := by
    intro off hoff
    have hin : InPage (backPhys t) (backPhys t + off) := ⟨by omega, by omega⟩
    obtain ⟨hvideo, hsave⟩ := backPhys_separate t hin m.kernel.displayedTerminal
    rw [hk', switchActiveTerminal_outside hready.tables u hvideo hsave]
  have hholds : HoldsWritten m' (backPhys t) ↔ HoldsWritten m (backPhys t) := by
    unfold HoldsWritten
    rw [hwritten]
    refine forall₂_congr fun off hoff => ?_
    rw [hback off hoff]
  rw [hholds]
  unfold userPhys at h
  by_cases hbefore : t = m.kernel.displayedTerminal
  · exact ⟨fun hkept _ => hkept, fun hkept => hkept hbefore.symm⟩
  · rw [if_neg hbefore] at h
    exact iff_of_true h fun heq => absurd heq.symm hbefore

/-- A switch. -/
theorem display_holds_iff {addr : Nat} {u : Fin 3} (hstep : UserStep b addr m (.display u) m')
    (h : HoldsWritten m (userPhys m.kernel t)) :
    VidmapReady b t m'.kernel ∧
      (HoldsWritten m' (userPhys m'.kernel t) ↔ PagesAgree t m (.display u)) := by
  have hk' : m'.kernel = switchActiveTerminal b u m.kernel := hstep.1
  have hready' : VidmapReady b t m'.kernel := by
    rw [hk']
    refine ⟨?_, hready.entry.switchActiveTerminal u⟩
    rw [switchActiveTerminal_paging]
    exact hready.tables.switchTables _ u
  have hdisplayed : m'.kernel.displayedTerminal = u := by rw [hk']; rfl
  refine ⟨hready', ?_⟩
  unfold PagesAgree
  by_cases hu : t = u
  · subst hu
    have hpage : userPhys m'.kernel t = vidAddr := if_pos hdisplayed.symm
    rw [hpage, display_shown_iff hready hstep h]
    simp
  · have hpage : userPhys m'.kernel t = backPhys t := by
      unfold userPhys
      rw [hdisplayed, if_neg hu]
    rw [hpage, display_hidden_iff hready hstep h]
    simp [Ne.symm hu]

/-- One step of the program or of the display. -/
theorem step_holds_iff {label : UserLabel} (hstep : UserStep b (vidmapAddr t) m label m')
    (h : HoldsWritten m (userPhys m.kernel t)) :
    VidmapReady b t m'.kernel ∧
      (HoldsWritten m' (userPhys m'.kernel t) ↔ PagesAgree t m label) := by
  cases label with
  | write off c =>
      obtain ⟨hready', hholds⟩ := write_holds hready hstep h
      exact ⟨hready', iff_of_true hholds fun u hu => absurd hu (by simp)⟩
  | display u => exact display_holds_iff hready hstep h

end Steps

/-! ## Runs -/

/-- The machine when the program has called `sys_vidmap`. -/
def UserScreen.start (k : Kernel) : UserScreen := ⟨k, fun _ => none⟩

theorem holdsWritten_run {b : Boot} {t : Fin 3} {k : Kernel} (hready : VidmapReady b t k)
    {labels : List UserLabel} {m : UserScreen}
    (hrun : Run (guarded (PagesAgree t) (UserStep b (vidmapAddr t)))
        (UserScreen.start k) labels m) :
    VidmapReady b t m.kernel ∧ HoldsWritten m (userPhys m.kernel t) := by
  refine hrun.invariant
    (P := fun m => VidmapReady b t m.kernel ∧ HoldsWritten m (userPhys m.kernel t)) ?_
    ⟨hready, fun off _ c hc => absurd hc (by simp [UserScreen.start])⟩
  rintro m label m' ⟨hm, hholds⟩ ⟨hagree, hstep⟩
  obtain ⟨hm', hiff⟩ := step_holds_iff hm hstep hholds
  exact ⟨hm', hiff.mpr hagree⟩

/-- A program of terminal `t` has called `sys_vidmap`, in a reachable state in which the
entry of `t` is in order. It can write to every byte of the page, and in every run of its
writes and of switches in which the pages agree, it reads back what it has written last, and
this is in video memory while `t` is displayed. Wherever such a run gets, the next step keeps
it so if and only if the pages agree. -/
theorem vidmap_persists_iff (b : Boot) (k₀ : Kernel) (before : List DisplayLabel) (k : Kernel)
    (hreach : Run (DisplayStepInPlace b) (boot b k₀) before k)
    (hentry : VidmapEntry k k.executingTerminal) (screenStart addr : Nat)
    (hvidmap : sysVidmap screenStart k = (0, some addr)) (labels : List UserLabel) (m : UserScreen)
    (hrun : Run (guarded (PagesAgree k.executingTerminal) (UserStep b addr)) (UserScreen.start k)
      labels m) :
    Persistent b k.executingTerminal addr m ∧
      (∀ off < fourKB, ∀ c, ∃ m', UserStep b addr m (.write off c) m') ∧
      ∀ label m', UserStep b addr m label m' →
        (Persistent b k.executingTerminal addr m' ↔ PagesAgree k.executingTerminal m label) := by
  obtain rfl := sysVidmap_addr hvidmap
  obtain ⟨hm, hholds⟩ := holdsWritten_run ⟨run_videoTables hreach, hentry⟩ hrun
  refine ⟨(persistent_iff hm).mpr hholds, fun off hoff c => exists_write hm hoff c,
    fun label m' hstep => ?_⟩
  obtain ⟨hm', hiff⟩ := step_holds_iff hm hstep hholds
  rw [persistent_iff hm', hiff]

/-! ## A byte that is lost -/

theorem sysVidmap_first {k : Kernel} (h : k.executingTerminal = 0) :
    sysVidmap 0x8048000 k = (0, some (vidmapAddr 0)) := by
  unfold sysVidmap vidmapAddr
  rw [h]
  simp

/-- A shell runs on the displayed terminal 0 and calls `sys_vidmap`. -/
theorem exists_vidmap (k₀ : Kernel) : ∃ before k,
    Run (DisplayStepInPlace smallBoot) (boot smallBoot k₀) before k ∧ k.executingTerminal = 0 ∧
      k.displayedTerminal = 0 ∧ VidmapReady smallBoot 0 k ∧
      sysVidmap 0x8048000 k = (0, some (vidmapAddr 0)) := by
  obtain ⟨k, hreach, -, hexec, hshown, -⟩ := exists_shells k₀ (n := 1) (by decide)
  obtain ⟨howns, htables⟩ := OwnsScreen.run (run_displayStep hreach)
  exact ⟨_, k, hreach.of_guarded, hexec, hshown, ⟨htables, howns.vidmap 0⟩, sysVidmap_first hexec⟩

/-- The program writes the first byte of its page. -/
theorem exists_first_write {b : Boot} {k : Kernel} (hready : VidmapReady b 0 k)
    (hshown : k.displayedTerminal = 0) (c : UInt8) : ∃ m,
    Run (guarded (PagesAgree 0) (UserStep b (vidmapAddr 0))) (UserScreen.start k) [.write 0 c] m ∧
      m.written = Function.update (fun _ => none) 0 (some c) ∧ m.kernel.displayedTerminal = 0 ∧
      m.kernel.mem (backPhys 0) = k.mem (backPhys 0) ∧ m.kernel.mem vidAddr = c := by
  have hstart : VidmapReady b 0 (UserScreen.start k).kernel := hready
  have hin : 0 < fourKB := by decide
  obtain ⟨m, hstep⟩ := exists_write hstart hin c
  have hrun := Run.single (R := guarded (PagesAgree 0) (UserStep b (vidmapAddr 0)))
    ⟨fun u hu => absurd hu (by simp), hstep⟩
  obtain ⟨-, hwrite, hwritten⟩ := hstep
  unfold userWrite at hwrite
  rw [hstart.entry.translate hstart.tables hin] at hwrite
  have hk' : k.withMem (Function.update k.mem (userPhys k 0 + 0) c) = m.kernel :=
    Option.some.inj hwrite
  have hpage : userPhys k 0 = vidAddr := if_pos hshown.symm
  refine ⟨m, hrun, hwritten, by rw [← hk']; exact hshown, ?_, ?_⟩
  · rw [← hk', Kernel.withMem_mem, hpage, Function.update_of_ne (by decide)]
  · rw [← hk', Kernel.withMem_mem, hpage]
    exact Function.update_self _ _ _

/-- The only byte that is written is the first one. -/
theorem holdsWritten_first {m : UserScreen} {base : Nat} {c : UInt8}
    (hwritten : m.written = Function.update (fun _ => none) 0 (some c))
    (hbyte : m.kernel.mem base = c) : HoldsWritten m base := by
  intro off _ c' hc'
  rw [hwritten] at hc'
  by_cases hoff : off = 0
  · rw [hoff, Function.update_self] at hc'
    rw [hoff, Nat.add_zero, hbyte]
    exact Option.some.inj hc'
  · rw [Function.update_of_ne hoff] at hc'
    exact absurd hc' (by simp)

/-- The program writes the byte that the other page holds already; the second terminal is
displayed, and then the first one again. -/
theorem exists_roundTrip {b : Boot} {k : Kernel} (hready : VidmapReady b 0 k)
    (hshown : k.displayedTerminal = 0) : ∃ c m,
    Run (guarded (PagesAgree 0) (UserStep b (vidmapAddr 0))) (UserScreen.start k)
        [.write 0 c, .display 1, .display 0] m ∧
      m.written 0 = some c ∧ m.kernel.displayedTerminal = 0 := by
  obtain ⟨m, hrun, hwritten, hdisplayed, hback, hvideo⟩ :=
    exists_first_write hready hshown (k.mem (backPhys 0))
  obtain ⟨hm, -⟩ := holdsWritten_run hready hrun
  have hhide : UserStep b (vidmapAddr 0) m (.display 1)
      ⟨switchActiveTerminal b 1 m.kernel, m.written⟩ := ⟨rfl, rfl⟩
  have hhideAgree : PagesAgree 0 m (.display 1) := by
    intro u hu
    obtain rfl := UserLabel.display.inj hu
    exact ⟨fun _ _ => holdsWritten_first hwritten hback, fun hne _ => absurd hdisplayed hne⟩
  have hshow : UserStep b (vidmapAddr 0) ⟨switchActiveTerminal b 1 m.kernel, m.written⟩ (.display 0)
      ⟨switchActiveTerminal b 0 (switchActiveTerminal b 1 m.kernel), m.written⟩ := ⟨rfl, rfl⟩
  have hsaved : (switchActiveTerminal b 1 m.kernel).mem (savePhys 0) = k.mem (backPhys 0) := by
    have hcopied := switchActiveTerminal_saved hm.tables 1 (show 0 < fourKB by decide)
    rw [hdisplayed, Nat.add_zero, Nat.add_zero] at hcopied
    exact hcopied.trans hvideo
  have hshowAgree : PagesAgree 0 ⟨switchActiveTerminal b 1 m.kernel, m.written⟩ (.display 0) := by
    intro u hu
    obtain rfl := UserLabel.display.inj hu
    exact ⟨fun _ hne => absurd rfl hne, fun _ _ => holdsWritten_first hwritten hsaved⟩
  refine ⟨_, _, Run.snoc (Run.snoc hrun ⟨hhideAgree, hhide⟩) ⟨hshowAgree, hshow⟩, ?_,
    switchActiveTerminal_displayedTerminal b 0 _⟩
  simp only [hwritten, Function.update_self]

theorem vidmap_persists_iff_switch : ∃ before k c m,
    Run (DisplayStepInPlace smallBoot) (boot smallBoot blankKernel) before k ∧
      Run (guarded (PagesAgree 0) (UserStep smallBoot (vidmapAddr 0))) (UserScreen.start k)
        [.write 0 c, .display 1, .display 0] m ∧
      userRead smallBoot m.kernel (vidmapAddr 0 + 0) = some c ∧
      m.kernel.mem (vidAddr + 0) = c := by
  obtain ⟨before, k, hreach, hexec, hshown, hready, hvidmap⟩ := exists_vidmap blankKernel
  obtain ⟨c, m, hrun, hwritten, hdisplayed⟩ := exists_roundTrip hready hshown
  have hrun' := hrun
  have hentry := hready.entry
  rw [← hexec] at hrun' hentry hvidmap
  obtain ⟨hpersistent, -⟩ := vidmap_persists_iff smallBoot blankKernel before k hreach hentry
    0x8048000 _ hvidmap _ m hrun'
  obtain ⟨hread, hvideo⟩ := hpersistent 0 (by decide) c hwritten
  rw [hexec] at hread hvideo
  exact ⟨before, k, c, m, hreach, hrun, hread, hvideo hdisplayed⟩

theorem switch_loses_write : ¬∀ (b : Boot) (k₀ : Kernel) (before : List DisplayLabel) (k : Kernel),
    Run (DisplayStepInPlace b) (boot b k₀) before k →
      ∀ screenStart addr, sysVidmap screenStart k = (0, some addr) →
        ∀ labels m, Run (UserStep b addr) (UserScreen.start k) labels m →
          Persistent b k.executingTerminal addr m := by
  intro hall
  obtain ⟨before, k, hreach, hexec, hshown, hready, hvidmap⟩ := exists_vidmap blankKernel
  -- a byte that the page behind the screen does not hold
  obtain ⟨c, hc⟩ : ∃ c : UInt8, k.mem (backPhys 0) ≠ c := by
    by_cases hzero : k.mem (backPhys 0) = 0
    · exact ⟨1, by rw [hzero]; decide⟩
    · exact ⟨0, hzero⟩
  obtain ⟨m, hrun, hwritten, hdisplayed, hback, -⟩ := exists_first_write hready hshown c
  obtain ⟨hm, hholds⟩ := holdsWritten_run hready hrun
  have hstep : UserStep smallBoot (vidmapAddr 0) m (.display 1)
      ⟨switchActiveTerminal smallBoot 1 m.kernel, m.written⟩ := ⟨rfl, rfl⟩
  obtain ⟨hm', hiff⟩ := display_holds_iff hm hstep hholds
  have hlost := hall smallBoot blankKernel before k hreach 0x8048000 _ hvidmap _ _
    (Run.snoc hrun.of_guarded hstep)
  rw [hexec, persistent_iff hm', hiff] at hlost
  have hbyte := (hlost 1 rfl).1 hdisplayed (by decide) 0 (by decide) c
    (by rw [hwritten, Function.update_self])
  exact hc (hback.symm.trans hbyte)

end Ece391Kernel
