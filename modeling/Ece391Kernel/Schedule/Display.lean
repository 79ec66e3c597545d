import Ece391Kernel.Screen.Refinement
import Ece391Kernel.Schedule.ContextSwitch
import Ece391Kernel.Process.Tree

/-!
# The terminal on the screen

`switch_active_terminal` keeps three things in step: what video memory shows, the
entries of the video page table through which the programs of a terminal write, and
`displayed_terminal`. The calls and the ticks change none of them, except a tick whose
shell does not start: it sets `displayed_terminal` to the executing terminal, and does
no more.
-/

namespace Ece391Kernel

open TransitionSystem

/-! ## What leaves the screens alone -/

/-- The displayed terminal, the video tables and the memory below the frames of the
processes are as before. -/
structure ScreensKept (b : Boot) (k k' : Kernel) : Prop where
  displayedTerminal : k'.displayedTerminal = k.displayedTerminal
  userVideo : k'.paging.userVideoPageTable = k.paging.userVideoPageTable
  firstPageTable : k'.paging.firstPageTable = k.paging.firstPageTable
  tables : VideoTables b k.paging → VideoTables b k'.paging
  mem : VideoTables b k.paging → ∀ x < eightMB, k'.mem x = k.mem x

namespace ScreensKept

variable {b : Boot} {k k' : Kernel}

theorem of_same (hdisplayed : k'.displayedTerminal = k.displayedTerminal)
    (hpaging : k'.paging = k.paging) (hmem : k'.mem = k.mem) : ScreensKept b k k' where
  displayedTerminal := hdisplayed
  userVideo := by rw [hpaging]
  firstPageTable := by rw [hpaging]
  tables := by rw [hpaging]; exact id
  mem := fun _ x _ => by rw [hmem]

theorem refl (k : Kernel) : ScreensKept b k k := of_same rfl rfl rfl

theorem trans {k₁ k₂ k₃ : Kernel} (h₁ : ScreensKept b k₁ k₂) (h₂ : ScreensKept b k₂ k₃) :
    ScreensKept b k₁ k₃ where
  displayedTerminal := h₂.displayedTerminal.trans h₁.displayedTerminal
  userVideo := h₂.userVideo.trans h₁.userVideo
  firstPageTable := h₂.firstPageTable.trans h₁.firstPageTable
  tables := fun htables => h₂.tables (h₁.tables htables)
  mem := fun htables x hx => (h₂.mem (h₁.tables htables) x hx).trans (h₁.mem htables x hx)

/-- Mapping a process. -/
theorem of_processMap (n : Nat) (hdisplayed : k'.displayedTerminal = k.displayedTerminal)
    (hpaging : k'.paging = processMap n k.paging) (hmem : k'.mem = k.mem) : ScreensKept b k k' where
  displayedTerminal := hdisplayed
  userVideo := by rw [hpaging]; rfl
  firstPageTable := by rw [hpaging]; rfl
  tables := by rw [hpaging]; exact fun htables => htables.processMap n
  mem := fun _ x _ => by rw [hmem]

theorem attachPcb (n esp ebp : Nat) (k : Kernel) : ScreensKept b k (attachPcb n esp ebp k) := by
  rw [attachPcb_eq]
  exact of_same rfl rfl rfl

theorem setTss (n : Nat) (k : Kernel) : ScreensKept b k (setTss n k) := of_same rfl rfl rfl

theorem release (k : Kernel) : ScreensKept b k (releaseProcess (closeFiles k)) := by
  obtain ⟨d, hd⟩ := DescOnly.closeFiles k
  rw [hd]
  exact of_same rfl rfl rfl

/-- A program is loaded into the frame of its process. -/
theorem loadProgram {inode n : Nat} {kl : Kernel} (hn : n < maxNumProcess)
    (hload : loadProgram b inode (mapProcess n (countProcess (claimSlot n k))) = some kl) :
    ScreensKept b k kl := by
  have hmapped : ScreensKept b k (mapProcess n (countProcess (claimSlot n k))) :=
    of_processMap n rfl rfl rfl
  obtain ⟨m, rfl⟩ := storeBytes_mem hload
  refine hmapped.trans ⟨rfl, rfl, rfl, id, fun htables x hx => ?_⟩
  have hframe := processMap_pageDirectory_virPro (countProcess (claimSlot n k)).paging hn
  have hfit := loadProgram_fits inode htables hframe hload
  rw [loadProgram_frame inode hframe hfit] at hload
  rw [← Option.some.inj hload, Kernel.withMem_mem]
  refine storeAt_outside _ (Or.inl ?_)
  unfold frameAddr
  simp only [eightMB, fourMB, loadOffset] at hx ⊢
  omega

/-- A program is started. -/
theorem launch {a : ExecArgs} {idx : Nat} (h : (launch b a idx k).state = some k') :
    ScreensKept b k k' := by
  rcases launch_cases b a idx k with ⟨-, hno⟩ | ⟨n, -, hfault⟩ | ⟨n, kl, hslot, hload, hok⟩
  · exact absurd (hno ▸ h) (by simp [Outcome.state])
  · exact absurd (hfault ▸ h) (by simp [Outcome.state])
  · rw [hok] at h
    rw [← Option.some.inj h]
    obtain ⟨i, rfl, -⟩ := freeSlot_some hslot
    exact ((loadProgram i.isLt hload).trans (attachPcb _ _ _ _)).trans (setTss _ _)

theorem sysExecute {a : ExecArgs} (h : (sysExecute b a k).state = some k') :
    ScreensKept b k k' := by
  rcases sysExecute_cases b a k with ⟨-, hret⟩ | ⟨command, -, -, -, hret⟩ | ⟨command, -, -, hret⟩ |
    ⟨command, idx, -, -, -, -, hlaunch⟩
  · rw [hret] at h
    rw [← Option.some.inj h]
    exact refl k
  · rw [hret] at h
    rw [← Option.some.inj h]
    exact of_same rfl rfl rfl
  · rw [hret] at h
    rw [← Option.some.inj h]
    exact of_same rfl rfl rfl
  · have hparsed : ScreensKept b k (parseCommand command k) := of_same rfl rfl rfl
    rw [hlaunch] at h
    exact hparsed.trans (launch h)

theorem runCall {c : Call} (h : (runCall b c k).state = some k') : ScreensKept b k k' := by
  cases c with
  | execute a => exact sysExecute h
  | halt a =>
      have hhalt : (sysHalt b a k).state = some k' := h
      rcases sysHalt_cases b a k with ⟨-, ⟨k₁, -, hfault⟩ | ⟨-, hshell⟩⟩ | ⟨-, pcb, -, hresumed⟩
      · exact absurd (hfault ▸ hhalt) (by simp [Outcome.state])
      · rw [hshell] at hhalt
        exact (release k).trans (sysExecute hhalt)
      · rw [hresumed] at hhalt
        rw [← Option.some.inj hhalt]
        exact (release k).trans (of_processMap _ rfl rfl rfl)

end ScreensKept

/-! ## A tick whose shell does not start -/

/-- The state after a tick. -/
def SwitchOutcome.state : SwitchOutcome → Option Kernel
  | .stayed k => some k
  | .switched _ _ k => some k
  | .launched _ k => some k
  | .failed k => some k
  | .stuck => none

/-- `sys_execute` returns -1. -/
theorem sysExecute_returns_iff (b : Boot) (a : ExecArgs) (k : Kernel) :
    (∃ k', sysExecute b a k = .returned k') ↔
      (k.numProcessExecuting = 6 ∨ a.command = none) ∨
      (∃ command, a.command = some command ∧ findDirentry b (commandName command) = none) ∨
      Rejected b a k := by
  constructor
  · rintro ⟨k', h⟩
    rcases sysExecute_cases b a k with ⟨hearly, -⟩ | ⟨command, -, hcommand, hidx, -⟩ |
      ⟨command, hrejected, -, -⟩ | ⟨command, idx, -, -, -, -, hlaunch⟩
    · exact Or.inl hearly
    · exact Or.inr (Or.inl ⟨command, hcommand, hidx⟩)
    · exact Or.inr (Or.inr hrejected)
    · exact absurd (hlaunch.symm.trans h) (launch_ne_returned b a idx _ _)
  · rintro (hearly | ⟨command, hcommand, hidx⟩ | hrejected)
    · exact ⟨k, sysExecute_early hearly⟩
    · by_cases hfull : k.numProcessExecuting = 6
      · exact ⟨k, sysExecute_early (Or.inl hfull)⟩
      · exact ⟨_, sysExecute_unknown hfull hcommand hidx⟩
    · exact hrejected.returned

/-- A tick calls for a shell on the next terminal, and the table is full, or there is no
shell, or it is no program. -/
def ShellRefused (b : Boot) (a : SwitchArgs) (k : Kernel) : Prop :=
  (k.terminals firstTerminal).numProcessExecutingOnTerminal ≠ 0 ∧
    (k.terminals k.next).numProcessExecutingOnTerminal = 0 ∧
    (k.numProcessExecuting = 6 ∨ findDirentry b (commandName shellCommand) = none ∨
      Rejected b (switchShell a) k)

/-- A tick leaves the screens alone, or its shell is refused and the executing terminal
becomes the displayed one. -/
theorem pitInterrupt_screens {b : Boot} {a : SwitchArgs} {k k' : Kernel}
    (h : (pitInterrupt b a k).state = some k') :
    (¬ShellRefused b a k ∧ ScreensKept b k k') ∨
      (ShellRefused b a k ∧ ∃ k₁, ScreensKept b k k₁ ∧ k' = { k₁ with
        executingTerminal := k.executingTerminal, displayedTerminal := k.executingTerminal }) := by
  have hreturns := sysExecute_returns_iff b (switchShell a) ((parked a k).onTerminal k.next)
  have hrefused : ShellRefused b a k ↔ (k.terminals 0).numProcessExecutingOnTerminal ≠ 0 ∧
      (k.terminals k.next).numProcessExecutingOnTerminal = 0 ∧
      ∃ k₁, sysExecute b (switchShell a) ((parked a k).onTerminal k.next) = .returned k₁ := by
    rw [hreturns]
    unfold ShellRefused switchShell Rejected
    simp [parked]
  have hparked : ScreensKept b k ((parked a k).onTerminal k.next) :=
    ScreensKept.of_same rfl rfl rfl
  rw [pitInterrupt_eq] at h
  by_cases hfirst : (k.terminals 0).numProcessExecutingOnTerminal = 0
  · rw [if_pos hfirst] at h
    rw [← Option.some.inj h]
    exact Or.inl ⟨fun hr => hr.1 hfirst, ScreensKept.of_same rfl rfl rfl⟩
  · rw [if_neg hfirst] at h
    by_cases hempty : (k.terminals k.next).numProcessExecutingOnTerminal = 0
    · rw [if_pos hempty] at h
      cases hcall : sysExecute b (switchShell a) ((parked a k).onTerminal k.next) with
      | returned k₁ =>
          rw [hcall] at h
          exact Or.inr ⟨hrefused.mpr ⟨hfirst, hempty, k₁, hcall⟩, k₁,
            hparked.trans (ScreensKept.sysExecute (congrArg Outcome.state hcall)),
            (Option.some.inj h).symm⟩
      | launched entry k₁ =>
          rw [hcall] at h
          rw [← Option.some.inj h]
          refine Or.inl ⟨fun hr => ?_,
            hparked.trans (ScreensKept.sysExecute (congrArg Outcome.state hcall))⟩
          obtain ⟨-, -, k₂, hreturned⟩ := hrefused.mp hr
          exact absurd (hcall.symm.trans hreturned) (by simp)
      | resumed eax esp ebp k₁ => exact absurd hcall (sysExecute_ne_resumed b _ _ _ _ _ _)
      | noSlot => exact absurd (hcall ▸ h) (by simp [SwitchOutcome.state])
      | fault => exact absurd (hcall ▸ h) (by simp [SwitchOutcome.state])
    · rw [if_neg hempty] at h
      rw [← Option.some.inj h]
      exact Or.inl ⟨fun hr => hempty hr.2.1,
        hparked.trans (ScreensKept.of_processMap _ rfl rfl rfl)⟩

/-! ## The owner of the screen -/

/-- The contents of the page at an address. -/
def pageCells (b : Boot) (k : Kernel) (base : Nat) : Cells := fun row col =>
  ⟨readByte b k (cellPos base row col), readByte b k (cellPos base row col + 1)⟩

/-- The contents of the screen of a terminal after boot. -/
def bootCells (b : Boot) (k₀ : Kernel) (t : Fin 3) : Cells :=
  pageCells b (boot b k₀) (screenPage (boot b k₀) t)

/-- The entry through which the programs of a terminal write is that of video memory while
the terminal is displayed, and that of a page of its own while it is not. -/
def VidmapEntry (k : Kernel) (t : Fin 3) : Prop :=
  k.paging.userVideoPageTable (videoIndex + indexSeg + t) =
    (if t = k.displayedTerminal then vidAddr else vidAddr + (indexSeg + t) * fourKB) |||
      (wp ||| userFlag)

def VidmapEntries (k : Kernel) : Prop := ∀ t, VidmapEntry k t

/-- The vidmap entries are in order, and no other entry has changed since `INIT_PAGE`; and
the displayed terminal is the one whose screen video memory shows, while the screens of the
others are in their save pages. -/
structure OwnsScreen (b : Boot) (k₀ k : Kernel) : Prop where
  vidmap : VidmapEntries k
  other : ∀ i, (∀ t : Fin 3, i ≠ videoIndex + indexSeg + t) →
    k.paging.userVideoPageTable i = (initPage b k₀.paging).userVideoPageTable i
  firstPageTable : k.paging.firstPageTable = (initPage b k₀.paging).firstPageTable
  contents : ∀ t, PageShows b k (screenPage k t) (bootCells b k₀ t)

/-- The entry of a terminal that is not displayed is not that of video memory. -/
theorem backPage_ne (t : Fin 3) : (vidAddr + (indexSeg + t) * fourKB) ||| (wp ||| userFlag) ≠
    vidAddr ||| (wp ||| userFlag) := by decide +revert

theorem switchTables_userVideo (displayed next : Fin 3) (pt : PageTables) :
    (switchTables displayed next pt).userVideoPageTable =
      Function.update (Function.update pt.userVideoPageTable (videoIndex + indexSeg + displayed)
        ((vidAddr + (indexSeg + displayed) * fourKB) ||| (wp ||| userFlag)))
        (videoIndex + indexSeg + next) (vidAddr ||| (wp ||| userFlag)) := by
  have hindex : ∀ t : Fin 3, videoIndex + t + indexSeg = videoIndex + indexSeg + t := by
    intro t
    omega
  unfold switchTables
  simp only [hindex, entry_or_or]

theorem terminalInitTables_userVideo (pt : PageTables) :
    (terminalInitTables pt).userVideoPageTable = Function.update pt.userVideoPageTable
      (videoIndex + indexSeg + firstTerminal) (vidAddr ||| (wp ||| userFlag)) := by
  have hflags : vidAddr ||| userFlag ||| wp = vidAddr ||| (wp ||| userFlag) := by decide
  unfold terminalInitTables
  rw [hflags]
  rfl

theorem vidmapIndex_ne {t u : Fin 3} (h : t ≠ u) :
    videoIndex + indexSeg + (t : Nat) ≠ videoIndex + indexSeg + u := by
  intro heq
  exact h (Fin.ext (by omega))

theorem VidmapEntry.switchActiveTerminal {b : Boot} {k : Kernel} {u : Fin 3}
    (h : VidmapEntry k u) (t : Fin 3) : VidmapEntry (switchActiveTerminal b t k) u := by
  unfold VidmapEntry
  have hdisplayed : (Ece391Kernel.switchActiveTerminal b t k).displayedTerminal = t := rfl
  rw [switchActiveTerminal_paging, hdisplayed, switchTables_userVideo]
  by_cases hu : u = t
  · rw [hu, if_pos rfl, Function.update_self]
  · rw [if_neg hu, Function.update_of_ne (vidmapIndex_ne hu)]
    by_cases hbefore : u = k.displayedTerminal
    · rw [← hbefore, Function.update_self]
    · rw [Function.update_of_ne (vidmapIndex_ne hbefore), h, if_neg hbefore]

namespace OwnsScreen

variable {b : Boot} {k₀ k k' : Kernel}

theorem keep (h : OwnsScreen b k₀ k) (htables : VideoTables b k.paging)
    (hkept : ScreensKept b k k') : OwnsScreen b k₀ k' where
  vidmap := by
    intro u
    unfold VidmapEntry
    rw [hkept.userVideo, hkept.displayedTerminal]
    exact h.vidmap u
  other := by
    rw [hkept.userVideo]
    exact h.other
  firstPageTable := hkept.firstPageTable.trans h.firstPageTable
  contents := by
    intro t
    have hpage : screenPage k' t = screenPage k t := by
      unfold screenPage
      rw [hkept.displayedTerminal]
    rw [hpage]
    exact (h.contents t).of_mem (screenPage_isScreenPage k t) htables (hkept.tables htables)
      (hkept.mem htables)

/-- `switch_active_terminal` hands the screen over. -/
theorem switchActiveTerminal (h : OwnsScreen b k₀ k) (htables : VideoTables b k.paging)
    (t : Fin 3) : OwnsScreen b k₀ (switchActiveTerminal b t k) where
  vidmap := fun u => (h.vidmap u).switchActiveTerminal t
  other := by
    intro i hi
    rw [switchActiveTerminal_paging, switchTables_userVideo, Function.update_of_ne (hi t),
      Function.update_of_ne (hi k.displayedTerminal)]
    exact h.other i hi
  firstPageTable := by
    rw [switchActiveTerminal_paging]
    exact h.firstPageTable
  contents := by
    have hpages : PagesShow b k (bootCells b k₀) := ⟨htables, h.contents⟩
    exact (hpages.switchActiveTerminal t).2

/-- Another terminal is called the displayed one, and nothing else is done. -/
theorem not_displayed (h : OwnsScreen b k₀ k) {e : Fin 3} (he : k.displayedTerminal ≠ e)
    (htable : k'.paging.userVideoPageTable = k.paging.userVideoPageTable)
    (hdisplayed : k'.displayedTerminal = e) : ¬OwnsScreen b k₀ k' := by
  intro h'
  have hbefore := h.vidmap e
  have hentry := h'.vidmap e
  unfold VidmapEntry at hbefore hentry
  rw [htable, hbefore, hdisplayed, if_pos rfl, if_neg he.symm] at hentry
  exact backPage_ne e hentry

end OwnsScreen

/-! ## Runs -/

/-- What can happen: Alt and a function key, a call of the running process, or a tick. -/
inductive DisplayLabel
  | altF (t : Fin 3)
  | call (c : Call)
  | tick (a : SwitchArgs)

def DisplayStep (b : Boot) (k : Kernel) (label : DisplayLabel) (k' : Kernel) : Prop :=
  match label with
  | .altF t => k' = switchActiveTerminal b t k
  | .call c =>
      (∀ a, c = .halt a → 0 < k.current.numProcessExecutingOnTerminal) ∧
        (runCall b c k).state = some k'
  | .tick a => (pitInterrupt b a k).state = some k'

/-- When a shell is refused, the executing terminal is displayed. -/
def ShowsExecuting (b : Boot) (k : Kernel) (label : DisplayLabel) : Prop :=
  ∀ a, label = .tick a → ShellRefused b a k → k.displayedTerminal = k.executingTerminal

/-- The argument of a call fits into the buffer. -/
def DisplayLabel.Fits (label : DisplayLabel) : Prop := ∀ c, label = .call c → c.Fits

/-- The step as it is carried out. -/
def DisplayLabel.seen : DisplayLabel → DisplayLabel
  | .altF t => .altF t
  | .call c => .call c.seen
  | .tick a => .tick a

/-- What can happen with the argument buffer in its place. -/
def DisplayStepInPlace (b : Boot) (k : Kernel) (label : DisplayLabel) (k' : Kernel) : Prop :=
  match label with
  | .altF t => DisplayStep b k (.altF t) k'
  | .call c => CallInPlace b c k k'
  | .tick a => DisplayStep b k (.tick a) k'

theorem displayStepInPlace_iff {b : Boot} {k k' : Kernel} {label : DisplayLabel}
    (hfits : label.Fits) : DisplayStepInPlace b k label k' ↔ DisplayStep b k label.seen k' := by
  cases label with
  | altF t => rfl
  | call c => exact callInPlace_iff (hfits c rfl)
  | tick a => rfl

/-- Only the ticks matter, and they are carried out as they are. -/
theorem showsExecuting_seen {b : Boot} {k : Kernel} {label : DisplayLabel} :
    ShowsExecuting b k label.seen ↔ ShowsExecuting b k label := by
  cases label with
  | altF t => rfl
  | call c =>
      exact iff_of_true (fun a ha => DisplayLabel.noConfusion ha) fun a ha =>
        DisplayLabel.noConfusion ha
  | tick a => rfl

/-- The argument fits, and the screen stays with its owner. -/
def KeepsScreen (b : Boot) (k : Kernel) (label : DisplayLabel) : Prop :=
  label.Fits ∧ ShowsExecuting b k label

theorem boot_ownsScreen (b : Boot) (k₀ : Kernel) : OwnsScreen b k₀ (boot b k₀) where
  vidmap := by
    intro t
    unfold VidmapEntry
    rw [boot_paging, boot_displayedTerminal, terminalInitTables_userVideo]
    by_cases ht : t = 0
    · rw [ht, if_pos rfl, Function.update_self]
    · rw [if_neg ht, Function.update_of_ne (vidmapIndex_ne ht)]
      exact initPage_vidmap b k₀.paging t
  other := by
    intro i hi
    rw [boot_paging, terminalInitTables_userVideo, Function.update_of_ne (hi firstTerminal)]
  firstPageTable := by
    rw [boot_paging]
    rfl
  contents := fun _ _ _ => ⟨rfl, rfl⟩

theorem VideoTables.displayStep {b : Boot} {k k' : Kernel} (h : VideoTables b k.paging)
    (label : DisplayLabel) (hstep : DisplayStep b k label k') : VideoTables b k'.paging := by
  cases label with
  | altF t =>
      have hk' : k' = switchActiveTerminal b t k := hstep
      rw [hk', switchActiveTerminal_paging]
      exact h.switchTables _ t
  | call c => exact (ScreensKept.runCall hstep.2).tables h
  | tick a =>
      rcases pitInterrupt_screens hstep with ⟨-, hkept⟩ | ⟨-, k₁, hkept, hk'⟩
      · exact hkept.tables h
      · rw [hk']
        exact hkept.tables h

/-- No argument, however long, gets to the tables. -/
theorem CallInPlace.videoTables {b : Boot} {c : Call} {k k' : Kernel} (hcall : CallInPlace b c k k')
    (h : VideoTables b k.paging) : VideoTables b k'.paging := by
  obtain ⟨o, ho, hk'⟩ := Option.bind_eq_some_iff.mp hcall.ends
  cases c with
  | halt a =>
      obtain rfl : sysHalt b a k = o := Option.some.inj ho
      exact (ScreensKept.runCall (c := .halt a) hk').tables h
  | execute a =>
      rcases sysExecuteInPlace_cases ho with ⟨-, rfl⟩ |
        ⟨command, k₁, -, -, hparsed, ⟨-, rfl⟩ | ⟨idx, -, rfl | rfl⟩⟩
      · rw [← Option.some.inj hk']
        exact h
      · rw [← Option.some.inj hk', hparsed.paging]
        exact h
      · rw [← Option.some.inj hk', show (dropCount k₁).paging = k₁.paging from rfl, hparsed.paging]
        exact h
      · refine (ScreensKept.launch hk').tables ?_
        rw [hparsed.paging]
        exact h

theorem run_videoTables {b : Boot} {k₀ k : Kernel} {labels : List DisplayLabel}
    (hrun : Run (DisplayStepInPlace b) (boot b k₀) labels k) : VideoTables b k.paging := by
  refine hrun.invariant (P := fun k => VideoTables b k.paging) (fun k label k' h hstep => ?_)
    (boot_videoTables b k₀)
  cases label with
  | altF t => exact h.displayStep (.altF t) hstep
  | call c => exact CallInPlace.videoTables hstep h
  | tick a => exact h.displayStep (.tick a) hstep

/-- One step keeps the screens with their owners, if no shell is refused while the
executing terminal is not displayed. -/
theorem OwnsScreen.step_iff {b : Boot} {k₀ k k' : Kernel} {label : DisplayLabel}
    (h : OwnsScreen b k₀ k) (htables : VideoTables b k.paging)
    (hstep : DisplayStep b k label k') : OwnsScreen b k₀ k' ↔ ShowsExecuting b k label := by
  cases label with
  | altF t =>
      have hk' : k' = Ece391Kernel.switchActiveTerminal b t k := hstep
      rw [hk']
      exact iff_of_true (h.switchActiveTerminal htables t) fun a ha => absurd ha (by simp)
  | call c =>
      have hkept := ScreensKept.runCall hstep.2
      exact iff_of_true (h.keep htables hkept) fun a ha => absurd ha (by simp)
  | tick a =>
      rcases pitInterrupt_screens hstep with ⟨hnot, hkept⟩ | ⟨hrefused, k₁, hkept, hk'⟩
      · refine iff_of_true (h.keep htables hkept) ?_
        intro a' ha hr
        obtain rfl := DisplayLabel.tick.inj ha
        exact absurd hr hnot
      · have hdisplayed : k'.displayedTerminal = k.executingTerminal := by rw [hk']
        refine ⟨fun h' => ?_, fun hshows => ?_⟩
        · intro _ _ _
          by_contra hne
          refine h.not_displayed hne ?_ hdisplayed h'
          rw [hk']
          exact hkept.userVideo
        · -- the executing terminal is displayed anyway
          have hsame := hshows a rfl hrefused
          have hlast : ScreensKept b k₁ k' := by
            rw [hk', ← hsame, ← hkept.displayedTerminal]
            exact ScreensKept.of_same rfl rfl rfl
          exact h.keep htables (hkept.trans hlast)

theorem OwnsScreen.run {b : Boot} {k₀ k : Kernel} {labels : List DisplayLabel}
    (hrun : Run (guarded (ShowsExecuting b) (DisplayStep b)) (boot b k₀) labels k) :
    OwnsScreen b k₀ k ∧ VideoTables b k.paging := by
  refine hrun.invariant (P := fun k => OwnsScreen b k₀ k ∧ VideoTables b k.paging) ?_
    ⟨boot_ownsScreen b k₀, boot_videoTables b k₀⟩
  rintro k label k' ⟨h, htables⟩ ⟨hshows, hstep⟩
  exact ⟨(h.step_iff htables hstep).mpr hshows, htables.displayStep label hstep⟩

/-- A run in place is a run of calls with buffers of their own. -/
theorem run_displayStep {b : Boot} {k₀ k : Kernel} {labels : List DisplayLabel}
    (hrun : Run (guarded (KeepsScreen b) (DisplayStepInPlace b)) k₀ labels k) :
    Run (guarded (ShowsExecuting b) (DisplayStep b)) k₀ (labels.map DisplayLabel.seen) k :=
  hrun.map_labels fun _ _ _ hstep =>
    ⟨showsExecuting_seen.mpr hstep.1.2, (displayStepInPlace_iff hstep.1.1).mp hstep.2⟩

/-- In every run of switches, calls and ticks in which the arguments fit into the buffer, and no
shell is refused while another terminal than the executing one is displayed, the displayed
terminal owns video memory. And wherever such a run gets, the next step, if its argument fits,
keeps it so if and only if it refuses no shell in this way. -/
theorem displayed_owns_screen_iff (b : Boot) (k₀ : Kernel) (labels : List DisplayLabel) (k : Kernel)
    (hrun : Run (guarded (KeepsScreen b) (DisplayStepInPlace b)) (boot b k₀) labels k) :
    OwnsScreen b k₀ k ∧ ∀ label k', label.Fits → DisplayStepInPlace b k label k' →
      (OwnsScreen b k₀ k' ↔ ShowsExecuting b k label) := by
  obtain ⟨h, htables⟩ := OwnsScreen.run (run_displayStep hrun)
  refine ⟨h, fun label k' hfits hstep => ?_⟩
  rw [← showsExecuting_seen]
  exact h.step_iff htables ((displayStepInPlace_iff hfits).mp hstep)

/-! ## A refused shell -/

/-- The table is full, and the terminal whose turn comes next has no process. -/
structure Blocked (k : Kernel) : Prop where
  full : k.numProcessExecuting = 6
  started : (k.terminals firstTerminal).numProcessExecutingOnTerminal ≠ 0
  empty : (k.terminals k.next).numProcessExecutingOnTerminal = 0

namespace Blocked

variable {b : Boot} {k k' : Kernel}

theorem of_same (h : Blocked k) (hfull : k'.numProcessExecuting = k.numProcessExecuting)
    (hexec : k'.executingTerminal = k.executingTerminal)
    (hnum : ∀ t, (k'.terminals t).numProcessExecutingOnTerminal =
      (k.terminals t).numProcessExecutingOnTerminal) : Blocked k' := by
  have hnext : k'.next = k.next := congrArg nextTerminal hexec
  refine ⟨hfull.trans h.full, ?_, ?_⟩
  · rw [hnum]
    exact h.started
  · rw [hnext, hnum]
    exact h.empty

/-- The shell is refused at once. -/
theorem pitInterrupt (h : Blocked k) (a : SwitchArgs) :
    pitInterrupt b a k = .failed { (parked a k).onTerminal k.next with
      executingTerminal := k.executingTerminal, displayedTerminal := k.executingTerminal } := by
  have hreturned : sysExecute b (switchShell a) ((parked a k).onTerminal k.next) =
      .returned ((parked a k).onTerminal k.next) := sysExecute_early (Or.inl h.full)
  rw [pitInterrupt_eq, if_neg h.started, if_pos h.empty, hreturned]

theorem shellRefused (h : Blocked k) (a : SwitchArgs) : ShellRefused b a k :=
  ⟨h.started, h.empty, Or.inl h.full⟩

/-- The executing terminal is called the displayed one. -/
theorem displayStep (h : Blocked k) (a : SwitchArgs) : ∃ k', DisplayStepInPlace b k (.tick a) k' ∧
    k'.displayedTerminal = k.executingTerminal ∧
      k'.paging.userVideoPageTable = k.paging.userVideoPageTable :=
  ⟨_, congrArg SwitchOutcome.state (h.pitInterrupt a), rfl, rfl⟩

theorem switchActiveTerminal (h : Blocked k) (t : Fin 3) :
    Blocked (switchActiveTerminal b t k) := by
  obtain ⟨k₁, hmem, heq⟩ := switchActiveTerminal_eq b t k
  have hscreen := hmem.screenOnly
  rw [heq]
  exact h.of_same hscreen.numProcessExecuting_eq hscreen.executingTerminal_eq
    hscreen.numOnTerminal_eq

end Blocked

/-- Any number of shells up to six can be started on the first terminal. -/
theorem exists_shells (k₀ : Kernel) {n : Nat} (hn : n ≤ maxNumProcess) : ∃ k,
    Run (guarded (KeepsScreen smallBoot) (DisplayStepInPlace smallBoot)) (boot smallBoot k₀)
        (List.replicate n (.call (.execute (smallArgs shellCommand)))) k ∧
      UsedBelow n k ∧ k.executingTerminal = 0 ∧ k.displayedTerminal = 0 ∧
      k.numProcessExecuting = UInt32.ofNat n ∧
      (k.terminals 0).numProcessExecutingOnTerminal = n ∧
      ∀ u, u ≠ 0 → (k.terminals u).numProcessExecutingOnTerminal = 0 := by
  induction n with
  | zero =>
      have hempty := (boot_represents smallBoot k₀).length
      exact ⟨_, Run.nil _, boot_usedBelow smallBoot k₀, boot_executingTerminal smallBoot k₀,
        boot_displayedTerminal smallBoot k₀, boot_numProcessExecuting smallBoot k₀, hempty 0,
        fun u _ => hempty u⟩
  | succ n ih =>
      obtain ⟨k, hrun, hslots, hexec, hshown, hnum, hfirst, hothers⟩ :=
        ih (Nat.le_of_succ_le hn)
      obtain ⟨k', hk', hlaunch, hslots', hnum'⟩ := smallBoot_next_shell hslots hn hnum 0
      rw [Kernel.onTerminal_eq hexec] at hk'
      have hcall : CallInPlace smallBoot (.execute (smallArgs shellCommand)) k k' :=
        ⟨fun a ha => absurd ha (by simp), by
          rw [plain_shell.runCallInPlace, runCall, hk']
          rfl⟩
      have hstep : guarded (KeepsScreen smallBoot) (DisplayStepInPlace smallBoot) k
          (.call (.execute (smallArgs shellCommand))) k' :=
        ⟨⟨fun c hc => DisplayLabel.call.inj hc ▸ plain_shell.fits,
          fun a ha => absurd ha (by simp)⟩, hcall⟩
      rw [List.replicate_succ']
      refine ⟨k', Run.snoc hrun hstep, hslots', hlaunch.executingTerminal,
        hlaunch.displayedTerminal.trans hshown, hnum', ?_, fun u hu => ?_⟩
      · rw [hlaunch.num_same, hfirst]
        rfl
      · rw [hlaunch.num_other hu, hothers u hu]

/-- With six shells on the first terminal, the second one has its turn next. -/
theorem exists_blocked (k₀ : Kernel) : ∃ k,
    Run (guarded (KeepsScreen smallBoot) (DisplayStepInPlace smallBoot)) (boot smallBoot k₀)
        (List.replicate 6 (.call (.execute (smallArgs shellCommand)))) k ∧
      Blocked k ∧ k.executingTerminal = 0 ∧ k.displayedTerminal = 0 := by
  obtain ⟨k, hrun, -, hexec, hshown, hnum, hfirst, hothers⟩ :=
    exists_shells k₀ (Nat.le_refl maxNumProcess)
  have hnext : k.next = 1 := congrArg nextTerminal hexec
  refine ⟨k, hrun, ⟨hnum, fun hzero => ?_, ?_⟩, hexec, hshown⟩
  · exact absurd (hfirst.symm.trans hzero) (by decide)
  · rw [hnext]
    exact hothers 1 (by decide)

/-- The second terminal is displayed in between, and the first one again when the shell is
refused. -/
theorem displayed_owns_screen_iff_refused : ∃ k k',
    Run (guarded (KeepsScreen smallBoot) (DisplayStepInPlace smallBoot))
        (boot smallBoot blankKernel)
        (List.replicate 6 (.call (.execute (smallArgs shellCommand))) ++ [.altF 1] ++ [.altF 0]) k ∧
      ShellRefused smallBoot smallTick k ∧
      DisplayStepInPlace smallBoot k (.tick smallTick) k' ∧
      OwnsScreen smallBoot blankKernel k' := by
  obtain ⟨k, hrun, hblocked, hexec, -⟩ := exists_blocked blankKernel
  have hswitch : ∀ (k : Kernel) (t : Fin 3), guarded (KeepsScreen smallBoot)
      (DisplayStepInPlace smallBoot) k (.altF t) (switchActiveTerminal smallBoot t k) :=
    fun k t => ⟨⟨fun c hc => absurd hc (by simp), fun a ha => absurd ha (by simp)⟩, rfl⟩
  have hrun' := Run.snoc (Run.snoc hrun (hswitch k 1)) (hswitch _ 0)
  have hblocked' : Blocked (switchActiveTerminal smallBoot 0
      (switchActiveTerminal smallBoot 1 k)) :=
    (hblocked.switchActiveTerminal 1).switchActiveTerminal 0
  have hexec' : (switchActiveTerminal smallBoot 0
      (switchActiveTerminal smallBoot 1 k)).executingTerminal = 0 := by
    rw [switchActiveTerminal_executingTerminal, switchActiveTerminal_executingTerminal, hexec]
  have hshown : (switchActiveTerminal smallBoot 0
      (switchActiveTerminal smallBoot 1 k)).displayedTerminal = 0 := rfl
  obtain ⟨k', htick, -⟩ := hblocked'.displayStep (b := smallBoot) smallTick
  refine ⟨_, k', hrun', hblocked'.shellRefused smallTick, htick, ?_⟩
  refine ((displayed_owns_screen_iff smallBoot blankKernel _ _ hrun').2 _ _
    (fun c hc => absurd hc (by simp)) htick).mpr fun _ _ _ => ?_
  rw [hshown, hexec']

/-- With six shells on the first terminal, a tick while the second one is displayed calls the
first one the displayed one. -/
theorem exists_refused (k₀ : Kernel) : ∃ k k',
    Run (DisplayStepInPlace smallBoot) (boot smallBoot k₀)
        (List.replicate 6 (.call (.execute (smallArgs shellCommand))) ++ [.altF 1]) k ∧
      DisplayStepInPlace smallBoot k (.tick smallTick) k' ∧ k.displayedTerminal = 1 ∧
      k'.displayedTerminal = 0 ∧ k'.paging.userVideoPageTable = k.paging.userVideoPageTable := by
  obtain ⟨k, hrun, hblocked, hexec, -⟩ := exists_blocked k₀
  have hswitch : DisplayStepInPlace smallBoot k (.altF 1) (switchActiveTerminal smallBoot 1 k) :=
    rfl
  have hblocked' : Blocked (switchActiveTerminal smallBoot 1 k) := hblocked.switchActiveTerminal 1
  obtain ⟨k', htick, hshown, htable⟩ := hblocked'.displayStep (b := smallBoot) smallTick
  rw [switchActiveTerminal_executingTerminal, hexec] at hshown
  exact ⟨_, k', Run.snoc hrun.of_guarded hswitch, htick, rfl, hshown, htable⟩

theorem shell_refused_loses_screen : ¬∀ (b : Boot) (k₀ : Kernel) (labels : List DisplayLabel)
    (k : Kernel), Run (DisplayStepInPlace b) (boot b k₀) labels k → OwnsScreen b k₀ k := by
  intro hall
  obtain ⟨k, k', hrun, hstep, hbefore, hafter, htable⟩ := exists_refused blankKernel
  have hne : k.displayedTerminal ≠ 0 := by
    rw [hbefore]
    decide
  exact (hall smallBoot blankKernel _ k hrun).not_displayed hne htable hafter
    (hall smallBoot blankKernel _ k' (Run.snoc hrun hstep))

end Ece391Kernel
