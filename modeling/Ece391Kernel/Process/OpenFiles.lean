import Ece391Kernel.Process.Tree

/-!
# The files of a process that has exited

`sys_halt` closes the descriptors of the process it ends, in a loop that stops before
descriptor 7. So a slot that no process uses any more may keep this descriptor marked in
use, unless the process had not opened it, or was the last of its terminal and the shell
that replaces it gets the same slot.
-/

namespace Ece391Kernel

open TransitionSystem LinkedStack

/-! ## Closing files -/

theorem sysClose_table {fd : Nat} (hlo : firstRegFile ≤ fd) (hhi : fd < lastRegFile) (k : Kernel) :
    (sysClose fd k).2.table = Function.update k.table fd { k.table fd with flag := 1 } := by
  rcases sysClose_cases (fd : Int) k with ⟨-, hok⟩ | ⟨hnot, hfail⟩
  · rw [hok, setDesc_table, Int.toNat_natCast]
  · have hflag : (k.table fd).flag = 1 := by
      by_contra hne
      exact hnot ⟨Int.ofNat_le.mpr hlo, Int.ofNat_lt.mpr hhi, hne⟩
    have hsame : { k.table fd with flag := 1 } = k.table fd := by rw [← hflag]
    rw [hfail, hsame, Function.update_eq_self]

/-- The loop of `sys_halt` closes descriptors 2 to 6. -/
theorem closeFiles_table (k : Kernel) (fd : Nat) :
    (closeFiles k).table fd =
      if firstRegFile ≤ fd ∧ fd < uppb then { k.table fd with flag := 1 } else k.table fd := by
  have hloop := ByteStore.fold_invariant
    (fun m k' => ∀ j, k'.table j = if firstRegFile ≤ j ∧ j < firstRegFile + m then
      { k.table j with flag := 1 } else k.table j)
    (uppb - 2) (fun i _ k => (sysClose (regFile + i) k).2) k
    (by intro j; rw [if_neg (by omega)])
    (by
      intro i hi k' hk' j
      have hfd : regFile + (i : Int) = ((firstRegFile + i : Nat) : Int) := by
        rw [Int.natCast_add]
        rfl
      simp only [uppb] at hi
      rw [hfd, sysClose_table (Nat.le_add_right _ _)
        (by simp only [firstRegFile, lastRegFile]; omega)]
      by_cases hj : j = firstRegFile + i
      · subst hj
        rw [Function.update_self, hk', if_neg (by omega), if_pos (by omega)]
      · rw [Function.update_of_ne hj, hk']
        by_cases hin : firstRegFile ≤ j ∧ j < firstRegFile + i
        · rw [if_pos hin, if_pos (by omega)]
        · rw [if_neg hin, if_neg (by omega)])
  exact hloop fd

/-- The descriptors of the process in slot `n`. -/
def Kernel.descs (k : Kernel) (n : Fin 6) : Nat → FileDesc := (k.pcbs (slotAddr n)).fDesc

/-- No file descriptor of the slot is in use. -/
def FilesClosed (k : Kernel) (n : Fin 6) : Prop :=
  ∀ fd, firstRegFile ≤ fd → fd < lastRegFile → (k.descs n fd).flag = 1

/-- A change of the running process leaves the descriptors of the other slots alone. -/
theorem DescOnly.descs_other {k k' : Kernel} (h : DescOnly k k') {n : Fin 6}
    (hn : slotAddr n ≠ k.current.activePcb) : k'.descs n = k.descs n := by
  obtain ⟨d, rfl⟩ := h
  unfold Kernel.descs withDescs
  rw [Kernel.setPcb_pcbs_ne _ _ hn]

theorem DescOnly.current_eq {k k' : Kernel} (h : DescOnly k k') : k'.current = k.current := by
  obtain ⟨d, rfl⟩ := h
  rfl

theorem DescOnly.executingTerminal_eq {k k' : Kernel} (h : DescOnly k k') :
    k'.executingTerminal = k.executingTerminal := by
  obtain ⟨d, rfl⟩ := h
  rfl

theorem DescOnly.processes_eq {k k' : Kernel} (h : DescOnly k k') : k'.processes = k.processes := by
  obtain ⟨d, rfl⟩ := h
  rfl

theorem Launch.descs_other {k k' : Kernel} {n : Nat} {esp ebp : Nat} (h : Launch n esp ebp k k')
    {m : Fin 6} (hm : (m : Nat) ≠ n) : k'.descs m = k.descs m := by
  have hne : slotAddr m ≠ pcbAddr n := by
    have hlt := m.isLt
    unfold slotAddr pcbAddr
    simp only [eightMB, eightKB]
    intro heq
    exact hm (by omega)
  unfold Kernel.descs
  rw [h.pcbs_other _ hne]

/-! ## One halt -/

/-- A halt of the running process would start a shell in the slot that it frees. -/
def ReplacedInSlot (k : Kernel) : Prop :=
  k.activePcb.parentPcb = 0 ∧ ∀ i < k.activePcb.processNum, k.processes i ≠ 0

/-- What a halt of the process in slot `n` leaves of the slots: a shell in slot `n`, or the
descriptors of its process, of which all but 7 have been closed. -/
structure Halted (n : Fin 6) (k k' : Kernel) : Prop where
  other : ∀ m ≠ n, k'.processes m = 0 → k.processes m = 0 ∧ k'.descs m = k.descs m
  replaced : ReplacedInSlot k → k'.processes n = 1
  freed : ¬ReplacedInSlot k → k'.processes n = 0 ∧ ∀ fd, k'.descs n fd =
    if firstRegFile ≤ fd ∧ fd < uppb then { k.descs n fd with flag := 1 } else k.descs n fd

theorem release_processes (k : Kernel) :
    (releaseProcess (closeFiles k)).processes =
      Function.update k.processes k.activePcb.processNum 0 :=
  (release_released k).processes

theorem release_descs (k : Kernel) (m : Fin 6) :
    (releaseProcess (closeFiles k)).descs m = (closeFiles k).descs m := by
  unfold Kernel.descs
  rw [releaseProcess_pcbs]

/-- The lowest free slot after the release is the one of the process, or a lower one. -/
theorem freeSlot_release {k : Kernel} {n : Fin 6} (hnum : k.activePcb.processNum = n) {i : Nat}
    (hslot : freeSlot (releaseProcess (closeFiles k)) = some i) :
    i ≤ n ∧ (i = n ↔ ∀ j < (n : Nat), k.processes j ≠ 0) := by
  unfold freeSlot at hslot
  rw [release_processes, hnum, List.find?_range_eq_some] at hslot
  obtain ⟨hfree, -, hfirst⟩ := hslot
  have hle : i ≤ n := by
    by_contra hlt
    have hused := hfirst n (by omega)
    rw [Function.update_self] at hused
    exact absurd hused (by decide)
  refine ⟨hle, ?_⟩
  constructor
  · rintro rfl j hj
    have hused := hfirst j hj
    rw [Function.update_of_ne (by omega)] at hused
    simpa using hused
  · intro hused
    by_contra hne
    rw [Function.update_of_ne hne] at hfree
    exact hused i (by omega) (by simpa using hfree)

section Halt

variable {k k' : Kernel} {s : ProcessStacks}

theorem Represents.halted (h : Represents k s) {n : Fin 6} {l : List (Fin 6)}
    (htop : s.on k.executingTerminal = n :: l) {b : Boot} {a : HaltArgs}
    (hstate : (sysHalt b a k).state = some k') : Halted n k k' := by
  obtain ⟨hactive, hnum, -⟩ := h.top htop
  have hcurrent : k.current.activePcb = slotAddr n := hactive
  have hprocess : k.activePcb.processNum = n := by
    unfold Kernel.activePcb
    rw [hcurrent, hnum]
  have hclosed := DescOnly.closeFiles k
  have hprocesses := release_processes k
  rw [hprocess] at hprocesses
  -- the descriptors after the loop, in the slot of the process and in the others
  have hown : ∀ fd, (releaseProcess (closeFiles k)).descs n fd =
      if firstRegFile ≤ fd ∧ fd < uppb then { k.descs n fd with flag := 1 }
      else k.descs n fd := by
    have htable := closeFiles_table k
    unfold Kernel.table Kernel.activePcb at htable
    rw [hclosed.current_eq, hcurrent] at htable
    intro fd
    rw [release_descs]
    exact htable fd
  have hother : ∀ m ≠ n, (releaseProcess (closeFiles k)).descs m = k.descs m := by
    intro m hm
    rw [release_descs, hclosed.descs_other]
    rw [hcurrent]
    exact fun heq => hm (slotAddr_injective heq)
  rcases sysHalt_state hstate with ⟨hzero, i, hslot, hlaunch⟩ | ⟨hparent, pcb, -, rfl, -⟩
  · obtain ⟨hle, hreplaced⟩ := freeSlot_release hprocess hslot
    have hiff : ReplacedInSlot k ↔ i = n := by
      unfold ReplacedInSlot
      rw [hprocess, hreplaced]
      exact ⟨And.right, fun hused => ⟨hzero, hused⟩⟩
    refine ⟨fun m hm hfree => ?_, fun hr => ?_, fun hr => ?_⟩
    · have hmn : (m : Nat) ≠ n := fun heq => hm (Fin.ext heq)
      have hmi : (m : Nat) ≠ i := by
        rintro rfl
        rw [hlaunch.processes, Function.update_self] at hfree
        exact absurd hfree (by decide)
      rw [hlaunch.processes, Function.update_of_ne hmi, hprocesses,
        Function.update_of_ne hmn] at hfree
      exact ⟨hfree, (hlaunch.descs_other hmi).trans (hother m hm)⟩
    · rw [hlaunch.processes, hiff.mp hr, Function.update_self]
    · have hne : (n : Nat) ≠ i := fun heq => hr (hiff.mpr heq.symm)
      refine ⟨?_, fun fd => ?_⟩
      · rw [hlaunch.processes, Function.update_of_ne hne, hprocesses, Function.update_self]
      · rw [hlaunch.descs_other hne]
        exact hown fd
  · have hnot : ¬ReplacedInSlot k := fun hr => hparent hr.1
    refine ⟨fun m hm hfree => ?_, fun hr => absurd hr hnot, fun _ => ⟨?_, hown⟩⟩
    · have hmn : (m : Nat) ≠ n := fun heq => hm (Fin.ext heq)
      rw [resumeParent_processes, hprocesses, Function.update_of_ne hmn] at hfree
      exact ⟨hfree, hother m hm⟩
    · rw [resumeParent_processes, hprocesses, Function.update_self]

end Halt

/-! ## Runs -/

/-- A call that starts or ends a process, or opens or closes a file. -/
inductive FileCall
  | process (c : Call)
  | openFile (name : CString)
  | close (fd : Int)

/-- The running process makes the call. -/
def RunsFileCall (b : Boot) (call : FileCall) (k k' : Kernel) : Prop :=
  match call with
  | .process c =>
      (∀ a, c = .halt a → 0 < k.current.numProcessExecutingOnTerminal) ∧
        (runCall b c k).state = some k'
  | .openFile name => 0 < k.current.numProcessExecutingOnTerminal ∧ k' = (sysOpen b name k).2
  | .close fd => 0 < k.current.numProcessExecutingOnTerminal ∧ k' = (sysClose fd k).2

/-- The kernel, and the slots that have held a process so far. -/
structure SlotHistory where
  kernel : Kernel
  held : Fin 6 → Prop

/-- A process of a terminal makes a call. -/
def FileStep (b : Boot) (m : SlotHistory) (label : Fin 3 × FileCall) (m' : SlotHistory) : Prop :=
  RunsFileCall b label.2 (m.kernel.onTerminal label.1) m'.kernel ∧
    m'.held = fun n => m.held n ∨ m'.kernel.processes n = 1

/-- The slots after boot. -/
def SlotHistory.boot (b : Boot) (k : Kernel) : SlotHistory :=
  ⟨Ece391Kernel.boot b k, fun _ => False⟩

theorem SlotHistory.boot_eq (b : Boot) (k : Kernel) :
    SlotHistory.boot b k = ⟨Ece391Kernel.boot b k, fun _ => False⟩ := rfl

/-- A slot that has held a process and is free has no descriptor in use. -/
def FreedClosed (m : SlotHistory) : Prop :=
  ∀ n : Fin 6, m.held n → m.kernel.processes n = 0 → FilesClosed m.kernel n

/-- A process that exits does not use descriptor 7, or is replaced by a shell in its slot. -/
def ClosesAll (m : SlotHistory) (label : Fin 3 × FileCall) : Prop :=
  ∀ a, label.2 = .process (.halt a) →
    ((m.kernel.onTerminal label.1).table uppb).flag = 1 ∨
      ReplacedInSlot (m.kernel.onTerminal label.1)

theorem sysOpen_descOnly (b : Boot) (name : CString) (k : Kernel) :
    DescOnly k (sysOpen b name k).2 := by
  rcases sysOpen_cases b name k with ⟨-, hfail⟩ | ⟨idx, fd, -, -, hok⟩
  · rw [hfail]
    exact DescOnly.refl k
  · rw [hok]
    exact DescOnly.setDesc k fd fun d => bindDriver b idx { d with flag := 0, filePosition := 0 }

section Step

variable {b : Boot} {k k' : Kernel} {s : ProcessStacks} {call : FileCall}

theorem DescOnly.represents (h : DescOnly k k') (hs : Represents k s) : Represents k' s := by
  obtain ⟨d, rfl⟩ := h
  refine hs.of_same rfl (fun addr => ?_) fun _ => ⟨rfl, rfl⟩
  unfold withDescs
  by_cases haddr : addr = k.current.activePcb
  · rw [haddr, Kernel.setPcb_pcbs_same]
    exact ⟨rfl, rfl⟩
  · rw [Kernel.setPcb_pcbs_ne _ _ haddr]
    exact ⟨rfl, rfl⟩

/-- The running process is in a used slot, so its descriptors are those of no free slot. -/
theorem Represents.descOnly_free (hs : Represents k s) (h : DescOnly k k')
    (hstarted : 0 < k.current.numProcessExecutingOnTerminal) {m : Fin 6}
    (hfree : k'.processes m = 0) : k.processes m = 0 ∧ k'.descs m = k.descs m := by
  obtain ⟨n, l, htop⟩ := hs.exists_top hstarted
  have hcurrent : k.current.activePcb = slotAddr n := (hs.top htop).1
  have hused : k.processes n = 1 := hs.used n ⟨_, by rw [htop]; exact List.mem_cons_self⟩
  rw [h.processes_eq] at hfree
  refine ⟨hfree, h.descs_other ?_⟩
  rw [hcurrent]
  intro heq
  rw [slotAddr_injective heq, hused] at hfree
  exact absurd hfree (by decide)

/-- A call keeps the stacks. It frees no slot and leaves the descriptors of the free slots
alone, unless it is a halt. -/
theorem Represents.fileCall (hs : Represents k s) (h : RunsFileCall b call k k') :
    (∃ s', Represents k' s') ∧
      ((∀ a, call ≠ .process (.halt a)) ∧
          (∀ m : Fin 6, k'.processes m = 0 → k.processes m = 0 ∧ k'.descs m = k.descs m) ∨
        ∃ a n l, call = .process (.halt a) ∧ s.on k.executingTerminal = n :: l ∧
          Halted n k k') := by
  cases call with
  | openFile name =>
      obtain ⟨hstarted, rfl⟩ := h
      have hdesc := sysOpen_descOnly b name k
      exact ⟨⟨s, hdesc.represents hs⟩,
        Or.inl ⟨fun a => by simp, fun m hfree => hs.descOnly_free hdesc hstarted hfree⟩⟩
  | close fd =>
      obtain ⟨hstarted, rfl⟩ := h
      have hdesc := DescOnly.sysClose fd k
      exact ⟨⟨s, hdesc.represents hs⟩,
        Or.inl ⟨fun a => by simp, fun m hfree => hs.descOnly_free hdesc hstarted hfree⟩⟩
  | process c =>
      obtain ⟨henabled, hstate⟩ := h
      obtain ⟨s', hs', -⟩ := hs.call henabled hstate
      refine ⟨⟨s', hs'⟩, ?_⟩
      cases c with
      | halt a =>
          obtain ⟨n, l, htop⟩ := hs.exists_top (henabled a rfl)
          exact Or.inr ⟨a, n, l, rfl, htop, hs.halted htop hstate⟩
      | execute a =>
          refine Or.inl ⟨fun a' => by simp, fun m hfree => ?_⟩
          rcases runCall_cases hstate with ⟨a', -, hret⟩ | ⟨a', entry, n, -, -, -, hlaunch⟩ |
            ⟨a', _, _, hhalt, -⟩ | ⟨a', _, _, hhalt, -⟩
          · have hfailed := (sysExecute_returned hret).1
            rw [hfailed.processes] at hfree
            unfold Kernel.descs
            rw [hfailed.pcbs]
            exact ⟨hfree, rfl⟩
          · have hmn : (m : Nat) ≠ n := by
              rintro rfl
              rw [hlaunch.processes, Function.update_self] at hfree
              exact absurd hfree (by decide)
            rw [hlaunch.processes, Function.update_of_ne hmn] at hfree
            exact ⟨hfree, hlaunch.descs_other hmn⟩
          · exact absurd hhalt (by simp)
          · exact absurd hhalt (by simp)

end Step

/-- The kernel keeps stacks, all of whose slots have held a process. -/
def SlotInvariant (m : SlotHistory) : Prop :=
  ∃ s, Represents m.kernel s ∧ ∀ n, s.Owned n → m.held n

section Run

variable {b : Boot} {m m' : SlotHistory} {label : Fin 3 × FileCall}

theorem SlotInvariant.step (h : SlotInvariant m) (hstep : FileStep b m label m') :
    SlotInvariant m' := by
  obtain ⟨s, hs, -⟩ := h
  obtain ⟨⟨s', hs'⟩, -⟩ := (hs.onTerminal label.1).fileCall hstep.1
  refine ⟨s', hs', fun n hn => ?_⟩
  rw [hstep.2]
  exact Or.inr (hs'.used n hn)

/-- A call keeps the freed slots closed exactly when it is not a halt that leaves
descriptor 7 in use. -/
theorem SlotInvariant.freedClosed_iff (h : SlotInvariant m) (hclosed : FreedClosed m)
    (hstep : FileStep b m label m') : FreedClosed m' ↔ ClosesAll m label := by
  obtain ⟨s, hs, hheld⟩ := h
  have hk := hs.onTerminal label.1
  -- a slot that is free after the call has been held before it
  have hbefore : ∀ n, m'.held n → m'.kernel.processes n = 0 → m.held n := by
    intro n hn hfree
    rw [hstep.2] at hn
    rcases hn with hn | hused
    · exact hn
    · exact absurd (hused.symm.trans hfree) (by decide)
  rcases (hk.fileCall hstep.1).2 with ⟨hnot, hfree⟩ | ⟨a, n, l, hhalt, htop, hhalted⟩
  · refine iff_of_true (fun n hn hzero fd hlo hhi => ?_) fun a ha => absurd ha (hnot a)
    obtain ⟨hzero', hdescs⟩ := hfree n hzero
    rw [hdescs]
    exact hclosed n (hbefore n hn hzero) hzero' fd hlo hhi
  · have hcurrent : (m.kernel.onTerminal label.1).current.activePcb = slotAddr n := (hk.top htop).1
    have htable : (m.kernel.onTerminal label.1).table = (m.kernel.onTerminal label.1).descs n := by
      unfold Kernel.table Kernel.activePcb Kernel.descs
      rw [hcurrent]
    have howned : m.held n := hheld n ⟨_, by rw [htop]; exact List.mem_cons_self⟩
    constructor
    · intro hclosed' a' _
      by_cases hreplaced : ReplacedInSlot (m.kernel.onTerminal label.1)
      · exact Or.inr hreplaced
      · obtain ⟨hzero, hdescs⟩ := hhalted.freed hreplaced
        have hheld' : m'.held n := by
          rw [hstep.2]
          exact Or.inl howned
        have hflag := hclosed' n hheld' hzero uppb (by decide) (by decide)
        rw [hdescs, if_neg (by simp)] at hflag
        rw [htable]
        exact Or.inl hflag
    · intro hall i hi hzero fd hlo hhi
      by_cases hin : i = n
      · subst hin
        rcases hall a hhalt with hseven | hreplaced
        · by_cases hreplaced : ReplacedInSlot (m.kernel.onTerminal label.1)
          · exact absurd ((hhalted.replaced hreplaced).symm.trans hzero) (by decide)
          · rw [(hhalted.freed hreplaced).2]
            rw [htable] at hseven
            split
            · rfl
            · have hfd : fd = uppb := by
                simp only [firstRegFile, lastRegFile, uppb] at *
                omega
              rw [hfd]
              exact hseven
        · exact absurd ((hhalted.replaced hreplaced).symm.trans hzero) (by decide)
      · obtain ⟨hzero', hdescs⟩ := hhalted.other i hin hzero
        rw [hdescs]
        exact hclosed i (hbefore i hi hzero) hzero' fd hlo hhi

theorem SlotInvariant.run (h : SlotInvariant m) {labels : List (Fin 3 × FileCall)}
    (hrun : Run (FileStep b) m labels m') : SlotInvariant m' :=
  hrun.invariant (fun _ _ _ h hstep => h.step hstep) h

theorem boot_slotInvariant (b : Boot) (k : Kernel) : SlotInvariant (SlotHistory.boot b k) := by
  refine ⟨Stacks.empty, boot_represents b k, ?_⟩
  rintro n ⟨t, hn⟩
  exact absurd hn List.not_mem_nil

end Run

/-! ## With the argument buffer in its place -/

/-- The argument of a call fits into the buffer. -/
def FileCall.Fits (call : FileCall) : Prop := ∀ c, call = .process c → c.Fits

/-- The call as it is carried out. -/
def FileCall.seen : FileCall → FileCall
  | .process c => .process c.seen
  | .openFile name => .openFile name
  | .close fd => .close fd

def RunsFileCallInPlace (b : Boot) (call : FileCall) (k k' : Kernel) : Prop :=
  match call with
  | .process c => CallInPlace b c k k'
  | .openFile name => RunsFileCall b (.openFile name) k k'
  | .close fd => RunsFileCall b (.close fd) k k'

/-- A process of a terminal makes a call. -/
def FileStepInPlace (b : Boot) (m : SlotHistory) (label : Fin 3 × FileCall) (m' : SlotHistory) :
    Prop :=
  RunsFileCallInPlace b label.2 (m.kernel.onTerminal label.1) m'.kernel ∧
    m'.held = fun n => m.held n ∨ m'.kernel.processes n = 1

theorem runsFileCallInPlace_iff {b : Boot} {call : FileCall} {k k' : Kernel} (hfits : call.Fits) :
    RunsFileCallInPlace b call k k' ↔ RunsFileCall b call.seen k k' := by
  cases call with
  | process c => exact callInPlace_iff (hfits c rfl)
  | openFile name => rfl
  | close fd => rfl

theorem fileStepInPlace_iff {b : Boot} {m m' : SlotHistory} {label : Fin 3 × FileCall}
    (hfits : label.2.Fits) :
    FileStepInPlace b m label m' ↔ FileStep b m (label.1, label.2.seen) m' := by
  unfold FileStepInPlace FileStep
  rw [runsFileCallInPlace_iff hfits]

/-- Only the halts matter, and they are carried out as they are. -/
theorem closesAll_seen {m : SlotHistory} {label : Fin 3 × FileCall} :
    ClosesAll m (label.1, label.2.seen) ↔ ClosesAll m label := by
  obtain ⟨t, call⟩ := label
  cases call with
  | openFile name => rfl
  | close fd => rfl
  | process c =>
      cases c with
      | halt a => rfl
      | execute a =>
          exact iff_of_true (fun a' ha => absurd (FileCall.process.inj ha) Call.noConfusion)
            fun a' ha => absurd (FileCall.process.inj ha) Call.noConfusion

/-- The argument fits, and a process that exits leaves no descriptor in use. -/
def ExitsClosed (m : SlotHistory) (label : Fin 3 × FileCall) : Prop :=
  label.2.Fits ∧ ClosesAll m label

/-- A call that is carried out as it is. -/
def FileCall.Plain (call : FileCall) : Prop := ∀ c, call = .process c → c.Plain

theorem FileCall.Plain.fits {call : FileCall} (h : call.Plain) : call.Fits :=
  fun c hc => (h c hc).fits

theorem FileCall.Plain.seen {call : FileCall} (h : call.Plain) : call.seen = call := by
  cases call with
  | process c => exact congrArg FileCall.process (h c rfl).seen
  | openFile name => rfl
  | close fd => rfl

theorem FileStep.inPlace {b : Boot} {m m' : SlotHistory} {label : Fin 3 × FileCall}
    (h : FileStep b m label m') (hplain : label.2.Plain) : FileStepInPlace b m label m' := by
  rw [fileStepInPlace_iff hplain.fits, hplain.seen]
  exact h

/-- In every run of calls that execute and halt processes and open and close files, in which
the arguments fit into the buffer and no process exits with descriptor 7 in use, every slot that
has held a process and is free has no descriptor in use. And wherever such a run gets, the next
call, if its argument fits, keeps it so if and only if it is no exit with descriptor 7 in use. -/
theorem exit_closes_files_iff (b : Boot) (k₀ : Kernel) (labels : List (Fin 3 × FileCall))
    (m : SlotHistory)
    (hrun : Run (guarded ExitsClosed (FileStepInPlace b)) (SlotHistory.boot b k₀) labels m) :
    FreedClosed m ∧ ∀ label m', label.2.Fits → FileStepInPlace b m label m' →
      (FreedClosed m' ↔ ClosesAll m label) := by
  have hinv : SlotInvariant m ∧ FreedClosed m := by
    induction hrun with
    | nil => exact ⟨boot_slotInvariant b k₀, fun _ hn => absurd hn not_false⟩
    | snoc _ hlast ih =>
        have hstep := (fileStepInPlace_iff hlast.1.1).mp hlast.2
        exact ⟨ih.1.step hstep,
          (ih.1.freedClosed_iff ih.2 hstep).mpr (closesAll_seen.mpr hlast.1.2)⟩
  refine ⟨hinv.2, fun label m' hfits hstep => ?_⟩
  rw [← closesAll_seen]
  exact hinv.1.freedClosed_iff hinv.2 ((fileStepInPlace_iff hfits).mp hstep)

/-! ## A process with open files -/

theorem setTss_table (n : Nat) (k : Kernel) : (setTss n k).table = k.table := rfl

theorem attachPcb_table (n esp ebp : Nat) (k : Kernel) :
    (attachPcb n esp ebp k).table = newTable (k.pcbs (pcbAddr n)).fDesc := by
  rw [attachPcb_eq]
  unfold Kernel.table Kernel.activePcb Kernel.current
  simp

/-- A new process has no file descriptor in use. -/
theorem sysExecute_table {b : Boot} {a : ExecArgs} {entry : Nat} {k k' : Kernel}
    (h : sysExecute b a k = .launched entry k') {fd : Nat} (hlo : firstRegFile ≤ fd)
    (hhi : fd < lastRegFile) : (k'.table fd).flag = 1 := by
  obtain ⟨command, idx, hlaunch⟩ := launch_of_sysExecute h
  rcases launch_cases b a idx (parseCommand command k) with ⟨-, hno⟩ | ⟨n, -, hfault⟩ |
    ⟨n, kl, -, -, hok⟩
  · exact absurd (hno.symm.trans hlaunch) (by simp)
  · exact absurd (hfault.symm.trans hlaunch) (by simp)
  · obtain ⟨-, rfl⟩ := Outcome.launched.inj (hok.symm.trans hlaunch)
    simp only [firstRegFile] at hlo
    rw [setTss_table, attachPcb_table]
    unfold newTable
    rw [Function.update_of_ne (by omega), Function.update_of_ne (by omega),
      if_pos ⟨by simpa using hlo, hhi⟩]

theorem Launch.current_num {k k' : Kernel} {n esp ebp : Nat} (h : Launch n esp ebp k k') :
    k'.current.numProcessExecutingOnTerminal = k.current.numProcessExecutingOnTerminal + 1 := by
  unfold Kernel.current
  rw [h.executingTerminal, h.terminals, Function.update_self]
  rfl

/-- The shell of the small image is started on the first terminal. -/
theorem smallBoot_shell_fileStep {k : Kernel} (held : Fin 6 → Prop) {n : Nat}
    (hexec : k.executingTerminal = 0) (hslots : UsedBelow n k) (hn : n < maxNumProcess)
    (hnum : k.numProcessExecuting = UInt32.ofNat n) :
    ∃ k', Launch n 0 0 k k' ∧ UsedBelow (n + 1) k' ∧
      k'.numProcessExecuting = UInt32.ofNat (n + 1) ∧
      (∀ fd, firstRegFile ≤ fd → fd < lastRegFile → (k'.table fd).flag = 1) ∧
      FileStep smallBoot ⟨k, held⟩ (0, .process (.execute (smallArgs shellCommand)))
        ⟨k', fun i => held i ∨ k'.processes i = 1⟩ := by
  have hsame : k.onTerminal 0 = k := Kernel.onTerminal_eq hexec
  obtain ⟨k', hk', hlaunch, hslots', hnum'⟩ := smallBoot_next_shell hslots hn hnum 0
  rw [hsame] at hk' hlaunch
  refine ⟨k', hlaunch, hslots', hnum', fun fd hlo hhi => sysExecute_table hk' hlo hhi, ?_, rfl⟩
  refine ⟨fun a ha => absurd ha (by simp), ?_⟩
  simp only [hsame, runCall, hk', Outcome.state]

/-- A process can open files until the descriptors below a bound are in use. -/
theorem exists_opens_below {k : Kernel} (held : Fin 6 → Prop) (hexec : k.executingTerminal = 0)
    (hstarted : 0 < k.current.numProcessExecutingOnTerminal)
    (hfree : ∀ fd, firstRegFile ≤ fd → fd < lastRegFile → (k.table fd).flag = 1) {last : Nat}
    (hlo : firstRegFile ≤ last) (hhi : last ≤ lastRegFile) :
    ∃ m, Run (FileStep smallBoot) ⟨k, held⟩
        (List.replicate (last - firstRegFile) (0, .openFile noteName)) m ∧ DescOnly k m.kernel ∧
      (∀ fd, firstRegFile ≤ fd → fd < last → (m.kernel.table fd).flag = 0) ∧
      ∀ fd, last ≤ fd → fd < lastRegFile → (m.kernel.table fd).flag = 1 := by
  induction last, hlo using Nat.le_induction with
  | base =>
      rw [Nat.sub_self]
      exact ⟨⟨k, held⟩, Run.nil _, DescOnly.refl k, fun fd h h' => absurd h' (Nat.not_lt_of_le h),
        hfree⟩
  | succ last hlo ih =>
      obtain ⟨m, hrun, hdesc, hused, hrest⟩ := ih (Nat.le_of_succ_le hhi)
      have hidx : findDirentry smallBoot noteName.at = some 2 := by decide +kernel
      have hnext : freeDesc m.kernel = some last := by
        rw [freeDesc_eq_some]
        refine ⟨hrest last (Nat.le_refl _) hhi, ⟨hlo, hhi⟩, fun i hi hi' => ?_⟩
        rw [hused i hi hi']
        decide
      have hkernel : m.kernel.onTerminal 0 = m.kernel :=
        Kernel.onTerminal_eq (hdesc.executingTerminal_eq.trans hexec)
      rcases sysOpen_cases smallBoot noteName m.kernel with ⟨hnone | hnone, -⟩ |
        ⟨idx, fd, -, hfd, hok⟩
      · exact absurd (hnone.symm.trans hidx) (by simp)
      · exact absurd (hnone.symm.trans hnext) (by simp)
      · obtain rfl := Option.some.inj (hfd.symm.trans hnext)
        have hstarted' : 0 < (m.kernel.onTerminal 0).current.numProcessExecutingOnTerminal := by
          rw [hkernel, hdesc.current_eq]
          exact hstarted
        have hstep : FileStep smallBoot m (0, .openFile noteName)
            ⟨(sysOpen smallBoot noteName (m.kernel.onTerminal 0)).2, fun n => m.held n ∨
              (sysOpen smallBoot noteName (m.kernel.onTerminal 0)).2.processes n = 1⟩ :=
          ⟨⟨hstarted', rfl⟩, rfl⟩
        rw [hkernel] at hstep
        rw [Nat.succ_sub hlo, List.replicate_succ']
        refine ⟨_, Run.snoc hrun hstep, hdesc.trans (sysOpen_descOnly smallBoot noteName _),
          fun i hi hi' => ?_, fun i hi hi' => ?_⟩
        · simp only [hok]
          rw [setDesc_table]
          by_cases heq : i = fd
          · rw [heq, Function.update_self, (bindDriver_keeps _ _ _).1]
          · rw [Function.update_of_ne heq]
            exact hused i hi (by omega)
        · simp only [hok]
          rw [setDesc_table, Function.update_of_ne (by omega)]
          exact hrest i (Nat.le_of_succ_le hi) hi'

/-- A shell, and a second one as its child, which opens files. -/
theorem exists_childOpens {k : Kernel} (hinv : SlotInvariant ⟨k, fun _ => False⟩)
    (hexec : k.executingTerminal = 0) (hnum : k.numProcessExecuting = 0)
    (hslots : UsedBelow 0 k) (hempty : Represents k Stacks.empty) {last : Nat}
    (hlo : firstRegFile ≤ last) (hhi : last ≤ lastRegFile) :
    ∃ m, Run (FileStep smallBoot) ⟨k, fun _ => False⟩
        ([(0, .process (.execute (smallArgs shellCommand)))] ++
          [(0, .process (.execute (smallArgs shellCommand)))] ++
          List.replicate (last - firstRegFile) (0, .openFile noteName)) m ∧
      SlotInvariant m ∧ m.kernel.executingTerminal = 0 ∧
      m.kernel.current.numProcessExecutingOnTerminal = 2 ∧
      (∀ fd, firstRegFile ≤ fd → fd < last → (m.kernel.table fd).flag = 0) ∧
      ∀ fd, last ≤ fd → fd < lastRegFile → (m.kernel.table fd).flag = 1 := by
  obtain ⟨k₁, hlaunch₁, hslots₁, hnum₁, -, hstep₁⟩ :=
    smallBoot_shell_fileStep (fun _ => False) hexec hslots (by decide) hnum
  have hexec₁ : k₁.executingTerminal = 0 := hlaunch₁.executingTerminal.trans hexec
  obtain ⟨k₂, hlaunch₂, -, -, htable, hstep₂⟩ := smallBoot_shell_fileStep
    (fun i => False ∨ k₁.processes i = 1) hexec₁ hslots₁ (by decide) hnum₁
  have hexec₂ : k₂.executingTerminal = 0 := hlaunch₂.executingTerminal.trans hexec₁
  have hcount₂ : k₂.current.numProcessExecutingOnTerminal = 2 := by
    have hcount : k.current.numProcessExecutingOnTerminal = 0 := hempty.length k.executingTerminal
    rw [hlaunch₂.current_num, hlaunch₁.current_num, hcount]
    rfl
  obtain ⟨m, hopens, hdesc, hused, hrest⟩ := exists_opens_below
    (fun i => (False ∨ k₁.processes i = 1) ∨ k₂.processes i = 1) hexec₂
    (by rw [hcount₂]; decide) htable hlo hhi
  have hrun := (Run.snoc (Run.single hstep₁) hstep₂).append hopens
  exact ⟨m, hrun, hinv.run hrun, hdesc.executingTerminal_eq.trans hexec₂,
    by rw [hdesc.current_eq, hcount₂], hused, hrest⟩

/-- A process that has a parent exits. -/
theorem exists_exit {m : SlotHistory} (hinv : SlotInvariant m)
    (hexec : m.kernel.executingTerminal = 0)
    (hcount : m.kernel.current.numProcessExecutingOnTerminal = 2) :
    ∃ m', FileStep smallBoot m (0, .process (.halt smallHalt)) m' ∧
      ¬ReplacedInSlot (m.kernel.onTerminal 0) ∧
      ∃ n : Fin 6, m'.held n ∧ m'.kernel.processes n = 0 := by
  have hkernel : m.kernel.onTerminal 0 = m.kernel := Kernel.onTerminal_eq hexec
  obtain ⟨s, hs, hheld⟩ := hinv
  have htwo : (m.kernel.terminals m.kernel.executingTerminal).numProcessExecutingOnTerminal = 2 :=
    hcount
  obtain ⟨top, l, htop⟩ := hs.exists_top (by rw [htwo]; decide)
  have hparent : m.kernel.activePcb.parentPcb ≠ 0 := by
    have hlength := hs.length m.kernel.executingTerminal
    rw [htwo, htop, List.length_cons] at hlength
    intro hzero
    rw [(hs.parent_eq_zero htop).mp hzero] at hlength
    exact absurd hlength (by decide)
  have hnot : ¬ReplacedInSlot m.kernel := fun hreplaced => hparent hreplaced.1
  obtain ⟨k', hstate⟩ : ∃ k', (sysHalt smallBoot smallHalt m.kernel).state = some k' := by
    rcases sysHalt_cases smallBoot smallHalt m.kernel with ⟨hzero, -⟩ | ⟨-, pcb, -, hresumed⟩
    · exact absurd hzero hparent
    · rw [hresumed]
      exact ⟨_, rfl⟩
  refine ⟨⟨k', fun i => m.held i ∨ k'.processes i = 1⟩, ?_, by rwa [hkernel], top,
    Or.inl (hheld top ⟨_, by rw [htop]; exact List.mem_cons_self⟩),
    ((hs.halted htop hstate).freed hnot).1⟩
  unfold FileStep RunsFileCall
  simp only [hkernel]
  exact ⟨⟨fun _ _ => by rw [hcount]; decide, hstate⟩, trivial⟩

/-- The calls of these runs are carried out as they are. -/
theorem childOpens_plain {n : Nat} {label : Fin 3 × FileCall}
    (hlabel : label ∈ ([(0, .process (.execute (smallArgs shellCommand)))] ++
      [(0, .process (.execute (smallArgs shellCommand)))] ++
      List.replicate n (0, .openFile noteName) : List (Fin 3 × FileCall))) :
    label.2.Plain ∧ ∀ a, label.2 ≠ .process (.halt a) := by
  simp only [List.mem_append, List.mem_singleton, List.mem_replicate, or_self] at hlabel
  rcases hlabel with rfl | ⟨-, rfl⟩
  · exact ⟨fun c hc => FileCall.process.inj hc ▸ plain_shell, fun a ha => by simp at ha⟩
  · exact ⟨fun c hc => by simp at hc, fun a ha => by simp at ha⟩

/-- A child that has opened one file exits. -/
theorem exit_closes_files_iff_child : ∃ m,
    Run (guarded ExitsClosed (FileStepInPlace smallBoot)) (SlotHistory.boot smallBoot blankKernel)
        ([(0, .process (.execute (smallArgs shellCommand)))] ++
          [(0, .process (.execute (smallArgs shellCommand)))] ++
          List.replicate 1 (0, .openFile noteName) ++ [(0, .process (.halt smallHalt))]) m ∧
      FreedClosed m ∧ ∃ n : Fin 6, m.held n ∧ m.kernel.processes n = 0 := by
  have hinv := boot_slotInvariant smallBoot blankKernel
  rw [SlotHistory.boot_eq] at hinv
  obtain ⟨m, hrun, hm, hexec, hcount, -, hrest⟩ := exists_childOpens hinv
    (boot_executingTerminal smallBoot blankKernel) (boot_numProcessExecuting smallBoot blankKernel)
    (boot_usedBelow smallBoot blankKernel) (boot_represents smallBoot blankKernel)
    (Nat.le_succ firstRegFile) (by decide)
  obtain ⟨m', hstep, -, hfreed⟩ := exists_exit hm hexec hcount
  have hrun' : Run (guarded ExitsClosed (FileStepInPlace smallBoot))
      (SlotHistory.boot smallBoot blankKernel) _ m :=
    hrun.mono_of_labels (P := fun label => label.2.Plain ∧ ∀ a, label.2 ≠ .process (.halt a))
      (fun _ _ _ hlabel hnext => ⟨⟨hlabel.1.fits, fun a ha => absurd ha (hlabel.2 a)⟩,
        hnext.inPlace hlabel.1⟩)
      fun _ hlabel => childOpens_plain hlabel
  have hhalt : FileCall.Plain (.process (.halt smallHalt)) :=
    fun c hc => FileCall.process.inj hc ▸ Call.plain_halt smallHalt
  -- descriptor 7 is free
  have hseven : ClosesAll m (0, .process (.halt smallHalt)) := by
    intro a _
    rw [Kernel.onTerminal_eq hexec]
    exact Or.inl (hrest uppb (by decide) (by decide))
  have hexit := Run.snoc hrun' ⟨⟨hhalt.fits, hseven⟩, hstep.inPlace hhalt⟩
  exact ⟨m', hexit, (exit_closes_files_iff smallBoot blankKernel _ _ hexit).1, hfreed⟩

/-- A child that has opened six files leaves descriptor 7 in use when it exits. -/
theorem exists_exit_leaves_file (k₀ : Kernel) : ∃ labels m,
    Run (FileStepInPlace smallBoot) (SlotHistory.boot smallBoot k₀) labels m ∧ ¬FreedClosed m := by
  have hinv := boot_slotInvariant smallBoot k₀
  rw [SlotHistory.boot_eq] at hinv
  obtain ⟨m, hrun, hm, hexec, hcount, hused, -⟩ := exists_childOpens hinv
    (boot_executingTerminal smallBoot k₀) (boot_numProcessExecuting smallBoot k₀)
    (boot_usedBelow smallBoot k₀) (boot_represents smallBoot k₀) (by decide)
    (Nat.le_refl lastRegFile)
  obtain ⟨m', hstep, hnot, -⟩ := exists_exit hm hexec hcount
  have hrun' : Run (FileStepInPlace smallBoot) (SlotHistory.boot smallBoot k₀) _ m :=
    hrun.mono_of_labels (P := fun label => label.2.Plain)
      (fun _ _ _ hlabel hnext => hnext.inPlace hlabel) fun _ hlabel => (childOpens_plain hlabel).1
  have hhalt : FileCall.Plain (.process (.halt smallHalt)) :=
    fun c hc => FileCall.process.inj hc ▸ Call.plain_halt smallHalt
  have hleaves : ¬ClosesAll m (0, .process (.halt smallHalt)) := by
    intro hcloses
    rcases hcloses _ rfl with hseven | hreplaced
    · rw [Kernel.onTerminal_eq hexec, hused uppb (by decide) (by decide)] at hseven
      exact absurd hseven (by decide)
    · exact hnot hreplaced
  by_cases hclosed : FreedClosed m
  · exact ⟨_, m', Run.snoc hrun' (hstep.inPlace hhalt),
      fun hall => hleaves ((hm.freedClosed_iff hclosed hstep).mp hall)⟩
  · exact ⟨_, m, hrun', hclosed⟩

theorem exit_leaves_file : ¬∀ (b : Boot) (k₀ : Kernel) (labels : List (Fin 3 × FileCall))
    (m : SlotHistory), Run (FileStepInPlace b) (SlotHistory.boot b k₀) labels m →
      FreedClosed m := by
  intro hall
  obtain ⟨labels, m, hrun, hopen⟩ := exists_exit_leaves_file blankKernel
  exact hopen (hall smallBoot blankKernel labels m hrun)

end Ece391Kernel
