import Ece391Kernel.Process.Execute
import Ece391Kernel.Descriptor.Table
import Ece391Kernel.Library.ByteStore

/-!
# What a call changes

The state after a call that starts a process, `Launch`, and after one that ends
it, `Resume`, field by field. Everything that is said about processes later is
said from these two records and from the calls that fail; no later proof looks
into `sys_execute` or `sys_halt` again.
-/

namespace Ece391Kernel

/-- The state with other descriptors for the running process. -/
def withDescs (k : Kernel) (d : Nat → FileDesc) : Kernel :=
  k.setPcb k.current.activePcb fun p => { p with fDesc := d }

/-- `k'` differs from `k` in the descriptors of the running process only. -/
def DescOnly (k k' : Kernel) : Prop := ∃ d, k' = withDescs k d

namespace DescOnly

theorem refl (k : Kernel) : DescOnly k k := by
  refine ⟨k.table, ?_⟩
  unfold withDescs Kernel.setPcb Kernel.table Kernel.activePcb
  simp

theorem trans {k₁ k₂ k₃ : Kernel} (h₁ : DescOnly k₁ k₂) (h₂ : DescOnly k₂ k₃) :
    DescOnly k₁ k₃ := by
  obtain ⟨d₁, rfl⟩ := h₁
  obtain ⟨d₂, rfl⟩ := h₂
  refine ⟨d₂, ?_⟩
  unfold withDescs Kernel.setPcb Kernel.current
  simp

theorem setDesc (k : Kernel) (fd : Nat) (f : FileDesc → FileDesc) : DescOnly k (k.setDesc fd f) :=
  ⟨_, rfl⟩

theorem fold {n : Nat} {f : (i : Nat) → i < n → Kernel → Kernel}
    (h : ∀ i hi k, DescOnly k (f i hi k)) (k : Kernel) : DescOnly k (Nat.fold n f k) :=
  ByteStore.fold_invariant (fun _ k' => DescOnly k k') n f k (refl k)
    fun i hi k' hk' => hk'.trans (h i hi k')

theorem sysClose (fd : Int) (k : Kernel) : DescOnly k (sysClose fd k).2 := by
  unfold Ece391Kernel.sysClose
  split
  · exact refl k
  · split
    · exact refl k
    · exact setDesc k fd.toNat fun d => { d with flag := 1 }

theorem closeFiles (k : Kernel) : DescOnly k (closeFiles k) :=
  fold (fun _ _ k => sysClose _ k) k

theorem newDescs (k : Kernel) : DescOnly k (openIo (clearDescriptors k)) :=
  ((fold (fun _ _ k => setDesc k _ _) k).trans (setDesc _ _ _)).trans (setDesc _ _ _)

end DescOnly

/-- A program is loaded into memory and nowhere else. -/
theorem storeBytes_mem {b : Boot} {bytes : List UInt8} {v : Nat} {k k' : Kernel}
    (h : storeBytes b v bytes k = some k') : ∃ m, k' = k.withMem m := by
  induction bytes generalizing v k with
  | nil => exact ⟨k.mem, (Option.some.inj h).symm⟩
  | cons c cs ih =>
      unfold storeBytes at h
      split at h
      · exact absurd h (by simp)
      · obtain ⟨m, rfl⟩ := ih h
        exact ⟨m, rfl⟩

/-! ## Starting a process -/

/-- A process has been started in slot `n`, on the executing terminal. -/
structure Launch (n esp ebp : Nat) (k k' : Kernel) : Prop where
  processes : k'.processes = Function.update k.processes n 1
  numProcessExecuting : k'.numProcessExecuting = k.numProcessExecuting + 1
  terminals : k'.terminals = Function.update k.terminals k.executingTerminal
    { k.current with
      numProcessExecutingOnTerminal := k.current.numProcessExecutingOnTerminal + 1
      activePcb := pcbAddr n }
  pcbs_other : ∀ addr, addr ≠ pcbAddr n → k'.pcbs addr = k.pcbs addr
  processNum : (k'.pcbs (pcbAddr n)).processNum = n
  parentPcb : (k'.pcbs (pcbAddr n)).parentPcb =
    if k.current.numProcessExecutingOnTerminal + 1 ≤ 1 then 0 else k.current.activePcb
  currEsp0 : (k'.pcbs (pcbAddr n)).currEsp0 = k.tss.esp0
  esp : (k'.pcbs (pcbAddr n)).esp = esp
  ebp : (k'.pcbs (pcbAddr n)).ebp = ebp
  paging : k'.paging = processMap n k.paging
  tss : k'.tss = { ss0 := kernelDs, esp0 := eightMB - eightKB * n }
  displayedTerminal : k'.displayedTerminal = k.displayedTerminal
  executingTerminal : k'.executingTerminal = k.executingTerminal
  nextScheduledTerminal : k'.nextScheduledTerminal = k.nextScheduledTerminal

/-- The process that has been started runs. -/
theorem Launch.current_activePcb {k k' : Kernel} {n esp ebp : Nat} (h : Launch n esp ebp k k') :
    k'.current.activePcb = pcbAddr n := by
  unfold Kernel.current
  rw [h.executingTerminal, h.terminals, Function.update_self]

/-- The descriptors of a new process. -/
def newTable (d : Nat → FileDesc) : Nat → FileDesc :=
  Function.update (Function.update
    (fun fd => if firstRegFile ≤ fd ∧ fd < lastRegFile then
      { d fd with inode := 0, filePosition := 0, flag := 1 } else d fd) 0 terminalDesc) 1
    terminalDesc

/-- `attachPcb`, as one change of the terminal and one of the control block. -/
theorem attachPcb_eq (n esp ebp : Nat) (k : Kernel) :
    attachPcb n esp ebp k =
      (k.setTerminal k.executingTerminal fun term => { term with activePcb := pcbAddr n }).setPcb
        (pcbAddr n) fun p =>
          { p with
            fDesc := newTable p.fDesc
            processNum := n
            parentPcb := if k.current.numProcessExecutingOnTerminal ≤ 1 then 0
              else k.current.activePcb
            ebp := ebp
            esp := esp
            currEsp0 := k.tss.esp0 } := by
  have htable : ∀ k' : Kernel, (openIo (clearDescriptors k')).table = newTable k'.table := by
    intro k'
    unfold newTable
    rw [openIo_table, funext (clearDescriptors_table k')]
  obtain ⟨d, hd⟩ := DescOnly.newDescs
    (k.setTerminal k.executingTerminal fun term => { term with activePcb := pcbAddr n })
  have hcurrent : (k.setTerminal k.executingTerminal fun term =>
      { term with activePcb := pcbAddr n }).current.activePcb = pcbAddr n := by
    simp [Kernel.current]
  have hd' := htable
    (k.setTerminal k.executingTerminal fun term => { term with activePcb := pcbAddr n })
  rw [hd] at hd'
  unfold Kernel.table Kernel.activePcb at hd'
  have hcurrent' : (withDescs (k.setTerminal k.executingTerminal fun term =>
      { term with activePcb := pcbAddr n }) d).current.activePcb = pcbAddr n := hcurrent
  rw [hcurrent', hcurrent] at hd'
  unfold withDescs at hd'
  rw [hcurrent, Kernel.setPcb_pcbs_same] at hd'
  simp only [Kernel.setTerminal_pcbs] at hd'
  unfold Ece391Kernel.attachPcb
  simp only [hd]
  unfold withDescs
  rw [hcurrent, hd']
  unfold Kernel.setPcb Kernel.current
  simp

/-- A call that leaves the kernel for a program has started a process in the slot
it has found. -/
theorem launch_launched {b : Boot} {a : ExecArgs} {idx entry : Nat} {k k' : Kernel}
    (h : launch b a idx k = .launched entry k') :
    ∃ n, freeSlot k = some n ∧ Launch n a.esp a.ebp k k' := by
  rcases launch_cases b a idx k with ⟨-, hno⟩ | ⟨n, -, hfault⟩ | ⟨n, kl, hslot, hload, hok⟩
  · exact absurd (hno.symm.trans h) (by simp)
  · exact absurd (hfault.symm.trans h) (by simp)
  · obtain ⟨-, hk'⟩ := Outcome.launched.inj (hok.symm.trans h)
    obtain ⟨m, rfl⟩ := storeBytes_mem hload
    rw [attachPcb_eq] at hk'
    subst hk'
    refine ⟨n, hslot, ?_⟩
    exact
      { processes := rfl
        numProcessExecuting := rfl
        terminals := by simp [Kernel.current]
        pcbs_other := by
          intro addr haddr
          simp [Function.update_of_ne haddr]
        processNum := by simp
        parentPcb := by simp [Kernel.current]
        currEsp0 := by simp
        esp := by simp
        ebp := by simp
        paging := rfl
        tss := rfl
        displayedTerminal := rfl
        executingTerminal := rfl
        nextScheduledTerminal := rfl }

/-- What `parse_command` leaves alone. -/
theorem Launch.of_parseCommand {n esp ebp : Nat} {command : CString} {k k' : Kernel}
    (h : Launch n esp ebp (parseCommand command k) k') : Launch n esp ebp k k' :=
  ⟨h.processes, h.numProcessExecuting, h.terminals, h.pcbs_other, h.processNum, h.parentPcb,
    h.currEsp0, h.esp, h.ebp, h.paging, h.tss, h.displayedTerminal, h.executingTerminal,
    h.nextScheduledTerminal⟩

theorem freeSlot_parseCommand (command : CString) (k : Kernel) :
    freeSlot (parseCommand command k) = freeSlot k := rfl

/-- A call of `sys_execute` that does not return has come to the start of the program. -/
theorem launch_of_sysExecute {b : Boot} {a : ExecArgs} {entry : Nat} {k k' : Kernel}
    (h : sysExecute b a k = .launched entry k') :
    ∃ command idx, launch b a idx (parseCommand command k) = .launched entry k' := by
  rcases sysExecute_cases b a k with ⟨-, hret⟩ | ⟨command, -, -, -, hret⟩ | ⟨command, -, -, hret⟩ |
    ⟨command, idx, -, -, -, -, hlaunch⟩
  · exact absurd (hret.symm.trans h) (by simp)
  · exact absurd (hret.symm.trans h) (by simp)
  · exact absurd (hret.symm.trans h) (by simp)
  · exact ⟨command, idx, hlaunch.symm.trans h⟩

theorem sysExecute_launched {b : Boot} {a : ExecArgs} {entry : Nat} {k k' : Kernel}
    (h : sysExecute b a k = .launched entry k') :
    ∃ n, freeSlot k = some n ∧ Launch n a.esp a.ebp k k' := by
  obtain ⟨command, idx, hlaunch⟩ := launch_of_sysExecute h
  obtain ⟨n, hslot, hk'⟩ := launch_launched hlaunch
  exact ⟨n, hslot, hk'.of_parseCommand⟩

/-! ## A call that fails -/

/-- What a call of `sys_execute` that returns leaves of the state. -/
structure Failed (k k' : Kernel) : Prop where
  processes : k'.processes = k.processes
  terminals : k'.terminals = k.terminals
  pcbs : k'.pcbs = k.pcbs
  paging : k'.paging = k.paging
  tss : k'.tss = k.tss
  displayedTerminal : k'.displayedTerminal = k.displayedTerminal
  executingTerminal : k'.executingTerminal = k.executingTerminal
  nextScheduledTerminal : k'.nextScheduledTerminal = k.nextScheduledTerminal

theorem Failed.refl (k : Kernel) : Failed k k := ⟨rfl, rfl, rfl, rfl, rfl, rfl, rfl, rfl⟩

/-- `sys_execute` does not return once the file is found and checked. -/
theorem launch_ne_returned (b : Boot) (a : ExecArgs) (idx : Nat) (k k' : Kernel) :
    launch b a idx k ≠ .returned k' := by
  rcases launch_cases b a idx k with ⟨-, hno⟩ | ⟨n, -, hfault⟩ | ⟨n, kl, -, -, hok⟩
  · simp [hno]
  · simp [hfault]
  · simp [hok]

/-- A call that returns has changed no more than the argument buffers and, when it
has met a file that is no program, the count. -/
theorem sysExecute_returned {b : Boot} {a : ExecArgs} {k k' : Kernel}
    (h : sysExecute b a k = .returned k') :
    Failed k k' ∧ (Rejected b a k ∧ k'.numProcessExecuting = k.numProcessExecuting - 1 ∨
      ¬Rejected b a k ∧ k'.numProcessExecuting = k.numProcessExecuting) := by
  rcases sysExecute_cases b a k with ⟨hearly, hret⟩ | ⟨command, hnum, hcommand, hidx, hret⟩ |
    ⟨command, hrejected, -, hret⟩ | ⟨command, idx, -, -, -, -, hlaunch⟩
  · rw [← Outcome.returned.inj (hret.symm.trans h)]
    refine ⟨Failed.refl k, Or.inr ⟨?_, rfl⟩⟩
    rintro ⟨hnum, command, hcommand, -⟩
    rcases hearly with hfull | hnull
    · exact hnum hfull
    · rw [hnull] at hcommand
      exact absurd hcommand (by simp)
  · rw [← Outcome.returned.inj (hret.symm.trans h)]
    refine ⟨⟨rfl, rfl, rfl, rfl, rfl, rfl, rfl, rfl⟩, Or.inr ⟨?_, rfl⟩⟩
    rintro ⟨-, command', hcommand', idx, hidx', -⟩
    obtain rfl : command = command' := Option.some.inj (hcommand.symm.trans hcommand')
    rw [hidx] at hidx'
    exact absurd hidx' (by simp)
  · rw [← Outcome.returned.inj (hret.symm.trans h)]
    exact ⟨⟨rfl, rfl, rfl, rfl, rfl, rfl, rfl, rfl⟩, Or.inl ⟨hrejected, rfl⟩⟩
  · exact absurd (hlaunch.symm.trans h) (launch_ne_returned b a idx _ _)

/-- A call that goes on without a slot has found none. -/
theorem sysExecute_noSlot {b : Boot} {a : ExecArgs} {k : Kernel}
    (h : sysExecute b a k = .noSlot) : k.numProcessExecuting ≠ 6 ∧ freeSlot k = none := by
  rcases sysExecute_cases b a k with ⟨-, hret⟩ | ⟨command, -, -, -, hret⟩ | ⟨command, -, -, hret⟩ |
    ⟨command, idx, hnum, -, -, -, hlaunch⟩
  · exact absurd (hret.symm.trans h) (by simp)
  · exact absurd (hret.symm.trans h) (by simp)
  · exact absurd (hret.symm.trans h) (by simp)
  · rcases launch_cases b a idx (parseCommand command k) with ⟨hslot, -⟩ | ⟨n, -, hfault⟩ |
      ⟨n, kl, -, -, hok⟩
    · exact ⟨hnum, hslot⟩
    · exact absurd (hfault.symm.trans (hlaunch.symm.trans h)) (by simp)
    · exact absurd (hok.symm.trans (hlaunch.symm.trans h)) (by simp)

/-- A call that meets a file that is no program returns. -/
theorem Rejected.returned {b : Boot} {a : ExecArgs} {k : Kernel} (h : Rejected b a k) :
    ∃ k', sysExecute b a k = .returned k' := by
  obtain ⟨hnum, command, hcommand, idx, hidx, hmagic⟩ := h
  rcases sysExecute_cases b a k with ⟨-, hret⟩ | ⟨command', -, -, -, hret⟩ |
    ⟨command', -, -, hret⟩ | ⟨command', idx', -, hcommand', hidx', hmagic', -⟩
  · exact ⟨_, hret⟩
  · exact ⟨_, hret⟩
  · exact ⟨_, hret⟩
  · obtain rfl : command = command' := Option.some.inj (hcommand.symm.trans hcommand')
    obtain rfl : idx = idx' := Option.some.inj (hidx.symm.trans hidx')
    rw [hmagic] at hmagic'
    exact absurd hmagic' (by decide)

/-- `sys_execute` does not return into another call. -/
theorem sysExecute_ne_resumed (b : Boot) (a : ExecArgs) (k : Kernel) (eax esp ebp : Nat)
    (k' : Kernel) : sysExecute b a k ≠ .resumed eax esp ebp k' := by
  rcases sysExecute_cases b a k with ⟨-, hret⟩ | ⟨command, -, -, -, hret⟩ | ⟨command, -, -, hret⟩ |
    ⟨command, idx, -, -, -, -, hlaunch⟩
  · simp [hret]
  · simp [hret]
  · simp [hret]
  · rcases launch_cases b a idx (parseCommand command k) with ⟨-, hno⟩ | ⟨n, -, hfault⟩ |
      ⟨n, kl, -, -, hok⟩ <;> simp [*]

/-! ## Ending a process -/

/-- The state between the release of the running process and the return to its
parent or the start of a shell. -/
structure Released (k k' : Kernel) : Prop where
  processes : k'.processes = Function.update k.processes k.activePcb.processNum 0
  numProcessExecuting : k'.numProcessExecuting = k.numProcessExecuting - 1
  terminals : k'.terminals = Function.update k.terminals k.executingTerminal
    { k.current with
      numProcessExecutingOnTerminal := k.current.numProcessExecutingOnTerminal - 1 }
  pcbs : ∃ d, k'.pcbs = (withDescs k d).pcbs
  paging : k'.paging = k.paging
  tss : k'.tss = k.tss
  displayedTerminal : k'.displayedTerminal = k.displayedTerminal
  executingTerminal : k'.executingTerminal = k.executingTerminal
  nextScheduledTerminal : k'.nextScheduledTerminal = k.nextScheduledTerminal

theorem release_released (k : Kernel) : Released k (releaseProcess (closeFiles k)) := by
  obtain ⟨d, hd⟩ := DescOnly.closeFiles k
  rw [hd]
  exact
    { processes := by
        simp [releaseProcess, withDescs, Kernel.activePcb, Kernel.current]
      numProcessExecuting := rfl
      terminals := rfl
      pcbs := ⟨d, rfl⟩
      paging := rfl
      tss := rfl
      displayedTerminal := rfl
      executingTerminal := rfl
      nextScheduledTerminal := rfl }

/-- The links of the control blocks are those of before. -/
theorem Released.pcb {k k' : Kernel} (h : Released k k') (addr : Nat) :
    (k'.pcbs addr).processNum = (k.pcbs addr).processNum ∧
      (k'.pcbs addr).parentPcb = (k.pcbs addr).parentPcb ∧
      (k'.pcbs addr).currEsp0 = (k.pcbs addr).currEsp0 ∧
      (k'.pcbs addr).esp = (k.pcbs addr).esp ∧ (k'.pcbs addr).ebp = (k.pcbs addr).ebp := by
  obtain ⟨d, hd⟩ := h.pcbs
  rw [hd]
  unfold withDescs
  by_cases haddr : addr = k.current.activePcb
  · subst haddr
    rw [Kernel.setPcb_pcbs_same]
    exact ⟨rfl, rfl, rfl, rfl, rfl⟩
  · rw [Kernel.setPcb_pcbs_ne _ _ haddr]
    exact ⟨rfl, rfl, rfl, rfl, rfl⟩

/-- `sys_halt` starts a shell when the process has no parent, and otherwise
returns to the parent. -/
theorem sysHalt_cases (b : Boot) (a : HaltArgs) (k : Kernel) :
    (k.activePcb.parentPcb = 0 ∧
      ((∃ k', sysExecute b ⟨some shellCommand, a.stack, a.esp, a.ebp⟩
          (releaseProcess (closeFiles k)) = .returned k' ∧ sysHalt b a k = .fault) ∨
        (∀ k', sysExecute b ⟨some shellCommand, a.stack, a.esp, a.ebp⟩
          (releaseProcess (closeFiles k)) ≠ .returned k') ∧
        sysHalt b a k = sysExecute b ⟨some shellCommand, a.stack, a.esp, a.ebp⟩
          (releaseProcess (closeFiles k)))) ∨
    (k.activePcb.parentPcb ≠ 0 ∧ ∃ pcb, pcb = (releaseProcess (closeFiles k)).pcbs
        k.current.activePcb ∧
      sysHalt b a k = .resumed (haltReturn a.status) pcb.esp pcb.ebp
        (resumeParent pcb (releaseProcess (closeFiles k)))) := by
  have hparent : ((releaseProcess (closeFiles k)).pcbs k.current.activePcb).parentPcb =
      k.activePcb.parentPcb := ((release_released k).pcb _).2.1
  unfold sysHalt
  simp only [hparent]
  by_cases hzero : k.activePcb.parentPcb = 0
  · rw [if_pos hzero]
    left
    refine ⟨hzero, ?_⟩
    cases hshell : sysExecute b ⟨some shellCommand, a.stack, a.esp, a.ebp⟩
        (releaseProcess (closeFiles k)) with
    | returned k' => exact Or.inl ⟨k', rfl, rfl⟩
    | launched entry k' => exact Or.inr ⟨by simp, rfl⟩
    | resumed eax esp ebp k' => exact absurd hshell (sysExecute_ne_resumed b _ _ _ _ _ _)
    | noSlot => exact Or.inr ⟨by simp, rfl⟩
    | fault => exact Or.inr ⟨by simp, rfl⟩
  · rw [if_neg hzero]
    exact Or.inr ⟨hzero, _, rfl, rfl⟩

/-- The two ways in which a halt leaves a state. -/
theorem sysHalt_state {b : Boot} {a : HaltArgs} {k k' : Kernel}
    (h : (sysHalt b a k).state = some k') :
    (k.activePcb.parentPcb = 0 ∧ ∃ n, freeSlot (releaseProcess (closeFiles k)) = some n ∧
      Launch n a.esp a.ebp (releaseProcess (closeFiles k)) k') ∨
    (k.activePcb.parentPcb ≠ 0 ∧ ∃ pcb, pcb = (releaseProcess (closeFiles k)).pcbs
        k.current.activePcb ∧ k' = resumeParent pcb (releaseProcess (closeFiles k)) ∧
      sysHalt b a k = .resumed (haltReturn a.status) pcb.esp pcb.ebp k') := by
  rcases sysHalt_cases b a k with ⟨hzero, ⟨k₁, -, hfault⟩ | ⟨hnot, hshell⟩⟩ |
    ⟨hparent, pcb, hpcb, hresumed⟩
  · exact absurd (hfault ▸ h) (by simp [Outcome.state])
  · rw [hshell] at h
    cases hout : sysExecute b ⟨some shellCommand, a.stack, a.esp, a.ebp⟩
        (releaseProcess (closeFiles k)) with
    | returned k₁ => exact absurd hout (hnot k₁)
    | launched entry k₁ =>
        rw [hout] at h
        obtain rfl : k₁ = k' := Option.some.inj h
        exact Or.inl ⟨hzero, sysExecute_launched hout⟩
    | resumed eax esp ebp k₁ => exact absurd hout (sysExecute_ne_resumed b _ _ _ _ _ _)
    | noSlot => exact absurd (hout ▸ h) (by simp [Outcome.state])
    | fault => exact absurd (hout ▸ h) (by simp [Outcome.state])
  · rw [hresumed] at h
    obtain rfl := Option.some.inj h
    exact Or.inr ⟨hparent, pcb, hpcb, rfl, hresumed⟩

/-! ## One call -/

/-- A call of a process. -/
inductive Call
  | execute (a : ExecArgs)
  | halt (a : HaltArgs)

def runCall (b : Boot) : Call → Kernel → Outcome
  | .execute a => sysExecute b a
  | .halt a => sysHalt b a

/-- The four ways in which a call leaves a state. -/
theorem runCall_cases {b : Boot} {call : Call} {k k' : Kernel}
    (h : (runCall b call k).state = some k') :
    (∃ a, call = .execute a ∧ sysExecute b a k = .returned k') ∨
    (∃ a entry n, call = .execute a ∧ sysExecute b a k = .launched entry k' ∧
      freeSlot k = some n ∧ Launch n a.esp a.ebp k k') ∨
    (∃ a k₁ n, call = .halt a ∧ k.activePcb.parentPcb = 0 ∧ Released k k₁ ∧
      freeSlot k₁ = some n ∧ Launch n a.esp a.ebp k₁ k') ∨
    ∃ a k₁ pcb, call = .halt a ∧ k.activePcb.parentPcb ≠ 0 ∧ Released k k₁ ∧
      pcb = k₁.pcbs k.current.activePcb ∧ k' = resumeParent pcb k₁ ∧
      sysHalt b a k = .resumed (haltReturn a.status) pcb.esp pcb.ebp k' := by
  cases call with
  | execute a =>
      simp only [runCall] at h
      cases hout : sysExecute b a k with
      | returned k₁ =>
          rw [hout] at h
          obtain rfl : k₁ = k' := Option.some.inj h
          exact Or.inl ⟨a, rfl, hout⟩
      | launched entry k₁ =>
          rw [hout] at h
          obtain rfl : k₁ = k' := Option.some.inj h
          obtain ⟨n, hslot, hlaunch⟩ := sysExecute_launched hout
          exact Or.inr (Or.inl ⟨a, entry, n, rfl, hout, hslot, hlaunch⟩)
      | resumed eax esp ebp k₁ => exact absurd hout (sysExecute_ne_resumed b a k _ _ _ _)
      | noSlot => exact absurd (hout ▸ h) (by simp [Outcome.state])
      | fault => exact absurd (hout ▸ h) (by simp [Outcome.state])
  | halt a =>
      right
      right
      rcases sysHalt_state h with ⟨hzero, n, hslot, hlaunch⟩ | ⟨hparent, pcb, hpcb, hk', hresumed⟩
      · exact Or.inl ⟨a, _, n, rfl, hzero, release_released k, hslot, hlaunch⟩
      · exact Or.inr ⟨a, _, pcb, rfl, hparent, release_released k, hpcb, hk', hresumed⟩

/-- Only a halt with a parent returns into another call. -/
theorem runCall_resumed {b : Boot} {call : Call} {k k' : Kernel} {eax esp ebp : Nat}
    (h : runCall b call k = .resumed eax esp ebp k') :
    ∃ a k₁ pcb, call = .halt a ∧ k.activePcb.parentPcb ≠ 0 ∧ Released k k₁ ∧
      pcb = k₁.pcbs k.current.activePcb ∧ k' = resumeParent pcb k₁ ∧
      eax = haltReturn a.status ∧ esp = pcb.esp ∧ ebp = pcb.ebp := by
  cases call with
  | execute a => exact absurd h (sysExecute_ne_resumed b a k _ _ _ _)
  | halt a =>
      simp only [runCall] at h
      rcases sysHalt_cases b a k with ⟨-, ⟨k₁, -, hfault⟩ | ⟨-, hshell⟩⟩ |
        ⟨hparent, pcb, hpcb, hresumed⟩
      · exact absurd (hfault.symm.trans h) (by simp)
      · exact absurd (hshell.symm.trans h) (sysExecute_ne_resumed b _ _ _ _ _ _)
      · obtain ⟨heax, hesp, hebp, hk'⟩ := Outcome.resumed.inj (hresumed.symm.trans h)
        exact ⟨a, _, pcb, rfl, hparent, release_released k, hpcb, hk'.symm, heax.symm,
          hesp.symm, hebp.symm⟩

end Ece391Kernel
