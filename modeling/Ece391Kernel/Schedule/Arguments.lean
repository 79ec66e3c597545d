import Ece391Kernel.Schedule.Coherence
import Ece391Kernel.Process.Buffers

/-!
# Whose arguments `sys_getargs` returns

There is one argument buffer for all processes, and every call of `sys_execute` that
gets as far as the command line writes it, also the calls that fail later and those of
the scheduler and of `sys_halt` for a shell. So a process gets the argument of the command
that was split last, whoever has asked for it. The machine here remembers with which
command each process was executed, to compare the two.
-/

namespace Ece391Kernel

open TransitionSystem LinkedStack ByteMemory

/-! ## What a call does to the argument buffer -/

/-- The argument buffer is as before. -/
structure ArgsKept (k k' : Kernel) : Prop where
  arg : k'.arg = k.arg
  argLength : k'.argLength = k.argLength

/-- The argument buffer holds the argument of the command. -/
structure HoldsArgs (k : Kernel) (command : CString) : Prop where
  arg : ∀ i < argLen, k.arg i = commandArg command i
  argLength : k.argLength = (argText command).length

theorem HoldsArgs.kept {k k' : Kernel} {command : CString} (h : HoldsArgs k command)
    (hkept : ArgsKept k k') : HoldsArgs k' command where
  arg := by
    intro i hi
    rw [hkept.arg]
    exact h.arg i hi
  argLength := hkept.argLength.trans h.argLength

theorem ArgsKept.trans {k₁ k₂ k₃ : Kernel} (h₁ : ArgsKept k₁ k₂) (h₂ : ArgsKept k₂ k₃) :
    ArgsKept k₁ k₃ :=
  ⟨h₂.arg.trans h₁.arg, h₂.argLength.trans h₁.argLength⟩

theorem parseCommand_holdsArgs (command : CString) (k : Kernel) :
    HoldsArgs (parseCommand command k) command :=
  ⟨fun _ hi => arg_parseCommand command k hi, parseCommand_argLength command k⟩

theorem DescOnly.argsKept {k k' : Kernel} (h : DescOnly k k') : ArgsKept k k' := by
  obtain ⟨d, rfl⟩ := h
  exact ⟨rfl, rfl⟩

theorem attachPcb_argsKept (n esp ebp : Nat) (k : Kernel) : ArgsKept k (attachPcb n esp ebp k) := by
  rw [attachPcb_eq]
  exact ⟨rfl, rfl⟩

theorem setTss_argsKept (n : Nat) (k : Kernel) : ArgsKept k (setTss n k) := ⟨rfl, rfl⟩

theorem release_argsKept (k : Kernel) : ArgsKept k (releaseProcess (closeFiles k)) := by
  have hclosed := (DescOnly.closeFiles k).argsKept
  exact ⟨hclosed.arg, hclosed.argLength⟩

theorem launch_argsKept {b : Boot} {a : ExecArgs} {idx entry : Nat} {k k' : Kernel}
    (h : launch b a idx k = .launched entry k') : ArgsKept k k' := by
  rcases launch_cases b a idx k with ⟨-, hno⟩ | ⟨n, -, hfault⟩ | ⟨n, kl, -, hload, hok⟩
  · exact absurd (hno.symm.trans h) (by simp)
  · exact absurd (hfault.symm.trans h) (by simp)
  · obtain ⟨-, rfl⟩ := Outcome.launched.inj (hok.symm.trans h)
    obtain ⟨m, rfl⟩ := storeBytes_mem hload
    have hloaded : ArgsKept k ((mapProcess n (countProcess (claimSlot n k))).withMem m) :=
      ⟨rfl, rfl⟩
    exact (hloaded.trans (attachPcb_argsKept _ _ _ _)).trans (setTss_argsKept _ _)

/-- The command that a call of `sys_execute` splits, if it gets that far. -/
def splitCommand (a : ExecArgs) (k : Kernel) : Option CString :=
  if k.numProcessExecuting = 6 then none else a.command

/-- A call that starts a process leaves its own argument. -/
theorem sysExecute_launched_args {b : Boot} {a : ExecArgs} {entry : Nat} {k k' : Kernel}
    (h : sysExecute b a k = .launched entry k') :
    ∃ command, a.command = some command ∧ HoldsArgs k' command := by
  rcases sysExecute_cases b a k with ⟨-, hret⟩ | ⟨command, -, -, -, hret⟩ | ⟨command, -, -, hret⟩ |
    ⟨command, idx, -, hcommand, -, -, hlaunch⟩
  · exact absurd (hret.symm.trans h) (by simp)
  · exact absurd (hret.symm.trans h) (by simp)
  · exact absurd (hret.symm.trans h) (by simp)
  · have hkept := launch_argsKept (hlaunch.symm.trans h)
    exact ⟨command, hcommand, (parseCommand_holdsArgs command k).kept hkept⟩

/-- And so does one that fails, unless it fails before the command line. -/
theorem sysExecute_returned_args {b : Boot} {a : ExecArgs} {k k' : Kernel}
    (h : sysExecute b a k = .returned k') :
    (splitCommand a k = none ∧ k' = k) ∨
      ∃ command, splitCommand a k = some command ∧ HoldsArgs k' command := by
  unfold splitCommand
  rcases sysExecute_cases b a k with ⟨hearly, hret⟩ | ⟨command, hnum, hcommand, -, hret⟩ |
    ⟨command, ⟨hnum, -⟩, hcommand, hret⟩ | ⟨command, idx, -, -, -, -, hlaunch⟩
  · left
    refine ⟨?_, (Outcome.returned.inj (hret.symm.trans h)).symm⟩
    rcases hearly with hfull | hnull
    · exact if_pos hfull
    · rw [hnull, ite_self]
  · right
    rw [if_neg hnum, ← Outcome.returned.inj (hret.symm.trans h)]
    exact ⟨command, hcommand, parseCommand_holdsArgs command k⟩
  · right
    rw [if_neg hnum, ← Outcome.returned.inj (hret.symm.trans h)]
    have hholds := parseCommand_holdsArgs command k
    exact ⟨command, hcommand, hholds.arg, hholds.argLength⟩
  · exact absurd (hlaunch.symm.trans h) (launch_ne_returned b a idx _ _)

/-! ## What a process gets -/

/-- `sys_getargs` returns the text, and a zero byte after it where there is room. -/
def GetsText (k : Kernel) (nbytes : Int) (text : List UInt8) : Prop :=
  (text.length : Int) ≤ nbytes ∧ ∀ bytes : Int → UInt8, ∃ bytes' : Int → UInt8,
    sysGetargs (some bytes) nbytes k = (0, some bytes') ∧
      (∀ i : Nat, i < text.length → bytes' i = text.getD i 0) ∧
      (text.length < nbytes → text.length < argLen → bytes' text.length = 0)

theorem sysGetargs_zero {k : Kernel} {bytes : Int → UInt8} {nbytes : Int}
    (h : (sysGetargs (some bytes) nbytes k).1 = 0) :
    k.argLength ≠ 0 ∧ k.argLength ≤ uint32 nbytes := by
  rw [sysGetargs_some] at h
  by_cases hfail : k.argLength = 0 ∨ uint32 nbytes < k.argLength
  · rw [if_pos hfail] at h
    exact absurd h (by simp)
  · rw [not_or, Nat.not_lt] at hfail
    exact hfail

/-- Two texts without zero bytes are equal if one buffer holds both, ended by a zero byte
where there is room. -/
theorem text_eq_of_prefix {text text' : List UInt8} (hzero : (0 : UInt8) ∉ text)
    (hzero' : (0 : UInt8) ∉ text')
    (hsame : ∀ i : Nat, i < text.length → text'.getD i 0 = text.getD i 0)
    (hend : text.length < text'.length → text'.getD text.length 0 = 0) : text' = text := by
  have hne : ∀ {l : List UInt8}, (0 : UInt8) ∉ l → ∀ i : Nat, i < l.length → l.getD i 0 ≠ 0 := by
    intro l hl i hi hzero
    rw [List.getD_eq_getElem _ _ hi] at hzero
    exact hl (hzero ▸ List.getElem_mem hi)
  have hle : text.length ≤ text'.length := by
    by_contra hlt
    have hi := hsame text'.length (by omega)
    rw [List.getD_eq_default _ _ (Nat.le_refl _)] at hi
    exact hne hzero _ (by omega) hi.symm
  have hle' : text'.length ≤ text.length := by
    by_contra hlt
    exact hne hzero' _ (by omega) (hend (by omega))
  refine List.ext_getElem (by omega) fun i hi hi' => ?_
  have hi := hsame i hi'
  rwa [List.getD_eq_getElem _ _ (by omega), List.getD_eq_getElem _ _ hi'] at hi

theorem argText_no_zero (command : CString) : (0 : UInt8) ∉ argText command := fun hmem =>
  command.nonzero 0 (List.mem_of_mem_drop hmem) rfl

theorem uint32_le {n : Int} (h : 0 ≤ n) : (uint32 n : Int) ≤ n := by
  unfold uint32
  omega

/-- A call that succeeds returns the argument of a command if and only if the size is not
negative and the buffer holds this argument, given that the texts fit the buffer. -/
theorem getsText_iff {k : Kernel} {last command : CString} (hholds : HoldsArgs k last)
    (hlast : (argText last).length ≤ argLen) (hfits : (argText command).length ≤ argLen)
    {nbytes : Int} (hne : k.argLength ≠ 0) (hle : k.argLength ≤ uint32 nbytes) :
    GetsText k nbytes (argText command) ↔ 0 ≤ nbytes ∧ argText last = argText command := by
  have harg : ∀ i < argLen, k.arg (i : Nat) = (argText last).getD i 0 := hholds.arg
  have hlength := hholds.argLength
  constructor
  · rintro ⟨hroom, hget⟩
    have hnonneg : 0 ≤ nbytes := by omega
    have hsize := uint32_le hnonneg
    obtain ⟨bytes', hcall, htext, hend⟩ := hget fun _ => 0
    obtain ⟨bytes, hcall', hcopy⟩ := sysGetargs_copies nbytes hne hle fun _ => 0
    obtain rfl : bytes = bytes' := by
      have hboth := hcall'.symm.trans hcall
      simpa using hboth
    refine ⟨hnonneg, text_eq_of_prefix (argText_no_zero command) (argText_no_zero last) ?_ ?_⟩
    · intro i hi
      rw [← harg i (by omega), ← hcopy i (by omega), htext i hi]
    · intro hlt
      rw [← harg _ (by omega), ← hcopy _ (by omega)]
      exact hend (by omega) (by omega)
  · rintro ⟨hnonneg, htext⟩
    have hsize := uint32_le hnonneg
    rw [← htext]
    refine ⟨by omega, fun bytes => ?_⟩
    obtain ⟨bytes', hcall, hcopy⟩ := sysGetargs_copies nbytes hne hle bytes
    refine ⟨bytes', hcall, fun i hi => ?_, fun hroom hfit => ?_⟩
    · rw [hcopy i (by omega), harg i (by omega)]
    · rw [hcopy _ hroom, harg _ hfit, List.getD_eq_default _ _ (Nat.le_refl _)]

/-! ## The machine -/

/-- The kernel; with which command the process of each control block was executed; and
the command that was split last. -/
structure Commands where
  kernel : Kernel
  command : Nat → Option CString
  last : Option CString

/-- The machine after boot. -/
def Commands.boot (b : Boot) (k : Kernel) : Commands :=
  ⟨Ece391Kernel.boot b k, fun _ => none, none⟩

/-- A call of `sys_execute` has started a process. -/
@[simps -fullyApplied] def Commands.started (m : Commands) (a : ExecArgs) (k' : Kernel) :
    Commands :=
  ⟨k', Function.update m.command k'.current.activePcb a.command, a.command⟩

/-- A call of `sys_execute` has returned. -/
@[simps -fullyApplied] def Commands.failed (m : Commands) (a : ExecArgs) (k' : Kernel) : Commands :=
  ⟨k', m.command, (splitCommand a m.kernel).or m.last⟩

/-- The call of `sys_execute` in `sys_halt`. -/
def haltShell (a : HaltArgs) : ExecArgs := ⟨some shellCommand, a.stack, a.esp, a.ebp⟩

/-- A whole call of the running process, or a whole tick. -/
inductive CommandStep (b : Boot) (m : Commands) : MachineLabel → Commands → Prop
  | executed {a : ExecArgs} {entry : Nat} {k' : Kernel}
      (h : sysExecute b a m.kernel = .launched entry k') :
      CommandStep b m (.call (.execute a)) (m.started a k')
  | failed {a : ExecArgs} {k' : Kernel} (h : sysExecute b a m.kernel = .returned k') :
      CommandStep b m (.call (.execute a)) (m.failed a k')
  | resumed {a : HaltArgs} {eax esp ebp : Nat} {k' : Kernel}
      (hstarted : 0 < m.kernel.current.numProcessExecutingOnTerminal)
      (h : sysHalt b a m.kernel = .resumed eax esp ebp k') :
      CommandStep b m (.call (.halt a)) { m with kernel := k' }
  | restarted {a : HaltArgs} {entry : Nat} {k' : Kernel}
      (hstarted : 0 < m.kernel.current.numProcessExecutingOnTerminal)
      (h : sysHalt b a m.kernel = .launched entry k') :
      CommandStep b m (.call (.halt a)) (m.started (haltShell a) k')
  | stayed {a : SwitchArgs} {k' : Kernel} (h : pitInterrupt b a m.kernel = .stayed k') :
      CommandStep b m (.tick a) { m with kernel := k' }
  | switched {a : SwitchArgs} {esp ebp : Nat} {k' : Kernel}
      (h : pitInterrupt b a m.kernel = .switched esp ebp k') :
      CommandStep b m (.tick a) { m with kernel := k' }
  | shellStarted {a : SwitchArgs} {entry : Nat} {k' : Kernel}
      (h : pitInterrupt b a m.kernel = .launched entry k') :
      CommandStep b m (.tick a) (m.started (switchShell a) k')
  | shellFailed {a : SwitchArgs} {k' : Kernel} (h : pitInterrupt b a m.kernel = .failed k') :
      CommandStep b m (.tick a) (m.failed (switchShell a) k')

/-- The argument of a command that a process executes fits into the buffer. -/
def ArgFits (_ : Commands) (label : MachineLabel) : Prop :=
  ∀ a command, label = .call (.execute a) → a.command = some command →
    (argText command).length ≤ argLen

/-- Every process has a command; and the argument buffer holds the argument of the command
that was split last. All of them fit. -/
structure CommandInvariant (m : Commands) : Prop where
  tree : ∃ s, Represents m.kernel s ∧ ∀ n, s.Owned n → ∃ c, m.command (slotAddr n) = some c
  split : ∀ addr c, m.command addr = some c → (argText c).length ≤ argLen ∧ m.last ≠ none
  last : ∀ c, m.last = some c → (argText c).length ≤ argLen ∧ HoldsArgs m.kernel c

theorem shell_argFits : (argText shellCommand).length ≤ argLen := by decide

namespace CommandInvariant

variable {b : Boot} {m : Commands} {k' : Kernel}

/-- Nothing is split and no process is started. -/
theorem keep (h : CommandInvariant m) (hkept : ArgsKept m.kernel k')
    (htree : ∀ s, Represents m.kernel s → ∃ s', Represents k' s' ∧ ∀ n, s'.Owned n → s.Owned n) :
    CommandInvariant { m with kernel := k' } where
  tree := by
    obtain ⟨s, hs, hcommand⟩ := h.tree
    obtain ⟨s', hs', howned⟩ := htree s hs
    exact ⟨s', hs', fun n hn => hcommand n (howned n hn)⟩
  split := h.split
  last := fun c hc => ⟨(h.last c hc).1, (h.last c hc).2.kept hkept⟩

/-- A process is started on top of what is left of the stacks. -/
theorem start (h : CommandInvariant m) {a : ExecArgs} {c : CString} (ha : a.command = some c)
    (hfits : (argText c).length ≤ argLen) (hholds : HoldsArgs k' c)
    (htree : ∀ s, Represents m.kernel s → ∃ s', Represents k' s' ∧
      ∀ n, s'.Owned n → s.Owned n ∨ k'.current.activePcb = slotAddr n) :
    CommandInvariant (m.started a k') where
  tree := by
    obtain ⟨s, hs, hcommand⟩ := h.tree
    obtain ⟨s', hs', howned⟩ := htree s hs
    refine ⟨s', hs', fun n hn => ?_⟩
    rw [Commands.started_command]
    by_cases hactive : slotAddr n = k'.current.activePcb
    · rw [hactive, Function.update_self]
      exact ⟨c, ha⟩
    · rw [Function.update_of_ne hactive]
      exact hcommand n ((howned n hn).resolve_right (Ne.symm hactive))
  split := by
    intro addr c' hc'
    rw [Commands.started_command] at hc'
    refine ⟨?_, by simp [ha]⟩
    by_cases hactive : addr = k'.current.activePcb
    · rw [hactive, Function.update_self] at hc'
      obtain rfl := Option.some.inj (ha.symm.trans hc')
      exact hfits
    · rw [Function.update_of_ne hactive] at hc'
      exact (h.split addr c' hc').1
  last := by
    intro c' hc'
    obtain rfl : c = c' := Option.some.inj (ha.symm.trans hc')
    exact ⟨hfits, hholds⟩

/-- A call of `sys_execute` returns. -/
theorem fail (h : CommandInvariant m) {a : ExecArgs}
    (hfits : ∀ c, a.command = some c → (argText c).length ≤ argLen)
    (hsplit : (splitCommand a m.kernel = none ∧ ArgsKept m.kernel k') ∨
      ∃ c, splitCommand a m.kernel = some c ∧ HoldsArgs k' c)
    (htree : ∀ s, Represents m.kernel s → Represents k' s) :
    CommandInvariant (m.failed a k') where
  tree := by
    obtain ⟨s, hs, hcommand⟩ := h.tree
    exact ⟨s, htree s hs, hcommand⟩
  split := by
    intro addr c hc
    obtain ⟨hlength, hlast⟩ := h.split addr c hc
    refine ⟨hlength, ?_⟩
    rw [Commands.failed_last]
    rcases hsplit with ⟨hnone, -⟩ | ⟨c', hsome, -⟩
    · rw [hnone, Option.none_or]
      exact hlast
    · rw [hsome, Option.some_or]
      simp
  last := by
    intro c hc
    rw [Commands.failed_last] at hc
    rcases hsplit with ⟨hnone, hkept⟩ | ⟨c', hsome, hholds⟩
    · rw [hnone, Option.none_or] at hc
      exact ⟨(h.last c hc).1, (h.last c hc).2.kept hkept⟩
    · rw [hsome, Option.some_or] at hc
      obtain rfl := Option.some.inj hc
      have hcommand : a.command = some c' := by
        unfold splitCommand at hsome
        split at hsome
        · exact absurd hsome (by simp)
        · exact hsome
      exact ⟨hfits c' hcommand, hholds⟩

end CommandInvariant

/-! ## One step -/

theorem sysHalt_launched {b : Boot} {a : HaltArgs} {entry : Nat} {k k' : Kernel}
    (h : sysHalt b a k = .launched entry k') :
    k.activePcb.parentPcb = 0 ∧
      sysExecute b (haltShell a) (releaseProcess (closeFiles k)) = .launched entry k' := by
  rcases sysHalt_cases b a k with ⟨hzero, ⟨k₁, -, hfault⟩ | ⟨-, hshell⟩⟩ | ⟨-, pcb, -, hresumed⟩
  · exact absurd (hfault.symm.trans h) (by simp)
  · exact ⟨hzero, hshell.symm.trans h⟩
  · exact absurd (hresumed.symm.trans h) (by simp)

theorem sysHalt_resumed {b : Boot} {a : HaltArgs} {eax esp ebp : Nat} {k k' : Kernel}
    (h : sysHalt b a k = .resumed eax esp ebp k') :
    ∃ pcb, k' = resumeParent pcb (releaseProcess (closeFiles k)) := by
  rcases sysHalt_cases b a k with ⟨-, ⟨k₁, -, hfault⟩ | ⟨-, hshell⟩⟩ | ⟨-, pcb, -, hresumed⟩
  · exact absurd (hfault.symm.trans h) (by simp)
  · exact absurd (hshell.symm.trans h) (sysExecute_ne_resumed b _ _ _ _ _ _)
  · obtain ⟨-, -, -, hk'⟩ := Outcome.resumed.inj (hresumed.symm.trans h)
    exact ⟨pcb, hk'.symm⟩

namespace Represents

variable {k k' : Kernel} {s : ProcessStacks}

theorem launch_owned (h : Represents k s) {n esp ebp : Nat} (hslot : freeSlot k = some n)
    (hlaunch : Launch n esp ebp k k') : ∃ s', Represents k' s' ∧
      ∀ n, s'.Owned n → s.Owned n ∨ k'.current.activePcb = slotAddr n := by
  obtain ⟨n, rfl, hfree⟩ := freeSlot_some hslot
  obtain ⟨hn, hk'⟩ := h.launch hfree hlaunch
  refine ⟨_, hk', fun m hm => ?_⟩
  rcases (s.push_owned _ n hn m).mp hm with rfl | howned
  · exact Or.inr hlaunch.current_activePcb
  · exact Or.inl howned

theorem parked (h : Represents k s) (a : SwitchArgs) : Represents (parked a k) s :=
  h.of_same rfl (fun _ => ⟨rfl, rfl⟩) (parked_terminal a k)

end Represents

theorem CommandInvariant.step {b : Boot} {m m' : Commands} {label : MachineLabel}
    (h : CommandInvariant m) (hfits : ArgFits m label) (hstep : CommandStep b m label m') :
    CommandInvariant m' := by
  cases hstep with
  | @executed a entry k' hexecuted =>
      obtain ⟨c, hc, hholds⟩ := sysExecute_launched_args hexecuted
      obtain ⟨n, hslot, hlaunch⟩ := sysExecute_launched hexecuted
      exact h.start hc (hfits a c rfl hc) hholds fun s hs => hs.launch_owned hslot hlaunch
  | @failed a k' hreturned =>
      refine h.fail (fun c hc => hfits a c rfl hc) ?_
        fun s hs => hs.fail (sysExecute_returned hreturned).1
      rcases sysExecute_returned_args hreturned with ⟨hnone, rfl⟩ | hsome
      · exact Or.inl ⟨hnone, rfl, rfl⟩
      · exact Or.inr hsome
  | @resumed a eax esp ebp k' hstarted hresumed =>
      have hcall : runCall b (.halt a) m.kernel = .resumed eax esp ebp k' := hresumed
      obtain ⟨pcb, rfl⟩ := sysHalt_resumed hresumed
      refine h.keep ((release_argsKept m.kernel).trans ⟨rfl, rfl⟩) fun s hs => ?_
      obtain ⟨n, p, l, htop, hk'⟩ := hs.resumed (fun _ _ => hstarted) hcall
      exact ⟨_, hk', fun i hi => ((s.pop_owned htop i).mp hi).2⟩
  | @restarted a entry k' hstarted hlaunched =>
      obtain ⟨hzero, hexecuted⟩ := sysHalt_launched hlaunched
      obtain ⟨c, hc, hholds⟩ := sysExecute_launched_args hexecuted
      obtain rfl : shellCommand = c := Option.some.inj hc
      obtain ⟨n, hslot, hlaunch⟩ := sysExecute_launched hexecuted
      refine h.start rfl shell_argFits hholds fun s hs => ?_
      obtain ⟨top, l, htop⟩ := hs.exists_top hstarted
      obtain rfl := (hs.parent_eq_zero htop).mp hzero
      obtain ⟨s', hs', howned⟩ :=
        (hs.release htop (release_released m.kernel)).launch_owned hslot hlaunch
      exact ⟨s', hs', fun i hi => (howned i hi).imp_left fun hi => ((s.pop_owned htop i).mp hi).2⟩
  | @stayed a k' hstayed =>
      rw [pitInterrupt_stayed hstayed]
      exact h.keep ⟨rfl, rfl⟩ fun s hs =>
        ⟨s, hs.of_same rfl (fun _ => ⟨rfl, rfl⟩) (fun _ => ⟨rfl, rfl⟩), fun _ hn => hn⟩
  | @switched a esp ebp k' hswitched =>
      obtain ⟨-, -, -, rfl⟩ := pitInterrupt_switched hswitched
      exact h.keep ⟨rfl, rfl⟩ fun s hs =>
        ⟨s, (hs.parked a).of_same rfl (fun _ => ⟨rfl, rfl⟩) (fun _ => ⟨rfl, rfl⟩), fun _ hn => hn⟩
  | @shellStarted a entry k' hlaunched =>
      obtain ⟨-, hexecuted⟩ := pitInterrupt_executed hlaunched
      obtain ⟨c, hc, hholds⟩ := sysExecute_launched_args hexecuted
      obtain rfl : shellCommand = c := Option.some.inj hc
      obtain ⟨n, hslot, hlaunch⟩ := sysExecute_launched hexecuted
      exact h.start rfl shell_argFits hholds fun s hs =>
        ((hs.parked a).onTerminal _).launch_owned hslot hlaunch
  | @shellFailed a k' hfailed =>
      obtain ⟨-, -, k₁, hreturned, rfl⟩ := pitInterrupt_failed hfailed
      have hshell : ∀ c, (switchShell a).command = some c → (argText c).length ≤ argLen := by
        intro c hc
        obtain rfl : shellCommand = c := Option.some.inj hc
        exact shell_argFits
      refine h.fail hshell ?_ fun s hs => ?_
      · rcases sysExecute_returned_args hreturned with ⟨hnone, rfl⟩ | ⟨c, hsome, hholds⟩
        · exact Or.inl ⟨hnone, rfl, rfl⟩
        · exact Or.inr ⟨c, hsome, hholds.arg, hholds.argLength⟩
      · have hk₁ := ((hs.parked a).onTerminal m.kernel.next).fail (sysExecute_returned hreturned).1
        exact hk₁.of_same rfl (fun _ => ⟨rfl, rfl⟩) fun _ => ⟨rfl, rfl⟩

/-! ## Runs -/

theorem boot_commandInvariant (b : Boot) (k : Kernel) : CommandInvariant (Commands.boot b k) where
  tree := by
    refine ⟨Stacks.empty, boot_represents b k, ?_⟩
    rintro n ⟨t, hn⟩
    exact absurd hn List.not_mem_nil
  split := fun _ _ hc => absurd hc (by simp [Commands.boot])
  last := fun _ hc => absurd hc (by simp [Commands.boot])

theorem CommandInvariant.run {b : Boot} {k : Kernel} {labels : List MachineLabel} {m : Commands}
    (hrun : Run (guarded ArgFits (CommandStep b)) (Commands.boot b k) labels m) :
    CommandInvariant m :=
  hrun.invariant (fun _ _ _ h hstep => h.step hstep.1 hstep.2) (boot_commandInvariant b k)

/-- In every run of whole calls and ticks in which the executed arguments fit into the
buffer, the process that runs was executed with some command `c`. A call of `sys_getargs`
that succeeds returns the argument of `c` if and only if its size is not negative and the
command that was split last has the same argument. -/
theorem getargs_own_iff (b : Boot) (k₀ : Kernel) (labels : List MachineLabel) (m : Commands)
    (hrun : Run (guarded ArgFits (CommandStep b)) (Commands.boot b k₀) labels m)
    (hstarted : 0 < m.kernel.current.numProcessExecutingOnTerminal) :
    ∃ c, m.command m.kernel.current.activePcb = some c ∧
      ∀ (nbytes : Int) (bytes : Int → UInt8), (sysGetargs (some bytes) nbytes m.kernel).1 = 0 →
        (GetsText m.kernel nbytes (argText c) ↔
          0 ≤ nbytes ∧ ∃ c', m.last = some c' ∧ argText c' = argText c) := by
  have hinv := CommandInvariant.run hrun
  obtain ⟨s, hs, hcommand⟩ := hinv.tree
  obtain ⟨n, l, htop⟩ := hs.exists_top hstarted
  have hactive : m.kernel.current.activePcb = slotAddr n := (hs.top htop).1
  obtain ⟨c, hc⟩ := hcommand n ⟨_, by rw [htop]; exact List.mem_cons_self⟩
  refine ⟨c, by rw [hactive, hc], fun nbytes bytes hzero => ?_⟩
  obtain ⟨hfits, hsome⟩ := hinv.split _ c hc
  obtain ⟨last, hlast⟩ := Option.ne_none_iff_exists'.mp hsome
  obtain ⟨hfits', hholds⟩ := hinv.last last hlast
  obtain ⟨hne, hle⟩ := sysGetargs_zero hzero
  rw [getsText_iff hholds hfits' hfits hne hle, hlast]
  simp only [Option.some.injEq, exists_eq_left']

/-! ## A process that gets the argument of another -/

theorem Represents.launch_top {k k' : Kernel} {s : ProcessStacks} (h : Represents k s) {n : Fin 6}
    {esp ebp : Nat} (hfree : k.processes n = 0) (hlaunch : Launch n esp ebp k k') :
    ∃ s', Represents k' s' ∧ s'.on k'.executingTerminal = n :: s.on k.executingTerminal := by
  obtain ⟨hn, hk'⟩ := h.launch hfree hlaunch
  refine ⟨_, hk', ?_⟩
  rw [hlaunch.executingTerminal, Stacks.push_on_self]

/-- The shell of the small image is started with any argument. -/
theorem smallBoot_shell_command (command : CString) {m : Commands} {s : ProcessStacks}
    (hs : Represents m.kernel s) (hidx : findDirentry smallBoot (commandName command) = some 0)
    {n : Fin 6} (hnum : m.kernel.numProcessExecuting = UInt32.ofNat n)
    (hslots : UsedBelow n m.kernel) :
    ∃ k' s', Launch n 0 0 m.kernel k' ∧ UsedBelow (n + 1) k' ∧
      k'.numProcessExecuting = UInt32.ofNat (n + 1) ∧ Represents k' s' ∧
      s'.on k'.executingTerminal = n :: s.on m.kernel.executingTerminal ∧
      CommandStep smallBoot m (.call (.execute (smallArgs command)))
        (m.started (smallArgs command) k') := by
  obtain ⟨k', hk', hlaunch, hslots', hnum'⟩ :=
    smallBoot_next hidx hslots n.isLt hnum m.kernel.executingTerminal
  rw [Kernel.onTerminal_eq rfl] at hk' hlaunch
  obtain ⟨s', hs', htop⟩ := hs.launch_top (hslots.free n (Nat.le_refl n) n.isLt) hlaunch
  exact ⟨k', s', hlaunch, hslots', hnum', hs', htop, CommandStep.executed hk'⟩

theorem argFits_of_le {m : Commands} {command : CString}
    (h : (argText command).length ≤ argLen) :
    ArgFits m (.call (.execute (smallArgs command))) := by
  intro a c ha hc
  obtain rfl : smallArgs command = a := by simpa using ha
  obtain rfl : command = c := Option.some.inj hc
  exact h

theorem boot_represents_commands (b : Boot) (k : Kernel) :
    Represents (Commands.boot b k).kernel Stacks.empty := boot_represents b k

theorem boot_numProcessExecuting_commands (b : Boot) (k : Kernel) :
    (Commands.boot b k).kernel.numProcessExecuting = 0 := boot_numProcessExecuting b k

theorem boot_usedBelow_commands (b : Boot) (k : Kernel) : UsedBelow 0 (Commands.boot b k).kernel :=
  boot_usedBelow b k

/-- A process with a parent asks for an unknown name with an argument, and halts. -/
theorem exists_gets_other_of_two {m : Commands} {s : ProcessStacks} (hs : Represents m.kernel s)
    {n parent : Fin 6} (htop : s.on m.kernel.executingTerminal = [n, parent])
    (hnum : m.kernel.numProcessExecuting ≠ 6) :
    ∃ labels m', Run (guarded ArgFits (CommandStep smallBoot)) m labels m' ∧
      0 < m'.kernel.current.numProcessExecutingOnTerminal ∧
      m'.kernel.current.activePcb = slotAddr parent ∧ m'.command = m.command ∧
      m'.last = some unknownNameWithArg := by
  have hreturned := sysExecute_unknown (b := smallBoot) (a := smallArgs unknownNameWithArg) hnum
    rfl (by decide +kernel)
  have hfailed : CommandStep smallBoot m (.call (.execute (smallArgs unknownNameWithArg))) _ :=
    CommandStep.failed hreturned
  have hs' := hs.fail (sysExecute_returned hreturned).1
  have hexec : (parseCommand unknownNameWithArg m.kernel).executingTerminal =
      m.kernel.executingTerminal := rfl
  generalize parseCommand unknownNameWithArg m.kernel = k at *
  rw [← hexec] at htop
  have hstarted : 0 < k.current.numProcessExecutingOnTerminal := by
    unfold Kernel.current
    rw [hs'.length, htop, List.length_cons]
    exact Int.natCast_pos.mpr (Nat.succ_pos _)
  rcases sysHalt_cases smallBoot ⟨0, fun _ => 0, 0, 0⟩ k with ⟨hzero, -⟩ | ⟨-, pcb, -, hresumed⟩
  · exact absurd ((hs'.parent_eq_zero htop).mp hzero) (by simp)
  · have hcall : runCall smallBoot (.halt ⟨0, fun _ => 0, 0, 0⟩) k = _ := hresumed
    obtain ⟨-, -, -, -, hk'⟩ := hs'.resumed (fun _ _ => hstarted) hcall
    have hexec' := (runCall_other (congrArg Outcome.state hcall)).1
    generalize resumeParent pcb (releaseProcess (closeFiles k)) = k' at *
    have htop' : (s.pop k.executingTerminal).on k'.executingTerminal = [parent] := by
      rw [hexec', Stacks.pop_on_self, htop, List.tail_cons]
    refine ⟨_, _, Run.snoc (Run.single ⟨argFits_of_le (by decide +kernel), hfailed⟩)
      ⟨fun a c ha => absurd ha (by simp), CommandStep.resumed hstarted hresumed⟩, ?_,
      (hk'.top htop').1, rfl, ?_⟩
    · unfold Kernel.current
      rw [hk'.length, htop', List.length_cons]
      exact Int.natCast_pos.mpr (Nat.succ_pos _)
    · unfold Commands.failed splitCommand
      rw [if_neg hnum]
      rfl

/-- A shell started with an argument starts another, which asks for an unknown name with
another argument and halts. -/
theorem exists_gets_other {m : Commands} (hs : Represents m.kernel Stacks.empty)
    (hnum : m.kernel.numProcessExecuting = 0) (hslots : UsedBelow 0 m.kernel) :
    ∃ labels m', Run (guarded ArgFits (CommandStep smallBoot)) m labels m' ∧
      0 < m'.kernel.current.numProcessExecutingOnTerminal ∧
      m'.command m'.kernel.current.activePcb = some shellWithArg ∧
      m'.last = some unknownNameWithArg := by
  -- the two shells
  obtain ⟨k₁, s₁, hlaunch₁, hslots₁, hnum₁, hs₁, htop₁, hstep₁⟩ :=
    smallBoot_shell_command shellWithArg (n := 0) hs (by decide +kernel) hnum hslots
  obtain ⟨k₂, s₂, hlaunch₂, -, hnum₂, hs₂, htop₂, hstep₂⟩ :=
    smallBoot_shell_command shellCommand (n := 1) (m := m.started (smallArgs shellWithArg) k₁) hs₁
      (by decide +kernel) hnum₁ hslots₁
  have htop : s₂.on k₂.executingTerminal = [1, 0] := htop₂.trans (by
    rw [Commands.started_kernel, htop₁]
    rfl)
  have hne : slotAddr 0 ≠ slotAddr 1 := fun heq => absurd (slotAddr_injective heq) (by decide)
  -- the second one does the rest
  obtain ⟨labels, m', hrun, hstarted, hactive, hcommand, hlast⟩ := exists_gets_other_of_two
    (m := (m.started (smallArgs shellWithArg) k₁).started (smallArgs shellCommand) k₂) hs₂ htop
    (by rw [Commands.started_kernel, hnum₂]; decide)
  have hrun₂ := Run.snoc (Run.single (R := guarded ArgFits (CommandStep smallBoot))
    ⟨argFits_of_le (by decide +kernel), hstep₁⟩) ⟨argFits_of_le (by decide +kernel), hstep₂⟩
  refine ⟨_, m', hrun₂.append hrun, hstarted, ?_, hlast⟩
  have hactive₁ : k₁.current.activePcb = slotAddr 0 := hlaunch₁.current_activePcb
  have hactive₂ : k₂.current.activePcb = slotAddr 1 := hlaunch₂.current_activePcb
  rw [hcommand, hactive, Commands.started_command, Commands.started_command, hactive₁, hactive₂,
    Function.update_of_ne hne, Function.update_self]
  rfl

/-- A shell starts another one with an argument, which gets it; and a shell that has been
started with an argument gets none of it after another process has asked for an unknown name
with an argument of its own. -/
theorem getargs_own_iff_shells :
    (∃ m, Run (guarded ArgFits (CommandStep smallBoot)) (Commands.boot smallBoot blankKernel)
        ([.call (.execute (smallArgs shellCommand))] ++
          [.call (.execute (smallArgs shellWithArg))]) m ∧
      GetsText m.kernel 8 [0x61, 0x62]) ∧
    ∃ labels m, Run (guarded ArgFits (CommandStep smallBoot)) (Commands.boot smallBoot blankKernel)
        labels m ∧ m.command m.kernel.current.activePcb = some shellWithArg ∧
      m.last = some unknownNameWithArg ∧ ¬GetsText m.kernel 8 [0x61, 0x62] := by
  have hs := boot_represents_commands smallBoot blankKernel
  have hnum := boot_numProcessExecuting_commands smallBoot blankKernel
  have hslots := boot_usedBelow_commands smallBoot blankKernel
  have htext : argText shellWithArg = [0x61, 0x62] := by decide +kernel
  rw [← htext]
  constructor
  · obtain ⟨k₁, s₁, -, hslots₁, hnum₁, hs₁, -, hstep₁⟩ :=
      smallBoot_shell_command shellCommand (n := 0) hs (by decide +kernel) hnum hslots
    obtain ⟨k₂, s₂, -, -, -, hs₂, htop₂, hstep₂⟩ := smallBoot_shell_command shellWithArg (n := 1)
      (m := (Commands.boot smallBoot blankKernel).started (smallArgs shellCommand) k₁) hs₁
      (by decide +kernel) hnum₁ hslots₁
    have hrun := (Run.single (R := guarded ArgFits (CommandStep smallBoot))
      ⟨argFits_of_le (by decide +kernel), hstep₁⟩).snoc ⟨argFits_of_le (by decide +kernel), hstep₂⟩
    have hholds := ((CommandInvariant.run hrun).last shellWithArg rfl).2
    have hlength : k₂.argLength = 2 := hholds.argLength.trans (by decide +kernel)
    obtain ⟨bytes, hcall, -⟩ := sysGetargs_copies (k := k₂) 8 (by rw [hlength]; decide)
      (by rw [hlength]; decide) fun _ => 0
    have hstarted : 0 < k₂.current.numProcessExecutingOnTerminal := by
      unfold Kernel.current
      rw [hs₂.length, htop₂, List.length_cons]
      omega
    obtain ⟨c, hc, hget⟩ := getargs_own_iff smallBoot blankKernel _ _ hrun hstarted
    obtain rfl : shellWithArg = c := by
      rw [Commands.started_command] at hc
      simpa [smallArgs] using hc
    exact ⟨_, hrun, (hget 8 (fun _ => 0) (congrArg Prod.fst hcall)).mpr ⟨by decide, _, rfl, rfl⟩⟩
  · obtain ⟨labels, m, hrun, hstarted, hcommand, hlast⟩ := exists_gets_other hs hnum hslots
    have hholds := ((CommandInvariant.run hrun).last _ hlast).2
    have hlength : m.kernel.argLength = 1 := hholds.argLength.trans (by decide +kernel)
    obtain ⟨bytes, hcall, -⟩ := sysGetargs_copies (k := m.kernel) 8 (by rw [hlength]; decide)
      (by rw [hlength]; decide) fun _ => 0
    obtain ⟨c, hc, hget⟩ := getargs_own_iff smallBoot blankKernel _ _ hrun hstarted
    obtain rfl := Option.some.inj (hcommand.symm.trans hc)
    refine ⟨labels, m, hrun, hcommand, hlast, fun hgets => ?_⟩
    obtain ⟨-, last, hlast', hsame⟩ :=
      (hget 8 (fun _ => 0) (congrArg Prod.fst hcall)).mp hgets
    obtain rfl := Option.some.inj (hlast.symm.trans hlast')
    exact absurd hsame (by decide +kernel)

theorem getargs_returns_other : ¬∀ (b : Boot) (k₀ : Kernel) (labels : List MachineLabel)
    (m : Commands), Run (CommandStep b) (Commands.boot b k₀) labels m →
      0 < m.kernel.current.numProcessExecutingOnTerminal →
      ∀ c, m.command m.kernel.current.activePcb = some c →
        ∀ (nbytes : Int) (bytes : Int → UInt8), (sysGetargs (some bytes) nbytes m.kernel).1 = 0 →
          GetsText m.kernel nbytes (argText c) := by
  intro hall
  obtain ⟨labels, m, hrun, hstarted, hcommand, hlast⟩ := exists_gets_other
    (boot_represents_commands smallBoot blankKernel)
    (boot_numProcessExecuting_commands smallBoot blankKernel)
    (boot_usedBelow_commands smallBoot blankKernel)
  obtain ⟨hfits, hholds⟩ := (CommandInvariant.run hrun).last _ hlast
  have hlength : m.kernel.argLength = 1 := hholds.argLength.trans (by decide +kernel)
  have hne : m.kernel.argLength ≠ 0 := by rw [hlength]; decide
  have hle : m.kernel.argLength ≤ uint32 8 := by rw [hlength]; decide
  obtain ⟨bytes, hcall, -⟩ := sysGetargs_copies (k := m.kernel) 8 hne hle fun _ => 0
  have hget := hall smallBoot blankKernel labels m hrun.of_guarded hstarted _ hcommand 8
    (fun _ => 0) (congrArg Prod.fst hcall)
  have htext := ((getsText_iff hholds hfits (by decide +kernel) hne hle).mp hget).2
  exact absurd htext (by decide +kernel)

end Ece391Kernel
