import Ece391Kernel.Process.Tree
import Ece391Kernel.Schedule.ContextSwitch
import Mathlib.Data.UInt

/-!
# Calls of `sys_execute` with the timer on

The system call wrapper turns interrupts on before it calls `sys_execute`, so the
timer can tick between any two steps of a call. Here each terminal is in a call of
its own, or in none; the call of the executing terminal takes its next step, or a
tick goes on with the next terminal. The steps are the functions of which
`sys_execute` is made, with the buffers of `parse_command` in their place.
-/

namespace Ece391Kernel

open TransitionSystem

/-- How far a call is that has found a slot. -/
inductive Stage
  | claimed
  | counted
  | mapped
  | loaded
  | attached
  | finished
  deriving DecidableEq, Repr

/-- The process is counted. -/
def Stage.hasCounted : Stage → Bool
  | .claimed => false
  | _ => true

/-- The file has been copied. -/
def Stage.hasLoaded : Stage → Bool
  | .claimed | .counted | .mapped => false
  | _ => true

/-- The new process is the active one. -/
def Stage.hasAttached : Stage → Bool
  | .attached | .finished => true
  | _ => false

/-- How far the call of a terminal is, and what it has on its stack: no call; the
call before the test for a full table, before it splits the command, before it
searches the directory, and before it searches for a slot; then, with the slot, the
stages up to the first instruction of the program; or it has returned -1, with or
without a file that is no program. -/
inductive Progress
  | idle
  | entered (a : ExecArgs)
  | tested (a : ExecArgs) (command : CString)
  | parsed (a : ExecArgs) (command : CString)
  | checked (a : ExecArgs) (command : CString) (directoryIdx : Nat)
  | starting (stage : Stage) (a : ExecArgs) (directoryIdx n : Nat)
  | returned (a : ExecArgs) (rejected : Bool)

/-- The next step of a call. -/
def callStep (b : Boot) (p : Progress) (k : Kernel) : Option (Progress × Kernel) :=
  match p with
  | .idle => none
  | .entered a =>
      if k.numProcessExecuting = 6 then some (.returned a false, k)
      else
        match a.command with
        | none => some (.returned a false, k)
        | some command => some (.tested a command, k)
  | .tested a command =>
      -- a call that stores over the number of its terminal is not followed any further
      (parseCommandInPlace command k).bind fun k' =>
        if k'.executingTerminal = k.executingTerminal then some (.parsed a command, k') else none
  | .parsed a command =>
      match findDirentry b fun i : Nat => k.fname i with
      | none => some (.returned a false, k)
      | some directoryIdx =>
          match executableCheck (checkBuffer b a.stack directoryIdx) k with
          | (-1, k) => some (.returned a true, k)
          | (_, k) => some (.checked a command directoryIdx, k)
  | .checked a _ directoryIdx =>
      (freeSlot k).map fun n => (.starting .claimed a directoryIdx n, claimSlot n k)
  | .starting .claimed a directoryIdx n =>
      some (.starting .counted a directoryIdx n, countProcess k)
  | .starting .counted a directoryIdx n =>
      some (.starting .mapped a directoryIdx n, mapProcess n k)
  | .starting .mapped a directoryIdx n =>
      (loadProgram b (direntryInode b directoryIdx) k).map fun k =>
        (.starting .loaded a directoryIdx n, k)
  | .starting .loaded a directoryIdx n =>
      some (.starting .attached a directoryIdx n, attachPcb n a.esp a.ebp k)
  | .starting .attached a directoryIdx n =>
      some (.starting .finished a directoryIdx n, setTss n k)
  | .starting .finished _ _ _ => none
  | .returned _ _ => none

/-- The kernel, and the call of each terminal. The list has the terminals in the order in
which their calls have split their commands; no step depends on it. -/
structure Interleaving where
  kernel : Kernel
  progress : Fin 3 → Progress
  splits : List (Fin 3)

/-- The call of the executing terminal. -/
def Interleaving.running (m : Interleaving) : Progress := m.progress m.kernel.executingTerminal

/-- What happens next: a step of the running call, or a tick. -/
inductive PreemptLabel
  | run
  | tick (a : SwitchArgs)

/-- The terminals whose calls have split their commands, when the call of terminal `t` takes
its next step. -/
def Progress.record (t : Fin 3) (splits : List (Fin 3)) : Progress → List (Fin 3)
  | .tested _ _ => splits ++ [t]
  | _ => splits

/-- A step of the running call, or a tick that goes on with another call. -/
inductive PreemptStep (b : Boot) : Interleaving → PreemptLabel → Interleaving → Prop
  | run {k k' : Kernel} {progress : Fin 3 → Progress} {splits : List (Fin 3)} {p : Progress}
      (h : callStep b (progress k.executingTerminal) k = some (p, k')) :
      PreemptStep b ⟨k, progress, splits⟩ .run
        ⟨k', Function.update progress k.executingTerminal p,
          (progress k.executingTerminal).record k.executingTerminal splits⟩
  | tick {k k' : Kernel} {progress : Fin 3 → Progress} {splits : List (Fin 3)} {a : SwitchArgs}
      {esp ebp : Nat} (h : pitInterrupt b a k = .switched esp ebp k') :
      PreemptStep b ⟨k, progress, splits⟩ (.tick a) ⟨k', progress, splits⟩

/-- One call for each terminal that makes one. -/
def Interleaving.start (k : Kernel) (calls : Fin 3 → Option ExecArgs) : Interleaving where
  kernel := k
  progress := fun t => (calls t).elim .idle .entered
  splits := []

/-- A call from the beginning to the end, on terminal `t`: it starts the program
whose first instruction is `result`, or returns -1. -/
def AtomicStep (b : Boot) (k : Kernel) (label : Fin 3 × ExecArgs × Option Nat)
    (k' : Kernel) : Prop :=
  match label with
  | (t, a, some entry) => sysExecuteInPlace b a (k.onTerminal t) = some (.launched entry k')
  | (t, a, none) => sysExecuteInPlace b a (k.onTerminal t) = some (.returned k')

/-! ## The steps that do no harm -/

/-- What a call comes to by its own command: there is no such file, or the file is no
program, or it is started. -/
inductive Verdict
  | unknown
  | rejected
  | program (directoryIdx : Nat)
  deriving DecidableEq, Repr

/-- The verdict on the command of a call. -/
def verdict (b : Boot) (a : ExecArgs) (command : CString) : Verdict :=
  match findDirentry b (commandName (seenCommand command)) with
  | none => .unknown
  | some directoryIdx =>
      if hasMagic (checkBuffer b a.stack directoryIdx) then .program directoryIdx else .rejected

/-- What the call adds to the count. -/
def Verdict.count : Verdict → UInt32
  | .unknown => 0
  | .rejected => -1
  | .program _ => 1

/-- The command of a call that has split it, and will mark a slot for its own program. -/
def Progress.pending (b : Boot) : Progress → Option CString
  | .parsed a command =>
      match verdict b a command with
      | .program _ => some command
      | _ => none
  | .checked _ command _ => some command
  | _ => none

/-- What a call that has split its command has still to add to the count. -/
def Progress.unsettled (b : Boot) : Progress → UInt32
  | .parsed a command => (verdict b a command).count
  | .checked _ _ _ => 1
  | .starting .claimed _ _ _ => 1
  | _ => 0

/-- The count as it is when the calls that have split their commands are over. -/
def Interleaving.settledCount (b : Boot) (m : Interleaving) : UInt32 :=
  m.kernel.numProcessExecuting + ∑ t, (m.progress t).unsettled b

/-- There are more free slots than calls that will mark one. -/
def Interleaving.HasRoom (b : Boot) (m : Interleaving) : Prop :=
  (Finset.univ.filter fun t => ((m.progress t).pending b).isSome).card <
    (Finset.univ.filter fun n : Fin 6 => m.kernel.processes n = 0).card

/-- The buffers of `parse_command` are the same. -/
structure SameBuffers (k k' : Kernel) : Prop where
  fname : k'.fname = k.fname
  arg : k'.arg = k.arg
  argLength : k'.argLength = k.argLength

/-- The two commands leave the same in the buffers. -/
def SplitsAlike (command command' : CString) : Prop :=
  ∀ k, SameBuffers (parseCommand (seenCommand command) k) (parseCommand (seenCommand command') k)

/-- What the step reads of the state that the calls share is what it would read if they were
made one after the other. A call that finds the table full does so also when those that have
split their commands are over; when it splits its command, the argument fits into the buffer,
there is room, and the program fits into its frame; it finds the file of its own name; calls
mark their slots in the order in which they have split their commands, unless these leave the
same in the buffers; and the mapping is that of the new process while the file is copied, and
when the program is started. -/
def Undisturbed (b : Boot) (m : Interleaving) : PreemptLabel → Prop
  | .tick _ => True
  | .run =>
      match m.running with
      | .entered a =>
          a.command ≠ none → m.kernel.numProcessExecuting = 6 → m.settledCount b = 6
      | .tested a command =>
          (argText command).length ≤ argLen ∧ m.settledCount b ≠ 6 ∧
            ∀ directoryIdx, verdict b a command = .program directoryIdx →
              m.HasRoom b ∧ FitsFrame (programBytes b (direntryInode b directoryIdx))
      | .parsed _ command =>
          (findDirentry b fun i : Nat => m.kernel.fname i) =
            findDirentry b (commandName (seenCommand command))
      | .checked _ command _ =>
          ∀ u other, [u, m.kernel.executingTerminal].Sublist m.splits →
            (m.progress u).pending b = some other → SplitsAlike other command
      | .starting .mapped _ _ n => m.kernel.paging.pageDirectory virPro = processEntry n
      | .starting .attached _ _ n => m.kernel.paging.pageDirectory virPro = processEntry n
      | _ => True

end Ece391Kernel
