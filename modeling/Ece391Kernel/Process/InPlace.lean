import Ece391Kernel.Process.Effects

/-!
# The argument buffer in its place

`parse_command` takes no notice of the ends of its buffers, and in the kernel that is shipped
as `bootimg` other variables lie there: `fname` is just before `arg`, and 128 bytes from the
start of `arg` there is `arg_length`, then `executing_terminal`, `terminals` and the two other
terminal numbers. So a longer argument is stored over them before the directory is searched;
and the clearing loop of a command without an argument, which starts at `arg[-1]`, takes the
last character of a name of 32.

The functions with `InPlace` in their names are those of the calls with the buffers where they
are. As long as an argument fits they are the calls on buffers of their own, for the command
without that last character.
-/

namespace Ece391Kernel

open ByteMemory

/-! ## The variables behind the buffer -/

/-- How far `arg_length` is from the start of `arg`. -/
@[simp] def argLengthOffset : Nat := 128

@[simp] def executingTerminalOffset : Nat := 160

@[simp] def terminalsOffset : Nat := 192

/-- The size of a `terminal_t`. -/
@[simp] def terminalSize : Nat := 300

@[simp] def displayedTerminalOffset : Nat := 1092

@[simp] def nextScheduledTerminalOffset : Nat := 1096

/-- The end of the variables of the kernel, from the start of `arg`. -/
@[simp] def variablesEnd : Nat := 1100

/-- Byte `j` of a word, the lowest first. -/
def wordByte (n j : Nat) : UInt8 := UInt8.ofNat (n >>> (8 * j))

/-- The word of four bytes. -/
def wordOf (byte : Nat → UInt8) : Nat :=
  (byte 0).toNat + 2 ^ 8 * (byte 1).toNat + 2 ^ 16 * (byte 2).toNat + 2 ^ 24 * (byte 3).toNat

/-- A word at an offset from `arg` after the text has been stored there. -/
def overwriteWord (text : List UInt8) (offset n : Nat) : Nat :=
  if text.length ≤ offset then n else wordOf fun j => text.getD (offset + j) (wordByte n j)

/-- The same of an `int32_t`. -/
def overwriteInt (text : List UInt8) (offset : Nat) (n : Int) : Int :=
  if text.length ≤ offset then n else int32 (overwriteWord text offset (uint32 n))

/-- The same of an array of bytes. -/
def overwriteBytes (text : List UInt8) (offset size : Nat) (buf : Nat → UInt8) (i : Nat) : UInt8 :=
  if i < size then text.getD (offset + i) (buf i) else buf i

/-- A `terminal_t` at an offset from `arg`; `terminal_num` is at 12. -/
def overwriteTerminal (text : List UInt8) (offset : Nat) (term : Terminal) : Terminal where
  activePcb := overwriteWord text offset term.activePcb
  screenX := overwriteInt text (offset + 4) term.screenX
  screenY := overwriteInt text (offset + 8) term.screenY
  numProcessExecutingOnTerminal :=
    overwriteInt text (offset + 16) term.numProcessExecutingOnTerminal
  keyboardBuf := overwriteBytes text (offset + 20) 128 term.keyboardBuf
  storedOldBuf := overwriteBytes text (offset + 148) 128 term.storedOldBuf
  curBufSize := overwriteInt text (offset + 276) term.curBufSize
  oldBufSize := overwriteInt text (offset + 280) term.oldBufSize
  esp := overwriteWord text (offset + 284) term.esp
  ebp := overwriteWord text (offset + 288) term.ebp
  enterFlag := overwriteWord text (offset + 292) term.enterFlag
  interruptFlag := overwriteWord text (offset + 296) term.interruptFlag

/-- `arg_length` after the argument loop has stored so many characters: each is counted once
it is stored, and those just behind the buffer are stored in the count. -/
def countArg (text : List UInt8) : Nat → Nat
  | 0 => 0
  | i + 1 =>
      let n := countArg text i
      let stored := if argLengthOffset ≤ i ∧ i < argLengthOffset + 4 then
        wordOf fun j => if argLengthOffset + j = i then text.getD i 0 else wordByte n j
      else n
      (stored + 1) % 2 ^ 32

/-- A terminal number, if it is in range. -/
def terminalNumber (n : Nat) : Option (Fin 3) := if h : n < 3 then some ⟨n, h⟩ else none

theorem terminalNumber_eq_some {n : Nat} {t : Fin 3} : terminalNumber n = some t ↔ n = t := by
  unfold terminalNumber
  constructor
  · intro h
    split at h
    · exact congrArg Fin.val (Option.some.inj h)
    · exact absurd h (by simp)
  · rintro rfl
    rw [dif_pos t.isLt]

theorem terminalNumber_val (t : Fin 3) : terminalNumber t = some t := terminalNumber_eq_some.mpr rfl

/-- `parse_command` on the buffers in their place. There is no result if a terminal number
gets out of range, or if the text runs past the variables of the kernel. -/
def parseCommandInPlace (command : CString) (k : Kernel) : Option Kernel := do
  let text := argText command
  let parsed := parseCommand command k
  let executing ← terminalNumber
    (overwriteWord text executingTerminalOffset k.executingTerminal)
  let displayed ← terminalNumber
    (overwriteWord text displayedTerminalOffset k.displayedTerminal)
  let next ← terminalNumber
    (overwriteWord text nextScheduledTerminalOffset k.nextScheduledTerminal)
  if variablesEnd < text.length then none
  else some { parsed with
    -- the clearing loop starts at `arg[-1]` when the command ends with the name
    fname := if command.bytes.length = fnameLength command then
      Function.update parsed.fname (filenameLen - 1 : Nat) 0 else parsed.fname
    argLength := countArg text text.length
    executingTerminal := executing
    displayedTerminal := displayed
    nextScheduledTerminal := next
    terminals := fun t =>
      overwriteTerminal text (terminalsOffset + terminalSize * t) (k.terminals t) }

/-! ## An argument that fits -/

/-- The command that is carried out: a name of 32 characters with nothing behind it loses its
last one. -/
def seenCommand (command : CString) : CString :=
  if command.bytes.length = filenameLen ∧ fnameLength command = filenameLen then
    ⟨command.bytes.take (filenameLen - 1), fun c hc => command.nonzero c (List.mem_of_mem_take hc)⟩
  else command

theorem seenCommand_of_ne {command : CString} (h : command.bytes.length ≠ filenameLen) :
    seenCommand command = command := if_neg fun hcut => h hcut.1

theorem overwriteWord_of_le {text : List UInt8} {offset : Nat} (h : text.length ≤ offset)
    (n : Nat) : overwriteWord text offset n = n := if_pos h

theorem overwriteInt_of_le {text : List UInt8} {offset : Nat} (h : text.length ≤ offset)
    (n : Int) : overwriteInt text offset n = n := if_pos h

theorem overwriteBytes_of_le {text : List UInt8} {offset : Nat} (h : text.length ≤ offset)
    (size : Nat) (buf : Nat → UInt8) : overwriteBytes text offset size buf = buf := by
  funext i
  unfold overwriteBytes
  rw [List.getD_eq_default _ _ (by omega), ite_self]

theorem overwriteTerminal_of_le {text : List UInt8} {offset : Nat} (h : text.length ≤ offset)
    (term : Terminal) : overwriteTerminal text offset term = term := by
  have hbehind : ∀ n, text.length ≤ offset + n := fun n => by omega
  unfold overwriteTerminal
  rw [overwriteWord_of_le h]
  simp only [overwriteWord_of_le (hbehind _), overwriteInt_of_le (hbehind _),
    overwriteBytes_of_le (hbehind _)]

/-- Within the buffer the count is the number of characters. -/
theorem countArg_of_le (text : List UInt8) {i : Nat} (h : i ≤ argLen) : countArg text i = i := by
  induction i with
  | zero => rfl
  | succ i ih =>
      have hbefore : ¬(argLengthOffset ≤ i ∧ i < argLengthOffset + 4) := by
        simp only [argLen, argLengthOffset] at h ⊢
        omega
      simp only [argLen] at h
      simp only [countArg, ih (Nat.le_of_succ_le h), if_neg hbefore]
      omega

section Fits

variable {command : CString}

/-- The name that loses its last character has no space in it. -/
theorem fnameLength_seenCommand (hlength : command.bytes.length = filenameLen)
    (hname : fnameLength command = filenameLen) :
    fnameLength ⟨command.bytes.take (filenameLen - 1),
      fun c hc => command.nonzero c (List.mem_of_mem_take hc)⟩ = filenameLen - 1 := by
  have hspace : ∀ c ∈ command.bytes, (c == 0x20) = false := by
    unfold fnameLength at hname
    rw [← hlength, List.take_length, List.findIdx_eq_length] at hname
    exact hname
  have htake : (command.bytes.take (filenameLen - 1)).length = filenameLen - 1 := by
    rw [List.length_take, hlength]
    rfl
  unfold fnameLength
  simp only
  rw [List.take_of_length_le (by rw [htake]; decide),
    List.findIdx_eq_length.mpr fun c hc => hspace c (List.mem_of_mem_take hc), htake]

/-- With nothing behind the name, the clearing loop makes it the command that is seen. -/
theorem parseCommand_cut (hlength : command.bytes.length = filenameLen)
    (hname : fnameLength command = filenameLen) (k : Kernel) :
    parseCommand (seenCommand command) k = { parseCommand command k with
      fname := Function.update (parseCommand command k).fname (filenameLen - 1 : Nat) 0 } := by
  have hcut := fnameLength_seenCommand hlength hname
  have hseen : seenCommand command = ⟨command.bytes.take (filenameLen - 1),
      fun c hc => command.nonzero c (List.mem_of_mem_take hc)⟩ := if_pos ⟨hlength, hname⟩
  have htake : (command.bytes.take (filenameLen - 1)).length = filenameLen - 1 := by
    rw [List.length_take, hlength]
    rfl
  have htext : argText command = [] := by
    unfold argText
    exact List.drop_eq_nil_of_le (by omega)
  have htext' : argText (seenCommand command) = [] := by
    unfold argText
    rw [hseen, hcut]
    exact List.drop_eq_nil_of_le (by rw [htake]; omega)
  -- the last character is stored, and then cleared
  obtain ⟨c, hc⟩ : ∃ c, command.bytes = command.bytes.take (filenameLen - 1) ++ [c] := by
    refine ⟨command.bytes.getLast (List.ne_nil_of_length_pos (by rw [hlength]; decide)), ?_⟩
    rw [show filenameLen - 1 = command.bytes.length - 1 by rw [hlength],
      ← List.dropLast_eq_take, List.dropLast_concat_getLast]
  have hstored : storeFrom k.fname 0 command.bytes = Function.update
      (storeFrom k.fname 0 (command.bytes.take (filenameLen - 1))) (filenameLen - 1 : Nat) c := by
    conv_lhs => rw [hc, storeFrom_append, htake]
    rfl
  unfold parseCommand
  rw [htext, htext', hseen, hcut]
  simp only [htake, hlength, hname]
  rw [List.take_take, Nat.min_self, ← hlength, List.take_length, hstored]
  simp only [hlength, sub_self, Nat.sub_self, List.replicate_zero, storeFrom_nil,
    Function.update_idem]
  rfl

/-- The splitting of the command that is seen. -/
theorem parseCommand_seen (command : CString) (k : Kernel) :
    parseCommand (seenCommand command) k = { parseCommand command k with
      fname := if command.bytes.length = fnameLength command then
        Function.update (parseCommand command k).fname (filenameLen - 1 : Nat) 0
      else (parseCommand command k).fname } := by
  by_cases hname : command.bytes.length = fnameLength command
  · rw [if_pos hname]
    by_cases hcut : command.bytes.length = filenameLen
    · exact parseCommand_cut hcut (hname.symm.trans hcut) k
    · -- the last place of a shorter name is cleared anyway
      obtain ⟨hle, -⟩ := fnameLength_le command
      have hlast : (parseCommand command k).fname (filenameLen - 1 : Nat) = 0 := by
        rw [fname_parseCommand command k (by decide)]
        unfold commandName
        exact List.getD_eq_default _ _ (by rw [List.length_take]; omega)
      rw [seenCommand_of_ne hcut, Function.update_eq_self_iff.mpr hlast.symm]
  · have hseen : seenCommand command = command :=
      if_neg fun hcut => hname (hcut.1.trans hcut.2.symm)
    rw [if_neg hname, hseen]

/-- What the linker has put behind the buffer does not matter to an argument that fits. -/
theorem parseCommandInPlace_of_fits (h : (argText command).length ≤ argLen) (k : Kernel) :
    parseCommandInPlace command k = some (parseCommand (seenCommand command) k) := by
  simp only [argLen] at h
  have hbehind : ∀ {offset}, 128 ≤ offset → (argText command).length ≤ offset :=
    fun hoffset => h.trans hoffset
  have hterminals : (fun t : Fin 3 => overwriteTerminal (argText command)
      (terminalsOffset + terminalSize * t) (k.terminals t)) = k.terminals := by
    funext t
    exact overwriteTerminal_of_le (hbehind (by simp only [terminalsOffset]; omega)) _
  rw [parseCommand_seen]
  unfold parseCommandInPlace
  simp only [overwriteWord_of_le (hbehind (show 128 ≤ executingTerminalOffset by decide)),
    overwriteWord_of_le (hbehind (show 128 ≤ displayedTerminalOffset by decide)),
    overwriteWord_of_le (hbehind (show 128 ≤ nextScheduledTerminalOffset by decide)),
    terminalNumber_val, Option.bind_eq_bind, Option.bind_some, hterminals]
  rw [if_neg (by simp only [variablesEnd]; omega), countArg_of_le _ h]
  rfl

end Fits

/-! ## Any argument -/

/-- What `parse_command` leaves when it has a result. -/
structure ParsedInPlace (command : CString) (k k' : Kernel) : Prop where
  name : ∀ i < filenameLen, k'.fname i = commandName (seenCommand command) i
  arg : ∀ i < argLen, k'.arg i = commandArg command i
  argLength : k'.argLength = countArg (argText command) (argText command).length
  executingTerminal : overwriteWord (argText command) executingTerminalOffset k.executingTerminal =
    k'.executingTerminal
  displayedTerminal : overwriteWord (argText command) displayedTerminalOffset k.displayedTerminal =
    k'.displayedTerminal
  nextScheduledTerminal : overwriteWord (argText command) nextScheduledTerminalOffset
    k.nextScheduledTerminal = k'.nextScheduledTerminal
  terminals : ∀ t, k'.terminals t = overwriteTerminal (argText command)
    (terminalsOffset + terminalSize * t) (k.terminals t)
  processes : k'.processes = k.processes
  numProcessExecuting : k'.numProcessExecuting = k.numProcessExecuting
  pcbs : k'.pcbs = k.pcbs
  paging : k'.paging = k.paging
  tss : k'.tss = k.tss

theorem parseCommandInPlace_some {command : CString} {k k' : Kernel}
    (h : parseCommandInPlace command k = some k') : ParsedInPlace command k k' := by
  have hfname := congrArg Kernel.fname (parseCommand_seen command k)
  simp only at hfname
  unfold parseCommandInPlace at h
  simp only [Option.bind_eq_bind, Option.bind_eq_some_iff, terminalNumber_eq_some] at h
  obtain ⟨executing, hexecuting, displayed, hdisplayed, next, hnext, hk'⟩ := h
  split at hk'
  · exact absurd hk' (by simp)
  · obtain rfl := Option.some.inj hk'
    exact
      { name := by
          intro i hi
          rw [← fname_parseCommand _ k hi, hfname]
        arg := fun i hi => arg_parseCommand command k hi
        argLength := rfl
        executingTerminal := hexecuting
        displayedTerminal := hdisplayed
        nextScheduledTerminal := hnext
        terminals := fun _ => rfl
        processes := rfl
        numProcessExecuting := rfl
        pcbs := rfl
        paging := rfl
        tss := rfl }

/-- The directory is searched for the name of the command that is seen. -/
theorem ParsedInPlace.findDirentry_eq {command : CString} {k k' : Kernel}
    (h : ParsedInPlace command k k') (b : Boot) : (findDirentry b fun i : Nat => k'.fname i) =
      findDirentry b (commandName (seenCommand command)) :=
  findDirentry_congr h.name

/-! ## The calls -/

/-- `sys_execute` with the buffers in their place. -/
def sysExecuteInPlace (b : Boot) (a : ExecArgs) (k : Kernel) : Option Outcome :=
  if k.numProcessExecuting = 6 then some (.returned k)
  else
    match a.command with
    | none => some (.returned k)
    | some command =>
        (parseCommandInPlace command k).map fun k =>
          match findDirentry b fun i : Nat => k.fname i with
          | none => .returned k
          | some directoryIdx =>
              match executableCheck (checkBuffer b a.stack directoryIdx) k with
              | (-1, k) => .returned k
              | (_, k) => launch b a directoryIdx k

/-- A call of a process. The command of a shell that `sys_halt` starts has no argument. -/
def runCallInPlace (b : Boot) : Call → Kernel → Option Outcome
  | .execute a, k => sysExecuteInPlace b a k
  | .halt a, k => some (sysHalt b a k)

/-- The argument that the call executes a program with fits into the buffer. -/
def Call.Fits (call : Call) : Prop :=
  ∀ a command, call = .execute a → a.command = some command → (argText command).length ≤ argLen

/-- The call for the command that is carried out. -/
def ExecArgs.seen (a : ExecArgs) : ExecArgs := { a with command := a.command.map seenCommand }

/-- The same of a call of a process. -/
def Call.seen : Call → Call
  | .execute a => .execute a.seen
  | .halt a => .halt a

theorem Call.seen_eq_halt {call : Call} {a : HaltArgs} : call.seen = .halt a ↔ call = .halt a := by
  cases call with
  | execute a' => simp [Call.seen]
  | halt a' => simp [Call.seen]

theorem sysExecuteInPlace_of_fits (b : Boot) {a : ExecArgs}
    (h : ∀ command, a.command = some command → (argText command).length ≤ argLen) (k : Kernel) :
    sysExecuteInPlace b a k = some (sysExecute b a.seen k) := by
  unfold sysExecuteInPlace sysExecute ExecArgs.seen
  by_cases hfull : k.numProcessExecuting = 6
  · rw [if_pos hfull, if_pos hfull]
  · rw [if_neg hfull, if_neg hfull]
    cases hcommand : a.command with
    | none => rfl
    | some command =>
        simp only [Option.map_some, parseCommandInPlace_of_fits (h command hcommand)]
        rfl

/-- A call returns before it has split its command; or it returns because there is no such
name, or because the file is no program, which is counted; or it goes on. -/
theorem sysExecuteInPlace_cases {b : Boot} {a : ExecArgs} {k : Kernel} {o : Outcome}
    (h : sysExecuteInPlace b a k = some o) :
    ((k.numProcessExecuting = 6 ∨ a.command = none) ∧ o = .returned k) ∨
      ∃ command k₁, k.numProcessExecuting ≠ 6 ∧ a.command = some command ∧
        ParsedInPlace command k k₁ ∧
        ((findDirentry b (commandName (seenCommand command)) = none ∧ o = .returned k₁) ∨
          ∃ idx, findDirentry b (commandName (seenCommand command)) = some idx ∧
            (o = .returned (dropCount k₁) ∨ o = launch b a idx k₁)) := by
  unfold sysExecuteInPlace at h
  by_cases hfull : k.numProcessExecuting = 6
  · rw [if_pos hfull] at h
    exact Or.inl ⟨Or.inl hfull, (Option.some.inj h).symm⟩
  · rw [if_neg hfull] at h
    cases hcommand : a.command with
    | none =>
        rw [hcommand] at h
        exact Or.inl ⟨Or.inr rfl, (Option.some.inj h).symm⟩
    | some command =>
        rw [hcommand] at h
        obtain ⟨k₁, hparsed, hrest⟩ := Option.map_eq_some_iff.mp h
        have hk₁ := parseCommandInPlace_some hparsed
        refine Or.inr ⟨command, k₁, hfull, rfl, hk₁, ?_⟩
        rw [hk₁.findDirentry_eq] at hrest
        cases hidx : findDirentry b (commandName (seenCommand command)) with
        | none =>
            rw [hidx] at hrest
            exact Or.inl ⟨rfl, hrest.symm⟩
        | some idx =>
            rw [hidx] at hrest
            refine Or.inr ⟨idx, rfl, ?_⟩
            unfold executableCheck at hrest
            cases hmagic : hasMagic (checkBuffer b a.stack idx) with
            | false =>
                simp only [hmagic] at hrest
                exact Or.inl hrest.symm
            | true =>
                simp only [hmagic, if_true] at hrest
                exact Or.inr hrest.symm

/-- A call that returns has changed nothing, or has split its command, or has counted a
program that is none. -/
theorem sysExecuteInPlace_returned {b : Boot} {a : ExecArgs} {k k' : Kernel}
    (h : sysExecuteInPlace b a k = some (.returned k')) :
    ((k.numProcessExecuting = 6 ∨ a.command = none) ∧ k' = k) ∨
      ∃ command k₁, k.numProcessExecuting ≠ 6 ∧ a.command = some command ∧
        ParsedInPlace command k k₁ ∧
        ((findDirentry b (commandName (seenCommand command)) = none ∧ k' = k₁) ∨
          ∃ idx, findDirentry b (commandName (seenCommand command)) = some idx ∧
            k' = dropCount k₁) := by
  rcases sysExecuteInPlace_cases h with ⟨hearly, hk'⟩ |
    ⟨command, k₁, hfull, hcommand, hparsed, hrest⟩
  · exact Or.inl ⟨hearly, Outcome.returned.inj hk'⟩
  · refine Or.inr ⟨command, k₁, hfull, hcommand, hparsed, ?_⟩
    rcases hrest with ⟨hidx, hk'⟩ | ⟨idx, hidx, hk' | hlaunch⟩
    · exact Or.inl ⟨hidx, Outcome.returned.inj hk'⟩
    · exact Or.inr ⟨idx, hidx, Outcome.returned.inj hk'⟩
    · exact absurd hlaunch.symm (launch_ne_returned b a idx k₁ k')

/-- As long as the argument fits, a call in place is a call on buffers of its own. -/
theorem runCallInPlace_of_fits (b : Boot) {call : Call} (h : call.Fits) (k : Kernel) :
    runCallInPlace b call k = some (runCall b call.seen k) := by
  cases call with
  | execute a => exact sysExecuteInPlace_of_fits b (fun command => h a command rfl) k
  | halt a => rfl

/-- The running process makes a call. -/
structure CallInPlace (b : Boot) (call : Call) (k k' : Kernel) : Prop where
  enabled : ∀ a, call = .halt a → 0 < k.current.numProcessExecutingOnTerminal
  ends : (runCallInPlace b call k).bind Outcome.state = some k'

theorem callInPlace_iff {b : Boot} {call : Call} {k k' : Kernel} (h : call.Fits) :
    CallInPlace b call k k' ↔
      (∀ a, call.seen = .halt a → 0 < k.current.numProcessExecutingOnTerminal) ∧
        (runCall b call.seen k).state = some k' := by
  have hends : (runCallInPlace b call k).bind Outcome.state = (runCall b call.seen k).state := by
    rw [runCallInPlace_of_fits b h, Option.bind_some]
  simp only [Call.seen_eq_halt, ← hends]
  exact ⟨fun hcall => ⟨hcall.enabled, hcall.ends⟩, fun hcall => ⟨hcall.1, hcall.2⟩⟩

/-- A call whose argument fits is a call on buffers of its own. -/
theorem CallInPlace.runCall {b : Boot} {call : Call} {k k' : Kernel} (h : CallInPlace b call k k')
    (hfits : call.Fits) : (runCall b call.seen k).state = some k' :=
  ((callInPlace_iff hfits).mp h).2

/-- A call for a command that is carried out as it is. -/
structure Call.Plain (call : Call) : Prop where
  fits : call.Fits
  seen : call.seen = call

theorem Call.Plain.runCallInPlace {call : Call} (h : call.Plain) (b : Boot) (k : Kernel) :
    runCallInPlace b call k = some (runCall b call k) := by
  rw [runCallInPlace_of_fits b h.fits, h.seen]

theorem Call.plain_halt (a : HaltArgs) : (Call.halt a).Plain :=
  ⟨fun _ _ hcall => absurd hcall (by simp), rfl⟩

theorem Call.plain_execute {a : ExecArgs} {command : CString} (hcommand : a.command = some command)
    (hfits : (argText command).length ≤ argLen) (hlength : command.bytes.length ≠ filenameLen) :
    (Call.execute a).Plain where
  fits := by
    rintro a' command' hcall hcommand'
    obtain rfl := Call.execute.inj hcall
    obtain rfl := Option.some.inj (hcommand.symm.trans hcommand')
    exact hfits
  seen := by
    obtain ⟨_, stack, esp, ebp⟩ := a
    obtain rfl := hcommand
    simp only [Call.seen, ExecArgs.seen, Option.map_some, seenCommand_of_ne hlength]

/-! ## An argument that does not fit -/

/-- An argument of 161 characters, the last of which becomes the executing terminal. -/
theorem parseCommandInPlace_executing {command : CString} {t : Fin 3}
    (hlength : (argText command).length = executingTerminalOffset + 1)
    (hlast : ((argText command).getD executingTerminalOffset 0).toNat = t)
    (k : Kernel) : ∃ n, parseCommandInPlace command k =
      some { parseCommand command k with argLength := n, executingTerminal := t } := by
  have hbehind : ∀ {offset}, executingTerminalOffset < offset →
      (argText command).length ≤ offset := fun hoffset => by rw [hlength]; exact hoffset
  have hterminals : (fun u : Fin 3 => overwriteTerminal (argText command)
      (terminalsOffset + terminalSize * u) (k.terminals u)) = k.terminals := by
    funext u
    refine overwriteTerminal_of_le (hbehind ?_) _
    simp only [executingTerminalOffset, terminalsOffset]
    omega
  have hexecuting : overwriteWord (argText command) executingTerminalOffset k.executingTerminal =
      t := by
    have hhigh : ∀ j, (argText command).getD (executingTerminalOffset + (j + 1))
        (wordByte k.executingTerminal (j + 1)) = 0 := by
      intro j
      have hzero : (k.executingTerminal : Nat) >>> (8 * (j + 1)) = 0 := by
        rw [Nat.shiftRight_eq_div_pow]
        refine Nat.div_eq_of_lt (lt_of_lt_of_le (b := 2 ^ 8) (by omega) ?_)
        exact Nat.pow_le_pow_right (by decide) (by omega)
      rw [List.getD_eq_default _ _ (hbehind (by omega)), wordByte, hzero]
      rfl
    have hlow : (argText command).getD executingTerminalOffset (wordByte k.executingTerminal 0) =
        (argText command).getD executingTerminalOffset 0 := by
      rw [List.getD_eq_getElem _ _ (by omega), List.getD_eq_getElem _ _ (by omega)]
    unfold overwriteWord
    rw [if_neg (by omega)]
    unfold wordOf
    simp only [Nat.add_zero, hlow, hhigh 0, hhigh 1, hhigh 2, hlast]
    rfl
  have hname : command.bytes.length ≠ fnameLength command := by
    intro heq
    have hdrop := hlength
    unfold argText at hdrop
    rw [List.length_drop, heq] at hdrop
    simp only [executingTerminalOffset] at hdrop
    omega
  refine ⟨countArg (argText command) (argText command).length, ?_⟩
  unfold parseCommandInPlace
  simp only [hexecuting,
    overwriteWord_of_le (hbehind (show _ < displayedTerminalOffset by decide)),
    overwriteWord_of_le (hbehind (show _ < nextScheduledTerminalOffset by decide)),
    terminalNumber_val, Option.bind_eq_bind, Option.bind_some, hterminals, if_neg hname]
  rw [if_neg (by rw [hlength]; decide)]
  rfl

section Executing

variable {b : Boot} {a : ExecArgs} {command : CString} {t : Fin 3} {k : Kernel}
  (hnum : k.numProcessExecuting ≠ 6) (hcommand : a.command = some command)
  (hlength : (argText command).length = executingTerminalOffset + 1)
  (hlast : ((argText command).getD executingTerminalOffset 0).toNat = t)
include hnum hcommand hlength hlast

/-- A call with such an argument goes on, on this terminal. -/
theorem sysExecuteInPlace_executing {idx : Nat}
    (hidx : findDirentry b (commandName command) = some idx)
    (hmagic : hasMagic (checkBuffer b a.stack idx) = true) :
    ∃ n, sysExecuteInPlace b a k = some (launch b a idx
      { parseCommand command k with argLength := n, executingTerminal := t }) := by
  obtain ⟨n, hparsed⟩ := parseCommandInPlace_executing hlength hlast k
  refine ⟨n, ?_⟩
  unfold sysExecuteInPlace
  rw [if_neg hnum, hcommand]
  simp only [hparsed, Option.map_some, findDirentry_parseCommand, hidx, executableCheck, hmagic,
    if_true]

/-- Also if it returns. -/
theorem sysExecuteInPlace_unknown (hidx : findDirentry b (commandName command) = none) :
    ∃ n, sysExecuteInPlace b a k = some (.returned
      { parseCommand command k with argLength := n, executingTerminal := t }) := by
  obtain ⟨n, hparsed⟩ := parseCommandInPlace_executing hlength hlast k
  refine ⟨n, ?_⟩
  unfold sysExecuteInPlace
  rw [if_neg hnum, hcommand]
  simp only [hparsed, Option.map_some, findDirentry_parseCommand, hidx]

end Executing

end Ece391Kernel
