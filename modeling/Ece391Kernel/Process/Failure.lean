import Ece391Kernel.Process.Tree

/-!
# A call of `sys_execute` that fails

`sys_execute` splits the command into the global argument buffer before it knows
whether there is a program of that name, and its check of the file takes one off
the count of the processes. So a call that returns -1 may leave the program that
made it with other arguments, or the kernel with a count that is too small.
-/

namespace Ece391Kernel

open TransitionSystem ByteMemory

/-- `sys_getargs`: the result, and the buffer. -/
def sysGetargs (buf : Buffer) (nbytes : Int) (k : Kernel) : Int × Buffer :=
  match buf with
  | none => (-1, none)
  | some bytes =>
      -- the length is unsigned, and so is the comparison; the loop counter is signed
      if k.argLength = 0 ∨ uint32 nbytes < k.argLength then (-1, some bytes)
      else (0, some (storeFrom bytes 0 ((List.range nbytes.toNat).map fun i : Nat => k.arg i)))

/-- What can be observed of the kernel is as before: the processes and their
counts, the terminals, the control blocks, the mapping, and the arguments that
the running program gets. -/
structure Unchanged (k k' : Kernel) : Prop where
  processes : k'.processes = k.processes
  numProcessExecuting : k'.numProcessExecuting = k.numProcessExecuting
  terminals : k'.terminals = k.terminals
  executingTerminal : k'.executingTerminal = k.executingTerminal
  displayedTerminal : k'.displayedTerminal = k.displayedTerminal
  nextScheduledTerminal : k'.nextScheduledTerminal = k.nextScheduledTerminal
  pcbs : k'.pcbs = k.pcbs
  paging : k'.paging = k.paging
  tss : k'.tss = k.tss
  arg : ∀ i : Nat, i < argLen → k'.arg i = k.arg i
  argLength : k'.argLength = k.argLength

theorem Unchanged.refl (k : Kernel) : Unchanged k k :=
  ⟨rfl, rfl, rfl, rfl, rfl, rfl, rfl, rfl, rfl, fun _ _ => rfl, rfl⟩

/-- The running program gets the same arguments as before. -/
theorem Unchanged.sysGetargs {k k' : Kernel} (h : Unchanged k k') (buf : Buffer) {nbytes : Int}
    (hn : nbytes ≤ argLen) : sysGetargs buf nbytes k' = sysGetargs buf nbytes k := by
  have hbytes : ((List.range nbytes.toNat).map fun i : Nat => k'.arg i) =
      (List.range nbytes.toNat).map fun i : Nat => k.arg i := by
    refine List.map_congr_left fun i hi => ?_
    rw [List.mem_range] at hi
    exact h.arg i (by omega)
  unfold Ece391Kernel.sysGetargs
  rw [h.argLength, hbytes]

/-- The buffer holds the argument already, and so do the variables behind it as far as the
argument is stored over them. -/
structure StoredAlready (command : CString) (k : Kernel) : Prop where
  arg : ∀ i < argLen, commandArg command i = k.arg i
  argLength : countArg (argText command) (argText command).length = k.argLength
  executingTerminal : overwriteWord (argText command) executingTerminalOffset k.executingTerminal =
    k.executingTerminal
  displayedTerminal : overwriteWord (argText command) displayedTerminalOffset k.displayedTerminal =
    k.displayedTerminal
  nextScheduledTerminal : overwriteWord (argText command) nextScheduledTerminalOffset
    k.nextScheduledTerminal = k.nextScheduledTerminal
  terminals : ∀ t : Fin 3, overwriteTerminal (argText command) (terminalsOffset + terminalSize * t)
    (k.terminals t) = k.terminals t

/-- An argument that fits is stored in the buffer only. -/
theorem storedAlready_of_fits {command : CString} {k : Kernel}
    (hfits : (argText command).length ≤ argLen)
    (harg : ∀ i < argLen, commandArg command i = k.arg i)
    (hlength : (argText command).length = k.argLength) : StoredAlready command k where
  arg := harg
  argLength := (countArg_of_le _ hfits).trans hlength
  executingTerminal := overwriteWord_of_le (hfits.trans (by decide)) _
  displayedTerminal := overwriteWord_of_le (hfits.trans (by decide)) _
  nextScheduledTerminal := overwriteWord_of_le (hfits.trans (by decide)) _
  terminals := by
    intro t
    refine overwriteTerminal_of_le (hfits.trans ?_) _
    simp only [argLen, terminalsOffset]
    omega

/-- The call fails before it writes anything, or it asks for an unknown name with
an argument that is stored already. -/
def FailsUnseen (b : Boot) (a : ExecArgs) (k : Kernel) : Prop :=
  k.numProcessExecuting = 6 ∨ a.command = none ∨
    ∃ command, a.command = some command ∧
      findDirentry b (commandName (seenCommand command)) = none ∧ StoredAlready command k

/-- `parse_command` can be observed unless it stores what is there already. -/
theorem ParsedInPlace.unchanged_iff {command : CString} {k k' : Kernel}
    (h : ParsedInPlace command k k') : Unchanged k k' ↔ StoredAlready command k := by
  constructor
  · intro hk
    exact
      { arg := fun i hi => (h.arg i hi).symm.trans (hk.arg i hi)
        argLength := h.argLength.symm.trans hk.argLength
        executingTerminal := h.executingTerminal.trans (congrArg Fin.val hk.executingTerminal)
        displayedTerminal := h.displayedTerminal.trans (congrArg Fin.val hk.displayedTerminal)
        nextScheduledTerminal :=
          h.nextScheduledTerminal.trans (congrArg Fin.val hk.nextScheduledTerminal)
        terminals := fun t => (h.terminals t).symm.trans (congrFun hk.terminals t) }
  · intro hk
    exact
      { processes := h.processes
        numProcessExecuting := h.numProcessExecuting
        terminals := funext fun t => (h.terminals t).trans (hk.terminals t)
        executingTerminal := Fin.ext (h.executingTerminal.symm.trans hk.executingTerminal)
        displayedTerminal := Fin.ext (h.displayedTerminal.symm.trans hk.displayedTerminal)
        nextScheduledTerminal :=
          Fin.ext (h.nextScheduledTerminal.symm.trans hk.nextScheduledTerminal)
        pcbs := h.pcbs
        paging := h.paging
        tss := h.tss
        arg := fun i hi => (h.arg i hi).trans (hk.arg i hi)
        argLength := h.argLength.trans hk.argLength }

/-- The count of the processes is another one after the check of a file that is no program. -/
theorem dropCount_changes {k k' : Kernel} (h : k'.numProcessExecuting = k.numProcessExecuting) :
    ¬Unchanged k (dropCount k') := by
  intro hk
  have hcount : k.numProcessExecuting - 1 = k.numProcessExecuting := by
    rw [← h]
    exact hk.numProcessExecuting.trans h.symm
  have hlt := k.numProcessExecuting.toNat_lt
  have hone : (1 : UInt32).toNat = 1 := rfl
  have hnat := congrArg UInt32.toNat hcount
  rw [UInt32.toNat_sub, hone] at hnat
  omega

/-- The string `"nope x"`. -/
def unknownNameWithArg : CString := ⟨[0x6E, 0x6F, 0x70, 0x65, 0x20, 0x78], by simp⟩

theorem unknownNameWithArg_unknown :
    findDirentry smallBoot (commandName unknownNameWithArg) = none := by decide +kernel

/-- The calls for the unknown name are carried out as they are. -/
theorem plain_unknown : (Call.execute (smallArgs unknownName)).Plain :=
  Call.plain_execute rfl (by decide) (by decide)

theorem plain_unknownWithArg : (Call.execute (smallArgs unknownNameWithArg)).Plain :=
  Call.plain_execute rfl (by decide) (by decide)

/-- A shell has asked for an unknown name with an argument. -/
theorem exists_failed_call : ∃ k,
    Run (guarded FitsBuffer (ProcStepInPlace smallBoot)) (boot smallBoot blankKernel)
        [(0, .execute (smallArgs shellCommand)), (0, .execute (smallArgs unknownNameWithArg))] k ∧
      k.numProcessExecuting = 1 ∧ k.argLength = 1 ∧
      ∀ i < argLen, commandArg unknownNameWithArg i = k.arg i := by
  obtain ⟨k, hstep, hnum⟩ := smallBoot_shell_step (boot_usedBelow smallBoot blankKernel)
    (by decide) (boot_numProcessExecuting smallBoot blankKernel) 0
  have hne : (k.onTerminal 0).numProcessExecuting ≠ 6 := by
    rw [Kernel.onTerminal_numProcessExecuting, hnum]
    decide
  have hret := sysExecute_unknown (a := smallArgs unknownNameWithArg) hne rfl
    unknownNameWithArg_unknown
  have hstep' : ProcStep smallBoot k (0, .execute (smallArgs unknownNameWithArg))
      (parseCommand unknownNameWithArg (k.onTerminal 0)) :=
    ⟨fun a ha => absurd ha (by simp), by simp only [runCall, hret, Outcome.state]⟩
  have hrun := run_inPlace (Run.snoc (Run.single hstep) hstep') fun label hlabel => by
    simp only [List.singleton_append, List.mem_cons, List.not_mem_nil, or_false] at hlabel
    rcases hlabel with rfl | rfl
    · exact plain_shell
    · exact plain_unknownWithArg
  refine ⟨_, hrun, hnum, ?_, fun i hi => (arg_parseCommand _ _ hi).symm⟩
  rw [parseCommand_argLength]
  decide

/-- A call that returns has left everything as it was if and only if the table was
full, or the command was the null pointer, or there is no file of the name and the
argument is stored already. A file that is no program is always seen, in the count. -/
theorem failed_execute_unchanged_iff (b : Boot) (a : ExecArgs) (k k' : Kernel)
    (h : sysExecuteInPlace b a k = some (.returned k')) :
    Unchanged k k' ↔ FailsUnseen b a k := by
  rcases sysExecuteInPlace_returned h with ⟨hearly, rfl⟩ |
    ⟨command, k₁, hnum, hcommand, hparsed, hrest⟩
  · refine iff_of_true (Unchanged.refl k') ?_
    rcases hearly with hfull | hnull
    · exact Or.inl hfull
    · exact Or.inr (Or.inl hnull)
  · -- only the last case of `FailsUnseen` is left
    have hlast : FailsUnseen b a k ↔
        findDirentry b (commandName (seenCommand command)) = none ∧ StoredAlready command k := by
      unfold FailsUnseen
      simp only [hnum, hcommand, reduceCtorEq, Option.some.injEq, false_or, exists_eq_left']
    rw [hlast]
    rcases hrest with ⟨hidx, rfl⟩ | ⟨idx, hidx, rfl⟩
    · rw [hparsed.unchanged_iff]
      exact (and_iff_right hidx).symm
    · refine iff_of_false (dropCount_changes hparsed.numProcessExecuting) ?_
      rw [hidx]
      exact fun hnone => absurd hnone.1 (by simp)

/-- The shell asks for the unknown name again. -/
theorem failed_execute_unchanged_iff_again : ∃ k k',
    Run (guarded FitsBuffer (ProcStepInPlace smallBoot)) (boot smallBoot blankKernel)
        [(0, .execute (smallArgs shellCommand)), (0, .execute (smallArgs unknownNameWithArg))] k ∧
      sysExecuteInPlace smallBoot (smallArgs unknownNameWithArg) (k.onTerminal 0) =
        some (.returned k') ∧
      k.numProcessExecuting = 1 ∧ Unchanged (k.onTerminal 0) k' := by
  obtain ⟨k, hrun, hnum, hlength, harg⟩ := exists_failed_call
  have hne : (k.onTerminal 0).numProcessExecuting ≠ 6 := by
    rw [Kernel.onTerminal_numProcessExecuting, hnum]
    decide
  have hret := sysExecute_unknown (a := smallArgs unknownNameWithArg) hne rfl
    unknownNameWithArg_unknown
  have hcall : sysExecuteInPlace smallBoot (smallArgs unknownNameWithArg) (k.onTerminal 0) =
      some _ := (plain_unknownWithArg.runCallInPlace smallBoot _).trans (congrArg some hret)
  refine ⟨k, _, hrun, hcall, hnum, (failed_execute_unchanged_iff smallBoot _ _ _ hcall).mpr ?_⟩
  refine Or.inr (Or.inr ⟨unknownNameWithArg, rfl, ?_, storedAlready_of_fits (by decide) harg ?_⟩)
  · rw [seenCommand_of_ne (by decide)]
    exact unknownNameWithArg_unknown
  · rw [Kernel.onTerminal_argLength, hlength]
    decide

/-- With a shell running, a call for an unknown name changes the length of the
argument that the shell gets, and a call for a file that is no program changes the
count of the processes. -/
theorem failed_execute_changes : ∃ k labels,
    Run (ProcStepInPlace smallBoot) (boot smallBoot blankKernel) labels k ∧
      (∃ k', sysExecuteInPlace smallBoot (smallArgs unknownName) (k.onTerminal 0) =
          some (.returned k') ∧
        k.argLength = 1 ∧ k'.argLength = 0 ∧ ¬Unchanged (k.onTerminal 0) k') ∧
      ∃ k', sysExecuteInPlace smallBoot (smallArgs noteName) (k.onTerminal 0) =
          some (.returned k') ∧
        k.numProcessExecuting = 1 ∧ k'.numProcessExecuting = 0 ∧
        ¬Unchanged (k.onTerminal 0) k' := by
  obtain ⟨k, hrun, hnum, hlength, -⟩ := exists_failed_call
  have hne : (k.onTerminal 0).numProcessExecuting ≠ 6 := by
    rw [Kernel.onTerminal_numProcessExecuting, hnum]
    decide
  refine ⟨k, _, hrun.of_guarded, ?_, ?_⟩
  · have hret := sysExecute_unknown (b := smallBoot) (a := smallArgs unknownName) hne rfl
      (by decide +kernel)
    have hzero : (parseCommand unknownName (k.onTerminal 0)).argLength = 0 := by
      rw [parseCommand_argLength]
      decide
    refine ⟨_, (plain_unknown.runCallInPlace smallBoot _).trans (congrArg some hret), hlength,
      hzero, fun hk => ?_⟩
    have hsame := hk.argLength
    rw [hzero, Kernel.onTerminal_argLength, hlength] at hsame
    exact absurd hsame (by decide)
  · obtain ⟨hrejected, k', hret⟩ := smallBoot_note hne
    obtain ⟨-, hcount | ⟨hnot, -⟩⟩ := sysExecute_returned hret
    · have hzero : k'.numProcessExecuting = 0 := by
        rw [hcount.2, Kernel.onTerminal_numProcessExecuting, hnum]
        decide
      refine ⟨k', (plain_note.runCallInPlace smallBoot _).trans (congrArg some hret), hnum, hzero,
        fun hk => ?_⟩
      have hsame := hk.numProcessExecuting
      rw [hzero, Kernel.onTerminal_numProcessExecuting, hnum] at hsame
      exact absurd hsame (by decide)
    · exact absurd hrejected hnot

end Ece391Kernel
