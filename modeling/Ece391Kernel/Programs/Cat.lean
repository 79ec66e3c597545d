import Ece391Kernel.Programs.Streams

/-!
# `cat`

The places of `cat` are before its calls. Whatever the rest of the system does, short of control-C
and of an argument that is too long, the program writes the contents of the file that its argument
names, and nothing else, and exits.
-/

namespace Ece391Kernel

open TransitionSystem LinkedStack ByteMemory Programs

/-- Where `cat` is: before a call, with the values of its variables, or behind its end. -/
inductive CatPlace
  | start (buf : Int → UInt8)
  | complaint (text : String) (code : Int)
  | named (buf : Int → UInt8)
  | reading (fd : Int) (buf : Int → UInt8)
  | writing (fd cnt : Int) (buf : Int → UInt8)
  | exited (code : Int)

/-- `main` of `ece391cat.c`. -/
def cat : CatPlace → Action UserCall UserReturn CatPlace
  | .start buf => .call (.getargs buf 1024) fun r =>
      if 0 ≠ r.ret then .complaint "could not read arguments\n" 3 else .named (r.buf.getD buf)
  | .complaint text code => .call (fdputs 1 (message text)) fun _ => .exited code
  | .named buf => .call (.openFile buf) fun r =>
      if -1 = r.ret then .complaint "file not found\n" 2 else .reading r.ret buf
  | .reading fd buf => .call (.read fd buf 1024) fun r =>
      if 0 ≠ r.ret then
        if -1 = r.ret then .complaint "file read failed\n" 3
        else .writing fd r.ret (r.buf.getD buf)
      else .exited 0
  | .writing fd cnt buf => .call (.write 1 buf cnt) fun r =>
      if -1 = r.ret then .exited 3 else .reading fd buf
  | .exited code => .exit code

/-! ## What it should do -/

/-- The string that the first call has returned, if it has succeeded. -/
def argument (trace : List (UserCall × UserReturn)) : Option CString :=
  match trace with
  | (.getargs buf _, r) :: _ =>
      if r.ret = 0 then some (bufferString (r.buf.getD buf)) else none
  | _ => none

theorem argument_concat {trace : List (UserCall × UserReturn)} (hne : trace ≠ [])
    (e : UserCall × UserReturn) : argument (trace ++ [e]) = argument trace := by
  cases trace with
  | nil => exact absurd rfl hne
  | cons first rest =>
      obtain ⟨c, r⟩ := first
      cases c <;> rfl

/-- What `cat` prints for its argument, and its exit code. -/
def catOutcome (b : Boot) (d : Nat) (name : Option CString) : Int × List UInt8 :=
  match name with
  | none => (3, ece391Fdputs (message "could not read arguments\n"))
  | some name =>
      match findDirentry b name.at with
      | none => (2, ece391Fdputs (message "file not found\n"))
      | some idx => (0, contentOf b d idx)

/-! ## The outline -/

/-- What holds at the places of `cat`. While it reads, the descriptor yields what is still to be
written. -/
def catHolds (b : Boot) (d : Nat) (place : CatPlace) (trace : List (UserCall × UserReturn))
    (table : Nat → FileDesc) : Prop :=
  IoOpen table ∧
  match place with
  | .start _ => trace = [] ∧ NewTable table
  | .complaint text code => trace ≠ [] ∧ trace.length ≤ 2 ∧ written trace = [] ∧
      catOutcome b d (argument trace) = (code, ece391Fdputs (message text))
  | .named buf => trace.length = 1 ∧ NewTable table ∧ written trace = [] ∧
      argument trace = some (bufferString buf)
  | .reading fd _ => trace ≠ [] ∧ trace.length ≤ 2 * (written trace).length + 2 ∧
      fd = firstRegFile ∧ ∃ rest, Yields b 1024 rest (table firstRegFile) ∧
        catOutcome b d (argument trace) = (0, written trace ++ rest.flatten)
  | .writing fd cnt buf => trace ≠ [] ∧ trace.length ≤ 2 * (written trace).length + 3 ∧
      fd = firstRegFile ∧ ∃ piece rest, piece ≠ [] ∧ cnt = piece.length ∧
        bufferBytes (some buf) cnt = piece ∧ Yields b 1024 rest (table firstRegFile) ∧
        catOutcome b d (argument trace) = (0, written trace ++ piece ++ rest.flatten)
  | .exited code => trace.length ≤ 2 * (written trace).length + 3 ∧
      catOutcome b d (argument trace) = (code, written trace)

section Steps

variable {b : Boot} {d : Nat} {place : CatPlace} {trace : List (UserCall × UserReturn)}
  {k k' : Kernel} {c : UserCall} {next : UserReturn → CatPlace} {r : UserReturn}

/-- `cat` opens its file on the first free descriptor. -/
theorem catHolds_open (himage : GoodImage b d) {buf : Int → UInt8}
    (h : catHolds b d (.named buf) trace k.table)
    (hperform : performCall b (.openFile buf) k = some (r, k')) :
    catHolds b d (if -1 = r.ret then .complaint "file not found\n" 2 else .reading r.ret buf)
      (trace ++ [(.openFile buf, r)]) k'.table := by
  obtain ⟨hio, hlen, hnew, hwritten, harg⟩ := h
  have hne : trace ≠ [] := by
    rintro rfl
    exact absurd hlen (by decide)
  have harg' := argument_concat hne (.openFile buf, r)
  cases hidx : findDirentry b (bufferString buf).at with
  | none =>
      obtain ⟨rfl, rfl⟩ := Prod.mk.inj (Option.some.inj
        ((performCall_open_none hidx k).symm.trans hperform))
      rw [if_pos rfl]
      refine ⟨hio, by simp, by simp [hlen], by simpa using hwritten, ?_⟩
      rw [harg', harg]
      simp only [catOutcome, hidx]
  | some idx =>
      have hsize : dirNameLength ≤ 1024 := by decide
      obtain ⟨k₁, hcall, hyields, -, hothers⟩ :=
        performCall_open himage hsize (by decide) hidx hnew.freeDesc
      obtain ⟨rfl, rfl⟩ := Prod.mk.inj (Option.some.inj (hcall.symm.trans hperform))
      rw [if_neg (by decide)]
      refine ⟨hio.of_other (Nat.le_refl _) hothers, by simp, by simp [hlen, hwritten], rfl, _,
        hyields, ?_⟩
      rw [harg', harg, pieces_flatten b d (by decide)]
      simp only [catOutcome, hidx, written_concat_open, hwritten, List.nil_append]

/-- A read delivers the next piece of the file, or its end. -/
theorem catHolds_read {fd : Int} {buf : Int → UInt8}
    (h : catHolds b d (.reading fd buf) trace k.table)
    (hperform : performCall b (.read fd buf 1024) k = some (r, k')) :
    catHolds b d (if 0 ≠ r.ret then
        if -1 = r.ret then .complaint "file read failed\n" 3
        else .writing fd r.ret (r.buf.getD buf)
      else .exited 0) (trace ++ [(.read fd buf 1024, r)]) k'.table := by
  obtain ⟨hio, hne, hlen, rfl, rest, hyields, houtcome⟩ := h
  have harg' := argument_concat hne (.read firstRegFile buf 1024, r)
  cases rest with
  | nil =>
      obtain ⟨k₁, hcall, hothers⟩ := hyields.read_end (Nat.le_refl _) (by decide) buf
      obtain ⟨rfl, rfl⟩ := Prod.mk.inj (Option.some.inj (hcall.symm.trans hperform))
      rw [if_neg (by simp)]
      refine ⟨hio.of_other (Nat.le_refl _) hothers, ?_, ?_⟩
      · simp only [List.length_append, List.length_singleton, written_concat_read]
        omega
      · rw [harg', houtcome]
        simp
  | cons piece rest =>
      obtain ⟨hpiece, -, k₁, hcall, hrest, hothers⟩ :=
        hyields.read_piece (Nat.le_refl _) (by decide) buf
      obtain ⟨rfl, rfl⟩ := Prod.mk.inj (Option.some.inj (hcall.symm.trans hperform))
      have hpos := List.length_pos_iff.mpr hpiece
      rw [if_pos (by simp only; omega), if_neg (by simp only; omega)]
      refine ⟨hio.of_other (Nat.le_refl _) hothers, by simp, ?_, rfl, piece, rest, hpiece, rfl,
        bufferBytes_storeFrom buf piece, hrest, ?_⟩
      · simp only [List.length_append, List.length_singleton, written_concat_read]
        omega
      · rw [harg', houtcome]
        simp

/-- Every call leads from what holds before it to what holds behind it. -/
theorem cat_outlined (himage : GoodImage b d) : Outlined b cat (catHolds b d) := by
  intro place trace k c next r k' h haction hperform
  cases place with
  | start buf =>
      obtain ⟨rfl, rfl⟩ := Action.call.inj haction
      obtain ⟨hio, rfl, hnew⟩ := h
      unfold performCall at hperform
      simp only [Option.some.injEq, Prod.mk.injEq] at hperform
      obtain ⟨rfl, rfl⟩ := hperform
      dsimp only
      by_cases hret : (sysGetargs (some buf) 1024 k).1 = 0
      · rw [if_neg (by simp [hret])]
        exact ⟨hio, rfl, hnew, written_concat_getargs [] _ _ _, by simp [argument, hret]⟩
      · rw [if_pos (Ne.symm hret)]
        refine ⟨hio, by simp, by simp, written_concat_getargs [] _ _ _, ?_⟩
        simp [argument, hret, catOutcome]
  | complaint text code =>
      obtain ⟨rfl, rfl⟩ := Action.call.inj haction
      obtain ⟨hio, hne, hlen, hwritten, houtcome⟩ := h
      refine ⟨?_, ?_, ?_⟩
      · rw [performCall_fdputs hio hperform]
        exact hio
      · simp only [List.length_append, List.length_singleton]
        omega
      · rw [argument_concat hne, written_concat_fdputs, hwritten]
        exact houtcome
  | named buf =>
      obtain ⟨rfl, rfl⟩ := Action.call.inj haction
      exact catHolds_open himage h hperform
  | reading fd buf =>
      obtain ⟨rfl, rfl⟩ := Action.call.inj haction
      exact catHolds_read h hperform
  | writing fd cnt buf =>
      obtain ⟨rfl, rfl⟩ := Action.call.inj haction
      obtain ⟨hio, hne, hlen, rfl, piece, rest, hpiece, rfl, hbytes, hyields, houtcome⟩ := h
      have hpos := List.length_pos_iff.mpr hpiece
      obtain ⟨rfl, rfl⟩ := Prod.mk.inj (Option.some.inj
        ((performCall_stdout b hio buf piece.length).symm.trans hperform))
      dsimp only
      rw [if_neg (by omega)]
      refine ⟨?_, by simp, ?_, rfl, rest, ?_, ?_⟩
      · rw [terminalWrite_table]
        exact hio
      · simp only [List.length_append, List.length_singleton, written_concat_write, hbytes]
        omega
      · rw [terminalWrite_table]
        exact hyields
      · rw [argument_concat hne, houtcome, written_concat_write, hbytes]
  | exited code => exact absurd haction (by simp [cat])

/-- No call of `cat` waits. -/
theorem cat_answered (b : Boot) (d : Nat) : Answered b cat (catHolds b d) := by
  intro place trace k c next h haction
  cases place with
  | start buf =>
      obtain ⟨rfl, rfl⟩ := Action.call.inj haction
      exact ⟨_, _, rfl⟩
  | complaint text code =>
      obtain ⟨rfl, rfl⟩ := Action.call.inj haction
      exact ⟨_, _, performCall_stdout b h.1 _ _⟩
  | named buf =>
      obtain ⟨rfl, rfl⟩ := Action.call.inj haction
      exact ⟨_, _, rfl⟩
  | reading fd buf =>
      obtain ⟨rfl, rfl⟩ := Action.call.inj haction
      obtain ⟨-, -, -, rfl, rest, hyields, -⟩ := h
      exact hyields.read (Nat.le_refl _) (by decide) buf
  | writing fd cnt buf =>
      obtain ⟨rfl, rfl⟩ := Action.call.inj haction
      exact ⟨_, _, performCall_stdout b h.1 buf cnt⟩
  | exited code => exact absurd haction (by simp [cat])

/-- What has been written is a beginning of what should be, and all of it at the exit. -/
theorem catHolds_written {table : Nat → FileDesc} (h : catHolds b d place trace table)
    (hne : trace ≠ []) :
    written trace <+: (catOutcome b d (argument trace)).2 ∧
      trace.length ≤ 2 * (written trace).length + 3 := by
  obtain ⟨-, hplace⟩ := h
  cases place with
  | start buf => exact absurd hplace.1 hne
  | complaint text code =>
      obtain ⟨-, hlen, hwritten, -⟩ := hplace
      rw [hwritten]
      exact ⟨List.nil_prefix, by omega⟩
  | named buf =>
      obtain ⟨hlen, -, hwritten, -⟩ := hplace
      rw [hwritten]
      exact ⟨List.nil_prefix, by omega⟩
  | reading fd buf =>
      obtain ⟨-, hlen, -, rest, -, houtcome⟩ := hplace
      rw [houtcome]
      exact ⟨List.prefix_append _ _, by omega⟩
  | writing fd cnt buf =>
      obtain ⟨-, hlen, -, piece, rest, -, -, -, -, houtcome⟩ := hplace
      rw [houtcome, List.append_assoc]
      exact ⟨List.prefix_append _ _, hlen⟩
  | exited code =>
      obtain ⟨hlen, houtcome⟩ := hplace
      rw [houtcome]
      exact ⟨List.prefix_refl _, hlen⟩

end Steps

/-- In every interleaving in which no key is control-C and the arguments of the other processes fit
into the buffer, `cat` writes a beginning of the file that its argument names, and nothing else;
when it exits it has written all of it, or the message for its failure. It never waits, as reads of
the clock, if this is the file, are taken to return, and it makes at most two calls for every byte,
and three more. -/
theorem cat_writes_file {b : Boot} {d : Nat} (himage : GoodImage b d) {t : Fin 3} {n : Fin 6}
    {k₀ : Kernel} (hstart : RunsOn t n k₀) (hnew : NewTable (k₀.descs n)) {buf : Int → UInt8}
    {events : List (Event UserCall UserReturn)} {m : Config Kernel CatPlace}
    (hrun : Run (ProgramStep b t cat) ⟨k₀, .start buf⟩ events m) :
    (calls events ≠ [] →
      written (calls events) <+: (catOutcome b d (argument (calls events))).2 ∧
        (calls events).length ≤ 2 * (written (calls events)).length + 3) ∧
    (∀ code, m.place = .exited code →
      catOutcome b d (argument (calls events)) = (code, written (calls events))) ∧
    CanGoOn b cat t m := by
  obtain ⟨hruns, h⟩ := (cat_outlined himage).run hrun hstart ⟨hnew.io, rfl, hnew⟩
  refine ⟨catHolds_written h, fun code hcode => ?_, (cat_answered b d).canGoOn hruns h⟩
  rw [hcode] at h
  exact h.2.2

theorem catOutcome_sampleBoot (name : Option CString) :
    (catOutcome sampleBoot 5 name).2.length ≤ 28 := by
  cases name with
  | none => decide
  | some name =>
      cases hidx : findDirentry sampleBoot name.at with
      | none =>
          simp only [catOutcome, hidx]
          decide
      | some idx =>
          simp only [catOutcome, hidx]
          have hcount : dirCount sampleBoot = 5 := by decide +kernel
          have hlt := (findDirentry_eq_some.mp hidx).lt
          have hall : ∀ i < 5, (contentOf sampleBoot 5 i).length ≤ 28 := by decide +kernel
          exact hall idx (by omega)

/-- A process that is alone on the sample image exits. -/
theorem cat_sample_exits (others : Kernel → Kernel → Prop) (argument : List UInt8) (k₀ : Kernel) :
    ∃ events k code, Run (Step cat (Performs sampleBoot 0) others)
      ⟨oneProcess argument k₀, .start fun _ => 0⟩ events ⟨k, .exited code⟩ := by
  have hnew := oneProcess_newTable argument k₀
  obtain ⟨events, ⟨k, place⟩, hrun, h, hend⟩ :=
    (cat_outlined sampleBoot_goodImage).alone (cat_answered sampleBoot 5) others
      (m := ⟨oneProcess argument k₀, CatPlace.start fun _ => 0⟩) (t := 0) (Run.nil _) rfl
      ⟨hnew.io, rfl, hnew⟩ 100
  rw [List.nil_append] at hrun h
  have hexit : ∃ code, cat place = .exit code := by
    refine hend.resolve_left fun hlen => ?_
    obtain ⟨hbegin, hle⟩ := catHolds_written h (List.ne_nil_of_length_pos (by omega))
    have hshort := catOutcome_sampleBoot (Ece391Kernel.argument (calls events))
    have hwritten := hbegin.length_le
    omega
  obtain ⟨code, hcode⟩ := hexit
  cases place with
  | exited code => exact ⟨events, k, code, hrun⟩
  | start buf => exact absurd hcode (by simp [cat])
  | complaint text code => exact absurd hcode (by simp [cat])
  | named buf => exact absurd hcode (by simp [cat])
  | reading fd buf => exact absurd hcode (by simp [cat])
  | writing fd cnt buf => exact absurd hcode (by simp [cat])

/-- A process that has been asked for the file `note` is alone, and exits. -/
theorem cat_writes_file_note : ∃ events k code,
    Run (ProgramStep sampleBoot 0 cat) ⟨oneProcess noteName.bytes blankKernel, .start fun _ => 0⟩
      events ⟨k, .exited code⟩ ∧
    catOutcome sampleBoot 5 (argument (calls events)) = (code, written (calls events)) := by
  obtain ⟨events, k, code, hrun⟩ :=
    cat_sample_exits (Elsewhere sampleBoot 0) noteName.bytes blankKernel
  have hends := cat_writes_file sampleBoot_goodImage (oneProcess_runsOn _ _)
    (oneProcess_newTable _ _) hrun
  exact ⟨events, k, code, hrun, hends.2.1 code rfl⟩

end Ece391Kernel
