import Ece391Kernel.Grep.Search
import Ece391Kernel.Programs.Streams

/-!
# `ls`

The program opens the directory and writes the names that the reads deliver, each with a newline
that it stores behind the name.
-/

namespace Ece391Kernel

open TransitionSystem ByteMemory Programs

/-- Where `ls` is: before a call, or behind its end. -/
inductive LsPlace
  | start (buf : Int → UInt8)
  | complaint (text : String) (code : Int)
  | reading (fd : Int) (buf : Int → UInt8)
  | writing (fd cnt : Int) (buf : Int → UInt8)
  | exited (code : Int)

/-- `main` of `ece391ls.c`. -/
def ls : LsPlace → Action UserCall UserReturn LsPlace
  | .start buf => .call (.openFile (constant ".")) fun r =>
      if -1 = r.ret then .complaint "directory open failed\n" 2 else .reading r.ret buf
  | .complaint text code => .call (fdputs 1 (message text)) fun _ => .exited code
  | .reading fd buf => .call (.read fd buf 32) fun r =>
      if 0 ≠ r.ret then
        if -1 = r.ret then .complaint "directory entry read failed\n" 3
        else .writing fd r.ret (Function.update (r.buf.getD buf) r.ret 0x0A)
      else .exited 0
  | .writing fd cnt buf => .call (.write 1 buf (cnt + 1)) fun r =>
      if -1 = r.ret then .exited 3 else .reading fd buf
  | .exited code => .exit code

/-- Each piece on a line of its own. -/
def onLines (names : List (List UInt8)) : List UInt8 := names.flatMap (· ++ [0x0A])

/-- What `ls` prints, and its exit code. -/
def lsOutcome (b : Boot) (d : Nat) : Int × List UInt8 :=
  match findDirentry b dotName.at with
  | none => (2, ece391Fdputs (message "directory open failed\n"))
  | some idx => (0, onLines (pieces b d 32 idx))

/-- What holds at the places of `ls`. Every store behind a name is in the buffer of 33 bytes. -/
def lsHolds (b : Boot) (d : Nat) (place : LsPlace) (trace : List (UserCall × UserReturn))
    (table : Nat → FileDesc) : Prop :=
  IoOpen table ∧
  match place with
  | .start _ => trace = [] ∧ NewTable table
  | .complaint text code => trace.length = 1 ∧ written trace = [] ∧
      lsOutcome b d = (code, ece391Fdputs (message text))
  | .reading fd _ => trace.length ≤ (written trace).length + 1 ∧ fd = firstRegFile ∧
      ∃ rest, Yields b 32 rest (table firstRegFile) ∧
        lsOutcome b d = (0, written trace ++ onLines rest)
  | .writing fd cnt buf => trace.length ≤ (written trace).length + 2 ∧ fd = firstRegFile ∧
      ∃ piece rest, piece ≠ [] ∧ cnt = piece.length ∧ cnt ≤ 32 ∧
        bufferBytes (some buf) (cnt + 1) = piece ++ [0x0A] ∧
        Yields b 32 rest (table firstRegFile) ∧
        lsOutcome b d = (0, written trace ++ (piece ++ [0x0A]) ++ onLines rest)
  | .exited code => trace.length ≤ (written trace).length + 2 ∧
      lsOutcome b d = (code, written trace)

theorem bufferString_dot : bufferString (constant ".") = dotName := by
  refine bufferString_eq ?_
  have hdot : Spells (message ".") [0x2E] := spells_message rfl (by simp) (by simp)
  refine ⟨hdot.ne_zero, hdot.length_lt, fun i hi => ?_⟩
  unfold stringAt constant
  rw [zero_add, Int.toNat_natCast]
  exact hdot.byte_eq i hi

section Steps

variable {b : Boot} {d : Nat} {place : LsPlace} {trace : List (UserCall × UserReturn)}
  {k k' : Kernel} {r : UserReturn}

theorem lsHolds_open (himage : GoodImage b d) {buf : Int → UInt8}
    (h : lsHolds b d (.start buf) trace k.table)
    (hperform : performCall b (.openFile (constant ".")) k = some (r, k')) :
    lsHolds b d (if -1 = r.ret then .complaint "directory open failed\n" 2 else .reading r.ret buf)
      (trace ++ [(.openFile (constant "."), r)]) k'.table := by
  obtain ⟨hio, rfl, hnew⟩ := h
  have hname := bufferString_dot
  cases hidx : findDirentry b dotName.at with
  | none =>
      rw [← hname] at hidx
      obtain ⟨rfl, rfl⟩ := Prod.mk.inj (Option.some.inj
        ((performCall_open_none hidx k).symm.trans hperform))
      rw [if_pos rfl]
      rw [hname] at hidx
      exact ⟨hio, rfl, rfl, by simp only [lsOutcome, hidx]⟩
  | some idx =>
      have houtcome : lsOutcome b d = (0, onLines (pieces b d 32 idx)) := by
        simp only [lsOutcome, hidx]
      rw [← hname] at hidx
      have hsize : dirNameLength ≤ 32 := by decide
      obtain ⟨k₁, hcall, hyields, -, hothers⟩ :=
        performCall_open himage hsize (by decide) hidx hnew.freeDesc
      obtain ⟨rfl, rfl⟩ := Prod.mk.inj (Option.some.inj (hcall.symm.trans hperform))
      rw [if_neg (by decide)]
      exact ⟨hio.of_other (Nat.le_refl _) hothers, Nat.le_add_left _ _, rfl, _, hyields, houtcome⟩

/-- A read delivers the next name, and there is room for the newline behind it. -/
theorem lsHolds_read {fd : Int} {buf : Int → UInt8}
    (h : lsHolds b d (.reading fd buf) trace k.table)
    (hperform : performCall b (.read fd buf 32) k = some (r, k')) :
    lsHolds b d (if 0 ≠ r.ret then
        if -1 = r.ret then .complaint "directory entry read failed\n" 3
        else .writing fd r.ret (Function.update (r.buf.getD buf) r.ret 0x0A)
      else .exited 0) (trace ++ [(.read fd buf 32, r)]) k'.table := by
  obtain ⟨hio, hlen, rfl, rest, hyields, houtcome⟩ := h
  cases rest with
  | nil =>
      obtain ⟨k₁, hcall, hothers⟩ := hyields.read_end (Nat.le_refl _) (by decide) buf
      obtain ⟨rfl, rfl⟩ := Prod.mk.inj (Option.some.inj (hcall.symm.trans hperform))
      rw [if_neg (by simp)]
      refine ⟨hio.of_other (Nat.le_refl _) hothers, ?_, ?_⟩
      · simp only [List.length_append, List.length_singleton, written_concat_read]
        omega
      · rw [houtcome]
        simp [onLines]
  | cons piece rest =>
      obtain ⟨hpiece, hroom, k₁, hcall, hrest, hothers⟩ :=
        hyields.read_piece (Nat.le_refl _) (by decide) buf
      obtain ⟨rfl, rfl⟩ := Prod.mk.inj (Option.some.inj (hcall.symm.trans hperform))
      have hpos := List.length_pos_iff.mpr hpiece
      have hline : Function.update (storeFrom buf 0 piece) piece.length 0x0A =
          storeFrom buf 0 (piece ++ [0x0A]) := by
        rw [storeFrom_append, zero_add]
        rfl
      rw [if_pos (by simp only; omega), if_neg (by simp only; omega)]
      refine ⟨hio.of_other (Nat.le_refl _) hothers, ?_, rfl, piece, rest, hpiece, rfl,
        by simp only; omega, ?_, hrest, ?_⟩
      · simp only [List.length_append, List.length_singleton, written_concat_read]
        omega
      · have hbytes := bufferBytes_storeFrom buf (piece ++ [0x0A])
        rw [List.length_append] at hbytes
        rw [Option.getD_some, hline]
        exact hbytes
      · rw [houtcome]
        simp [onLines]

/-- Every call leads from what holds before it to what holds behind it. -/
theorem ls_outlined (himage : GoodImage b d) : Outlined b ls (lsHolds b d) := by
  intro place trace k c next r k' h haction hperform
  cases place with
  | start buf =>
      obtain ⟨rfl, rfl⟩ := Action.call.inj haction
      exact lsHolds_open himage h hperform
  | complaint text code =>
      obtain ⟨rfl, rfl⟩ := Action.call.inj haction
      obtain ⟨hio, hlen, hwritten, houtcome⟩ := h
      refine ⟨?_, ?_, ?_⟩
      · rw [performCall_fdputs hio hperform]
        exact hio
      · simp only [List.length_append, List.length_singleton]
        omega
      · rw [written_concat_fdputs, hwritten]
        exact houtcome
  | reading fd buf =>
      obtain ⟨rfl, rfl⟩ := Action.call.inj haction
      exact lsHolds_read h hperform
  | writing fd cnt buf =>
      obtain ⟨rfl, rfl⟩ := Action.call.inj haction
      obtain ⟨hio, hlen, rfl, piece, rest, hpiece, rfl, -, hbytes, hyields, houtcome⟩ := h
      have hpos := List.length_pos_iff.mpr hpiece
      obtain ⟨rfl, rfl⟩ := Prod.mk.inj (Option.some.inj
        ((performCall_stdout b hio buf (piece.length + 1)).symm.trans hperform))
      dsimp only
      rw [if_neg (by omega)]
      refine ⟨?_, ?_, rfl, rest, ?_, ?_⟩
      · rw [terminalWrite_table]
        exact hio
      · simp only [List.length_append, List.length_singleton, written_concat_write, hbytes]
        omega
      · rw [terminalWrite_table]
        exact hyields
      · rw [houtcome, written_concat_write, hbytes]
  | exited code => exact absurd haction (by simp [ls])

/-- No call of `ls` waits. -/
theorem ls_answered (b : Boot) (d : Nat) : Answered b ls (lsHolds b d) := by
  intro place trace k c next h haction
  cases place with
  | start buf =>
      obtain ⟨rfl, rfl⟩ := Action.call.inj haction
      exact ⟨_, _, rfl⟩
  | complaint text code =>
      obtain ⟨rfl, rfl⟩ := Action.call.inj haction
      exact ⟨_, _, performCall_stdout b h.1 _ _⟩
  | reading fd buf =>
      obtain ⟨rfl, rfl⟩ := Action.call.inj haction
      obtain ⟨-, -, rfl, rest, hyields, -⟩ := h
      exact hyields.read (Nat.le_refl _) (by decide) buf
  | writing fd cnt buf =>
      obtain ⟨rfl, rfl⟩ := Action.call.inj haction
      exact ⟨_, _, performCall_stdout b h.1 buf _⟩
  | exited code => exact absurd haction (by simp [ls])

/-- What has been written is a beginning of what should be. -/
theorem lsHolds_written {table : Nat → FileDesc} (h : lsHolds b d place trace table) :
    written trace <+: (lsOutcome b d).2 ∧ trace.length ≤ (written trace).length + 2 := by
  obtain ⟨-, hplace⟩ := h
  cases place with
  | start buf =>
      obtain ⟨rfl, -⟩ := hplace
      exact ⟨List.nil_prefix, Nat.zero_le _⟩
  | complaint text code =>
      obtain ⟨hlen, hwritten, -⟩ := hplace
      rw [hwritten]
      exact ⟨List.nil_prefix, by omega⟩
  | reading fd buf =>
      obtain ⟨hlen, -, rest, -, houtcome⟩ := hplace
      rw [houtcome]
      exact ⟨List.prefix_append _ _, by omega⟩
  | writing fd cnt buf =>
      obtain ⟨hlen, -, piece, rest, -, -, -, -, -, houtcome⟩ := hplace
      rw [houtcome, List.append_assoc]
      exact ⟨List.prefix_append _ _, hlen⟩
  | exited code =>
      obtain ⟨hlen, houtcome⟩ := hplace
      rw [houtcome]
      exact ⟨List.prefix_refl _, hlen⟩

/-- A write of `ls` takes no more than its buffer of 33 bytes. -/
theorem lsHolds_room {table : Nat → FileDesc} {fd cnt : Int} {buf : Int → UInt8}
    (h : lsHolds b d (.writing fd cnt buf) trace table) : 0 ≤ cnt ∧ cnt < 33 := by
  obtain ⟨-, -, -, piece, rest, -, rfl, hle, -⟩ := h
  omega

end Steps

/-- In every interleaving in which no key is control-C and the arguments of the other processes fit
into the buffer, `ls` writes a beginning of the list of names, each on its line, and nothing else;
when it exits it has written the whole list, or the message for its failure. It stores no byte
outside its buffer, it never waits, and it makes at most two calls more than it writes bytes. -/
theorem ls_lists_directory {b : Boot} {d : Nat} (himage : GoodImage b d) {t : Fin 3} {n : Fin 6}
    {k₀ : Kernel} (hstart : RunsOn t n k₀) (hnew : NewTable (k₀.descs n)) {buf : Int → UInt8}
    {events : List (Event UserCall UserReturn)} {m : Config Kernel LsPlace}
    (hrun : Run (ProgramStep b t ls) ⟨k₀, .start buf⟩ events m) :
    written (calls events) <+: (lsOutcome b d).2 ∧
    (calls events).length ≤ (written (calls events)).length + 2 ∧
    (∀ code, m.place = .exited code → lsOutcome b d = (code, written (calls events))) ∧
    (∀ fd cnt buf, m.place = .writing fd cnt buf → 0 ≤ cnt ∧ cnt < 33) ∧
    CanGoOn b ls t m := by
  obtain ⟨hruns, h⟩ := (ls_outlined himage).run hrun hstart ⟨hnew.io, rfl, hnew⟩
  obtain ⟨hbegin, hlen⟩ := lsHolds_written h
  refine ⟨hbegin, hlen, fun code hcode => ?_, fun fd cnt buf hplace => ?_,
    (ls_answered b d).canGoOn hruns h⟩
  · rw [hcode] at h
    exact h.2.2
  · rw [hplace] at h
    exact lsHolds_room h

/-- A process that is alone lists the five names of the sample image, and exits. -/
theorem ls_lists_directory_sample : ∃ events k,
    Run (ProgramStep sampleBoot 0 ls) ⟨oneProcess [] blankKernel, .start fun _ => 0⟩ events
      ⟨k, .exited 0⟩ ∧
    written (calls events) = onLines ((List.range 5).map (entryName sampleBoot)) := by
  have hnew := oneProcess_newTable [] blankKernel
  obtain ⟨events, ⟨k, place⟩, hrun, h, hend⟩ :=
    (ls_outlined sampleBoot_goodImage).alone (ls_answered sampleBoot 5)
      (Elsewhere sampleBoot 0)
      (m := ⟨oneProcess [] blankKernel, LsPlace.start fun _ => 0⟩) (t := 0) (Run.nil _) rfl
      ⟨hnew.io, rfl, hnew⟩ 100
  rw [List.nil_append] at hrun h
  obtain ⟨hbegin, hle, hexited, -⟩ :=
    ls_lists_directory sampleBoot_goodImage (oneProcess_runsOn [] blankKernel) hnew hrun
  have hidx : findDirentry sampleBoot dotName.at = some 3 := by decide +kernel
  have htype : direntryType sampleBoot 3 = dirFile := by decide +kernel
  have houtcome : lsOutcome sampleBoot 5 =
      (0, onLines ((List.range 5).map (entryName sampleBoot))) := by
    have hnames : namesFrom sampleBoot 5 0 = (List.range 5).map (entryName sampleBoot) := by
      rw [namesFrom, Nat.sub_zero, ← List.range_eq_range']
    simp only [lsOutcome, hidx, pieces, htype]
    rw [if_neg (by decide), if_pos trivial, hnames]
  have hshort : (onLines ((List.range 5).map (entryName sampleBoot))).length ≤ 30 := by
    decide +kernel
  have hexit : ∃ code, ls place = .exit code := by
    refine hend.resolve_left fun hlen => ?_
    have hwritten := hbegin.length_le
    rw [houtcome] at hwritten
    simp only at hwritten
    omega
  obtain ⟨code, hcode⟩ := hexit
  cases place with
  | exited code =>
      have hboth := (hexited code rfl).symm.trans houtcome
      obtain ⟨rfl, hwritten⟩ := Prod.mk.inj hboth
      exact ⟨events, k, hrun, hwritten⟩
  | start buf => exact absurd hcode (by simp [ls])
  | complaint text code => exact absurd hcode (by simp [ls])
  | reading fd buf => exact absurd hcode (by simp [ls])
  | writing fd cnt buf => exact absurd hcode (by simp [ls])

end Ece391Kernel
