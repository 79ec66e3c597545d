import Ece391Kernel.Descriptor.Chunking
import Ece391Kernel.Grep.DoOneFile
import Ece391Kernel.Library.Program
import Ece391Kernel.Printing.Strings
import Ece391Kernel.Process.Failure
import Ece391Kernel.Process.OpenFiles
import Ece391Kernel.Schedule.Display
import Ece391Kernel.Schedule.KeyInterrupt

/-!
# The calls of a user program

The calls that the programs of `syscalls/` make, on the state of the kernel, while the rest of the
system goes on: the timer ticks, the clock and the keyboard interrupt, and the processes of other
terminals open, read and write, start programs and exit. A call is one step here, also a read of
the clock, which is taken to return. What a program relies on is that none of this touches its
descriptors, nor takes its place on its terminal.

Two things are left out that do: control-C, which makes the displayed terminal the executing one,
and the argument of a command that runs past its buffer.
-/

namespace Ece391Kernel

open TransitionSystem LinkedStack Programs

/-! ## The calls -/

/-- The string at a pointer; an address space without a zero byte would have no end of it. -/
def bufferString (buf : Int → UInt8) : CString where
  bytes := stringFrom (stringAt buf 0) (2 ^ 32) 0
  nonzero := stringFrom_nonzero _ _ _

theorem bufferString_eq {buf : Int → UInt8} {str : CString}
    (h : Spells (stringAt buf 0) str.bytes) : bufferString buf = str := by
  obtain ⟨bytes, hbytes⟩ := str
  have hall : (bufferString buf).bytes = bytes :=
    h.stringFrom_eq (Nat.zero_le _) (by simpa using h.length_lt)
  unfold bufferString at hall ⊢
  simp only at hall
  simp only [hall]

/-- The pointer to a string constant. -/
def constant (text : String) : Int → UInt8 := fun i => message text i.toNat

/-- `ece391_getargs`, `ece391_open`, `ece391_read`, `ece391_write` and `ece391_close`, with what
the buffers hold when they are called. -/
inductive UserCall
  | getargs (buf : Int → UInt8) (nbytes : Int)
  | openFile (fname : Int → UInt8)
  | read (fd : Int) (buf : Int → UInt8) (nbytes : Int)
  | write (fd : Int) (buf : Int → UInt8) (nbytes : Int)
  | close (fd : Int)

/-- What a call returns, and what it leaves in the buffer that it fills. -/
structure UserReturn where
  ret : Int
  buf : Buffer

/-- A call of the running process; none while it waits. -/
def performCall (b : Boot) (c : UserCall) (k : Kernel) : Option (UserReturn × Kernel) :=
  match c with
  | .getargs buf nbytes =>
      let r := sysGetargs (some buf) nbytes k
      some (⟨r.1, r.2⟩, k)
  | .openFile fname =>
      let r := sysOpen b (bufferString fname) k
      some (⟨r.1, none⟩, r.2)
  | .read fd buf nbytes =>
      (sysRead b fd (some buf) nbytes k).map fun r => (⟨r.ret, r.buf⟩, r.kernel)
  | .write fd buf nbytes =>
      (sysWrite b fd (some buf) nbytes k).map fun r => (⟨r.1, none⟩, r.2)
  | .close fd =>
      let r := sysClose fd k
      some (⟨r.1, none⟩, r.2)

/-- A call of the process on terminal `t`, which makes it when it runs. -/
def Performs (b : Boot) (t : Fin 3) (c : UserCall) (k : Kernel) (r : UserReturn) (k' : Kernel) :
    Prop :=
  k.executingTerminal = t ∧ performCall b c k = some (r, k')

/-- What may happen that the process on terminal `t` has no part in: no key is control-C, and the
arguments of the other processes fit into the buffer. -/
inductive Elsewhere (b : Boot) (t : Fin 3) : Kernel → Kernel → Prop
  | tick {k k' : Kernel} (a : SwitchArgs) (h : (pitInterrupt b a k).state = some k') :
      Elsewhere b t k k'
  | rtc (k : Kernel) : Elsewhere b t k (rtcInterrupt k)
  | key {k k' : Kernel} (c : UInt8) (kb kb' : Keyboard)
      (h : getScancode b c kb k = some (kb', k')) : Elsewhere b t k k'
  | process {k k' : Kernel} (c : Call) (hother : k.executingTerminal ≠ t)
      (hstarted : 0 < k.current.numProcessExecutingOnTerminal) (hfits : c.Fits)
      (h : CallInPlace b c k k') : Elsewhere b t k k'
  | serve {k k' : Kernel} (c : UserCall) (r : UserReturn) (hother : k.executingTerminal ≠ t)
      (hstarted : 0 < k.current.numProcessExecutingOnTerminal)
      (h : performCall b c k = some (r, k')) : Elsewhere b t k k'

/-- The steps of a program of terminal `t`. -/
abbrev ProgramStep (b : Boot) (t : Fin 3) {L : Type} (program : L → Action UserCall UserReturn L) :=
  Step program (Performs b t) (Elsewhere b t)

/-! ## What a call leaves alone -/

/-- The processes and their terminals are the same, and so are the control blocks, but for that of
the running process. -/
structure CallFrame (k k' : Kernel) : Prop where
  processes : k'.processes = k.processes
  numProcessExecuting : k'.numProcessExecuting = k.numProcessExecuting
  executingTerminal : k'.executingTerminal = k.executingTerminal
  links : ∀ addr, (k'.pcbs addr).processNum = (k.pcbs addr).processNum ∧
    (k'.pcbs addr).parentPcb = (k.pcbs addr).parentPcb
  terminals : ∀ t, (k'.terminals t).numProcessExecutingOnTerminal =
      (k.terminals t).numProcessExecutingOnTerminal ∧
    (k'.terminals t).activePcb = (k.terminals t).activePcb
  pcbs_other : ∀ addr, addr ≠ k.current.activePcb → k'.pcbs addr = k.pcbs addr

namespace CallFrame

variable {k k' : Kernel}

theorem refl (k : Kernel) : CallFrame k k :=
  ⟨rfl, rfl, rfl, fun _ => ⟨rfl, rfl⟩, fun _ => ⟨rfl, rfl⟩, fun _ _ => rfl⟩

theorem of_screenOnly (h : ScreenOnly k k') : CallFrame k k' := by
  obtain ⟨m, x, y, rfl⟩ := h
  exact ⟨rfl, rfl, rfl, fun _ => ⟨rfl, rfl⟩, fun _ => ⟨rfl, rfl⟩, fun _ _ => rfl⟩

theorem of_descOnly (h : DescOnly k k') : CallFrame k k' := by
  obtain ⟨d, rfl⟩ := h
  have hother : ∀ addr, addr ≠ k.current.activePcb → (withDescs k d).pcbs addr = k.pcbs addr :=
    fun addr haddr => Kernel.setPcb_pcbs_ne _ _ haddr
  refine ⟨rfl, rfl, rfl, fun addr => ?_, fun _ => ⟨rfl, rfl⟩, hother⟩
  by_cases haddr : addr = k.current.activePcb
  · unfold withDescs
    rw [haddr, Kernel.setPcb_pcbs_same]
    exact ⟨rfl, rfl⟩
  · rw [hother addr haddr]
    exact ⟨rfl, rfl⟩

/-- A change of the flags or of the line of a terminal. -/
theorem of_setTerminal (k : Kernel) (t : Fin 3) {f : Terminal → Terminal}
    (hnum : (f (k.terminals t)).numProcessExecutingOnTerminal =
      (k.terminals t).numProcessExecutingOnTerminal)
    (hactive : (f (k.terminals t)).activePcb = (k.terminals t).activePcb) :
    CallFrame k (k.setTerminal t f) := by
  refine ⟨rfl, rfl, rfl, fun _ => ⟨rfl, rfl⟩, fun u => ?_, fun _ _ => rfl⟩
  by_cases hu : u = t
  · rw [hu, Kernel.setTerminal_terminals_same]
    exact ⟨hnum, hactive⟩
  · rw [Kernel.setTerminal_terminals_ne _ _ hu]
    exact ⟨rfl, rfl⟩

theorem rtcInterrupt (k : Kernel) : CallFrame k (rtcInterrupt k) :=
  ⟨rfl, rfl, rfl, fun _ => ⟨rfl, rfl⟩, fun _ => ⟨rfl, rfl⟩, fun _ _ => rfl⟩

theorem trans {k₁ k₂ k₃ : Kernel} (h₁ : CallFrame k₁ k₂) (h₂ : CallFrame k₂ k₃) :
    CallFrame k₁ k₃ := by
  have hactive : k₂.current.activePcb = k₁.current.activePcb := by
    unfold Kernel.current
    rw [h₁.executingTerminal, (h₁.terminals _).2]
  refine ⟨h₂.processes.trans h₁.processes,
    h₂.numProcessExecuting.trans h₁.numProcessExecuting,
    h₂.executingTerminal.trans h₁.executingTerminal,
    fun addr => ⟨(h₂.links addr).1.trans (h₁.links addr).1,
      (h₂.links addr).2.trans (h₁.links addr).2⟩,
    fun t => ⟨(h₂.terminals t).1.trans (h₁.terminals t).1,
      (h₂.terminals t).2.trans (h₁.terminals t).2⟩, fun addr haddr => ?_⟩
  rw [h₂.pcbs_other addr (by rwa [hactive]), h₁.pcbs_other addr haddr]

theorem represents {s : ProcessStacks} (h : CallFrame k k') (hs : Represents k s) :
    Represents k' s :=
  hs.of_same h.processes h.links h.terminals

/-- Another process keeps its descriptors. -/
theorem descs_other (h : CallFrame k k') {n : Fin 6} (hn : slotAddr n ≠ k.current.activePcb) :
    k'.descs n = k.descs n := by
  unfold Kernel.descs
  rw [h.pcbs_other _ hn]

end CallFrame

theorem terminalRead_callFrame {buf : Buffer} {nbytes : Int} {k : Kernel}
    {r : Int × Buffer × Kernel} (h : terminalRead buf nbytes k = some r) : CallFrame k r.2.2 := by
  unfold terminalRead at h
  split at h
  · exact absurd h (by simp)
  · split at h
    · rw [← Option.some.inj h]
      exact CallFrame.refl k
    · split at h
      · rw [← Option.some.inj h]
        exact CallFrame.refl k
      · rw [← Option.some.inj h]
        exact CallFrame.of_setTerminal k k.executingTerminal (f := fun term =>
          { term with enterFlag := 0 }) rfl rfl

theorem rtcRead_callFrame (buf : Buffer) (k : Kernel) : CallFrame k (rtcRead buf k).kernel :=
  (CallFrame.of_setTerminal k k.executingTerminal (f := fun term =>
    { term with interruptFlag := 0 }) rfl rfl).trans (CallFrame.rtcInterrupt _)

theorem callRead_callFrame {b : Boot} {p : FnPtr} {fd : Int} {buf : Buffer} {nbytes : Int}
    {k : Kernel} {r : ReadReturn} (h : callRead b p fd buf nbytes k = some r) :
    CallFrame k r.kernel := by
  have hmoved : ∀ n : Int, CallFrame k (k.setDesc fd.toNat fun d =>
      { d with filePosition := d.filePosition + n }) :=
    fun _ => CallFrame.of_descOnly (DescOnly.setDesc k fd.toNat _)
  unfold callRead at h
  split at h
  · obtain ⟨q, hq, rfl⟩ := Option.map_eq_some_iff.mp h
    exact terminalRead_callFrame hq
  · rw [← Option.some.inj h]
    exact rtcRead_callFrame buf k
  · rw [← Option.some.inj h]
    unfold dirRead
    split
    · exact CallFrame.refl k
    · split
      · exact CallFrame.refl k
      · exact hmoved 1
  · rw [← Option.some.inj h]
    unfold fileRead
    split
    · exact CallFrame.refl k
    · simp only
      split
      · exact CallFrame.refl k
      · split
        · exact hmoved _
        · exact CallFrame.refl k
  · exact absurd h (by simp)

theorem callWrite_callFrame {b : Boot} {p : FnPtr} {buf : Buffer} {nbytes : Int} {k : Kernel}
    {r : Int × Kernel} (h : callWrite b p buf nbytes k = some r) : CallFrame k r.2 := by
  unfold callWrite at h
  split at h
  · rw [← Option.some.inj h]
    exact CallFrame.of_screenOnly (terminalWrite_screenOnly b buf nbytes k)
  · rw [← Option.some.inj h, rtcWrite_kernel]
    exact CallFrame.refl k
  · rw [← Option.some.inj h]
    exact CallFrame.refl k
  · rw [← Option.some.inj h]
    exact CallFrame.refl k
  · exact absurd h (by simp)

theorem performCall_callFrame {b : Boot} {c : UserCall} {k k' : Kernel} {r : UserReturn}
    (h : performCall b c k = some (r, k')) : CallFrame k k' := by
  cases c with
  | getargs buf nbytes =>
      obtain ⟨-, rfl⟩ := Prod.mk.inj (Option.some.inj h)
      exact CallFrame.refl k
  | openFile fname =>
      obtain ⟨-, rfl⟩ := Prod.mk.inj (Option.some.inj h)
      exact CallFrame.of_descOnly (sysOpen_descOnly b _ k)
  | read fd buf nbytes =>
      obtain ⟨q, hq, heq⟩ := Option.map_eq_some_iff.mp h
      obtain ⟨-, rfl⟩ := Prod.mk.inj heq
      unfold sysRead at hq
      split at hq
      · rw [← Option.some.inj hq]
        exact CallFrame.refl k
      · exact callRead_callFrame hq
  | write fd buf nbytes =>
      obtain ⟨q, hq, heq⟩ := Option.map_eq_some_iff.mp h
      obtain ⟨-, rfl⟩ := Prod.mk.inj heq
      unfold sysWrite at hq
      split at hq
      · rw [← Option.some.inj hq]
        exact CallFrame.refl k
      · exact callWrite_callFrame hq
  | close fd =>
      obtain ⟨-, rfl⟩ := Prod.mk.inj (Option.some.inj h)
      exact CallFrame.of_descOnly (DescOnly.sysClose fd k)

/-- A key changes the line and the screen of the displayed terminal. -/
theorem getScancode_callFrame {b : Boot} {c : UInt8} {kb kb' : Keyboard} {k k' : Kernel}
    (hkey : getScancode b c kb k = some (kb', k')) : CallFrame k k' ∧ k'.pcbs = k.pcbs := by
  obtain ⟨-, hscreen⟩ := getScancode_effect hkey
  have hline : CallFrame k (lineEffect (kb'.event c) k) := by
    cases kb'.event c with
    | char ch =>
        refine CallFrame.of_setTerminal k _ ?_ ?_ <;> unfold typeChar <;> split <;> rfl
    | erase =>
        refine CallFrame.of_setTerminal k _ ?_ ?_ <;> unfold eraseChar <;> split <;> rfl
    | enter => exact CallFrame.of_setTerminal k _ rfl rfl
    | display u =>
        exact ⟨rfl, rfl, rfl, fun _ => ⟨rfl, rfl⟩, fun _ => ⟨rfl, rfl⟩, fun _ _ => rfl⟩
    | other => exact CallFrame.refl k
  refine ⟨hline.trans (CallFrame.of_screenOnly hscreen), ?_⟩
  rw [hscreen.pcbs_eq]
  cases kb'.event c <;> rfl

/-! ## The process of a terminal -/

/-- The process in slot `n` runs on terminal `t`, or would if it were its turn. -/
def RunsOn (t : Fin 3) (n : Fin 6) (k : Kernel) : Prop :=
  ∃ s l, Represents k s ∧ s.on t = n :: l

namespace RunsOn

variable {t : Fin 3} {n : Fin 6} {k k' : Kernel}

/-- The descriptors of the running process. -/
theorem table_eq (h : RunsOn t n k) (hexec : k.executingTerminal = t) : k.table = k.descs n := by
  obtain ⟨s, l, hs, htop⟩ := h
  unfold Kernel.table Kernel.activePcb Kernel.current Kernel.descs
  rw [hexec, (hs.top htop).1]

theorem callFrame (h : RunsOn t n k) (hframe : CallFrame k k') : RunsOn t n k' := by
  obtain ⟨s, l, hs, htop⟩ := h
  exact ⟨s, l, hframe.represents hs, htop⟩

/-- The process of another terminal is in another slot. -/
theorem active_ne (h : RunsOn t n k) (hother : k.executingTerminal ≠ t)
    (hstarted : 0 < k.current.numProcessExecutingOnTerminal) :
    slotAddr n ≠ k.current.activePcb := by
  obtain ⟨s, l, hs, htop⟩ := h
  obtain ⟨m, l', htop'⟩ := hs.exists_top hstarted
  have hactive : k.current.activePcb = slotAddr m := (hs.top htop').1
  rw [hactive]
  intro heq
  refine s.disjoint t k.executingTerminal hother.symm n (by rw [htop]; exact List.mem_cons_self) ?_
  rw [htop', slotAddr_injective heq]
  exact List.mem_cons_self

/-- A new process gets another slot. -/
theorem launch (h : RunsOn t n k) {m esp ebp : Nat} (hslot : freeSlot k = some m)
    (hlaunch : Launch m esp ebp k k') (hother : k.executingTerminal ≠ t) :
    RunsOn t n k' ∧ k'.descs n = k.descs n := by
  obtain ⟨s, l, hs, htop⟩ := h
  obtain ⟨m, rfl, hfree⟩ := freeSlot_some hslot
  obtain ⟨hm, hk'⟩ := hs.launch hfree hlaunch
  refine ⟨⟨_, l, hk', ?_⟩, hlaunch.descs_other fun heq => hm ⟨t, ?_⟩⟩
  · rw [Stacks.push_on_ne s m hm (Ne.symm hother)]
    exact htop
  · rw [htop, Fin.ext heq]
    exact List.mem_cons_self

theorem onTerminal (h : RunsOn t n k) (u : Fin 3) : RunsOn t n (k.onTerminal u) := by
  obtain ⟨s, l, hs, htop⟩ := h
  exact ⟨s, l, hs.onTerminal u, htop⟩

theorem fail (h : RunsOn t n k) (hfailed : Failed k k') :
    RunsOn t n k' ∧ k'.descs n = k.descs n := by
  obtain ⟨s, l, hs, htop⟩ := h
  refine ⟨⟨s, l, hs.fail hfailed, htop⟩, ?_⟩
  unfold Kernel.descs
  rw [hfailed.pcbs]

theorem parked (h : RunsOn t n k) (a : SwitchArgs) : RunsOn t n (parked a k) := by
  obtain ⟨s, l, hs, htop⟩ := h
  exact ⟨s, l, hs.of_same rfl (fun _ => ⟨rfl, rfl⟩) (parked_terminal a k), htop⟩

/-- There is a process on the terminal. -/
theorem started (h : RunsOn t n k) : (k.terminals t).numProcessExecutingOnTerminal ≠ 0 := by
  obtain ⟨s, l, hs, htop⟩ := h
  have hlen := hs.length t
  rw [htop, List.length_cons] at hlen
  omega

/-- The timer. -/
theorem tick (h : RunsOn t n k) {b : Boot} {a : SwitchArgs}
    (htick : (pitInterrupt b a k).state = some k') : RunsOn t n k' ∧ k'.descs n = k.descs n := by
  -- a shell is started on a terminal that has no process
  have hempty : (k.terminals k.next).numProcessExecutingOnTerminal = 0 → k.next ≠ t := by
    rintro hzero rfl
    exact h.started hzero
  cases hout : pitInterrupt b a k with
  | stayed k₁ =>
      rw [hout] at htick
      rw [← Option.some.inj htick, pitInterrupt_stayed hout]
      obtain ⟨s, l, hs, htop⟩ := h
      exact ⟨⟨s, l, hs.of_same rfl (fun _ => ⟨rfl, rfl⟩) fun _ => ⟨rfl, rfl⟩, htop⟩, rfl⟩
  | switched esp ebp k₁ =>
      rw [hout] at htick
      rw [← Option.some.inj htick]
      obtain ⟨-, -, -, rfl⟩ := pitInterrupt_switched hout
      obtain ⟨s, l, hs, htop⟩ := h.parked a
      exact ⟨⟨s, l, hs.of_same rfl (fun _ => ⟨rfl, rfl⟩) fun _ => ⟨rfl, rfl⟩, htop⟩, rfl⟩
  | launched entry k₁ =>
      rw [hout] at htick
      rw [← Option.some.inj htick]
      obtain ⟨hzero, hexecute⟩ := pitInterrupt_executed hout
      obtain ⟨m, hslot, hlaunch⟩ := sysExecute_launched hexecute
      exact ((h.parked a).onTerminal k.next).launch hslot hlaunch (hempty hzero)
  | failed k₁ =>
      rw [hout] at htick
      rw [← Option.some.inj htick]
      obtain ⟨-, -, k₂, hreturned, rfl⟩ := pitInterrupt_failed hout
      obtain ⟨⟨s, l, hs, htop⟩, hdescs⟩ :=
        ((h.parked a).onTerminal k.next).fail (sysExecute_returned hreturned).1
      exact ⟨⟨s, l, hs.of_same rfl (fun _ => ⟨rfl, rfl⟩) fun _ => ⟨rfl, rfl⟩, htop⟩, hdescs⟩
  | stuck =>
      rw [hout] at htick
      exact absurd htick (by simp [SwitchOutcome.state])

/-- The keyboard. -/
theorem key (h : RunsOn t n k) {b : Boot} {c : UInt8} {kb kb' : Keyboard}
    (hkey : getScancode b c kb k = some (kb', k')) : RunsOn t n k' ∧ k'.descs n = k.descs n := by
  obtain ⟨hframe, hpcbs⟩ := getScancode_callFrame hkey
  refine ⟨h.callFrame hframe, ?_⟩
  unfold Kernel.descs
  rw [hpcbs]

/-- The processes of the other terminals. -/
theorem process (h : RunsOn t n k) {b : Boot} {c : Call} (hother : k.executingTerminal ≠ t)
    (hstarted : 0 < k.current.numProcessExecutingOnTerminal)
    (hcall : (runCall b c k).state = some k') : RunsOn t n k' ∧ k'.descs n = k.descs n := by
  have hne := h.active_ne hother hstarted
  have hreleased : ∀ k₁, Released k k₁ → k₁.descs n = k.descs n := by
    rintro k₁ hk₁
    obtain ⟨d, hd⟩ := hk₁.pcbs
    unfold Kernel.descs
    rw [hd]
    exact DescOnly.descs_other ⟨d, rfl⟩ hne
  rcases runCall_cases hcall with ⟨a, -, hret⟩ | ⟨a, entry, m, -, -, hslot, hlaunch⟩ |
    ⟨a, k₁, m, -, hzero, hk₁, hslot, hlaunch⟩ | ⟨a, k₁, pcb, -, -, hk₁, hpcb, rfl, -⟩
  · exact h.fail (sysExecute_returned hret).1
  · exact h.launch hslot hlaunch hother
  · obtain ⟨s, l, hs, htop⟩ := h
    obtain ⟨m', l', htop'⟩ := hs.exists_top hstarted
    obtain rfl := (hs.parent_eq_zero htop').mp hzero
    have hstack : RunsOn t n k₁ :=
      ⟨_, l, hs.release htop' hk₁, by rw [Stacks.pop_on_ne s (Ne.symm hother)]; exact htop⟩
    obtain ⟨hafter, hdescs⟩ := hstack.launch hslot hlaunch (by rwa [hk₁.executingTerminal])
    exact ⟨hafter, hdescs.trans (hreleased k₁ hk₁)⟩
  · obtain ⟨s, l, hs, htop⟩ := h
    obtain ⟨m', l', htop'⟩ := hs.exists_top hstarted
    exact ⟨⟨_, l, hs.resume htop' hk₁ hpcb,
      by rw [Stacks.pop_on_ne s (Ne.symm hother)]; exact htop⟩, hreleased k₁ hk₁⟩

/-- What happens elsewhere leaves the process its place and its descriptors. -/
theorem elsewhere (h : RunsOn t n k) {b : Boot} (hstep : Elsewhere b t k k') :
    RunsOn t n k' ∧ k'.descs n = k.descs n := by
  cases hstep with
  | tick a htick => exact h.tick htick
  | rtc => exact ⟨h.callFrame (CallFrame.rtcInterrupt k), rfl⟩
  | key c kb kb' hkey => exact h.key hkey
  | process c hother hstarted hfits hcall =>
      exact h.process hother hstarted (hcall.runCall hfits)
  | serve c r hother hstarted hcall =>
      have hframe := performCall_callFrame hcall
      exact ⟨h.callFrame hframe, hframe.descs_other (h.active_ne hother hstarted)⟩

end RunsOn

/-! ## A program among the others -/

section Outline

variable {L : Type} (b : Boot) (program : L → Action UserCall UserReturn L)
  (J : L → List (UserCall × UserReturn) → (Nat → FileDesc) → Prop)

/-- The calls of a program lead from what holds at one place, of its calls and of its descriptors,
to what holds at the next. -/
def Outlined : Prop :=
  ∀ l trace k c next r k', J l trace k.table → program l = .call c next →
    performCall b c k = some (r, k') → J (next r) (trace ++ [(c, r)]) k'.table

/-- Where this holds no call waits. -/
def Answered : Prop :=
  ∀ l trace k c next, J l trace k.table → program l = .call c next →
    ∃ r k', performCall b c k = some (r, k')

/-- The program has exited, or it is at a call that will not make it wait. -/
def CanGoOn (t : Fin 3) (m : Config Kernel L) : Prop :=
  m.state.executingTerminal = t → (∃ code, program m.place = .exit code) ∨
    ∃ c r m', ProgramStep b t program m (.own c r) m'

variable {b program J} {t : Fin 3} {n : Fin 6} {m m' : Config Kernel L}

/-- The rule for outlines that speak of the descriptors of the process: nobody else changes them,
so that only the calls of the program itself have to be looked at. -/
theorem Outlined.run (hown : Outlined b program J) {events : List (Event UserCall UserReturn)}
    (hrun : Run (ProgramStep b t program) m events m') (hstart : RunsOn t n m.state)
    (hJ : J m.place [] (m.state.descs n)) :
    RunsOn t n m'.state ∧ J m'.place (calls events) (m'.state.descs n) := by
  refine outline (I := fun l trace k => RunsOn t n k ∧ J l trace (k.descs n)) ?_ ?_ hrun
    ⟨hstart, hJ⟩
  · rintro l trace k c next r k' ⟨hruns, hl⟩ haction ⟨hexec, hperform⟩
    have hframe := performCall_callFrame hperform
    have hruns' := hruns.callFrame hframe
    have htable := hruns.table_eq hexec
    have htable' := hruns'.table_eq (hframe.executingTerminal.trans hexec)
    rw [← htable] at hl
    rw [← htable']
    exact ⟨hruns', hown l trace k c next r k' hl haction hperform⟩
  · rintro l trace k k' ⟨hruns, hl⟩ hothers
    obtain ⟨hruns', hdescs⟩ := hruns.elsewhere hothers
    rw [hdescs]
    exact ⟨hruns', hl⟩

/-- By itself the program goes on until it exits. -/
theorem Outlined.alone (hown : Outlined b program J) (hcan : Answered b program J)
    (others : Kernel → Kernel → Prop) {m₀ : Config Kernel L}
    {before : List (Event UserCall UserReturn)}
    (hbefore : Run (Step program (Performs b t) others) m₀ before m)
    (hexec : m.state.executingTerminal = t)
    (hJ : J m.place (calls before) m.state.table) (count : Nat) :
    ∃ events m', Run (Step program (Performs b t) others) m₀ (before ++ events) m' ∧
      J m'.place (calls (before ++ events)) m'.state.table ∧
      ((calls events).length = count ∨ ∃ code, program m'.place = .exit code) := by
  have hcan' : ∀ l trace k c next, k.executingTerminal = t ∧ J l trace k.table →
      program l = .call c next → ∃ r k', Performs b t c k r k' ∧
        (k'.executingTerminal = t ∧ J (next r) (trace ++ [(c, r)]) k'.table) := by
    rintro l trace k c next ⟨hexec, hl⟩ haction
    obtain ⟨r, k', hperform⟩ := hcan l trace k c next hl haction
    have hexec' := (performCall_callFrame hperform).executingTerminal.trans hexec
    exact ⟨r, k', ⟨hexec, hperform⟩, hexec', hown l trace k c next r k' hl haction hperform⟩
  obtain ⟨events, m', hrun, ⟨-, hJ'⟩, hend⟩ :=
    exists_run_alone (Performs b t) others hcan' hbefore ⟨hexec, hJ⟩ count
  exact ⟨events, m', hrun, hJ', hend⟩

theorem Answered.canGoOn (hcan : Answered b program J) {trace : List (UserCall × UserReturn)}
    (hruns : RunsOn t n m.state) (hJ : J m.place trace (m.state.descs n)) :
    CanGoOn b program t m := by
  obtain ⟨k, l⟩ := m
  intro hexec
  rw [← hruns.table_eq hexec] at hJ
  cases haction : program l with
  | exit code => exact Or.inl ⟨code, rfl⟩
  | call c next =>
      obtain ⟨r, k', hperform⟩ := hcan l trace k c next hJ haction
      exact Or.inr ⟨c, r, _, .own haction ⟨hexec, hperform⟩⟩

end Outline

/-! ## Standard output -/

/-- `ece391_fdputs`. -/
def fdputs (fd : Int) (s : Nat → UInt8) : UserCall :=
  .write fd (fun i => s i.toNat) (ece391Strlen s)

/-- The bytes that calls write to standard output. -/
def written (trace : List (UserCall × UserReturn)) : List UInt8 :=
  trace.flatMap fun e =>
    match e.1 with
    | .write fd buf nbytes => if fd = 1 then bufferBytes (some buf) nbytes else []
    | _ => []

@[simp] theorem written_nil : written [] = [] := rfl

theorem written_append (trace trace' : List (UserCall × UserReturn)) :
    written (trace ++ trace') = written trace ++ written trace' :=
  List.flatMap_append

@[simp] theorem written_concat_write (trace : List (UserCall × UserReturn)) (buf : Int → UInt8)
    (nbytes : Int) (r : UserReturn) :
    written (trace ++ [(.write 1 buf nbytes, r)]) =
      written trace ++ bufferBytes (some buf) nbytes := by
  simp [written]

@[simp] theorem written_concat_fdputs (trace : List (UserCall × UserReturn)) (s : Nat → UInt8)
    (r : UserReturn) : written (trace ++ [(fdputs 1 s, r)]) = written trace ++ ece391Fdputs s := by
  unfold fdputs
  rw [written_concat_write]
  rfl

@[simp] theorem written_concat_getargs (trace : List (UserCall × UserReturn)) (buf : Int → UInt8)
    (nbytes : Int) (r : UserReturn) :
    written (trace ++ [(.getargs buf nbytes, r)]) = written trace := by
  simp [written]

@[simp] theorem written_concat_open (trace : List (UserCall × UserReturn)) (fname : Int → UInt8)
    (r : UserReturn) : written (trace ++ [(.openFile fname, r)]) = written trace := by
  simp [written]

@[simp] theorem written_concat_read (trace : List (UserCall × UserReturn)) (fd : Int)
    (buf : Int → UInt8) (nbytes : Int) (r : UserReturn) :
    written (trace ++ [(.read fd buf nbytes, r)]) = written trace := by
  simp [written]

@[simp] theorem written_concat_close (trace : List (UserCall × UserReturn)) (fd : Int)
    (r : UserReturn) : written (trace ++ [(.close fd, r)]) = written trace := by
  simp [written]

/-- The first two descriptors are bound to the terminal. -/
structure IoOpen (table : Nat → FileDesc) : Prop where
  input : table 0 = terminalDesc
  output : table 1 = terminalDesc

/-- No call changes the first two descriptors. -/
theorem IoOpen.performCall {b : Boot} {c : UserCall} {k k' : Kernel} {r : UserReturn}
    (h : IoOpen k.table) (hperform : performCall b c k = some (r, k')) : IoOpen k'.table := by
  have hset : ∀ (fd : Nat) (f : FileDesc → FileDesc), firstRegFile ≤ fd →
      IoOpen (k.setDesc fd f).table := by
    intro fd f hfd
    simp only [firstRegFile] at hfd
    rw [setDesc_table]
    exact ⟨(Function.update_of_ne (by omega) _ _).trans h.input,
      (Function.update_of_ne (by omega) _ _).trans h.output⟩
  cases c with
  | getargs buf nbytes =>
      obtain ⟨-, rfl⟩ := Prod.mk.inj (Option.some.inj hperform)
      exact h
  | openFile fname =>
      obtain ⟨-, rfl⟩ := Prod.mk.inj (Option.some.inj hperform)
      rcases sysOpen_cases b (bufferString fname) k with ⟨-, hfail⟩ | ⟨idx, fd, -, hfree, hok⟩
      · rw [hfail]
        exact h
      · rw [hok]
        exact hset fd _ (freeDesc_eq_some.mp hfree).2.1.1
  | read fd buf nbytes =>
      obtain ⟨q, hq, heq⟩ := Option.map_eq_some_iff.mp hperform
      obtain ⟨-, rfl⟩ := Prod.mk.inj heq
      have hinput : q.kernel.table 0 = k.table 0 := by
        by_cases hfd : fd = 0
        · obtain ⟨position, hafter⟩ := sysRead_position hq 0
          subst hfd
          unfold sysRead sysReadTarget at hq
          rw [if_pos ⟨by decide, fun hfree => absurd hfree.1 (by decide)⟩] at hq
          have hzero : (0 : Int).toNat = 0 := rfl
          rw [hzero, h.input] at hq
          obtain ⟨r', hr', rfl⟩ := Option.map_eq_some_iff.mp hq
          exact congrFun (terminalRead_table hr') 0
        · exact sysRead_other hq fun heq => hfd heq.symm
      have houtput : q.kernel.table 1 = k.table 1 := by
        by_cases hfd : fd = 1
        · subst hfd
          unfold sysRead sysReadTarget at hq
          rw [if_neg (fun husable => husable.1 (Or.inr (Or.inr rfl)))] at hq
          rw [← Option.some.inj hq]
        · exact sysRead_other hq fun heq => hfd heq.symm
      exact ⟨hinput.trans h.input, houtput.trans h.output⟩
  | write fd buf nbytes =>
      obtain ⟨q, hq, heq⟩ := Option.map_eq_some_iff.mp hperform
      obtain ⟨-, rfl⟩ := Prod.mk.inj heq
      rw [sysWrite_table hq]
      exact h
  | close fd =>
      obtain ⟨-, rfl⟩ := Prod.mk.inj (Option.some.inj hperform)
      rcases sysClose_cases fd k with ⟨⟨hlo, -, -⟩, hok⟩ | ⟨-, hfail⟩
      · rw [hok]
        exact hset fd.toNat _ (by simp only [firstRegFile] at hlo ⊢; omega)
      · rw [hfail]
        exact h

/-- Only the first two descriptors are in use. -/
structure NewTable (table : Nat → FileDesc) : Prop where
  io : IoOpen table
  free : ∀ fd, firstRegFile ≤ fd → fd < lastRegFile → (table fd).flag = 1

theorem NewTable.freeDesc {k : Kernel} (h : NewTable k.table) :
    freeDesc k = some firstRegFile :=
  freeDesc_eq_some.mpr ⟨h.free firstRegFile (Nat.le_refl _) (by decide),
    ⟨Nat.le_refl _, by decide⟩, fun _ hlo hhi => by omega⟩

/-- A new process starts with these descriptors. -/
theorem newTable_newTable (d : Nat → FileDesc) : NewTable (newTable d) where
  io := ⟨rfl, rfl⟩
  free := by
    intro fd hlo hhi
    simp only [firstRegFile] at hlo
    unfold newTable
    rw [Function.update_of_ne (by omega), Function.update_of_ne (by omega),
      if_pos ⟨by simpa using hlo, hhi⟩]

/-- A write to standard output goes to the terminal and writes everything. -/
theorem performCall_stdout (b : Boot) {k : Kernel} (hio : IoOpen k.table) (buf : Int → UInt8)
    (nbytes : Int) : performCall b (.write 1 buf nbytes) k =
      some (⟨nbytes, none⟩, (terminalWrite b (some buf) nbytes k).2) := by
  have husable : usable 0 1 k := ⟨by decide, fun h => absurd h.1 (by decide)⟩
  have hwrite : sysWrite b 1 (some buf) nbytes k = some (terminalWrite b (some buf) nbytes k) := by
    unfold sysWrite sysWriteTarget
    rw [if_pos husable]
    have hone : (1 : Int).toNat = 1 := rfl
    rw [hone, hio.output]
    rfl
  have hret : (terminalWrite b (some buf) nbytes k).1 = nbytes := by
    unfold terminalWrite
    split
    · rename_i hzero
      exact hzero.symm
    · rfl
  unfold performCall
  simp only [hwrite, Option.map_some, hret]

/-- A string that is written leaves the descriptors as they are. -/
theorem performCall_fdputs {b : Boot} {s : Nat → UInt8} {k k' : Kernel} {r : UserReturn}
    (hio : IoOpen k.table) (hperform : performCall b (fdputs 1 s) k = some (r, k')) :
    k'.table = k.table := by
  obtain ⟨-, rfl⟩ := Prod.mk.inj (Option.some.inj
    ((performCall_stdout b hio (fun i => s i.toNat) (ece391Strlen s)).symm.trans hperform))
  exact (terminalWrite_screenOnly b _ _ k).table_eq

/-! ## A process by itself -/

/-- The kernel with one process, on the first terminal, that has been given an argument. -/
def oneProcess (argument : List UInt8) (k : Kernel) : Kernel :=
  { k with
    processes := fun n => if n = 0 then 1 else 0
    numProcessExecuting := 1
    arg := fun i => argument.getD i.toNat 0
    argLength := argument.length
    executingTerminal := firstTerminal
    terminals := fun t => { k.terminals t with
      numProcessExecutingOnTerminal := if t = firstTerminal then 1 else 0
      activePcb := if t = firstTerminal then slotAddr 0 else 0 }
    pcbs := fun addr => { k.pcbs addr with
      processNum := 0
      parentPcb := 0
      fDesc := newTable fun _ => terminalDesc } }

theorem oneProcess_runsOn (argument : List UInt8) (k : Kernel) :
    RunsOn 0 0 (oneProcess argument k) := by
  have hfree : ¬(Stacks.empty : ProcessStacks).Owned 0 := fun ⟨_, hmem⟩ =>
    List.not_mem_nil hmem
  have howned : ∀ n : Fin 6, ((Stacks.empty : ProcessStacks).push 0 0 hfree).Owned n ↔ n = 0 := by
    intro n
    rw [Stacks.push_owned]
    exact or_iff_left fun ⟨_, hmem⟩ => List.not_mem_nil hmem
  have hon : ∀ t : Fin 3, ((Stacks.empty : ProcessStacks).push 0 0 hfree).on t =
      if t = 0 then [0] else [] := by
    intro t
    by_cases ht : t = 0
    · rw [ht, Stacks.push_on_self, if_pos rfl]
      rfl
    · rw [Stacks.push_on_ne _ 0 hfree ht, if_neg ht]
      rfl
  refine ⟨(Stacks.empty : ProcessStacks).push 0 0 hfree, [], ?_, hon 0⟩
  refine ⟨fun t hstarted => ?_, fun t => ?_, fun t n hn => ?_, fun n hn => ?_, fun n hn => ?_⟩
  · have ht : t = 0 := by
      by_contra hne
      exact hstarted (if_neg hne)
    rw [hon, ht]
    exact Linked.cons (slotAddr_ne_zero 0) Linked.nil
  · rw [hon]
    by_cases ht : t = 0
    · rw [ht]
      rfl
    · rw [if_neg ht]
      exact if_neg ht
  · rw [(howned n).mp ⟨t, hn⟩]
    rfl
  · rw [(howned n).mp hn]
    rfl
  · have hne : (n : Nat) ≠ 0 := fun heq => hn ((howned n).mpr (Fin.ext heq))
    exact if_neg hne

theorem oneProcess_newTable (argument : List UInt8) (k : Kernel) :
    NewTable ((oneProcess argument k).descs 0) := newTable_newTable _

theorem terminalWrite_table (b : Boot) (buf : Buffer) (nbytes : Int) (k : Kernel) :
    (terminalWrite b buf nbytes k).2.table = k.table :=
  (terminalWrite_screenOnly b buf nbytes k).table_eq

end Ece391Kernel
