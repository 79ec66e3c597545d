import Ece391Kernel.Kernel.EndOfInterrupt
import Ece391Kernel.Kernel.InterruptTable
import Mathlib.Data.UInt

/-!
# The interrupt lines

The two 8259A by the words that `i8259_init` writes and by their masks, which `enable_irq` and
`disable_irq` read and write. After the start only `pit_interrupt` does so, one access to a port at
a time, and it lets other interrupts come in between.
-/

namespace Ece391Kernel

open TransitionSystem

/-- What a chip takes the next word at its data port for. -/
inductive DataWord
  | icw2
  | icw3
  | icw4
  | ocw1
deriving DecidableEq

/-- An 8259A, by its mask and by the initialisation words. -/
structure Pic where
  imr : UInt8
  icw1 : UInt8
  icw2 : UInt8
  icw3 : UInt8
  icw4 : UInt8
  next : DataWord
deriving DecidableEq

namespace Pic

/-- A word at the command port: with bit 4 it starts the initialisation, which opens all levels. -/
def command (value : UInt8) (c : Pic) : Pic :=
  if value &&& 0x10 = 0 then c
  else { c with imr := 0, icw1 := value, icw4 := 0, next := .icw2 }

/-- What comes after the third word. -/
def afterIcw3 (c : Pic) : DataWord := if c.icw1 &&& 1 = 0 then .ocw1 else .icw4

/-- A word at the data port. A chip that is alone takes no third word. -/
def data (value : UInt8) (c : Pic) : Pic :=
  match c.next with
  | .icw2 => { c with icw2 := value, next := if c.icw1 &&& 2 = 0 then .icw3 else c.afterIcw3 }
  | .icw3 => { c with icw3 := value, next := c.afterIcw3 }
  | .icw4 => { c with icw4 := value, next := .ocw1 }
  | .ocw1 => { c with imr := value }

/-- The vector of a level, as the chip sends it to an 8086. -/
def vector (level : Nat) (c : Pic) : Option Nat :=
  if c.next = .ocw1 ∧ c.icw4 &&& 1 = 1 then some ((c.icw2 &&& 0xF8).toNat + level) else none

end Pic

/-- The master and the slave. -/
structure Pics where
  master : Pic
  slave : Pic
deriving DecidableEq

/-- `outb` to a data port. -/
def outData (value : UInt8) (port : CommandPort) (p : Pics) : Pics :=
  match port with
  | .master => { p with master := p.master.data value }
  | .slave => { p with slave := p.slave.data value }

/-- `outb` to a command port. -/
def outCommand (value : UInt8) (port : CommandPort) (p : Pics) : Pics :=
  match port with
  | .master => { p with master := p.master.command value }
  | .slave => { p with slave := p.slave.command value }

/-- `inb` from a data port. -/
def inData (port : CommandPort) (p : Pics) : UInt32 :=
  match port with
  | .master => p.master.imr.toUInt32
  | .slave => p.slave.imr.toUInt32

/-- The port and the level that `enable_irq` and `disable_irq` choose. -/
def portOf (irqNum : UInt32) : CommandPort × UInt32 :=
  if irqNum < 8 then (.master, irqNum) else (.slave, irqNum - 8)

/-- The value that `enable_irq` writes. -/
def enableValue (irqNum : UInt32) (p : Pics) : UInt8 :=
  (inData (portOf irqNum).1 p &&& ~~~(1 <<< (portOf irqNum).2)).toUInt8

/-- The value that `disable_irq` writes. -/
def disableValue (irqNum : UInt32) (p : Pics) : UInt8 :=
  (inData (portOf irqNum).1 p ||| (1 <<< (portOf irqNum).2)).toUInt8

/-- `enable_irq`. -/
def enableIrq (irqNum : UInt32) (p : Pics) : Pics :=
  outData (enableValue irqNum p) (portOf irqNum).1 p

/-- `i8259_init`; the second word of the master is the number of its command port. -/
def i8259Init (p : Pics) : Pics :=
  let masterMask := 0xFF
  let slaveMask := 0xFF
  let p := outData slaveMask .slave (outData masterMask .master p)
  let p := outData 0x20 .master (outCommand 0x11 .master p)
  let p := outData 0x01 .master (outData 0x04 .master p)
  let p := outData 0x28 .slave (outCommand 0x11 .slave p)
  let p := outData 0x01 .slave (outData 0x02 .slave p)
  let p := outData slaveMask .slave (outData masterMask .master p)
  enableIrq 2 p

/-- What `entry` does to the chips: `i8259_init`, `rtc_init`, `keyboard_init`, `pit_init`. -/
def startPics (p : Pics) : Pics := enableIrq 0 (enableIrq 1 (enableIrq 8 (i8259Init p)))

/-! ## Interrupts -/

/-- A line is open; one of the slave needs the master's level 2 as well. -/
def LineOpen (irq : Fin 16) (p : Pics) : Prop :=
  if irq.val < 8 then p.master.imr &&& (1 <<< UInt8.ofNat irq) = 0
  else p.slave.imr &&& (1 <<< UInt8.ofNat (irq - 8)) = 0 ∧ p.master.imr &&& 4 = 0

instance (irq : Fin 16) (p : Pics) : Decidable (LineOpen irq p) := by
  unfold LineOpen
  infer_instance

/-- The vector that the processor gets for a line. The slave has to be where both chips think. -/
def vectorOf (irq : Fin 16) (p : Pics) : Option Nat :=
  if irq.val < 8 then p.master.vector irq
  else if p.master.icw3 = 4 ∧ p.slave.icw3 = 2 then p.slave.vector (irq - 8) else none

/-- The commands that `send_eoi` writes. -/
def eoiCommands (irqNum : UInt32) : List (UInt32 × CommandPort) :=
  (if irqNum ≥ 8 then [((irqNum - 8) ||| 0x60, .slave), (2 ||| 0x60, .master)] else []) ++
    [(irqNum ||| 0x60, .master)]

theorem sendEoi_eq_foldl (other : UInt8 → Chip → Chip) (irqNum : UInt32) (s : Controllers) :
    sendEoi other irqNum s =
      (eoiCommands irqNum).foldl (fun s c => outb other c.1 c.2 s) s := by
  unfold sendEoi eoiCommands
  split <;> rfl

/-- Where `pit_interrupt` is, up to the `enable_irq` of `context_switch`; with the value that is
to be written. -/
inductive PitPlace
  | entered
  | disabling (value : UInt8)
  | switching
  | enabling (value : UInt8)
deriving DecidableEq

/-- The code at a place runs with interrupts disabled, from the gate and `cli` on. -/
def PitPlace.Masked : PitPlace → Prop
  | .entered => True
  | .disabling _ => True
  | .switching => False
  | .enabling _ => False

/-- The chips, whether interrupts are enabled, and the calls of `pit_interrupt` that are under way,
the innermost first. -/
structure PicState where
  pics : Pics
  enabled : Bool
  pit : List PitPlace

/-- The processor gets a vector from the chips, or something else happens. -/
inductive LineEvent
  | taken (irq : Fin 16) (vector : Nat)
  | other

/-- The accesses of `pit_interrupt` to the masks, and what can happen meanwhile: interrupts of other
lines, whose handlers send their ends, and code that enables or disables interrupts. -/
inductive LineStep : PicState → LineEvent → PicState → Prop
  | device {s : PicState} {irq : Fin 16} {vector : Nat} (hline : irq ≠ 0 ∧ irq ≠ 2)
      (henabled : s.enabled = true) (hopen : LineOpen irq s.pics)
      (hvector : vectorOf irq s.pics = some vector) :
      LineStep s (.taken irq vector) { s with enabled := false }
  | pit {s : PicState} {vector : Nat} (henabled : s.enabled = true) (hopen : LineOpen 0 s.pics)
      (hvector : vectorOf 0 s.pics = some vector) :
      LineStep s (.taken 0 vector) { s with enabled := false, pit := .entered :: s.pit }
  | readDisable {s : PicState} {rest : List PitPlace} (h : s.pit = .entered :: rest) :
      LineStep s .other { s with pit := .disabling (disableValue 0 s.pics) :: rest }
  | writeDisable {s : PicState} {value : UInt8} {rest : List PitPlace}
      (h : s.pit = .disabling value :: rest) :
      LineStep s .other
        { s with pics := outData value (portOf 0).1 s.pics, pit := .switching :: rest }
  | readEnable {s : PicState} {rest : List PitPlace} (h : s.pit = .switching :: rest) :
      LineStep s .other { s with pit := .enabling (enableValue 0 s.pics) :: rest }
  | writeEnable {s : PicState} {value : UInt8} {rest : List PitPlace}
      (h : s.pit = .enabling value :: rest) :
      LineStep s .other { s with pics := outData value (portOf 0).1 s.pics, pit := rest }
  | eoi {s : PicState} {irqNum : UInt32} (hline : irqNum = 0 ∨ irqNum = 1 ∨ irqNum = 8)
      {value : UInt32} {port : CommandPort} (hcommand : (value, port) ∈ eoiCommands irqNum) :
      LineStep s .other { s with pics := outCommand value.toUInt8 port s.pics }
  | setEnabled {s : PicState} (e : Bool) (h : ∀ p ∈ s.pit.head?, ¬p.Masked) :
      LineStep s .other { s with enabled := e }

/-! ## One step -/

/-- The chips after the start, with this mask at the master. -/
def kernelPics (masterMask : UInt8) : Pics where
  master := ⟨masterMask, 0x11, 0x20, 0x04, 0x01, .ocw1⟩
  slave := ⟨0xFE, 0x11, 0x28, 0x02, 0x01, .ocw1⟩

/-- A chip takes its four words and then a mask, whatever it was doing before. -/
theorem Pic.data_init (c : Pic) (icw2 icw3 mask : UInt8) :
    ((((c.command 0x11).data icw2).data icw3).data 0x01).data mask =
      ⟨mask, 0x11, icw2, icw3, 0x01, .ocw1⟩ := by
  have hcommand : c.command 0x11 = { c with imr := 0, icw1 := 0x11, icw4 := 0, next := .icw2 } :=
    if_neg (by decide)
  have hthird : (0x11 : UInt8) &&& 2 = 0 := by decide
  have hfourth : (0x11 : UInt8) &&& 1 ≠ 0 := by decide
  rw [hcommand]
  simp only [Pic.data, Pic.afterIcw3, if_pos hthird, if_neg hfourth]

theorem startPics_eq (p : Pics) : startPics p = kernelPics 0xF8 := by
  have hmaster := Pic.data_init (p.master.data 0xFF) 0x20 0x04 0xFF
  have hslave := Pic.data_init (p.slave.data 0xFF) 0x28 0x02 0xFF
  have hinit : i8259Init p =
      enableIrq 2 ⟨⟨0xFF, 0x11, 0x20, 0x04, 0x01, .ocw1⟩,
        ⟨0xFF, 0x11, 0x28, 0x02, 0x01, .ocw1⟩⟩ := by
    rw [← hmaster, ← hslave]
    rfl
  unfold startPics
  rw [hinit]
  decide

/-- At most one call of `pit_interrupt` is under way. The line is closed from its first write to its
second one, and interrupts are disabled before the first one. -/
inductive LineInv : PicState → Prop
  | idle (e : Bool) : LineInv ⟨kernelPics 0xF8, e, []⟩
  | entered : LineInv ⟨kernelPics 0xF8, false, [.entered]⟩
  | disabling : LineInv ⟨kernelPics 0xF8, false, [.disabling 0xF9]⟩
  | switching (e : Bool) : LineInv ⟨kernelPics 0xF9, e, [.switching]⟩
  | enabling (e : Bool) : LineInv ⟨kernelPics 0xF9, e, [.enabling 0xF8]⟩

/-- The commands of `send_eoi` change no mask and start no initialisation. -/
theorem outCommand_eoi {irqNum : UInt32} (hline : irqNum = 0 ∨ irqNum = 1 ∨ irqNum = 8)
    {value : UInt32} {port : CommandPort} (hcommand : (value, port) ∈ eoiCommands irqNum)
    (p : Pics) : outCommand value.toUInt8 port p = p := by
  have hbit : ∀ c ∈ eoiCommands irqNum, c.1.toUInt8 &&& 0x10 = 0 := by
    rcases hline with rfl | rfl | rfl <;> decide
  have hvalue := hbit _ hcommand
  unfold outCommand Pic.command
  rw [if_pos hvalue, if_pos hvalue]
  cases port <;> rfl

/-- The lines that are open while the master has one of its two masks. -/
theorem lineOpen_kernelPics (irq : Fin 16) :
    (LineOpen irq (kernelPics 0xF8) ↔ irq = 1 ∨ irq = 2 ∨ irq = 8 ∨ irq = 0) ∧
      (LineOpen irq (kernelPics 0xF9) ↔ irq = 1 ∨ irq = 2 ∨ irq = 8) := by
  revert irq
  decide

/-- The slave's vectors follow the master's. -/
theorem vectorOf_kernelPics (masterMask : UInt8) (irq : Fin 16) :
    vectorOf irq (kernelPics masterMask) = some (0x20 + irq.val) := by
  have hvector : ∀ irq, vectorOf irq (kernelPics 0) = some (0x20 + irq.val) := by decide
  exact hvector irq

theorem LineInv.step {s s' : PicState} {e : LineEvent} (h : LineInv s) (hstep : LineStep s e s') :
    LineInv s' := by
  have hclosed : ¬LineOpen 0 (kernelPics 0xF9) := by decide
  have hread : disableValue 0 (kernelPics 0xF8) = 0xF9 ∧
      enableValue 0 (kernelPics 0xF9) = 0xF8 := by decide
  cases hstep with
  | eoi hline hcommand =>
      rw [outCommand_eoi hline hcommand]
      exact h
  | device _ henabled _ _ =>
      cases h with
      | idle => exact .idle false
      | entered => exact .entered
      | disabling => exact .disabling
      | switching => exact .switching false
      | enabling => exact .enabling false
  | pit henabled hopen _ =>
      cases h with
      | idle => exact .entered
      | entered => exact absurd henabled (by decide)
      | disabling => exact absurd henabled (by decide)
      | switching => exact absurd hopen hclosed
      | enabling => exact absurd hopen hclosed
  | readDisable hpit =>
      cases h with
      | entered =>
          obtain ⟨-, rfl⟩ := List.cons.inj hpit
          rw [hread.1]
          exact .disabling
      | _ => exact absurd hpit (by simp)
  | writeDisable hpit =>
      cases h with
      | disabling =>
          obtain ⟨hvalue, rfl⟩ := List.cons.inj hpit
          obtain rfl := PitPlace.disabling.inj hvalue
          exact .switching false
      | _ => exact absurd hpit (by simp)
  | readEnable hpit =>
      cases h with
      | switching =>
          obtain ⟨-, rfl⟩ := List.cons.inj hpit
          rw [hread.2]
          exact .enabling _
      | _ => exact absurd hpit (by simp)
  | writeEnable hpit =>
      cases h with
      | enabling =>
          obtain ⟨hvalue, rfl⟩ := List.cons.inj hpit
          obtain rfl := PitPlace.enabling.inj hvalue
          exact .idle _
      | _ => exact absurd hpit (by simp)
  | setEnabled e hmasked =>
      cases h with
      | idle => exact .idle e
      | entered => exact absurd trivial (hmasked _ rfl)
      | disabling => exact absurd trivial (hmasked _ rfl)
      | switching => exact .switching e
      | enabling => exact .enabling e

/-! ## All runs -/

/-- The wrapper that `init_IDT` has for a line. -/
def wrapperOf (irq : Fin 16) : Option HandlerName :=
  if irq.val = 0 then some .pitWrapper
  else if irq.val = 1 then some .keyboardWrapper
  else if irq.val = 8 then some .rtcWrapper
  else none

/-- The chips have been started from any state, and interrupts are still disabled. -/
structure LinesStarted (p : Pics) (s : PicState) : Prop where
  pics : s.pics = startPics p
  enabled : s.enabled = false
  pit : s.pit = []

theorem LinesStarted.inv {p : Pics} {s : PicState} (h : LinesStarted p s) : LineInv s := by
  obtain ⟨pics, enabled, pit⟩ := s
  obtain ⟨rfl, rfl, rfl⟩ := h
  rw [startPics_eq]
  exact .idle false

namespace LineInv

variable {s s' : PicState}

theorem length_le (h : LineInv s) : s.pit.length ≤ 1 := by
  cases h <;> simp

theorem lineOpen_iff (h : LineInv s) (irq : Fin 16) :
    LineOpen irq s.pics ↔
      irq = 1 ∨ irq = 2 ∨ irq = 8 ∨ irq = 0 ∧ ∀ p ∈ s.pit, p.Masked := by
  obtain ⟨hopen, hclosed⟩ := lineOpen_kernelPics irq
  cases h with
  | idle => simpa using hopen
  | entered => simpa [PitPlace.Masked] using hopen
  | disabling => simpa [PitPlace.Masked] using hopen
  | switching => simpa [PitPlace.Masked] using hclosed
  | enabling => simpa [PitPlace.Masked] using hclosed

theorem vectorOf_eq (h : LineInv s) (irq : Fin 16) :
    vectorOf irq s.pics = some (0x20 + irq.val) := by
  cases h <;> exact vectorOf_kernelPics _ irq

end LineInv

/-- An interrupt that is taken comes from a line with a wrapper, at its vector. -/
theorem LineInv.taken {s s' : PicState} {irq : Fin 16} {vector : Nat} (h : LineInv s)
    (hstep : LineStep s (.taken irq vector) s') :
    vector = 0x20 + irq.val ∧ ∃ handler, wrapperOf irq = some handler := by
  cases hstep with
  | device hline _ hopen hvector =>
      rw [h.vectorOf_eq] at hvector
      refine ⟨(Option.some.inj hvector).symm, ?_⟩
      rcases (h.lineOpen_iff irq).mp hopen with rfl | rfl | rfl | ⟨rfl, -⟩
      · exact ⟨_, rfl⟩
      · exact absurd rfl hline.2
      · exact ⟨_, rfl⟩
      · exact absurd rfl hline.1
  | pit _ _ hvector =>
      rw [h.vectorOf_eq] at hvector
      exact ⟨(Option.some.inj hvector).symm, _, rfl⟩

theorem LineInv.run {s s' : PicState} {events : List LineEvent} (h : LineInv s)
    (hrun : Run LineStep s events s') : LineInv s' :=
  hrun.invariant (fun _ _ _ hinv hstep => hinv.step hstep) h

/-- All interrupts that a run takes come from lines with wrappers, at their vectors. -/
theorem LineInv.run_taken {s s' : PicState} {events : List LineEvent} (h : LineInv s)
    (hrun : Run LineStep s events s') {irq : Fin 16} {vector : Nat}
    (htaken : LineEvent.taken irq vector ∈ events) :
    vector = 0x20 + irq.val ∧ ∃ handler, wrapperOf irq = some handler := by
  induction hrun with
  | nil => exact absurd htaken (by simp)
  | snoc hfirst hlast ih =>
      rcases List.mem_append.mp htaken with hbefore | hnow
      · exact ih hbefore
      · obtain rfl := List.mem_singleton.mp hnow
        exact (h.run hfirst).taken hlast

/-- The gate of a line that has a wrapper. -/
theorem readGate_wrapper {addr : HandlerName → Nat} (haddr : ∀ handler, addr handler < 2 ^ 32)
    (idt : Nat → IdtDesc) {irq : Fin 16} {handler : HandlerName}
    (hwrapper : wrapperOf irq = some handler) :
    readGate (initIdt addr idt (0x20 + irq.val)).word =
      ⟨addr handler, Selector.kernelCs, 14, 0, true⟩ := by
  have hentries : ∀ irq, (wrapperOf irq).isSome →
      idtEntries.lookup (0x20 + irq.val) = wrapperOf irq ∧ presentVector (0x20 + irq.val) ∧
        0x20 + irq.val < 256 ∧ 0x20 + irq.val ≠ systemCallIndex := by decide +kernel
  obtain ⟨hlookup, hpresent, hvector, hprivate⟩ := hentries irq (by rw [hwrapper]; rfl)
  rw [readGate_initIdt haddr idt hvector, hlookup, hwrapper, if_neg hprivate,
    decide_eq_true hpresent]
  rfl

/-- The machine starts with its chips in any state and its table with anything in it. Then, in
every interleaving of `pit_interrupt` with the other handlers and with code that enables and
disables interrupts, at every access to a port: an interrupt is taken only from a line that has a
wrapper, and its gate leads there, into the kernel's code with interrupts disabled; the chips send
every line at its vector; the lines of the keyboard, of the slave and of the clock are open all the
time, that of the timer except while `context_switch` runs, and all others are closed;
`pit_interrupt` is not called again before it has opened its line; and a program can call no vector
but that of the system calls. -/
theorem interrupts_reach_wrappers {addr : HandlerName → Nat}
    (haddr : ∀ handler, addr handler < 2 ^ 32) (idt : Nat → IdtDesc) {p : Pics}
    {s s' : PicState} {events : List LineEvent} (hstart : LinesStarted p s)
    (hrun : Run LineStep s events s') :
    (∀ irq vector, LineEvent.taken irq vector ∈ events → ∃ handler,
      wrapperOf irq = some handler ∧
        readGate (initIdt addr idt vector).word =
          ⟨addr handler, Selector.kernelCs, 14, 0, true⟩) ∧
    (∀ irq, vectorOf irq s'.pics = some (0x20 + irq.val)) ∧
    (∀ irq, LineOpen irq s'.pics ↔
      irq = 1 ∨ irq = 2 ∨ irq = 8 ∨ irq = 0 ∧ ∀ place ∈ s'.pit, place.Masked) ∧
    s'.pit.length ≤ 1 ∧
    ∀ v < 256, (readGate (initIdt addr idt v).word).dpl = 3 ↔ v = systemCallIndex := by
  have hinv := hstart.inv.run hrun
  refine ⟨fun irq vector htaken => ?_, hinv.vectorOf_eq, hinv.lineOpen_iff, hinv.length_le,
    fun v hv => ?_⟩
  · obtain ⟨rfl, handler, hwrapper⟩ := hstart.inv.run_taken hrun htaken
    exact ⟨handler, hwrapper, readGate_wrapper haddr idt hwrapper⟩
  · rw [readGate_initIdt haddr idt hv]
    by_cases hcall : v = systemCallIndex <;> simp [hcall]

/-- The chips in the middle of an initialisation. -/
def restartedPics : Pics := ⟨⟨0x12, 0x13, 0, 0, 0, .icw3⟩, ⟨0x34, 0, 7, 7, 7, .icw4⟩⟩

/-- The machine after the start of these chips. -/
def startedLines : PicState := ⟨startPics restartedPics, false, []⟩

/-- A key is pressed while the timer's interrupt switches processes with interrupts enabled. -/
theorem interrupts_reach_wrappers_nested : ∃ events s, Run LineStep startedLines events s ∧
    LineEvent.taken 1 33 ∈ events ∧ s.pit = [.enabling 0xF8] ∧
      ¬LineOpen 0 s.pics ∧ LineOpen 8 s.pics := by
  have hbound : 0x401000 < 2 ^ 32 := by decide
  have haddr : ∀ handler, (fun _ => 0x401000 : HandlerName → Nat) handler < 2 ^ 32 :=
    fun _ => hbound
  have hstart : LinesStarted restartedPics startedLines := ⟨rfl, rfl, rfl⟩
  have hsti := Run.single (@LineStep.setEnabled startedLines true (by simp [startedLines]))
  have hpit := hsti.snoc (@LineStep.pit _ 32 rfl (by decide) (by decide))
  have hclosed := (hpit.snoc (.readDisable rfl)).snoc (.writeDisable rfl)
  have hnested := hclosed.snoc (.setEnabled true (by simp [PitPlace.Masked]))
  have hkey := hnested.snoc (@LineStep.device _ 1 33 (by decide) rfl (by decide) (by decide))
  have hrun := hkey.snoc (.readEnable rfl)
  obtain ⟨-, -, hopen, -, -⟩ :=
    interrupts_reach_wrappers haddr (fun _ => blankGate) hstart hrun
  refine ⟨_, _, hrun, by simp, rfl, ?_, (hopen 8).mpr (by simp)⟩
  rw [hopen 0]
  simp [PitPlace.Masked]

end Ece391Kernel
