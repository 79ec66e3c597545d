import Ece391Kernel.Clock.Device
import Ece391Kernel.Library.MaskedSections
import Ece391Kernel.Library.Run

/-!
# The rate of the real-time clock

The processes that set the rate of the clock, and its interrupt, one access to a port at a time. All
of them go through the same index register, and a process reads register A before it writes it. It
disables interrupts meanwhile, so that neither the handler nor another process comes between.
-/

namespace Ece391Kernel

open TransitionSystem MaskedSections

/-- Where a process is in `rtc_write`, with the values of its variables. -/
inductive WriterPlace
  | outside
  | masked (frequency : Int) (rate : UInt8)
  | selected (frequency : Int) (rate : UInt8)
  | read (frequency : Int) (rate prev : UInt8)
  | reselected (frequency : Int) (rate prev : UInt8)
  | written

/-- Where `rtc_interrupt` is. -/
inductive HandlerPlace
  | entered
  | selected
  | cleared
deriving DecidableEq

/-- The clock, its request at the interrupt controller, the processes, and its handler. -/
structure RateState where
  device : Cmos
  pending : Bool
  cpu : Cpu (Fin 6) WriterPlace
  handler : Option HandlerPlace

namespace RateState

/-- The process that runs is at a place, and is not interrupted. -/
def At (p : WriterPlace) (s : RateState) : Prop :=
  s.handler = none ∧ s.cpu.place s.cpu.running = p

/-- The process that runs has gone to a place. -/
def goto (device : Cmos) (p : WriterPlace) (enabled : Bool) (s : RateState) : RateState :=
  { s with device := device, cpu := s.cpu.move p enabled }

end RateState

/-- A rate is written to the clock, or something else happens. -/
inductive RateEvent
  | accepted (frequency : Int)
  | other

/-- The statements of `rtc_write` and of `rtc_interrupt`, and what the clock and the other code
do. -/
inductive RateStep : RateState → RateEvent → RateState → Prop
  | cli {s : RateState} {frequency : Int} {rate : UInt8} (hrate : rtcRate frequency = some rate)
      (h : s.At .outside) : RateStep s .other (s.goto s.device (.masked frequency rate) false)
  | select {s : RateState} {frequency : Int} {rate : UInt8} (h : s.At (.masked frequency rate)) :
      RateStep s .other
        (s.goto (s.device.select 0x8A) (.selected frequency rate) s.cpu.enabled)
  | read {s : RateState} {frequency : Int} {rate : UInt8} (after : UInt8)
      (h : s.At (.selected frequency rate)) :
      RateStep s .other (s.goto (s.device.inb after).2
        (.read frequency rate (s.device.inb after).1) s.cpu.enabled)
  | reselect {s : RateState} {frequency : Int} {rate prev : UInt8}
      (h : s.At (.read frequency rate prev)) :
      RateStep s .other
        (s.goto (s.device.select 0x8A) (.reselected frequency rate prev) s.cpu.enabled)
  | write {s : RateState} {frequency : Int} {rate prev : UInt8} (after : UInt8)
      (h : s.At (.reselected frequency rate prev)) :
      RateStep s (.accepted frequency)
        (s.goto (s.device.outb ((prev &&& 0xF0) ||| rate) after) .written s.cpu.enabled)
  | sti {s : RateState} (h : s.At .written) : RateStep s .other (s.goto s.device .outside true)
  | interrupt {s : RateState} (hhandler : s.handler = none) (henabled : s.cpu.enabled = true)
      (hpending : s.pending = true) :
      RateStep s .other { s with
        pending := false
        cpu := { s.cpu with enabled := false }
        handler := some .entered }
  | selectC {s : RateState} (h : s.handler = some .entered) :
      RateStep s .other { s with device := s.device.select 0x0C, handler := some .selected }
  | readC {s : RateState} (after : UInt8) (h : s.handler = some .selected) :
      RateStep s .other { s with device := (s.device.inb after).2, handler := some .cleared }
  | iret {s : RateState} (h : s.handler = some .cleared) :
      RateStep s .other { s with cpu := { s.cpu with enabled := true }, handler := none }
  | switch {s : RateState} (t : Fin 6) (hhandler : s.handler = none)
      (henabled : s.cpu.enabled = true) :
      RateStep s .other { s with cpu := { s.cpu with running := t } }
  | setEnabled {s : RateState} (e : Bool) (h : s.At .outside) :
      RateStep s .other { s with cpu := { s.cpu with enabled := e } }
  | raise {s : RateState} (flags : UInt8) :
      RateStep s .other { s with
        device := s.device.raise flags
        pending := s.pending || (decide (s.device.raise flags).asks && !decide s.device.asks) }
  | update {s : RateState} (uip : UInt8) :
      RateStep s .other { s with device := s.device.setUip uip }

/-- The frequency that was asked for last, after an event. -/
def RateEvent.after (last : Int) : RateEvent → Int
  | .accepted frequency => frequency
  | .other => last

/-- The frequency that was asked for last, by any process; at first it is that of `rtc_init`. -/
def lastFrequency (events : List RateEvent) : Int := events.foldl RateEvent.after 2

/-! ## The registers -/

/-- Register A holds the rate of a frequency, and all other bits that the kernel can write are as
`rtc_init` has left them. -/
structure RateSet (c₀ : Cmos) (frequency : Int) (c : Cmos) : Prop where
  rate : ∃ rate, rtcRate frequency = some rate ∧
    c.reg 0x0A &&& 0x7F = (c₀.reg 0x0A &&& 0x70) ||| rate
  control : c.reg 0x0B = c₀.reg 0x0B ||| 0x40
  other : ∀ i, i ≠ 0x0A → i ≠ 0x0B → i ≠ 0x0C → c.reg i = c₀.reg i

section Registers

variable {c₀ c : Cmos} {frequency : Int} {rate prev : UInt8}

namespace RateSet

theorem of_regs {c' : Cmos} (h : RateSet c₀ frequency c)
    (hA : c'.reg 0x0A &&& 0x7F = c.reg 0x0A &&& 0x7F)
    (hsame : ∀ i, i ≠ 0x0A → i ≠ 0x0C → c'.reg i = c.reg i) : RateSet c₀ frequency c' where
  rate := by rw [hA]; exact h.rate
  control := (hsame 0x0B (by decide) (by decide)).trans h.control
  other := fun i hiA hiB hiC => (hsame i hiA hiC).trans (h.other i hiA hiB hiC)

theorem select (h : RateSet c₀ frequency c) (data : UInt8) :
    RateSet c₀ frequency (c.select data) :=
  h.of_regs rfl fun _ _ _ => rfl

/-- A read can change register C only. -/
theorem inb (h : RateSet c₀ frequency c) (after : UInt8) :
    RateSet c₀ frequency (c.inb after).2 := by
  have hreg : ∀ i, i ≠ 0x0C → (c.inb after).2.reg i = c.reg i := by
    intro i hi
    unfold Cmos.inb
    simp only
    split
    · exact Function.update_of_ne hi _ _
    · rfl
  exact h.of_regs (by rw [hreg 0x0A (by decide)]) fun i _ hi => hreg i hi

theorem raise (h : RateSet c₀ frequency c) (flags : UInt8) :
    RateSet c₀ frequency (c.raise flags) := by
  have hreg : ∀ i, i ≠ 0x0C → (c.raise flags).reg i = c.reg i :=
    fun i hi => Function.update_of_ne hi _ _
  exact h.of_regs (by rw [hreg 0x0A (by decide)]) fun i _ hi => hreg i hi

theorem setUip (h : RateSet c₀ frequency c) (uip : UInt8) :
    RateSet c₀ frequency (c.setUip uip) := by
  refine h.of_regs ?_ fun i hi _ => Function.update_of_ne hi _ _
  unfold Cmos.setUip
  simp only [Function.update_self]
  rw [low_bits_write]

/-- The write of `rtc_write`, of a value made from what register A holds. -/
theorem outb (h : RateSet c₀ frequency c) {frequency' : Int}
    (hrate : rtcRate frequency' = some rate) (hindex : c.index = 0x0A)
    (hprev : prev &&& 0x7F = c.reg 0x0A &&& 0x7F) (after : UInt8) :
    RateSet c₀ frequency' (c.outb ((prev &&& 0xF0) ||| rate) after) := by
  obtain ⟨old, hold, hbits⟩ := h.rate
  have hreg : (c.outb ((prev &&& 0xF0) ||| rate) after).reg = Function.update c.reg 0x0A
      ((((prev &&& 0xF0) ||| rate) &&& 0x7F) ||| (c.reg 0x0A &&& 0x80)) := by
    unfold Cmos.outb
    simp only [if_pos hindex]
  have hhigh : prev &&& 0x7F &&& 0x70 = c₀.reg 0x0A &&& 0x70 := by
    obtain ⟨-, hkept⟩ := rate_of_low_bits (rtcRate_spec hold).1 hbits
    have hmask : (0x7F : UInt8) &&& 0x70 = 0x70 := by decide
    rw [hprev, UInt8.and_assoc, hmask, hkept]
  refine ⟨⟨rate, hrate, ?_⟩, ?_, fun i hiA hiB hiC => ?_⟩
  · rw [hreg, Function.update_self, low_bits_write, low_bits_rate prev (rtcRate_spec hrate).1,
      hhigh]
  · rw [hreg, Function.update_of_ne (by decide)]
    exact h.control
  · rw [hreg, Function.update_of_ne hiA]
    exact h.other i hiA hiB hiC

/-- `rtc_init` sets the lowest frequency and enables the periodic interrupt. -/
theorem rtcInit (after : Fin 4 → UInt8) (c₀ : Cmos) : RateSet c₀ 2 (rtcInit after c₀) := by
  have hB : (0x8B : UInt8) &&& 0x7F = 0x0B := by decide
  have hA : (0x8A : UInt8) &&& 0x7F = 0x0A := by decide
  have hBA : (0x0B : UInt8) ≠ 0x0A := by decide
  have hBC : ¬((0x0B : UInt8) = 0x0C ∨ (0x0B : UInt8) = 0x0D) := by decide
  have hbit : (15 : UInt8) &&& 0x0F &&& 0x0F = 15 &&& 0x0F := by decide
  have hreg : (Ece391Kernel.rtcInit after c₀).reg =
      Function.update (Function.update c₀.reg 0x0B (c₀.reg 0x0B ||| 0x40)) 0x0A
        (((c₀.reg 0x0A &&& 0xF0 ||| 15 &&& 0x0F) &&& 0x7F) ||| (c₀.reg 0x0A &&& 0x80)) := by
    unfold Ece391Kernel.rtcInit Cmos.select Cmos.inb Cmos.outb
    simp only [hA, hB, if_neg hBA, if_neg hBC, if_true, Function.update_of_ne hBA.symm]
    rfl
  refine ⟨⟨_, rfl, ?_⟩, ?_, fun i hiA hiB _ => ?_⟩
  · rw [hreg, Function.update_self, low_bits_write, low_bits_rate _ hbit, UInt8.and_assoc]
    rfl
  · rw [hreg, Function.update_of_ne hBA, Function.update_self]
  · rw [hreg, Function.update_of_ne hiA, Function.update_of_ne hiB]

/-- The frequency that the registers give. -/
theorem frequency_eq (h : RateSet c₀ frequency c) :
    c.frequency = frequency ∧ c.reg 0x0A &&& 0x70 = c₀.reg 0x0A &&& 0x70 := by
  obtain ⟨rate, hrate, hbits⟩ := h.rate
  obtain ⟨hfits, hfrequency⟩ := rtcRate_spec hrate
  obtain ⟨hlow, hhigh⟩ := rate_of_low_bits hfits hbits
  refine ⟨?_, hhigh⟩
  unfold Cmos.frequency
  rw [hlow, hfrequency]

end RateSet

/-- A read of register C ends the request. -/
theorem not_asks_inb (hindex : c.index = 0x0C) (after : UInt8) : ¬(c.inb after).2.asks := by
  unfold Cmos.asks Cmos.inb
  simp only [if_pos hindex, Function.update_self]
  decide

/-- A read of register A is no read of register C. -/
theorem asks_inb (hindex : c.index = 0x0A) (after : UInt8) : (c.inb after).2.asks ↔ c.asks := by
  have hne : c.index ≠ 0x0C := by
    rw [hindex]
    decide
  unfold Cmos.asks Cmos.inb
  simp only [if_neg hne]

theorem asks_outb (hindex : c.index = 0x0A) (data after : UInt8) :
    (c.outb data after).asks ↔ c.asks := by
  unfold Cmos.asks Cmos.outb
  simp only [if_pos hindex]
  rw [Function.update_of_ne (by decide)]

theorem asks_setUip (uip : UInt8) : (c.setUip uip).asks ↔ c.asks := by
  unfold Cmos.asks Cmos.setUip
  simp only
  rw [Function.update_of_ne (by decide)]

end Registers

/-! ## One step -/

/-- What holds where a process is, of the clock and of its variables. -/
def WriterPlace.holds (c : Cmos) : WriterPlace → Prop
  | .outside => True
  | .masked frequency rate => rtcRate frequency = some rate
  | .selected frequency rate => rtcRate frequency = some rate ∧ c.index = 0x0A
  | .read frequency rate prev =>
      rtcRate frequency = some rate ∧ prev &&& 0x7F = c.reg 0x0A &&& 0x7F
  | .reselected frequency rate prev =>
      rtcRate frequency = some rate ∧ prev &&& 0x7F = c.reg 0x0A &&& 0x7F ∧ c.index = 0x0A
  | .written => True

/-- The rate is the last one written; only the process that runs is in `rtc_write`, with interrupts
disabled; and a clock that asks for an interrupt has one coming, whose handler clears the
request. -/
structure ClockInv (c₀ : Cmos) (frequency : Int) (s : RateState) : Prop where
  rate : RateSet c₀ frequency s.device
  exclusive : Exclusive (· ≠ .outside) s.cpu
  handler : s.handler ≠ none → s.cpu.enabled = false ∧ s.cpu.place s.cpu.running = .outside
  place : (s.cpu.place s.cpu.running).holds s.device
  index : s.handler = some .selected → s.device.index = 0x0C
  awake : s.device.asks →
    s.pending = true ∨ s.handler = some .entered ∨ s.handler = some .selected

namespace ClockInv

variable {c₀ : Cmos} {frequency : Int} {s s' : RateState}

/-- Inside `rtc_write` interrupts are disabled. -/
theorem disabled (h : ClockInv c₀ frequency s) {p : WriterPlace} (hat : s.At p)
    (hp : p ≠ .outside) : s.cpu.enabled = false :=
  (h.exclusive s.cpu.running (by rw [hat.2]; exact hp)).2

/-- A step of the process that runs. -/
theorem goto (h : ClockInv c₀ frequency s) {p : WriterPlace} (hat : s.At p) {frequency' : Int}
    {device : Cmos} {p' : WriterPlace} {e : Bool} (hrate : RateSet c₀ frequency' device)
    (hdisabled : p' ≠ .outside → e = false) (hholds : p'.holds device)
    (hasks : device.asks → s.device.asks) : ClockInv c₀ frequency' (s.goto device p' e) where
  rate := hrate
  exclusive := h.exclusive.move hdisabled
  handler := fun hne => absurd hat.1 hne
  place := by
    unfold RateState.goto
    simp only [Cpu.move_place, Cpu.move_running, if_true]
    exact hholds
  index := fun hselected => by
    have hnone : s.handler = some .selected := hselected
    rw [hat.1] at hnone
    exact absurd hnone (by simp)
  awake := fun hasks' => h.awake (hasks hasks')

/-- Nobody is in `rtc_write` while interrupts are enabled. -/
theorem outside (h : ClockInv c₀ frequency s) (henabled : s.cpu.enabled = true) (t : Fin 6) :
    s.cpu.place t = .outside :=
  not_not.mp (h.exclusive.outside_of_enabled henabled t)

/-- The registers change in a way that the process that runs does not see. -/
theorem of_device (h : ClockInv c₀ frequency s) {device : Cmos} (pending : Bool)
    (hrate : RateSet c₀ frequency device) (hindex : device.index = s.device.index)
    (hlow : device.reg 0x0A &&& 0x7F = s.device.reg 0x0A &&& 0x7F)
    (hawake : device.asks →
      pending = true ∨ s.handler = some .entered ∨ s.handler = some .selected) :
    ClockInv c₀ frequency { s with device := device, pending := pending } where
  rate := hrate
  exclusive := h.exclusive
  handler := h.handler
  place := by
    have hplace := h.place
    simp only
    cases hp : s.cpu.place s.cpu.running with
    | outside => trivial
    | written => trivial
    | masked f r =>
        rw [hp] at hplace
        exact hplace
    | selected f r =>
        rw [hp] at hplace
        exact ⟨hplace.1, hindex.trans hplace.2⟩
    | read f r prev =>
        rw [hp] at hplace
        exact ⟨hplace.1, hplace.2.trans hlow.symm⟩
    | reselected f r prev =>
        rw [hp] at hplace
        exact ⟨hplace.1, hplace.2.1.trans hlow.symm, hindex.trans hplace.2.2⟩
  index := fun hselected => hindex.trans (h.index hselected)
  awake := hawake

/-- The statements of the handler. -/
theorem of_handler (h : ClockInv c₀ frequency s) {now next : HandlerPlace}
    (hnow : s.handler = some now) {device : Cmos} (hrate : RateSet c₀ frequency device)
    (hindex : next = .selected → device.index = 0x0C)
    (hawake : device.asks → s.pending = true ∨ next = .entered ∨ next = .selected) :
    ClockInv c₀ frequency { s with device := device, handler := some next } := by
  obtain ⟨hdisabled, houtside⟩ := h.handler (by rw [hnow]; simp)
  refine ⟨hrate, h.exclusive, fun _ => ⟨hdisabled, houtside⟩, ?_, ?_, ?_⟩
  · simp only [houtside]
    trivial
  · simpa using hindex
  · simpa using hawake

theorem step (h : ClockInv c₀ frequency s) {e : RateEvent} (hstep : RateStep s e s') :
    ClockInv c₀ (e.after frequency) s' := by
  cases hstep with
  | cli hrate hat => exact h.goto hat h.rate (fun _ => rfl) hrate id
  | select hat =>
      have hholds := h.place
      rw [hat.2] at hholds
      exact h.goto hat (h.rate.select 0x8A) (fun _ => h.disabled hat (by simp)) ⟨hholds, rfl⟩ id
  | read after hat =>
      have hholds := h.place
      rw [hat.2] at hholds
      obtain ⟨hrate, hindex⟩ := hholds
      refine h.goto hat (h.rate.inb after) (fun _ => h.disabled hat (by simp)) ⟨hrate, ?_⟩
        (asks_inb hindex after).mp
      unfold Cmos.inb
      simp only [hindex]
      rw [if_neg (by decide)]
  | reselect hat =>
      have hholds := h.place
      rw [hat.2] at hholds
      exact h.goto hat (h.rate.select 0x8A) (fun _ => h.disabled hat (by simp))
        ⟨hholds.1, hholds.2, rfl⟩ id
  | write after hat =>
      have hholds := h.place
      rw [hat.2] at hholds
      obtain ⟨hrate, hprev, hindex⟩ := hholds
      exact h.goto hat (h.rate.outb hrate hindex hprev after)
        (fun _ => h.disabled hat (by simp)) trivial (asks_outb hindex _ after).mp
  | sti hat => exact h.goto hat h.rate (fun hne => absurd rfl hne) trivial id
  | interrupt hhandler henabled hpending =>
      have houtside := h.outside henabled s.cpu.running
      refine ⟨h.rate, h.exclusive.setEnabled (not_not.mpr houtside) false,
        fun _ => ⟨rfl, houtside⟩, h.place, fun hne => absurd hne (by simp), fun _ => ?_⟩
      exact Or.inr (Or.inl rfl)
  | selectC hat =>
      exact h.of_handler hat (h.rate.select 0x0C) (fun _ => rfl) fun _ => Or.inr (Or.inr rfl)
  | readC after hat =>
      exact h.of_handler hat (h.rate.inb after) (fun hne => absurd hne (by simp)) fun hasks =>
        absurd hasks (not_asks_inb (h.index hat) after)
  | iret hat =>
      obtain ⟨-, houtside⟩ := h.handler (by rw [hat]; simp)
      refine ⟨h.rate, h.exclusive.setEnabled (not_not.mpr houtside) true,
        fun hne => absurd rfl hne, h.place, fun hne => absurd hne (by simp), fun hasks => ?_⟩
      rcases h.awake hasks with hpending | hentered | hselected
      · exact Or.inl hpending
      · rw [hat] at hentered
        exact absurd hentered (by simp)
      · rw [hat] at hselected
        exact absurd hselected (by simp)
  | switch t hhandler henabled =>
      refine ⟨h.rate, h.exclusive.switch henabled t, fun hne => absurd hhandler hne, ?_, h.index,
        h.awake⟩
      simp only [h.outside henabled t]
      trivial
  | setEnabled e hat =>
      exact ⟨h.rate, h.exclusive.setEnabled (not_not.mpr hat.2) e, fun hne => absurd hat.1 hne,
        h.place, h.index, h.awake⟩
  | raise flags =>
      refine h.of_device _ (h.rate.raise flags) rfl ?_ fun hasks => ?_
      · unfold Cmos.raise
        simp only
        rw [Function.update_of_ne (by decide)]
      · by_cases hbefore : s.device.asks
        · rcases h.awake hbefore with hpending | hhandler
          · exact Or.inl (by rw [hpending]; rfl)
          · exact Or.inr hhandler
        · exact Or.inl (by simp [hasks, hbefore])
  | update uip =>
      refine h.of_device s.pending (h.rate.setUip uip) rfl ?_ fun hasks =>
        h.awake ((asks_setUip uip).mp hasks)
      unfold Cmos.setUip
      simp only [Function.update_self]
      rw [low_bits_write]

theorem run {events : List RateEvent} (hrun : Run RateStep s events s')
    (h : ClockInv c₀ frequency s) : ClockInv c₀ (events.foldl RateEvent.after frequency) s' := by
  induction hrun with
  | nil => exact h
  | snoc _ hlast ih =>
      rw [List.foldl_concat]
      exact ih.step hlast

end ClockInv

/-- The clock has been initialised, nobody is in `rtc_write` or in the handler, and a request that
the clock already has is on its way. -/
structure ClockStarted (after : Fin 4 → UInt8) (c₀ : Cmos) (s : RateState) : Prop where
  device : s.device = rtcInit after c₀
  outside : ∀ t, s.cpu.place t = .outside
  handler : s.handler = none
  awake : s.device.asks → s.pending = true

/-- If a request that the clock has at the start is on its way, then in every interleaving of the
processes that set the rate, the other processes and the clock's interrupts, at every access to a
port: the clock ticks at the frequency that was written last, by
whichever process; no other bit that the kernel can write changes after `rtc_init`; and the clock
does not get stuck: if it asks for an interrupt, then this interrupt is pending, or its handler is
about to clear the request. -/
theorem clock_keeps_last_rate (after : Fin 4 → UInt8) (c₀ : Cmos) {s s' : RateState}
    {events : List RateEvent} (hstart : ClockStarted after c₀ s)
    (hrun : Run RateStep s events s') :
    s'.device.frequency = lastFrequency events ∧
    s'.device.reg 0x0A &&& 0x70 = c₀.reg 0x0A &&& 0x70 ∧
    s'.device.reg 0x0B = c₀.reg 0x0B ||| 0x40 ∧
    (∀ i, i ≠ 0x0A → i ≠ 0x0B → i ≠ 0x0C → s'.device.reg i = c₀.reg i) ∧
    (s'.device.asks →
      s'.pending = true ∨ s'.handler = some .entered ∨ s'.handler = some .selected) := by
  have hinv : ClockInv c₀ 2 s := by
    refine ⟨?_, fun t ht => absurd (hstart.outside t) ht, fun hne => absurd hstart.handler hne,
      ?_, fun hne => ?_, fun hasks => Or.inl (hstart.awake hasks)⟩
    · rw [hstart.device]
      exact RateSet.rtcInit after c₀
    · rw [hstart.outside]
      trivial
    · rw [hstart.handler] at hne
      exact absurd hne (by simp)
  have h := hinv.run hrun
  obtain ⟨hfrequency, hhigh⟩ := h.rate.frequency_eq
  exact ⟨hfrequency, hhigh, h.rate.control, h.rate.other, h.awake⟩

/-- A clock after `rtc_init`, with a process that has interrupts enabled. -/
def startedClock : RateState where
  device := rtcInit (fun _ => 0x0D) ⟨0, fun _ => 0⟩
  pending := false
  cpu := ⟨Fin.last 5, fun _ => .outside, true⟩
  handler := none

/-- The clock ticks while a process sets its frequency to 32, and its handler comes afterwards. -/
theorem clock_keeps_last_rate_32 : ∃ events s, Run RateStep startedClock events s ∧
    s.handler = some .entered ∧ s.device.frequency = 32 ∧
    (s.device.asks →
      s.pending = true ∨ s.handler = some .entered ∨ s.handler = some .selected) := by
  have hasks : ¬startedClock.device.asks := by decide
  have hstart : ClockStarted (fun _ => 0x0D) ⟨0, fun _ => 0⟩ startedClock :=
    ⟨rfl, fun _ => rfl, rfl, fun h => absurd h hasks⟩
  have hcli := Run.single (@RateStep.cli startedClock 32 11 rfl ⟨rfl, rfl⟩)
  have hread := (hcli.snoc (.select ⟨rfl, rfl⟩)).snoc (.read 0x0D ⟨rfl, rfl⟩)
  have htick := hread.snoc (.raise 0x40)
  have hwrite := (htick.snoc (.reselect ⟨rfl, rfl⟩)).snoc (.write 0x0D ⟨rfl, rfl⟩)
  have hdone := (hwrite.snoc (.sti ⟨rfl, rfl⟩)).snoc (.interrupt rfl rfl (by decide))
  obtain ⟨hfrequency, -, -, -, hawake⟩ :=
    clock_keeps_last_rate (fun _ => 0x0D) ⟨0, fun _ => 0⟩ hstart hdone
  exact ⟨_, _, hdone, rfl, hfrequency, hawake⟩

end Ece391Kernel
