import Ece391Kernel.Descriptor.Calls
import Mathlib.Data.UInt
import Mathlib.Tactic.IntervalCases

/-!
# The real-time clock

The clock behind its two ports: the register that the next access to the data port goes to, and the
registers. Bit 7 of register A is the clock's own, registers C and D can only be read, and a read
of register C clears it. After an access to the data port the index may be any other one.
-/

namespace Ece391Kernel

/-- The clock. -/
structure Cmos where
  index : UInt8
  reg : UInt8 → UInt8

namespace Cmos

/-- `outb(data, RTC_PORT_ONE)`; bit 7 disables the NMI. -/
def select (data : UInt8) (c : Cmos) : Cmos := { c with index := data &&& 0x7F }

/-- `inb(RTC_PORT_TWO)`, the value that it reads and the clock after it. -/
def inb (after : UInt8) (c : Cmos) : UInt8 × Cmos :=
  (c.reg c.index,
    { index := after
      reg := if c.index = 0x0C then Function.update c.reg 0x0C 0 else c.reg })

/-- `outb(data, RTC_PORT_TWO)`. -/
def outb (data after : UInt8) (c : Cmos) : Cmos where
  index := after
  reg :=
    if c.index = 0x0A then
      Function.update c.reg 0x0A ((data &&& 0x7F) ||| (c.reg 0x0A &&& 0x80))
    else if c.index = 0x0C ∨ c.index = 0x0D then c.reg
    else Function.update c.reg c.index data

/-- The clock sets flags of register C, and bit 7 if one of them is enabled in register B. -/
def raise (flags : UInt8) (c : Cmos) : Cmos :=
  let set := c.reg 0x0C ||| (flags &&& 0x70)
  let regC := if set &&& c.reg 0x0B &&& 0x70 = 0 then set else set ||| 0x80
  { c with reg := Function.update c.reg 0x0C regC }

/-- The clock begins or ends an update. -/
def setUip (uip : UInt8) (c : Cmos) : Cmos :=
  { c with reg := Function.update c.reg 0x0A ((c.reg 0x0A &&& 0x7F) ||| (uip &&& 0x80)) }

/-- The clock asks for an interrupt. -/
def asks (c : Cmos) : Prop := c.reg 0x0C &&& 0x80 ≠ 0

instance (c : Cmos) : Decidable c.asks := inferInstanceAs (Decidable (_ ≠ _))

/-- The frequency of the periodic interrupt at a rate. -/
def frequencyOf (rate : UInt8) : Int := (32768 >>> (rate.toNat - 1) : Nat)

/-- The frequency of the periodic interrupt. -/
def frequency (c : Cmos) : Int := frequencyOf (c.reg 0x0A &&& 0x0F)

end Cmos

/-- The switch of `rtc_write`. -/
def rtcRate (frequency : Int) : Option UInt8 :=
  match frequency with
  | 2 => some (0x0F &&& 15)
  | 4 => some (0x0F &&& 14)
  | 8 => some (0x0F &&& 13)
  | 16 => some (0x0F &&& 12)
  | 32 => some (0x0F &&& 11)
  | 64 => some (0x0F &&& 10)
  | 128 => some (0x0F &&& 9)
  | 256 => some (0x0F &&& 8)
  | 512 => some (0x0F &&& 7)
  | 1024 => some (0x0F &&& 6)
  | _ => none

/-- `rtc_init`, but for `enable_irq`; `after` is the index after the accesses to the data port. -/
def rtcInit (after : Fin 4 → UInt8) (c : Cmos) : Cmos :=
  let c := c.select 0x8B
  let (prev, c) := c.inb (after 0)
  let c := (c.select 0x8B).outb (prev ||| 0x40) (after 1)
  let rate := 15 &&& 0x0F
  let c := c.select 0x8A
  let (prev, c) := c.inb (after 2)
  (c.select 0x8A).outb ((prev &&& 0xF0) ||| rate) (after 3)

/-! ## The registers -/

/-- `rtc_write` accepts the frequencies that have a rate. -/
theorem rtcRate_isSome (frequency : Int) :
    (rtcRate frequency).isSome ↔ frequency ∈ rtcFrequencies := by
  unfold rtcRate rtcFrequencies
  split <;> simp_all

theorem rtcWrite_eq (bytes : Int → UInt8) (k : Kernel) :
    rtcWrite (some bytes) k = (if (rtcRate (loadInt32 bytes)).isSome then 0 else -1, k) := by
  unfold rtcWrite
  simp only [rtcRate_isSome]
  split <;> rfl

/-- A rate fits in its bits and gives the frequency it is for. -/
theorem rtcRate_spec {frequency : Int} {rate : UInt8} (h : rtcRate frequency = some rate) :
    rate &&& 0x0F = rate ∧ Cmos.frequencyOf rate = frequency := by
  unfold rtcRate at h
  split at h <;>
    first
    | (obtain rfl := Option.some.inj h; exact ⟨by decide, by decide⟩)
    | exact absurd h (by simp)

/-- The clock's own bit of register A is not that of the value written. -/
theorem low_bits_write (data old : UInt8) :
    ((data &&& 0x7F) ||| (old &&& 0x80)) &&& 0x7F = data &&& 0x7F := by
  rw [← UInt8.toBitVec_inj]
  ext i hi
  simp only [UInt8.toBitVec_and, UInt8.toBitVec_or, BitVec.getElem_and, BitVec.getElem_or]
  interval_cases i <;> simp

/-- A value with a rate in its low bits. -/
theorem low_bits_rate (prev : UInt8) {rate : UInt8} (h : rate &&& 0x0F = rate) :
    ((prev &&& 0xF0) ||| rate) &&& 0x7F = (prev &&& 0x7F &&& 0x70) ||| rate := by
  rw [← h, ← UInt8.toBitVec_inj]
  ext i hi
  simp only [UInt8.toBitVec_and, UInt8.toBitVec_or, BitVec.getElem_and, BitVec.getElem_or]
  interval_cases i <;> simp

theorem rate_of_low_bits {a high rate : UInt8} (h : rate &&& 0x0F = rate)
    (ha : a &&& 0x7F = (high &&& 0x70) ||| rate) :
    a &&& 0x0F = rate ∧ a &&& 0x70 = high &&& 0x70 := by
  have hlow : a &&& 0x0F = a &&& 0x7F &&& 0x0F := by
    rw [UInt8.and_assoc]
    rfl
  have hhigh : a &&& 0x70 = a &&& 0x7F &&& 0x70 := by
    rw [UInt8.and_assoc]
    rfl
  rw [hlow, hhigh, ha, ← h]
  constructor <;>
  · rw [← UInt8.toBitVec_inj]
    ext i hi
    simp only [UInt8.toBitVec_and, UInt8.toBitVec_or, BitVec.getElem_and, BitVec.getElem_or]
    interval_cases i <;> simp

end Ece391Kernel
