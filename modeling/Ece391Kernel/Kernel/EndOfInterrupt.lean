import Ece391Kernel.Library.Run
import Mathlib.Data.Finset.Basic
import Mathlib.Data.Fintype.Basic

/-!
# End of interrupt

The two 8259A, each by the levels that are in service and by its mask mode, and `send_eoi`. A
command byte is told by its bits 3 and 4, so the byte of a line of the slave means something else
to the master.
-/

namespace Ece391Kernel

open TransitionSystem

/-- An 8259A. -/
structure Chip where
  inService : Finset (Fin 8)
  specialMask : Bool
deriving DecidableEq

/-- The master, and the slave on the master's level 2. -/
structure Controllers where
  master : Chip
  slave : Chip
deriving DecidableEq

/-- `MASTER_8259_PORT` and `SLAVE_8259_PORT`. -/
inductive CommandPort
  | master
  | slave

section Commands

-- what a chip does at the commands that no handler sends
variable (other : UInt8 → Chip → Chip)

/-- A command byte that a chip receives. -/
def Chip.command (value : UInt8) (c : Chip) : Chip :=
  if value &&& 0x18 = 0 then
    -- OCW2, of which a specific end of interrupt is sent
    if value &&& 0xE0 = 0x60 then
      { c with inService := c.inService.erase (Fin.ofNat 8 (value &&& 7).toNat) }
    else other value c
  else if value &&& 0x18 = 8 then
    -- OCW3, whose bit 6 enables the setting of the mask mode to bit 5
    if value &&& 0x40 = 0 then c else { c with specialMask := value &&& 0x20 != 0 }
  else other value c

/-- `outb` to a command port. -/
def outb (data : UInt32) (port : CommandPort) (s : Controllers) : Controllers :=
  match port with
  | .master => { s with master := s.master.command other data.toUInt8 }
  | .slave => { s with slave := s.slave.command other data.toUInt8 }

/-- `send_eoi`. -/
def sendEoi (irqNum : UInt32) (s : Controllers) : Controllers :=
  let interruptCommand := irqNum ||| 0x60
  let s' :=
    if irqNum ≥ 8 then
      outb other (2 ||| 0x60) .master (outb other ((irqNum - 8) ||| 0x60) .slave s)
    else s
  outb other interruptCommand .master s'

/-- A chip takes an interrupt into service, or its handler reports the end. -/
inductive InterruptEvent
  | acknowledge (irq : Fin 16)
  | eoi (irq : Fin 16)

/-- The level of a line at its chip. -/
def levelOf (irq : Fin 16) : Fin 8 := Fin.ofNat 8 irq

/-- An interrupt is taken into service; one of the slave on the master's level 2 as well. -/
def acknowledge (irq : Fin 16) (s : Controllers) : Controllers :=
  if irq < 8 then { s with master.inService := insert (levelOf irq) s.master.inService }
  else
    { s with
      master.inService := insert 2 s.master.inService
      slave.inService := insert (levelOf irq) s.slave.inService }

/-- The interrupts of the sixteen lines, in any order and nesting. -/
inductive Interrupts : Controllers → InterruptEvent → Controllers → Prop
  | acknowledge (irq : Fin 16) (s : Controllers) :
      Interrupts s (.acknowledge irq) (acknowledge irq s)
  | eoi (irq : Fin 16) (s : Controllers) :
      Interrupts s (.eoi irq) (sendEoi other (UInt32.ofNat irq) s)

end Commands

/-! ## What a handler should leave -/

/-- The levels in service without those of one line. -/
def withoutLine (irq : Fin 16) (s : Controllers) : Finset (Fin 8) × Finset (Fin 8) :=
  if irq < 8 then (s.master.inService.erase (levelOf irq), s.slave.inService)
  else (s.master.inService.erase 2, s.slave.inService.erase (levelOf irq))

/-- Both mask modes stay, and an end of interrupt ends that interrupt only. -/
def EndsOnlyThat (e : InterruptEvent) (s s' : Controllers) : Prop :=
  s'.master.specialMask = s.master.specialMask ∧ s'.slave.specialMask = s.slave.specialMask ∧
    ∀ irq, e = .eoi irq → (s'.master.inService, s'.slave.inService) = withoutLine irq s

/-- Every event of a run does that. -/
def RunEndsOnlyThat (other : UInt8 → Chip → Chip) (s : Controllers)
    (events : List InterruptEvent) : Prop :=
  ∀ front e, front ++ [e] <+: events → ∀ t t', Run (Interrupts other) s front t →
    Interrupts other t e t' → EndsOnlyThat e t t'

/-! ## The commands of `send_eoi` -/

section Steps

variable {other : UInt8 → Chip → Chip} {s s' : Controllers} {events : List InterruptEvent}

/-- `0x60` with the number of a level is a specific end of interrupt. -/
theorem command_level (n : Fin 8) (c : Chip) :
    c.command other (UInt32.ofNat n ||| 0x60).toUInt8 =
      { c with inService := c.inService.erase n } := by
  have hbits : ∀ n : Fin 8, (UInt32.ofNat n ||| 0x60).toUInt8 &&& 0x18 = 0 ∧
      (UInt32.ofNat n ||| 0x60).toUInt8 &&& 0xE0 = 0x60 ∧
        Fin.ofNat 8 ((UInt32.ofNat n ||| 0x60).toUInt8 &&& 7).toNat = n := by decide
  obtain ⟨hocw2, hspecific, hlevel⟩ := hbits n
  rw [Chip.command, if_pos hocw2, if_pos hspecific, hlevel]

/-- `0x60` with the number of a line of the slave sets the special mask mode. -/
theorem command_line {irq : Fin 16} (hirq : 8 ≤ irq) (c : Chip) :
    c.command other (UInt32.ofNat irq ||| 0x60).toUInt8 = { c with specialMask := true } := by
  have hbits : ∀ irq : Fin 16, 8 ≤ irq → (UInt32.ofNat irq ||| 0x60).toUInt8 &&& 0x18 = 8 ∧
      (UInt32.ofNat irq ||| 0x60).toUInt8 &&& 0x40 ≠ 0 ∧
        ((UInt32.ofNat irq ||| 0x60).toUInt8 &&& 0x20 != 0) = true := by decide
  obtain ⟨hocw3, henabled, hset⟩ := hbits irq hirq
  rw [Chip.command, hocw3, if_neg (by decide), if_pos rfl, if_neg henabled, hset]

theorem sendEoi_master {irq : Fin 16} (hirq : irq < 8) (s : Controllers) :
    sendEoi other (UInt32.ofNat irq) s =
      { s with master.inService := s.master.inService.erase (levelOf irq) } := by
  have hline : ∀ irq : Fin 16, irq < 8 →
      ¬UInt32.ofNat irq ≥ 8 ∧ UInt32.ofNat irq = UInt32.ofNat (levelOf irq) := by decide
  obtain ⟨hmaster, hword⟩ := hline irq hirq
  rw [sendEoi, if_neg hmaster, hword, outb, command_level]

theorem sendEoi_slave {irq : Fin 16} (hirq : 8 ≤ irq) (s : Controllers) :
    sendEoi other (UInt32.ofNat irq) s =
      ⟨⟨s.master.inService.erase 2, true⟩,
        { s.slave with inService := s.slave.inService.erase (levelOf irq) }⟩ := by
  have hline : ∀ irq : Fin 16, 8 ≤ irq →
      UInt32.ofNat irq ≥ 8 ∧ UInt32.ofNat irq - 8 = UInt32.ofNat (levelOf irq) := by decide
  obtain ⟨hslave, hword⟩ := hline irq hirq
  have hcascade : (2 ||| 0x60 : UInt32) = UInt32.ofNat (2 : Fin 8) ||| 0x60 := rfl
  rw [sendEoi, if_pos hslave, hword, hcascade]
  simp only [outb, command_level, command_line hirq]

/-- The commands for a line of the slave set the special mask mode of the master. -/
theorem interrupts_specialMask {e : InterruptEvent} (h : Interrupts other s e s') :
    s'.slave.specialMask = s.slave.specialMask ∧
      (s'.master.specialMask = s.master.specialMask ∨
        s'.master.specialMask = true ∧ ∃ irq, e = .eoi irq ∧ 8 ≤ irq) := by
  cases h with
  | acknowledge irq =>
      unfold acknowledge
      split <;> exact ⟨rfl, Or.inl rfl⟩
  | eoi irq =>
      by_cases hirq : irq < 8
      · rw [sendEoi_master hirq]
        exact ⟨rfl, Or.inl rfl⟩
      · rw [sendEoi_slave (not_lt.mp hirq)]
        exact ⟨rfl, Or.inr ⟨rfl, irq, rfl, not_lt.mp hirq⟩⟩

/-- In service remains what should. -/
theorem sendEoi_inService (irq : Fin 16) (s : Controllers) :
    ((sendEoi other (UInt32.ofNat irq) s).master.inService,
      (sendEoi other (UInt32.ofNat irq) s).slave.inService) = withoutLine irq s := by
  unfold withoutLine
  by_cases hirq : irq < 8
  · rw [if_pos hirq, sendEoi_master hirq]
  · rw [if_neg hirq, sendEoi_slave (not_lt.mp hirq)]

/-- A step is right if the mode is set already, or if it does not end an interrupt of the slave. -/
theorem endsOnlyThat_iff {e : InterruptEvent} (h : Interrupts other s e s') :
    EndsOnlyThat e s s' ↔ s.master.specialMask = true ∨ ∀ irq, e = .eoi irq → irq < 8 := by
  have hends : ∀ irq, e = .eoi irq →
      (s'.master.inService, s'.slave.inService) = withoutLine irq s := by
    rintro irq rfl
    cases h
    exact sendEoi_inService irq s
  obtain ⟨hslave, hmaster⟩ := interrupts_specialMask h
  constructor
  · rintro ⟨hmode, -, -⟩
    by_cases hset : s.master.specialMask = true
    · exact Or.inl hset
    · refine Or.inr fun irq heq => not_le.mp fun hirq => hset ?_
      subst heq
      cases h
      rw [← hmode, sendEoi_slave hirq]
  · rintro (hset | hlow)
    · refine ⟨?_, hslave, hends⟩
      rcases hmaster with hsame | ⟨htrue, -⟩
      · exact hsame
      · rw [htrue, hset]
    · refine ⟨?_, hslave, hends⟩
      rcases hmaster with hsame | ⟨-, irq, heq, hirq⟩
      · exact hsame
      · exact absurd (hlow irq heq) (not_lt.mpr hirq)

/-- The special mask mode stays set. -/
theorem specialMask_of_run (h : Run (Interrupts other) s events s')
    (hset : s.master.specialMask = true) : s'.master.specialMask = true := by
  refine h.invariant (P := fun s => s.master.specialMask = true) (fun t e t' ht hstep => ?_) hset
  rcases (interrupts_specialMask hstep).2 with hsame | ⟨htrue, -⟩
  · rw [hsame, ht]
  · exact htrue

/-- In a run whose events are right the mode does not change. -/
theorem RunEndsOnlyThat.specialMask_eq (h : RunEndsOnlyThat other s events)
    {front : List InterruptEvent} (hrun : Run (Interrupts other) s front s')
    (hfront : front <+: events) : s'.master.specialMask = s.master.specialMask := by
  induction hrun with
  | nil => rfl
  | snoc hbefore hlast ih =>
      rw [(h _ _ hfront _ _ hbefore hlast).1]
      exact ih ((List.prefix_append _ _).trans hfront)

/-- Any events can happen. -/
theorem exists_interrupts_run (other : UInt8 → Chip → Chip) (s : Controllers)
    (events : List InterruptEvent) : ∃ s', Run (Interrupts other) s events s' := by
  induction events using List.reverseRecOn with
  | nil => exact ⟨s, Run.nil s⟩
  | append_singleton events e ih =>
      obtain ⟨t, hrun⟩ := ih
      cases e with
      | acknowledge irq => exact ⟨_, hrun.snoc (.acknowledge irq t)⟩
      | eoi irq => exact ⟨_, hrun.snoc (.eoi irq t)⟩

end Steps

/-- From every state and in every run, `send_eoi` ends that interrupt only and the mask modes stay,
if and only if the master is in special mask mode already or no interrupt of the slave is ended. -/
theorem runEndsOnlyThat_iff (other : UInt8 → Chip → Chip) (s : Controllers)
    (events : List InterruptEvent) :
    RunEndsOnlyThat other s events ↔
      s.master.specialMask = true ∨ ∀ irq, .eoi irq ∈ events → irq < 8 := by
  constructor
  · intro h
    by_cases hset : s.master.specialMask = true
    · exact Or.inl hset
    · refine Or.inr fun irq hmem => ?_
      -- up to this end of interrupt the mode has not changed
      obtain ⟨front, back, rfl⟩ := List.append_of_mem hmem
      have hpre : front ++ [.eoi irq] <+: front ++ .eoi irq :: back := ⟨back, by simp⟩
      obtain ⟨t, hrun⟩ := exists_interrupts_run other s front
      have hmode := h.specialMask_eq hrun (List.prefix_append _ _)
      have hright := h _ _ hpre t _ hrun (.eoi irq t)
      rcases (endsOnlyThat_iff (.eoi irq t)).mp hright with hset' | hlow
      · rw [hmode] at hset'
        exact absurd hset' hset
      · exact hlow irq rfl
  · rintro (hset | hlow) front e hpre t t' hrun hstep
    · exact (endsOnlyThat_iff hstep).mpr (Or.inl (specialMask_of_run hrun hset))
    · refine (endsOnlyThat_iff hstep).mpr (Or.inr fun irq heq => hlow irq ?_)
      exact hpre.subset (by simp [heq])

/-- The clock's interrupt, line 8, is taken and ended: the master is left in special mask mode. -/
theorem rtc_eoi_sets_mask_mode :
    ¬ RunEndsOnlyThat (fun _ c => c) ⟨⟨∅, false⟩, ⟨∅, false⟩⟩ [.acknowledge 8, .eoi 8] ∧
      Run (Interrupts fun _ c => c) ⟨⟨∅, false⟩, ⟨∅, false⟩⟩ [.acknowledge 8, .eoi 8]
        ⟨⟨∅, true⟩, ⟨∅, false⟩⟩ := by
  have hack : Run (Interrupts fun _ c => c) ⟨⟨∅, false⟩, ⟨∅, false⟩⟩ [.acknowledge 8]
      (acknowledge 8 ⟨⟨∅, false⟩, ⟨∅, false⟩⟩) := Run.single (.acknowledge 8 _)
  have heoi : Interrupts (fun _ c => c) (acknowledge 8 ⟨⟨∅, false⟩, ⟨∅, false⟩⟩) (.eoi 8) _ :=
    .eoi 8 _
  refine ⟨fun h => ?_, ?_⟩
  · have hright := h _ _ (List.prefix_refl _) _ _ hack heoi
    rcases (endsOnlyThat_iff heoi).mp hright with hset | hlow
    · exact absurd hset (by decide)
    · exact absurd (hlow 8 rfl) (by decide)
  · have hrun := hack.snoc heoi
    rwa [sendEoi_slave (by decide)] at hrun

end Ece391Kernel
