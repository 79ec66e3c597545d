import Ece391Kernel.Library.BitFields
import Mathlib.Init

/-!
# Descriptors

The descriptors of `x86_desc.h` as the kernel fills in their bit fields, the words that this makes,
and what the processor reads in the words.
-/

namespace Ece391Kernel

open BitFields

namespace Selector

/-- `KERNEL_CS`. -/
def kernelCs : Nat := 0x0010

/-- `KERNEL_DS`. -/
def kernelDs : Nat := 0x0018

/-- `USER_CS`. -/
def userCs : Nat := 0x0023

/-- `USER_DS`. -/
def userDs : Nat := 0x002B

/-- `KERNEL_TSS`. -/
def kernelTss : Nat := 0x0030

/-- `KERNEL_LDT`. -/
def kernelLdt : Nat := 0x0038

end Selector

/-! ## Gates -/

/-- `idt_desc_t`. -/
structure IdtDesc where
  offset15_00 : Nat
  segSelector : Nat
  reserved4 : Nat
  reserved3 : Nat
  reserved2 : Nat
  reserved1 : Nat
  size : Nat
  reserved0 : Nat
  dpl : Nat
  present : Nat
  offset31_16 : Nat

/-- The eight bytes of a descriptor. -/
def IdtDesc.word (d : IdtDesc) : Nat :=
  pack [(16, d.offset15_00), (16, d.segSelector), (8, d.reserved4), (1, d.reserved3),
    (1, d.reserved2), (1, d.reserved1), (1, d.size), (1, d.reserved0), (2, d.dpl), (1, d.present),
    (16, d.offset31_16)]

/-- `SET_IDT_ENTRY`. -/
def setIdtEntry (handler : Nat) (d : IdtDesc) : IdtDesc :=
  { d with
    offset31_16 := (handler &&& 0xFFFF0000) >>> 16
    offset15_00 := handler &&& 0xFFFF }

/-- What the processor reads in a gate. The kind is that of a 32-bit interrupt gate, if it is 14. -/
structure Gate where
  offset : Nat
  selector : Nat
  kind : Nat
  dpl : Nat
  present : Bool
deriving DecidableEq

/-- A gate of the interrupt descriptor table. -/
def readGate (word : Nat) : Gate where
  offset := field 0 16 word + 2 ^ 16 * field 48 16 word
  selector := field 16 16 word
  kind := field 40 5 word
  dpl := field 45 2 word
  present := field 47 1 word = 1

/-! ## Segments -/

/-- `seg_desc_t`. -/
structure SegDesc where
  segLim15_00 : Nat
  base15_00 : Nat
  base23_16 : Nat
  type : Nat
  sys : Nat
  dpl : Nat
  present : Nat
  segLim19_16 : Nat
  avail : Nat
  reserved : Nat
  opsize : Nat
  granularity : Nat
  base31_24 : Nat

/-- The eight bytes of a descriptor. -/
def SegDesc.word (d : SegDesc) : Nat :=
  pack [(16, d.segLim15_00), (16, d.base15_00), (8, d.base23_16), (4, d.type), (1, d.sys),
    (2, d.dpl), (1, d.present), (4, d.segLim19_16), (1, d.avail), (1, d.reserved), (1, d.opsize),
    (1, d.granularity), (8, d.base31_24)]

/-- `SET_LDT_PARAMS` and `SET_TSS_PARAMS`, which are the same. -/
def setParams (addr lim : Nat) (d : SegDesc) : SegDesc :=
  { d with
    base31_24 := (addr &&& 0xFF000000) >>> 24
    base23_16 := (addr &&& 0x00FF0000) >>> 16
    base15_00 := addr &&& 0x0000FFFF
    segLim19_16 := (lim &&& 0x000F0000) >>> 16
    segLim15_00 := lim &&& 0x0000FFFF }

/-- What the processor reads in a segment descriptor. -/
structure Segment where
  base : Nat
  limit : Nat
  type : Nat
  sys : Nat
  dpl : Nat
  present : Bool
  granularity : Nat
deriving DecidableEq

/-- A descriptor of the global descriptor table. -/
def readSegment (word : Nat) : Segment where
  base := field 16 24 word + 2 ^ 24 * field 56 8 word
  limit := field 0 16 word + 2 ^ 16 * field 48 4 word
  type := field 40 4 word
  sys := field 44 1 word
  dpl := field 45 2 word
  present := field 47 1 word = 1
  granularity := field 55 1 word

/-! ## Round trips -/

theorem readGate_word (d : IdtDesc) :
    readGate d.word =
      { offset := d.offset15_00 % 2 ^ 16 + 2 ^ 16 * (d.offset31_16 % 2 ^ 16)
        selector := d.segSelector % 2 ^ 16
        kind := pack [(1, d.reserved3), (1, d.reserved2), (1, d.reserved1), (1, d.size),
          (1, d.reserved0)]
        dpl := d.dpl % 2 ^ 2
        present := d.present % 2 ^ 1 = 1 } := by
  have hlow : field 0 16 d.word = d.offset15_00 % 2 ^ 16 := by
    rw [← pack_singleton]
    exact field_pack [] [(16, d.offset15_00)] _
  have hselector : field 16 16 d.word = d.segSelector % 2 ^ 16 := by
    rw [← pack_singleton]
    exact field_pack [(16, d.offset15_00)] [(16, d.segSelector)] _
  have hkind : field 40 5 d.word = pack [(1, d.reserved3), (1, d.reserved2), (1, d.reserved1),
      (1, d.size), (1, d.reserved0)] :=
    field_pack [(16, d.offset15_00), (16, d.segSelector), (8, d.reserved4)]
      [(1, d.reserved3), (1, d.reserved2), (1, d.reserved1), (1, d.size), (1, d.reserved0)] _
  have hdpl : field 45 2 d.word = d.dpl % 2 ^ 2 := by
    rw [← pack_singleton]
    exact field_pack [(16, d.offset15_00), (16, d.segSelector), (8, d.reserved4),
      (1, d.reserved3), (1, d.reserved2), (1, d.reserved1), (1, d.size), (1, d.reserved0)]
      [(2, d.dpl)] _
  have hpresent : field 47 1 d.word = d.present % 2 ^ 1 := by
    rw [← pack_singleton]
    exact field_pack [(16, d.offset15_00), (16, d.segSelector), (8, d.reserved4),
      (1, d.reserved3), (1, d.reserved2), (1, d.reserved1), (1, d.size), (1, d.reserved0),
      (2, d.dpl)] [(1, d.present)] _
  have hhigh : field 48 16 d.word = d.offset31_16 % 2 ^ 16 := by
    rw [← pack_singleton]
    exact field_pack [(16, d.offset15_00), (16, d.segSelector), (8, d.reserved4),
      (1, d.reserved3), (1, d.reserved2), (1, d.reserved1), (1, d.size), (1, d.reserved0),
      (2, d.dpl), (1, d.present)] [(16, d.offset31_16)] []
  unfold readGate
  rw [hlow, hselector, hkind, hdpl, hpresent, hhigh]

/-- The processor finds the handler where `SET_IDT_ENTRY` has been told it is. -/
theorem readGate_setIdtEntry {handler : Nat} (hhandler : handler < 2 ^ 32) (d : IdtDesc) :
    readGate (setIdtEntry handler d).word = { readGate d.word with offset := handler } := by
  have hlow : (handler &&& 0xFFFF) = field 0 16 handler := and_mask_shiftRight handler 0 16
  have hhigh : (handler &&& 0xFFFF0000) >>> 16 = field 16 16 handler :=
    and_mask_shiftRight handler 16 16
  rw [readGate_word, readGate_word]
  simp only [setIdtEntry, hlow, hhigh, field_mod]
  rw [field_add 0 16 16, field_of_lt hhandler]

theorem readSegment_word (d : SegDesc) :
    readSegment d.word =
      { base := pack [(16, d.base15_00), (8, d.base23_16)] + 2 ^ 24 * (d.base31_24 % 2 ^ 8)
        limit := d.segLim15_00 % 2 ^ 16 + 2 ^ 16 * (d.segLim19_16 % 2 ^ 4)
        type := d.type % 2 ^ 4
        sys := d.sys % 2 ^ 1
        dpl := d.dpl % 2 ^ 2
        present := d.present % 2 ^ 1 = 1
        granularity := d.granularity % 2 ^ 1 } := by
  have hlimit : field 0 16 d.word = d.segLim15_00 % 2 ^ 16 := by
    rw [← pack_singleton]
    exact field_pack [] [(16, d.segLim15_00)] _
  have hbase : field 16 24 d.word = pack [(16, d.base15_00), (8, d.base23_16)] :=
    field_pack [(16, d.segLim15_00)] [(16, d.base15_00), (8, d.base23_16)] _
  have htype : field 40 4 d.word = d.type % 2 ^ 4 := by
    rw [← pack_singleton]
    exact field_pack [(16, d.segLim15_00), (16, d.base15_00), (8, d.base23_16)] [(4, d.type)] _
  have hsys : field 44 1 d.word = d.sys % 2 ^ 1 := by
    rw [← pack_singleton]
    exact field_pack [(16, d.segLim15_00), (16, d.base15_00), (8, d.base23_16), (4, d.type)]
      [(1, d.sys)] _
  have hdpl : field 45 2 d.word = d.dpl % 2 ^ 2 := by
    rw [← pack_singleton]
    exact field_pack [(16, d.segLim15_00), (16, d.base15_00), (8, d.base23_16), (4, d.type),
      (1, d.sys)] [(2, d.dpl)] _
  have hpresent : field 47 1 d.word = d.present % 2 ^ 1 := by
    rw [← pack_singleton]
    exact field_pack [(16, d.segLim15_00), (16, d.base15_00), (8, d.base23_16), (4, d.type),
      (1, d.sys), (2, d.dpl)] [(1, d.present)] _
  have hhigh : field 48 4 d.word = d.segLim19_16 % 2 ^ 4 := by
    rw [← pack_singleton]
    exact field_pack [(16, d.segLim15_00), (16, d.base15_00), (8, d.base23_16), (4, d.type),
      (1, d.sys), (2, d.dpl), (1, d.present)] [(4, d.segLim19_16)] _
  have hgranularity : field 55 1 d.word = d.granularity % 2 ^ 1 := by
    rw [← pack_singleton]
    exact field_pack [(16, d.segLim15_00), (16, d.base15_00), (8, d.base23_16), (4, d.type),
      (1, d.sys), (2, d.dpl), (1, d.present), (4, d.segLim19_16), (1, d.avail), (1, d.reserved),
      (1, d.opsize)] [(1, d.granularity)] _
  have htop : field 56 8 d.word = d.base31_24 % 2 ^ 8 := by
    rw [← pack_singleton]
    exact field_pack [(16, d.segLim15_00), (16, d.base15_00), (8, d.base23_16), (4, d.type),
      (1, d.sys), (2, d.dpl), (1, d.present), (4, d.segLim19_16), (1, d.avail), (1, d.reserved),
      (1, d.opsize), (1, d.granularity)] [(8, d.base31_24)] []
  unfold readSegment
  rw [hlimit, hbase, htype, hsys, hdpl, hpresent, hhigh, hgranularity, htop]

/-- The processor finds the segment where `SET_LDT_PARAMS` has been told it is. -/
theorem readSegment_setParams {addr lim : Nat} (haddr : addr < 2 ^ 32) (hlim : lim < 2 ^ 20)
    (d : SegDesc) :
    readSegment (setParams addr lim d).word =
      { readSegment d.word with base := addr, limit := lim } := by
  have hbase : (addr &&& 0x0000FFFF) = field 0 16 addr := and_mask_shiftRight addr 0 16
  have hmiddle : (addr &&& 0x00FF0000) >>> 16 = field 16 8 addr := and_mask_shiftRight addr 16 8
  have htop : (addr &&& 0xFF000000) >>> 24 = field 24 8 addr := and_mask_shiftRight addr 24 8
  have hlimit : (lim &&& 0x0000FFFF) = field 0 16 lim := and_mask_shiftRight lim 0 16
  have hhigh : (lim &&& 0x000F0000) >>> 16 = field 16 4 lim := and_mask_shiftRight lim 16 4
  rw [readSegment_word, readSegment_word]
  simp only [setParams, hbase, hmiddle, htop, hlimit, hhigh, field_mod, pack, Nat.mul_zero,
    Nat.add_zero]
  rw [field_add 0 16 8, field_add 0 24 8, field_of_lt haddr, field_add 0 16 4, field_of_lt hlim]

/-! ## The global descriptor table -/

/-- The descriptor of the local descriptor table that `entry` makes. -/
def theLdtDesc (ldt : Nat) (d : SegDesc) : SegDesc :=
  setParams ldt (4 * 8 - 1)
    { d with
      granularity := 0x0, opsize := 0x1, reserved := 0x0, avail := 0x0, present := 0x1, dpl := 0x0
      sys := 0x0, type := 0x2 }

/-- The descriptor of the task state segment that `entry` makes. -/
def theTssDesc (tss : Nat) (d : SegDesc) : SegDesc :=
  setParams tss (104 - 1)
    { d with
      granularity := 0x0, opsize := 0x0, reserved := 0x0, avail := 0x0
      segLim19_16 := 104 &&& 0x000F0000
      present := 0x1, dpl := 0x0, sys := 0x0, type := 0x9
      segLim15_00 := 104 &&& 0x0000FFFF }

/-- `gdt`, with the descriptors that `entry` has stored. -/
def gdt (theTss theLdt : SegDesc) : List Nat :=
  [0, 0, 0x00CF9A000000FFFF, 0x00CF92000000FFFF, 0x00CFFA000000FFFF, 0x00CFF2000000FFFF,
    theTss.word, theLdt.word]

/-- The descriptor that a selector names, and the privilege level that it asks for. -/
def selects (table : List Nat) (selector : Nat) : Option (Segment × Nat) :=
  (table[selector / 8]?).map fun word => (readSegment word, selector % 4)

/-- A segment of all the address space, for code or for data. -/
def flatSegment (code : Bool) (dpl : Nat) : Segment where
  base := 0
  limit := 0xFFFFF
  type := if code then 0xA else 0x2
  sys := 1
  dpl := dpl
  present := true
  granularity := 1

/-- Wherever the linker has put the tables, and whatever was on the stack, every selector that the
kernel uses names what it is meant for: flat code and data for the kernel and for the programs, with
the privilege that the selector asks for, the task state segment and the local descriptor table with
their addresses and last bytes. -/
theorem selectors_name_segments {tss ldt : Nat} (htss : tss < 2 ^ 32) (hldt : ldt < 2 ^ 32)
    (d d' : SegDesc) :
    selects (gdt (theTssDesc tss d) (theLdtDesc ldt d')) Selector.kernelCs =
      some (flatSegment true 0, 0) ∧
    selects (gdt (theTssDesc tss d) (theLdtDesc ldt d')) Selector.kernelDs =
      some (flatSegment false 0, 0) ∧
    selects (gdt (theTssDesc tss d) (theLdtDesc ldt d')) Selector.userCs =
      some (flatSegment true 3, 3) ∧
    selects (gdt (theTssDesc tss d) (theLdtDesc ldt d')) Selector.userDs =
      some (flatSegment false 3, 3) ∧
    selects (gdt (theTssDesc tss d) (theLdtDesc ldt d')) Selector.kernelTss =
      some (⟨tss, 103, 9, 0, 0, true, 0⟩, 0) ∧
    selects (gdt (theTssDesc tss d) (theLdtDesc ldt d')) Selector.kernelLdt =
      some (⟨ldt, 31, 2, 0, 0, true, 0⟩, 0) := by
  have htssDesc : readSegment (theTssDesc tss d).word = ⟨tss, 103, 9, 0, 0, true, 0⟩ := by
    rw [theTssDesc, readSegment_setParams htss (by decide), readSegment_word]
    rfl
  have hldtDesc : readSegment (theLdtDesc ldt d').word = ⟨ldt, 31, 2, 0, 0, true, 0⟩ := by
    rw [theLdtDesc, readSegment_setParams hldt (by decide), readSegment_word]
    rfl
  refine ⟨rfl, rfl, rfl, rfl, ?_, ?_⟩
  · rw [← htssDesc]
    rfl
  · rw [← hldtDesc]
    rfl

/-- Tables that straddle two of the parts into which an address is cut. -/
theorem selectors_name_segments_linked :
    selects (gdt (theTssDesc 0x00FFFFA0 (SegDesc.mk 1 2 3 4 5 6 7 8 9 10 11 12 13))
        (theLdtDesc 0x0100FFE0 (SegDesc.mk 1 2 3 4 5 6 7 8 9 10 11 12 13))) Selector.kernelTss =
      some (⟨0x00FFFFA0, 103, 9, 0, 0, true, 0⟩, 0) :=
  (selectors_name_segments (by decide) (by decide) _ _).2.2.2.2.1

end Ece391Kernel
