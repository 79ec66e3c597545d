import Ece391Kernel.Kernel.Descriptors
import Mathlib.Data.List.Basic
import Mathlib.Logic.Function.Basic

/-!
# The interrupt descriptor table

`init_IDT`, on the table as an array of descriptors. The handlers are where the linker has put them.
-/

namespace Ece391Kernel

open BitFields

/-- The functions whose addresses `init_IDT` stores. -/
inductive HandlerName
  | divideError
  | reserved
  | nmiInterrupt
  | breakpoint
  | overflow
  | boundRangeExceeded
  | invalidOpcode
  | deviceNotAvailable
  | doubleFault
  | coprocessorSeg
  | invalidTss
  | segmentNotPresent
  | stackSegFault
  | generalProtection
  | pageFault
  | floatingError
  | alignmentCheck
  | machineCheck
  | floatingException
  | pitWrapper
  | keyboardWrapper
  | generalInterrupt
  | rtcWrapper
  | syscallWrapper
deriving DecidableEq

/-- The descriptor that the first loop of `init_IDT` stores. -/
def blankGate : IdtDesc where
  offset15_00 := 0x00
  segSelector := Selector.kernelCs
  reserved4 := 0x00
  reserved3 := 0x00
  reserved2 := 0x01
  reserved1 := 0x01
  size := 0x01
  reserved0 := 0x00
  dpl := 0x00
  present := 0x00
  offset31_16 := 0x00

/-- A loop that changes the descriptors of some vectors. -/
def changeAll (f : IdtDesc → IdtDesc) (vectors : List Nat) (idt : Nat → IdtDesc) : Nat → IdtDesc :=
  vectors.foldl (fun idt i => Function.update idt i (f (idt i))) idt

/-- `SET_IDT_ENTRY` for some vectors, one after the other. -/
def fillEntries (addr : HandlerName → Nat) (entries : List (Nat × HandlerName))
    (idt : Nat → IdtDesc) : Nat → IdtDesc :=
  entries.foldl (fun idt e => Function.update idt e.1 (setIdtEntry (addr e.2) (idt e.1))) idt

/-- The exceptions; vector 15 is left out. -/
def exceptionEntries : List (Nat × HandlerName) :=
  [(0, .divideError), (1, .reserved), (2, .nmiInterrupt), (3, .breakpoint), (4, .overflow),
    (5, .boundRangeExceeded), (6, .invalidOpcode), (7, .deviceNotAvailable), (8, .doubleFault),
    (9, .coprocessorSeg), (10, .invalidTss), (11, .segmentNotPresent), (12, .stackSegFault),
    (13, .generalProtection), (14, .pageFault), (16, .floatingError), (17, .alignmentCheck),
    (18, .machineCheck), (19, .floatingException)]

/-- A loop from one vector up to another that stores `general_interrupt`. -/
def generalEntries (low high : Nat) : List (Nat × HandlerName) :=
  (List.range' low (high - low)).map fun i => (i, .generalInterrupt)

/-- `pitindex`. -/
def pitIndex : Nat := 0x20

/-- `keyindex`. -/
def keyIndex : Nat := 33

/-- `rtcindex`. -/
def rtcIndex : Nat := 40

/-- `systemcallindex`. -/
def systemCallIndex : Nat := 0x80

/-- The flags that `init_IDT` sets before it stores the handlers. -/
def initFlags (idt : Nat → IdtDesc) : Nat → IdtDesc :=
  let idt := changeAll (fun _ => blankGate) (List.range 256) idt
  let idt := changeAll (fun d => { d with present := 0x01 }) [pitIndex] idt
  let idt := changeAll (fun d => { d with present := 0x01 }) (List.range (keyIndex + 1)) idt
  let idt := changeAll (fun d => { d with present := 0x01 }) [rtcIndex] idt
  changeAll (fun d => { d with dpl := 3, present := 0x01 }) [systemCallIndex] idt

/-- `init_IDT`, but for `lidt`. -/
def initIdt (addr : HandlerName → Nat) (idt : Nat → IdtDesc) : Nat → IdtDesc :=
  let idt := fillEntries addr exceptionEntries (initFlags idt)
  let idt := fillEntries addr [(pitIndex, .pitWrapper), (keyIndex, .keyboardWrapper)] idt
  let idt := fillEntries addr (generalEntries (keyIndex + 1) rtcIndex) idt
  let idt := fillEntries addr [(rtcIndex, .rtcWrapper), (systemCallIndex, .syscallWrapper)] idt
  fillEntries addr (generalEntries (rtcIndex + 1) systemCallIndex) idt

/-! ## The loops -/

theorem changeAll_apply (f : IdtDesc → IdtDesc) {vectors : List Nat} (hnodup : vectors.Nodup)
    (idt : Nat → IdtDesc) (v : Nat) :
    changeAll f vectors idt v = if v ∈ vectors then f (idt v) else idt v := by
  unfold changeAll
  induction vectors generalizing idt with
  | nil => simp
  | cons i vectors ih =>
      obtain ⟨hi, hrest⟩ := List.nodup_cons.mp hnodup
      rw [List.foldl_cons, ih hrest]
      by_cases hv : v = i
      · rw [hv, if_neg hi, if_pos List.mem_cons_self, Function.update_self]
      · simp only [Function.update_of_ne hv, List.mem_cons, hv, false_or]

theorem fillEntries_apply (addr : HandlerName → Nat) {entries : List (Nat × HandlerName)}
    (hnodup : (entries.map Prod.fst).Nodup) (idt : Nat → IdtDesc) (v : Nat) :
    fillEntries addr entries idt v =
      match entries.lookup v with
      | some handler => setIdtEntry (addr handler) (idt v)
      | none => idt v := by
  unfold fillEntries
  induction entries generalizing idt with
  | nil => rfl
  | cons e entries ih =>
      obtain ⟨i, handler⟩ := e
      obtain ⟨hi, hrest⟩ := List.nodup_cons.mp hnodup
      rw [List.foldl_cons, ih hrest]
      by_cases hv : v = i
      · subst hv
        have hnone : entries.lookup v = none := by
          rw [List.lookup_eq_none_iff]
          intro p hp
          rw [bne_iff_ne]
          rintro rfl
          exact hi (List.mem_map.mpr ⟨p, hp, rfl⟩)
        rw [hnone, List.lookup_cons_self, Function.update_self]
      · rw [List.lookup_cons, beq_eq_false_iff_ne.mpr hv, Function.update_of_ne hv]

/-- Entries that are set one after the other. -/
theorem fillEntries_append (addr : HandlerName → Nat) (entries rest : List (Nat × HandlerName))
    (idt : Nat → IdtDesc) :
    fillEntries addr (entries ++ rest) idt = fillEntries addr rest (fillEntries addr entries idt) :=
  List.foldl_append

/-! ## The table -/

/-- All entries that are set. -/
def idtEntries : List (Nat × HandlerName) :=
  exceptionEntries ++ ([(pitIndex, .pitWrapper), (keyIndex, .keyboardWrapper)] ++
    (generalEntries (keyIndex + 1) rtcIndex ++
      ([(rtcIndex, .rtcWrapper), (systemCallIndex, .syscallWrapper)] ++
        generalEntries (rtcIndex + 1) systemCallIndex)))

theorem idtEntries_nodup : (idtEntries.map Prod.fst).Nodup := by decide +kernel

/-- A vector is present. -/
def presentVector (v : Nat) : Prop := v ≤ keyIndex ∨ v = rtcIndex ∨ v = systemCallIndex

instance (v : Nat) : Decidable (presentVector v) :=
  inferInstanceAs (Decidable (_ ∨ _ ∨ _))

theorem initFlags_apply (idt : Nat → IdtDesc) {v : Nat} (hv : v < 256) :
    initFlags idt v =
      { blankGate with
        dpl := if v = systemCallIndex then 3 else 0
        present := if presentVector v then 1 else 0 } := by
  have hkey : v ∈ List.range (keyIndex + 1) ↔ v ≤ keyIndex := by
    rw [List.mem_range, Nat.lt_succ_iff]
  have hpit : v = pitIndex → v ≤ keyIndex := by
    rintro rfl
    decide
  unfold initFlags
  rw [changeAll_apply _ (List.pairwise_singleton _ _),
    changeAll_apply _ (List.pairwise_singleton _ _), changeAll_apply _ List.nodup_range,
    changeAll_apply _ (List.pairwise_singleton _ _), changeAll_apply _ List.nodup_range,
    if_pos (List.mem_range.mpr hv)]
  simp only [List.mem_singleton, hkey]
  by_cases hsystemCall : v = systemCallIndex
  · subst hsystemCall
    rfl
  · by_cases hrtc : v = rtcIndex
    · subst hrtc
      rfl
    · by_cases hlow : v ≤ keyIndex
      · have hpresent : presentVector v := Or.inl hlow
        rw [if_neg hsystemCall, if_neg hrtc, if_pos hlow, if_neg hsystemCall, if_pos hpresent]
        split <;> rfl
      · have habsent : ¬presentVector v := by simp [presentVector, hsystemCall, hrtc, hlow]
        rw [if_neg hsystemCall, if_neg hrtc, if_neg hlow, if_neg (mt hpit hlow),
          if_neg hsystemCall, if_neg habsent]
        rfl

/-- What the processor reads in the table after `init_IDT`, whatever it held before. -/
theorem readGate_initIdt {addr : HandlerName → Nat} (haddr : ∀ handler, addr handler < 2 ^ 32)
    (idt : Nat → IdtDesc) {v : Nat} (hv : v < 256) :
    readGate (initIdt addr idt v).word =
      { offset := ((idtEntries.lookup v).map addr).getD 0
        selector := Selector.kernelCs
        kind := 14
        dpl := if v = systemCallIndex then 3 else 0
        present := decide (presentVector v) } := by
  have hflags : readGate (initFlags idt v).word =
      { offset := 0
        selector := Selector.kernelCs
        kind := 14
        dpl := if v = systemCallIndex then 3 else 0
        present := decide (presentVector v) } := by
    rw [initFlags_apply idt hv, readGate_word]
    congr 1
    · split_ifs <;> rfl
    · by_cases h : presentVector v <;> simp [h]
  unfold initIdt
  rw [← fillEntries_append, ← fillEntries_append, ← fillEntries_append, ← fillEntries_append]
  change readGate (fillEntries addr idtEntries (initFlags idt) v).word = _
  rw [fillEntries_apply addr idtEntries_nodup]
  cases idtEntries.lookup v with
  | none => exact hflags
  | some handler =>
      simp only
      rw [readGate_setIdtEntry (haddr handler), hflags]
      rfl

end Ece391Kernel
