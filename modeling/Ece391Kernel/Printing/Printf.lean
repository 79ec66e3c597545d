import Ece391Kernel.Library.Run
import Ece391Kernel.Printing.Number

/-!
# `printf`

The scanner of `printf`, one byte of the format at a time. Inside a specifier the byte decides
what is printed, and the pointer is advanced behind it whatever it is, so also behind the
terminator of the format.
-/

namespace Ece391Kernel

open ByteMemory TransitionSystem

/-! ## The scanner -/

def radixTen : Radix := ⟨10, by decide, by decide⟩

def radixSixteen : Radix := ⟨16, by decide, by decide⟩

/-- What `printf` finds when it is called: the format, the words behind it on the stack, what is
in `conv_buf` when a byte of the format is handled, and the strings of the arguments. -/
structure PrintfCall where
  format : Nat → UInt8
  args : Nat → UInt32
  convBuf : Nat → Int → UInt8
  mem : Int → UInt8

/-- `buf`, relative to the format; `alternate` inside a specifier; the arguments that have been
taken; and the bytes that have gone to `putc`. -/
structure PrintfState where
  buf : Nat
  alternate : Option Bool
  esp : Nat
  out : List UInt8

/-- `puts`: the bytes that it gives to `putc`. -/
def puts (m : Int → UInt8) (s : Int) : List UInt8 :=
  stringFrom (fun i : Nat => m (s + i)) (2 ^ 32) 0

/-- The loop that fills `conv_buf` with zeros from `i` to 7. -/
def zeroPad (m : Int → UInt8) (i : Nat) : Int → UInt8 :=
  storeFrom m i (List.replicate (8 - i) 0x30)

/-- The specifier `x`. -/
def printHex (alternate : Bool) (value : UInt32) (convBuf : Int → UInt8) : List UInt8 :=
  if alternate then
    let converted := itoa value convBuf 8 radixSixteen
    let startingIndex := strlen fun i : Nat => converted (8 + i)
    puts (zeroPad converted startingIndex) startingIndex
  else puts (itoa value convBuf 0 radixSixteen) 0

/-- The specifier `u`. -/
def printUnsigned (value : UInt32) (convBuf : Int → UInt8) : List UInt8 :=
  puts (itoa value convBuf 0 radixTen) 0

/-- The specifier `d`. -/
def printSigned (value : UInt32) (convBuf : Int → UInt8) : List UInt8 :=
  if int32 value.toNat < 0 then
    puts (itoa (-value) (Function.update convBuf 0 0x2D) 1 radixTen) 0
  else puts (itoa value convBuf 0 radixTen) 0

/-- The bytes that a specifier prints, and whether it takes an argument. -/
def printSpecifier (p : PrintfCall) (s : PrintfState) (alternate : Bool) : List UInt8 × Nat :=
  let value := p.args s.esp
  let c := p.format s.buf
  if c = 0x25 then ([0x25], 0)
  else if c = 0x78 then (printHex alternate value (p.convBuf s.buf), 1)
  else if c = 0x75 then (printUnsigned value (p.convBuf s.buf), 1)
  else if c = 0x64 then (printSigned value (p.convBuf s.buf), 1)
  else if c = 0x63 then ([value.toUInt8], 1)
  else if c = 0x73 then (puts p.mem value.toNat, 1)
  else ([], 0)

/-- One byte of the format; `none` when the loop ends. -/
def printfByte (p : PrintfCall) (s : PrintfState) : Option PrintfState :=
  let c := p.format s.buf
  match s.alternate with
  | none =>
      if c = 0 then none
      else if c = 0x25 then some { s with buf := s.buf + 1, alternate := some false }
      else some { s with buf := s.buf + 1, out := s.out ++ [c] }
  | some alternate =>
      if c = 0x23 then some { s with buf := s.buf + 1, alternate := some true }
      else
        let printed := printSpecifier p s alternate
        some ⟨s.buf + 1, none, s.esp + printed.2, s.out ++ printed.1⟩

/-- The state at the start of the loop. -/
def PrintfState.start : PrintfState := ⟨0, none, 0, []⟩

/-- One turn, which reads the byte `i` of the format and goes on. -/
def PrintfReads (p : PrintfCall) (s : PrintfState) (i : Nat) (s' : PrintfState) : Prop :=
  i = s.buf ∧ printfByte p s = some s'

/-- `printf` ends at the terminator of a format of this length: no byte behind it has been read,
and `buf - format` is the length. -/
def StopsAtEnd (p : PrintfCall) (length : Nat) : Prop :=
  ∃ reads s, Run (PrintfReads p) .start reads s ∧ (∀ i ∈ reads, i < length) ∧
    s.buf = length ∧ printfByte p s = none

/-! ## Formats -/

/-- The first bytes of the format. -/
def formatBytes (p : PrintfCall) (n : Nat) : List UInt8 := (List.range n).map p.format

/-- The formats in which behind every `%`, and the `#` that follow it, there is one more byte. -/
inductive Complete : List UInt8 → Prop
  | nil : Complete []
  | ordinary {bytes : List UInt8} {c : UInt8} :
      Complete bytes → c ≠ 0x25 → Complete (bytes ++ [c])
  | specifier {bytes : List UInt8} {c : UInt8} (alternates : Nat) :
      Complete bytes → c ≠ 0x23 →
        Complete (bytes ++ 0x25 :: List.replicate alternates 0x23 ++ [c])

/-- Whether a specifier is open behind a byte. -/
def openSpecifier (isOpen : Bool) (c : UInt8) : Bool :=
  if isOpen then c == 0x23 else c == 0x25

/-- A specifier is open behind bytes that end with `%` and any number of `#`. -/
theorem foldl_openSpecifier_replicate (alternates : Nat) :
    (List.replicate alternates 0x23).foldl openSpecifier true = true := by
  induction alternates with
  | zero => rfl
  | succ alternates ih => rwa [List.replicate_succ, List.foldl_cons]

theorem Complete.closed {bytes : List UInt8} (h : Complete bytes) :
    bytes.foldl openSpecifier false = false := by
  induction h with
  | nil => rfl
  | ordinary _ hc ih =>
      rw [List.foldl_append, ih]
      simpa [openSpecifier] using hc
  | specifier alternates _ hc ih =>
      rw [List.foldl_append, List.foldl_append, ih, List.foldl_cons]
      change openSpecifier ((List.replicate alternates 0x23).foldl openSpecifier true) _ = false
      rw [foldl_openSpecifier_replicate]
      simpa [openSpecifier] using hc

/-- Bytes are complete, or they end within a specifier. -/
theorem complete_or_open (bytes : List UInt8) :
    if bytes.foldl openSpecifier false then
      ∃ front alternates, Complete front ∧
        bytes = front ++ 0x25 :: List.replicate alternates 0x23
    else Complete bytes := by
  induction bytes using List.reverseRecOn with
  | nil => exact Complete.nil
  | append_singleton bytes c ih =>
      rw [List.foldl_append]
      cases hopen : bytes.foldl openSpecifier false with
      | false =>
          rw [hopen] at ih
          by_cases hc : c = 0x25
          · rw [if_pos (by simpa [openSpecifier] using hc), hc]
            exact ⟨bytes, 0, ih, rfl⟩
          · rw [if_neg (by simpa [openSpecifier] using hc)]
            exact Complete.ordinary ih hc
      | true =>
          rw [hopen] at ih
          obtain ⟨front, alternates, hfront, rfl⟩ := ih
          by_cases hc : c = 0x23
          · rw [if_pos (by simpa [openSpecifier] using hc), hc]
            refine ⟨front, alternates + 1, hfront, ?_⟩
            rw [List.replicate_succ', List.append_assoc, List.cons_append]
          · rw [if_neg (by simpa [openSpecifier] using hc)]
            exact Complete.specifier alternates hfront hc

theorem complete_iff (bytes : List UInt8) :
    Complete bytes ↔ bytes.foldl openSpecifier false = false := by
  refine ⟨Complete.closed, fun hclosed => ?_⟩
  have h := complete_or_open bytes
  rwa [hclosed] at h

instance (bytes : List UInt8) : Decidable (Complete bytes) :=
  decidable_of_iff _ (complete_iff bytes).symm

/-! ## The end of the format -/

section Turns

variable {p : PrintfCall} {s s' : PrintfState} {reads : List Nat} {length : Nat}

/-- A turn goes one byte on, and opens or closes a specifier. -/
theorem printfByte_cases (p : PrintfCall) (s : PrintfState) :
    printfByte p s = none ∧ s.alternate = none ∧ p.format s.buf = 0 ∨
      ∃ s', printfByte p s = some s' ∧ s'.buf = s.buf + 1 ∧
        s'.alternate.isSome = openSpecifier s.alternate.isSome (p.format s.buf) ∧
        (s.alternate = none → p.format s.buf ≠ 0) := by
  unfold printfByte
  cases halternate : s.alternate with
  | none =>
      by_cases hzero : p.format s.buf = 0
      · simp [hzero]
      · by_cases hpercent : p.format s.buf = 0x25
        · simp [hpercent, openSpecifier]
        · simp [hzero, hpercent, openSpecifier]
  | some alternate =>
      by_cases hsharp : p.format s.buf = 0x23
      · simp [hsharp, openSpecifier]
      · simp [hsharp, openSpecifier]

theorem PrintfReads.spec {i : Nat} (h : PrintfReads p s i s') :
    i = s.buf ∧ s'.buf = s.buf + 1 ∧
      s'.alternate.isSome = openSpecifier s.alternate.isSome (p.format s.buf) := by
  rcases printfByte_cases p s with ⟨hnone, -⟩ | ⟨t, hsome, hbuf, halternate, -⟩
  · rw [h.2] at hnone
    simp at hnone
  · rw [h.2, Option.some_inj] at hsome
    exact ⟨h.1, hsome ▸ hbuf, hsome ▸ halternate⟩

/-- After any turns the bytes before `buf` have been read, and they say whether a specifier
is open. -/
theorem printf_run_spec (h : Run (PrintfReads p) .start reads s) :
    reads = List.range s.buf ∧
      s.alternate.isSome = (formatBytes p s.buf).foldl openSpecifier false := by
  induction h with
  | nil => exact ⟨rfl, rfl⟩
  | snoc _ hlast ih =>
      obtain ⟨hi, hbuf, halternate⟩ := hlast.spec
      obtain ⟨hreads, hopen⟩ := ih
      refine ⟨by rw [hreads, hi, hbuf, List.range_succ], ?_⟩
      rw [halternate, hopen, hbuf]
      unfold formatBytes
      rw [List.range_succ, List.map_append, List.foldl_append]
      rfl

/-- Every byte before the terminator is reached. -/
theorem exists_printf_run (hbytes : ∀ i < length, p.format i ≠ 0) {n : Nat} (hn : n ≤ length) :
    ∃ reads s, Run (PrintfReads p) .start reads s ∧ s.buf = n := by
  induction n with
  | zero => exact ⟨[], .start, Run.nil _, rfl⟩
  | succ n ih =>
      obtain ⟨reads, s, hrun, hbuf⟩ := ih (by omega)
      rcases printfByte_cases p s with ⟨-, -, hzero⟩ | ⟨s', hsome, hbuf', -⟩
      · rw [hbuf] at hzero
        exact absurd hzero (hbytes n (by omega))
      · exact ⟨reads ++ [s.buf], s', hrun.snoc ⟨rfl, hsome⟩, by rw [hbuf', hbuf]⟩

/-- `printf` does not end within a specifier. -/
theorem StopsAtEnd.complete (h : StopsAtEnd p length) : Complete (formatBytes p length) := by
  obtain ⟨reads, s, hrun, -, rfl, hends⟩ := h
  rw [complete_iff, ← (printf_run_spec hrun).2]
  rcases printfByte_cases p s with ⟨-, hclosed, -⟩ | ⟨s', hsome, -⟩
  · rw [hclosed]
    rfl
  · rw [hends] at hsome
    simp at hsome

end Turns

/-- `printf` ends at the terminator of a format if and only if the format does not end within a
specifier. Behind a format that does, its terminator is taken for the byte of the specifier. -/
theorem stopsAtEnd_iff (p : PrintfCall) (length : Nat) (hbytes : ∀ i < length, p.format i ≠ 0)
    (hend : p.format length = 0) : StopsAtEnd p length ↔ Complete (formatBytes p length) := by
  refine ⟨StopsAtEnd.complete, fun hcomplete => ?_⟩
  obtain ⟨reads, s, hrun, hbuf⟩ := exists_printf_run hbytes (Nat.le_refl length)
  obtain ⟨hreads, hopen⟩ := printf_run_spec hrun
  refine ⟨reads, s, hrun, fun i hi => ?_, hbuf, ?_⟩
  · rw [hreads, List.mem_range] at hi
    omega
  · rcases printfByte_cases p s with ⟨hends, -⟩ | ⟨s', hsome, -, -, hgoes⟩
    · exact hends
    · rw [hbuf, (complete_iff _).mp hcomplete] at hopen
      rw [hbuf] at hgoes
      exact absurd hend (hgoes (Option.not_isSome_iff_eq_none.mp (by simp [hopen])))

/-- The bytes of a format, the terminator and whatever lies behind it. -/
def formatOf (bytes : List UInt8) : PrintfCall :=
  ⟨fun i => bytes.getD i 0, fun _ => 0, fun _ _ => 0, fun _ => 0⟩

/-- `%d%%` is complete. -/
theorem stopsAtEnd_iff_complete :
    StopsAtEnd (formatOf [0x25, 0x64, 0x25, 0x25, 0, 0x6E]) 4 ↔
      Complete (formatBytes (formatOf [0x25, 0x64, 0x25, 0x25, 0, 0x6E]) 4) :=
  stopsAtEnd_iff _ 4 (by decide) (by decide)

/-- `100%` is not: the string behind it in memory, here `no`, is printed as well. -/
theorem cut_specifier_overruns :
    (∀ i < 4, (formatOf [0x31, 0x30, 0x30, 0x25, 0, 0x6E, 0x6F, 0]).format i ≠ 0) ∧
      (formatOf [0x31, 0x30, 0x30, 0x25, 0, 0x6E, 0x6F, 0]).format 4 = 0 ∧
      ¬ StopsAtEnd (formatOf [0x31, 0x30, 0x30, 0x25, 0, 0x6E, 0x6F, 0]) 4 ∧
      Run (PrintfReads (formatOf [0x31, 0x30, 0x30, 0x25, 0, 0x6E, 0x6F, 0])) .start
        [0, 1, 2, 3, 4, 5, 6] ⟨7, none, 0, [0x31, 0x30, 0x30, 0x6E, 0x6F]⟩ := by
  refine ⟨by decide, by decide, fun hstops => absurd hstops.complete (by decide), ?_⟩
  have hstart := Run.nil (R := PrintfReads (formatOf [0x31, 0x30, 0x30, 0x25, 0, 0x6E, 0x6F, 0]))
    PrintfState.start
  exact ((((((hstart.snoc ⟨rfl, rfl⟩).snoc ⟨rfl, rfl⟩).snoc ⟨rfl, rfl⟩).snoc ⟨rfl, rfl⟩).snoc
    ⟨rfl, rfl⟩).snoc ⟨rfl, rfl⟩).snoc ⟨rfl, rfl⟩

end Ece391Kernel
