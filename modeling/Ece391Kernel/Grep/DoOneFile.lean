import Ece391Kernel.Grep.Strings

/-!
# `do_one_file` of `grep`

The buffer is refilled behind `last`, searched line by line, and what is left of it is moved to the
front. The test of `data[line_end]` reads the byte behind the last one read when no newline has
been found.
-/

namespace Ece391Kernel

open ByteMemory

/-- The calls on one file, on states of its descriptor: `ece391_open`, `ece391_read` and
`ece391_close`, with nothing for -1. -/
structure FileCalls (σ : Type*) where
  opened : Option σ
  read : σ → Nat → Option (List UInt8 × σ)
  closed : σ → Bool

/-- `ece391_read` delivers as many of the remaining bytes as are asked for, and the other calls
succeed. -/
structure DeliversBytes {σ : Type*} (calls : FileCalls σ) (remaining : σ → List UInt8)
    (file : List UInt8) : Prop where
  opened : ∃ fd, calls.opened = some fd ∧ remaining fd = file
  read : ∀ fd n, ∃ fd', calls.read fd n = some ((remaining fd).take n, fd') ∧
    remaining fd' = (remaining fd).drop n
  closed : ∀ fd, calls.closed fd = true

/-- The buffer, how much of it is read, and what has been printed. -/
structure GrepBuffer where
  data : Int → UInt8
  last : Nat
  out : List UInt8

/-- The bytes of a message. -/
def message (text : String) : Nat → UInt8 := literal (text.toList.map fun c => UInt8.ofNat c.toNat)

/-- The loop that looks for the end of a line. -/
def lineEndFrom (data : Int → UInt8) (last lineEnd : Nat) : Nat :=
  if lineEnd < last ∧ 0x0A ≠ data lineEnd then lineEndFrom data last (lineEnd + 1) else lineEnd
termination_by last - lineEnd

theorem le_lineEndFrom (data : Int → UInt8) (last lineEnd : Nat) :
    lineEnd ≤ lineEndFrom data last lineEnd := by
  induction lineEnd using lineEndFrom.induct data last with
  | case1 lineEnd hnext ih =>
      unfold lineEndFrom
      rw [if_pos hnext]
      omega
  | case2 lineEnd hstop =>
      unfold lineEndFrom
      rw [if_neg hstop]

section Program

variable (s fname : Nat → UInt8) (sLen : Nat)

/-- The loop that looks for the string in a line. `s[0]` is a signed character, the byte it is
compared with has no sign. -/
def lineMatches (data : Int → UInt8) (lineStart lineEnd : Nat) : Bool :=
  (List.range' lineStart (lineEnd - lineStart)).any fun check =>
    int8 (s 0) == ((data check).toNat : Int) && ece391Strncmp (stringAt data check) s sLen == 0

/-- What is printed for a line. -/
def searchLine (data : Int → UInt8) (lineStart lineEnd : Nat) : List UInt8 :=
  if lineMatches s sLen data lineStart lineEnd then
    ece391Fdputs fname ++ ece391Fdputs (message ":") ++ ece391Fdputs (stringAt data lineStart) ++
      ece391Fdputs (message "\n")
  else []

/-- The inner loop of `do_one_file`. -/
def searchBuffer (cnt : Nat) (b : GrepBuffer) (lineStart : Nat) : GrepBuffer :=
  let lineEnd := lineEndFrom b.data b.last lineStart
  let data := Function.update b.data lineEnd 0
  if 0x0A ≠ b.data lineEnd ∧ 0 ≠ cnt ∧ lineStart ≠ 0 then
    ⟨ece391Strcpy data 0 lineStart, b.last - lineStart, b.out⟩
  else
    let out := b.out ++ searchLine s fname sLen data lineStart lineEnd
    if _h : lineEnd + 1 ≥ b.last then ⟨data, 0, out⟩
    else searchBuffer cnt ⟨data, b.last, out⟩ (lineEnd + 1)
termination_by b.last - lineStart
decreasing_by
  have hle := le_lineEndFrom b.data b.last lineStart
  simp only [lineEnd] at _h
  omega

/-- The outer loop of `do_one_file`, with at most `fuel` turns: what it returns and has printed. -/
def readLoop {σ : Type*} (calls : FileCalls σ) : Nat → σ → GrepBuffer → Option (Int × List UInt8)
  | 0, _, _ => none
  | fuel + 1, fd, b =>
      match calls.read fd (1024 - b.last) with
      | none => some (-1, b.out ++ ece391Fdputs (message "file read failed\n"))
      | some (bytes, fd') =>
          let cnt := bytes.length
          let b' := searchBuffer s fname sLen cnt
            ⟨storeFrom b.data b.last bytes, b.last + cnt, b.out⟩ 0
          if cnt = 0 then
            if calls.closed fd' then some (0, b'.out)
            else some (-1, b'.out ++ ece391Fdputs (message "file close failed\n"))
          else readLoop calls fuel fd' b'

end Program

/-- `do_one_file`, with the contents of `data` when it is called. -/
def doOneFile {σ : Type*} (calls : FileCalls σ) (fuel : Nat) (data : Int → UInt8)
    (s fname : Nat → UInt8) : Option (Int × List UInt8) :=
  match calls.opened with
  | none => some (-1, ece391Fdputs (message "file open failed\n"))
  | some fd => readLoop s fname (ece391Strlen s) calls fuel fd ⟨data, 0, []⟩

end Ece391Kernel
