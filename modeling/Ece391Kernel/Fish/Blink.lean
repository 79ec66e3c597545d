import Ece391Kernel.Library.LinkedList
import Ece391Kernel.Library.X86.Conditions
import Mathlib.Data.List.FinRange

/-!
# Blinking characters

`blink.S`, with the allocator of `fish.c`. The structures are the entries of `blink_array`, and a
pointer to one is its index; `NEXT` and `mp1_list_head` never hold another pointer, as
`mp1_ioctl_add` overwrites the `NEXT` of its caller. The structures of the callers are not in the
array. The loops over the list take fuel: there is no result if a loop does not end. Video memory
is written at offsets from `vmem_base_addr`.
-/

namespace Ece391Kernel

open X86 LinkedList

/-- An index of `blink_array`, of `80*25` entries. -/
abbrev BlinkIndex := Fin (80 * 25)

/-- The members of `struct mp1_blink_struct` before `next`. -/
structure Blink where
  location : BitVec 16
  onChar : UInt8
  offChar : UInt8
  onLength : BitVec 16
  offLength : BitVec 16
  countdown : BitVec 16
  status : BitVec 16
deriving DecidableEq

/-- `struct mp1_blink_struct`. -/
structure Mp1BlinkStruct extends Blink where
  next : Option BlinkIndex
deriving DecidableEq

/-- What `ece391_memset` leaves of a structure when it stores zeros. -/
def zeroBlink : Mp1BlinkStruct where
  location := 0
  onChar := 0
  offChar := 0
  onLength := 0
  offLength := 0
  countdown := 0
  status := 0
  next := none

/-- The variables of `fish.c` and `blink.S`, and video memory. -/
structure Fish where
  blinkArray : BlinkIndex → Mp1BlinkStruct
  mp1ListHead : Option BlinkIndex
  vmem : Nat → UInt8

namespace Fish

/-- Change the structure at an index. -/
@[simps -fullyApplied] def modify (i : BlinkIndex) (g : Mp1BlinkStruct → Mp1BlinkStruct)
    (f : Fish) : Fish :=
  { f with blinkArray := Function.update f.blinkArray i (g (f.blinkArray i)) }

/-- The pointers of the list. -/
def links (f : Fish) : Links BlinkIndex where
  head := f.mp1ListHead
  next := fun i => (f.blinkArray i).next

/-- Store a pointer of the list. -/
def setLink (place : Place BlinkIndex) (p : Option BlinkIndex) (f : Fish) : Fish :=
  match place with
  | .head => { f with mp1ListHead := p }
  | .next i => f.modify i fun s => { s with next := p }

end Fish

/-! ## The functions of `fish.c` -/

/-- The copy that `ece391_memcpy` makes of its source, and what it returns. -/
def ece391Memcpy {α : Type} (src : α) : α × Int := (src, 0)

/-- `mp1_malloc`. -/
def mp1Malloc (f : Fish) : Option BlinkIndex :=
  (List.finRange (80 * 25)).find? fun i => (f.blinkArray i).location = 0

/-- `mp1_free`. -/
def mp1Free (i : BlinkIndex) (f : Fish) : Fish := f.modify i fun _ => zeroBlink

/-! ## The functions of `blink.S` -/

/-- `mp1_poke`, with the offset in `%eax` and the byte in `%cl`. -/
def mp1Poke (eax : Nat) (cl : UInt8) (f : Fish) : Fish :=
  { f with vmem := Function.update f.vmem eax cl }

/-- A location as an offset: `movzwl`, and a shift by 1. -/
def cellOffset (location : BitVec 16) : Nat := location.toNat * 2

/-- `end_blink`, with the next countdown in `%dx`. -/
def endBlink (ebx : BlinkIndex) (dx : BitVec 16) (f : Fish) : Fish :=
  f.modify ebx fun s => { s with countdown := dx, status := s.status ^^^ 1 }

/-- `tasklet_loop`, from one structure up to the next. -/
def taskletBody (ebx : BlinkIndex) (f : Fish) : Fish :=
  let f := f.modify ebx fun s => { s with countdown := s.countdown - 1 }
  let s := f.blinkArray ebx
  if (cmpFlags s.countdown 0).g then f
  else if (testFlags s.status 1).z then
    endBlink ebx s.onLength (mp1Poke (cellOffset s.location) s.onChar f)
  else endBlink ebx s.offLength (mp1Poke (cellOffset s.location) s.offChar f)

/-- `mp1_rtc_tasklet`. -/
def mp1RtcTasklet (fuel : Nat) (f : Fish) : Option Fish :=
  forEach (fun f i => (f.blinkArray i).next) taskletBody fuel f.mp1ListHead f

/-- `mp1_ioctl_add`, for the structure that the caller passes. -/
def mp1IoctlAdd (data : Mp1BlinkStruct) (f : Fish) : Int × Fish :=
  let (temp, eax) := ece391Memcpy data
  if eax ≠ 0 then (-1, f)
  else if (cmpFlags temp.location (80 * 25)).ae then (-1, f)
  else
    let temp := { temp with status := 1, countdown := temp.onLength }
    match mp1Malloc f with
    | none => (-1, f)
    | some edx =>
        let f := f.modify edx fun _ => (ece391Memcpy temp).1
        let f := f.setLink (.next edx) f.mp1ListHead
        let f := f.setLink .head (some edx)
        (0, mp1Poke (cellOffset (f.blinkArray edx).location) (f.blinkArray edx).onChar f)

/-- `mp1_find_helper`, which takes the location from the lower half of its argument. -/
def mp1FindHelper (fuel : Nat) (arg : BitVec 32) (f : Fish) : Option (Option BlinkIndex) :=
  search f.links.next (fun i => (f.blinkArray i).location = arg.setWidth 16) fuel f.mp1ListHead

/-- `mp1_ioctl_remove`. -/
def mp1IoctlRemove (fuel : Nat) (arg : BitVec 32) (f : Fish) : Option (Int × Fish) := do
  match ← mp1FindHelper fuel arg f with
  | none => some (-1, f)
  | some eax =>
      -- remove_find_prev
      let edx ← f.links.findPlace eax fuel .head
      some (0, mp1Free eax (f.setLink edx (f.blinkArray eax).next))

/-- `sync_copy_loop`, from the structure at `%esi` to that at `%edi`. -/
def syncCopy (esi edi : BlinkIndex) (f : Fish) : Fish :=
  f.modify edi fun s =>
    { s with
      onLength := (f.blinkArray esi).onLength
      offLength := (f.blinkArray esi).offLength
      countdown := (f.blinkArray esi).countdown
      status := (f.blinkArray esi).status }

/-- The character that `sync_display` prints: `cmovl` moves `%ebx` over `%ecx` if the flags of
`testb` say less. -/
def syncChar (s : Mp1BlinkStruct) : UInt8 :=
  if (testFlags (s.status.setWidth 8) 1).l then s.onChar else s.offChar

/-- `mp1_ioctl_sync`. -/
def mp1IoctlSync (fuel : Nat) (arg : BitVec 32) (f : Fish) : Option (Int × Fish) := do
  match ← mp1FindHelper fuel (arg >>> 16) f with
  | none => some (-1, f)
  | some esi =>
      match ← mp1FindHelper fuel (arg &&& 0xFFFF) f with
      | none => some (-1, f)
      | some edi =>
          let f := syncCopy esi edi f
          let s := f.blinkArray edi
          some (0, mp1Poke (cellOffset s.location) (syncChar s) f)

/-- `mp1_ioctl_find`: what it returns, and what it leaves in the structure of its caller. -/
def mp1IoctlFind (fuel : Nat) (data : Mp1BlinkStruct) (f : Fish) :
    Option (Int × Mp1BlinkStruct) := do
  let (location, eax) := ece391Memcpy data.location
  if eax ≠ 0 then some (-1, data)
  else
    match ← mp1FindHelper fuel (location.setWidth 32) f with
    | none => some (-1, data)
    | some i =>
        let (data, eax) := ece391Memcpy (f.blinkArray i)
        some (if eax = 0 then 0 else -1, data)

/-! ## Calls -/

/-- A call of `mp1_ioctl`, in the order of `call_table`, or of `mp1_rtc_tasklet`. -/
inductive BlinkCall
  | add (data : Mp1BlinkStruct)
  | remove (arg : BitVec 32)
  | find (data : Mp1BlinkStruct)
  | sync (arg : BitVec 32)
  | tasklet

/-- What a call leaves. -/
def BlinkCall.run (fuel : Nat) (f : Fish) : BlinkCall → Option Fish
  | .add data => some (mp1IoctlAdd data f).2
  | .remove arg => (mp1IoctlRemove fuel arg f).map Prod.snd
  | .find data => (mp1IoctlFind fuel data f).map fun _ => f
  | .sync arg => (mp1IoctlSync fuel arg f).map Prod.snd
  | .tasklet => mp1RtcTasklet fuel f

/-- A call that returns. -/
def Calls (f : Fish) (c : BlinkCall) (f' : Fish) : Prop := ∃ fuel, c.run fuel f = some f'

/-- The array is zeroed and the list is empty. -/
def initialFish (vmem : Nat → UInt8) : Fish where
  blinkArray := fun _ => zeroBlink
  mp1ListHead := none
  vmem := vmem

end Ece391Kernel
