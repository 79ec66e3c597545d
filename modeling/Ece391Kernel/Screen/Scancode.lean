import Mathlib.Init

/-!
# The scancode table

The characters of the keys, by keyboard mode and scancode, as `keyboard.c` lists
them. A key without a character, and a scancode past the end of the table, has
the entry 0.
-/

namespace Ece391Kernel

/-- `scancodesize`. -/
@[simp] def scancodeSize : Nat := 59

/-- The rows of `Scancode`: `ORIG_MODE`, `ORIG_SHIFT_MODE`, `CAP_SHIFT_MODE` and
`CAP_MODE`. -/
def scancodeRow : Fin 4 → List UInt8
  | 0 => [
    0, 0, 0x31, 0x32, 0x33, 0x34, 0x35, 0x36, 0x37, 0x38, 0x39, 0x30, 0x2D, 0x3D, 0, 0, 0x71,
    0x77, 0x65, 0x72, 0x74, 0x79, 0x75, 0x69, 0x6F, 0x70, 0x5B, 0x5D, 0x0A, 0, 0x61, 0x73, 0x64,
    0x66, 0x67, 0x68, 0x6A, 0x6B, 0x6C, 0x3B, 0x27, 0x60, 0, 0x5C, 0x7A, 0x78, 0x63, 0x76, 0x62,
    0x6E, 0x6D, 0x2C, 0x2E, 0x2F, 0, 0x2A, 0, 0x20, 0]
  | 1 => [
    0, 0, 0x21, 0x40, 0x23, 0x24, 0x25, 0x5E, 0x26, 0x2A, 0x28, 0x29, 0x5F, 0x2B, 0, 0, 0x51,
    0x57, 0x45, 0x52, 0x54, 0x59, 0x55, 0x49, 0x4F, 0x50, 0x7B, 0x7D, 0x0A, 0, 0x41, 0x53, 0x44,
    0x46, 0x47, 0x48, 0x4A, 0x4B, 0x4C, 0x3A, 0x22, 0x7E, 0, 0x7C, 0x5A, 0x58, 0x43, 0x56, 0x42,
    0x4E, 0x4D, 0x3C, 0x3E, 0x3F, 0, 0x2A, 0, 0x20, 0]
  | 2 => [
    0, 0, 0x21, 0x40, 0x23, 0x24, 0x25, 0x5E, 0x26, 0x2A, 0x28, 0x29, 0x5F, 0x2B, 0, 0, 0x71,
    0x77, 0x65, 0x72, 0x74, 0x79, 0x75, 0x69, 0x6F, 0x70, 0x7B, 0x7D, 0x0A, 0, 0x61, 0x73, 0x64,
    0x66, 0x67, 0x68, 0x6A, 0x6B, 0x6C, 0x3A, 0x22, 0x7E, 0, 0x7C, 0x7A, 0x78, 0x63, 0x76, 0x62,
    0x6E, 0x6D, 0x3C, 0x3E, 0x3F, 0, 0x2A, 0, 0x20, 0]
  | 3 => [
    0, 0, 0x31, 0x32, 0x33, 0x34, 0x35, 0x36, 0x37, 0x38, 0x39, 0x30, 0x2D, 0x3D, 0, 0, 0x51,
    0x57, 0x45, 0x52, 0x54, 0x59, 0x55, 0x49, 0x4F, 0x50, 0x5B, 0x5D, 0x0A, 0, 0x41, 0x53, 0x44,
    0x46, 0x47, 0x48, 0x4A, 0x4B, 0x4C, 0x3B, 0x27, 0x60, 0, 0x5C, 0x5A, 0x58, 0x43, 0x56, 0x42,
    0x4E, 0x4D, 0x2C, 0x2E, 0x2F, 0, 0x2A, 0, 0x20, 0]

/-- `Scancode[mode][c]`. -/
def scancode (mode : Fin 4) (c : Nat) : UInt8 := (scancodeRow mode).getD c 0

end Ece391Kernel
