/-
  The CRC of both `bin2elf.c` programs: `init_crc` and `do_crc`.

  The remainder is a 32-bit register, most significant bit first, over the polynomial
  x^32 + 0x04C11DB7. `crctable` is the table `init_crc` fills, as a function of its index
  (`initCrc_crctable`).
-/
import Mathlib.Logic.Function.Basic
import Mathlib.Logic.Function.Iterate

namespace Wifimon.Elf

def polynomial : UInt32 := 0x04C11DB7

/-- One pass of the inner loop of `init_crc`. -/
def crcBit (remainder : UInt32) : UInt32 :=
  if remainder &&& 0x80000000 ≠ 0 then (remainder <<< 1) ^^^ polynomial else remainder <<< 1

/-- `crctable[dividend]`, as `init_crc` leaves it. -/
def crctable (dividend : UInt8) : UInt32 := Nat.iterate crcBit 8 (dividend.toUInt32 <<< 24)

/-- `init_crc` on what is in `crctable` before. -/
def initCrc (table : Nat → UInt32) : Nat → UInt32 :=
  (List.range 256).foldl
    (fun table dividend =>
      Function.update table dividend (Nat.iterate crcBit 8 (UInt32.ofNat dividend <<< 24)))
    table

/-- A loop that sets the entries below `n`. -/
theorem foldl_update (f : Nat → UInt32) (table : Nat → UInt32) {n j : Nat} (hj : j < n) :
    (List.range n).foldl (fun table i => Function.update table i (f i)) table j = f j := by
  induction n with
  | zero => exact absurd hj (Nat.not_lt_zero j)
  | succ n ih =>
    rw [List.range_succ, List.foldl_append, List.foldl_cons, List.foldl_nil]
    by_cases hn : j = n
    · rw [← hn, Function.update_self]
    · rw [Function.update_of_ne hn]
      exact ih (by omega)

theorem initCrc_crctable (table : Nat → UInt32) (dividend : UInt8) :
    initCrc table dividend.toNat = crctable dividend := by
  unfold initCrc crctable
  rw [foldl_update _ table dividend.toNat_lt, UInt32.ofNat_uInt8ToNat]

/-- One pass of the loop of `do_crc`. -/
def crcByte (remainder : UInt32) (p : UInt8) : UInt32 :=
  let data := p ^^^ (remainder >>> 24).toUInt8
  crctable data ^^^ (remainder <<< 8)

/-- `do_crc(remainder, p, n)` on the `n` bytes at `p`. -/
def doCrc (remainder : UInt32) (p : List UInt8) : UInt32 := p.foldl crcByte remainder

end Wifimon.Elf
