/-
  `init_crc` and `do_crc` as division by x^32 + 0x04C11DB7.

  A byte of `do_crc` is the eight bits of that byte, one after the other
  (`toBitVec_crcByte`), so that `do_crc` is the bitwise division of its argument
  (`doCrc_bitwise`). The polynomial has a constant term, so what is known of division says that
  a remainder of 0 is the CRC of the string behind it (`doCrc_zero_iff`) and that a burst of 32
  bits changes the remainder (`doCrc_ne_of_burst`).
-/
import Wifimon.Lib.Bytes
import Wifimon.Lib.Division
import Wifimon.Elf.Crc

namespace Wifimon.Elf

open ByteLib DivisionLib

theorem polynomial_odd : polynomial.toBitVec.getLsbD 0 = true := by decide

/-! ## One byte -/

theorem toBitVec_crcBit (remainder : UInt32) :
    (crcBit remainder).toBitVec = advance polynomial.toBitVec remainder.toBitVec := by
  have htop : remainder &&& 0x80000000 ≠ 0 ↔ remainder.toBitVec.msb = true := by
    have hbit : (remainder &&& 0x80000000).toBitVec = remainder.toBitVec &&& BitVec.twoPow 32 31 :=
      rfl
    rw [ne_eq, ← UInt32.toBitVec_inj, hbit, BitVec.and_twoPow, BitVec.msb_eq_getLsbD_last]
    cases remainder.toBitVec.getLsbD (32 - 1) with
    | true => simp
    | false => simp
  unfold crcBit advance
  by_cases hmsb : remainder.toBitVec.msb = true
  · rw [if_pos (htop.mpr hmsb), if_pos hmsb]
    rfl
  · rw [if_neg fun h => hmsb (htop.mp h), if_neg hmsb]
    rfl

theorem toBitVec_iterate_crcBit (n : Nat) (remainder : UInt32) :
    (crcBit^[n] remainder).toBitVec = (advance polynomial.toBitVec)^[n] remainder.toBitVec := by
  induction n generalizing remainder with
  | zero => rfl
  | succ n ih =>
    rw [Function.iterate_succ_apply, Function.iterate_succ_apply, ih, toBitVec_crcBit]

/-- A byte at the top of the register. -/
theorem getMsbD_top_byte (b : UInt8) (i : Nat) :
    (b.toUInt32 <<< 24).toBitVec.getMsbD i = b.toBitVec.getMsbD i := by
  have hshift : (b.toUInt32 <<< 24).toBitVec = b.toBitVec.setWidth 32 <<< 24 := rfl
  rw [hshift, BitVec.getMsbD_shiftLeft, BitVec.getMsbD_setWidth]
  simp

theorem word_byteBits (b : UInt8) : word 32 (byteBits b) = (b.toUInt32 <<< 24).toBitVec := by
  apply BitVec.eq_of_getMsbD_eq
  intro i hi
  rw [getMsbD_word _ hi, byteBits_getD, getMsbD_top_byte]

/-- The top byte of the register. -/
theorem getMsbD_high_byte (remainder : UInt32) {i : Nat} (hi : i < 8) :
    (remainder >>> 24).toUInt8.toBitVec.getMsbD i = remainder.toBitVec.getMsbD i := by
  have hshift : (remainder >>> 24).toUInt8.toBitVec = (remainder.toBitVec >>> 24).setWidth 8 := rfl
  have hin : i + 24 < 32 := by omega
  rw [hshift, BitVec.getMsbD_setWidth]
  simp [hin]

/-- The byte step of `do_crc` is the division of the byte's bits. -/
theorem toBitVec_crcByte (remainder : UInt32) (p : UInt8) :
    (crcByte remainder p).toBitVec =
      divide polynomial.toBitVec remainder.toBitVec (byteBits p) := by
  have hfit : (byteBits p).length ≤ 32 := by simp
  have htop : ∀ i < 8, ((p ^^^ (remainder >>> 24).toUInt8).toUInt32 <<< 24).toBitVec.getMsbD i =
      (remainder.toBitVec ^^^ word 32 (byteBits p)).getMsbD i := by
    intro i hi
    rw [getMsbD_top_byte, UInt8.toBitVec_xor, BitVec.getMsbD_xor, getMsbD_high_byte remainder hi,
      BitVec.getMsbD_xor, word_byteBits, getMsbD_top_byte, Bool.xor_comm]
  have hrest : (((p ^^^ (remainder >>> 24).toUInt8).toUInt32 <<< 24).toBitVec ^^^
      (remainder.toBitVec ^^^ word 32 (byteBits p))) <<< 8 = remainder.toBitVec <<< 8 := by
    apply BitVec.eq_of_getMsbD_eq
    intro i _
    rw [BitVec.getMsbD_shiftLeft, BitVec.getMsbD_shiftLeft, BitVec.getMsbD_xor,
      BitVec.getMsbD_xor, word_byteBits, getMsbD_top_byte, getMsbD_top_byte,
      BitVec.getMsbD_of_ge _ _ (Nat.le_add_left 8 i),
      BitVec.getMsbD_of_ge _ _ (Nat.le_add_left 8 i), Bool.false_xor, Bool.xor_false]
  rw [divide_eq _ hfit, byteBits_length, iterate_advance_split _ htop, hrest,
    ← toBitVec_iterate_crcBit]
  rfl

theorem toBitVec_doCrc (remainder : UInt32) (p : List UInt8) :
    (doCrc remainder p).toBitVec = divide polynomial.toBitVec remainder.toBitVec (bitsOf p) := by
  induction p generalizing remainder with
  | nil => rfl
  | cons b p ih =>
    rw [bitsOf_cons, divide_append, ← toBitVec_crcByte]
    exact ih (crcByte remainder b)

/-! ## Strings -/

theorem doCrc_append (remainder : UInt32) (p q : List UInt8) :
    doCrc remainder (p ++ q) = doCrc (doCrc remainder p) q :=
  List.foldl_append

/-- Four bytes leave no remainder if and only if they are, most significant first, what was in
    the register. -/
theorem doCrc_four_iff {p : List UInt8} (h : p.length = 4) (remainder : UInt32) :
    doCrc remainder p = 0 ↔ UInt32.ofNat (ofBe p) = remainder := by
  have hlen : (bitsOf p).length = 32 := by rw [bitsOf_length, h]
  have hword : word 32 (bitsOf p) = (UInt32.ofNat (ofBe p)).toBitVec := by
    have hbytes := word_bitsOf p
    rw [h] at hbytes
    exact hbytes
  rw [← UInt32.toBitVec_inj, toBitVec_doCrc, ← UInt32.toBitVec_inj, ← hword]
  exact (divide_eq_iff _ polynomial_odd (Nat.le_of_eq hlen) _).trans eq_comm

/-- A string leaves no remainder if and only if its last four bytes are the CRC of the others. -/
theorem doCrc_zero_iff {p : List UInt8} (h : 4 ≤ p.length) :
    doCrc 0 p = 0 ↔
      UInt32.ofNat (ofBe (p.drop (p.length - 4))) = doCrc 0 (p.take (p.length - 4)) := by
  have hfour : (p.drop (p.length - 4)).length = 4 := by
    rw [List.length_drop]
    omega
  rw [← doCrc_four_iff hfour, ← doCrc_append, List.take_append_drop]

/-- Two strings that differ within 32 consecutive bits only leave different remainders. -/
theorem doCrc_ne_of_burst {p q : List UInt8} (hlen : p.length = q.length) (hne : p ≠ q)
    (hburst : Burst 32 (bitsOf p) (bitsOf q)) (remainder : UInt32) :
    doCrc remainder p ≠ doCrc remainder q := by
  have hbits : (bitsOf p).length = (bitsOf q).length := by
    rw [bitsOf_length, bitsOf_length, hlen]
  intro heq
  have hdivide := congrArg UInt32.toBitVec heq
  rw [toBitVec_doCrc, toBitVec_doCrc] at hdivide
  exact divide_ne_of_burst _ polynomial_odd hbits (bitsOf_injective.ne hne) hburst _ hdivide

/-- **Bitwise division.** For every remainder and string: `do_crc` with the table of `init_crc`
    takes in the string bit by bit, most significant first, over x^32 + 0x04C11DB7. -/
theorem doCrc_bitwise (table : Nat → UInt32) (remainder : UInt32) (p : List UInt8) :
    (∀ dividend : UInt8, initCrc table dividend.toNat = crctable dividend) ∧
      (doCrc remainder p).toBitVec = divide 0x04C11DB7#32 remainder.toBitVec (bitsOf p) :=
  ⟨initCrc_crctable table, toBitVec_doCrc remainder p⟩

end Wifimon.Elf
