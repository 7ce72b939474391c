/-
  Division by a polynomial over GF(2), bit by bit, in a shift register.

  The register of `w` bits holds a remainder, highest coefficient first, and `poly` the divisor
  without its leading term x^w. `advance` is one shift, `feed` takes a bit of the message in at
  the top of the register, and `divide` does so with a whole message.

  * `divide_xor`, `iterate_advance_xor`: all of it is linear.
  * `divide_eq`: bits that fit in the register can be taken in at once (`word`) and shifted
    through afterwards; hence `iterate_advance_split`, a table for the bits that go out together.
  * `advance_injective`: with a constant term in the divisor a shift loses nothing; hence
    `divide_ne_of_burst`, two messages that differ within `w` consecutive bits only have
    different remainders.

  Nothing here knows which program is being verified.
-/
import Wifimon.Lib.Bytes
import Mathlib.Data.List.GetD
import Mathlib.Logic.Function.Iterate
import Mathlib.Tactic.Common

namespace DivisionLib

open ByteLib

section Register

variable {w : Nat} (poly : BitVec w)

/-- A bit at the top of the register. -/
def top (w : Nat) (b : Bool) : BitVec w := if b then BitVec.intMin w else 0#w

/-- One shift: the divisor is subtracted where a 1 goes out. -/
def advance (r : BitVec w) : BitVec w := if r.msb then (r <<< 1) ^^^ poly else r <<< 1

/-- One bit of the message. -/
def feed (r : BitVec w) (b : Bool) : BitVec w := advance poly (r ^^^ top w b)

/-- The remainder that the message `bits` leaves, from the remainder `r`. -/
def divide (r : BitVec w) (bits : List Bool) : BitVec w := bits.foldl (feed poly) r

/-! ## Linearity -/

theorem getMsbD_top (b : Bool) {i : Nat} (hi : i < w) :
    (top w b).getMsbD i = (decide (i = 0) && b) := by
  cases b with
  | false => simp [top]
  | true =>
    unfold top
    rw [if_pos rfl, BitVec.getMsbD_eq_getLsbD, BitVec.getLsbD_intMin]
    by_cases h0 : i = 0
    · simp [h0]
      omega
    · simp [h0]
      omega

theorem top_xor (b b' : Bool) : top w (b ^^ b') = top w b ^^^ top w b' := by
  cases b <;> cases b' <;> simp [top]

@[simp] theorem top_false : top w false = 0#w := rfl

theorem advance_xor (r r' : BitVec w) :
    advance poly (r ^^^ r') = advance poly r ^^^ advance poly r' := by
  have hcancel : (r <<< 1 ^^^ poly) ^^^ (r' <<< 1 ^^^ poly) = r <<< 1 ^^^ r' <<< 1 := by
    have hswap : (r <<< 1 ^^^ poly) ^^^ (r' <<< 1 ^^^ poly) =
        (r <<< 1 ^^^ r' <<< 1) ^^^ (poly ^^^ poly) := by ac_rfl
    rw [hswap, BitVec.xor_self, BitVec.xor_zero]
  unfold advance
  rw [BitVec.msb_xor, BitVec.shiftLeft_xor_distrib]
  cases r.msb <;> cases r'.msb
  · rfl
  · exact BitVec.xor_assoc _ _ _
  · show (r <<< 1 ^^^ r' <<< 1) ^^^ poly = (r <<< 1 ^^^ poly) ^^^ r' <<< 1
    ac_rfl
  · exact hcancel.symm

@[simp] theorem advance_zero : advance poly 0#w = 0#w := by
  simp [advance]

theorem iterate_advance_xor (n : Nat) (r r' : BitVec w) :
    (advance poly)^[n] (r ^^^ r') = (advance poly)^[n] r ^^^ (advance poly)^[n] r' := by
  induction n generalizing r r' with
  | zero => rfl
  | succ n ih =>
    rw [Function.iterate_succ_apply, Function.iterate_succ_apply, Function.iterate_succ_apply,
      advance_xor, ih]

theorem feed_xor (r r' : BitVec w) (b b' : Bool) :
    feed poly (r ^^^ r') (b ^^ b') = feed poly r b ^^^ feed poly r' b' := by
  have hswap : r ^^^ r' ^^^ (top w b ^^^ top w b') = (r ^^^ top w b) ^^^ (r' ^^^ top w b') := by
    ac_rfl
  unfold feed
  rw [top_xor, hswap, advance_xor]

/-- The remainders of two messages of one length and of their difference. -/
theorem divide_xor {bits bits' : List Bool} (h : bits.length = bits'.length) (r r' : BitVec w) :
    divide poly (r ^^^ r') (List.zipWith (· ^^ ·) bits bits') =
      divide poly r bits ^^^ divide poly r' bits' := by
  induction bits generalizing bits' r r' with
  | nil =>
    rw [List.length_eq_zero_iff.mp h.symm]
    rfl
  | cons b bits ih =>
    cases bits' with
    | nil => exact absurd h (Nat.succ_ne_zero _)
    | cons b' bits' =>
      show divide poly (feed poly (r ^^^ r') (b ^^ b')) _ = _
      rw [feed_xor]
      exact ih (Nat.succ_inj.mp h) _ _

theorem divide_append (r : BitVec w) (bits bits' : List Bool) :
    divide poly r (bits ++ bits') = divide poly (divide poly r bits) bits' :=
  List.foldl_append

/-- Zeros of the message only shift. -/
theorem divide_replicate_false (r : BitVec w) (n : Nat) :
    divide poly r (List.replicate n false) = (advance poly)^[n] r := by
  induction n generalizing r with
  | zero => rfl
  | succ n ih =>
    rw [List.replicate_succ, Function.iterate_succ_apply, ← ih]
    show divide poly (advance poly (r ^^^ top w false)) _ = _
    rw [top_false, BitVec.xor_zero]

/-! ## Bits that fit in the register -/

/-- The bits `bits` at the top of a register. -/
def word (w : Nat) : List Bool → BitVec w
  | [] => 0#w
  | b :: bits => top w b ^^^ (word w bits >>> 1)

theorem getMsbD_word (bits : List Bool) {i : Nat} (hi : i < w) :
    (word w bits).getMsbD i = bits.getD i false := by
  induction bits generalizing i with
  | nil => simp [word]
  | cons b bits ih =>
    rw [word, BitVec.getMsbD_xor, getMsbD_top b hi, BitVec.getMsbD_ushiftRight]
    cases i with
    | zero => simp
    | succ i => simp [ih (Nat.lt_of_succ_lt hi), hi]

/-- A register with nothing at its bottom is a shift of itself, one place up. -/
theorem advance_shiftRight {r : BitVec w} (h : r.getMsbD (w - 1) = false) :
    advance poly (r >>> 1) = r := by
  have hmsb : (r >>> 1).msb = false := by
    rw [BitVec.msb_eq_getMsbD_zero, BitVec.getMsbD_ushiftRight]
    simp
  unfold advance
  rw [hmsb, if_neg Bool.false_ne_true]
  apply BitVec.eq_of_getMsbD_eq
  intro i hi
  rw [BitVec.getMsbD_shiftLeft, BitVec.getMsbD_ushiftRight]
  by_cases hlast : i + 1 < w
  · simp [hlast]
  · obtain rfl : i = w - 1 := by omega
    simp [h]

/-- As long as they fit, the bits of the message can be taken in at once. -/
theorem divide_eq {bits : List Bool} (h : bits.length ≤ w) (r : BitVec w) :
    divide poly r bits = (advance poly)^[bits.length] (r ^^^ word w bits) := by
  induction bits generalizing r with
  | nil =>
    show r = r ^^^ 0#w
    rw [BitVec.xor_zero]
  | cons b bits ih =>
    have hfit : bits.length < w := h
    have hlow : (word w bits).getMsbD (w - 1) = false := by
      rw [getMsbD_word bits (by omega), List.getD_eq_default _ _ (by omega)]
    have hword : advance poly (r ^^^ word w (b :: bits)) = feed poly r b ^^^ word w bits := by
      rw [word, ← BitVec.xor_assoc, advance_xor, advance_shiftRight poly hlow]
      rfl
    rw [List.length_cons, Function.iterate_succ_apply, hword]
    exact ih (Nat.le_of_lt hfit) _

/-- A register that is empty at its top only shifts. -/
theorem iterate_advance_of_top {n : Nat} {r : BitVec w} (h : ∀ i < n, r.getMsbD i = false) :
    (advance poly)^[n] r = r <<< n := by
  induction n generalizing r with
  | zero => simp
  | succ n ih =>
    have hmsb : r.msb = false := by
      rw [BitVec.msb_eq_getMsbD_zero]
      exact h 0 (Nat.succ_pos n)
    have hnext : ∀ i < n, (r <<< 1).getMsbD i = false := by
      intro i hi
      rw [BitVec.getMsbD_shiftLeft]
      exact h (i + 1) (Nat.succ_lt_succ hi)
    rw [Function.iterate_succ_apply, advance, hmsb, if_neg Bool.false_ne_true, ih hnext,
      ← BitVec.shiftLeft_add, Nat.add_comm]

/-- The bits that go out in `n` shifts decide what is subtracted; the others only move up. -/
theorem iterate_advance_split {n : Nat} {r hi : BitVec w}
    (h : ∀ i < n, hi.getMsbD i = r.getMsbD i) :
    (advance poly)^[n] r = (advance poly)^[n] hi ^^^ ((hi ^^^ r) <<< n) := by
  have hsplit : r = hi ^^^ (hi ^^^ r) := by
    rw [← BitVec.xor_assoc, BitVec.xor_self, BitVec.zero_xor]
  have htop : ∀ i < n, (hi ^^^ r).getMsbD i = false := by
    intro i hin
    rw [BitVec.getMsbD_xor, h i hin, Bool.xor_self]
  conv_lhs => rw [hsplit]
  rw [iterate_advance_xor, iterate_advance_of_top poly htop]

/-! ## What a shift loses -/

/-- With a constant term in the divisor only the empty register is emptied: a bit that goes out
    is found at the bottom. -/
theorem advance_eq_zero (h : poly.getLsbD 0 = true) {r : BitVec w} (hr : advance poly r = 0#w) :
    r = 0#w := by
  unfold advance at hr
  cases hmsb : r.msb with
  | true =>
    rw [hmsb, if_pos rfl] at hr
    have hlow := congrArg (fun x => x.getLsbD 0) hr
    simp [h] at hlow
  | false =>
    rw [hmsb, if_neg Bool.false_ne_true] at hr
    apply BitVec.eq_of_getMsbD_eq
    intro i hi
    cases i with
    | zero =>
      rw [← BitVec.msb_eq_getMsbD_zero, hmsb]
      exact BitVec.getMsbD_zero.symm
    | succ i =>
      have hbit : (r <<< 1).getMsbD i = (0#w).getMsbD i := by rw [hr]
      rw [BitVec.getMsbD_shiftLeft, BitVec.getMsbD_zero] at hbit
      rw [BitVec.getMsbD_zero]
      exact hbit

theorem advance_injective (h : poly.getLsbD 0 = true) : Function.Injective (advance poly) := by
  intro r r' heq
  have hzero : advance poly (r ^^^ r') = 0#w := by
    rw [advance_xor, heq, BitVec.xor_self]
  exact BitVec.xor_eq_zero_iff.mp (advance_eq_zero poly h hzero)

/-- The bits that were taken in at once can be told from the remainder. -/
theorem divide_eq_iff (h : poly.getLsbD 0 = true) {bits : List Bool} (hfit : bits.length ≤ w)
    (r : BitVec w) : divide poly r bits = 0#w ↔ r = word w bits := by
  have hinj := (advance_injective poly h).iterate bits.length
  have hzero : (advance poly)^[bits.length] 0#w = 0#w :=
    Function.iterate_fixed (advance_zero poly) bits.length
  rw [divide_eq poly hfit]
  constructor
  · intro hr
    exact BitVec.xor_eq_zero_iff.mp (hinj (hr.trans hzero.symm))
  · intro hr
    rw [hr, BitVec.xor_self, hzero]

/-! ## Bursts -/

/-- Two messages differ only within some `n` consecutive bits. -/
def Burst (n : Nat) (bits bits' : List Bool) : Prop :=
  ∃ s, ∀ i, bits[i]? ≠ bits'[i]? → s ≤ i ∧ i < s + n

theorem eq_false_of_word {bits : List Bool} (hfit : bits.length ≤ w) (h : word w bits = 0#w) :
    ∀ b ∈ bits, b = false := by
  intro b hb
  obtain ⟨i, hi, rfl⟩ := List.mem_iff_getElem.mp hb
  have hbit := getMsbD_word bits (Nat.lt_of_lt_of_le hi hfit)
  rw [h, BitVec.getMsbD_zero, List.getD_eq_getElem _ _ hi] at hbit
  exact hbit.symm

/-- Zeros before the first one leave no remainder. -/
theorem divide_zero_of_false {bits : List Bool} (h : ∀ b ∈ bits, b = false) :
    divide poly 0#w bits = 0#w := by
  rw [List.eq_replicate_of_mem h, divide_replicate_false]
  exact Function.iterate_fixed (advance_zero poly) _

/-- A message whose ones are within `w` consecutive bits leaves a remainder if it has any. -/
theorem eq_false_of_window (h : poly.getLsbD 0 = true) {bits : List Bool} {s : Nat}
    (hwin : ∀ i, bits[i]? = some true → s ≤ i ∧ i < s + w)
    (hzero : divide poly 0#w bits = 0#w) : ∀ b ∈ bits, b = false := by
  have hsplit : bits = bits.take s ++ ((bits.drop s).take w ++ bits.drop (s + w)) := by
    rw [← List.drop_drop, List.take_append_drop, List.take_append_drop]
  have hout : ∀ i, ∀ hi : i < bits.length, i < s ∨ s + w ≤ i → bits[i] = false := by
    intro i hi hcase
    cases hbit : bits[i] with
    | false => rfl
    | true =>
      have hin := hwin i (by rw [List.getElem?_eq_getElem hi, hbit])
      omega
  have hbefore : ∀ b ∈ bits.take s, b = false := by
    intro b hb
    obtain ⟨i, hi, rfl⟩ := List.mem_take_iff_getElem.mp hb
    exact hout i (by omega) (Or.inl (by omega))
  have hafter : ∀ b ∈ bits.drop (s + w), b = false := by
    intro b hb
    obtain ⟨i, hi, rfl⟩ := List.mem_drop_iff_getElem.mp hb
    exact hout (s + w + i) (by omega) (Or.inr (by omega))
  have hmid : divide poly 0#w ((bits.drop s).take w) = 0#w := by
    rw [hsplit, divide_append, divide_zero_of_false poly hbefore, divide_append,
      List.eq_replicate_of_mem hafter, divide_replicate_false] at hzero
    exact (advance_injective poly h).iterate _
      (hzero.trans (Function.iterate_fixed (advance_zero poly) _).symm)
  have hfit : ((bits.drop s).take w).length ≤ w := List.length_take_le _ _
  have hword := ((divide_eq_iff poly h hfit 0#w).mp hmid).symm
  intro b hb
  rw [hsplit, List.mem_append, List.mem_append] at hb
  obtain hb | hb | hb := hb
  · exact hbefore b hb
  · exact eq_false_of_word hfit hword b hb
  · exact hafter b hb

/-- **Bursts.** With a constant term in the divisor, two different messages of one length that
    differ within `w` consecutive bits only leave different remainders. -/
theorem divide_ne_of_burst (h : poly.getLsbD 0 = true) {bits bits' : List Bool}
    (hlen : bits.length = bits'.length) (hne : bits ≠ bits') (hburst : Burst w bits bits')
    (r : BitVec w) : divide poly r bits ≠ divide poly r bits' := by
  obtain ⟨s, hs⟩ := hburst
  intro heq
  have hzero : divide poly 0#w (List.zipWith (· ^^ ·) bits bits') = 0#w := by
    have hxor := divide_xor poly hlen r r
    rwa [BitVec.xor_self, heq, BitVec.xor_self] at hxor
  have hwin : ∀ i, (List.zipWith (· ^^ ·) bits bits')[i]? = some true → s ≤ i ∧ i < s + w := by
    intro i hi
    apply hs i
    intro hsame
    rw [List.getElem?_zipWith, hsame] at hi
    cases hbit : bits'[i]? with
    | none => simp [hbit] at hi
    | some b => simp [hbit] at hi
  have hfalse := eq_false_of_window poly h hwin hzero
  apply hne
  apply List.ext_getElem hlen
  intro i hi hi'
  have hdiff := hfalse (bits[i] ^^ bits'[i]) (by
    rw [List.mem_iff_getElem]
    exact ⟨i, by simp; omega, by simp⟩)
  simpa using hdiff

end Register

/-! ## Bytes of a message -/

/-- The bits of a byte, most significant first. -/
def byteBits (b : UInt8) : List Bool := (List.range 8).map b.toBitVec.getMsbD

/-- The bits of a byte string. -/
def bitsOf (p : List UInt8) : List Bool := p.flatMap byteBits

@[simp] theorem byteBits_length (b : UInt8) : (byteBits b).length = 8 := by
  simp [byteBits]

@[simp] theorem bitsOf_nil : bitsOf [] = [] := rfl

theorem bitsOf_cons (b : UInt8) (p : List UInt8) : bitsOf (b :: p) = byteBits b ++ bitsOf p :=
  List.flatMap_cons

@[simp] theorem bitsOf_length (p : List UInt8) : (bitsOf p).length = 8 * p.length := by
  induction p with
  | nil => rfl
  | cons b p ih =>
    rw [bitsOf_cons, List.length_append, ih, byteBits_length, List.length_cons]
    omega

theorem byteBits_getD (b : UInt8) (i : Nat) :
    (byteBits b).getD i false = b.toBitVec.getMsbD i := by
  by_cases hi : i < 8
  · rw [List.getD_eq_getElem _ _ (by simpa using hi)]
    simp [byteBits]
  · rw [List.getD_eq_default _ _ (by simpa using hi), BitVec.getMsbD_of_ge _ _ (by omega)]

theorem byteBits_injective : Function.Injective byteBits := by
  intro b b' h
  apply UInt8.toBitVec_inj.mp
  apply BitVec.eq_of_getMsbD_eq
  intro i _
  rw [← byteBits_getD, ← byteBits_getD, h]

/-- Bit `i` of a byte string is in byte `i / 8`. -/
theorem bitsOf_getD (p : List UInt8) (i : Nat) :
    (bitsOf p).getD i false = (p.getD (i / 8) 0).toBitVec.getMsbD (i % 8) := by
  induction p generalizing i with
  | nil => simp
  | cons b p ih =>
    rw [bitsOf_cons]
    by_cases hi : i < 8
    · rw [List.getD_append _ _ _ _ (by simpa using hi), byteBits_getD, Nat.div_eq_of_lt hi,
        Nat.mod_eq_of_lt hi]
      rfl
    · have hdiv : i / 8 = (i - 8) / 8 + 1 := by omega
      have hmod : i % 8 = (i - 8) % 8 := by omega
      rw [List.getD_append_right _ _ _ _ (by simpa using hi), byteBits_length, ih, hdiv, hmod]
      rfl

theorem bitsOf_injective : Function.Injective bitsOf := by
  intro p q h
  induction p generalizing q with
  | nil =>
    have hlen := congrArg List.length h
    rw [bitsOf_length, bitsOf_length, List.length_nil] at hlen
    exact (List.length_eq_zero_iff.mp (by omega)).symm
  | cons b p ih =>
    cases q with
    | nil => simp [bitsOf_cons, byteBits] at h
    | cons b' q =>
      rw [bitsOf_cons, bitsOf_cons] at h
      obtain ⟨hb, hrest⟩ := List.append_inj h (by simp)
      rw [byteBits_injective hb, ih hrest]

/-- A register full of bytes is their big-endian value. -/
theorem word_bitsOf (p : List UInt8) :
    word (8 * p.length) (bitsOf p) = BitVec.ofNat (8 * p.length) (ofBe p) := by
  apply BitVec.eq_of_getMsbD_eq
  intro i hi
  have hbyte : i / 8 < p.length := by omega
  have hrev : (8 * p.length - 1 - i) / 8 = p.length - 1 - i / 8 := by omega
  have hbit : (8 * p.length - 1 - i) % 8 = 7 - i % 8 := by omega
  have hback : p.reverse.getD (p.length - 1 - i / 8) 0 = p.getD (i / 8) 0 := by
    rw [List.getD_eq_getElem?_getD, List.getElem?_reverse (by omega),
      List.getD_eq_getElem?_getD]
    congr 2
    omega
  rw [getMsbD_word _ hi, bitsOf_getD, BitVec.getMsbD_eq_getLsbD, BitVec.getMsbD_eq_getLsbD,
    BitVec.getLsbD_ofNat, ofBe, testBit_ofLe, hrev, hbit, hback,
    decide_eq_true (show i % 8 < 8 by omega),
    decide_eq_true (show 8 * p.length - 1 - i < 8 * p.length by omega), decide_eq_true hi,
    Bool.true_and, Bool.true_and, Bool.true_and]
  rfl

end DivisionLib
