/-
  Words of flags under a run of operations that set and clear some of them.

  A word is looked at one bit at a time: to a bit every operation is a set, a clear, or nothing
  (`FlagOp`). `foldl_false_iff` says when a bit is down at the end of a run: every set is
  followed by a clear, and so is its first value if that was up. `foldl_zero_iff` puts the bits
  of a word together.

  Nothing here knows which program is being verified.
-/
import Mathlib.Data.List.Basic
import Mathlib.Tactic.Common

namespace FlagLib

/-! ## One bit -/

inductive FlagOp where
  | set
  | clear
  | keep
  deriving DecidableEq

def FlagOp.apply (b : Bool) : FlagOp → Bool
  | .set => true
  | .clear => false
  | .keep => b

/-- Every `set` of the list is followed by a `clear`, next or later. -/
def Lowered (ops : List FlagOp) : Prop :=
  ∀ pre suf, ops = pre ++ .set :: suf → .clear ∈ suf

theorem lowered_nil : Lowered [] := by
  intro pre suf h
  simp at h

theorem lowered_cons {op : FlagOp} {ops : List FlagOp} :
    Lowered (op :: ops) ↔ (op = .set → .clear ∈ ops) ∧ Lowered ops := by
  constructor
  · intro h
    refine ⟨?_, fun pre suf he => h (op :: pre) suf (by rw [he]; rfl)⟩
    intro hop
    exact h [] ops (by rw [hop]; rfl)
  · intro h pre suf he
    cases pre with
    | nil =>
      obtain ⟨hop, rfl⟩ := List.cons.inj he
      exact h.1 hop
    | cons _ pre => exact h.2 pre suf (List.cons.inj he).2

/-- **One bit.** It is down after a run if and only if all that put it up was cleared. -/
theorem foldl_false_iff (ops : List FlagOp) (b : Bool) :
    ops.foldl FlagOp.apply b = false ↔ (b = true → .clear ∈ ops) ∧ Lowered ops := by
  induction ops generalizing b with
  | nil =>
    show b = false ↔ _
    exact ⟨fun h => ⟨fun hb => absurd (h.symm.trans hb) Bool.false_ne_true, lowered_nil⟩,
      fun h => Bool.eq_false_iff.mpr fun hb => List.not_mem_nil (h.1 hb)⟩
  | cons op ops ih =>
    rw [List.foldl_cons, ih, lowered_cons]
    cases op with
    | set =>
      unfold FlagOp.apply
      exact ⟨fun h => ⟨fun _ => List.mem_cons_of_mem _ (h.1 rfl), fun _ => h.1 rfl, h.2⟩,
        fun h => ⟨fun _ => h.2.1 rfl, h.2.2⟩⟩
    | clear =>
      unfold FlagOp.apply
      exact ⟨fun h => ⟨fun _ => List.mem_cons_self .., fun he => absurd he (by decide), h.2⟩,
        fun h => ⟨fun he => absurd he Bool.false_ne_true, h.2.2⟩⟩
    | keep =>
      unfold FlagOp.apply
      have hmem : FlagOp.clear ∈ FlagOp.keep :: ops ↔ .clear ∈ ops := by
        rw [List.mem_cons]
        exact or_iff_right (by decide)
      rw [hmem]
      exact and_congr_right fun _ => ⟨fun h => ⟨fun he => absurd he (by decide), h⟩, And.right⟩

/-! ## Words -/

def bit (w : UInt32) (i : Nat) : Bool := w.toBitVec.getLsbD i

theorem bit_or (w v : UInt32) (i : Nat) : bit (w ||| v) i = (bit w i || bit v i) := by
  unfold bit
  rw [UInt32.toBitVec_or, BitVec.getLsbD_or]

theorem bit_clear (w v : UInt32) {i : Nat} (hi : i < 32) :
    bit (w &&& ~~~v) i = (bit w i && !bit v i) := by
  unfold bit
  rw [UInt32.toBitVec_and, UInt32.toBitVec_not, BitVec.getLsbD_and, BitVec.getLsbD_not,
    decide_eq_true hi, Bool.true_and]

theorem bit_zero (i : Nat) : bit 0 i = false := by
  unfold bit
  exact BitVec.getLsbD_zero

theorem bit_ones {i : Nat} (hi : i < 32) : bit 0xffffffff i = true := by
  unfold bit
  rw [show (0xffffffff : UInt32).toBitVec = BitVec.allOnes 32 from rfl, BitVec.getLsbD_allOnes]
  exact decide_eq_true hi

theorem eq_zero_iff (w : UInt32) : w = 0 ↔ ∀ i < 32, bit w i = false := by
  constructor
  · intro h i _
    rw [h, bit_zero]
  · intro h
    apply UInt32.toBitVec_inj.mp
    apply BitVec.eq_of_getLsbD_eq
    intro i hi
    exact (h i hi).trans (bit_zero i).symm

/-- Set the flags of a mask, clear them, or do nothing. -/
inductive WordOp where
  | raise (mask : UInt32)
  | lower (mask : UInt32)
  | keep

def WordOp.apply (w : UInt32) : WordOp → UInt32
  | .raise mask => w ||| mask
  | .lower mask => w &&& ~~~mask
  | .keep => w

/-- What the operation does to bit `i`. -/
def WordOp.flagAt (i : Nat) : WordOp → FlagOp
  | .raise mask => if bit mask i = true then .set else .keep
  | .lower mask => if bit mask i = true then .clear else .keep
  | .keep => .keep

theorem bit_apply (w : UInt32) (op : WordOp) {i : Nat} (hi : i < 32) :
    bit (op.apply w) i = (op.flagAt i).apply (bit w i) := by
  cases op with
  | raise mask =>
    unfold WordOp.apply WordOp.flagAt
    dsimp only
    rw [bit_or]
    cases bit mask i with
    | true => exact Bool.or_true _
    | false => exact Bool.or_false _
  | lower mask =>
    unfold WordOp.apply WordOp.flagAt
    dsimp only
    rw [bit_clear w mask hi]
    cases bit mask i with
    | true => exact Bool.and_false _
    | false => exact Bool.and_true _
  | keep => rfl

theorem bit_foldl (ops : List WordOp) (w : UInt32) {i : Nat} (hi : i < 32) :
    bit (ops.foldl WordOp.apply w) i = (ops.map (·.flagAt i)).foldl FlagOp.apply (bit w i) := by
  induction ops generalizing w with
  | nil => rfl
  | cons op ops ih => rw [List.foldl_cons, ih, bit_apply w op hi, List.map_cons, List.foldl_cons]

/-- **A word.** It is 0 after a run if and only if every flag that was up or was raised was
    lowered after that. -/
theorem foldl_zero_iff (ops : List WordOp) (w : UInt32) :
    ops.foldl WordOp.apply w = 0 ↔ ∀ i < 32,
      (bit w i = true → .clear ∈ ops.map (·.flagAt i)) ∧ Lowered (ops.map (·.flagAt i)) := by
  rw [eq_zero_iff]
  refine forall_congr' fun i => forall_congr' fun hi => ?_
  rw [bit_foldl ops w hi]
  exact foldl_false_iff _ _

end FlagLib
