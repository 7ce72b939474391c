/-
  Numbers as hexadecimal digits, the most significant first.

  `hexDigits w n` is what `%0wx` prints of a number below 16^w; `hexValue` reads it back.
-/
import Mathlib.Algebra.Group.Nat.Even
import Mathlib.Tactic.Common

namespace HexLib

def hexDigits : Nat → Nat → List Char
  | 0, _ => []
  | w + 1, n => hexDigits w (n / 16) ++ [Nat.digitChar (n % 16)]

/-- The value of a digit in lower case. -/
def digitValue (c : Char) : Nat := if c.toNat < 0x61 then c.toNat - 0x30 else c.toNat - 0x57

def hexValue (cs : List Char) : Nat := cs.foldl (fun n c => 16 * n + digitValue c) 0

@[simp] theorem hexDigits_length (w n : Nat) : (hexDigits w n).length = w := by
  induction w generalizing n with
  | zero => rfl
  | succ w ih => rw [hexDigits, List.length_append, ih, List.length_singleton]

theorem digitValue_digitChar : ∀ n < 16, digitValue (Nat.digitChar n) = n := by decide

theorem hexValue_hexDigits {w n : Nat} (h : n < 16 ^ w) : hexValue (hexDigits w n) = n := by
  induction w generalizing n with
  | zero =>
    have hzero : n = 0 := by simpa using h
    rw [hzero]
    rfl
  | succ w ih =>
    have hdiv : n / 16 < 16 ^ w := Nat.div_lt_of_lt_mul (by rwa [pow_succ, Nat.mul_comm] at h)
    have hfold : hexValue (hexDigits (w + 1) n) =
        16 * hexValue (hexDigits w (n / 16)) + digitValue (Nat.digitChar (n % 16)) := by
      rw [hexDigits, hexValue, List.foldl_append]
      rfl
    rw [hfold, ih hdiv, digitValue_digitChar _ (Nat.mod_lt n (by decide)), Nat.div_add_mod]

/-- The digits that are printed. -/
theorem mem_hexDigits {w n : Nat} {c : Char} (h : c ∈ hexDigits w n) :
    ∃ d < 16, c = Nat.digitChar d := by
  induction w generalizing n with
  | zero => cases h
  | succ w ih =>
    rcases List.mem_append.mp h with hmore | hlast
    · exact ih hmore
    · exact ⟨n % 16, Nat.mod_lt n (by decide), List.mem_singleton.mp hlast⟩

end HexLib
