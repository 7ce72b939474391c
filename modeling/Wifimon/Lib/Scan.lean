/-
  Searching constant tables.

  `scan` is a loop over an array whose bound comes from elsewhere: it says which indices are
  read, and ends in `none` if one of them is past the end. Within the bound it is `List.find?`
  (`scan_spec`). `find?_key_iff` and `find?_other_key`: a column without repetitions finds its
  rows, and two such columns are inverse to each other.

  Nothing here knows which program is being verified.
-/
import Mathlib.Data.List.Nodup
import Mathlib.Tactic.Common

namespace ScanLib

variable {α κ : Type}

/-! ## The loop -/

/-- The loop from index `i` for `room` rounds: the indices read, and the first hit. -/
def scan (table : List α) (hit : α → Bool) : Nat → Nat → List Nat × Option (Option α)
  | 0, _ => ([], some none)
  | room + 1, i =>
    match table[i]? with
    | none => ([i], none)
    | some a =>
      if hit a then ([i], some (some a))
      else
        let r := scan table hit room (i + 1)
        (i :: r.1, r.2)

/-- A loop that ends within the table reads inside it, and finds the first hit there. -/
theorem scan_spec {table : List α} (hit : α → Bool) {room i : Nat}
    (h : i + room ≤ table.length) :
    (∀ j ∈ (scan table hit room i).1, j < table.length) ∧
      (scan table hit room i).2 = some (((table.drop i).take room).find? hit) := by
  induction room generalizing i with
  | zero => exact ⟨fun j hj => absurd hj List.not_mem_nil, rfl⟩
  | succ room ih =>
    have hi : i < table.length := by omega
    obtain ⟨hreads, hfound⟩ := ih (i := i + 1) (by omega)
    rw [scan, List.getElem?_eq_getElem hi, List.drop_eq_getElem_cons hi, List.take_succ_cons,
      List.find?_cons]
    dsimp only
    by_cases hhit : hit table[i] = true
    · rw [if_pos hhit, hhit]
      refine ⟨fun j hj => ?_, rfl⟩
      rw [List.mem_singleton.mp hj]
      exact hi
    · rw [if_neg hhit, Bool.eq_false_iff.mpr hhit]
      refine ⟨fun j hj => ?_, hfound⟩
      obtain rfl | hj := List.mem_cons.mp hj
      · exact hi
      · exact hreads j hj

theorem scan_all (table : List α) (hit : α → Bool) :
    (∀ j ∈ (scan table hit table.length 0).1, j < table.length) ∧
      (scan table hit table.length 0).2 = some (table.find? hit) := by
  have h := scan_spec hit (Nat.le_of_eq (Nat.zero_add table.length))
  rwa [List.drop_zero, List.take_length] at h

/-! ## Columns -/

variable [DecidableEq κ]

theorem find?_key_iff {table : List α} {key : α → κ} (h : (table.map key).Nodup) {x : κ} {a : α} :
    table.find? (fun a => x == key a) = some a ↔ a ∈ table ∧ key a = x := by
  constructor
  · intro hfound
    have hkey : x = key a := by simpa using List.find?_some hfound
    exact ⟨List.mem_of_find?_eq_some hfound, hkey.symm⟩
  · rintro ⟨hmem, rfl⟩
    obtain ⟨b, hb⟩ : ∃ b, table.find? (fun b => key a == key b) = some b := by
      rw [← Option.isSome_iff_exists, List.find?_isSome]
      exact ⟨a, hmem, by simp⟩
    have hkey : key a = key b := by simpa using List.find?_some hb
    rw [hb, List.inj_on_of_nodup_map h hmem (List.mem_of_find?_eq_some hb) hkey]

/-- A row that is found by one column is found by the other. -/
theorem find?_other_key {κ' : Type} [DecidableEq κ'] {table : List α} {key : α → κ}
    {key' : α → κ'} (h' : (table.map key').Nodup) {x : κ} {a : α}
    (ha : table.find? (fun a => x == key a) = some a) :
    table.find? (fun b => key' a == key' b) = some a :=
  (find?_key_iff h').mpr ⟨List.mem_of_find?_eq_some ha, rfl⟩

end ScanLib
