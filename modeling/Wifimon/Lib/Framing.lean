/-
  Length-prefixed records: a header of `h` bytes declares the length of the payload after it.

  `readRecords` reads a byte string record by record and returns the payloads, or nothing when
  the string does not end exactly at the end of a record. `readRecords_cons` is one step of it,
  `readRecords_flatMap` reads back a string of well-formed records, and `readRecords_head` says
  what any successful read knows of its first payload.

  `scanRecords` reads as far as there are complete records, and returns what is left.
-/
import Mathlib.Data.List.Basic
import Mathlib.Tactic.Common

namespace FrameLib

variable {α : Type} (h : Nat) (lenOf : List α → Nat)

/-- `readRecords` with at most `fuel` records. -/
def readFuel : Nat → List α → Option (List (List α))
  | _, [] => some []
  | 0, _ :: _ => none
  | fuel + 1, b :: bs =>
    if (b :: bs).length < h then none
    else
      let body := (b :: bs).drop h
      let n := lenOf ((b :: bs).take h)
      if body.length < n then none
      else (readFuel fuel (body.drop n)).map (body.take n :: ·)

/-- The payloads of a string of records, if it is one. -/
def readRecords (bs : List α) : Option (List (List α)) := readFuel h lenOf bs.length bs

variable {h lenOf}

@[simp] theorem readRecords_nil : readRecords h lenOf [] = some [] := rfl

/-- Fuel beyond the length of the string changes nothing (a header is not empty). -/
theorem readFuel_eq (hh : 0 < h) {f g : Nat} {bs : List α} (hf : bs.length ≤ f)
    (hg : bs.length ≤ g) : readFuel h lenOf f bs = readFuel h lenOf g bs := by
  induction f generalizing g bs with
  | zero =>
    have : bs = [] := List.eq_nil_of_length_eq_zero (by omega)
    subst this
    cases g <;> rfl
  | succ f ih =>
    cases bs with
    | nil => cases g <;> rfl
    | cons b bs =>
      cases g with
      | zero => simp at hg
      | succ g =>
        have hrest : (((b :: bs).drop h).drop (lenOf ((b :: bs).take h))).length ≤ bs.length := by
          simp only [List.length_drop, List.length_cons]; omega
        simp only [List.length_cons] at hf hg
        have hstep : readFuel h lenOf f (((b :: bs).drop h).drop (lenOf ((b :: bs).take h))) =
            readFuel h lenOf g (((b :: bs).drop h).drop (lenOf ((b :: bs).take h))) :=
          ih (by omega) (by omega)
        simp only [readFuel, hstep]

/-- One record in front of `rest`. -/
theorem readRecords_cons (hh : 0 < h) {hd p : List α} (hlen : hd.length = h)
    (hp : lenOf hd = p.length) (rest : List α) :
    readRecords h lenOf (hd ++ (p ++ rest)) = (readRecords h lenOf rest).map (p :: ·) := by
  obtain ⟨b, bs, hb⟩ : ∃ b bs, hd ++ (p ++ rest) = b :: bs := by
    cases hd with
    | nil => simp at hlen; omega
    | cons b hd => exact ⟨b, _, rfl⟩
  have htake : (b :: bs).take h = hd := by rw [← hb, List.take_left' hlen]
  have hdrop : (b :: bs).drop h = p ++ rest := by rw [← hb, List.drop_left' hlen]
  have htotal : (b :: bs).length = h + (p.length + rest.length) := by rw [← hb]; simp [hlen]
  unfold readRecords
  rw [hb, List.length_cons, readFuel, if_neg (by omega), hdrop, htake, hp]
  dsimp only
  rw [if_neg (by simp), List.drop_left, List.take_left]
  rw [readFuel_eq hh (g := rest.length) (by simp at htotal; omega) (Nat.le_refl _)]

/-- A string of well-formed records is read back. -/
theorem readRecords_flatMap {R : Type} (hh : 0 < h) (hd pl : R → List α) (rs : List R)
    (hlen : ∀ r ∈ rs, (hd r).length = h) (hp : ∀ r ∈ rs, lenOf (hd r) = (pl r).length) :
    readRecords h lenOf (rs.flatMap fun r => hd r ++ pl r) = some (rs.map pl) := by
  induction rs with
  | nil => rfl
  | cons r rs ih =>
    rw [List.flatMap_cons, List.append_assoc,
      readRecords_cons hh (hlen r (by simp)) (hp r (by simp)),
      ih (fun x hx => hlen x (by simp [hx])) (fun x hx => hp x (by simp [hx]))]
    rfl

/-- The first payload of a successful read has the length its header declares. -/
theorem readRecords_head {hd body p : List α} {ps : List (List α)}
    (hh : 0 < h) (hlen : hd.length = h)
    (hr : readRecords h lenOf (hd ++ body) = some (p :: ps)) : p.length = lenOf hd := by
  obtain ⟨b, bs, hb⟩ : ∃ b bs, hd ++ body = b :: bs := by
    cases hd with
    | nil => simp at hlen; omega
    | cons b hd => exact ⟨b, _, rfl⟩
  have htake : (b :: bs).take h = hd := by rw [← hb, List.take_left' hlen]
  unfold readRecords at hr
  rw [hb, List.length_cons, readFuel, htake] at hr
  split at hr
  · exact absurd hr (by simp)
  · dsimp only at hr
    split at hr
    · exact absurd hr (by simp)
    · rename_i hn
      obtain ⟨tl, -, htl⟩ := Option.map_eq_some_iff.mp hr
      rw [← (List.cons.inj htl).1, List.length_take, Nat.min_eq_left (by omega)]

/-! ## As far as there are records -/

variable (h lenOf)

/-- The first payload and what follows it, if there is a complete record. -/
def firstRecord (bs : List α) : Option (List α × List α) :=
  if bs.length < h then none
  else
    let body := bs.drop h
    let n := lenOf (bs.take h)
    if body.length < n then none else some (body.take n, body.drop n)

def scanFuel : Nat → List α → List (List α) × List α
  | 0, bs => ([], bs)
  | fuel + 1, bs =>
    match firstRecord h lenOf bs with
    | none => ([], bs)
    | some (p, rest) =>
      let r := scanFuel fuel rest
      (p :: r.1, r.2)

/-- The payloads of the complete records, and the bytes after the last of them. -/
def scanRecords (bs : List α) : List (List α) × List α := scanFuel h lenOf bs.length bs

variable {h lenOf}

theorem firstRecord_rest (hh : 0 < h) {bs p rest : List α}
    (hr : firstRecord h lenOf bs = some (p, rest)) : rest.length < bs.length := by
  unfold firstRecord at hr
  split at hr
  · exact absurd hr (by simp)
  · rename_i hlen
    dsimp only at hr
    split at hr
    · exact absurd hr (by simp)
    · obtain ⟨-, rfl⟩ := Prod.mk.inj (Option.some.inj hr)
      simp only [List.length_drop]
      omega

theorem firstRecord_append {hd p : List α} (hlen : hd.length = h) (hp : lenOf hd = p.length)
    (rest : List α) : firstRecord h lenOf (hd ++ (p ++ rest)) = some (p, rest) := by
  unfold firstRecord
  rw [if_neg (by simp [hlen]), List.drop_left' hlen, List.take_left' hlen, hp]
  dsimp only
  rw [if_neg (by simp), List.take_left, List.drop_left]

theorem scanFuel_eq (hh : 0 < h) {f g : Nat} {bs : List α} (hf : bs.length ≤ f)
    (hg : bs.length ≤ g) : scanFuel h lenOf f bs = scanFuel h lenOf g bs := by
  induction f generalizing g bs with
  | zero =>
    obtain rfl : bs = [] := List.eq_nil_of_length_eq_zero (by omega)
    cases g with
    | zero => rfl
    | succ g =>
      have hnone : firstRecord h lenOf ([] : List α) = none := if_pos hh
      rw [scanFuel, scanFuel, hnone]
  | succ f ih =>
    cases g with
    | zero =>
      obtain rfl : bs = [] := List.eq_nil_of_length_eq_zero (by omega)
      have hnone : firstRecord h lenOf ([] : List α) = none := if_pos hh
      rw [scanFuel, scanFuel, hnone]
    | succ g =>
      rw [scanFuel, scanFuel]
      cases hr : firstRecord h lenOf bs with
      | none => rfl
      | some r =>
        have hrest := firstRecord_rest hh hr
        have hstep : scanFuel h lenOf f r.2 = scanFuel h lenOf g r.2 :=
          ih (by omega) (by omega)
        dsimp only
        rw [hstep]

/-- Where no complete record begins, nothing is read. -/
theorem scanRecords_of_none {bs : List α} (hr : firstRecord h lenOf bs = none) :
    scanRecords h lenOf bs = ([], bs) := by
  unfold scanRecords
  cases bs.length with
  | zero => rfl
  | succ fuel => rw [scanFuel, hr]

theorem scanRecords_cons (hh : 0 < h) {hd p : List α} (hlen : hd.length = h)
    (hp : lenOf hd = p.length) (rest : List α) :
    scanRecords h lenOf (hd ++ (p ++ rest)) =
      (p :: (scanRecords h lenOf rest).1, (scanRecords h lenOf rest).2) := by
  obtain ⟨fuel, hfuel⟩ : ∃ fuel, (hd ++ (p ++ rest)).length = fuel + 1 := by
    refine ⟨h - 1 + (p ++ rest).length, ?_⟩
    rw [List.length_append, hlen]
    omega
  unfold scanRecords
  rw [hfuel, scanFuel, firstRecord_append hlen hp]
  dsimp only
  rw [scanFuel_eq hh (g := rest.length) (by simp at hfuel; omega) (Nat.le_refl _)]

/-- Well-formed records in front of `tail`. -/
theorem scanRecords_flatMap {R : Type} (hh : 0 < h) (hd pl : R → List α) (rs : List R)
    (hlen : ∀ r ∈ rs, (hd r).length = h) (hp : ∀ r ∈ rs, lenOf (hd r) = (pl r).length)
    (tail : List α) :
    scanRecords h lenOf ((rs.flatMap fun r => hd r ++ pl r) ++ tail) =
      (rs.map pl ++ (scanRecords h lenOf tail).1, (scanRecords h lenOf tail).2) := by
  induction rs with
  | nil => rfl
  | cons r rs ih =>
    have hr := scanRecords_cons hh (hlen r (List.mem_cons_self ..)) (hp r (List.mem_cons_self ..))
      ((rs.flatMap fun r => hd r ++ pl r) ++ tail)
    have hrest := ih (fun x hx => hlen x (List.mem_cons_of_mem _ hx))
      fun x hx => hp x (List.mem_cons_of_mem _ hx)
    rw [List.flatMap_cons, List.append_assoc, List.append_assoc, hr, hrest]
    rfl

end FrameLib
