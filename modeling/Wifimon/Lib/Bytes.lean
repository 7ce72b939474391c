/-
  Bytes in memory and on disk: little-endian words and byte-addressed memory.

  `le n v` is the `n` low bytes of `v`, least significant first, and `ofLe` reads them back
  (`ofLe_le`). `Mem` is the memory behind a pointer: the byte at every offset. `load` and
  `store` move byte strings in and out of it; the lemmas say what a load returns after a store
  that covers it, that is disjoint from it, or that contains it.

  Nothing here knows which program is being verified.
-/
import Mathlib.Algebra.Ring.Int.Defs
import Mathlib.Algebra.Ring.Nat
import Mathlib.Data.List.GetD
import Mathlib.Tactic.Common

namespace ByteLib

/-! ## Little-endian words -/

/-- The `n` low bytes of `v`, least significant first. -/
def le : Nat → Nat → List UInt8
  | 0, _ => []
  | n + 1, v => UInt8.ofNat v :: le n (v / 256)

/-- The value of a little-endian byte string. -/
def ofLe : List UInt8 → Nat
  | [] => 0
  | b :: bs => b.toNat + 256 * ofLe bs

@[simp] theorem le_length (n v : Nat) : (le n v).length = n := by
  induction n generalizing v with
  | zero => rfl
  | succ n ih => simp [le, ih]

theorem ofLe_le_mod (n v : Nat) : ofLe (le n v) = v % 256 ^ n := by
  induction n generalizing v with
  | zero => simp [le, ofLe, Nat.mod_one]
  | succ n ih =>
    have hb : (UInt8.ofNat v).toNat = v % 256 := by simp
    rw [le, ofLe, ih, hb, Nat.pow_succ, Nat.mul_comm (256 ^ n) 256, Nat.mod_mul]

theorem ofLe_le {n v : Nat} (h : v < 256 ^ n) : ofLe (le n v) = v := by
  rw [ofLe_le_mod, Nat.mod_eq_of_lt h]

theorem ofLe_le_four (x : UInt32) : ofLe (le 4 x.toNat) = x.toNat :=
  ofLe_le (by have := x.toNat_lt; omega)

theorem le_ofLe (bs : List UInt8) : le bs.length (ofLe bs) = bs := by
  induction bs with
  | nil => rfl
  | cons b bs ih =>
    have hb := b.toNat_lt
    have hlow : UInt8.ofNat (b.toNat + 256 * ofLe bs) = b := by
      apply UInt8.toNat_inj.mp
      rw [UInt8.toNat_ofNat']
      omega
    have hhigh : (b.toNat + 256 * ofLe bs) / 256 = ofLe bs := by omega
    rw [List.length_cons, ofLe, le, hlow, hhigh, ih]

theorem ofLe_lt (bs : List UInt8) : ofLe bs < 256 ^ bs.length := by
  induction bs with
  | nil => simp [ofLe]
  | cons b bs ih =>
    have hb := b.toNat_lt
    rw [ofLe, List.length_cons, Nat.pow_succ]
    omega

/-- Bit `j` of a little-endian byte string is in byte `j / 8`. -/
theorem testBit_ofLe (bs : List UInt8) (j : Nat) :
    (ofLe bs).testBit j = (bs.getD (j / 8) 0).toNat.testBit (j % 8) := by
  induction bs generalizing j with
  | nil => simp [ofLe]
  | cons b bs ih =>
    have hsum : ofLe (b :: bs) = 2 ^ 8 * ofLe bs + b.toNat := Nat.add_comm _ _
    rw [hsum, Nat.testBit_two_pow_mul_add _ b.toNat_lt]
    by_cases hj : j < 8
    · rw [if_pos hj, Nat.div_eq_of_lt hj, Nat.mod_eq_of_lt hj]
      rfl
    · have hdiv : j / 8 = (j - 8) / 8 + 1 := by omega
      have hmod : j % 8 = (j - 8) % 8 := by omega
      rw [if_neg hj, ih, hdiv, hmod]
      rfl

/-- The value of a big-endian byte string. -/
def ofBe (bs : List UInt8) : Nat := ofLe bs.reverse

/-! ## Memory behind a pointer -/

/-- The byte at every offset from a pointer. -/
abbrev Mem := Nat → UInt8

/-- `n` bytes from offset `off`. -/
def load (m : Mem) (off n : Nat) : List UInt8 :=
  (List.range n).map fun i => m (off + i)

/-- `memcpy` of `bs` to offset `off`. -/
def store (m : Mem) (off : Nat) (bs : List UInt8) : Mem := fun i =>
  if off ≤ i ∧ i < off + bs.length then bs.getD (i - off) 0 else m i

/-- The memory of an array with contents `bs`; zero past its end. -/
def ofList (bs : List UInt8) : Mem := fun i => bs.getD i 0

/-- The little-endian word of `n` bytes at `off`. -/
def rd (m : Mem) (off n : Nat) : Nat := ofLe (load m off n)

def rd16 (m : Mem) (off : Nat) : UInt16 := UInt16.ofNat (rd m off 2)

def rd32 (m : Mem) (off : Nat) : UInt32 := UInt32.ofNat (rd m off 4)

@[simp] theorem load_length (m : Mem) (off n : Nat) : (load m off n).length = n := by
  simp [load]

@[simp] theorem load_getElem (m : Mem) (off n i : Nat) (h : i < (load m off n).length) :
    (load m off n)[i] = m (off + i) := by
  simp [load]

theorem load_congr {m m' : Mem} {off n : Nat} (h : ∀ i, i < n → m (off + i) = m' (off + i)) :
    load m off n = load m' off n := by
  apply List.ext_getElem
  · simp
  · intro i h1 _
    simpa using h i (by simpa using h1)

theorem load_append (m : Mem) (off n k : Nat) :
    load m off (n + k) = load m off n ++ load m (off + n) k := by
  simp [load, List.range_add, Nat.add_assoc, Function.comp_def]

theorem store_apply_of_not {m : Mem} {off : Nat} {bs : List UInt8} {i : Nat}
    (h : i < off ∨ off + bs.length ≤ i) : store m off bs i = m i :=
  if_neg (by omega)

theorem store_apply_of_mem {m : Mem} {off : Nat} {bs : List UInt8} {i : Nat}
    (hi : i < bs.length) : store m off bs (off + i) = bs[i] := by
  have hin : off ≤ off + i ∧ off + i < off + bs.length := by omega
  rw [store, if_pos hin, Nat.add_sub_cancel_left, List.getD_eq_getElem _ _ hi]

@[simp] theorem store_nil (m : Mem) (off : Nat) : store m off [] = m := by
  funext i
  exact store_apply_of_not (by simp only [List.length_nil]; omega)

/-- A load that a store does not touch. -/
theorem load_store_disjoint {m : Mem} {off o n : Nat} {bs : List UInt8}
    (h : o + n ≤ off ∨ off + bs.length ≤ o) : load (store m off bs) o n = load m o n :=
  load_congr fun i _ => store_apply_of_not (by omega)

/-- A load from inside a store. -/
theorem load_store_inside {m : Mem} {off k n : Nat} {bs : List UInt8} (h : k + n ≤ bs.length) :
    load (store m off bs) (off + k) n = (bs.drop k).take n := by
  apply List.ext_getElem
  · simp; omega
  · intro i h1 _
    have hi : k + i < bs.length := by
      have := load_length (store m off bs) (off + k) n
      omega
    rw [load_getElem, Nat.add_assoc, store_apply_of_mem hi]
    simp

theorem load_store_self (m : Mem) (off : Nat) (bs : List UInt8) :
    load (store m off bs) off bs.length = bs := by
  have h : load (store m off bs) (off + 0) bs.length = (bs.drop 0).take bs.length :=
    load_store_inside (by omega)
  simpa using h

/-- Two stores, one behind the other, are loaded together. -/
theorem load_store_append (m : Mem) (off : Nat) (as bs : List UInt8) :
    load (store (store m off as) (off + as.length) bs) off (as.length + bs.length) = as ++ bs := by
  have hfirst : load (store (store m off as) (off + as.length) bs) off as.length = as := by
    rw [load_store_disjoint (Or.inl (Nat.le_refl _)), load_store_self]
  rw [load_append, hfirst, load_store_self]

theorem rd_store_disjoint {m : Mem} {off o n : Nat} {bs : List UInt8}
    (h : o + n ≤ off ∨ off + bs.length ≤ o) : rd (store m off bs) o n = rd m o n := by
  rw [rd, load_store_disjoint h, rd]

/-- Reading the field `le n v` that stands after `pre` in a stored record. -/
theorem rd_store_field (m : Mem) (off n v : Nat) (pre post : List UInt8) :
    rd (store m off (pre ++ (le n v ++ post))) (off + pre.length) n = v % 256 ^ n := by
  rw [rd, load_store_inside (by simp), List.drop_left, List.take_left' (le_length n v),
    ofLe_le_mod]

/-- A part of a load. -/
theorem load_drop_take {m : Mem} {off n k j : Nat} (h : k + j ≤ n) :
    ((load m off n).drop k).take j = load m (off + k) j := by
  apply List.ext_getElem
  · simp; omega
  · intro i h1 h2
    rw [load_length] at h2
    simp [load, Nat.add_assoc]

/-- A load from inside a copied block. -/
theorem load_store_load {m e : Mem} {n k j : Nat} (h : k + j ≤ n) :
    load (store m 0 (load e 0 n)) k j = load e k j := by
  have hin : load (store m 0 (load e 0 n)) (0 + k) j = ((load e 0 n).drop k).take j :=
    load_store_inside (by rw [load_length]; exact h)
  rw [load_drop_take h] at hin
  simpa using hin

/-- Fields read from inside it. -/
theorem rd16_store_load {m e : Mem} {n k : Nat} (h : k + 2 ≤ n) :
    rd16 (store m 0 (load e 0 n)) k = rd16 e k := by
  rw [rd16, rd, load_store_load h, rd16, rd]

theorem rd32_store_load {m e : Mem} {n k : Nat} (h : k + 4 ≤ n) :
    rd32 (store m 0 (load e 0 n)) k = rd32 e k := by
  rw [rd32, rd, load_store_load h, rd32, rd]

theorem toNat_rd32 (m : Mem) (off : Nat) : (rd32 m off).toNat = rd m off 4 := by
  have h := ofLe_lt (load m off 4)
  rw [load_length] at h
  simp only [rd32, UInt32.toNat_ofNat', rd]
  omega

/-- The bytes of a word are the bytes it was read from. -/
theorem le_rd32 (m : Mem) (off : Nat) : le 4 (rd32 m off).toNat = load m off 4 := by
  have h := le_ofLe (load m off 4)
  rw [load_length] at h
  rw [toNat_rd32, rd, h]

theorem rd32_store_disjoint {m : Mem} {off o : Nat} {bs : List UInt8}
    (h : o + 4 ≤ off ∨ off + bs.length ≤ o) : rd32 (store m off bs) o = rd32 m o := by
  rw [rd32, rd_store_disjoint h, rd32]

/-- Reading back a stored word. -/
@[simp] theorem rd32_store_le (m : Mem) (off : Nat) (v : UInt32) :
    rd32 (store m off (le 4 v.toNat)) off = v := by
  have h := load_store_self m off (le 4 v.toNat)
  rw [le_length] at h
  rw [rd32, rd, h, ofLe_le_four, UInt32.ofNat_toNat]

@[simp] theorem rd16_store_le (m : Mem) (off : Nat) (v : UInt16) :
    rd16 (store m off (le 2 v.toNat)) off = v := by
  have h := load_store_self m off (le 2 v.toNat)
  have hv := ofLe_le (n := 2) (v := v.toNat) v.toNat_lt
  rw [le_length] at h
  rw [rd16, rd, h, hv, UInt16.ofNat_toNat]

/-- The part of an array between a prefix and a suffix. -/
theorem load_ofList_middle (pre mid post : List UInt8) :
    load (ofList (pre ++ (mid ++ post))) pre.length mid.length = mid := by
  apply List.ext_getElem (load_length ..)
  intro i hi hi'
  rw [load_getElem, ofList, List.getD_append_right _ _ _ _ (Nat.le_add_right ..),
    Nat.add_sub_cancel_left, List.getD_append _ _ _ _ hi', List.getD_eq_getElem _ _ hi']

theorem load_ofList {b : List UInt8} {pos n : Nat} (h : pos + n ≤ b.length) :
    load (ofList b) pos n = (b.drop pos).take n := by
  have hmid := load_ofList_middle (b.take pos) ((b.drop pos).take n) ((b.drop pos).drop n)
  rw [List.take_append_drop, List.take_append_drop, List.length_take, List.length_take,
    List.length_drop, Nat.min_eq_left (by omega), Nat.min_eq_left (by omega)] at hmid
  exact hmid

/-! ## Records of 32-bit words -/

/-- The bytes of consecutive 32-bit words. -/
def wordBytes (ws : List UInt32) : List UInt8 := ws.flatMap fun w => le 4 w.toNat

@[simp] theorem wordBytes_length (ws : List UInt32) : (wordBytes ws).length = 4 * ws.length := by
  induction ws with
  | nil => rfl
  | cons w ws ih =>
    rw [wordBytes, List.flatMap_cons, List.length_append, le_length, List.length_cons]
    rw [wordBytes] at ih
    omega

theorem wordBytes_split (ws : List UInt32) (k : Nat) (hk : k < ws.length) :
    wordBytes ws = wordBytes (ws.take k) ++ (le 4 (ws[k]).toNat ++ wordBytes (ws.drop (k + 1))) := by
  have hsplit : ws = ws.take k ++ ws[k] :: ws.drop (k + 1) := by
    rw [← List.drop_eq_getElem_cons hk, List.take_append_drop]
  calc wordBytes ws = wordBytes (ws.take k ++ ws[k] :: ws.drop (k + 1)) := congrArg _ hsplit
    _ = _ := by rw [wordBytes, List.flatMap_append, List.flatMap_cons]; rfl

/-- The `k`-th word of a stored record. -/
theorem rd32_store_words (m : Mem) (off : Nat) (ws : List UInt32) (k : Nat) (hk : k < ws.length) :
    rd32 (store m off (wordBytes ws)) (off + 4 * k) = ws[k] := by
  have hlen : (wordBytes (ws.take k)).length = 4 * k := by
    rw [wordBytes_length, List.length_take]; omega
  have h := rd_store_field m off 4 (ws[k]).toNat (wordBytes (ws.take k))
    (wordBytes (ws.drop (k + 1)))
  rw [← wordBytes_split ws k hk, hlen] at h
  apply UInt32.toNat_inj.mp
  rw [toNat_rd32, h]
  exact Nat.mod_eq_of_lt (by have := (ws[k]).toNat_lt; omega)

/-- `n` consecutive words from `off`. -/
def readWords (m : Mem) (off n : Nat) : List UInt32 :=
  (List.range n).map fun k => rd32 m (off + 4 * k)

theorem readWords_store_self (m : Mem) (off : Nat) (ws : List UInt32) :
    readWords (store m off (wordBytes ws)) off ws.length = ws := by
  apply List.ext_getElem
  · simp [readWords]
  · intro k _ h2
    simpa [readWords] using rd32_store_words m off ws k h2

theorem readWords_congr {m m' : Mem} {off n : Nat}
    (h : ∀ k, k < n → rd32 m (off + 4 * k) = rd32 m' (off + 4 * k)) :
    readWords m off n = readWords m' off n :=
  List.map_congr_left fun k hk => h k (List.mem_range.mp hk)

theorem readWords_store_disjoint {m : Mem} {off o n : Nat} {bs : List UInt8}
    (h : o + 4 * n ≤ off ∨ off + bs.length ≤ o) :
    readWords (store m off bs) o n = readWords m o n :=
  readWords_congr fun k hk => rd32_store_disjoint (by omega)

/-- The words of a record that stands in memory. -/
theorem readWords_of_load {m : Mem} {off : Nat} {ws : List UInt32}
    (h : load m off (4 * ws.length) = wordBytes ws) : readWords m off ws.length = ws := by
  have hstored : load (store m off (wordBytes ws)) off (4 * ws.length) = wordBytes ws := by
    rw [← wordBytes_length, load_store_self]
  have hsame : readWords m off ws.length = readWords (store m off (wordBytes ws)) off ws.length := by
    apply readWords_congr
    intro k hk
    have hin : 4 * k + 4 ≤ 4 * ws.length := by omega
    rw [rd32, rd32, rd, rd, ← load_drop_take hin, ← load_drop_take hin, h, hstored]
  rw [hsame, readWords_store_self]

theorem wordBytes_inj {xs ys : List UInt32} (h : wordBytes xs = wordBytes ys) : xs = ys := by
  have hlen := congrArg List.length h
  rw [wordBytes_length, wordBytes_length] at hlen
  have hxs := readWords_store_self (fun _ => 0) 0 xs
  rw [h, Nat.eq_of_mul_eq_mul_left (by decide) hlen, readWords_store_self] at hxs
  exact hxs.symm

end ByteLib
