/-
  `src/app/patch.c`: writing the firmware patches.

  `patchDo` is the double loop of `patch_do` over a patch table: every word is written, read
  back and compared, and the first failure leaves both loops. `patchTable_eq` flattens it to
  one loop over the table's words (`verifyWords`), and `VerifyLog` says which accesses that loop
  can make on a device that fails and lies at will.

  `patchDo_ordered`: for every table in order (`TableOk`) and every such device, a write to an
  entry comes after the write and the successful read back of every word of every earlier entry;
  the result is non-negative exactly when every word was verified, and is then their number; and
  the words written are a prefix of the table's, with no other byte changed. In the committed
  table the hook at 0xbaa4 is therefore never written before its payload stands.
-/
import Wifimon.App.Util
import Mathlib.Data.List.Infix
import Mathlib.Data.List.Nodup
import Mathlib.Data.List.Pairwise

namespace Wifimon.App

open ByteLib

/-! ## The table -/

/-- `struct patch_t`. -/
structure Patch where
  addr : UInt32
  size : UInt32
  orig : Option Mem
  patch : Mem

def p1Patch : List UInt8 :=
  [0xb1, 0x68, 0x31, 0x44, 0x70, 0x69, 0x00, 0x28, 0x00, 0xD1, 0x05, 0x48, 0xA0, 0xF7, 0x75, 0xFD,
   0x00, 0x25, 0x02, 0xAA,
   0x03, 0xA9, 0x04, 0xA8, 0xAB, 0xF7, 0xB6, 0xFD, 0xAB, 0xF7, 0xDA, 0xFD, 0x00, 0xFF, 0x05, 0x00,
   0x00, 0x00, 0x00, 0x00, 0x00, 0x00, 0x00, 0x00, 0x00, 0x00, 0x00, 0x00, 0x00, 0x00, 0x00, 0x00]

def p2Orig : List UInt8 := [0x00, 0x25, 0x02, 0xaa]

/-- `bl 0x5fedc` -/
def p2Patch : List UInt8 := [0x54, 0xf0, 0x1a, 0xfa]

/-- The committed table. -/
def patches : List Patch :=
  [⟨0x0005fedc, UInt32.ofNat p1Patch.length, none, ofList p1Patch⟩,
   ⟨0x0000baa4, UInt32.ofNat p2Orig.length, some (ofList p2Orig), ofList p2Patch⟩]

/-! ## The loops -/

variable {σ : Type}

/-- `cnt++` on an `int`. -/
def incr (cnt : Int) : Int := (cnt + 1).bmod (2 ^ 32)

/-- The loop over the words of one entry: `n` passes from `j`. An error is the value
    `patch_do` returns. -/
def patchEntry (dev : MemDev σ) (p : Patch) : Nat → UInt32 → Int → σ → Except Int Int × σ
  | 0, _, cnt, s => (.ok cnt, s)
  | n + 1, j, cnt, s =>
    let tmp := rd32 p.patch (4 * j).toNat
    let w := dev.memWrite (p.addr + 4 * j) tmp s
    -- we broke wifi, sorry about that
    if w.1 < 0 then (.error (-1), w.2)
    else
      let r := dev.memRead (p.addr + 4 * j) w.2
      if r.1 < 0 then (.error (-2), r.2.2)
      else if tmp ≠ r.2.1 then (.error (-3), r.2.2)
      else patchEntry dev p n (j + 1) (incr cnt) r.2.2

/-- The loop over the entries. -/
def patchTable (dev : MemDev σ) : List Patch → Int → σ → Except Int Int × σ
  | [], cnt, s => (.ok cnt, s)
  | p :: t, cnt, s =>
    match patchEntry dev p ((p.size + 3) / 4).toNat 0 cnt s with
    | (.ok cnt, s) => patchTable dev t cnt s
    | (.error e, s) => (.error e, s)

def patchDo (dev : MemDev σ) (t : List Patch) (s : σ) : Int × σ :=
  match patchTable dev t 0 s with
  | (.ok cnt, s) => (cnt, s)
  | (.error e, s) => (e, s)

/-! ## One loop over words -/

structure Word where
  addr : UInt32
  data : UInt32
  deriving DecidableEq

/-- The `j`-th word of an entry. -/
def Patch.word (p : Patch) (j : Nat) : Word :=
  ⟨p.addr + UInt32.ofNat (4 * j), rd32 p.patch (4 * j)⟩

/-- The words of an entry, and of a table, in the order of the loops. -/
def Patch.words (p : Patch) : List Word := (List.range (p.size.toNat / 4)).map p.word

def tableWords (t : List Patch) : List Word := t.flatMap Patch.words

def verifyWords (dev : MemDev σ) : List Word → Int → σ → Except Int Int × σ
  | [], cnt, s => (.ok cnt, s)
  | x :: ws, cnt, s =>
    let w := dev.memWrite x.addr x.data s
    if w.1 < 0 then (.error (-1), w.2)
    else
      let r := dev.memRead x.addr w.2
      if r.1 < 0 then (.error (-2), r.2.2)
      else if x.data ≠ r.2.1 then (.error (-3), r.2.2)
      else verifyWords dev ws (incr cnt) r.2.2

theorem verifyWords_append (dev : MemDev σ) (ws vs : List Word) (cnt : Int) (s : σ) :
    verifyWords dev (ws ++ vs) cnt s =
      match verifyWords dev ws cnt s with
      | (.ok cnt, s) => verifyWords dev vs cnt s
      | (.error e, s) => (.error e, s) := by
  induction ws generalizing cnt s with
  | nil => rfl
  | cons x ws ih =>
    rw [List.cons_append, verifyWords, verifyWords]
    dsimp only
    split
    · rfl
    · split
      · rfl
      · split
        · rfl
        · exact ih _ _

/-- The passes from `j` on are the words from `j` on, where `4 * j` does not wrap. -/
theorem patchEntry_eq (dev : MemDev σ) (p : Patch) (n j : Nat) (h : 4 * (j + n) ≤ 2 ^ 32)
    (cnt : Int) (s : σ) :
    patchEntry dev p n (UInt32.ofNat j) cnt s =
      verifyWords dev ((List.range' j n).map p.word) cnt s := by
  induction n generalizing j cnt s with
  | zero => rfl
  | succ n ih =>
    have hmul : 4 * UInt32.ofNat j = UInt32.ofNat (4 * j) := by
      rw [UInt32.ofNat_mul]
      rfl
    have hofs : (4 * UInt32.ofNat j).toNat = 4 * j := by
      rw [hmul]
      exact UInt32.toNat_ofNat_of_lt' (by show 4 * j < 2 ^ 32; omega)
    have hnext : UInt32.ofNat j + 1 = UInt32.ofNat (j + 1) := by
      rw [UInt32.ofNat_add]
      rfl
    rw [List.range'_succ, List.map_cons, patchEntry, verifyWords, hofs, hmul, hnext]
    simp only [ih (j + 1) (by omega)]
    rfl

/-- The number of passes of the inner loop, for a size that is a multiple of 4. -/
theorem passes_eq {size : UInt32} (h : size.toNat % 4 = 0) :
    ((size + 3) / 4).toNat = size.toNat / 4 := by
  have hlt := size.toNat_lt
  rw [UInt32.toNat_div, UInt32.toNat_add]
  show (size.toNat + 3) % 2 ^ 32 / 4 = _
  omega

/-- The nested loops are one loop over the table's words. -/
theorem patchTable_eq (dev : MemDev σ) (t : List Patch) (h : ∀ p ∈ t, p.size.toNat % 4 = 0)
    (cnt : Int) (s : σ) : patchTable dev t cnt s = verifyWords dev (tableWords t) cnt s := by
  induction t generalizing cnt s with
  | nil => rfl
  | cons p t ih =>
    have hp := h p (List.mem_cons_self ..)
    have hlt := p.size.toNat_lt
    have hentry := patchEntry_eq dev p (p.size.toNat / 4) 0 (by omega) cnt s
    rw [← List.range_eq_range'] at hentry
    rw [patchTable, passes_eq hp, tableWords, List.flatMap_cons, verifyWords_append, ← tableWords]
    show (match patchEntry dev p (p.size.toNat / 4) (UInt32.ofNat 0) cnt s with
      | (.ok cnt, s) => patchTable dev t cnt s
      | (.error e, s) => (.error e, s)) = _
    rw [hentry]
    simp only [ih fun q hq => h q (List.mem_cons_of_mem p hq)]
    rfl

/-! ## The accesses of the loop -/

/-- The accesses of `verifyWords` on a device that may fail or lie, and its error, if any. -/
inductive VerifyLog : List Word → List Access → Option Int → Prop where
  | done : VerifyLog [] [] none
  | writeFails {x : Word} {ws : List Word} {w : Int} : w < 0 →
      VerifyLog (x :: ws) [.write x.addr x.data w] (some (-1))
  | readFails {x : Word} {ws : List Word} {w r : Int} {v : UInt32} : 0 ≤ w → r < 0 →
      VerifyLog (x :: ws) [.write x.addr x.data w, .read x.addr r v] (some (-2))
  | mismatch {x : Word} {ws : List Word} {w r : Int} {v : UInt32} : 0 ≤ w → 0 ≤ r →
      x.data ≠ v → VerifyLog (x :: ws) [.write x.addr x.data w, .read x.addr r v] (some (-3))
  | verified {x : Word} {ws : List Word} {w r : Int} {l : List Access} {out : Option Int} :
      0 ≤ w → 0 ≤ r → VerifyLog ws l out →
      VerifyLog (x :: ws) (.write x.addr x.data w :: .read x.addr r x.data :: l) out

/-- The words a log writes, in order, whatever the device answered. -/
def written (l : List Access) : List Word :=
  l.filterMap fun
    | .write addr data _ => some ⟨addr, data⟩
    | .read .. => none

/-- The word was written and, next, read back equal. -/
def Verified (l : List Access) (x : Word) : Prop :=
  ∃ w r, 0 ≤ w ∧ 0 ≤ r ∧ [.write x.addr x.data w, .read x.addr r x.data] <:+: l

theorem Verified.mono {l l' : List Access} {x : Word} (h : l <:+: l') :
    Verified l x → Verified l' x :=
  fun ⟨w, r, h1, h2, h3⟩ => ⟨w, r, h1, h2, h3.trans h⟩

/-- What a log can verify starts with a write. -/
theorem verified_cons {a : Access} {l : List Access} {x : Word} (h : Verified (a :: l) x) :
    Verified l x ∨ ∃ w r l', 0 ≤ w ∧ 0 ≤ r ∧ a = .write x.addr x.data w ∧
      l = .read x.addr r x.data :: l' := by
  obtain ⟨w, r, h1, h2, h3⟩ := h
  rcases List.infix_cons_iff.mp h3 with hp | hi
  · obtain ⟨ha, ⟨l', hl⟩⟩ := List.cons_prefix_cons.mp hp
    exact Or.inr ⟨w, r, l', h1, h2, ha.symm, hl.symm⟩
  · exact Or.inl ⟨w, r, h1, h2, hi⟩

theorem not_verified_nil (x : Word) : ¬ Verified [] x := by
  rintro ⟨w, r, -, -, h⟩
  simp at h

theorem verifyLog_written {ws : List Word} {l : List Access} {out : Option Int}
    (h : VerifyLog ws l out) : written l <+: ws := by
  induction h with
  | done => exact List.nil_prefix
  | writeFails _ => exact (List.cons_prefix_cons.mpr ⟨rfl, List.nil_prefix⟩)
  | readFails _ _ => exact (List.cons_prefix_cons.mpr ⟨rfl, List.nil_prefix⟩)
  | mismatch _ _ _ => exact (List.cons_prefix_cons.mpr ⟨rfl, List.nil_prefix⟩)
  | verified _ _ _ ih => exact (List.cons_prefix_cons.mpr ⟨rfl, ih⟩)

theorem verifyLog_all {ws : List Word} {l : List Access} (h : VerifyLog ws l none) :
    ∀ x ∈ ws, Verified l x := by
  generalize hout : (none : Option Int) = out at h
  induction h with
  | done => simp
  | writeFails _ => cases hout
  | readFails _ _ => cases hout
  | mismatch _ _ _ => cases hout
  | @verified y ws w r l out h1 h2 _ ih =>
    intro x hx
    rcases List.mem_cons.mp hx with rfl | hx
    · exact ⟨w, r, h1, h2, (List.prefix_append _ l).isInfix⟩
    · exact (ih hout x hx).mono ((List.suffix_append [_, _] l).isInfix)

/-- The first word of a log with one write. -/
theorem order_first {x : Word} {ws : List Word} {w : Int} {l pre suf : List Access}
    {addr data : UInt32} {ret : Int} (hw : written l = [])
    (hl : .write x.addr x.data w :: l = pre ++ .write addr data ret :: suf) :
    ∃ ws₁ ws₂, x :: ws = ws₁ ++ ⟨addr, data⟩ :: ws₂ ∧ ∀ y ∈ ws₁, Verified pre y := by
  cases pre with
  | nil =>
    simp only [List.nil_append, List.cons.injEq, Access.write.injEq] at hl
    obtain ⟨⟨rfl, rfl, -⟩, -⟩ := hl
    exact ⟨[], ws, rfl, by simp⟩
  | cons a pre =>
    simp only [List.cons_append, List.cons.injEq] at hl
    rw [hl.2] at hw
    simp [written] at hw

/-- Before a word is written, every word before it has been verified. -/
theorem verifyLog_order {ws : List Word} {l : List Access} {out : Option Int}
    (h : VerifyLog ws l out) {pre suf : List Access} {addr data : UInt32} {ret : Int}
    (hl : l = pre ++ .write addr data ret :: suf) :
    ∃ ws₁ ws₂, ws = ws₁ ++ ⟨addr, data⟩ :: ws₂ ∧ ∀ x ∈ ws₁, Verified pre x := by
  induction h generalizing pre with
  | done => simp at hl
  | writeFails _ => exact order_first rfl hl
  | readFails _ _ => exact order_first rfl hl
  | mismatch _ _ _ => exact order_first rfl hl
  | @verified x ws w r l out h1 h2 _ ih =>
    match pre, hl with
    | [], hl =>
      simp only [List.nil_append, List.cons.injEq, Access.write.injEq] at hl
      obtain ⟨⟨rfl, rfl, -⟩, -⟩ := hl
      exact ⟨[], ws, rfl, by simp⟩
    | [a], hl => simp at hl
    | a :: b :: pre, hl =>
      simp only [List.cons_append, List.cons.injEq] at hl
      obtain ⟨rfl, rfl, hl⟩ := hl
      obtain ⟨ws₁, ws₂, rfl, hv⟩ := ih hl
      refine ⟨x :: ws₁, ws₂, rfl, fun y hy => ?_⟩
      rcases List.mem_cons.mp hy with rfl | hy
      · exact ⟨w, r, h1, h2, (List.prefix_append _ pre).isInfix⟩
      · exact (hv y hy).mono ((List.suffix_append [_, _] pre).isInfix)

/-- A single pair of accesses verifies its word only if the read succeeded and was equal. -/
theorem verified_pair {x : Word} {w r : Int} {v : UInt32}
    (h : Verified [.write x.addr x.data w, .read x.addr r v] x) : 0 ≤ r ∧ x.data = v := by
  rcases verified_cons h with h | ⟨_, _, _, -, h2, -, hl⟩
  · rcases verified_cons h with h | ⟨_, _, _, -, -, ha, -⟩
    · exact absurd h (not_verified_nil x)
    · cases ha
  · cases hl
    exact ⟨h2, rfl⟩

/-- After an error some word is unverified, where no word occurs twice. -/
theorem verifyLog_error {ws : List Word} {l : List Access} {e : Int}
    (h : VerifyLog ws l (some e)) (hnd : ws.Nodup) : e < 0 ∧ ∃ x ∈ ws, ¬ Verified l x := by
  generalize hout : some e = out at h
  induction h with
  | done => cases hout
  | @writeFails x ws w hw =>
    cases hout
    refine ⟨by decide, x, List.mem_cons_self .., fun hv => ?_⟩
    rcases verified_cons hv with hv | ⟨_, _, _, -, -, -, hl⟩
    · exact not_verified_nil x hv
    · cases hl
  | @readFails x ws w r v hw hr =>
    cases hout
    refine ⟨by decide, x, List.mem_cons_self .., fun hv => ?_⟩
    have := (verified_pair hv).1
    omega
  | @mismatch x ws w r v hw hr hne =>
    cases hout
    exact ⟨by decide, x, List.mem_cons_self .., fun hv => hne (verified_pair hv).2⟩
  | @verified x ws w r l out h1 h2 _ ih =>
    obtain ⟨hx, hnd⟩ := List.nodup_cons.mp hnd
    obtain ⟨he, y, hy, hn⟩ := ih hnd hout
    refine ⟨he, y, List.mem_cons_of_mem x hy, fun hv => ?_⟩
    -- y is not x, so the two accesses of x do not verify it
    rcases verified_cons hv with hv | ⟨_, _, _, -, -, ha, -⟩
    · rcases verified_cons hv with hv | ⟨_, _, _, -, -, ha, -⟩
      · exact hn hv
      · cases ha
    · obtain ⟨xa, xd⟩ := x
      obtain ⟨ya, yd⟩ := y
      cases ha
      exact hx hy

/-! ## Runs on a faulty device -/

theorem incr_eq {cnt : Nat} (h : cnt + 1 < 2 ^ 31) : incr cnt = ((cnt + 1 : Nat) : Int) := by
  unfold incr
  rw [Int.bmod_def]
  omega

/-- The outcome of the loop, as `verifyWords` reports it. -/
def outcome (cnt : Nat) : Option Int → Except Int Int
  | none => .ok cnt
  | some e => .error e

/-- A run of the loop: its accesses, its outcome, and what it leaves in memory. -/
theorem verifyWords_run (f : Faults) (wlanIdx : Int) (stack : Mem) (ws : List Word) (cnt : Nat)
    (d : Device) (h : cnt + ws.length < 2 ^ 31) :
    ∃ l out, VerifyLog ws l out ∧
      (verifyWords (faulty f wlanIdx stack) ws cnt d).1 = outcome (cnt + ws.length) out ∧
      (verifyWords (faulty f wlanIdx stack) ws cnt d).2.log = d.log ++ l ∧
      ∀ x, (∀ y ∈ written l, ¬ InWord y.addr x) →
        (verifyWords (faulty f wlanIdx stack) ws cnt d).2.mem x = d.mem x := by
  induction ws generalizing cnt d with
  | nil => exact ⟨[], none, .done, rfl, (List.append_nil _).symm, fun _ _ => rfl⟩
  | cons x ws ih =>
    rw [List.length_cons] at h
    rw [verifyWords]
    simp only [faulty_memWrite, faulty_memRead]
    -- the device after the write and after the read
    have hwlog := Device.write_log f x.addr x.data d
    have hframe : ∀ b, ¬ InWord x.addr b → (d.write f x.addr x.data).2.mem b = d.mem b :=
      fun b => Device.write_mem
    generalize d.write f x.addr x.data = w at hwlog hframe ⊢
    have hrlog := Device.read_log f x.addr w.2
    have hrmem := Device.read_mem f x.addr w.2
    generalize w.2.read f x.addr = r at hrlog hrmem ⊢
    rw [hwlog, List.append_assoc] at hrlog
    by_cases hw : w.1 < 0
    · rw [if_pos hw]
      exact ⟨_, _, .writeFails hw, rfl, hwlog,
        fun b hb => hframe b (hb ⟨x.addr, x.data⟩ (List.mem_cons_self ..))⟩
    · rw [if_neg hw]
      have hstop : ∀ b, (∀ y ∈ written [.write x.addr x.data w.1, .read x.addr r.1 r.2.1],
          ¬ InWord y.addr b) → r.2.2.mem b = d.mem b := by
        intro b hb
        rw [hrmem]
        exact hframe b (hb ⟨x.addr, x.data⟩ (List.mem_cons_self ..))
      by_cases hr : r.1 < 0
      · rw [if_pos hr]
        exact ⟨_, _, .readFails (Int.not_lt.mp hw) hr, rfl, hrlog, hstop⟩
      · rw [if_neg hr]
        by_cases hv : x.data ≠ r.2.1
        · rw [if_pos hv]
          exact ⟨_, _, .mismatch (Int.not_lt.mp hw) (Int.not_lt.mp hr) hv, rfl, hrlog, hstop⟩
        · rw [if_neg hv, incr_eq (by omega)]
          obtain ⟨l, out, hl, hout, hlog, hm⟩ := ih (cnt + 1) r.2.2 (by omega)
          refine ⟨_, out, .verified (Int.not_lt.mp hw) (Int.not_lt.mp hr) hl, ?_, ?_, ?_⟩
          · rw [hout, List.length_cons, Nat.add_right_comm, Nat.add_assoc]
          · rw [hlog, hrlog, ← not_not.mp hv, List.append_assoc]
            rfl
          · intro b hb
            rw [hm b fun y hy => hb y (List.mem_cons_of_mem _ hy), hrmem]
            exact hframe b (hb ⟨x.addr, x.data⟩ (List.mem_cons_self ..))

/-! ## Tables -/

/-- `x` is one of the addresses the entry patches. -/
def Patch.Covers (p : Patch) (x : UInt32) : Prop := (x - p.addr).toNat < p.size.toNat

/-- The tables `patch_do` is for. -/
structure TableOk (t : List Patch) : Prop where
  aligned : ∀ p ∈ t, p.size.toNat % 4 = 0
  disjoint : t.Pairwise fun p q => ∀ x, p.Covers x → ¬ q.Covers x
  total : (t.map fun p => p.size.toNat / 4).sum < 2 ^ 31

theorem word_offset (p : Patch) {j : Nat} (h : 4 * j < 2 ^ 32) :
    ((p.word j).addr - p.addr).toNat = 4 * j :=
  add_ofNat_sub p.addr h

theorem mem_words {p : Patch} {w : Word} :
    w ∈ p.words ↔ ∃ j, j < p.size.toNat / 4 ∧ p.word j = w := by
  simp [Patch.words]

theorem covers_of_mem {p : Patch} {w : Word} (h : w ∈ p.words) : p.Covers w.addr := by
  obtain ⟨j, hj, rfl⟩ := mem_words.mp h
  have hlt := p.size.toNat_lt
  rw [Patch.Covers, word_offset p (by omega)]
  omega

theorem words_nodup (p : Patch) : p.words.Nodup := by
  refine List.Nodup.map_on (fun i hi j hj hij => ?_) List.nodup_range
  have hlt := p.size.toNat_lt
  rw [List.mem_range] at hi hj
  have ho := word_offset p (j := i) (by omega)
  rw [hij, word_offset p (by omega)] at ho
  omega

theorem tableWords_append (t u : List Patch) :
    tableWords (t ++ u) = tableWords t ++ tableWords u :=
  List.flatMap_append

theorem mem_tableWords {t : List Patch} {w : Word} :
    w ∈ tableWords t ↔ ∃ p ∈ t, w ∈ p.words :=
  List.mem_flatMap

theorem tableWords_length (t : List Patch) :
    (tableWords t).length = (t.map fun p => p.size.toNat / 4).sum := by
  rw [tableWords, List.length_flatMap]
  congr 1
  exact List.map_congr_left fun p _ => by simp [Patch.words]

theorem tableWords_nodup {t : List Patch} (h : TableOk t) : (tableWords t).Nodup := by
  refine List.nodup_flatMap.mpr ⟨fun p _ => words_nodup p, ?_⟩
  refine h.disjoint.imp fun hpq w hp hq => ?_
  exact hpq w.addr (covers_of_mem hp) (covers_of_mem hq)

theorem tableOk_patches : TableOk patches where
  aligned := by decide
  disjoint := by
    refine List.pairwise_pair.mpr fun x hx hy => ?_
    simp only [Patch.Covers, UInt32.toNat_sub] at hx hy
    change (2 ^ 32 - 0x5fedc + x.toNat) % 2 ^ 32 < 52 at hx
    change (2 ^ 32 - 0xbaa4 + x.toNat) % 2 ^ 32 < 4 at hy
    have := x.toNat_lt
    omega
  total := by decide

/-- The words before a word of entry `k` contain the words of every earlier entry. -/
theorem words_before {t : List Patch} (h : TableOk t) {ws₁ ws₂ : List Word} {w : Word}
    (ht : tableWords t = ws₁ ++ w :: ws₂) {k : Nat} (hk : k < t.length)
    (hc : t[k].Covers w.addr) {i : Nat} (hi : i < k) {v : Word} (hv : v ∈ t[i].words) :
    v ∈ ws₁ := by
  have hearly : ∀ {u : Word}, u ∈ tableWords (t.take k) → ¬ t[k].Covers u.addr := by
    intro u hu
    obtain ⟨p, hp, hup⟩ := mem_tableWords.mp hu
    obtain ⟨m, hm, rfl⟩ := List.mem_iff_getElem.mp hp
    rw [List.length_take] at hm
    rw [List.getElem_take] at hup
    exact List.pairwise_iff_getElem.mp h.disjoint m k (by omega) hk (by omega) u.addr
      (covers_of_mem hup)
  have hvk : v ∈ tableWords (t.take k) := by
    refine mem_tableWords.mpr ⟨t[i], ?_, hv⟩
    exact List.mem_iff_getElem.mpr ⟨i, by rw [List.length_take]; omega, List.getElem_take⟩
  have hsplit : tableWords (t.take k) ++ tableWords (t.drop k) = ws₁ ++ w :: ws₂ := by
    rw [← tableWords_append, List.take_append_drop, ht]
  rcases List.append_eq_append_iff.mp hsplit with ⟨as, rfl, -⟩ | ⟨bs, htake, hbs⟩
  · exact List.mem_append_left as hvk
  · -- w itself is no word of an earlier entry
    cases bs with
    | nil =>
      rw [List.append_nil] at htake
      exact htake ▸ hvk
    | cons b bs =>
      simp only [List.cons_append, List.cons.injEq] at hbs
      rw [← hbs.1] at htake
      refine absurd hc (hearly ?_)
      rw [htake]
      exact List.mem_append_right ws₁ (List.mem_cons_self ..)

/-! ## The main result -/

/-- In `log`, a write to an entry comes after the verification of all earlier entries. -/
def InOrder (t : List Patch) (log : List Access) : Prop :=
  ∀ pre addr data ret suf, log = pre ++ .write addr data ret :: suf →
    ∀ (k : Nat) (hk : k < t.length), t[k].Covers addr →
      ∀ (i : Nat) (hi : i < k), ∀ j, j < t[i].size.toNat / 4 → Verified pre (t[i].word j)

/-- A run of `patch_do` on a faulty device, from the run of the flat loop. -/
theorem patchDo_run {t : List Patch} (h : TableOk t) (f : Faults) (wlanIdx : Int) (stack : Mem)
    (d : Device) :
    ∃ l out, VerifyLog (tableWords t) l out ∧
      (patchDo (faulty f wlanIdx stack) t d).1 = out.getD (tableWords t).length ∧
      (patchDo (faulty f wlanIdx stack) t d).2.log = d.log ++ l ∧
      ∀ x, (∀ y ∈ written l, ¬ InWord y.addr x) →
        (patchDo (faulty f wlanIdx stack) t d).2.mem x = d.mem x := by
  have htot := h.total
  rw [← tableWords_length] at htot
  obtain ⟨l, out, hl, hout, hlog, hmem⟩ :=
    verifyWords_run f wlanIdx stack (tableWords t) 0 d (by omega)
  refine ⟨l, out, hl, ?_⟩
  unfold patchDo
  rw [patchTable_eq _ t h.aligned]
  rw [Nat.zero_add] at hout
  change (verifyWords _ _ 0 d).1 = _ at hout
  change (verifyWords _ _ 0 d).2.log = _ at hlog
  change ∀ x, _ → (verifyWords _ _ 0 d).2.mem x = _ at hmem
  generalize verifyWords (faulty f wlanIdx stack) (tableWords t) 0 d = r at hout hlog hmem ⊢
  obtain ⟨res, s⟩ := r
  cases out with
  | none =>
    cases hout
    exact ⟨rfl, hlog, hmem⟩
  | some e =>
    cases hout
    exact ⟨rfl, hlog, hmem⟩

theorem patchDo_inOrder {t : List Patch} (h : TableOk t) (f : Faults) (wlanIdx : Int)
    (stack : Mem) (mem : UInt32 → UInt8) :
    InOrder t (patchDo (faulty f wlanIdx stack) t ⟨mem, []⟩).2.log := by
  intro pre addr data ret suf hl k hk hc i hi j hj
  obtain ⟨l, out, hv, -, hlog, -⟩ := patchDo_run h f wlanIdx stack ⟨mem, []⟩
  rw [hlog, List.nil_append] at hl
  obtain ⟨ws₁, ws₂, hws, hver⟩ := verifyLog_order hv hl
  exact hver _ (words_before h hws hk hc hi (mem_words.mpr ⟨j, hj, rfl⟩))

theorem forall_words_iff (t : List Patch) (P : Word → Prop) :
    (∀ p ∈ t, ∀ j, j < p.size.toNat / 4 → P (p.word j)) ↔ ∀ w ∈ tableWords t, P w := by
  constructor
  · intro hall w hw
    obtain ⟨p, hp, hwp⟩ := mem_tableWords.mp hw
    obtain ⟨j, hj, rfl⟩ := mem_words.mp hwp
    exact hall p hp j hj
  · intro hall p hp j hj
    exact hall _ (mem_tableWords.mpr ⟨p, hp, mem_words.mpr ⟨j, hj, rfl⟩⟩)

/-- **Patching is ordered and verified.** On a device that may fail any write, with or without
    storing the word, and answer any read with anything: the entries are written in order, each
    after every word of the earlier ones was verified; the result is non-negative exactly when
    every word was, and is then the number of words; the words written are a prefix of the
    table's, and no other byte changes. For the committed table: the hook at 0xbaa4 is written
    only after the 13 words of the payload at 0x5fedc were verified. -/
theorem patchDo_ordered (t : List Patch) (h : TableOk t) (f : Faults) (wlanIdx : Int)
    (stack : Mem) (mem : UInt32 → UInt8) :
    let r := patchDo (faulty f wlanIdx stack) t ⟨mem, []⟩
    let c := patchDo (faulty f wlanIdx stack) patches ⟨mem, []⟩
    InOrder t r.2.log ∧
      (0 ≤ r.1 ↔ ∀ p ∈ t, ∀ j, j < p.size.toNat / 4 → Verified r.2.log (p.word j)) ∧
      (0 ≤ r.1 → r.1 = ((t.map fun p => p.size.toNat / 4).sum : Nat)) ∧
      written r.2.log <+: tableWords t ∧
      (∀ x, (∀ w ∈ written r.2.log, ¬ InWord w.addr x) → r.2.mem x = mem x) ∧
      (∀ pre data ret suf, c.2.log = pre ++ .write 0x0000baa4 data ret :: suf →
        ∀ j, j < 13 →
          Verified pre ⟨0x0005fedc + UInt32.ofNat (4 * j), rd32 (ofList p1Patch) (4 * j)⟩) := by
  intro r c
  obtain ⟨l, out, hv, hret, hlog, hmem⟩ := patchDo_run h f wlanIdx stack ⟨mem, []⟩
  change r.1 = _ at hret
  change r.2.log = [] ++ l at hlog
  change ∀ x, _ → r.2.mem x = mem x at hmem
  rw [List.nil_append] at hlog
  have hneg : ∀ e, out = some e → r.1 < 0 ∧ ∃ w ∈ tableWords t, ¬ Verified l w := by
    rintro e rfl
    obtain ⟨he, hw⟩ := verifyLog_error hv (tableWords_nodup h)
    exact ⟨hret ▸ he, hw⟩
  refine ⟨patchDo_inOrder h f wlanIdx stack mem, ?_, ?_, ?_, ?_, ?_⟩
  · rw [hlog, forall_words_iff t (Verified l)]
    cases out with
    | none => exact ⟨fun _ => verifyLog_all hv, fun _ => hret ▸ Int.natCast_nonneg _⟩
    | some e =>
      obtain ⟨he, w, hw, hn⟩ := hneg e rfl
      exact ⟨fun h0 => absurd h0 (Int.not_le.mpr he), fun hall => absurd (hall w hw) hn⟩
  · intro h0
    cases out with
    | none => rw [hret, ← tableWords_length]; rfl
    | some e => exact absurd h0 (Int.not_le.mpr (hneg e rfl).1)
  · rw [hlog]
    exact verifyLog_written hv
  · rw [hlog]
    exact hmem
  · intro pre data ret suf hl j hj
    have hsize : patches[0].size.toNat / 4 = 13 := by decide
    exact patchDo_inOrder tableOk_patches f wlanIdx stack mem pre _ data ret suf hl 1
      (by decide) (by unfold Patch.Covers; decide) 0 (by decide) j (by rw [hsize]; exact hj)

/-- A device that stores every word, and reads back the last one written to the address. -/
def obedient : Faults where
  write := fun _ _ _ => (0, true)
  read := fun log addr =>
    (0, (((written log).filter fun w => w.addr == addr).getLastD ⟨addr, 0⟩).data)

/-- The committed table on it. -/
def obedientRun : Int × Device := patchDo (faulty obedient 1 (ofList [])) patches ⟨fun _ => 0, []⟩

/-- The hook is verified, behind the 26 accesses that verify the payload. -/
theorem patchDo_ordered_hook :
    obedientRun.1 = 14 ∧ Verified obedientRun.2.log ⟨0x0000baa4, 0xfa1af054⟩ ∧
      ∀ j, j < 13 → Verified (obedientRun.2.log.take 26)
        ⟨0x0005fedc + UInt32.ofNat (4 * j), rd32 (ofList p1Patch) (4 * j)⟩ := by
  obtain ⟨-, hall, -, -, -, hhook⟩ :=
    patchDo_ordered patches tableOk_patches obedient 1 (ofList []) fun _ => 0
  have hret : obedientRun.1 = 14 := by decide +kernel
  have hlog : obedientRun.2.log = obedientRun.2.log.take 26 ++
      .write 0x0000baa4 0xfa1af054 0 :: [.read 0x0000baa4 0 0xfa1af054] := by
    decide +kernel
  have hpos : 0 ≤ obedientRun.1 := by
    rw [hret]
    decide
  have hword : patches[1].word 0 = ⟨0x0000baa4, 0xfa1af054⟩ := by decide
  rw [← hword]
  exact ⟨hret, hall.mp hpos patches[1] (List.getElem_mem _) 0 (by decide), hhook _ _ _ _ hlog⟩

end Wifimon.App
