/-
  `src/app/patch.c`: taking the firmware patches back.

  `patchUndo` is the loop of `patch_undo`, from the last entry of the table down. It stops before
  the entry at index 0, and writes `size / 4` words of an entry where `patch_do` writes
  `(size + 3) / 4`. The device is one on which every access succeeds (`Obeys`); `patchTable_obeys`
  and `undoTable_obeys` say what each of the two loops leaves in its memory.

  `undo_restores_iff`: undoing restores the firmware exactly when `patch_do` leaves every byte
  as it is that must be kept and that `patch_undo` does not write back (`Recoverable`). This is
  so in a table of whole words whose first entry has no `orig` (`recoverable_of_aligned`), such as
  the committed one.
-/
import Wifimon.App.Dump
import Wifimon.App.Patch
import Mathlib.Data.Fintype.Card

namespace Wifimon.App

open ByteLib

variable {σ : Type}

/-! ## The function -/

/-- The loop over the entries, from index `i` down; at index 0 it ends. The inner loop is that of
    `patch_do` over `orig`, without the counter. `none` is an access past the table. -/
def undoTable (dev : MemDev σ) (t : List Patch) : Nat → σ → Option Int × σ
  | 0, s => (some 0, s)
  | i + 1, s =>
    match t[i + 1]? with
    | none => (none, s)
    | some p =>
      match p.orig with
      | none => undoTable dev t i s
      | some orig =>
        match patchEntry dev { p with patch := orig } (p.size / 4).toNat 0 0 s with
        | (.ok _, s) => undoTable dev t i s
        | (.error e, s) => (some e, s)

def patchUndo (dev : MemDev σ) (t : List Patch) (s : σ) : Option Int × σ :=
  undoTable dev t (UInt32.ofNat t.length - 1).toNat s

/-! ## A device that does what it is told -/

/-- All accesses succeed; `mem` is the memory they act on. -/
structure Obeys (dev : MemDev σ) (mem : σ → UInt32 → UInt8) : Prop where
  writeRet : ∀ addr data s, 0 ≤ (dev.memWrite addr data s).1
  writeMem : ∀ addr data s, mem (dev.memWrite addr data s).2 = putWord (mem s) addr data
  readRet : ∀ addr s, 0 ≤ (dev.memRead addr s).1
  readData : ∀ addr s, (dev.memRead addr s).2.1 = wordAt (mem s) addr
  readMem : ∀ addr s, mem (dev.memRead addr s).2.2 = mem s

/-- The system call in front of such a device; it returns `ans`. -/
def byteControl (ans : Int) : SyscallControl (UInt32 → UInt8) := fun _ _ request _ m =>
  if request 0 = 0 then
    (ans, store request 5 (le 4 (wordAt m (rd32 request 1)).toNat), m)
  else (ans, request, putWord m (rd32 request 1) (rd32 request 5))

theorem memRead_byteControl (ans wlanIdx : Int) (stack : Mem) (addr : UInt32)
    (m : UInt32 → UInt8) :
    memRead (byteControl ans) wlanIdx stack addr m = (ans, wordAt m addr, m) := by
  obtain ⟨h0, haddr⟩ := readRequest_layout stack addr
  unfold memRead byteControl
  dsimp only
  rw [if_pos h0, haddr]
  dsimp only
  rw [rd32_store_le]

theorem memWrite_byteControl (ans wlanIdx : Int) (stack : Mem) (addr data : UInt32)
    (m : UInt32 → UInt8) :
    memWrite (byteControl ans) wlanIdx stack addr data m = (ans, putWord m addr data) := by
  obtain ⟨h1, haddr, hdata⟩ := writeRequest_layout stack addr data
  unfold memWrite byteControl
  dsimp only
  rw [if_neg (by rw [h1]; decide), haddr, hdata]

/-- `util.h` over it. -/
theorem byteControl_obeys {ans : Int} (h : 0 ≤ ans) (wlanIdx : Int) (stack : Mem) :
    Obeys (util (byteControl ans) wlanIdx stack) id := by
  have hread := memRead_byteControl ans wlanIdx stack
  have hwrite := memWrite_byteControl ans wlanIdx stack
  unfold util
  constructor
  · intro addr data m
    dsimp only
    rw [hwrite]
    exact h
  · intro addr data m
    dsimp only
    rw [hwrite]
    rfl
  · intro addr m
    dsimp only
    rw [hread]
    exact h
  · intro addr m
    dsimp only
    rw [hread]
    rfl
  · intro addr m
    dsimp only
    rw [hread]

/-! ## The words of an entry -/

/-- A word that was written is read back. -/
theorem wordAt_putWord (m : UInt32 → UInt8) (addr data : UInt32) :
    wordAt (putWord m addr data) addr = data := by
  have hload : load (window (putWord m addr data) addr) 0 4 = le 4 data.toNat := by
    refine List.ext_getElem (by rw [load_length, le_length]) fun k hk hk' => ?_
    rw [load_length] at hk
    have hofs : (addr + UInt32.ofNat (0 + k) - addr).toNat = k := by
      rw [add_ofNat_sub addr (by omega), Nat.zero_add]
    have hin : InWord addr (addr + UInt32.ofNat (0 + k)) := by
      unfold InWord
      rw [hofs]
      exact hk
    rw [load_getElem]
    unfold window putWord
    rw [if_pos hin, hofs, List.getD_eq_getElem _ _ hk']
  unfold wordAt rd32 rd
  rw [hload, ofLe_le_four]
  exact UInt32.ofNat_toNat

/-- The offset of an address from the `n`-th word of an entry. -/
theorem sub_word (p : Patch) {n : Nat} (h : 4 * n < 2 ^ 32) (x : UInt32) :
    (x - (p.word n).addr).toNat = (2 ^ 32 - 4 * n + (x - p.addr).toNat) % 2 ^ 32 := by
  have h4n : (UInt32.ofNat (4 * n)).toNat = 4 * n := UInt32.toNat_ofNat_of_lt' h
  have haddr := p.addr.toNat_lt
  show (x - (p.addr + UInt32.ofNat (4 * n))).toNat = _
  rw [UInt32.toNat_sub, UInt32.toNat_add, UInt32.toNat_sub, h4n]
  omega

/-- The byte at `x` after the first `n` words of the entry were written. -/
theorem putWords_apply (p : Patch) (n : Nat) (h : 4 * n ≤ 2 ^ 32) (m : UInt32 → UInt8)
    (x : UInt32) :
    ((List.range n).map p.word).foldl (fun m w => putWord m w.addr w.data) m x =
      if (x - p.addr).toNat < 4 * n then p.patch (x - p.addr).toNat else m x := by
  induction n with
  | zero => rfl
  | succ n ih =>
    have hx := (x - p.addr).toNat_lt
    have hofs := sub_word p (n := n) (by omega) x
    rw [List.range_succ, List.map_append, List.foldl_append]
    show putWord _ (p.word n).addr (p.word n).data x = _
    by_cases hin : InWord (p.word n).addr x
    · rw [putWord_of_mem hin]
      unfold InWord at hin
      have hk : (x - (p.word n).addr).toNat = (x - p.addr).toNat - 4 * n := by omega
      have hlen : (x - p.addr).toNat - 4 * n < (load p.patch (4 * n) 4).length := by
        rw [load_length]
        omega
      rw [if_pos (by omega), hk]
      show (le 4 (rd32 p.patch (4 * n)).toNat).getD _ 0 = _
      rw [le_rd32, List.getD_eq_getElem _ _ hlen, load_getElem]
      congr 1
      omega
    · rw [putWord_of_not hin, ih (by omega)]
      unfold InWord at hin
      by_cases hlow : (x - p.addr).toNat < 4 * n
      · rw [if_pos hlow, if_pos (by omega)]
      · rw [if_neg hlow, if_neg (by omega)]

section Loops

variable {dev : MemDev σ} {mem : σ → UInt32 → UInt8} (hdev : Obeys dev mem)

include hdev

/-- The loop over words verifies all of them, and counts them. -/
theorem verifyWords_obeys (ws : List Word) (cnt : Int) (s : σ) :
    ∃ s', verifyWords dev ws cnt s = (.ok (incr^[ws.length] cnt), s') ∧
      mem s' = ws.foldl (fun m w => putWord m w.addr w.data) (mem s) := by
  induction ws generalizing cnt s with
  | nil => exact ⟨s, rfl, rfl⟩
  | cons w ws ih =>
    have hmem := hdev.writeMem w.addr w.data s
    have hdata : (dev.memRead w.addr (dev.memWrite w.addr w.data s).2).2.1 = w.data := by
      rw [hdev.readData, hmem, wordAt_putWord]
    obtain ⟨s', hrun, hs'⟩ :=
      ih (incr cnt) (dev.memRead w.addr (dev.memWrite w.addr w.data s).2).2.2
    refine ⟨s', ?_, ?_⟩
    · rw [verifyWords]
      dsimp only
      rw [if_neg (Int.not_lt.mpr (hdev.writeRet _ _ _)),
        if_neg (Int.not_lt.mpr (hdev.readRet _ _)), if_neg (not_not.mpr hdata.symm)]
      exact hrun
    · rw [hs', hdev.readMem, hmem]
      rfl

/-- One entry: its first `n` words are written, and nothing else. -/
theorem patchEntry_obeys (p : Patch) {n : Nat} (h : 4 * n ≤ 2 ^ 32) (cnt : Int) (s : σ) :
    ∃ s', patchEntry dev p n 0 cnt s = (.ok (incr^[n] cnt), s') ∧
      ∀ x, mem s' x =
        if (x - p.addr).toNat < 4 * n then p.patch (x - p.addr).toNat else mem s x := by
  obtain ⟨s', hrun, hs'⟩ := verifyWords_obeys hdev ((List.range n).map p.word) cnt s
  have hentry := patchEntry_eq dev p n 0 (by omega) cnt s
  rw [← List.range_eq_range', hrun, List.length_map, List.length_range] at hentry
  refine ⟨s', hentry, fun x => ?_⟩
  rw [hs', putWords_apply p n h]

end Loops

/-! ## What the two functions leave in memory -/

/-- The byte that `patch_do` puts at `x` for the entry. It writes whole words, and past `size` it
    takes what follows `patch` in memory. -/
def Patch.put (p : Patch) (x : UInt32) : Option UInt8 :=
  if (x - p.addr).toNat < 4 * ((p.size + 3) / 4).toNat then some (p.patch (x - p.addr).toNat)
  else none

/-- The last byte that `patch_do` puts at `x`, or the one that was there. -/
def patched (t : List Patch) (m : UInt32 → UInt8) (x : UInt32) : UInt8 :=
  (t.filterMap fun p => p.put x).getLastD (m x)

/-- `x` is in one of the words that `patch_undo` writes for an entry it comes to. -/
def Patch.WrittenBack (p : Patch) (x : UInt32) : Prop :=
  p.orig ≠ none ∧ (x - p.addr).toNat < 4 * (p.size.toNat / 4)

/-- The number of words that `patch_do` writes for the table. -/
def wordsPut (t : List Patch) : Nat := (t.map fun p => ((p.size + 3) / 4).toNat).sum

/-- Counting on an `int`. -/
theorem incr_iterate (n : Nat) : incr^[n] 0 = (n : Int).bmod (2 ^ 32) := by
  induction n with
  | zero => rfl
  | succ n ih => rw [Function.iterate_succ_apply', ih, incr, Int.bmod_add_bmod, Int.natCast_succ]

/-- The memory holds each `orig` array at its entry's address. -/
def HoldsOrig (t : List Patch) (m : UInt32 → UInt8) : Prop :=
  ∀ p ∈ t, ∀ orig, p.orig = some orig → ∀ x, p.Covers x → m x = orig (x - p.addr).toNat

theorem patched_cons (p : Patch) (t : List Patch) (m : UInt32 → UInt8) (x : UInt32) :
    patched (p :: t) m x = (t.filterMap fun q => q.put x).getLastD ((p.put x).getD (m x)) := by
  unfold patched
  rw [List.filterMap_cons]
  cases p.put x with
  | none => rfl
  | some b => exact List.getLastD_cons

theorem covers_of_writtenBack {p : Patch} {x : UInt32} (h : p.WrittenBack x) : p.Covers x := by
  obtain ⟨-, hlt⟩ := h
  unfold Patch.Covers
  omega

section Loops

variable {dev : MemDev σ} {mem : σ → UInt32 → UInt8} (hdev : Obeys dev mem)

include hdev

theorem patchTable_obeys (t : List Patch) (cnt : Int) (s : σ) :
    ∃ s', patchTable dev t cnt s = (.ok (incr^[wordsPut t] cnt), s') ∧
      ∀ x, mem s' x = patched t (mem s) x := by
  induction t generalizing cnt s with
  | nil => exact ⟨s, rfl, fun _ => rfl⟩
  | cons p t ih =>
    have hsize : 4 * ((p.size + 3) / 4).toNat ≤ 2 ^ 32 := by
      have hlt := (p.size + 3).toNat_lt
      have h4 : (4 : UInt32).toNat = 4 := rfl
      rw [UInt32.toNat_div, h4]
      omega
    obtain ⟨s₁, hentry, h₁⟩ := patchEntry_obeys hdev p hsize cnt s
    obtain ⟨s', hrun, hs'⟩ := ih (incr^[((p.size + 3) / 4).toNat] cnt) s₁
    have hwords : wordsPut (p :: t) = wordsPut t + ((p.size + 3) / 4).toNat := by
      rw [wordsPut, List.map_cons, List.sum_cons, Nat.add_comm, wordsPut]
    refine ⟨s', ?_, fun x => ?_⟩
    · rw [patchTable, hentry, hwords, Function.iterate_add_apply]
      exact hrun
    · have hput : mem s₁ x = (p.put x).getD (mem s x) := by
        rw [h₁]
        unfold Patch.put
        split
        · rfl
        · rfl
      rw [hs', patched_cons, ← hput]
      rfl

theorem patchDo_obeys (t : List Patch) (s : σ) :
    (patchDo dev t s).1 = (wordsPut t : Int).bmod (2 ^ 32) ∧
      ∀ x, mem (patchDo dev t s).2 x = patched t (mem s) x := by
  obtain ⟨s', hrun, hs'⟩ := patchTable_obeys hdev t 0 s
  unfold patchDo
  rw [hrun]
  exact ⟨incr_iterate (wordsPut t), hs'⟩

/-- One pass of the loop: the words of the entry are written back, if it has an `orig`. -/
theorem undoTable_step {t : List Patch} {m : UInt32 → UInt8} (hm : HoldsOrig t m) {i : Nat}
    {p : Patch} (hp : t[i + 1]? = some p) (s : σ) :
    ∃ s₁, undoTable dev t (i + 1) s = undoTable dev t i s₁ ∧
      (∀ x, p.WrittenBack x → mem s₁ x = m x) ∧ ∀ x, ¬ p.WrittenBack x → mem s₁ x = mem s x := by
  have hlt := p.size.toNat_lt
  have hwords : (p.size / 4).toNat = p.size.toNat / 4 := UInt32.toNat_div _ _
  rw [undoTable, hp]
  dsimp only
  rw [hwords]
  cases ho : p.orig with
  | none => exact ⟨s, rfl, fun x hx => absurd ho hx.1, fun x _ => rfl⟩
  | some orig =>
    obtain ⟨s₁, hentry, h₁⟩ := patchEntry_obeys hdev ⟨p.addr, p.size, some orig, orig⟩
      (n := p.size.toNat / 4) (by omega) 0 s
    refine ⟨s₁, ?_, fun x hx => ?_, fun x hx => ?_⟩
    · dsimp only
      rw [hentry]
    · rw [h₁, hm p (List.mem_of_getElem? hp) orig ho x (covers_of_writtenBack hx)]
      exact if_pos hx.2
    · rw [h₁]
      exact if_neg fun hlow => hx ⟨by rw [ho]; exact Option.some_ne_none orig, hlow⟩

/-- From index `i` down, the loop ends with 0 and has written back the words of the entries with
    an `orig`, down to index 1. -/
theorem undoTable_obeys {t : List Patch} {m : UInt32 → UInt8} (hm : HoldsOrig t m) {i : Nat}
    (hi : i < t.length) (s : σ) :
    ∃ s', undoTable dev t i s = (some 0, s') ∧ ∀ x,
      ((∃ k p, 1 ≤ k ∧ k ≤ i ∧ t[k]? = some p ∧ p.WrittenBack x) → mem s' x = m x) ∧
      ((¬ ∃ k p, 1 ≤ k ∧ k ≤ i ∧ t[k]? = some p ∧ p.WrittenBack x) → mem s' x = mem s x) := by
  induction i generalizing s with
  | zero =>
    refine ⟨s, rfl, fun x => ⟨?_, fun _ => rfl⟩⟩
    rintro ⟨k, p, hk, hk', -⟩
    omega
  | succ i ih =>
    have hp : t[i + 1]? = some t[i + 1] := List.getElem?_eq_getElem hi
    obtain ⟨s₁, hstep, hback, hkeep⟩ := undoTable_step hdev hm hp s
    obtain ⟨s', hrun, hs'⟩ := ih (by omega) s₁
    refine ⟨s', by rw [hstep, hrun], fun x => ⟨?_, fun hnot => ?_⟩⟩
    · rintro ⟨k, q, hk, hk', hq, hx⟩
      by_cases hlow : ∃ k q, 1 ≤ k ∧ k ≤ i ∧ t[k]? = some q ∧ q.WrittenBack x
      · exact (hs' x).1 hlow
      · -- only the entry at hand writes the byte
        have hlast : k = i + 1 := by
          by_contra hne
          exact hlow ⟨k, q, hk, by omega, hq, hx⟩
        rw [hlast, hp] at hq
        obtain rfl := Option.some.inj hq
        rw [(hs' x).2 hlow]
        exact hback x hx
    · have hlow : ¬ ∃ k q, 1 ≤ k ∧ k ≤ i ∧ t[k]? = some q ∧ q.WrittenBack x := by
        rintro ⟨k, q, hk, hk', hq, hx⟩
        exact hnot ⟨k, q, hk, by omega, hq, hx⟩
      rw [(hs' x).2 hlow]
      exact hkeep x fun hx => hnot ⟨i + 1, _, by omega, Nat.le_refl _, hp, hx⟩

end Loops

/-! ## Tables that fit the address space -/

/-- Entries of positive sizes whose ranges are pairwise disjoint. -/
structure Separate (t : List Patch) : Prop where
  pos : ∀ p ∈ t, 0 < p.size.toNat
  disjoint : t.Pairwise fun p q => ∀ x, p.Covers x → ¬ q.Covers x

theorem covers_addr {p : Patch} (h : 0 < p.size.toNat) : p.Covers p.addr := by
  unfold Patch.Covers
  rw [UInt32.sub_self]
  exact h

/-- Their addresses differ, so the index of the loop does not wrap. -/
theorem Separate.length_le {t : List Patch} (h : Separate t) : t.length ≤ 2 ^ 32 := by
  have hnodup : (t.map fun p => p.addr.toFin).Nodup := by
    refine List.pairwise_map.mpr (h.disjoint.imp_of_mem ?_)
    intro p q hp hq hpq heq
    have haddr : p.addr = q.addr := UInt32.toFin_inj.mp heq
    exact hpq p.addr (covers_addr (h.pos p hp)) (haddr ▸ covers_addr (h.pos q hq))
  have hcard := hnodup.length_le_card
  rw [List.length_map, Fintype.card_fin] at hcard
  exact hcard

/-- No two entries of the table have a byte in common. -/
theorem Separate.eq_of_covers {t : List Patch} (h : Separate t) {i k : Nat} {p q : Patch}
    (hp : t[i]? = some p) (hq : t[k]? = some q) {x : UInt32} (hpx : p.Covers x)
    (hqx : q.Covers x) : i = k := by
  obtain ⟨hi, rfl⟩ := List.getElem?_eq_some_iff.mp hp
  obtain ⟨hk, rfl⟩ := List.getElem?_eq_some_iff.mp hq
  have hpair := List.pairwise_iff_getElem.mp h.disjoint
  rcases Nat.lt_trichotomy i k with hlt | heq | hgt
  · exact absurd hqx (hpair i k hi hk hlt x hpx)
  · exact heq
  · exact absurd hpx (hpair k i hk hi hgt x hqx)

/-- Where the loop of `patch_undo` starts. -/
theorem Separate.last_index {t : List Patch} (h : Separate t) (hne : t ≠ []) :
    (UInt32.ofNat t.length - 1).toNat = t.length - 1 := by
  have hle := h.length_le
  have hpos := List.length_pos_iff.mpr hne
  have h1 : (1 : UInt32).toNat = 1 := rfl
  rw [UInt32.toNat_sub, UInt32.toNat_ofNat', h1]
  omega

/-! ## The main result -/

/-- The bytes that `patch_undo` is to take care of are as they were: those of every entry with
    an `orig`, and those outside all entries. -/
structure Restored (t : List Patch) (m m' : UInt32 → UInt8) : Prop where
  entries : ∀ p ∈ t, ∀ orig, p.orig = some orig → ∀ x, p.Covers x →
    m' x = orig (x - p.addr).toNat
  others : ∀ x, (∀ p ∈ t, ¬ p.Covers x) → m' x = m x

/-- `patch_do` puts nothing at `x`, or last of all the byte that is there. -/
def Harmless (t : List Patch) (m : UInt32 → UInt8) (x : UInt32) : Prop :=
  ∀ b, (t.filterMap fun p => p.put x).getLast? = some b → b = m x

/-- `patch_do` is harmless at every byte of these that `patch_undo` does not write back: those of
    the first entry, the last `size % 4` bytes of the other entries, and those outside all
    entries. -/
structure Recoverable (t : List Patch) (m : UInt32 → UInt8) : Prop where
  first : ∀ p, t[0]? = some p → p.orig ≠ none → ∀ x, p.Covers x → Harmless t m x
  tails : ∀ k p, 1 ≤ k → t[k]? = some p → p.orig ≠ none → ∀ x, p.Covers x →
    4 * (p.size.toNat / 4) ≤ (x - p.addr).toNat → Harmless t m x
  others : ∀ x, (∀ p ∈ t, ¬ p.Covers x) → Harmless t m x

theorem patched_eq_iff (t : List Patch) (m : UInt32 → UInt8) (x : UInt32) :
    patched t m x = m x ↔ Harmless t m x := by
  unfold patched Harmless
  rw [List.getLastD_eq_getLast?]
  cases (t.filterMap fun p => p.put x).getLast? with
  | none => exact ⟨fun _ b hb => (nomatch hb), fun _ => rfl⟩
  | some b =>
    refine ⟨fun h c hc => ?_, fun h => h b rfl⟩
    obtain rfl := Option.some.inj hc
    exact h

/-- `patch_undo` writes the byte back for an entry. -/
def Undone (t : List Patch) (x : UInt32) : Prop :=
  ∃ k p, 1 ≤ k ∧ t[k]? = some p ∧ p.WrittenBack x

/-- The memory after both functions; an empty table is left by a fault, before any access. -/
theorem undo_obeys {dev : MemDev σ} {mem : σ → UInt32 → UInt8} (hdev : Obeys dev mem)
    {t : List Patch} (ht : Separate t) {s : σ} (hm : HoldsOrig t (mem s)) :
    (t ≠ [] → (patchUndo dev t (patchDo dev t s).2).1 = some 0) ∧ ∀ x,
      (Undone t x → mem (patchUndo dev t (patchDo dev t s).2).2 x = mem s x) ∧
      (¬ Undone t x → mem (patchUndo dev t (patchDo dev t s).2).2 x = patched t (mem s) x) := by
  by_cases hne : t = []
  · subst hne
    exact ⟨fun hne => absurd rfl hne, fun x => ⟨fun _ => rfl, fun _ => rfl⟩⟩
  · have hpos := List.length_pos_iff.mpr hne
    obtain ⟨s', hrun, hs'⟩ :=
      undoTable_obeys hdev hm (i := t.length - 1) (by omega) (patchDo dev t s).2
    unfold patchUndo
    rw [ht.last_index hne, hrun]
    refine ⟨fun _ => rfl, fun x => ⟨?_, fun hnot => ?_⟩⟩
    · rintro ⟨k, p, hk, hp, hx⟩
      obtain ⟨hlen, -⟩ := List.getElem?_eq_some_iff.mp hp
      exact (hs' x).1 ⟨k, p, hk, by omega, hp, hx⟩
    · rw [← (patchDo_obeys hdev t s).2 x]
      refine (hs' x).2 ?_
      rintro ⟨k, p, hk, -, hp, hx⟩
      exact hnot ⟨k, p, hk, hp, hx⟩

/-- A byte of an entry is written back for no other entry. -/
theorem undone_iff {t : List Patch} (ht : Separate t) {k : Nat} {p : Patch} (hp : t[k]? = some p)
    {x : UInt32} (hx : p.Covers x) : Undone t x ↔ 1 ≤ k ∧ p.WrittenBack x := by
  constructor
  · rintro ⟨j, q, hj, hq, hback⟩
    obtain rfl := ht.eq_of_covers hq hp (covers_of_writtenBack hback) hx
    obtain rfl := Option.some.inj (hq.symm.trans hp)
    exact ⟨hj, hback⟩
  · rintro ⟨hk, hback⟩
    exact ⟨k, p, hk, hp, hback⟩

theorem not_undone {t : List Patch} {x : UInt32} (h : ∀ p ∈ t, ¬ p.Covers x) : ¬ Undone t x := by
  rintro ⟨k, p, -, hp, hback⟩
  exact h p (List.mem_of_getElem? hp) (covers_of_writtenBack hback)

/-- A byte of an entry with an `orig` that is restored but not written back. -/
theorem Restored.harmless {t : List Patch} {m m' : UInt32 → UInt8} (h : Restored t m m')
    (hm : HoldsOrig t m) {k : Nat} {p : Patch} (hp : t[k]? = some p) (ho : p.orig ≠ none)
    {x : UInt32} (hx : p.Covers x) (hm' : m' x = patched t m x) : Harmless t m x := by
  obtain ⟨orig, ho⟩ := Option.ne_none_iff_exists'.mp ho
  have hmem := List.mem_of_getElem? hp
  rw [← patched_eq_iff, ← hm', h.entries p hmem orig ho x hx, hm p hmem orig ho x hx]

/-- A memory in which the bytes written back are as before, and the others as `patch_do` leaves
    them, is restored exactly when the table is recoverable. -/
theorem restored_iff {t : List Patch} (ht : Separate t) {m m' : UInt32 → UInt8}
    (hm : HoldsOrig t m)
    (hm' : ∀ x, (Undone t x → m' x = m x) ∧ (¬ Undone t x → m' x = patched t m x)) :
    Restored t m m' ↔ Recoverable t m := by
  constructor
  · intro h
    refine ⟨fun p hp ho x hx => ?_, fun k p hk hp ho x hx htail => ?_, fun x hx => ?_⟩
    · refine h.harmless hm hp ho hx ((hm' x).2 ?_)
      rw [undone_iff ht hp hx]
      exact fun hback => Nat.not_succ_le_zero 0 hback.1
    · refine h.harmless hm hp ho hx ((hm' x).2 ?_)
      rw [undone_iff ht hp hx]
      exact fun hback => Nat.not_lt.mpr htail hback.2.2
    · rw [← patched_eq_iff, ← (hm' x).2 (not_undone hx)]
      exact h.others x hx
  · intro h
    refine ⟨fun (p : Patch) hmem orig ho x hx => ?_, fun x hx => ?_⟩
    · have hsome : p.orig ≠ none := by
        rw [ho]
        exact Option.some_ne_none orig
      rw [← hm p hmem orig ho x hx]
      obtain ⟨k, hp⟩ := List.mem_iff_getElem?.mp hmem
      by_cases hback : 1 ≤ k ∧ p.WrittenBack x
      · exact (hm' x).1 ((undone_iff ht hp hx).mpr hback)
      · rw [(hm' x).2 fun hu => hback ((undone_iff ht hp hx).mp hu), patched_eq_iff]
        rcases Nat.eq_zero_or_pos k with rfl | hk
        · exact h.first p hp hsome x hx
        · exact h.tails k p hk hp hsome x hx
            (Nat.not_lt.mp fun hlow => hback ⟨hk, hsome, hlow⟩)
    · rw [(hm' x).2 (not_undone hx), patched_eq_iff]
      exact h.others x hx

/-- An entry of whole words writes nothing past its range. -/
theorem put_of_aligned {p : Patch} (h : p.size.toNat % 4 = 0) {x : UInt32} {b : UInt8}
    (hb : p.put x = some b) : p.Covers x := by
  unfold Patch.put at hb
  rw [passes_eq h] at hb
  unfold Patch.Covers
  by_contra hx
  rw [if_neg (by omega)] at hb
  cases hb

/-- A table of whole words whose first entry has no `orig`. -/
theorem recoverable_of_aligned {t : List Patch} {m : UInt32 → UInt8}
    (hwords : ∀ p ∈ t, p.size.toNat % 4 = 0) (hfirst : ∀ p, t[0]? = some p → p.orig = none) :
    Recoverable t m := by
  refine ⟨fun p hp ho => absurd (hfirst p hp) ho, fun k p _ hp _ x hx htail => ?_,
    fun x hx b hb => ?_⟩
  · have h4 := hwords p (List.mem_of_getElem? hp)
    unfold Patch.Covers at hx
    omega
  · obtain ⟨p, hp, hput⟩ := List.mem_filterMap.mp (List.mem_of_getLast? hb)
    exact absurd (put_of_aligned (hwords p hp) hput) (hx p hp)

/-- **Undoing a patch.** On a device where every access succeeds, for every table of entries of
    positive sizes with disjoint ranges, and a memory that holds their `orig` arrays: `patch_do`
    returns the number of words it wrote, as an `int`; `patch_undo` after it gets to its end, if
    the table has an entry, and the firmware is restored exactly when the table is recoverable. -/
theorem undo_restores_iff {dev : MemDev σ} {mem : σ → UInt32 → UInt8} (hdev : Obeys dev mem)
    (t : List Patch) (ht : Separate t) (s : σ) (hm : HoldsOrig t (mem s)) :
    let r := patchUndo dev t (patchDo dev t s).2
    (patchDo dev t s).1 = (wordsPut t : Int).bmod (2 ^ 32) ∧ (t ≠ [] → r.1 = some 0) ∧
      (Restored t (mem s) (mem r.2) ↔ Recoverable t (mem s)) := by
  intro r
  obtain ⟨hend, hbytes⟩ := undo_obeys hdev ht hm
  exact ⟨(patchDo_obeys hdev t s).1, hend, restored_iff ht hm hbytes⟩

/-- A device of this kind. -/
def zeroReturns : MemDev (UInt32 → UInt8) := util (byteControl 0) 1 (ofList [])

theorem zeroReturns_obeys : Obeys zeroReturns id := byteControl_obeys (by decide) 1 (ofList [])

/-- The original instructions at 0xbaa4, and zeros. -/
def unpatched : UInt32 → UInt8 := fun x => ofList p2Orig (x - 0x0000baa4).toNat

/-- The committed table is written and taken back. -/
theorem undo_restores_iff_patches :
    (patchDo zeroReturns patches unpatched).1 = 14 ∧ Restored patches unpatched
      (patchUndo zeroReturns patches (patchDo zeroReturns patches unpatched).2).2 := by
  have hsep : Separate patches := ⟨by decide, tableOk_patches.disjoint⟩
  have hm : HoldsOrig patches unpatched := by
    intro p hp orig ho x _
    rcases List.mem_pair.mp hp with rfl | rfl
    · cases ho
    · obtain rfl := Option.some.inj ho
      rfl
  obtain ⟨hret, -, hiff⟩ := undo_restores_iff zeroReturns_obeys patches hsep unpatched hm
  refine ⟨hret.trans (by decide), hiff.mpr ?_⟩
  refine recoverable_of_aligned (by decide) fun p hp => ?_
  obtain rfl := Option.some.inj hp
  rfl

/-- The hook at 0xbaa4 as the only entry. -/
def hookOnly : List Patch := [⟨0x0000baa4, 4, some (ofList p2Orig), ofList p2Patch⟩]

/-- It stays in the firmware: the loop of `patch_undo` ends before the first entry. -/
theorem hookOnly_not_restored :
    Obeys zeroReturns id ∧ Separate hookOnly ∧ HoldsOrig hookOnly unpatched ∧
      0 ≤ (patchDo zeroReturns hookOnly unpatched).1 ∧
      (patchUndo zeroReturns hookOnly (patchDo zeroReturns hookOnly unpatched).2).1 = some 0 ∧
      ¬ Restored hookOnly unpatched
        (patchUndo zeroReturns hookOnly (patchDo zeroReturns hookOnly unpatched).2).2 := by
  refine ⟨zeroReturns_obeys, ⟨by decide, List.pairwise_singleton _ _⟩, ?_, by decide, rfl, ?_⟩
  · intro p hp orig ho x _
    obtain rfl := List.mem_singleton.mp hp
    obtain rfl := Option.some.inj ho
    rfl
  · intro h
    have hbyte := h.entries _ (List.mem_singleton_self _) _ rfl 0x0000baa4
      (by unfold Patch.Covers; decide)
    revert hbyte
    decide

end Wifimon.App
