/-
  `doc/re/bin2elf.c`: which images `spew` accepts, and which bytes it touches.

  `Image` says what a complete image is: data blocks, then a last block, each with its CRC.
  `Reaches` are the positions the loop comes to, behind blocks that it stores. `PosCase` says how
  a pass ends in terms of what stands at its position.

  * `spew_inBounds_iff`: in a file shorter than 2^31 bytes, `spew` stays in the file and in
    `elfdata` if and only if every position it reaches is safe (`SafeAt`): a body that is not
    found missing is in the file, and, when its CRC and region are right, has room for its CRC
    and fits into `elfdata`.
  * `mapit_complete_iff`: the tool writes an ELF file exactly for the complete images, and fails
    on every other file, if and only if the positions reached are safe and none of them is in
    front of a truncated header or body: there `need` returns as if the image had ended.
-/
import Wifimon.Firmware.Mkelf
import Mathlib.Logic.Relation

namespace Wifimon.Firmware

open ByteLib Elf

/-! ## Images -/

/-- A data block: where its bytes go, and the bytes, without the CRC. -/
structure Block where
  addr : UInt32
  data : List UInt8

/-- `datalength` of the header at `pos`. -/
def dataLen (b : List UInt8) (pos : Nat) : Nat := (fwheader b pos).datalength.toNat

/-- The position behind the block at `pos`. -/
def nextPos (b : List UInt8) (pos : Nat) : Nat := pos + 16 + dataLen b pos

def blockAt (b : List UInt8) (pos : Nat) : Block :=
  ⟨(fwheader b pos).baseaddr, load (ofList b) (pos + 16) (dataLen b pos - 4)⟩

/-- A last block stands at `pos`, within the first `w` bytes. -/
structure LastAt (b : List UInt8) (w pos : Nat) : Prop where
  present : pos + 16 ≤ w
  headerOk : HeaderOk b pos
  isLast : IsLast b pos

/-- A data block stands at `pos`, within the first `w` bytes. -/
structure BlockAt (b : List UInt8) (w pos : Nat) : Prop where
  headerOk : HeaderOk b pos
  length : 4 ≤ dataLen b pos
  present : nextPos b pos ≤ w
  bodyOk : BodyOk b (pos + 16) (dataLen b pos)
  region : regionOf (fwheader b pos).baseaddr ≠ none

/-- From `pos` on, within the first `w` bytes: the data blocks `bs`, then a last block with
    entry point `entry`. -/
inductive Image (b : List UInt8) (w : Nat) : Nat → List Block → UInt32 → Prop where
  | last {pos : Nat} : LastAt b w pos → Image b w pos [] (fwheader b pos).baseaddr
  | block {pos : Nat} {bs : List Block} {entry : UInt32} : BlockAt b w pos →
      Image b w (nextPos b pos) bs entry → Image b w pos (blockAt b pos :: bs) entry

def CompleteFrom (b : List UInt8) (pos : Nat) : Prop :=
  ∃ bs entry, Image b b.length pos bs entry

/-- Some prefix of the file is a complete image. -/
def Complete (b : List UInt8) : Prop := CompleteFrom b 0

theorem not_isLast_of_length {b : List UInt8} {pos : Nat} (h : 4 ≤ dataLen b pos) :
    ¬ IsLast b pos := by
  rintro ⟨-, h0⟩
  rw [dataLen, h0] at h
  exact absurd h (by decide)

theorem completeFrom_cases {b : List UInt8} {pos : Nat} (h : CompleteFrom b pos) :
    LastAt b b.length pos ∨ BlockAt b b.length pos := by
  obtain ⟨bs, entry, h⟩ := h
  cases h with
  | last h => exact Or.inl h
  | block h _ => exact Or.inr h

/-- In front of a data block, an image is complete if and only if it is behind it. -/
theorem completeFrom_block {b : List UInt8} {pos : Nat} (h : BlockAt b b.length pos) :
    CompleteFrom b pos ↔ CompleteFrom b (nextPos b pos) := by
  constructor
  · rintro ⟨bs, entry, hi⟩
    cases hi with
    | last hl => exact absurd hl.isLast (not_isLast_of_length h.length)
    | block _ hi => exact ⟨_, _, hi⟩
  · rintro ⟨bs, entry, hi⟩
    exact ⟨_, _, .block h hi⟩

/-! ## Positions -/

/-- A header that is no last block, with CRC remainder 0. -/
structure DataAt (b : List UInt8) (w pos : Nat) : Prop where
  present : pos + 16 ≤ w
  headerOk : HeaderOk b pos
  notLast : ¬ IsLast b pos

/-- Between 1 and 15 bytes are left. -/
def TruncatedHeader (w pos : Nat) : Prop := pos < w ∧ w < pos + 16

/-- The body that the header asks for is not there. (From 2^31 on, `datalength` is a negative
    `int`, and `need` finds nothing missing.) -/
def TruncatedBody (b : List UInt8) (w pos : Nat) : Prop :=
  DataAt b w pos ∧ dataLen b pos < 2 ^ 31 ∧ w < nextPos b pos

/-- `need` returns at this position: a header or a body is cut off. -/
def Truncated (b : List UInt8) (w pos : Nat) : Prop :=
  TruncatedHeader w pos ∨ TruncatedBody b w pos

theorem Truncated.lt {b : List UInt8} {w pos : Nat} (h : Truncated b w pos) : pos < w := by
  rcases h with h | h
  · exact h.1
  · have := h.1.present
    omega

theorem Truncated.body {b : List UInt8} {w pos : Nat} (h : Truncated b w pos)
    (hp : pos + 16 ≤ w) : TruncatedBody b w pos := by
  rcases h with h | h
  · exact absurd h.2 (Nat.not_lt.mpr hp)
  · exact h

theorem Truncated.not_blockAt {b : List UInt8} {w pos : Nat} (h : Truncated b w pos) :
    ¬ BlockAt b w pos := by
  intro hb
  have hnext : nextPos b pos = pos + 16 + dataLen b pos := rfl
  have hpres := hb.present
  exact absurd hpres (Nat.not_le.mpr (h.body (by omega)).2.2)

/-- The block's bytes fit into `elfdata`. -/
def Fits (b : List UInt8) (pos : Nat) : Prop :=
  ∀ r, regionOf (fwheader b pos).baseaddr = some r →
    4 ≤ dataLen b pos ∧
      storeOfs r (fwheader b pos).baseaddr + (dataLen b pos - 4) ≤ elfdataSize

/-- A body that is not found missing is in the file, and fits when its CRC is right. -/
def SafeAt (b : List UInt8) (w pos : Nat) : Prop :=
  DataAt b w pos → ¬ TruncatedBody b w pos →
    nextPos b pos ≤ b.length ∧ (BodyOk b (pos + 16) (dataLen b pos) → Fits b pos)

/-- The loop stores the block at `pos` and goes on. -/
def Accepts (b : List UInt8) (w pos : Nat) : Prop := BlockAt b w pos ∧ Fits b pos

/-- The positions the loop comes to from a position. -/
def Reaches (b : List UInt8) (w : Nat) : Nat → Nat → Prop :=
  Relation.ReflTransGen fun p q => Accepts b w p ∧ q = nextPos b p

theorem reaches_of_not {b : List UInt8} {w pos p : Nat} (h : ¬ Accepts b w pos) :
    Reaches b w pos p ↔ p = pos := by
  constructor
  · intro hr
    rcases Relation.ReflTransGen.cases_head hr with rfl | ⟨q, hq, -⟩
    · rfl
    · exact absurd hq.1 h
  · rintro rfl
    exact Relation.ReflTransGen.refl

theorem reaches_of_accepts {b : List UInt8} {w pos : Nat} (h : Accepts b w pos)
    (P : Nat → Prop) :
    (∀ p, Reaches b w pos p → P p) ↔ P pos ∧ ∀ p, Reaches b w (nextPos b pos) p → P p := by
  constructor
  · intro hall
    exact ⟨hall pos Relation.ReflTransGen.refl,
      fun p hp => hall p (Relation.ReflTransGen.head ⟨h, rfl⟩ hp)⟩
  · rintro ⟨h0, hall⟩ p hp
    rcases Relation.ReflTransGen.cases_head hp with rfl | ⟨q, ⟨-, rfl⟩, hq⟩
    · exact h0
    · exact hall p hq

/-! ## One pass, by position -/

def AllInBounds (b : List UInt8) (acc : List MapAccess) : Prop := ∀ a ∈ acc, a.InBounds b

/-- How a pass ends at a position, with `w - pos` bytes left. -/
inductive PosCase (b : List UInt8) (w pos : Nat) (g : Globals) : List MapAccess × Next → Prop where
  | ranOut : pos = w → PosCase b w pos g ([], .stop (.exit 19))
  | truncated {acc : List MapAccess} : TruncatedHeader w pos ∨ TruncatedBody b w pos →
      AllInBounds b acc → PosCase b w pos g (acc, .stop (.returned g))
  | last {acc : List MapAccess} : LastAt b w pos → AllInBounds b acc →
      PosCase b w pos g
        (acc, .stop (.returned { g with entrypoint := (fwheader b pos).baseaddr }))
  | refused {acc : List MapAccess} {code : Nat} : pos + 16 ≤ w → code ≠ 0 →
      ¬ TruncatedBody b w pos → SafeAt b w pos → ¬ LastAt b b.length pos →
      ¬ BlockAt b b.length pos → AllInBounds b acc → PosCase b w pos g (acc, .stop (.exit code))
  | outside {acc : List MapAccess} : ¬ SafeAt b w pos → ¬ AllInBounds b acc →
      PosCase b w pos g (acc, .stop .fault)
  | block {acc : List MapAccess} {r : Region} : Accepts b w pos →
      regionOf (fwheader b pos).baseaddr = some r → AllInBounds b acc →
      PosCase b w pos g (acc, .loop (nextPos b pos) (w - nextPos b pos)
        (putBlock b (pos + 16) r (fwheader b pos).baseaddr ((fwheader b pos).datalength - 4) g))

theorem lt_asInt_iff {x : UInt32} {m : Int} (h : 0 ≤ m) :
    m < asInt x ↔ x.toNat < 2 ^ 31 ∧ m < x.toNat := by
  have := x.toNat_lt
  unfold asInt
  split <;> omega

/-- `len` is `datalength - 4` unless that is negative, and then exceeds every buffer. -/
theorem len_cases (x : UInt32) :
    (4 ≤ x.toNat ∧ (x - 4).toNat = x.toNat - 4) ∨
      (x.toNat < 4 ∧ elfdataSize < (x - 4).toNat) := by
  have hx := x.toNat_lt
  have h : (x - 4).toNat = (2 ^ 32 - 4 + x.toNat) % 2 ^ 32 := UInt32.toNat_sub x 4
  have hsize : elfdataSize = 1314816 := rfl
  omega

theorem headerReads_inBounds {b : List UInt8} {w pos : Nat} (hw : w ≤ b.length)
    (hp : pos + 16 ≤ w) : AllInBounds b (headerReads b pos ((w : Int) - pos - 16)) := by
  intro a ha
  unfold headerReads at ha
  rcases List.mem_cons.mp ha with rfl | ha
  · exact Nat.le_trans hp hw
  · split at ha
    · next hle =>
      rw [List.mem_singleton.mp ha]
      have hle' := UInt32.le_iff_toNat_le.mp hle
      rw [UInt32.toNat_ofNat'] at hle'
      have hm := Nat.mod_le ((w : Int) - pos - 16).toNat (2 ^ 32)
      show pos + 16 + dataLen b pos - 4 + 4 ≤ b.length
      rw [dataLen]
      omega
    · cases ha

/-- A block that the pass stores: it fits, so `len` did not wrap and the body is in the window. -/
theorem accepts_of_stored {b : List UInt8} {w pos : Nat} (hd : DataAt b w pos)
    (ht : ¬ TruncatedBody b w pos) (hok : BodyOk b (pos + 16) (dataLen b pos)) {r : Region}
    (hr : regionOf (fwheader b pos).baseaddr = some r)
    (hfit : storeOfs r (fwheader b pos).baseaddr + ((fwheader b pos).datalength - 4).toNat ≤
      elfdataSize) : Accepts b w pos := by
  rcases len_cases (fwheader b pos).datalength with ⟨h4, hlen⟩ | ⟨-, hbig⟩
  · have hsize : elfdataSize = 1314816 := rfl
    have hshort : dataLen b pos < 2 ^ 31 := by
      rw [dataLen]
      omega
    have hpres : nextPos b pos ≤ w := Nat.le_of_not_lt fun h => ht ⟨hd, hshort, h⟩
    refine ⟨⟨hd.headerOk, h4, hpres, hok, fun hn => ?_⟩, fun r' hr' => ?_⟩
    · rw [hr] at hn
      cases hn
    · rw [hr] at hr'
      cases hr'
      exact ⟨h4, by rw [dataLen, ← hlen]; exact hfit⟩
  · omega

/-- What a body brings, where its header stands and nothing is found missing. -/
theorem body_pos {b : List UInt8} {w pos : Nat} (hw : w ≤ b.length)
    (hd : DataAt b w pos) (ht : ¬ TruncatedBody b w pos) {g : Globals} {r : List MapAccess × Next}
    (h : BodyCase b (fwheader b pos) (pos + 16) ((w : Int) - pos - 16) g r) :
    PosCase b w pos g (headerReads b pos ((w : Int) - pos - 16) ++ r.1, r.2) := by
  have hhead := headerReads_inBounds hw hd.present
  have hread : ∀ {n : Nat}, pos + 16 + n ≤ b.length → MapAccess.InBounds b (.read (pos + 16) n) :=
    fun h => h
  have hnlast : ¬ LastAt b b.length pos := fun hl => hd.notLast hl.isLast
  cases h with
  | outside h =>
    refine .outside (fun hs => ?_) fun hall => ?_
    · exact absurd (hs hd ht).1 (Nat.not_le.mpr h)
    · exact absurd (hall _ (List.mem_append_right _ (List.mem_singleton_self _)))
        (Nat.not_le.mpr h)
  | badCrc h hbad =>
    refine .refused hd.present (by decide) ht (fun _ _ => ⟨h, fun hb => absurd hb hbad⟩) hnlast
      (fun hb => hbad hb.bodyOk) ?_
    exact List.forall_mem_append.mpr ⟨hhead, List.forall_mem_singleton.mpr (hread h)⟩
  | unknown h hok hr =>
    refine .refused hd.present (by decide) ht
      (fun _ _ => ⟨h, fun _ r hr' => by rw [hr] at hr'; cases hr'⟩) hnlast
      (fun hb => hb.region hr) ?_
    exact List.forall_mem_append.mpr ⟨hhead, List.forall_mem_singleton.mpr (hread h)⟩
  | @overflow r h hok hr hout =>
    refine .outside (fun hs => hout ?_) fun hall => hout ?_
    · obtain ⟨h4, hfit⟩ := (hs hd ht).2 hok r hr
      rcases len_cases (fwheader b pos).datalength with ⟨-, hlen⟩ | ⟨hlt, -⟩
      · rw [hlen]
        exact ⟨by rw [dataLen] at h4; omega, hfit⟩
      · rw [dataLen] at h4
        omega
    · have h1 := hall (.read (pos + 16) ((fwheader b pos).datalength - 4).toNat) (by simp)
      have h2 := hall (.store (storeOfs r (fwheader b pos).baseaddr)
        ((fwheader b pos).datalength - 4).toNat) (by simp)
      exact ⟨h1, h2⟩
  | @stored r h hok hr hin hfit =>
    have hall : AllInBounds b (headerReads b pos ((w : Int) - pos - 16) ++
        [.read (pos + 16) (fwheader b pos).datalength.toNat,
          .read (pos + 16) ((fwheader b pos).datalength - 4).toNat,
          .store (storeOfs r (fwheader b pos).baseaddr)
            ((fwheader b pos).datalength - 4).toNat]) := by
      refine List.forall_mem_append.mpr ⟨hhead, ?_⟩
      simp only [List.forall_mem_cons]
      exact ⟨hread h, hread hin, hfit, nofun⟩
    have hcase := PosCase.block (g := g) (accepts_of_stored hd ht hok hr hfit) hr hall
    have hm : (w : Int) - pos - 16 - (fwheader b pos).datalength.toNat =
        (w : Int) - (nextPos b pos : Nat) := by
      simp only [nextPos, dataLen]
      omega
    rw [← hm] at hcase
    exact hcase

/-- The ends of a pass, by position. -/
theorem step_pos {b : List UInt8} {w pos : Nat} (hw : w ≤ b.length)
    (hp : pos ≤ w) (g : Globals) :
    PosCase b w pos g (spewStep b pos ((w : Int) - pos) g) := by
  have hc := spewStep_case b pos ((w : Int) - pos) g
  generalize spewStep b pos ((w : Int) - pos) g = s at hc ⊢
  cases hc with
  | ranOut h => exact .ranOut (by omega)
  | negative h => omega
  | shortHeader h0 h16 =>
    exact .truncated (Or.inl ⟨by omega, by omega⟩) (fun a ha => by cases ha)
  | badHeader h16 hbad =>
    refine .refused (by omega) (by decide) (fun ht => hbad ht.1.headerOk)
      (fun hd _ => absurd hd.headerOk hbad) (fun hl => hbad hl.headerOk)
      (fun hb => hbad hb.headerOk) (headerReads_inBounds hw (by omega))
  | last h16 hok hl => exact .last ⟨by omega, hok, hl⟩ (headerReads_inBounds hw (by omega))
  | shortBody h16 hok hl hlt =>
    obtain ⟨h1, h2⟩ := (lt_asInt_iff (by omega)).mp hlt
    refine .truncated (Or.inr ⟨⟨by omega, hok, hl⟩, h1, ?_⟩) (headerReads_inBounds hw (by omega))
    simp only [nextPos, dataLen]
    omega
  | body h16 hok hl hle hb =>
    refine body_pos hw ⟨by omega, hok, hl⟩ (fun ht => ?_) hb
    have h2 := ht.2.2
    simp only [nextPos, dataLen] at h2
    exact absurd ((lt_asInt_iff (by omega)).mpr ⟨ht.2.1, by omega⟩) (Int.not_lt.mpr hle)

/-! ## Runs -/

theorem accepts_safe {b : List UInt8} {w pos : Nat} (hw : w ≤ b.length) (h : Accepts b w pos) :
    SafeAt b w pos :=
  fun _ _ => ⟨Nat.le_trans h.1.present hw, fun _ => h.2⟩

theorem not_accepts_of {b : List UInt8} {w pos : Nat} (hw : w ≤ b.length)
    (h : ¬ BlockAt b b.length pos) : ¬ Accepts b w pos :=
  fun ha => h ⟨ha.1.headerOk, ha.1.length, Nat.le_trans ha.1.present hw, ha.1.bodyOk, ha.1.region⟩

/-- The accesses of a pass are in bounds at the safe positions. -/
theorem step_inBounds {b : List UInt8} {w pos : Nat} (hw : w ≤ b.length)
    (hp : pos ≤ w) (g : Globals) :
    AllInBounds b (spewStep b pos ((w : Int) - pos) g).1 ↔ SafeAt b w pos := by
  have hc := step_pos hw hp g
  generalize spewStep b pos ((w : Int) - pos) g = s at hc ⊢
  cases hc with
  | ranOut h =>
    refine ⟨fun _ hd => ?_, fun _ a ha => by cases ha⟩
    have := hd.present
    omega
  | truncated ht hall =>
    exact ⟨fun _ hd hn => absurd (Truncated.body ht hd.present) hn, fun _ => hall⟩
  | last hl hall => exact ⟨fun _ hd => absurd hl.isLast hd.notLast, fun _ => hall⟩
  | refused _ _ _ hs _ _ hall => exact ⟨fun _ => hs, fun _ => hall⟩
  | outside hs hall => exact ⟨fun h => absurd h hall, fun h => absurd h hs⟩
  | block ha _ hall => exact ⟨fun _ => accepts_safe hw ha, fun _ => hall⟩

/-- The induction over a run within the first `w` bytes: `P` holds of the run from a position if
    it does where a pass ends the run, and if, at an accepted block, it does of the run from
    behind it. -/
theorem run_induction {b : List UInt8} {w : Nat} (hw : w ≤ b.length)
    {P : Nat → List MapAccess × Outcome → Prop}
    (hstop : ∀ pos g o, pos ≤ w → ¬ Accepts b w pos →
      (spewStep b pos ((w : Int) - pos) g).2 = .stop o →
      P pos ((spewStep b pos ((w : Int) - pos) g).1, o))
    (hloop : ∀ pos g r, pos ≤ w → Accepts b w pos → P (nextPos b pos) r →
      P pos ((spewStep b pos ((w : Int) - pos) g).1 ++ r.1, r.2))
    {pos : Nat} (hp : pos ≤ w) (g : Globals) : P pos (spew b pos ((w : Int) - pos) g) := by
  induction hn : w - pos using Nat.strongRecOn generalizing pos g with
  | _ n ih =>
    have hc := step_pos hw hp g
    generalize hs : spewStep b pos ((w : Int) - pos) g = s at hc
    have hend : ∀ {acc : List MapAccess} {o : Outcome}, s = (acc, .stop o) →
        ¬ Accepts b w pos → P pos (spew b pos ((w : Int) - pos) g) := by
      rintro acc o rfl hna
      have h2 : (spewStep b pos ((w : Int) - pos) g).2 = .stop o := by rw [hs]
      rw [spew_stop h2]
      exact hstop pos g o hp hna h2
    have hpresent : Accepts b w pos → pos + 20 ≤ nextPos b pos ∧ nextPos b pos ≤ w := by
      intro ha
      have := ha.1.length
      exact ⟨by rw [nextPos]; omega, ha.1.present⟩
    cases hc with
    | ranOut h => exact hend rfl fun ha => by have := hpresent ha; omega
    | truncated ht _ => exact hend rfl fun ha => Truncated.not_blockAt ht ha.1
    | last hl _ => exact hend rfl fun ha => not_isLast_of_length ha.1.length hl.isLast
    | refused _ _ _ _ _ hb _ => exact hend rfl (not_accepts_of hw hb)
    | outside hns _ => exact hend rfl fun ha => hns (accepts_safe hw ha)
    | @block acc r ha hr _ =>
      have h2 : (spewStep b pos ((w : Int) - pos) g).2 = .loop (nextPos b pos)
          ((w : Int) - (nextPos b pos : Nat)) (putBlock b (pos + 16) r (fwheader b pos).baseaddr
            ((fwheader b pos).datalength - 4) g) := by rw [hs]
      obtain ⟨hlt, hle⟩ := hpresent ha
      rw [spew_loop h2]
      exact hloop pos g _ hp ha (ih (w - nextPos b pos) (by omega) hle _ rfl)

/-- A run stays in bounds if and only if the positions it comes to are safe. -/
theorem run_inBounds {b : List UInt8} {w pos : Nat} (hw : w ≤ b.length) (hp : pos ≤ w)
    (g : Globals) :
    AllInBounds b (spew b pos ((w : Int) - pos) g).1 ↔
      ∀ p, Reaches b w pos p → SafeAt b w p := by
  refine run_induction hw
    (P := fun pos r => AllInBounds b r.1 ↔ ∀ p, Reaches b w pos p → SafeAt b w p)
    (fun pos g o hp hna _ => ?_) (fun pos g r hp ha ih => ?_) hp g
  · rw [step_inBounds hw hp g]
    simp only [reaches_of_not hna, forall_eq]
  · rw [reaches_of_accepts ha, ← ih, ← step_inBounds hw hp g]
    exact List.forall_mem_append

/-- **The parser in its buffers.** For a file of fewer than 2^31 bytes, every access through
    `map` is in the file and every access to `elfdata` is in the array, if and only if the
    positions the loop comes to are safe. -/
theorem spew_inBounds_iff (b : List UInt8) (h : b.length < 2 ^ 31) :
    AllInBounds b (spew b 0 (stSize b.length) .start).1 ↔
      ∀ p, Reaches b b.length 0 p → SafeAt b b.length p := by
  have hsize : stSize b.length = (b.length : Int) - (0 : Nat) :=
    (stSize_eq h).trans (Int.sub_zero _).symm
  rw [hsize]
  exact run_inBounds (Nat.le_refl _) (Nat.zero_le _) .start

/-- Sixteen zero bytes: a header with `datalength` 0 and CRC remainder 0. -/
def zeroHeader : List UInt8 := [0, 0, 0, 0, 0, 0, 0, 0, 0, 0, 0, 0, 0, 0, 0, 0]

theorem zeroHeader_notSafe : ¬ SafeAt zeroHeader 16 0 := by
  intro hs
  have hd : DataAt zeroHeader 16 0 := ⟨by decide, by decide +kernel, by decide +kernel⟩
  have ht : ¬ TruncatedBody zeroHeader 16 0 := fun ht => absurd ht.2.2 (by decide)
  have hfit := (hs hd ht).2 (by decide) .r0 (by decide)
  exact absurd hfit.1 (by decide)

/-- `spew` takes its length for 2^32 - 4. -/
theorem zeroHeader_outOfBounds :
    ¬ AllInBounds zeroHeader (spew zeroHeader 0 (stSize zeroHeader.length) .start).1 := by
  intro h
  have hall := (run_inBounds (b := zeroHeader) (w := 16) (Nat.le_refl 16) (Nat.zero_le 16)
    .start).mp h
  exact zeroHeader_notSafe (hall 0 Relation.ReflTransGen.refl)

/-- The byte 0xaa sealed as a block for address 0, and the beginning of another header. -/
def storedByte : List UInt8 :=
  [1, 0, 0, 0, 0, 0, 0, 0, 5, 0, 0, 0, 0xa7, 0x6e, 0x35, 0xb4, 0xaa, 0xde, 0xa5, 0x80, 0xd8, 4]

theorem storedByte_accepts : Accepts storedByte 22 0 := by
  refine ⟨⟨by decide +kernel, by decide, by decide, by decide +kernel, by decide⟩, ?_⟩
  intro r hr
  obtain rfl : r = .r0 := Option.some.inj (hr.symm.trans (by decide))
  exact ⟨by decide, by decide⟩

/-- The block is stored, and the header behind it is found missing. -/
theorem spew_inBounds_iff_stored :
    Accepts storedByte 22 0 ∧
      AllInBounds storedByte (spew storedByte 0 (stSize storedByte.length) .start).1 := by
  refine ⟨storedByte_accepts, (spew_inBounds_iff storedByte (by decide)).mpr ?_⟩
  refine (reaches_of_accepts storedByte_accepts (SafeAt storedByte 22)).mpr ⟨?_, fun p hp => ?_⟩
  · exact fun _ _ => ⟨storedByte_accepts.1.present, fun _ => storedByte_accepts.2⟩
  · have hlast : ¬ Accepts storedByte 22 (nextPos storedByte 0) := by
      intro hacc
      exact absurd hacc.1.present (by decide)
    obtain rfl := (reaches_of_not hlast).mp hp
    exact fun hd => absurd hd.present (by decide)

/-! ## Acceptance -/

/-- An outcome fits an image that is complete, or not: `spew` returns or exits with an error. -/
def OutcomeOk (complete : Prop) (o : Outcome) : Prop :=
  ((∃ g, o = .returned g) ↔ complete) ∧ (¬ complete → ∃ code, code ≠ 0 ∧ o = .exit code)

/-- The position does not mislead the tool about an image that is complete, or not. -/
structure GoodAt (b : List UInt8) (w : Nat) (complete : Prop) (pos : Nat) : Prop where
  safe : SafeAt b w pos
  truncated : Truncated b w pos → complete
  ranOut : pos = w → ¬ complete

theorem outcomeOk_returned {complete : Prop} (g : Globals) :
    OutcomeOk complete (.returned g) ↔ complete := by
  constructor
  · rintro ⟨h, -⟩
    exact h.mp ⟨g, rfl⟩
  · intro h
    exact ⟨⟨fun _ => h, fun _ => ⟨g, rfl⟩⟩, fun hn => absurd h hn⟩

theorem outcomeOk_exit {complete : Prop} {code : Nat} (hc : code ≠ 0) :
    OutcomeOk complete (.exit code) ↔ ¬ complete := by
  constructor
  · rintro ⟨h, -⟩ hn
    obtain ⟨g, hg⟩ := h.mpr hn
    cases hg
  · intro hn
    exact ⟨⟨fun ⟨g, hg⟩ => (by cases hg), fun h => absurd h hn⟩, fun _ => ⟨code, hc, rfl⟩⟩

theorem not_outcomeOk_fault {complete : Prop} : ¬ OutcomeOk complete .fault := by
  rintro ⟨h, hexit⟩
  by_cases hc : complete
  · obtain ⟨g, hg⟩ := h.mpr hc
    cases hg
  · obtain ⟨code, -, hcode⟩ := hexit hc
    cases hcode

/-- The outcome where a pass ends the run. -/
theorem stop_outcome {b : List UInt8} {w pos : Nat} (hw : w ≤ b.length) (hp : pos ≤ w)
    {g : Globals} {o : Outcome} (ho : (spewStep b pos ((w : Int) - pos) g).2 = .stop o) :
    OutcomeOk (CompleteFrom b pos) o ↔ GoodAt b w (CompleteFrom b pos) pos := by
  have hc := step_pos hw hp g
  have hsafe := step_inBounds hw hp g
  generalize spewStep b pos ((w : Int) - pos) g = s at hc ho hsafe
  cases hc with
  | ranOut h =>
    cases ho
    rw [outcomeOk_exit (by decide)]
    exact ⟨fun hn => ⟨hsafe.mp (fun a ha => by cases ha),
      fun ht => absurd h (Nat.ne_of_lt ht.lt), fun _ => hn⟩, fun hg => hg.ranOut h⟩
  | truncated ht hall =>
    cases ho
    rw [outcomeOk_returned]
    exact ⟨fun hcomp => ⟨hsafe.mp hall, fun _ => hcomp,
      fun h => absurd h (Nat.ne_of_lt (Truncated.lt ht))⟩, fun hg => hg.truncated ht⟩
  | last hl hall =>
    cases ho
    have hcomp : CompleteFrom b pos :=
      ⟨_, _, .last ⟨Nat.le_trans hl.present hw, hl.headerOk, hl.isLast⟩⟩
    rw [outcomeOk_returned]
    refine ⟨fun _ => ⟨hsafe.mp hall, fun _ => hcomp, fun h => ?_⟩, fun _ => hcomp⟩
    have := hl.present
    omega
  | refused hpres hcode hnt hs hnl hnb _ =>
    cases ho
    have hn : ¬ CompleteFrom b pos := fun hcomp => (completeFrom_cases hcomp).elim hnl hnb
    rw [outcomeOk_exit hcode]
    exact ⟨fun _ => ⟨hs, fun ht => absurd (ht.body hpres) hnt, fun _ => hn⟩, fun _ => hn⟩
  | outside hs _ =>
    cases ho
    exact ⟨fun h => absurd h not_outcomeOk_fault, fun hg => absurd hg.safe hs⟩
  | block _ _ _ => cases ho

theorem completeFrom_accepts {b : List UInt8} {w pos : Nat} (hw : w ≤ b.length)
    (h : Accepts b w pos) : CompleteFrom b pos ↔ CompleteFrom b (nextPos b pos) :=
  completeFrom_block ⟨h.1.headerOk, h.1.length, Nat.le_trans h.1.present hw, h.1.bodyOk,
    h.1.region⟩

/-- An accepted block is a good position, whether or not the image is complete. -/
theorem accepts_good {b : List UInt8} {w pos : Nat} (hw : w ≤ b.length) (h : Accepts b w pos)
    (complete : Prop) : GoodAt b w complete pos := by
  have hpres := h.1.present
  have hnext : nextPos b pos = pos + 16 + dataLen b pos := rfl
  exact ⟨accepts_safe hw h, fun ht => absurd h.1 ht.not_blockAt, fun heq => by omega⟩

theorem run_outcome {b : List UInt8} {w pos : Nat} (hw : w ≤ b.length) (hp : pos ≤ w)
    (g : Globals) :
    OutcomeOk (CompleteFrom b pos) (spew b pos ((w : Int) - pos) g).2 ↔
      ∀ p, Reaches b w pos p → GoodAt b w (CompleteFrom b pos) p := by
  refine run_induction hw
    (P := fun pos r => OutcomeOk (CompleteFrom b pos) r.2 ↔
      ∀ p, Reaches b w pos p → GoodAt b w (CompleteFrom b pos) p)
    (fun pos g o hp hna ho => ?_) (fun pos g r hp ha ih => ?_) hp g
  · rw [stop_outcome hw hp ho]
    simp only [reaches_of_not hna, forall_eq]
  · have heq := propext (completeFrom_accepts hw ha)
    rw [reaches_of_accepts ha, heq]
    exact ih.trans ⟨fun hall => ⟨accepts_good hw ha _, hall⟩, fun hall => hall.2⟩

/-- The tool writes an ELF file for the complete images, and exits with an error for all other
    files. -/
def AcceptsExactly (b : List UInt8) : Prop :=
  ((∃ elf, mapit b = .wrote elf) ↔ Complete b) ∧
    (¬ Complete b → ∃ code, code ≠ 0 ∧ mapit b = .exit code)

theorem acceptsExactly_outcome {b : List UInt8} (h : b.length ≠ 0) :
    AcceptsExactly b ↔ OutcomeOk (Complete b) (spew b 0 (stSize b.length) .start).2 := by
  unfold AcceptsExactly OutcomeOk mapit
  rw [if_neg h]
  generalize (spew b 0 (stSize b.length) .start).2 = o
  cases o with
  | exit code => simp
  | fault => simp
  | returned g => simp

theorem not_complete_nil {b : List UInt8} (h : b.length = 0) : ¬ Complete b := by
  intro hc
  rcases completeFrom_cases hc with hl | hb
  · have := hl.present
    omega
  · have h1 := hb.present
    have h2 : nextPos b 0 = 0 + 16 + dataLen b 0 := rfl
    omega

/-- What makes the tool right about a file: where the `int` holding its length is not positive,
    it must not be a complete image; else, with `w` the value of that `int`, every position the
    loop comes to must be good. -/
structure Sound (b : List UInt8) : Prop where
  overlong : stSize b.length ≤ 0 → ¬ Complete b
  good : ∀ w : Nat, 0 < w → stSize b.length = w →
    ∀ p, Reaches b w 0 p → GoodAt b w (Complete b) p

/-- **The tool accepts exactly the complete images** if and only if the file is `Sound`. -/
theorem mapit_complete_iff (b : List UInt8) : AcceptsExactly b ↔ Sound b := by
  by_cases h0 : b.length = 0
  · have hn := not_complete_nil h0
    have hsize : stSize b.length = 0 := by rw [h0]; rfl
    refine ⟨fun _ => ⟨fun _ => hn, fun w hw hs => ?_⟩, fun _ => ?_⟩
    · omega
    · have hm : mapit b = .exit 3 := if_pos h0
      refine ⟨⟨fun ⟨elf, he⟩ => ?_, fun hc => absurd hc hn⟩, fun _ => ⟨3, by decide, hm⟩⟩
      rw [hm] at he
      cases he
  · rw [acceptsExactly_outcome h0]
    by_cases hpos : 0 < stSize b.length
    · obtain ⟨w, hw⟩ := Int.eq_ofNat_of_zero_le (Int.le_of_lt hpos)
      have hrun := run_outcome (le_of_stSize hw) (Nat.zero_le w) .start
      rw [hw] at hpos ⊢
      refine hrun.trans ⟨fun hall => ⟨fun hle => ?_, fun w' _ hw' => ?_⟩, fun hs => ?_⟩
      · omega
      · rw [hw] at hw'
        rw [← Int.ofNat_inj.mp hw']
        exact hall
      · exact hs.good w (by omega) hw
    · -- the first pass exits
      have hexit : ∃ code, code ≠ 0 ∧ (spewStep b 0 (stSize b.length) .start).2 =
          .stop (.exit code) := by
        unfold spewStep
        by_cases hz : stSize b.length = 0
        · rw [if_pos hz]
          exact ⟨19, by decide, rfl⟩
        · rw [if_neg hz, if_pos (by omega)]
          exact ⟨7, by decide, rfl⟩
      obtain ⟨code, hcode, hstop⟩ := hexit
      rw [spew_stop hstop, outcomeOk_exit hcode]
      refine ⟨fun hn => ⟨fun _ => hn, fun w hw hs => ?_⟩, fun hs => hs.overlong (Int.not_lt.mp hpos)⟩
      omega

/-- An image is complete or not behind the stored blocks as it is in front of them. -/
theorem completeFrom_reaches {b : List UInt8} {w pos p : Nat} (hw : w ≤ b.length)
    (h : Reaches b w pos p) : CompleteFrom b pos ↔ CompleteFrom b p := by
  induction h with
  | refl => exact Iff.rfl
  | tail _ hq ih =>
    obtain ⟨ha, rfl⟩ := hq
    exact ih.trans (completeFrom_accepts hw ha)

/-- For files of fewer than 2^31 bytes: the tool is right if and only if the positions it comes
    to are safe, and none is in front of a cut off header or body. -/
theorem sound_iff_short (b : List UInt8) (h : b.length < 2 ^ 31) :
    Sound b ↔ ∀ p, Reaches b b.length 0 p → SafeAt b b.length p ∧ ¬ Truncated b b.length p := by
  have hsize := stSize_eq h
  have hcut : ∀ p, Truncated b b.length p ∨ p = b.length → ¬ CompleteFrom b p := by
    rintro p hp hc
    have hpres : p + 16 ≤ b.length := by
      rcases completeFrom_cases hc with hl | hb
      · exact hl.present
      · have := hb.present
        rw [nextPos] at this
        omega
    rcases hp with ht | rfl
    · rcases completeFrom_cases hc with hl | hb
      · exact (ht.body hpres).1.notLast hl.isLast
      · exact ht.not_blockAt hb
    · omega
  constructor
  · intro hs p hp
    by_cases h0 : b.length = 0
    · have hnd : ¬ DataAt b b.length p := fun hd => by have := hd.present; omega
      exact ⟨fun hd => absurd hd hnd, fun ht => by have := ht.lt; omega⟩
    · have hg := hs.good b.length (Nat.pos_of_ne_zero h0) hsize p hp
      have hiff := completeFrom_reaches (Nat.le_refl _) hp
      exact ⟨hg.safe, fun ht => hcut p (Or.inl ht) (hiff.mp (hg.truncated ht))⟩
  · intro hall
    refine ⟨fun hle => not_complete_nil (by omega), fun w hw hs p hp => ?_⟩
    obtain rfl : w = b.length := by omega
    have hiff := completeFrom_reaches (Nat.le_refl _) hp
    obtain ⟨hsafe, hnt⟩ := hall p hp
    exact ⟨hsafe, fun ht => absurd ht hnt, fun heq hc => hcut p (Or.inr heq) (hiff.mp hc)⟩

/-- A file of one byte: `need` returns before the header, and an ELF file is written. -/
theorem oneByte_accepted : ¬ AcceptsExactly [0] := by
  intro h
  have hstop : (spewStep [0] 0 (stSize ([0] : List UInt8).length) .start).2 =
      .stop (.returned .start) := rfl
  rw [acceptsExactly_outcome (by decide), spew_stop hstop, outcomeOk_returned] at h
  rcases completeFrom_cases h with hl | hb
  · exact absurd hl.present (by decide)
  · exact absurd hb.present (by decide)

end Wifimon.Firmware
