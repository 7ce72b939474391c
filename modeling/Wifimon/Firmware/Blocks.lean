/-
  `doc/re/bin2elf.c`: what `spew` leaves in memory, as a fold over the image's blocks.

  `applyBlock` is the effect of one block on the static variables; `image_run` says that `spew`
  accepts an image and applies its blocks in order. `Loaded` relates the variables to the blocks:
  `elfdata` holds the memory image, in which the last block that covers an address wins
  (`imageByte`), and `lower` and `upper` bound the blocks of a region and are attained.
-/
import Wifimon.Firmware.Image
import Mathlib.Data.List.Induction

namespace Wifimon.Firmware

open ByteLib Elf

/-! ## Regions -/

/-- The room of a region in the output. -/
def Region.room : Region → Nat
  | .r0 => 1024 * 1024
  | .rC => 128 * 1024
  | .r04 => 128 * 1024

theorem and_not_add_and (x m : UInt32) : (x &&& ~~~m) + (x &&& m) = x := by
  apply UInt32.toBitVec_inj.mp
  rw [UInt32.toBitVec_add, UInt32.toBitVec_and, UInt32.toBitVec_and, UInt32.toBitVec_not]
  have hz : (x.toBitVec &&& ~~~m.toBitVec) &&& (x.toBitVec &&& m.toBitVec) = 0#32 := by
    ext i hi
    simp
    grind
  rw [BitVec.add_eq_or_of_and_eq_zero _ _ hz]
  ext i hi
  simp
  grind

theorem mask_of_region {addr : UInt32} {r : Region} (h : regionOf addr = some r) :
    addr &&& ~~~0x003fffff = r.base := by
  unfold regionOf at h
  split at h
  · next hb => cases h; exact hb
  · split at h
    · next hb => cases h; exact hb
    · split at h
      · next hb => cases h; exact hb
      · cases h

/-- The offset of an address in its region. -/
theorem region_addr {addr : UInt32} {r : Region} (h : regionOf addr = some r) :
    addr.toNat = r.base.toNat + (addr &&& 0x003fffff).toNat := by
  have hsum := congrArg UInt32.toNat (and_not_add_and addr 0x003fffff)
  rw [mask_of_region h, UInt32.toNat_add] at hsum
  have hlow : (addr &&& 0x003fffff).toNat < 2 ^ 22 := by
    rw [UInt32.toNat_and]
    exact Nat.lt_of_le_of_lt Nat.and_le_right (by decide)
  have hbase : r.base.toNat ≤ 0xc0000000 := by cases r <;> decide
  omega

/-! ## Blocks -/

def Block.Covers (blk : Block) (a : Nat) : Prop :=
  blk.addr.toNat ≤ a ∧ a < blk.addr.toNat + blk.data.length

instance (blk : Block) (a : Nat) : Decidable (blk.Covers a) :=
  inferInstanceAs (Decidable (_ ∧ _))

/-- The block lies in the room of the region. -/
structure Block.InRoom (blk : Block) (r : Region) : Prop where
  region : regionOf blk.addr = some r
  room : blk.addr.toNat + blk.data.length ≤ r.base.toNat + r.room

/-- The byte at `a` of the last block that covers it. -/
def imageByte (bs : List Block) (a : Nat) : Option UInt8 :=
  bs.foldl (fun v blk =>
    if blk.Covers a then some (blk.data.getD (a - blk.addr.toNat) 0) else v) none

/-- The effect of a block: the `switch` of `spew`. -/
def applyBlock (g : Globals) (blk : Block) : Globals :=
  match regionOf blk.addr with
  | some r =>
    let past := blk.addr + UInt32.ofNat blk.data.length
    { g with
      upper := if past > g.upper r then Function.update g.upper r past else g.upper
      lower := if blk.addr < g.lower r then Function.update g.lower r blk.addr else g.lower
      elfdata := store g.elfdata (storeOfs r blk.addr) blk.data }
  | none => g

theorem putBlock_eq {addr : UInt32} {r : Region} (h : regionOf addr = some r) (b : List UInt8)
    (pos : Nat) (len : UInt32) (g : Globals) :
    putBlock b pos r addr len g = applyBlock g ⟨addr, load (ofList b) pos len.toNat⟩ := by
  unfold putBlock applyBlock
  rw [h]
  simp only [load_length, UInt32.ofNat_toNat]

theorem imageByte_append (bs : List Block) (blk : Block) (a : Nat) :
    imageByte (bs ++ [blk]) a =
      if blk.Covers a then some (blk.data.getD (a - blk.addr.toNat) 0) else imageByte bs a := by
  rw [imageByte, List.foldl_append]
  rfl

/-- An image has a byte at the addresses its blocks cover. -/
theorem imageByte_isSome {bs : List Block} {a : Nat} {v : UInt8} (h : imageByte bs a = some v) :
    ∃ blk ∈ bs, blk.Covers a := by
  induction bs using List.reverseRecOn with
  | nil => cases h
  | append_singleton bs blk ih =>
    rw [imageByte_append] at h
    split at h
    · next hc => exact ⟨blk, by simp, hc⟩
    · obtain ⟨b', hb', hc⟩ := ih h
      exact ⟨b', List.mem_append_left _ hb', hc⟩

/-! ## The invariant -/

/-- The variables after the blocks `bs`. -/
structure Loaded (bs : List Block) (g : Globals) : Prop where
  data : ∀ (r : Region) (off : Nat), off < r.room →
    g.elfdata (r.ofs + off) = (imageByte bs (r.base.toNat + off)).getD 0
  lower_le : ∀ blk ∈ bs, ∀ r, regionOf blk.addr = some r → (g.lower r).toNat ≤ blk.addr.toNat
  le_upper : ∀ blk ∈ bs, ∀ r, regionOf blk.addr = some r →
    blk.addr.toNat + blk.data.length ≤ (g.upper r).toNat
  lower_mem : ∀ r, g.lower r = ~~~0 ∨
    ∃ blk ∈ bs, regionOf blk.addr = some r ∧ blk.addr = g.lower r
  upper_le : ∀ r, (g.upper r).toNat ≤ r.base.toNat + r.room

theorem loaded_start : Loaded [] .start where
  data := fun _ _ _ => rfl
  lower_le := fun _ h => by cases h
  le_upper := fun _ h => by cases h
  lower_mem := fun _ => Or.inl rfl
  upper_le := fun _ => Nat.zero_le _

/-- Rooms of different regions are apart, in memory and in the file. -/
theorem rooms_apart {r r' : Region} (h : r ≠ r') :
    (r.base.toNat + r.room ≤ r'.base.toNat ∨ r'.base.toNat + r'.room ≤ r.base.toNat) ∧
      (r.ofs + r.room ≤ r'.ofs ∨ r'.ofs + r'.room ≤ r.ofs) := by
  cases r <;> cases r' <;> first | exact absurd rfl h | decide

theorem past_toNat {blk : Block} {r : Region} (h : blk.InRoom r) :
    (blk.addr + UInt32.ofNat blk.data.length).toNat = blk.addr.toNat + blk.data.length := by
  have hroom := h.room
  have hmax : r.base.toNat + r.room < 2 ^ 32 := by cases r <;> decide
  rw [UInt32.toNat_add, UInt32.toNat_ofNat']
  omega

/-- The new upper bound of a region, and the new lower bound. -/
theorem upper_update (upper : Region → UInt32) (r r' : Region) (past : UInt32) :
    ((if past > upper r then Function.update upper r past else upper) r').toNat =
      if r' = r then max (upper r).toNat past.toNat else (upper r').toNat := by
  by_cases hr : r' = r
  · subst hr
    rw [if_pos rfl]
    by_cases hp : past > upper r'
    · rw [if_pos hp, Function.update_self]
      have := UInt32.lt_iff_toNat_lt.mp hp
      omega
    · rw [if_neg hp]
      have := mt UInt32.lt_iff_toNat_lt.mpr hp
      omega
  · rw [if_neg hr]
    split
    · rw [Function.update_of_ne hr]
    · rfl

theorem lower_update (lower : Region → UInt32) (r r' : Region) (addr : UInt32) :
    (if addr < lower r then Function.update lower r addr else lower) r' =
      if r' = r ∧ addr < lower r then addr else lower r' := by
  by_cases hl : addr < lower r
  · rw [if_pos hl]
    by_cases hr : r' = r
    · rw [if_pos ⟨hr, hl⟩, hr, Function.update_self]
    · rw [if_neg fun h => hr h.1, Function.update_of_ne hr]
  · rw [if_neg hl, if_neg fun h => hl h.2]

/-- The store of a block changes the image where the block is, and nowhere else. -/
theorem store_image {bs : List Block} {m : Mem}
    (h : ∀ (r : Region) (off : Nat), off < r.room →
      m (r.ofs + off) = (imageByte bs (r.base.toNat + off)).getD 0)
    {blk : Block} {r : Region} (hr : blk.InRoom r) {r' : Region} {off : Nat}
    (hoff : off < r'.room) :
    store m (storeOfs r blk.addr) blk.data (r'.ofs + off) =
      (imageByte (bs ++ [blk]) (r'.base.toNat + off)).getD 0 := by
  have haddr := region_addr hr.region
  have hroom := hr.room
  rw [imageByte_append]
  by_cases hrr : r' = r
  · subst hrr
    by_cases hc : blk.Covers (r'.base.toNat + off)
    · obtain ⟨h1, h2⟩ := hc
      obtain ⟨k, hk⟩ := Nat.exists_eq_add_of_le h1
      have hk' : k < blk.data.length := by omega
      have hplace : r'.ofs + off = storeOfs r' blk.addr + k := by
        rw [storeOfs]
        omega
      rw [if_pos ⟨h1, h2⟩, hplace, store_apply_of_mem hk', hk, Nat.add_sub_cancel_left,
        List.getD_eq_getElem _ _ hk']
      rfl
    · rw [if_neg hc, store_apply_of_not (by rw [Block.Covers] at hc; rw [storeOfs]; omega)]
      exact h r' off hoff
  · -- the block is in another room
    have hapart := rooms_apart hrr
    have hc : ¬ blk.Covers (r'.base.toNat + off) := by
      rintro ⟨h1, h2⟩
      omega
    rw [if_neg hc, store_apply_of_not (by rw [storeOfs]; omega)]
    exact h r' off hoff

/-- One block more. -/
theorem applyBlock_loaded {bs : List Block} {g : Globals} (h : Loaded bs g) {blk : Block}
    {r : Region} (hr : blk.InRoom r) : Loaded (bs ++ [blk]) (applyBlock g blk) := by
  have hpast := past_toNat hr
  have hroom := hr.room
  have hsame : ∀ r', regionOf blk.addr = some r' → r' = r := by
    intro r' h'
    rw [hr.region] at h'
    cases h'
    rfl
  unfold applyBlock
  rw [hr.region]
  dsimp only
  generalize blk.addr + UInt32.ofNat blk.data.length = past at hpast ⊢
  refine ⟨fun r' off hoff => ?_, fun blk' hmem r' hr' => ?_, fun blk' hmem r' hr' => ?_,
    fun r' => ?_, fun r' => ?_⟩
  · exact store_image h.data hr hoff
  · dsimp only
    rw [lower_update]
    rcases List.mem_append.mp hmem with hold | hnew
    · have hle := h.lower_le blk' hold r' hr'
      split
      · next hlt =>
        have := UInt32.lt_iff_toNat_lt.mp hlt.2
        rw [← hlt.1] at this
        omega
      · exact hle
    · rw [List.mem_singleton.mp hnew] at hr' ⊢
      rw [hsame r' hr']
      split
      · exact Nat.le_refl _
      · next hn => exact Nat.le_of_not_lt fun hlt => hn ⟨rfl, UInt32.lt_iff_toNat_lt.mpr hlt⟩
  · rw [upper_update]
    rcases List.mem_append.mp hmem with hold | hnew
    · have hle := h.le_upper blk' hold r' hr'
      split
      · next heq => rw [heq] at hle; omega
      · exact hle
    · rw [List.mem_singleton.mp hnew] at hr' ⊢
      rw [if_pos (hsame r' hr')]
      omega
  · dsimp only
    rw [lower_update]
    split
    · next hlt =>
      exact Or.inr ⟨blk, by simp, by rw [hlt.1]; exact hr.region, rfl⟩
    · rcases h.lower_mem r' with hm | ⟨blk', hmem, hreg, heq⟩
      · exact Or.inl hm
      · exact Or.inr ⟨blk', List.mem_append_left _ hmem, hreg, heq⟩
  · rw [upper_update]
    have hle := h.upper_le r'
    split
    · next heq => rw [heq] at hle ⊢; omega
    · exact hle

/-- The variables after an image whose blocks are all in the room of their region. -/
theorem foldl_loaded (bs : List Block) (h : ∀ blk ∈ bs, ∃ r, blk.InRoom r) :
    Loaded bs (bs.foldl applyBlock .start) := by
  induction bs using List.reverseRecOn with
  | nil => exact loaded_start
  | append_singleton bs blk ih =>
    rw [List.foldl_append]
    obtain ⟨r, hr⟩ := h blk (by simp)
    exact applyBlock_loaded (ih fun b' hb' => h b' (List.mem_append_left _ hb')) hr

/-! ## The run over an image -/

theorem step_last {b : List UInt8} {w pos : Nat} (hw : w ≤ b.length) (hl : LastAt b w pos)
    (g : Globals) :
    (spewStep b pos ((w : Int) - pos) g).2 =
      .stop (.returned { g with entrypoint := (fwheader b pos).baseaddr }) := by
  have hpres := hl.present
  have hp : pos ≤ w := by omega
  have hc := step_pos hw hp g
  generalize spewStep b pos ((w : Int) - pos) g = s at hc ⊢
  cases hc with
  | ranOut h => omega
  | truncated ht _ => exact absurd hl.isLast (Truncated.body ht hpres).1.notLast
  | last _ _ => rfl
  | refused _ _ _ _ hn _ _ =>
    exact absurd ⟨Nat.le_trans hpres hw, hl.headerOk, hl.isLast⟩ hn
  | outside hs _ => exact absurd (fun hd _ => absurd hl.isLast hd.notLast) hs
  | block ha _ _ => exact absurd hl.isLast (not_isLast_of_length ha.1.length)

theorem step_block {b : List UInt8} {w pos : Nat} (hw : w ≤ b.length) (ha : Accepts b w pos)
    (g : Globals) :
    (spewStep b pos ((w : Int) - pos) g).2 =
      .loop (nextPos b pos) ((w : Int) - (nextPos b pos : Nat)) (applyBlock g (blockAt b pos)) := by
  have hlen := ha.1.length
  have hpres := ha.1.present
  have hnext : nextPos b pos = pos + 16 + dataLen b pos := rfl
  have hp : pos ≤ w := by omega
  have hc := step_pos hw hp g
  generalize spewStep b pos ((w : Int) - pos) g = s at hc ⊢
  cases hc with
  | ranOut h => omega
  | truncated ht _ => exact absurd ha.1 (Truncated.not_blockAt ht)
  | last hl _ => exact absurd hl.isLast (not_isLast_of_length hlen)
  | refused _ _ _ _ _ hb _ => exact absurd ha (not_accepts_of hw hb)
  | outside hs _ => exact absurd (accepts_safe hw ha) hs
  | block _ hr _ =>
    have hdata : ((fwheader b pos).datalength - 4).toNat = dataLen b pos - 4 := by
      rcases len_cases (fwheader b pos).datalength with ⟨-, h⟩ | ⟨h, -⟩
      · exact h
      · rw [dataLen] at hlen
        omega
    rw [putBlock_eq hr, hdata]
    rfl

/-- A block in the room of its region fits. -/
theorem fits_of_inRoom {b : List UInt8} {pos : Nat} (h4 : 4 ≤ dataLen b pos) {r : Region}
    (h : (blockAt b pos).InRoom r) : Fits b pos := by
  intro r' hr'
  have hreg : regionOf (fwheader b pos).baseaddr = some r := h.region
  rw [hreg] at hr'
  cases hr'
  refine ⟨h4, ?_⟩
  have haddr := region_addr hreg
  have hroom : (fwheader b pos).baseaddr.toNat + (load (ofList b) (pos + 16)
      (dataLen b pos - 4)).length ≤ r.base.toNat + r.room := h.room
  rw [load_length] at hroom
  have hend : r.ofs + r.room ≤ elfdataSize := by cases r <;> decide
  rw [storeOfs]
  omega

/-- `spew` accepts an image whose blocks are in their rooms, and applies them in order. -/
theorem image_run {b : List UInt8} {w pos : Nat} {bs : List Block} {entry : UInt32}
    (hw : w ≤ b.length) (hi : Image b w pos bs entry) (hroom : ∀ blk ∈ bs, ∃ r, blk.InRoom r)
    (g : Globals) :
    (spew b pos ((w : Int) - pos) g).2 =
      .returned { bs.foldl applyBlock g with entrypoint := entry } := by
  induction hi generalizing g with
  | last hl => rw [spew_stop (step_last hw hl g)]; rfl
  | @block pos bs entry hb hi ih =>
    obtain ⟨r, hr⟩ := hroom _ (List.mem_cons_self ..)
    have ha : Accepts b w pos := ⟨hb, fits_of_inRoom hb.length hr⟩
    rw [spew_loop (step_block hw ha g)]
    exact ih (fun blk hblk => hroom blk (List.mem_cons_of_mem _ hblk)) _

end Wifimon.Firmware
