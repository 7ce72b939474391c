/-
  `doc/re/bin2elf.c`: the ELF file against the memory image.

  `Faithful` says what a loader gets from the file: the entry point, the byte of the image at
  every address that a block covers, through exactly one PT_LOAD entry, and entries that stay in
  the file and in one region each.

  `mkelf_faithful_iff`: for an image whose blocks are in the rooms of their regions, the file is
  faithful if and only if some block starts at address 0 and both other regions have a block. A
  region without a block keeps `lower` at its initial `~0`, and region 0, unlike the other two,
  is placed in the file without regard to where its blocks start.
-/
import Wifimon.Firmware.Blocks

namespace Wifimon.Firmware

open ByteLib Elf

/-! ## The purpose of the file -/

/-- `a` is in the room of the region. -/
def Region.Has (r : Region) (a : Nat) : Prop := r.base.toNat ≤ a ∧ a < r.base.toNat + r.room

/-- The file of `elfdataSize` bytes holds the image. -/
structure Faithful (bs : List Block) (entry : UInt32) (elf : Mem) : Prop where
  entry : eEntry elf = entry
  bytes : ∀ (a : Nat) (v : UInt8), imageByte bs a = some v → Gives elf a v
  inside : ∀ p ∈ ptLoads elf, p.offset.toNat + p.filesz.toNat ≤ elfdataSize ∧
    ∃ r : Region, ∀ a, Covers p a → r.Has a

/-- Every region has a block, and in region 0 one starts at address 0. -/
structure AllRegions (bs : List Block) : Prop where
  zero : ∃ blk ∈ bs, blk.addr = 0
  inC : ∃ blk ∈ bs, regionOf blk.addr = some .rC
  in04 : ∃ blk ∈ bs, regionOf blk.addr = some .r04

/-! ## The entries by region -/

def loadOf (g : Globals) : Region → Phdr
  | .r0 => load0 g
  | .rC => loadC g
  | .r04 => load04 g

theorem ptLoads_regions (g : Globals) :
    ptLoads (mkelf g) =
      ([Region.r0, .r04, .rC].map (loadOf g)).filter fun p => decide (p.memsz ≠ 0) := by
  have h0 : (load0 g).memsz ≠ 0 := by
    show (0x100000 : UInt32) ≠ 0
    decide
  rw [ptLoads_mkelf]
  by_cases h4 : (load04 g).memsz = 0 <;> by_cases hC : (loadC g).memsz = 0 <;>
    simp [loadOf, h0, h4, hC]

/-- The entry of a region holds the region from its first block on. -/
structure RegionLoad (g : Globals) (r : Region) : Prop where
  vaddr : (loadOf g r).vaddr = g.lower r
  base_le : r.base.toNat ≤ (g.lower r).toNat
  memsz : (g.lower r).toNat + (loadOf g r).memsz.toNat = r.base.toNat + r.room
  offset : (loadOf g r).offset.toNat + r.base.toNat = r.ofs + (g.lower r).toNat
  filesz : (g.lower r).toNat + (loadOf g r).filesz.toNat = (g.upper r).toNat

theorem sub_toNat {x y : UInt32} (h : y.toNat ≤ x.toNat) : (x - y).toNat = x.toNat - y.toNat :=
  UInt32.toNat_sub_of_le x y (UInt32.le_iff_toNat_le.mpr h)

theorem covers_iff {g : Globals} {r : Region} (h : RegionLoad g r) (a : Nat) :
    Covers (loadOf g r) a ↔ (g.lower r).toNat ≤ a ∧ a < r.base.toNat + r.room := by
  rw [Covers, h.vaddr, h.memsz]

/-- A block of the region bounds `lower` and `upper`, and `lower` is attained. -/
theorem lower_bounds {bs : List Block} {g : Globals} (hl : Loaded bs g) {r : Region}
    {blk : Block} (hm : blk ∈ bs) (hr : regionOf blk.addr = some r) :
    r.base.toNat ≤ (g.lower r).toNat ∧ (g.lower r).toNat ≤ r.base.toNat + r.room ∧
      (g.lower r).toNat ≤ (g.upper r).toNat := by
  have hle := hl.lower_le blk hm r hr
  have hup := hl.le_upper blk hm r hr
  have hmax := hl.upper_le r
  have hbig : r.base.toNat + r.room < (~~~0 : UInt32).toNat := by cases r <;> decide
  rcases hl.lower_mem r with hn | ⟨blk', -, hr', heq⟩
  · rw [hn] at hle
    omega
  · have := region_addr hr'
    rw [heq] at this
    omega

/-- The numbers of an entry that `gap` shortens. -/
theorem loadGap_spec {base ofs lower upper flags : UInt32} (h1 : base.toNat ≤ lower.toNat)
    (h2 : lower.toNat ≤ base.toNat + 0x20000) (h3 : lower.toNat ≤ upper.toNat)
    (ho : ofs.toNat < 2 ^ 31) :
    lower.toNat + (loadGap base ofs lower upper flags).memsz.toNat = base.toNat + 0x20000 ∧
      (loadGap base ofs lower upper flags).offset.toNat + base.toNat = ofs.toNat + lower.toNat ∧
      lower.toNat + (loadGap base ofs lower upper flags).filesz.toNat = upper.toNat := by
  have hgap : (lower - base).toNat = lower.toNat - base.toNat := sub_toNat h1
  have hroom : (0x20000 : UInt32).toNat = 0x20000 := rfl
  refine ⟨?_, ?_, ?_⟩
  · show lower.toNat + (0x20000 - (lower - base)).toNat = _
    rw [sub_toNat (by omega), hroom]
    omega
  · show (ofs + (lower - base)).toNat + base.toNat = _
    rw [UInt32.toNat_add, hgap]
    omega
  · show lower.toNat + (upper - lower).toNat = _
    rw [sub_toNat h3]
    omega

theorem regionLoad_gap {bs : List Block} {g : Globals} (hl : Loaded bs g) {r : Region}
    (hr0 : r ≠ .r0) (h : ∃ blk ∈ bs, regionOf blk.addr = some r) : RegionLoad g r := by
  obtain ⟨blk, hm, hr⟩ := h
  obtain ⟨h1, h2, h3⟩ := lower_bounds hl hm hr
  cases r with
  | r0 => exact absurd rfl hr0
  | rC =>
    obtain ⟨hsz, hofs, hfile⟩ := @loadGap_spec 0xc0000000 0x101000 (g.lower .rC) (g.upper .rC)
      (phdrFlags true true) h1 h2 h3 (by decide)
    exact ⟨rfl, h1, hsz, hofs, hfile⟩
  | r04 =>
    obtain ⟨hsz, hofs, hfile⟩ := @loadGap_spec 0x04000000 0x121000 (g.lower .r04) (g.upper .r04)
      (phdrFlags true false) h1 h2 h3 (by decide)
    exact ⟨rfl, h1, hsz, hofs, hfile⟩

theorem regionLoad_zero {g : Globals} (h : g.lower .r0 = 0) : RegionLoad g .r0 := by
  refine ⟨rfl, Nat.zero_le _, ?_, ?_, ?_⟩
  · rw [h]
    rfl
  · rw [h]
    rfl
  · show (g.lower .r0).toNat + (g.upper .r0 - g.lower .r0).toNat = _
    rw [h, UInt32.sub_zero]
    exact Nat.zero_add _

theorem regionLoad_all {bs : List Block} {g : Globals} (hl : Loaded bs g) (h : AllRegions bs)
    (r : Region) : RegionLoad g r := by
  cases r with
  | r0 =>
    obtain ⟨blk, hm, hz⟩ := h.zero
    have hle := hl.lower_le blk hm .r0 (by rw [hz]; decide)
    rw [hz] at hle
    exact regionLoad_zero (UInt32.toNat_inj.mp (Nat.le_zero.mp hle))
  | rC => exact regionLoad_gap hl (by decide) h.inC
  | r04 => exact regionLoad_gap hl (by decide) h.in04

/-! ## The file is faithful -/

/-- Only the entry of its region covers an address of the region. -/
theorem filter_covers {g : Globals} (h : ∀ r, RegionLoad g r) {r : Region} {a : Nat}
    (hlo : (g.lower r).toNat ≤ a) (hhi : a < r.base.toNat + r.room) :
    (ptLoads (mkelf g)).filter (fun p => decide (Covers p a)) = [loadOf g r] := by
  have hcov : Covers (loadOf g r) a := (covers_iff (h r) a).mpr ⟨hlo, hhi⟩
  have hsz : (loadOf g r).memsz ≠ 0 := by
    intro h0
    have := hcov.2
    rw [h0] at this
    exact absurd hcov.1 (Nat.not_le.mpr this)
  have hbase := (h r).base_le
  have hother : ∀ r', r' ≠ r → ¬ Covers (loadOf g r') a := by
    intro r' hne hc
    have hin := (covers_iff (h r') a).mp hc
    have := (h r').base_le
    have := rooms_apart hne
    omega
  rw [ptLoads_regions, List.filter_filter]
  cases r with
  | r0 => simp [hcov, hsz, hother .r04 (by decide), hother .rC (by decide)]
  | rC => simp [hcov, hsz, hother .r0 (by decide), hother .r04 (by decide)]
  | r04 => simp [hcov, hsz, hother .r0 (by decide), hother .rC (by decide)]

/-- The entries stay in the file and in their regions. -/
theorem regionLoad_inside {bs : List Block} {g : Globals} (hl : Loaded bs g)
    (h : ∀ r, RegionLoad g r) {p : Phdr} (hp : p ∈ ptLoads (mkelf g)) :
    p.offset.toNat + p.filesz.toNat ≤ elfdataSize ∧ ∃ r : Region, ∀ a, Covers p a → r.Has a := by
  rw [ptLoads_regions] at hp
  obtain ⟨r, -, rfl⟩ := List.mem_map.mp (List.mem_filter.mp hp).1
  have hend : r.ofs + r.room ≤ elfdataSize := by cases r <;> decide
  have hofs := (h r).offset
  have hfile := (h r).filesz
  have hbase := (h r).base_le
  have hup := hl.upper_le r
  refine ⟨by omega, r, fun a ha => ?_⟩
  obtain ⟨h1, h2⟩ := (covers_iff (h r) a).mp ha
  exact ⟨Nat.le_trans hbase h1, h2⟩

theorem faithful_of_regions {bs : List Block} {g : Globals} (hl : Loaded bs g)
    (hroom : ∀ blk ∈ bs, ∃ r, blk.InRoom r) (h : ∀ r, RegionLoad g r) :
    Faithful bs g.entrypoint (mkelf g) := by
  refine ⟨eEntry_seal _ _ _, fun a v hv => ?_, fun p hp => regionLoad_inside hl h hp⟩
  obtain ⟨blk, hm, hc⟩ := imageByte_isSome hv
  obtain ⟨r, hr⟩ := hroom blk hm
  have hlo := hl.lower_le blk hm r hr.region
  have hup := hl.le_upper blk hm r hr.region
  have hin := hr.room
  obtain ⟨hc1, hc2⟩ := hc
  have hbase := (h r).base_le
  have hofs := (h r).offset
  have hfile := (h r).filesz
  refine ⟨loadOf g r, filter_covers h (by omega) (by omega), ?_, ?_⟩
  · rw [(h r).vaddr]
    omega
  · -- the place of `a` in the file is its place in the region's room
    have hplace : (loadOf g r).offset.toNat + (a - (loadOf g r).vaddr.toNat) =
        r.ofs + (a - r.base.toNat) := by
      rw [(h r).vaddr]
      omega
    have hpast : sizeofE ≤ r.ofs + (a - r.base.toNat) := by
      have : sizeofE ≤ r.ofs := by cases r <;> decide
      omega
    rw [hplace, mkelf, sealElf_data _ _ _ hpast, hl.data r _ (by omega),
      Nat.add_sub_cancel' (by omega), hv]
    rfl

/-! ## What faithfulness needs -/

/-- An address range longer than the smaller rooms is in region 0. -/
theorem zero_of_inside {g : Globals} {r : Region} (h : ∀ a, Covers (load0 g) a → r.Has a) :
    g.lower .r0 = 0 := by
  have h1 : r.Has (g.lower .r0).toNat :=
    h _ ⟨Nat.le_refl _, Nat.lt_add_of_pos_right (by show 0 < (0x100000 : UInt32).toNat; decide)⟩
  have h2 : r.Has ((g.lower .r0).toNat + 0xfffff) :=
    h _ ⟨Nat.le_add_right _ _, Nat.add_lt_add_left (by
      show 0xfffff < (0x100000 : UInt32).toNat; decide) _⟩
  apply UInt32.toNat_inj.mp
  obtain ⟨h1, -⟩ := h1
  obtain ⟨-, h2⟩ := h2
  cases r with
  | r0 =>
    change _ < 0 + 1024 * 1024 at h2
    show _ = 0
    omega
  | rC =>
    change 0xc0000000 ≤ _ at h1
    change _ < 0xc0000000 + 128 * 1024 at h2
    omega
  | r04 =>
    change 0x04000000 ≤ _ at h1
    change _ < 0x04000000 + 128 * 1024 at h2
    omega

/-- A region without a block makes an entry at the last address, which is in no region. -/
theorem block_of_inside {bs : List Block} {g : Globals} (hl : Loaded bs g) {r : Region}
    (hr0 : r ≠ .r0)
    (h : (loadOf g r).memsz ≠ 0 → ∃ r' : Region, ∀ a, Covers (loadOf g r) a → r'.Has a) :
    ∃ blk ∈ bs, regionOf blk.addr = some r := by
  rcases hl.lower_mem r with hn | ⟨blk, hm, hr, -⟩
  · have hva : (loadOf g r).vaddr = ~~~0 := by
      cases r <;> exact hn
    have hsz : (loadOf g r).memsz ≠ 0 := by
      cases r with
      | r0 => exact absurd rfl hr0
      | rC =>
        show 0x20000 - (g.lower .rC - 0xc0000000) ≠ 0
        rw [hn]
        decide
      | r04 =>
        show 0x20000 - (g.lower .r04 - 0x04000000) ≠ 0
        rw [hn]
        decide
    obtain ⟨r', hr'⟩ := h hsz
    have hpos : 0 < (loadOf g r).memsz.toNat := by
      refine Nat.pos_of_ne_zero fun h0 => hsz (UInt32.toNat_inj.mp h0)
    have hhas := hr' _ ⟨Nat.le_refl _, Nat.lt_add_of_pos_right hpos⟩
    rw [hva] at hhas
    obtain ⟨-, hhas⟩ := hhas
    have hbig : r'.base.toNat + r'.room < (~~~0 : UInt32).toNat := by cases r' <;> decide
    omega
  · exact ⟨blk, hm, hr⟩

theorem regions_of_faithful {bs : List Block} {g : Globals} (hl : Loaded bs g) {entry : UInt32}
    (h : Faithful bs entry (mkelf g)) : AllRegions bs := by
  have hmem : ∀ r, (loadOf g r).memsz ≠ 0 → loadOf g r ∈ ptLoads (mkelf g) := by
    intro r hr
    rw [ptLoads_regions]
    refine List.mem_filter.mpr ⟨List.mem_map.mpr ⟨r, ?_, rfl⟩, decide_eq_true hr⟩
    cases r <;> simp
  have hblock : ∀ r, r ≠ .r0 → ∃ blk ∈ bs, regionOf blk.addr = some r :=
    fun r hr => block_of_inside hl hr fun hsz => (h.inside _ (hmem r hsz)).2
  refine ⟨?_, hblock .rC (by decide), hblock .r04 (by decide)⟩
  have h0 : (loadOf g .r0).memsz ≠ 0 := by
    show (0x100000 : UInt32) ≠ 0
    decide
  obtain ⟨r, hr⟩ := (h.inside _ (hmem .r0 h0)).2
  have hz := zero_of_inside hr
  rcases hl.lower_mem .r0 with hn | ⟨blk, hm, -, heq⟩
  · rw [hz] at hn
    exact absurd hn (by decide)
  · exact ⟨blk, hm, heq.trans hz⟩

/-- The tool on an image whose blocks are in their rooms. -/
theorem mapit_image {b : List UInt8} {w : Nat} {bs : List Block} {entry : UInt32}
    (hsize : stSize b.length = w) (hi : Image b w 0 bs entry)
    (hroom : ∀ blk ∈ bs, ∃ r, blk.InRoom r) :
    ∃ g, mapit b = .wrote (mkelf g) ∧ g.entrypoint = entry ∧ Loaded bs g := by
  have hw := le_of_stSize hsize
  have hne : b.length ≠ 0 := by
    cases hi with
    | last hl =>
      have := hl.present
      omega
    | block hb _ =>
      have := hb.present
      rw [nextPos] at this
      omega
  have hrun := image_run hw hi hroom .start
  have hstart : (w : Int) - (0 : Nat) = stSize b.length := by
    rw [hsize]
    exact Int.sub_zero _
  obtain ⟨h1, h2, h3, h4, h5⟩ := foldl_loaded bs hroom
  refine ⟨{ bs.foldl applyBlock .start with entrypoint := entry }, ?_, rfl, ⟨h1, h2, h3, h4, h5⟩⟩
  rw [hstart] at hrun
  unfold mapit
  rw [if_neg hne, hrun]

/-- **The ELF file preserves the memory image** if and only if every region has a block and, in
    region 0, one starts at address 0: for every image that the tool accepts, its blocks in the
    rooms of their regions, in any order and with any overlaps. -/
theorem mkelf_faithful_iff (b : List UInt8) (w : Nat) (bs : List Block) (entry : UInt32)
    (hsize : stSize b.length = w) (hi : Image b w 0 bs entry)
    (hroom : ∀ blk ∈ bs, ∃ r, blk.InRoom r) :
    ∃ elf, mapit b = .wrote elf ∧ (Faithful bs entry elf ↔ AllRegions bs) := by
  obtain ⟨g, hwrote, rfl, hl⟩ := mapit_image hsize hi hroom
  exact ⟨mkelf g, hwrote, fun h => regions_of_faithful hl h,
    fun h => faithful_of_regions hl hroom (regionLoad_all hl h)⟩

/-- An image with a block of one byte in each region. -/
def oneOfEach : List UInt8 :=
  [0x01, 0x00, 0x00, 0x00, 0x00, 0x00, 0x00, 0x00, 0x05, 0x00, 0x00, 0x00, 0xa7, 0x6e, 0x35, 0xb4,
    0xaa, 0xde, 0xa5, 0x80, 0xd8,
    0x01, 0x00, 0x00, 0x00, 0x00, 0x00, 0x00, 0xc0, 0x05, 0x00, 0x00, 0x00, 0xac, 0x30, 0x30, 0x56,
    0xbb, 0x96, 0x75, 0x46, 0x1f,
    0x01, 0x00, 0x00, 0x00, 0x00, 0x00, 0x00, 0x04, 0x05, 0x00, 0x00, 0x00, 0x87, 0x9a, 0xb6, 0x37,
    0xcc, 0x68, 0x86, 0x0b, 0xfd,
    0x04, 0x00, 0x00, 0x00, 0x00, 0x00, 0x00, 0xc0, 0x00, 0x00, 0x00, 0x00, 0x14, 0x85, 0x89, 0xfa]

def oneOfEachBlocks : List Block :=
  [blockAt oneOfEach 0, blockAt oneOfEach 21, blockAt oneOfEach 42]

theorem oneOfEach_image :
    Image oneOfEach 79 0 oneOfEachBlocks (fwheader oneOfEach 63).baseaddr := by
  have h0 : BlockAt oneOfEach 79 0 :=
    ⟨by decide +kernel, by decide +kernel, by decide +kernel, by decide +kernel,
      by decide +kernel⟩
  have h1 : BlockAt oneOfEach 79 21 :=
    ⟨by decide +kernel, by decide +kernel, by decide +kernel, by decide +kernel,
      by decide +kernel⟩
  have h2 : BlockAt oneOfEach 79 42 :=
    ⟨by decide +kernel, by decide +kernel, by decide +kernel, by decide +kernel,
      by decide +kernel⟩
  have h3 : LastAt oneOfEach 79 63 :=
    ⟨by decide +kernel, by decide +kernel, by decide +kernel⟩
  have n0 : nextPos oneOfEach 0 = 21 := by decide +kernel
  have n1 : nextPos oneOfEach 21 = 42 := by decide +kernel
  have n2 : nextPos oneOfEach 42 = 63 := by decide +kernel
  exact .block h0 (n0 ▸ .block h1 (n1 ▸ .block h2 (n2 ▸ .last h3)))

/-- It is preserved. -/
theorem mkelf_faithful_iff_oneOfEach :
    ∃ elf, mapit oneOfEach = .wrote elf ∧
      Faithful oneOfEachBlocks (fwheader oneOfEach 63).baseaddr elf := by
  have hroom : ∀ blk ∈ oneOfEachBlocks, ∃ r, blk.InRoom r := by
    simp only [oneOfEachBlocks, List.forall_mem_cons]
    exact ⟨⟨.r0, by decide +kernel, by decide +kernel⟩, ⟨.rC, by decide +kernel, by decide +kernel⟩,
      ⟨.r04, by decide +kernel, by decide +kernel⟩, nofun⟩
  obtain ⟨elf, hwrote, hiff⟩ := mkelf_faithful_iff oneOfEach 79 oneOfEachBlocks _ (by decide)
    oneOfEach_image hroom
  refine ⟨elf, hwrote, hiff.mpr ⟨⟨blockAt oneOfEach 0, ?_, by decide +kernel⟩,
    ⟨blockAt oneOfEach 21, ?_, by decide +kernel⟩, ⟨blockAt oneOfEach 42, ?_, by decide +kernel⟩⟩⟩
  all_goals simp [oneOfEachBlocks]

/-- A last block alone. -/
def lastOnly : List UInt8 :=
  [0x04, 0x00, 0x00, 0x00, 0x00, 0x00, 0x00, 0xc0, 0x00, 0x00, 0x00, 0x00, 0x14, 0x85, 0x89, 0xfa]

/-- The file has an entry at address `0xffffffff`. -/
theorem lastOnly_unfaithful :
    Image lastOnly 16 0 [] 0xc0000000 ∧
      ∃ elf, mapit lastOnly = .wrote elf ∧ ¬ Faithful [] 0xc0000000 elf := by
  have hentry : (fwheader lastOnly 0).baseaddr = 0xc0000000 := by decide +kernel
  have himage : Image lastOnly 16 0 [] 0xc0000000 := by
    rw [← hentry]
    exact .last ⟨by decide +kernel, by decide +kernel, by decide +kernel⟩
  obtain ⟨g, hwrote, -, hl⟩ :=
    mapit_image (b := lastOnly) (w := 16) (by decide) himage (by simp)
  refine ⟨himage, mkelf g, hwrote, fun h => ?_⟩
  obtain ⟨blk, hm, -⟩ := (regions_of_faithful hl h).zero
  cases hm

end Wifimon.Firmware
