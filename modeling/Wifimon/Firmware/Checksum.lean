/-
  `doc/re/bin2elf.c`: what the CRC checks of `spew` accept.

  `spew` tests a header or a body by its CRC remainder. `crc_checksum`: this is the test that the
  last four bytes are the CRC of those before them (`Checksummed`), and no block is stored
  without it; a body of fewer than four bytes is not stored at all. `crc_detects_bursts`: after a
  corruption within 32 consecutive bits (`Corrupted`) a header or body that was accepted is
  refused.
-/
import Wifimon.Elf.CrcDivision
import Wifimon.Firmware.Image

namespace Wifimon.Firmware

open ByteLib DivisionLib Elf

/-- The last four of the `n` bytes at `pos` are, most significant first, the CRC of the others. -/
structure Checksummed (b : List UInt8) (pos n : Nat) : Prop where
  long : 4 ≤ n
  crc : UInt32.ofNat (ofBe (load (ofList b) (pos + (n - 4)) 4)) =
    doCrc 0 (load (ofList b) pos (n - 4))

theorem remainder_iff {b : List UInt8} {pos n : Nat} (h : 4 ≤ n) :
    doCrc 0 (load (ofList b) pos n) = 0 ↔ Checksummed b pos n := by
  have hsplit : load (ofList b) pos n =
      load (ofList b) pos (n - 4) ++ load (ofList b) (pos + (n - 4)) 4 := by
    rw [← load_append, Nat.sub_add_cancel h]
  rw [hsplit, doCrc_append, doCrc_four_iff (load_length _ _ _)]
  exact ⟨fun hcrc => ⟨h, hcrc⟩, fun hc => hc.crc⟩

/-- The `n` bytes at `pos` of the two files differ, but within 32 consecutive bits only. -/
structure Corrupted (b b' : List UInt8) (pos n : Nat) : Prop where
  differ : load (ofList b) pos n ≠ load (ofList b') pos n
  burst : Burst 32 (bitsOf (load (ofList b) pos n)) (bitsOf (load (ofList b') pos n))

theorem Corrupted.remainder {b b' : List UInt8} {pos n : Nat} (h : Corrupted b b' pos n)
    (hok : doCrc 0 (load (ofList b) pos n) = 0) : doCrc 0 (load (ofList b') pos n) ≠ 0 := by
  have hlen : (load (ofList b) pos n).length = (load (ofList b') pos n).length := by
    rw [load_length, load_length]
  intro hok'
  exact doCrc_ne_of_burst hlen h.differ h.burst 0 (hok.trans hok'.symm)

/-! ## The two checks -/

/-- A pass that comes to the check of the body, with the body in the file. -/
structure ComesToBody (b : List UInt8) (pos : Nat) (mapsize : Int) : Prop where
  present : 16 ≤ mapsize
  headerOk : HeaderOk b pos
  notLast : ¬ IsLast b pos
  need : asInt (fwheader b pos).datalength ≤ mapsize - 16
  inFile : nextPos b pos ≤ b.length

/-- A pass ends with 91 if and only if the header's remainder is not 0. -/
theorem badHeader_iff {b : List UInt8} {pos : Nat} {mapsize : Int} (h : 16 ≤ mapsize)
    (g : Globals) :
    (spewStep b pos mapsize g).2 = .stop (.exit 91) ↔ ¬ HeaderOk b pos := by
  have hc := spewStep_case b pos mapsize g
  generalize spewStep b pos mapsize g = s at hc ⊢
  cases hc with
  | ranOut h0 => omega
  | negative h0 => omega
  | shortHeader _ h0 => omega
  | badHeader _ hbad => exact iff_of_true rfl hbad
  | last _ hok _ => exact iff_of_false nofun (not_not_intro hok)
  | shortBody _ hok _ _ => exact iff_of_false nofun (not_not_intro hok)
  | body _ hok _ _ hb =>
    refine iff_of_false ?_ (not_not_intro hok)
    cases hb with
    | outside _ | badCrc _ _ | unknown _ _ _ | overflow _ _ _ _ | stored _ _ _ _ _ => nofun

/-- A pass that comes to the body ends with 90 if and only if the body's remainder is not 0. -/
theorem badBody_iff {b : List UInt8} {pos : Nat} {mapsize : Int} (h : ComesToBody b pos mapsize)
    (g : Globals) :
    (spewStep b pos mapsize g).2 = .stop (.exit 90) ↔ ¬ BodyOk b (pos + 16) (dataLen b pos) := by
  have hpresent := h.present
  have hneed := h.need
  have hc := spewStep_case b pos mapsize g
  generalize spewStep b pos mapsize g = s at hc ⊢
  cases hc with
  | ranOut h0 => omega
  | negative h0 => omega
  | shortHeader _ h0 => omega
  | badHeader _ hbad => exact absurd h.headerOk hbad
  | last _ _ hlast => exact absurd hlast h.notLast
  | shortBody _ _ _ hlt => omega
  | body _ _ _ _ hb =>
    cases hb with
    | outside hout => exact absurd h.inFile (Nat.not_le.mpr hout)
    | badCrc _ hbad => exact iff_of_true rfl hbad
    | unknown _ hok _ | overflow _ hok _ _ | stored _ hok _ _ _ =>
      exact iff_of_false nofun (not_not_intro hok)

/-- A block that is stored has passed both checks, and has room for its CRC. -/
theorem stored_ok {b : List UInt8} {pos pos' : Nat} {mapsize mapsize' : Int} {g g' : Globals}
    (h : (spewStep b pos mapsize g).2 = .loop pos' mapsize' g') :
    HeaderOk b pos ∧ 4 ≤ dataLen b pos ∧ BodyOk b (pos + 16) (dataLen b pos) := by
  have hc := spewStep_case b pos mapsize g
  generalize spewStep b pos mapsize g = s at hc h
  cases hc with
  | ranOut _ | negative _ | shortHeader _ _ | badHeader _ _ | last _ _ _ | shortBody _ _ _ _ =>
    cases h
  | body _ hheader _ _ hb =>
    cases hb with
    | outside _ | badCrc _ _ | unknown _ _ _ | overflow _ _ _ _ => cases h
    | stored _ hbody _ _ hfit =>
      obtain ⟨h4, -⟩ | ⟨-, hbig⟩ := len_cases (fwheader b pos).datalength
      · exact ⟨hheader, h4, hbody⟩
      · omega

/-! ## Stored checksums -/

/-- What the checks of a pass say of the last four bytes. -/
structure TestsChecksums (b : List UInt8) (pos : Nat) (mapsize : Int) (g : Globals) : Prop where
  header : 16 ≤ mapsize →
    ((spewStep b pos mapsize g).2 ≠ .stop (.exit 91) ↔ Checksummed b pos 16)
  body : ComesToBody b pos mapsize → 4 ≤ dataLen b pos →
    ((spewStep b pos mapsize g).2 ≠ .stop (.exit 90) ↔
      Checksummed b (pos + 16) (dataLen b pos))
  stored : ∀ pos' mapsize' g', (spewStep b pos mapsize g).2 = .loop pos' mapsize' g' →
    Checksummed b pos 16 ∧ Checksummed b (pos + 16) (dataLen b pos)

/-- **The stored checksum.** For every string of four bytes or more, a remainder of 0 means that
    its last four bytes, most significant first, are the CRC of the others; and for every file
    and position, this is what `spew` tests a header and a body for, and what every block that
    it stores has passed. -/
theorem crc_checksum :
    (∀ p : List UInt8, 4 ≤ p.length → (doCrc 0 p = 0 ↔
        UInt32.ofNat (ofBe (p.drop (p.length - 4))) = doCrc 0 (p.take (p.length - 4)))) ∧
      ∀ b pos mapsize g, TestsChecksums b pos mapsize g := by
  refine ⟨fun p h => doCrc_zero_iff h, fun b pos mapsize g => ⟨fun h16 => ?_, fun hb h4 => ?_, ?_⟩⟩
  · rw [ne_eq, badHeader_iff h16, not_not]
    exact remainder_iff (by decide)
  · rw [ne_eq, badBody_iff hb, not_not]
    exact remainder_iff h4
  · intro pos' mapsize' g' hloop
    obtain ⟨hheader, h4, hbody⟩ := stored_ok hloop
    exact ⟨(remainder_iff (by decide)).mp hheader, (remainder_iff h4).mp hbody⟩

theorem crc_checksum_zeroHeader :
    (doCrc 0 zeroHeader = 0 ↔
        UInt32.ofNat (ofBe (zeroHeader.drop 12)) = doCrc 0 (zeroHeader.take 12)) ∧
      TestsChecksums zeroHeader 0 16 .start :=
  ⟨crc_checksum.1 zeroHeader (by decide), crc_checksum.2 zeroHeader 0 16 .start⟩

/-! ## Bursts -/

/-- What becomes of a header or a body of `b` that is corrupted in `b'`. -/
structure RefusesBursts (b b' : List UInt8) (pos : Nat) (mapsize mapsize' : Int)
    (g g' : Globals) : Prop where
  header : 16 ≤ mapsize → 16 ≤ mapsize' → Corrupted b b' pos 16 →
    (spewStep b pos mapsize g).2 ≠ .stop (.exit 91) →
    (spewStep b' pos mapsize' g').2 = .stop (.exit 91)
  body : ComesToBody b pos mapsize → ComesToBody b' pos mapsize' →
    dataLen b' pos = dataLen b pos → Corrupted b b' (pos + 16) (dataLen b pos) →
    (spewStep b pos mapsize g).2 ≠ .stop (.exit 90) →
    (spewStep b' pos mapsize' g').2 = .stop (.exit 90)

/-- **Bursts.** For every remainder at first and every two strings of one length that differ
    within 32 consecutive bits only, `do_crc` gives different results; and a header or a body
    that `spew` accepts is refused after such a corruption. -/
theorem crc_detects_bursts :
    (∀ (remainder : UInt32) (p q : List UInt8), p.length = q.length → p ≠ q →
        Burst 32 (bitsOf p) (bitsOf q) → doCrc remainder p ≠ doCrc remainder q) ∧
      ∀ b b' pos mapsize mapsize' g g', RefusesBursts b b' pos mapsize mapsize' g g' := by
  refine ⟨fun remainder p q hlen hne hburst => doCrc_ne_of_burst hlen hne hburst remainder,
    fun b b' pos mapsize mapsize' g g' => ⟨?_, ?_⟩⟩
  · intro h16 h16' hcorrupt haccepted
    rw [ne_eq, badHeader_iff h16, not_not] at haccepted
    exact (badHeader_iff h16' g').mpr (hcorrupt.remainder haccepted)
  · intro hb hb' hlen hcorrupt haccepted
    rw [ne_eq, badBody_iff hb, not_not] at haccepted
    rw [badBody_iff hb', hlen]
    exact hcorrupt.remainder haccepted

/-- 32 bits turned over in five bytes, from the middle of the first to that of the last. -/
theorem crc_detects_bursts_bytes :
    doCrc 0 [0x12, 0x34, 0x56, 0x78, 0x9a] ≠ doCrc 0 [0x1d, 0xcb, 0xa9, 0x87, 0x6a] := by
  refine crc_detects_bursts.1 0 [0x12, 0x34, 0x56, 0x78, 0x9a] [0x1d, 0xcb, 0xa9, 0x87, 0x6a] rfl
    (by decide) ⟨4, fun i hdiff => ?_⟩
  by_cases hi : i < 40
  · have hbits : ∀ i < 40, (bitsOf [0x12, 0x34, 0x56, 0x78, 0x9a])[i]? ≠
        (bitsOf [0x1d, 0xcb, 0xa9, 0x87, 0x6a])[i]? → 4 ≤ i ∧ i < 4 + 32 := by
      decide
    exact hbits i hi hdiff
  · refine absurd ?_ hdiff
    have hlen : (bitsOf [0x12, 0x34, 0x56, 0x78, 0x9a]).length = 40 ∧
        (bitsOf [0x1d, 0xcb, 0xa9, 0x87, 0x6a]).length = 40 := by
      decide
    rw [List.getElem?_eq_none (by omega), List.getElem?_eq_none (by omega)]

end Wifimon.Firmware
