/-
  `doc/re/bin2elf.c`: the format that `spew` reads, from the side of the writer.

  `encode` writes data blocks and a last block, each header and each body with its CRC (`withCrc`).
  `complete_iff_encode`: the complete images are exactly the files that begin with such a text,
  and they begin with one only. `mapit_encode`: what follows the last block changes nothing of
  the ELF file, which holds the blocks that were written.
-/
import Wifimon.Elf.CrcDivision
import Wifimon.Firmware.Faithful

namespace Wifimon.Firmware

open ByteLib Elf

/-! ## Checksums -/

/-- A remainder as the file has it, most significant byte first. -/
def crcBytes (r : UInt32) : List UInt8 := (le 4 r.toNat).reverse

/-- The bytes with their CRC behind them. -/
def withCrc (p : List UInt8) : List UInt8 := p ++ crcBytes (doCrc 0 p)

@[simp] theorem crcBytes_length (r : UInt32) : (crcBytes r).length = 4 := by
  simp [crcBytes]

@[simp] theorem withCrc_length (p : List UInt8) : (withCrc p).length = p.length + 4 := by
  simp [withCrc]

theorem ofBe_crcBytes (r : UInt32) : ofBe (crcBytes r) = r.toNat := by
  rw [ofBe, crcBytes, List.reverse_reverse, ofLe_le_four]

theorem crcBytes_ofBe {c : List UInt8} (h : c.length = 4) :
    crcBytes (UInt32.ofNat (ofBe c)) = c := by
  have hrev : c.reverse.length = 4 := by rw [List.length_reverse, h]
  have hlt : ofLe c.reverse < 2 ^ 32 := by
    have := ofLe_lt c.reverse
    rw [hrev] at this
    exact this
  have hbytes := le_ofLe c.reverse
  rw [hrev] at hbytes
  rw [crcBytes, ofBe, UInt32.toNat_ofNat_of_lt' hlt, hbytes, List.reverse_reverse]

/-- A sealed string leaves no remainder, and no other four bytes behind it do. -/
theorem doCrc_withCrc (p : List UInt8) : doCrc 0 (withCrc p) = 0 := by
  rw [withCrc, doCrc_append, doCrc_four_iff (crcBytes_length _), ofBe_crcBytes, UInt32.ofNat_toNat]

theorem eq_withCrc {p c : List UInt8} (hc : c.length = 4) (h : doCrc 0 (p ++ c) = 0) :
    p ++ c = withCrc p := by
  rw [doCrc_append, doCrc_four_iff hc] at h
  rw [withCrc, ← h, crcBytes_ofBe hc]

/-! ## The writer -/

/-- A data block to be written: the command of its header, and what it loads. -/
@[ext] structure DataBlock where
  dnldcmd : UInt32
  addr : UInt32
  data : List UInt8
  region : regionOf addr ≠ none
  length : data.length + 4 < 2 ^ 32

def DataBlock.block (d : DataBlock) : Block := ⟨d.addr, d.data⟩

def headerBytes (dnldcmd baseaddr datalength : UInt32) : List UInt8 :=
  withCrc (wordBytes [dnldcmd, baseaddr, datalength])

def DataBlock.bytes (d : DataBlock) : List UInt8 :=
  headerBytes d.dnldcmd d.addr (UInt32.ofNat (d.data.length + 4)) ++ withCrc d.data

def lastBytes (entry : UInt32) : List UInt8 := headerBytes fwHasLastBlock entry 0

/-- The data blocks, and a last block with the entry point. -/
def encode (ds : List DataBlock) (entry : UInt32) : List UInt8 :=
  ds.flatMap DataBlock.bytes ++ lastBytes entry

@[simp] theorem headerBytes_length (dnldcmd baseaddr datalength : UInt32) :
    (headerBytes dnldcmd baseaddr datalength).length = 16 := by
  simp [headerBytes]

@[simp] theorem DataBlock.bytes_length (d : DataBlock) :
    d.bytes.length = 16 + (d.data.length + 4) := by
  simp [DataBlock.bytes]

theorem encode_nil (entry : UInt32) : encode [] entry = headerBytes fwHasLastBlock entry 0 := rfl

theorem encode_cons (d : DataBlock) (ds : List DataBlock) (entry : UInt32) :
    encode (d :: ds) entry = d.bytes ++ encode ds entry := by
  rw [encode, encode, List.flatMap_cons, List.append_assoc]

theorem DataBlock.toNat_length (d : DataBlock) :
    (UInt32.ofNat (d.data.length + 4)).toNat = d.data.length + 4 :=
  UInt32.toNat_ofNat_of_lt' d.length

/-! ## What was written is read -/

/-- The fields of a header that stands in the file. -/
theorem fwheader_headerBytes (pre post : List UInt8) (dnldcmd baseaddr datalength : UInt32) :
    ∃ crc, fwheader (pre ++ (headerBytes dnldcmd baseaddr datalength ++ post)) pre.length =
        ⟨dnldcmd, baseaddr, datalength, crc⟩ ∧
      HeaderOk (pre ++ (headerBytes dnldcmd baseaddr datalength ++ post)) pre.length := by
  have hload := load_ofList_middle pre (headerBytes dnldcmd baseaddr datalength) post
  rw [headerBytes_length] at hload
  generalize pre ++ (headerBytes dnldcmd baseaddr datalength ++ post) = b at hload
  have hfields : load (ofList b) pre.length (4 * [dnldcmd, baseaddr, datalength].length) =
      wordBytes [dnldcmd, baseaddr, datalength] := by
    have hpart : ((load (ofList b) pre.length 16).drop 0).take 12 =
        load (ofList b) pre.length 12 := load_drop_take (by decide)
    rw [hload] at hpart
    exact hpart.symm
  have hwords : [rd32 (ofList b) pre.length, rd32 (ofList b) (pre.length + 4),
      rd32 (ofList b) (pre.length + 8)] = [dnldcmd, baseaddr, datalength] :=
    readWords_of_load hfields
  obtain ⟨h0, hrest⟩ := List.cons.inj hwords
  obtain ⟨h1, hrest⟩ := List.cons.inj hrest
  obtain ⟨h2, -⟩ := List.cons.inj hrest
  refine ⟨rd32 (ofList b) (pre.length + 12), ?_, ?_⟩
  · rw [fwheader, h0, h1, h2]
  · rw [HeaderOk, hload]
    exact doCrc_withCrc _

/-- A data block that stands in the file. -/
theorem blockAt_bytes (d : DataBlock) (pre post : List UInt8) {w : Nat}
    (hw : pre.length + d.bytes.length ≤ w) :
    BlockAt (pre ++ (d.bytes ++ post)) w pre.length ∧
      nextPos (pre ++ (d.bytes ++ post)) pre.length = (pre ++ d.bytes).length ∧
      blockAt (pre ++ (d.bytes ++ post)) pre.length = d.block := by
  obtain ⟨crc, hheader, hok⟩ := fwheader_headerBytes pre (withCrc d.data ++ post) d.dnldcmd d.addr
    (UInt32.ofNat (d.data.length + 4))
  have hbody := load_ofList_middle (pre ++ headerBytes d.dnldcmd d.addr
    (UInt32.ofNat (d.data.length + 4))) (withCrc d.data) post
  have hdata := load_ofList_middle (pre ++ headerBytes d.dnldcmd d.addr
    (UInt32.ofNat (d.data.length + 4))) d.data (crcBytes (doCrc 0 d.data) ++ post)
  have hb : pre ++ (d.bytes ++ post) = pre ++ (headerBytes d.dnldcmd d.addr
      (UInt32.ofNat (d.data.length + 4)) ++ (withCrc d.data ++ post)) := by
    rw [DataBlock.bytes, List.append_assoc]
  have hb' : pre ++ (d.bytes ++ post) = pre ++ headerBytes d.dnldcmd d.addr
      (UInt32.ofNat (d.data.length + 4)) ++ (withCrc d.data ++ post) := by
    rw [hb, List.append_assoc]
  have hb'' : pre ++ (d.bytes ++ post) = pre ++ headerBytes d.dnldcmd d.addr
      (UInt32.ofNat (d.data.length + 4)) ++ (d.data ++ (crcBytes (doCrc 0 d.data) ++ post)) := by
    rw [hb', withCrc, List.append_assoc d.data]
  rw [← hb] at hheader hok
  rw [← hb'] at hbody
  rw [← hb''] at hdata
  rw [List.length_append, headerBytes_length] at hbody hdata
  rw [withCrc_length] at hbody
  rw [DataBlock.bytes_length] at hw
  generalize pre ++ (d.bytes ++ post) = b at hheader hok hbody hdata ⊢
  have hlen : dataLen b pre.length = d.data.length + 4 := by
    rw [dataLen, hheader]
    exact d.toNat_length
  have hnext : nextPos b pre.length = pre.length + 16 + (d.data.length + 4) := by
    rw [nextPos, hlen]
  refine ⟨⟨hok, ?_, ?_, ?_, ?_⟩, ?_, ?_⟩
  · omega
  · omega
  · rw [BodyOk, hlen, hbody]
    exact doCrc_withCrc _
  · rw [hheader]
    exact d.region
  · rw [hnext, List.length_append, DataBlock.bytes_length]
    omega
  · rw [blockAt, hlen, hheader, Nat.add_sub_cancel, hdata]
    rfl

theorem lastAt_bytes (entry : UInt32) (pre post : List UInt8) {w : Nat}
    (hw : pre.length + 16 ≤ w) :
    LastAt (pre ++ (lastBytes entry ++ post)) w pre.length ∧
      (fwheader (pre ++ (lastBytes entry ++ post)) pre.length).baseaddr = entry := by
  obtain ⟨crc, hheader, hok⟩ := fwheader_headerBytes pre post fwHasLastBlock entry 0
  rw [lastBytes]
  refine ⟨⟨hw, hok, ?_⟩, ?_⟩
  · rw [IsLast, hheader]
    exact ⟨rfl, rfl⟩
  · rw [hheader]

/-- What was written is an image of its blocks, wherever it stands in the file. -/
theorem encode_image (ds : List DataBlock) (entry : UInt32) (pre post : List UInt8) {w : Nat}
    (hw : pre.length + (encode ds entry).length ≤ w) :
    Image (pre ++ (encode ds entry ++ post)) w pre.length (ds.map DataBlock.block) entry := by
  induction ds generalizing pre with
  | nil =>
    have hlast := lastAt_bytes entry pre post (w := w) (by simpa [encode, lastBytes] using hw)
    have himage := Image.last hlast.1
    rw [hlast.2] at himage
    exact himage
  | cons d ds ih =>
    rw [encode_cons, List.length_append] at hw
    have hb : pre ++ (encode (d :: ds) entry ++ post) =
        pre ++ (d.bytes ++ (encode ds entry ++ post)) := by
      rw [encode_cons, List.append_assoc]
    obtain ⟨hblock, hnext, heq⟩ := blockAt_bytes d pre (encode ds entry ++ post) (w := w) (by omega)
    have hrest := ih (pre ++ d.bytes) (by rw [List.length_append]; omega)
    rw [List.append_assoc, ← hnext] at hrest
    rw [hb, List.map_cons, ← heq]
    exact Image.block hblock hrest

/-! ## What is read was written -/

/-- A header whose CRC is right is one that the writer writes. -/
theorem load_header {b : List UInt8} {pos : Nat} (h : HeaderOk b pos) :
    load (ofList b) pos 16 = headerBytes (fwheader b pos).dnldcmd (fwheader b pos).baseaddr
      (fwheader b pos).datalength := by
  have hwords : load (ofList b) pos 12 = wordBytes [(fwheader b pos).dnldcmd,
      (fwheader b pos).baseaddr, (fwheader b pos).datalength] := by
    have h4 := load_append (ofList b) pos 4 8
    have h8 := load_append (ofList b) (pos + 4) 4 4
    rw [h4, h8, ← le_rd32, ← le_rd32, ← le_rd32]
    simp [wordBytes, fwheader]
  have hsplit : load (ofList b) pos 16 = load (ofList b) pos 12 ++ load (ofList b) (pos + 12) 4 :=
    load_append (ofList b) pos 12 4
  rw [HeaderOk, hsplit] at h
  rw [hsplit, eq_withCrc (load_length ..) h, hwords, headerBytes]

/-- A data block whose checks are right is one that the writer writes. -/
theorem blockAt_encode {b : List UInt8} {w pos : Nat} (hw : w ≤ b.length) (h : BlockAt b w pos) :
    ∃ d : DataBlock, d.block = blockAt b pos ∧ b.drop pos = d.bytes ++ b.drop (nextPos b pos) := by
  have hpresent := h.present
  have hlen := h.length
  have hnext : nextPos b pos = pos + 16 + dataLen b pos := rfl
  have hin : pos + 16 + (dataLen b pos - 4 + 4) ≤ b.length := by omega
  have hdata : (load (ofList b) (pos + 16) (dataLen b pos - 4)).length + 4 = dataLen b pos := by
    rw [load_length]
    omega
  have hlong : dataLen b pos < 2 ^ 32 := (fwheader b pos).datalength.toNat_lt
  have hbody : (b.drop (pos + 16)).take (dataLen b pos) =
      withCrc (load (ofList b) (pos + 16) (dataLen b pos - 4)) := by
    have hsplit := load_append (ofList b) (pos + 16) (dataLen b pos - 4) 4
    have hok := h.bodyOk
    rw [BodyOk, ← Nat.sub_add_cancel hlen, hsplit] at hok
    rw [← eq_withCrc (load_length ..) hok, ← hsplit, load_ofList hin, Nat.sub_add_cancel hlen]
  have hheader := load_header h.headerOk
  rw [load_ofList (by omega)] at hheader
  have hword : UInt32.ofNat (dataLen b pos) = (fwheader b pos).datalength := UInt32.ofNat_toNat
  have hdrop : b.drop (nextPos b pos) = (b.drop (pos + 16)).drop (dataLen b pos) := by
    rw [List.drop_drop, hnext]
  have hdrop' : b.drop (pos + 16) = (b.drop pos).drop 16 := by
    rw [List.drop_drop]
  refine ⟨⟨(fwheader b pos).dnldcmd, (fwheader b pos).baseaddr,
    load (ofList b) (pos + 16) (dataLen b pos - 4), h.region, by omega⟩, rfl, ?_⟩
  rw [DataBlock.bytes]
  dsimp only
  rw [hdata, hword, ← hheader, List.append_assoc, ← hbody, hdrop, List.take_append_drop, hdrop',
    List.take_append_drop]

theorem lastAt_encode {b : List UInt8} {w pos : Nat} (hw : w ≤ b.length) (h : LastAt b w pos) :
    lastBytes (fwheader b pos).baseaddr <+: b.drop pos := by
  have hbytes := load_header h.headerOk
  rw [h.isLast.1, h.isLast.2, load_ofList (Nat.le_trans h.present hw)] at hbytes
  rw [lastBytes, ← hbytes]
  exact List.take_prefix _ _

theorem image_encode {b : List UInt8} {w pos : Nat} {bs : List Block} {entry : UInt32}
    (hw : w ≤ b.length) (h : Image b w pos bs entry) :
    ∃ ds : List DataBlock, ds.map DataBlock.block = bs ∧ encode ds entry <+: b.drop pos := by
  induction h with
  | last hl => exact ⟨[], rfl, lastAt_encode hw hl⟩
  | block hb _ ih =>
    obtain ⟨ds, hds, hprefix⟩ := ih
    obtain ⟨d, hd, hdrop⟩ := blockAt_encode hw hb
    refine ⟨d :: ds, by rw [List.map_cons, hd, hds], ?_⟩
    rw [encode_cons, hdrop]
    exact (List.prefix_append_right_inj _).mpr hprefix

/-! ## One text -/

theorem withCrc_inj {p q : List UInt8} (h : withCrc p = withCrc q) : p = q := by
  have hlen := congrArg List.length h
  rw [withCrc_length, withCrc_length] at hlen
  exact (List.append_inj h (Nat.add_right_cancel hlen)).1

theorem headerBytes_inj {c c' a a' n n' : UInt32} (h : headerBytes c a n = headerBytes c' a' n') :
    c = c' ∧ a = a' ∧ n = n' := by
  simpa using wordBytes_inj (withCrc_inj h)

/-- No text of the writer begins with another one. -/
theorem encode_append_inj {ds ds' : List DataBlock} {e e' : UInt32} {t t' : List UInt8}
    (h : encode ds e ++ t = encode ds' e' ++ t') : ds = ds' ∧ e = e' := by
  -- a data block and a last block differ in the `datalength` of their headers
  have hapart : ∀ (d : DataBlock) (x y : UInt32) (s s' : List UInt8),
      headerBytes d.dnldcmd d.addr (UInt32.ofNat (d.data.length + 4)) ++ s ≠
        headerBytes x y 0 ++ s' := by
    intro d x y s s' heq
    have hword := (headerBytes_inj (List.append_inj heq (by simp)).1).2.2
    have hlen := d.toNat_length
    rw [hword] at hlen
    exact absurd hlen (Nat.succ_ne_zero _).symm
  induction ds generalizing ds' with
  | nil =>
    cases ds' with
    | nil =>
      rw [encode_nil, encode_nil] at h
      exact ⟨rfl, (headerBytes_inj (List.append_inj h (by simp)).1).2.1⟩
    | cons d' ds' =>
      rw [encode_nil, encode_cons, DataBlock.bytes, List.append_assoc, List.append_assoc] at h
      exact absurd h.symm (hapart d' _ _ _ _)
  | cons d ds ih =>
    cases ds' with
    | nil =>
      rw [encode_nil, encode_cons, DataBlock.bytes, List.append_assoc, List.append_assoc] at h
      exact absurd h (hapart d _ _ _ _)
    | cons d' ds' =>
      simp only [encode_cons, DataBlock.bytes, List.append_assoc] at h
      obtain ⟨hheader, h⟩ := List.append_inj h (by simp)
      obtain ⟨hcmd, haddr, hword⟩ := headerBytes_inj hheader
      have hlen := d.toNat_length
      rw [hword, d'.toNat_length] at hlen
      obtain ⟨hbody, h⟩ := List.append_inj h (by rw [withCrc_length, withCrc_length, hlen])
      obtain ⟨hds, he⟩ := ih h
      exact ⟨by rw [DataBlock.ext hcmd haddr (withCrc_inj hbody), hds], he⟩

/-- **The format.** The complete images are the files that begin with a text of the writer, and
    there is one such text only: its blocks and its entry point are determined by the file. -/
theorem complete_iff_encode (b : List UInt8) :
    Complete b ↔ ∃! x : List DataBlock × UInt32, encode x.1 x.2 <+: b := by
  constructor
  · rintro ⟨bs, entry, hi⟩
    obtain ⟨ds, -, hprefix⟩ := image_encode (Nat.le_refl _) hi
    rw [List.drop_zero] at hprefix
    refine ⟨(ds, entry), hprefix, fun x hx => ?_⟩
    obtain ⟨t, ht⟩ := hprefix
    obtain ⟨t', ht'⟩ := hx
    obtain ⟨hds, he⟩ := encode_append_inj (ht'.trans ht.symm)
    exact Prod.ext hds he
  · rintro ⟨⟨ds, entry⟩, ⟨rest, rfl⟩, -⟩
    exact ⟨_, entry, encode_image ds entry [] rest (by simp)⟩

/-! ## The files that the tool accepts -/

/-- The place of the block's bytes in `elfdata` is in the array. -/
def DataBlock.Fits (d : DataBlock) : Prop :=
  ∀ r, regionOf d.addr = some r → storeOfs r d.addr + d.data.length ≤ elfdataSize

/-- A pass ends the image at this position: with a last block, or where something is cut off. -/
inductive Ends (b : List UInt8) (w pos : Nat) (g : Globals) : Globals → Prop where
  | last : LastAt b w pos → Ends b w pos g { g with entrypoint := (fwheader b pos).baseaddr }
  | truncated : Truncated b w pos → Ends b w pos g g

theorem nextPos_block {b : List UInt8} {pos : Nat} {d : DataBlock} (h : d.block = blockAt b pos)
    (h4 : 4 ≤ dataLen b pos) : nextPos b pos = pos + d.bytes.length := by
  have hdata : d.data.length = dataLen b pos - 4 :=
    (congrArg (fun blk => blk.data.length) h).trans (load_length ..)
  rw [DataBlock.bytes_length, hdata, nextPos, Nat.sub_add_cancel h4, Nat.add_assoc]

theorem fits_block {b : List UInt8} {pos : Nat} {d : DataBlock} (h : d.block = blockAt b pos)
    (h4 : 4 ≤ dataLen b pos) : Fits b pos ↔ d.Fits := by
  have haddr : d.addr = (fwheader b pos).baseaddr := congrArg Block.addr h
  have hdata : d.data.length = dataLen b pos - 4 :=
    (congrArg (fun blk => blk.data.length) h).trans (load_length ..)
  rw [DataBlock.Fits, Fits, haddr, hdata]
  exact ⟨fun hf r hr => (hf r hr).2, fun hf r hr => ⟨h4, hf r hr⟩⟩

theorem step_ends {b : List UInt8} {w pos : Nat} (hw : w ≤ b.length) (hp : pos ≤ w)
    {g g' : Globals} (h : Ends b w pos g g') :
    (spewStep b pos ((w : Int) - pos) g).2 = .stop (.returned g') := by
  cases h with
  | last hl => exact step_last hw hl g
  | truncated ht =>
    have hc := step_pos hw hp g
    generalize spewStep b pos ((w : Int) - pos) g = s at hc ⊢
    cases hc with
    | ranOut h =>
      have := ht.lt
      omega
    | truncated _ _ => rfl
    | last hl _ =>
      have hbody := ht.body hl.present
      exact absurd hl.isLast hbody.1.notLast
    | refused hin _ hnt _ _ _ _ => exact absurd (ht.body hin) hnt
    | outside hns _ =>
      refine absurd (fun hd hnt => ?_) hns
      exact absurd (ht.body hd.present) hnt
    | block ha _ _ => exact absurd ha.1 ht.not_blockAt

/-- `spew` returns behind stored blocks, where a pass ends the image. -/
theorem spew_returned_iff {b : List UInt8} {w pos : Nat} (hw : w ≤ b.length) (hp : pos ≤ w)
    (g g' : Globals) :
    (spew b pos ((w : Int) - pos) g).2 = .returned g' ↔
      ∃ ds : List DataBlock, (∀ d ∈ ds, d.Fits) ∧ ds.flatMap DataBlock.bytes <+: b.drop pos ∧
        pos + (ds.flatMap DataBlock.bytes).length ≤ w ∧
        Ends b w (pos + (ds.flatMap DataBlock.bytes).length)
          ((ds.map DataBlock.block).foldl applyBlock g) g' := by
  constructor
  · intro h
    induction hn : w - pos using Nat.strongRecOn generalizing pos g with
    | _ n ih =>
      have hc := step_pos hw hp g
      generalize hs : spewStep b pos ((w : Int) - pos) g = s at hc
      have hend : ∀ {acc : List MapAccess} {o : Outcome}, s = (acc, .stop o) →
          o = .returned g' := by
        rintro acc o rfl
        rw [spew_stop (by rw [hs])] at h
        exact h
      have hhere : Ends b w pos g g' → ∃ ds : List DataBlock, (∀ d ∈ ds, d.Fits) ∧
          ds.flatMap DataBlock.bytes <+: b.drop pos ∧
          pos + (ds.flatMap DataBlock.bytes).length ≤ w ∧
          Ends b w (pos + (ds.flatMap DataBlock.bytes).length)
            ((ds.map DataBlock.block).foldl applyBlock g) g' := fun he =>
        ⟨[], nofun, List.nil_prefix, hp, he⟩
      cases hc with
      | ranOut _ => cases hend rfl
      | truncated ht _ =>
        cases hend rfl
        exact hhere (.truncated ht)
      | last hl _ =>
        cases hend rfl
        exact hhere (.last hl)
      | refused _ _ _ _ _ _ _ => cases hend rfl
      | outside _ _ => cases hend rfl
      | block ha _ _ =>
        have hlen := ha.1.length
        have hnext : nextPos b pos = pos + 16 + dataLen b pos := rfl
        have hpresent := ha.1.present
        rw [spew_loop (step_block hw ha g)] at h
        obtain ⟨ds, hfits, hprefix, hin, he⟩ := ih (w - nextPos b pos) (by omega) hpresent _ h rfl
        obtain ⟨d, hd, hdrop⟩ := blockAt_encode hw ha.1
        have hplace : nextPos b pos + (ds.flatMap DataBlock.bytes).length =
            pos + ((d :: ds).flatMap DataBlock.bytes).length := by
          rw [List.flatMap_cons, List.length_append, nextPos_block hd hlen, Nat.add_assoc]
        rw [hplace] at hin he
        refine ⟨d :: ds, ?_, ?_, hin, ?_⟩
        · rw [List.forall_mem_cons]
          exact ⟨(fits_block hd hlen).mp ha.2, hfits⟩
        · rw [List.flatMap_cons, hdrop]
          exact (List.prefix_append_right_inj _).mpr hprefix
        · rw [List.map_cons, List.foldl_cons, hd]
          exact he
  · rintro ⟨ds, hfits, hprefix, hin, hends⟩
    induction ds generalizing pos g with
    | nil =>
      have hstep := step_ends hw hp hends
      exact congrArg Prod.snd (spew_stop hstep)
    | cons d ds ih =>
      obtain ⟨rest, hrest⟩ := hprefix
      rw [List.flatMap_cons, List.length_append] at hin hends
      rw [List.flatMap_cons, List.append_assoc] at hrest
      have htake : (b.take pos).length = pos := by
        rw [List.length_take]
        omega
      have hb : b = b.take pos ++ (d.bytes ++ (ds.flatMap DataBlock.bytes ++ rest)) := by
        rw [hrest, List.take_append_drop]
      have hblock := blockAt_bytes d (b.take pos) (ds.flatMap DataBlock.bytes ++ rest) (w := w)
        (by omega)
      rw [← hb, List.length_append, htake] at hblock
      obtain ⟨hat, hnext, hd⟩ := hblock
      have ha : Accepts b w pos := ⟨hat, (fits_block hd.symm hat.length).mpr (hfits d (by simp))⟩
      have hdrop : b.drop (nextPos b pos) = ds.flatMap DataBlock.bytes ++ rest := by
        rw [hnext, ← List.drop_drop, ← hrest, List.drop_left]
      rw [List.map_cons, List.foldl_cons, ← Nat.add_assoc, ← hnext, ← hd] at hends
      rw [← Nat.add_assoc, ← hnext] at hin
      rw [spew_loop (step_block hw ha g)]
      exact ih hat.present _ (fun d' hd' => hfits d' (List.mem_cons_of_mem _ hd'))
        ⟨rest, hdrop.symm⟩ hin hends

theorem mapit_wrote {b : List UInt8} (h : b.length < 2 ^ 31) (hne : b.length ≠ 0) (elf : Mem) :
    mapit b = .wrote elf ↔
      ∃ g, (spew b 0 ((b.length : Int) - (0 : Nat)) .start).2 = .returned g ∧ elf = mkelf g := by
  have hsize : stSize b.length = (b.length : Int) - (0 : Nat) := by
    rw [stSize_eq h]
    exact (Int.sub_zero _).symm
  rw [mapit, if_neg hne, hsize]
  cases (spew b 0 ((b.length : Int) - (0 : Nat)) .start).2 <;> simp [eq_comm]

theorem fits_of_room {d : DataBlock} (h : ∃ r, d.block.InRoom r) : d.Fits := by
  obtain ⟨r, hr⟩ := h
  intro r' hr'
  have hregion : regionOf d.addr = some r := hr.region
  have hroom : d.addr.toNat + d.data.length ≤ r.base.toNat + r.room := hr.room
  rw [hregion] at hr'
  cases hr'
  have haddr := region_addr hregion
  have hend : r.ofs + r.room ≤ elfdataSize := by cases r <;> decide
  rw [storeOfs]
  omega

/-- **The accepted files.** For every file of fewer than 2^31 bytes, the tool writes `elf` if and
    only if the file begins with blocks of the writer that fit, behind which there is a last block
    or something is cut off, and `elf` is made of these blocks, in their order. -/
theorem mapit_wrote_iff (b : List UInt8) (h : b.length < 2 ^ 31) (elf : Mem) :
    mapit b = .wrote elf ↔
      ∃ ds : List DataBlock, ∃ g, (∀ d ∈ ds, d.Fits) ∧ ds.flatMap DataBlock.bytes <+: b ∧
        Ends b b.length (ds.flatMap DataBlock.bytes).length
          ((ds.map DataBlock.block).foldl applyBlock .start) g ∧ elf = mkelf g := by
  by_cases hne : b.length = 0
  · refine ⟨fun hw => ?_, ?_⟩
    · rw [mapit, if_pos hne] at hw
      cases hw
    · rintro ⟨ds, g, -, -, he, -⟩
      cases he with
      | last hl =>
        have := hl.present
        omega
      | truncated ht =>
        have := ht.lt
        omega
  · rw [mapit_wrote h hne]
    simp only [spew_returned_iff (Nat.le_refl _) (Nat.zero_le _), List.drop_zero, Nat.zero_add]
    constructor
    · rintro ⟨g, ⟨ds, hfits, hprefix, -, he⟩, helf⟩
      exact ⟨ds, g, hfits, hprefix, he, helf⟩
    · rintro ⟨ds, g, hfits, hprefix, he, helf⟩
      exact ⟨g, ⟨ds, hfits, hprefix, hprefix.length_le, he⟩, helf⟩

/-- A block of one byte at address 0. -/
def oneByteBlock : DataBlock := ⟨1, 0, [0xaa], by decide, by decide⟩

/-- A file that is cut off in the header behind the block. -/
theorem mapit_wrote_iff_oneByte :
    mapit (oneByteBlock.bytes ++ [0]) = .wrote (mkelf (applyBlock .start oneByteBlock.block)) := by
  have hlen : (oneByteBlock.bytes ++ [0]).length = 22 := by decide
  refine (mapit_wrote_iff _ (by rw [hlen]; decide) _).mpr
    ⟨[oneByteBlock], _, ?_, ⟨[0], by simp⟩, .truncated (.inl ?_), rfl⟩
  · rw [List.forall_mem_singleton]
    exact fits_of_room ⟨.r0, by decide, by decide⟩
  · rw [TruncatedHeader, hlen]
    decide

/-- **The round trip.** In files of fewer than 2^31 bytes, written blocks that lie in the rooms of
    their regions become the same ELF file whatever stands behind the last block; and this file
    holds the memory image of the blocks if and only if every region has a block and, in region 0,
    one starts at address 0. -/
theorem mapit_encode (ds : List DataBlock) (entry : UInt32) (rest : List UInt8)
    (hlen : (encode ds entry ++ rest).length < 2 ^ 31)
    (hroom : ∀ d ∈ ds, ∃ r, d.block.InRoom r) :
    ∃ elf, mapit (encode ds entry ++ rest) = .wrote elf ∧ mapit (encode ds entry) = .wrote elf ∧
      (Faithful (ds.map DataBlock.block) entry elf ↔ AllRegions (ds.map DataBlock.block)) := by
  have hroom' : ∀ blk ∈ ds.map DataBlock.block, ∃ r, blk.InRoom r := by
    rw [List.forall_mem_map]
    exact hroom
  have hlong : 16 ≤ (encode ds entry).length := by
    rw [encode, List.length_append, lastBytes, headerBytes_length]
    exact Nat.le_add_left ..
  have hwrote : ∀ t, (encode ds entry ++ t).length < 2 ^ 31 →
      mapit (encode ds entry ++ t) = .wrote (mkelf
        { (ds.map DataBlock.block).foldl applyBlock .start with entrypoint := entry }) := by
    intro t ht
    have himage := encode_image ds entry [] t (w := (encode ds entry ++ t).length) (by simp)
    rw [mapit_wrote ht (by rw [List.length_append]; omega)]
    exact ⟨_, image_run (Nat.le_refl _) himage hroom' .start, rfl⟩
  have hempty := hwrote [] (by rw [List.append_nil]; rw [List.length_append] at hlen; omega)
  rw [List.append_nil] at hempty
  obtain ⟨h1, h2, h3, h4, h5⟩ := foldl_loaded (ds.map DataBlock.block) hroom'
  have hl : Loaded (ds.map DataBlock.block)
      { (ds.map DataBlock.block).foldl applyBlock .start with entrypoint := entry } :=
    ⟨h1, h2, h3, h4, h5⟩
  exact ⟨_, hwrote rest hlen, hempty, fun h => regions_of_faithful hl h,
    fun h => faithful_of_regions hl hroom' (regionLoad_all hl h)⟩

/-- It is written with trailing bytes and read. -/
theorem mapit_encode_oneByte :
    ∃ elf, mapit (encode [oneByteBlock] 0xc0000000 ++ [0xff]) = .wrote elf ∧
      mapit (encode [oneByteBlock] 0xc0000000) = .wrote elf ∧
      (Faithful [oneByteBlock.block] 0xc0000000 elf ↔ AllRegions [oneByteBlock.block]) := by
  refine mapit_encode [oneByteBlock] 0xc0000000 [0xff] ?_ ?_
  · rw [encode_cons, encode_nil]
    simp [oneByteBlock]
  · rw [List.forall_mem_singleton]
    exact ⟨.r0, by decide, by decide⟩

end Wifimon.Firmware
