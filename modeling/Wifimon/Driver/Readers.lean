/-
  The readers of one firmware image: `doc/re/bin2elf.c`, and the drivers for USB.

  `drivers_agree_iff`: for the images of the writer, which are those that `spew` reads to the end,
  exactly which blocks `mwifiex_prog_fw_w_helper` and the download of `if_usb.c` give a card as they
  are, and which images `check_fwfile_format` passes.
-/
import Wifimon.Driver.ProgFw
import Wifimon.Driver.IfUsb

namespace Wifimon.Driver

open ByteLib Firmware ResendLib

/-- The driver does not look at the CRC of a header. -/
def Reader.IgnoresCrc (r : Reader) : Prop :=
  ∀ dnldcmd baseaddr datalength crc crc', r.dlen ⟨dnldcmd, baseaddr, datalength, crc⟩ =
    r.dlen ⟨dnldcmd, baseaddr, datalength, crc'⟩

theorem wire_length (seqnum : UInt32) (ds : List DataBlock) (entry : UInt32) :
    (wire seqnum ds entry).length = ds.length + 1 := by
  induction ds generalizing seqnum with
  | nil => rfl
  | cons d ds ih => rw [wire, List.length_cons, ih, List.length_cons]

theorem packet_length {r : Reader} (b : List UInt8) (pos : Nat) (seqnum : UInt32) :
    (r.packet b pos seqnum).length = 20 + r.dlen (fwheader b pos) := by
  rw [Reader.packet, List.length_append, List.length_append, load_length, load_length, le_length]
  omega

/-- Where the packets are those of the writer's blocks, the blocks were read as they are. -/
theorem reads_of_packets {r : Reader} (hcrc : r.IgnoresCrc) {ds : List DataBlock} {entry : UInt32}
    {pre post : List UInt8} {seqnum : UInt32} {ps : List Nat}
    (hc : r.Chain (pre ++ (encode ds entry ++ post)) pre.length ps)
    (hp : r.packets (pre ++ (encode ds entry ++ post)) seqnum ps = wire seqnum ds entry) :
    ∀ d ∈ ds, r.Reads d := by
  induction ds generalizing pre seqnum ps with
  | nil => exact nofun
  | cons d ds ih =>
    have hb : pre ++ (encode (d :: ds) entry ++ post) =
        pre ++ d.bytes ++ (encode ds entry ++ post) := by
      rw [encode_cons, List.append_assoc, List.append_assoc]
    obtain ⟨crc, hheader, -⟩ := fwheader_headerBytes pre
      (withCrc d.data ++ (encode ds entry ++ post)) d.dnldcmd d.addr
      (UInt32.ofNat (d.data.length + 4))
    have hb' : pre ++ (headerBytes d.dnldcmd d.addr (UInt32.ofNat (d.data.length + 4)) ++
        (withCrc d.data ++ (encode ds entry ++ post))) =
          pre ++ d.bytes ++ (encode ds entry ++ post) := by
      simp only [DataBlock.bytes, List.append_assoc]
    rw [hb'] at hheader
    rw [hb] at hc hp
    cases hc with
    | last _ _ =>
      have hlen := congrArg List.length hp
      rw [wire_length, packets_length] at hlen
      simp at hlen
    | @data _ ps hholds hcommand hrest =>
      rw [Reader.packets, wire] at hp
      obtain ⟨hhead, htail⟩ := List.cons.inj hp
      have hlen := congrArg List.length hhead
      rw [packet_length, hheader, List.length_append, List.length_append, headerBytes_length,
        le_length, withCrc_length] at hlen
      have hdlen : r.dlen ⟨d.dnldcmd, d.addr, UInt32.ofNat (d.data.length + 4), crc⟩ =
          d.data.length + 4 := by omega
      have hnext : r.next (pre ++ d.bytes ++ (encode ds entry ++ post)) pre.length =
          (pre ++ d.bytes).length := by
        rw [Reader.next, hheader, hdlen, List.length_append, DataBlock.bytes_length]
        omega
      have hroom := hholds.2.1
      rw [hheader, hdlen] at hroom
      rw [hheader] at hcommand
      rw [hnext, List.append_assoc _ d.bytes] at hrest
      intro e he
      rcases List.mem_cons.mp he with rfl | he
      · exact ⟨hcommand, fun crc' => (hcrc _ _ _ crc' crc).trans hdlen, hroom⟩
      · rw [List.append_assoc _ d.bytes] at htail
        exact ih (by rwa [List.append_assoc]) (by rwa [List.append_assoc]) e he

theorem reads_iff_packets {r : Reader} (hcrc : r.IgnoresCrc) (hlast : r.EndsEmpty)
    (ds : List DataBlock) (entry : UInt32) (rest : List UInt8) (seqnum : UInt32) :
    (∃ ps, r.Chain (encode ds entry ++ rest) 0 ps ∧
        r.packets (encode ds entry ++ rest) seqnum ps = wire seqnum ds entry) ↔
      ∀ d ∈ ds, r.Reads d := by
  constructor
  · rintro ⟨ps, hc, hp⟩
    exact @reads_of_packets r hcrc ds entry [] rest seqnum ps hc hp
  · intro h
    exact chain_encode hlast h entry [] rest seqnum

theorem usbReader_ignoresCrc : usbReader.IgnoresCrc := fun _ _ _ _ _ => rfl

theorem ifUsbReader_ignoresCrc : ifUsbReader.IgnoresCrc := fun _ _ _ _ _ => rfl

theorem usbReader_reads_iff (d : DataBlock) :
    usbReader.Reads d ↔
      d.dnldcmd ≠ fwHasLastBlock ∧ d.dnldcmd ≠ fwCmd7 ∧ d.data.length + 4 ≤ 600 := by
  constructor
  · intro h
    refine ⟨h.command, fun hseven => ?_, h.room⟩
    have hlen : 0 = d.data.length + 4 := (if_pos hseven).symm.trans (h.dlen 0)
    omega
  · rintro ⟨hlast, hseven, hroom⟩
    exact ⟨hlast, fun _ => (if_neg hseven).trans d.toNat_length, hroom⟩

theorem ifUsbReader_reads_iff (d : DataBlock) :
    ifUsbReader.Reads d ↔ d.dnldcmd ≠ fwHasLastBlock ∧ d.data.length + 4 ≤ 1554 :=
  ⟨fun h => ⟨h.command, h.room⟩, fun h => ⟨h.1, fun _ => d.toNat_length, h.2⟩⟩

/-! ## The check -/

/-- The first command that is not that of a data block is that of a last block. -/
def ChecksOk (ds : List DataBlock) : Prop :=
  ∀ d ∈ ds.find? fun d => decide (d.dnldcmd ≠ fwHasDataToRecv), d.dnldcmd = fwHasLastBlock

/-- The check goes along the data blocks of the writer. -/
theorem endsAt_encode_iff {w : Nat} (hw : 32 ≤ w) (ds : List DataBlock) (entry : UInt32)
    (pre post : List UInt8) (hlen : (pre ++ (encode ds entry ++ post)).length < 2 ^ 32) :
    (∃ p, Relation.ReflTransGen (Goes w (pre ++ (encode ds entry ++ post))) pre.length p ∧
      EndsAt (pre ++ (encode ds entry ++ post)) p) ↔ ChecksOk ds := by
  induction ds generalizing pre with
  | nil =>
    obtain ⟨crc, hheader, -⟩ := fwheader_headerBytes pre post fwHasLastBlock entry 0
    rw [encode_nil]
    refine iff_of_true ⟨pre.length, .refl, ?_, by rw [hheader]⟩ nofun
    rw [List.length_append, List.length_append, headerBytes_length]
    omega
  | cons d ds ih =>
    have hb : pre ++ (encode (d :: ds) entry ++ post) =
        pre ++ d.bytes ++ (encode ds entry ++ post) := by
      rw [encode_cons, List.append_assoc, List.append_assoc]
    obtain ⟨crc, hheader, -⟩ := fwheader_headerBytes pre
      (withCrc d.data ++ (encode ds entry ++ post)) d.dnldcmd d.addr
      (UInt32.ofNat (d.data.length + 4))
    have hb' : pre ++ (headerBytes d.dnldcmd d.addr (UInt32.ofNat (d.data.length + 4)) ++
        (withCrc d.data ++ (encode ds entry ++ post))) =
          pre ++ d.bytes ++ (encode ds entry ++ post) := by
      simp only [DataBlock.bytes, List.append_assoc]
    rw [hb'] at hheader
    rw [hb] at hlen ⊢
    have hrest := ih (pre ++ d.bytes) hlen
    have hmore : 16 ≤ (encode ds entry ++ post).length := by
      rw [List.length_append, encode, List.length_append, lastBytes, headerBytes_length]
      omega
    have hsum : (pre ++ d.bytes ++ (encode ds entry ++ post)).length =
        pre.length + (16 + (d.data.length + 4)) + (encode ds entry ++ post).length := by
      rw [List.length_append, List.length_append, DataBlock.bytes_length]
    have hnext : (pre ++ d.bytes).length = pre.length + (16 + (d.data.length + 4)) := by
      rw [List.length_append, DataBlock.bytes_length]
    have hthere : pre.length + 12 ≤ (pre ++ d.bytes ++ (encode ds entry ++ post)).length := by
      omega
    generalize pre ++ d.bytes ++ (encode ds entry ++ post) = b at hheader hlen hrest hsum hthere ⊢
    have hbehind : behind w b pre.length = (pre ++ d.bytes).length := by
      have hoffset : (16 + UInt32.ofNat (d.data.length + 4)).toNat = 16 + (d.data.length + 4) := by
        rw [UInt32.toNat_add, d.toNat_length]
        exact Nat.mod_eq_of_lt (by show 16 + _ < 2 ^ 32; omega)
      have hpow : 2 ^ 32 ≤ 2 ^ w := Nat.pow_le_pow_right (by decide) hw
      rw [behind, hheader, hoffset, hnext]
      exact Nat.mod_eq_of_lt (by omega)
    by_cases hdata : d.dnldcmd = fwHasDataToRecv
    · have hgoes : Goes w b pre.length (pre ++ d.bytes).length :=
        ⟨hthere, by rw [hheader]; exact hdata, hbehind.symm, by omega⟩
      have hfind : ChecksOk (d :: ds) ↔ ChecksOk ds := by
        rw [ChecksOk, List.find?_cons_of_neg (by simp [hdata])]
        rfl
      rw [hfind, ← hrest]
      constructor
      · rintro ⟨p, hp, hend⟩
        rcases Relation.ReflTransGen.cases_head hp with rfl | ⟨q, hq, hp⟩
        · exact absurd hend hgoes.not_endsAt
        · rw [hq.unique hgoes] at hp
          exact ⟨p, hp, hend⟩
      · rintro ⟨p, hp, hend⟩
        exact ⟨p, hp.head hgoes, hend⟩
    · have hstays : ∀ q, ¬ Goes w b pre.length q := fun q hq => by
        have hcommand := hq.2.1
        rw [hheader] at hcommand
        exact hdata hcommand
      have hfind : ChecksOk (d :: ds) ↔ d.dnldcmd = fwHasLastBlock := by
        rw [ChecksOk, List.find?_cons_of_pos (by simpa using hdata)]
        simp
      rw [hfind]
      constructor
      · rintro ⟨p, hp, hend⟩
        rcases Relation.ReflTransGen.cases_head hp with rfl | ⟨q, hq, -⟩
        · have hcommand := hend.2
          rwa [hheader] at hcommand
        · exact absurd hq (hstays q)
      · intro hlast
        exact ⟨pre.length, .refl, hthere, by rw [hheader]; exact hlast⟩

/-! ## The drivers -/

/-- What `mwifiex_prog_fw_w_helper` does of these packets with every card. -/
def UsbInTurn (b : List UInt8) (packets : List (List UInt8)) : Prop :=
  ∀ ans, ∃ asks log code,
    mwifiexProgFwWHelper (some b) true true ans = (asks ++ log, .returned code) ∧
      ProgRun ans packets asks log code

theorem UsbGives.inTurn {b : List UInt8} {packets : List (List UInt8)} (h : UsbGives b packets) :
    UsbInTurn b packets := by
  obtain ⟨ps, hc, rfl⟩ := (usbGives_iff packets).mp h
  exact progLoop_run hc

/-- What the download of `if_usb.c` does of these packets, whatever comes in. -/
def IfUsbInTurn (bcdDevice : UInt16) (b : List UInt8) (packets : List (List UInt8)) : Prop :=
  ∀ (bootcmdresp : Int) (rs : List Reception), 0 < bootcmdresp →
    let s := rs.foldl (ifUsbReceiveFwload bcdDevice b) (.start b bootcmdresp)
    s.fault = false ∧ ∃ log x v, s.sent = log.map Prod.fst ++ [x] ∧
      s.heard = log.map Prod.snd ++ (if s.card.fwdnldover then [v] else []) ∧
      InTurn packets (log ++ [(x, v)])

theorem IfUsbGives.inTurn {bcdDevice : UInt16} {b : List UInt8} {packets : List (List UInt8)}
    (hb : b.length < 2 ^ 32) (h : IfUsbGives bcdDevice b packets) :
    IfUsbInTurn bcdDevice b packets := by
  obtain ⟨ps, hc, rfl⟩ := (ifUsbGives_iff hb packets).mp h
  intro bootcmdresp rs hboot
  obtain ⟨log, hlog⟩ := loading_run hb hc bcdDevice hboot rs
  obtain ⟨p, hp, hsent⟩ := hlog.sent
  obtain ⟨v, hheard⟩ := hlog.heard
  exact ⟨hlog.noFault, log, _, v, hsent, hheard, hlog.inTurn.snoc (packet_at hp) v⟩

/-- **The readers.** For every list of blocks, whatever stands behind the image, with fewer than
    2^32 bytes in all. A card that takes everything gets exactly these blocks from
    `mwifiex_prog_fw_w_helper`, which returns 0, if and only if none of them has the command of a
    last block or the one without data and all of them have at most 600 bytes; and from the download
    of `if_usb.c`, which ends without a fault, if and only if none has the command of a last block
    and all have at most 1554 bytes. Where that is so every card is given the blocks in turn. The
    check passes the image if and only if its first command that is not that of a data block is that
    of a last block. -/
theorem drivers_agree_iff (ds : List DataBlock) (entry : UInt32) (rest : List UInt8)
    (h : (encode ds entry ++ rest).length < 2 ^ 32) (bcdDevice : UInt16) (w : Nat) (hw : 32 ≤ w) :
    (UsbGives (encode ds entry ++ rest) (wire 1 ds entry) ↔
      ∀ d ∈ ds, d.dnldcmd ≠ fwHasLastBlock ∧ d.dnldcmd ≠ fwCmd7 ∧ d.data.length + 4 ≤ 600) ∧
    (UsbGives (encode ds entry ++ rest) (wire 1 ds entry) →
      UsbInTurn (encode ds entry ++ rest) (wire 1 ds entry)) ∧
    (IfUsbGives bcdDevice (encode ds entry ++ rest) (wire 0 ds entry) ↔
      ∀ d ∈ ds, d.dnldcmd ≠ fwHasLastBlock ∧ d.data.length + 4 ≤ 1554) ∧
    (IfUsbGives bcdDevice (encode ds entry ++ rest) (wire 0 ds entry) →
      IfUsbInTurn bcdDevice (encode ds entry ++ rest) (wire 0 ds entry)) ∧
    ((∃ n, checkFwfileFormat w (encode ds entry ++ rest) n = some (.returned 0)) ↔
      ChecksOk ds) := by
  refine ⟨?_, UsbGives.inTurn, ?_, IfUsbGives.inTurn h, ?_⟩
  · rw [usbGives_iff, reads_iff_packets usbReader_ignoresCrc usbReader_endsEmpty]
    exact forall₂_congr fun d _ => usbReader_reads_iff d
  · rw [ifUsbGives_iff h, reads_iff_packets ifUsbReader_ignoresCrc ifUsbReader_endsEmpty]
    exact forall₂_congr fun d _ => ifUsbReader_reads_iff d
  · exact (checkFrom_zero_iff hw h).trans (endsAt_encode_iff hw ds entry [] rest h)

/-- A block with the command of a last block: `spew` reads it, and the drivers end at it. -/
def lastLike : DataBlock := { oneByteBlock with dnldcmd := 4 }

/-- One driver gives its card a block as it is, the other one ends at a block that `spew` reads. -/
theorem drivers_agree_iff_commandFour :
    UsbGives (encode [oneByteBlock] 0 ++ []) (wire 1 [oneByteBlock] 0) ∧
      ¬ IfUsbGives 0x3106 (encode [lastLike] 0 ++ []) (wire 0 [lastLike] 0) := by
  constructor
  · refine (drivers_agree_iff [oneByteBlock] 0 [] (by decide) 0x3106 32 (by decide)).1.mpr ?_
    intro d hd
    rw [List.mem_singleton.mp hd]
    exact ⟨by decide, by decide, by decide⟩
  · intro hgives
    have hall := (drivers_agree_iff [lastLike] 0 [] (by decide) 0x3106 32 (by decide)).2.2.1.mp
      hgives
    exact (hall lastLike (List.mem_singleton_self _)).1 rfl

end Wifimon.Driver
