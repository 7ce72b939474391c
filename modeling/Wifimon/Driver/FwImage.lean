/-
  The firmware images of `doc/re/bin2elf.c`, as the USB drivers under `doc` read them.

  A driver goes from header to header and gives the card each block as a packet: the header, a
  sequence number, the data. It looks at two fields of the header only, and at no checksum. The
  drivers differ in the data that they take to be behind a header, and in the room for data in
  the buffer of the packet (`Reader`).

  `Chain`: the blocks from a position to the first one with the command of a last block.
  `chain_encode`: an image of the writer has such a chain, with the packets `wire`.
-/
import Wifimon.Firmware.Encode

namespace Wifimon.Driver

open ByteLib Firmware

/-! ## Blocks -/

/-- How many bytes of data a driver takes to be behind a header, and how many it has room for. -/
structure Reader where
  dlen : FwHeader → Nat
  room : Nat

variable (r : Reader) (b : List UInt8)

/-- The position behind the block at `pos`. -/
def Reader.next (pos : Nat) : Nat := pos + 16 + r.dlen (fwheader b pos)

/-- The header, the sequence number and the data, as the card gets them. -/
def Reader.packet (pos : Nat) (seqnum : UInt32) : List UInt8 :=
  load (ofList b) pos 16 ++
    (le 4 seqnum.toNat ++ load (ofList b) (pos + 16) (r.dlen (fwheader b pos)))

/-- The block at `pos` is in the image, and its data fit into the packet. -/
def Reader.Holds (pos : Nat) : Prop :=
  pos + 16 ≤ b.length ∧ r.dlen (fwheader b pos) ≤ r.room ∧ r.next b pos ≤ b.length

instance (pos : Nat) : Decidable (r.Holds b pos) := inferInstanceAs (Decidable (_ ∧ _ ∧ _))

/-- The blocks from a position to the first one with the command of a last block. -/
inductive Reader.Chain : Nat → List Nat → Prop where
  | last {pos : Nat} : r.Holds b pos → (fwheader b pos).dnldcmd = fwHasLastBlock → Chain pos [pos]
  | data {pos : Nat} {ps : List Nat} : r.Holds b pos →
      (fwheader b pos).dnldcmd ≠ fwHasLastBlock → Chain (r.next b pos) ps → Chain pos (pos :: ps)

/-- The packets of blocks, numbered from `seqnum` on. -/
def Reader.packets : UInt32 → List Nat → List (List UInt8)
  | _, [] => []
  | seqnum, p :: ps => r.packet b p seqnum :: Reader.packets (seqnum + 1) ps

variable {r b}

theorem Reader.Holds.lt {pos : Nat} (h : r.Holds b pos) : pos < r.next b pos ∧ pos < b.length := by
  obtain ⟨hpresent, -, -⟩ := h
  rw [Reader.next]
  omega

@[simp] theorem packets_length (seqnum : UInt32) (ps : List Nat) :
    (r.packets b seqnum ps).length = ps.length := by
  induction ps generalizing seqnum with
  | nil => rfl
  | cons p ps ih => rw [Reader.packets, List.length_cons, ih, List.length_cons]

theorem packets_getElem? (seqnum : UInt32) (ps : List Nat) (i : Nat) :
    (r.packets b seqnum ps)[i]? = ps[i]?.map fun p => r.packet b p (seqnum + UInt32.ofNat i) := by
  induction ps generalizing seqnum i with
  | nil => rfl
  | cons p ps ih =>
    cases i with
    | zero => simp [Reader.packets]
    | succ i =>
      have hnum : seqnum + 1 + UInt32.ofNat i = seqnum + UInt32.ofNat (i + 1) := by
        rw [UInt32.ofNat_add, UInt32.add_assoc, UInt32.add_comm 1]
        rfl
      rw [Reader.packets, List.getElem?_cons_succ, ih, hnum, List.getElem?_cons_succ]

/-- The positions of a chain: each block is there, the last one alone has the command of a last
    block, and each of the others has the next one behind it. -/
theorem Reader.Chain.block_at {pos : Nat} {ps : List Nat} (h : r.Chain b pos ps) :
    ps[0]? = some pos ∧ ∀ i p, ps[i]? = some p → r.Holds b p ∧
      ((fwheader b p).dnldcmd = fwHasLastBlock ↔ i + 1 = ps.length) ∧
      (i + 1 < ps.length → ps[i + 1]? = some (r.next b p)) := by
  induction h with
  | @last pos hholds hcommand =>
    refine ⟨rfl, fun i p hp => ?_⟩
    cases i with
    | zero =>
      cases hp
      exact ⟨hholds, iff_of_true hcommand rfl, fun hlt => absurd hlt (Nat.lt_irrefl _)⟩
    | succ i => cases hp
  | @data pos ps hholds hcommand hrest ih =>
    refine ⟨rfl, fun i p hp => ?_⟩
    cases i with
    | zero =>
      cases hp
      have hlen : ps ≠ [] := by cases hrest <;> exact List.cons_ne_nil _ _
      have hpos := List.length_pos_iff.mpr hlen
      refine ⟨hholds, iff_of_false hcommand ?_, fun _ => ih.1⟩
      rw [List.length_cons]
      omega
    | succ i =>
      obtain ⟨hp', hlast, hnext⟩ := ih.2 i p hp
      refine ⟨hp', hlast.trans Nat.succ_inj.symm, fun hlt => ?_⟩
      exact hnext (Nat.lt_of_succ_lt_succ hlt)

/-! ## Images of the writer -/

/-- The packets of the writer's blocks, and of the last block. -/
def wire : UInt32 → List DataBlock → UInt32 → List (List UInt8)
  | seqnum, [], entry => [lastBytes entry ++ le 4 seqnum.toNat]
  | seqnum, d :: ds, entry =>
    (headerBytes d.dnldcmd d.addr (UInt32.ofNat (d.data.length + 4)) ++
      (le 4 seqnum.toNat ++ withCrc d.data)) :: wire (seqnum + 1) ds entry

/-- The driver reads a block of the writer as it was written, and has room for it. -/
structure Reader.Reads (r : Reader) (d : DataBlock) : Prop where
  command : d.dnldcmd ≠ fwHasLastBlock
  dlen : ∀ crc, r.dlen ⟨d.dnldcmd, d.addr, UInt32.ofNat (d.data.length + 4), crc⟩ =
    d.data.length + 4
  room : d.data.length + 4 ≤ r.room

/-- The driver takes no data to be behind a last block. -/
def Reader.EndsEmpty (r : Reader) : Prop :=
  ∀ entry crc, r.dlen ⟨fwHasLastBlock, entry, 0, crc⟩ = 0

/-- A block of the writer that stands in the file. -/
theorem Reader.Reads.block {d : DataBlock} (h : r.Reads d) (pre post : List UInt8) :
    r.Holds (pre ++ (d.bytes ++ post)) pre.length ∧
      (fwheader (pre ++ (d.bytes ++ post)) pre.length).dnldcmd ≠ fwHasLastBlock ∧
      r.next (pre ++ (d.bytes ++ post)) pre.length = (pre ++ d.bytes).length ∧
      ∀ seqnum, r.packet (pre ++ (d.bytes ++ post)) pre.length seqnum =
        headerBytes d.dnldcmd d.addr (UInt32.ofNat (d.data.length + 4)) ++
          (le 4 seqnum.toNat ++ withCrc d.data) := by
  obtain ⟨crc, hheader, -⟩ := fwheader_headerBytes pre (withCrc d.data ++ post) d.dnldcmd d.addr
    (UInt32.ofNat (d.data.length + 4))
  have hload := load_ofList_middle pre (headerBytes d.dnldcmd d.addr
    (UInt32.ofNat (d.data.length + 4))) (withCrc d.data ++ post)
  have hbody := load_ofList_middle (pre ++ headerBytes d.dnldcmd d.addr
    (UInt32.ofNat (d.data.length + 4))) (withCrc d.data) post
  have hb : pre ++ (headerBytes d.dnldcmd d.addr (UInt32.ofNat (d.data.length + 4)) ++
      (withCrc d.data ++ post)) = pre ++ (d.bytes ++ post) := by
    rw [DataBlock.bytes, List.append_assoc]
  rw [List.append_assoc pre] at hbody
  rw [hb] at hheader hload hbody
  rw [List.length_append, headerBytes_length, withCrc_length] at hbody
  rw [headerBytes_length] at hload
  have hlen : (pre ++ (d.bytes ++ post)).length =
      pre.length + (16 + (d.data.length + 4)) + post.length := by
    rw [List.length_append, List.length_append, DataBlock.bytes_length]
    omega
  generalize pre ++ (d.bytes ++ post) = b at hheader hload hbody hlen
  have hdlen : r.dlen (fwheader b pre.length) = d.data.length + 4 := by
    rw [hheader]
    exact h.dlen crc
  have hroom := h.room
  refine ⟨⟨by omega, by omega, ?_⟩, ?_, ?_, fun seqnum => ?_⟩
  · rw [Reader.next, hdlen]
    omega
  · rw [hheader]
    exact h.command
  · rw [Reader.next, hdlen, List.length_append, DataBlock.bytes_length]
    omega
  · rw [Reader.packet, hdlen, hload, hbody]

theorem Reader.EndsEmpty.block (h : r.EndsEmpty) (entry : UInt32) (pre post : List UInt8) :
    r.Holds (pre ++ (lastBytes entry ++ post)) pre.length ∧
      (fwheader (pre ++ (lastBytes entry ++ post)) pre.length).dnldcmd = fwHasLastBlock ∧
      ∀ seqnum, r.packet (pre ++ (lastBytes entry ++ post)) pre.length seqnum =
        lastBytes entry ++ le 4 seqnum.toNat := by
  obtain ⟨crc, hheader, -⟩ := fwheader_headerBytes pre post fwHasLastBlock entry 0
  have hload := load_ofList_middle pre (lastBytes entry) post
  have hlen : (pre ++ (lastBytes entry ++ post)).length = pre.length + 16 + post.length := by
    rw [lastBytes, List.length_append, List.length_append, headerBytes_length]
    omega
  rw [lastBytes] at hload hlen ⊢
  rw [headerBytes_length] at hload
  generalize pre ++ (headerBytes fwHasLastBlock entry 0 ++ post) = b at hheader hload hlen
  have hdlen : r.dlen (fwheader b pre.length) = 0 := by
    rw [hheader]
    exact h entry crc
  refine ⟨⟨by omega, by omega, ?_⟩, ?_, fun seqnum => ?_⟩
  · rw [Reader.next, hdlen]
    omega
  · rw [hheader]
  · rw [Reader.packet, hdlen, hload]
    exact congrArg _ (List.append_nil _)

/-- **The packets.** What a driver gives the card of an image of the writer, wherever the image
    stands in the file. -/
theorem chain_encode (hlast : r.EndsEmpty) {ds : List DataBlock} (hds : ∀ d ∈ ds, r.Reads d)
    (entry : UInt32) (pre post : List UInt8) (seqnum : UInt32) :
    ∃ ps, r.Chain (pre ++ (encode ds entry ++ post)) pre.length ps ∧
      r.packets (pre ++ (encode ds entry ++ post)) seqnum ps = wire seqnum ds entry := by
  induction ds generalizing pre seqnum with
  | nil =>
    obtain ⟨hholds, hcommand, hpacket⟩ := hlast.block entry pre post
    exact ⟨[pre.length], .last hholds hcommand, congrArg (· :: []) (hpacket seqnum)⟩
  | cons d ds ih =>
    obtain ⟨hholds, hcommand, hnext, hpacket⟩ :=
      (hds d (List.mem_cons_self ..)).block pre (encode ds entry ++ post)
    obtain ⟨ps, hchain, hpackets⟩ := ih (fun e he => hds e (List.mem_cons_of_mem _ he))
      (pre ++ d.bytes) (seqnum + 1)
    rw [List.append_assoc, ← hnext] at hchain
    rw [List.append_assoc] at hpackets
    rw [encode_cons, List.append_assoc]
    refine ⟨pre.length :: ps, .data hholds hcommand hchain, ?_⟩
    rw [Reader.packets, hpacket, hpackets, wire]

end Wifimon.Driver
