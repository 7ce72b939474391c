/-
  What a pcap reader recovers from a capture file.

  `readPcap` skips the 24-byte file header and then reads records: a 16-byte header, whose bytes
  8..12 are `incl_len`, and `incl_len` bytes of payload. It succeeds only if the file ends at the
  end of a record.

  * `pcapWriteRaw_recovers`: a capture written by `pcap_write_raw` is read back.
  * `pcapWriteRt_recovers_iff`: a capture written by `pcap_write_rt` is read back if and only if
    it is empty. The record header counts the frame; the body is the radiotap header and the
    frame, so the reader is `it_len` bytes short after the first record.
-/
import Wifimon.Lib.Framing
import Wifimon.Kplugin.Pcap

namespace Wifimon.Pcap

open ByteLib FrameLib

/-! ## The reader -/

/-- `incl_len` of a record header. -/
def inclLenOf (hdr : List UInt8) : Nat := ofLe ((hdr.drop 8).take 4)

def readPcap (file : List UInt8) : Option (List (List UInt8)) :=
  if file.length < 24 then none else readRecords 16 inclLenOf (file.drop 24)

theorem inclLenOf_bytes (r : PcaprecHdr) : inclLenOf r.bytes = r.inclLen.toNat := by
  have hsplit : r.bytes = wordBytes [r.tsSec, r.tsUsec] ++
      (le 4 r.inclLen.toNat ++ le 4 r.origLen.toNat) := by
    simp [PcaprecHdr.bytes, wordBytes]
  rw [inclLenOf, hsplit, List.drop_left' (by simp), List.take_left' (by simp), ofLe_le_four]

theorem readPcap_hdr (recs : List UInt8) :
    readPcap (pcapHdrBytes ++ recs) = readRecords 16 inclLenOf recs := by
  rw [readPcap, if_neg (by simp), List.drop_left' (by simp)]

theorem toNat_ofNat_length {bs : List UInt8} (h : bs.length < 2 ^ 32) :
    (UInt32.ofNat bs.length).toNat = bs.length :=
  UInt32.toNat_ofNat_of_lt' h

/-! ## `pcap_write_raw` -/

/-- A call of `pcap_write_raw` whose writes store everything. -/
structure RawCall where
  buf : List UInt8
  ans : RawAns
  fits : buf.length < 2 ^ 32
  hdrStored : ans.hdr.Full 16
  bodyStored : ans.body.Full buf.length

def RawCall.bufLen (c : RawCall) : UInt32 := UInt32.ofNat c.buf.length

theorem RawCall.toNat_bufLen (c : RawCall) : c.bufLen.toNat = c.buf.length :=
  toNat_ofNat_length c.fits

def RawCall.run (s : PcapState) (c : RawCall) : PcapState :=
  (pcapWriteRaw c.buf c.bufLen c.ans s).2

theorem rawCalls_disk {file : String} (calls : List RawCall) {s : PcapState}
    (h : OpenOn s file) :
    (calls.foldl RawCall.run s).io.disk file =
      s.io.disk file ++ calls.flatMap fun c => (recHeader c.ans.tv c.bufLen).bytes ++ c.buf := by
  induction calls generalizing s with
  | nil => simp
  | cons c calls ih =>
    obtain ⟨-, hopen, hdisk⟩ := pcapWriteRaw_success h c.toNat_bufLen
      c.hdrStored c.bodyStored
    rw [List.foldl_cons, RawCall.run, ih hopen, hdisk, List.flatMap_cons, List.append_assoc]

/-- A capture of `pcap_write_raw` calls is read back, buffer by buffer. -/
theorem pcapWriteRaw_recovers {file : String} {a : OpenAns} (hfd : 0 ≤ a.fd)
    (hhdr : a.hdr.Full 24) (s : PcapState) (calls : List RawCall) :
    readPcap ((calls.foldl RawCall.run (pcapOpen file a s).2).io.disk file) =
      some (calls.map RawCall.buf) := by
  obtain ⟨-, hopen, hdisk⟩ := pcapOpen_success file s hfd hhdr
  rw [rawCalls_disk calls hopen, hdisk, readPcap_hdr]
  refine readRecords_flatMap (by decide) _ _ calls (fun c _ => by simp) fun c _ => ?_
  rw [inclLenOf_bytes, recHeader, c.toNat_bufLen]

/-! ## `pcap_write_rt` -/

/-- A call of `pcap_write_rt` on a captured frame: `it_len` is the true length of the radiotap
    header, the lengths fit in 32 bits, and the writes store everything. -/
structure RtCall where
  rtap : RadiotapHeader
  frame : List UInt8
  ans : RtAns
  itLenTrue : rtap.itLen.toNat = rtap.bytes.length
  fits : rtap.itLen.toNat + frame.length < 2 ^ 32
  hdrStored : ans.hdr.Full 16
  rtapStored : ans.rtap.Full rtap.bytes.length
  bodyStored : ans.body.Full frame.length

def RtCall.bufLen (c : RtCall) : UInt32 := UInt32.ofNat c.frame.length

def RtCall.run (s : PcapState) (c : RtCall) : PcapState :=
  (pcapWriteRt c.rtap c.frame c.bufLen c.ans s).2

/-- What the record of the call should carry: the radiotap header, then the frame. -/
def RtCall.payload (c : RtCall) : List UInt8 := c.rtap.bytes ++ c.frame

theorem RtCall.toNat_bufLen (c : RtCall) : c.bufLen.toNat = c.frame.length :=
  toNat_ofNat_length (by have := c.fits; omega)

theorem rtCalls_disk {file : String} (calls : List RtCall) {s : PcapState} (h : OpenOn s file) :
    (calls.foldl RtCall.run s).io.disk file =
      s.io.disk file ++
        calls.flatMap fun c => (recHeader c.ans.tv c.bufLen).bytes ++ c.payload := by
  induction calls generalizing s with
  | nil => simp
  | cons c calls ih =>
    obtain ⟨-, hopen, hdisk⟩ := pcapWriteRt_success h c.itLenTrue
      c.toNat_bufLen c.hdrStored c.rtapStored c.bodyStored
    rw [List.foldl_cons, RtCall.run, ih hopen, hdisk, List.flatMap_cons, List.append_assoc,
      RtCall.payload]

/-- The first record of a radiotap capture is never read back: its declared length leaves the
    radiotap header out. -/
theorem readRecords_rt_ne (c : RtCall) (calls : List RtCall) :
    readRecords 16 inclLenOf ((c :: calls).flatMap fun c =>
      (recHeader c.ans.tv c.bufLen).bytes ++ c.payload) ≠
        some ((c :: calls).map RtCall.payload) := by
  intro h
  rw [List.flatMap_cons, List.append_assoc, List.map_cons] at h
  have hlen := readRecords_head (by decide) (PcaprecHdr.bytes_length _) h
  have hincl : inclLenOf (recHeader c.ans.tv c.bufLen).bytes = c.frame.length := by
    rw [inclLenOf_bytes, recHeader, c.toNat_bufLen]
  rw [hincl, RtCall.payload, List.length_append, RadiotapHeader.bytes_length] at hlen
  omega

theorem readPcap_rt {file : String} {a : OpenAns} (hfd : 0 ≤ a.fd) (hhdr : a.hdr.Full 24)
    (s : PcapState) (calls : List RtCall) :
    readPcap ((calls.foldl RtCall.run (pcapOpen file a s).2).io.disk file) =
      readRecords 16 inclLenOf
        (calls.flatMap fun c => (recHeader c.ans.tv c.bufLen).bytes ++ c.payload) := by
  obtain ⟨-, hopen, hdisk⟩ := pcapOpen_success file s hfd hhdr
  rw [rtCalls_disk calls hopen, hdisk, readPcap_hdr]

/-- **Radiotap captures.** After a successful `pcap_open` and any list of `pcap_write_rt` calls
    whose writes all store everything, the reader consumes the file and recovers the list if
    and only if the list is empty. -/
theorem pcapWriteRt_recovers_iff {file : String} {a : OpenAns} (hfd : 0 ≤ a.fd)
    (hhdr : a.hdr.Full 24) (s : PcapState) (calls : List RtCall) :
    readPcap ((calls.foldl RtCall.run (pcapOpen file a s).2).io.disk file) =
        some (calls.map RtCall.payload) ↔ calls = [] := by
  rw [readPcap_rt hfd hhdr]
  cases calls with
  | nil => simp
  | cons c calls => simpa using readRecords_rt_ne c calls

/-- A minimal radiotap header (`it_len = 8`) in front of a one-byte frame. -/
def ackFrame : RtCall where
  rtap := ⟨0, 0, 8, 0, []⟩
  frame := [0xd4]
  ans := ⟨⟨0, 0⟩, ⟨16, 16⟩, ⟨8, 8⟩, ⟨1, 1⟩⟩
  itLenTrue := by decide
  fits := by decide
  hdrStored := by decide
  rtapStored := by decide
  bodyStored := by decide

theorem pcapWriteRt_recovers_iff_ackFrame :
    readPcap (([ackFrame].foldl RtCall.run (pcapOpen "ux0:/data/test.cap" ⟨3, ⟨24, 24⟩⟩
        (.start fun _ => [])).2).io.disk "ux0:/data/test.cap") =
      some ([ackFrame].map RtCall.payload) ↔ [ackFrame] = [] :=
  pcapWriteRt_recovers_iff (by decide) (by decide) _ _

/-- The capture of one such frame is not read back. -/
theorem ackFrame_not_recovered :
    readPcap (([ackFrame].foldl RtCall.run (pcapOpen "ux0:/data/test.cap" ⟨3, ⟨24, 24⟩⟩
        (.start fun _ => [])).2).io.disk "ux0:/data/test.cap") ≠
      some ([ackFrame].map RtCall.payload) := by
  rw [readPcap_rt (by decide) (by decide)]
  exact readRecords_rt_ne ackFrame []

end Wifimon.Pcap
