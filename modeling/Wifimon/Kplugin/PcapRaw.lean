/-
  `pcap_write_raw` over writes that fail or stop short.

  * `rawCapture`: if every write stores all of its bytes or fails and stores nothing (`whole`),
    the capture file is the file header, the records of the calls that returned 0 while it was
    open, and at most the record header of the first call that failed; from that call on nothing
    is written. A reader gets those buffers back, and one empty record more exactly where the
    call that failed had nothing to store behind its header.
  * `storedPackets_iff`: if a write may store less than it was asked to and says so in its result
    (`Counted`), a result of 0 means a complete header or record along a whole run if and only if
    no write stops short: the source looks at the sign of the result only.
-/
import Wifimon.Kplugin.Module
import Wifimon.Kplugin.PcapFraming

namespace Wifimon.Pcap

open ByteLib FrameLib RunLib Kplugin

/-! ## One call -/

/-- With no capture open a call does nothing and returns 0. -/
theorem pcapWriteRaw_closed {s : PcapState} (h : s.pcapFd < 0) (buf : List UInt8)
    (bufLen : UInt32) (a : RawAns) : pcapWriteRaw buf bufLen a s = (0, s) :=
  if_pos h

/-- A call that fails closes the capture. -/
theorem pcapWriteRaw_failed {s : PcapState} {buf : List UInt8} {bufLen : UInt32} {a : RawAns}
    (h : (pcapWriteRaw buf bufLen a s).1 < 0) : (pcapWriteRaw buf bufLen a s).2.pcapFd < 0 := by
  unfold pcapWriteRaw at h ⊢
  by_cases hfd : s.pcapFd < 0
  · rw [if_pos hfd]
    exact hfd
  · rw [if_neg hfd] at h ⊢
    dsimp only at h ⊢
    by_cases hhdr : a.hdr.ret < 0
    · rw [if_pos hhdr]
      exact pcapClose_fd _
    · rw [if_neg hhdr] at h ⊢
      by_cases hbody : a.body.ret < 0
      · rw [if_pos hbody]
        exact pcapClose_fd _
      · rw [if_neg hbody] at h
        exact absurd h (Int.lt_irrefl 0)

/-! ## Writes that store everything or nothing -/

/-- The answer to a write of `n` bytes that returns `ret`. -/
def whole (n : Nat) (ret : Int) : WriteAns := ⟨ret, if 0 ≤ ret then n else 0⟩

/-- A call of `pcap_write_raw`, and what its two writes return. -/
structure RawWrite where
  buf : List UInt8
  tv : Timeval
  hdrRet : Int
  bodyRet : Int
  fits : buf.length < 2 ^ 32

namespace RawWrite

variable (c : RawWrite)

def bufLen : UInt32 := UInt32.ofNat c.buf.length

def ans : RawAns := ⟨c.tv, whole 16 c.hdrRet, whole c.buf.length c.bodyRet⟩

/-- The record header of the call. -/
def header : List UInt8 := (recHeader c.tv c.bufLen).bytes

/-- The encoding of the buffer. -/
def record : List UInt8 := c.header ++ c.buf

def ret (s : PcapState) : Int := (pcapWriteRaw c.buf c.bufLen c.ans s).1

def step (s : PcapState) (c : RawWrite) : PcapState := (pcapWriteRaw c.buf c.bufLen c.ans s).2

/-- The calls that return 0 while the capture is open. -/
def kept (s : PcapState) : List RawWrite → List RawWrite
  | [] => []
  | c :: cs =>
    if 0 ≤ s.pcapFd ∧ c.ret s = 0 then c :: kept (c.step s) cs else kept (c.step s) cs

/-- The first call that fails. -/
def failing (s : PcapState) : List RawWrite → Option RawWrite
  | [] => none
  | c :: cs => if c.ret s < 0 then some c else failing (c.step s) cs

/-- The record header that the first call that fails leaves: its body is missing. -/
def dangling (s : PcapState) (cs : List RawWrite) : List UInt8 :=
  match failing s cs with
  | some c => if 0 ≤ c.hdrRet then c.header else []
  | none => []

/-- The call that fails has stored its header, and has nothing more to store. -/
def EmptyBody (s : PcapState) (cs : List RawWrite) : Prop :=
  ∃ c, failing s cs = some c ∧ 0 ≤ c.hdrRet ∧ c.buf = []

theorem toNat_bufLen : c.bufLen.toNat = c.buf.length := toNat_ofNat_length c.fits

@[simp] theorem header_length : c.header.length = 16 := PcaprecHdr.bytes_length _

theorem inclLenOf_header : inclLenOf c.header = c.buf.length := by
  unfold header
  rw [inclLenOf_bytes, recHeader, c.toNat_bufLen]

/-- What a call does to an open capture. -/
theorem step_open {s : PcapState} {file : String} (h : OpenOn s file) :
    (0 ≤ c.hdrRet ∧ 0 ≤ c.bodyRet ∧ c.ret s = 0 ∧ OpenOn (c.step s) file ∧
        (c.step s).io.disk file = s.io.disk file ++ c.record) ∨
      c.ret s < 0 ∧ (c.step s).pcapFd < 0 ∧
        (c.step s).io.disk file =
          s.io.disk file ++ if 0 ≤ c.hdrRet then c.header else [] := by
  have hcall := pcapWriteRaw_open h c.toNat_bufLen c.ans
  have hdisk : (c.step s).io.disk file = s.io.disk file ++
      (c.header.take (if 0 ≤ c.hdrRet then 16 else 0) ++ if 0 ≤ c.hdrRet then
        c.buf.take (if 0 ≤ c.bodyRet then c.buf.length else 0) else []) := hcall.1
  have hok : 0 ≤ c.hdrRet ∧ 0 ≤ c.bodyRet → c.ret s = 0 ∧ OpenOn (c.step s) file := hcall.2.1
  have hfail : ¬ (0 ≤ c.hdrRet ∧ 0 ≤ c.bodyRet) → c.ret s = -1 ∧ (c.step s).pcapFd < 0 :=
    hcall.2.2
  have hhdr : c.header.take 16 = c.header := List.take_of_length_le (by simp)
  by_cases h1 : 0 ≤ c.hdrRet
  · rw [if_pos h1, if_pos h1, hhdr] at hdisk
    by_cases h2 : 0 ≤ c.bodyRet
    · rw [if_pos h2, List.take_length] at hdisk
      obtain ⟨hret, hopen⟩ := hok ⟨h1, h2⟩
      exact Or.inl ⟨h1, h2, hret, hopen, hdisk⟩
    · rw [if_neg h2, List.take_zero, List.append_nil] at hdisk
      obtain ⟨hret, hclosed⟩ := hfail fun hy => h2 hy.2
      rw [if_pos h1]
      exact Or.inr ⟨by omega, hclosed, hdisk⟩
  · rw [if_neg h1, if_neg h1, List.take_zero, List.append_nil] at hdisk
    obtain ⟨hret, hclosed⟩ := hfail fun hy => h1 hy.1
    rw [if_neg h1]
    exact Or.inr ⟨by omega, hclosed, hdisk⟩

theorem step_closed {s : PcapState} (h : s.pcapFd < 0) : c.step s = s ∧ c.ret s = 0 := by
  unfold step ret
  rw [pcapWriteRaw_closed h]
  exact ⟨rfl, rfl⟩

/-- Calls with no capture open change nothing. -/
theorem run_closed {s : PcapState} (h : s.pcapFd < 0) (cs : List RawWrite) :
    cs.foldl step s = s ∧ kept s cs = [] ∧ failing s cs = none := by
  induction cs with
  | nil => exact ⟨rfl, rfl, rfl⟩
  | cons c cs ih =>
    obtain ⟨hstep, hret⟩ := c.step_closed h
    rw [List.foldl_cons, kept, failing, hstep, hret, if_neg fun ha => absurd ha.1 (by omega),
      if_neg (Int.lt_irrefl 0)]
    exact ih

/-- The contents of a capture that is open at first. -/
theorem run_disk {s : PcapState} {file : String} (h : OpenOn s file) (cs : List RawWrite) :
    (cs.foldl step s).io.disk file =
      s.io.disk file ++ (kept s cs).flatMap record ++ dangling s cs := by
  induction cs generalizing s with
  | nil => simp [kept, dangling, failing]
  | cons c cs ih =>
    unfold dangling
    rw [List.foldl_cons, kept, failing]
    obtain ⟨-, -, hret, hopen, hdisk⟩ | ⟨hret, hclosed, hdisk⟩ := c.step_open h
    · rw [if_pos ⟨h.nonneg, hret⟩, if_neg (by omega), ih hopen, hdisk, List.flatMap_cons,
        List.append_assoc (s.io.disk file)]
      rfl
    · obtain ⟨hrun, hkept, -⟩ := run_closed hclosed cs
      rw [if_neg fun ha => absurd ha.2 (by omega), if_pos hret, hrun, hdisk, hkept,
        List.flatMap_nil, List.append_nil]

end RawWrite

/-! ## The capture file -/

/-- The buffers a reader gets from a capture file as far as there are complete records, and what
    is left. -/
def scanPcap (file : List UInt8) : List (List UInt8) × List UInt8 :=
  scanRecords 16 inclLenOf (file.drop 24)

theorem scanPcap_hdr (recs : List UInt8) :
    scanPcap (pcapHdrBytes ++ recs) = scanRecords 16 inclLenOf recs := by
  unfold scanPcap
  rw [List.drop_left' pcapHdrBytes_length]

/-- A record header with nothing behind it is a complete record only if it announces nothing. -/
theorem scan_header (c : RawWrite) :
    (scanRecords 16 inclLenOf c.header).1 = if c.buf = [] then [[]] else [] := by
  by_cases hbuf : c.buf = []
  · rw [if_pos hbuf]
    have hincl : inclLenOf c.header = ([] : List UInt8).length := by
      rw [c.inclLenOf_header, hbuf]
    have hcons := scanRecords_cons (by decide) c.header_length hincl []
    rw [List.append_nil, List.append_nil] at hcons
    rw [hcons]
    rfl
  · rw [if_neg hbuf]
    have hpos : 0 < c.buf.length := List.length_pos_iff.mpr hbuf
    have hnone : firstRecord 16 inclLenOf c.header = none := by
      unfold firstRecord
      have hall : c.header.take 16 = c.header := List.take_of_length_le (by simp)
      rw [if_neg (by simp), hall, c.inclLenOf_header]
      dsimp only
      rw [if_pos (by simp; omega)]
    rw [scanRecords_of_none hnone]

/-- What a reader takes for a record behind the complete ones. -/
theorem scan_dangling (s : PcapState) (cs : List RawWrite) :
    (RawWrite.EmptyBody s cs → (scanRecords 16 inclLenOf (RawWrite.dangling s cs)).1 = [[]]) ∧
      (¬ RawWrite.EmptyBody s cs →
        (scanRecords 16 inclLenOf (RawWrite.dangling s cs)).1 = []) := by
  unfold RawWrite.EmptyBody RawWrite.dangling
  constructor
  · rintro ⟨c, hc, hret, hbuf⟩
    rw [hc]
    dsimp only
    rw [if_pos hret, scan_header, if_pos hbuf]
  · intro hno
    cases hf : RawWrite.failing s cs with
    | none => rfl
    | some c =>
      dsimp only
      by_cases hret : 0 ≤ c.hdrRet
      · rw [if_pos hret, scan_header, if_neg fun hbuf => hno ⟨c, hf, hret, hbuf⟩]
      · rw [if_neg hret]
        rfl

/-- What the calls `cs` make of a capture that was just opened. -/
structure RawCapture (file : String) (s : PcapState) (cs : List RawWrite) : Prop where
  contents : (cs.foldl RawWrite.step s).io.disk file =
    pcapHdrBytes ++ (RawWrite.kept s cs).flatMap RawWrite.record ++ RawWrite.dangling s cs
  read : ¬ RawWrite.EmptyBody s cs → (scanPcap ((cs.foldl RawWrite.step s).io.disk file)).1 =
    (RawWrite.kept s cs).map RawWrite.buf
  readEmpty : RawWrite.EmptyBody s cs →
    (scanPcap ((cs.foldl RawWrite.step s).io.disk file)).1 =
      (RawWrite.kept s cs).map RawWrite.buf ++ [[]]
  /-- A call that fails is the last one that writes, to any file. -/
  silent : ∀ pre c post, cs = pre ++ c :: post → c.ret (pre.foldl RawWrite.step s) < 0 →
    (cs.foldl RawWrite.step s).io.disk = ((pre ++ [c]).foldl RawWrite.step s).io.disk

/-- **Raw captures.** After a successful `pcap_open` and any calls of `pcap_write_raw`, where
    every write stores all its bytes or fails and stores nothing. -/
theorem rawCapture (file : String) (fd hdrRet : Int) (s : PcapState)
    (hopen : (pcapOpen file ⟨fd, whole 24 hdrRet⟩ s).1 = 0) (cs : List RawWrite) :
    RawCapture file (pcapOpen file ⟨fd, whole 24 hdrRet⟩ s).2 cs := by
  obtain ⟨hfd, hret⟩ := (pcapOpen_ret _ _ _).mp hopen
  have hfull : (whole 24 hdrRet).Full 24 := ⟨hret, if_pos hret⟩
  obtain ⟨-, hon, hhdr⟩ := pcapOpen_success file s hfd hfull
  have hdisk := RawWrite.run_disk hon cs
  rw [hhdr, List.append_assoc] at hdisk
  have hscan := scanRecords_flatMap (by decide) RawWrite.header RawWrite.buf
    (RawWrite.kept (pcapOpen file ⟨fd, whole 24 hdrRet⟩ s).2 cs)
    (fun c _ => c.header_length) (fun c _ => c.inclLenOf_header)
    (RawWrite.dangling (pcapOpen file ⟨fd, whole 24 hdrRet⟩ s).2 cs)
  obtain ⟨hempty, hnone⟩ := scan_dangling (pcapOpen file ⟨fd, whole 24 hdrRet⟩ s).2 cs
  refine ⟨?_, ?_, ?_, ?_⟩
  · rw [List.append_assoc]
    exact hdisk
  · intro hno
    rw [hdisk, scanPcap_hdr]
    refine (congrArg Prod.fst hscan).trans ?_
    dsimp only
    rw [hnone hno, List.append_nil]
  · intro hyes
    rw [hdisk, scanPcap_hdr]
    refine (congrArg Prod.fst hscan).trans ?_
    dsimp only
    rw [hempty hyes]
  · rintro pre c post rfl hfail
    have hclosed : (c.step (pre.foldl RawWrite.step _)).pcapFd < 0 := pcapWriteRaw_failed hfail
    rw [List.foldl_append, List.foldl_cons, (RawWrite.run_closed hclosed post).1,
      List.foldl_append]
    rfl

/-- A packet of one byte that is stored, and one whose body fails. -/
def tornWrites : List RawWrite :=
  [⟨[0xd4], ⟨0, 0⟩, 16, 1, by decide⟩, ⟨[0xd4], ⟨0, 0⟩, 16, -1, by decide⟩]

theorem rawCapture_torn : RawCapture "ux0:/data/test.cap"
    (pcapOpen "ux0:/data/test.cap" ⟨3, whole 24 24⟩ (.start fun _ => [])).2 tornWrites :=
  rawCapture "ux0:/data/test.cap" 3 24 (.start fun _ => []) (by decide) tornWrites

/-- A buffer of no bytes whose empty body fails. -/
def emptyWrite : RawWrite := ⟨[], ⟨0, 0⟩, 16, -1, by decide⟩

/-- It is read back all the same. -/
theorem emptyWrite_read :
    (scanPcap (([emptyWrite].foldl RawWrite.step (pcapOpen "ux0:/data/test.cap"
        ⟨3, whole 24 24⟩ (.start fun _ => [])).2).io.disk "ux0:/data/test.cap")).1 ≠
      (RawWrite.kept (pcapOpen "ux0:/data/test.cap" ⟨3, whole 24 24⟩ (.start fun _ => [])).2
        [emptyWrite]).map RawWrite.buf := by
  decide

/-! ## Writes that stop short -/

/-- The result of a write of `n` bytes that stores as many leading bytes as it returns. -/
structure Counted (n : Nat) where
  ret : Int
  le : ret ≤ n

def Counted.ans {n : Nat} (r : Counted n) : WriteAns := ⟨r.ret, r.ret.toNat⟩

/-- A call of `pcap_write_raw`, and what its two writes return. -/
structure CountedWrite where
  buf : List UInt8
  tv : Timeval
  hdr : Counted 16
  body : Counted buf.length
  fits : buf.length < 2 ^ 32

def CountedWrite.bufLen (c : CountedWrite) : UInt32 := UInt32.ofNat c.buf.length

def CountedWrite.header (c : CountedWrite) : List UInt8 := (recHeader c.tv c.bufLen).bytes

def CountedWrite.ans (c : CountedWrite) : RawAns := ⟨c.tv, c.hdr.ans, c.body.ans⟩

theorem CountedWrite.toNat_bufLen (c : CountedWrite) : c.bufLen.toNat = c.buf.length :=
  toNat_ofNat_length c.fits

@[simp] theorem CountedWrite.header_length (c : CountedWrite) : c.header.length = 16 :=
  PcaprecHdr.bytes_length _

inductive RawOp where
  | openFile (file : String) (fd : Int) (hdr : Counted 24)
  | write (c : CountedWrite)

def RawOp.exec (s : PcapState) : RawOp → Int × PcapState
  | .openFile file fd hdr => pcapOpen file ⟨fd, hdr.ans⟩ s
  | .write c => pcapWriteRaw c.buf c.bufLen c.ans s

def RawOp.run (s : PcapState) (op : RawOp) : PcapState := (op.exec s).2

/-- A result of 0 says what is in the file: the whole header, or one complete record more. -/
def StoredWhole (s : PcapState) (op : RawOp) : Prop :=
  (op.exec s).1 = 0 →
    match op with
    | .openFile file _ _ => (op.run s).io.disk file = pcapHdrBytes
    | .write c => ∀ file, OpenOn s file →
        (op.run s).io.disk file = s.io.disk file ++ (c.header ++ c.buf)

/-- The open capture is read record by record to its end. -/
def Decodable (s : PcapState) : Prop :=
  ∀ file, OpenOn s file → ∃ bufs, readPcap (s.io.disk file) = some bufs

/-- No write that reports success stops short. -/
def NoShortWrite (s : PcapState) : RawOp → Prop
  | .openFile _ fd hdr => 0 ≤ fd → 0 ≤ hdr.ret → hdr.ret = 24
  | .write c => 0 ≤ s.pcapFd → 0 ≤ c.hdr.ret → 0 ≤ c.body.ret →
      c.hdr.ret = 16 ∧ c.body.ret = c.buf.length

/-- What was stored is everything if and only if the counts are the lengths. -/
theorem take_append_take_eq_iff (as bs : List UInt8) {n m : Nat} (hn : n ≤ as.length)
    (hm : m ≤ bs.length) :
    as.take n ++ bs.take m = as ++ bs ↔ n = as.length ∧ m = bs.length := by
  constructor
  · intro h
    have hlen := congrArg List.length h
    rw [List.length_append, List.length_append, List.length_take, List.length_take,
      Nat.min_eq_left hn, Nat.min_eq_left hm] at hlen
    omega
  · rintro ⟨rfl, rfl⟩
    rw [List.take_length, List.take_length]

theorem openFile_whole_iff (s : PcapState) (file : String) (fd : Int) (hdr : Counted 24) :
    StoredWhole s (.openFile file fd hdr) ↔ NoShortWrite s (.openFile file fd hdr) := by
  have hret := pcapOpen_ret file ⟨fd, hdr.ans⟩ s
  unfold StoredWhole NoShortWrite RawOp.run RawOp.exec
  dsimp only
  rw [hret, and_imp]
  refine imp_congr_right fun hfd => imp_congr_right fun hok => ?_
  obtain ⟨-, -, hdisk⟩ := pcapOpen_stored file s hfd hok
  have htake := take_append_take_eq_iff pcapHdrBytes [] (n := hdr.ret.toNat) (m := 0)
    (by have := hdr.le; rw [pcapHdrBytes_length]; omega) (Nat.le_refl _)
  rw [List.take_nil, List.append_nil, List.append_nil, pcapHdrBytes_length] at htake
  rw [hdisk]
  refine htake.trans ⟨fun h => ?_, fun h => ⟨?_, rfl⟩⟩
  · have hnat := h.1
    have hnonneg : 0 ≤ hdr.ret := hok
    omega
  · rw [h]
    rfl

theorem write_whole_iff {s : PcapState} (hwf : PcapWf s) (c : CountedWrite) :
    StoredWhole s (.write c) ↔ NoShortWrite s (.write c) := by
  unfold StoredWhole NoShortWrite
  by_cases hfd : 0 ≤ s.pcapFd
  · obtain ⟨file, hopen⟩ := hwf hfd
    obtain ⟨hdisk, hok, hfail⟩ := pcapWriteRaw_open hopen c.toNat_bufLen c.ans
    by_cases hpos : 0 ≤ c.hdr.ret ∧ 0 ≤ c.body.ret
    · have hlen := take_append_take_eq_iff c.header c.buf (n := c.hdr.ret.toNat)
        (m := c.body.ret.toNat) (by have := c.hdr.le; rw [c.header_length]; omega)
        (by have := c.body.le; omega)
      have hstored : (RawOp.run s (.write c)).io.disk file =
          s.io.disk file ++ (c.header.take c.hdr.ret.toNat ++ c.buf.take c.body.ret.toNat) := by
        refine hdisk.trans ?_
        rw [if_pos (show 0 ≤ c.ans.hdr.ret from hpos.1)]
        rfl
      rw [c.header_length] at hlen
      constructor
      · intro h _ _ _
        have hall := h (hok hpos).1 file hopen
        rw [hstored, List.append_cancel_left_eq, hlen] at hall
        omega
      · intro h _ file' hopen'
        obtain ⟨h16, hbody⟩ := h hfd hpos.1 hpos.2
        obtain rfl : file' = file :=
          Option.some.inj (hopen'.handle.symm.trans hopen.handle)
        rw [hstored, hlen.mpr (by omega)]
    · have hret : (RawOp.exec s (.write c)).1 = -1 := (hfail hpos).1
      rw [hret]
      exact iff_of_true (fun h => absurd h (by decide)) fun _ h1 h2 => absurd ⟨h1, h2⟩ hpos
  · exact iff_of_true (fun _ file hopen => absurd hopen.nonneg hfd) fun h => absurd h hfd

theorem rawOp_wf {s : PcapState} (h : PcapWf s) (op : RawOp) : PcapWf (op.run s) := by
  cases op with
  | openFile file fd hdr => exact (pcapOpen_fd file ⟨fd, hdr.ans⟩ s).1
  | write c =>
    show PcapWf (pcapWriteRaw c.buf c.bufLen c.ans s).2
    by_cases hfd : 0 ≤ s.pcapFd
    · obtain ⟨file, hopen⟩ := h hfd
      obtain ⟨-, hok, hfail⟩ := pcapWriteRaw_open hopen c.toNat_bufLen c.ans
      by_cases hpos : 0 ≤ c.ans.hdr.ret ∧ 0 ≤ c.ans.body.ret
      · exact fun _ => ⟨file, (hok hpos).2⟩
      · exact pcapWf_of_neg (hfail hpos).2
    · rw [pcapWriteRaw_closed (Int.not_le.mp hfd)]
      exact h

/-- The open capture is a file header and complete records. -/
def RecordsOn (s : PcapState) : Prop :=
  ∀ file, OpenOn s file → ∃ cs : List CountedWrite,
    s.io.disk file = pcapHdrBytes ++ cs.flatMap fun c => c.header ++ c.buf

theorem RecordsOn.decodable {s : PcapState} (h : RecordsOn s) : Decodable s := by
  intro file hopen
  obtain ⟨cs, hcs⟩ := h file hopen
  refine ⟨cs.map CountedWrite.buf, ?_⟩
  rw [hcs, readPcap_hdr]
  refine readRecords_flatMap (by decide) _ _ cs (fun c _ => c.header_length) fun c _ => ?_
  unfold CountedWrite.header
  rw [inclLenOf_bytes, recHeader, c.toNat_bufLen]

theorem openFile_records {s : PcapState} {file : String} {fd : Int} {hdr : Counted 24}
    (hns : NoShortWrite s (.openFile file fd hdr)) :
    RecordsOn (RawOp.run s (.openFile file fd hdr)) := by
  intro file' hopen'
  have hret : (pcapOpen file ⟨fd, hdr.ans⟩ s).1 = 0 :=
    (pcapOpen_fd file ⟨fd, hdr.ans⟩ s).2.mp hopen'.nonneg
  obtain ⟨hfd, hok⟩ := (pcapOpen_ret _ _ _).mp hret
  obtain ⟨-, hopen, -⟩ := pcapOpen_stored file s hfd hok
  obtain rfl : file' = file := Option.some.inj (hopen'.handle.symm.trans hopen.handle)
  refine ⟨[], ?_⟩
  rw [List.flatMap_nil, List.append_nil]
  exact (openFile_whole_iff s file' fd hdr).mpr hns hret

theorem write_records {s : PcapState} (hwf : PcapWf s) (hrec : RecordsOn s) {c : CountedWrite}
    (hns : NoShortWrite s (.write c)) : RecordsOn (RawOp.run s (.write c)) := by
  by_cases hfd : 0 ≤ s.pcapFd
  · obtain ⟨file, hopen⟩ := hwf hfd
    obtain ⟨-, hok, hfail⟩ := pcapWriteRaw_open hopen c.toNat_bufLen c.ans
    by_cases hpos : 0 ≤ c.ans.hdr.ret ∧ 0 ≤ c.ans.body.ret
    · obtain ⟨hret, hstill⟩ := hok hpos
      intro file' hopen'
      obtain rfl : file' = file := Option.some.inj (hopen'.handle.symm.trans hstill.handle)
      obtain ⟨cs, hcs⟩ := hrec file' hopen
      refine ⟨cs ++ [c], ?_⟩
      have hwhole : (RawOp.run s (.write c)).io.disk file' =
          s.io.disk file' ++ (c.header ++ c.buf) :=
        (write_whole_iff hwf c).mpr hns hret file' hopen
      rw [hwhole, hcs, List.flatMap_append, List.append_assoc]
      simp
    · have hclosed : (RawOp.run s (.write c)).pcapFd < 0 := (hfail hpos).2
      intro file' hopen'
      exact absurd hopen'.nonneg (Int.not_le.mpr hclosed)
  · have hrun : RawOp.run s (.write c) = s := by
      unfold RawOp.run RawOp.exec
      dsimp only
      rw [pcapWriteRaw_closed (Int.not_le.mp hfd)]
    rw [hrun]
    exact hrec

/-- **Stored packets.** Over writes that store as many bytes as they return, along every run of
    `pcap_open` and `pcap_write_raw` calls: a result of 0 means a whole header, or a complete
    record more, and the open capture stays decodable, if and only if no write that reports
    success stops short. -/
theorem storedPackets_iff (disk : String → List UInt8) (ops : List RawOp) :
    EachStep RawOp.run StoredWhole (.start disk) ops ∧
        Always RawOp.run Decodable (.start disk) ops ↔
      EachStep RawOp.run NoShortWrite (.start disk) ops := by
  have hclosed : (PcapState.start disk).pcapFd < 0 := show (-1 : Int) < 0 by decide
  have hstart : PcapWf (.start disk) := pcapWf_of_neg hclosed
  have hwhole : EachStep RawOp.run StoredWhole (.start disk) ops ↔
      EachStep RawOp.run NoShortWrite (.start disk) ops := by
    refine eachStep_congr_inv (I := PcapWf) (fun s op h => rawOp_wf h op) ?_ hstart ops
    intro s op hwf
    cases op with
    | openFile file fd hdr => exact openFile_whole_iff s file fd hdr
    | write c => exact write_whole_iff hwf c
  rw [hwhole]
  refine ⟨fun h => h.1, fun h => ⟨h, ?_⟩⟩
  have hrec : Always RawOp.run (fun s => PcapWf s ∧ RecordsOn s) (.start disk) ops := by
    refine always_of_eachStep (C := NoShortWrite) ?_ ⟨hstart, ?_⟩ h
    · rintro s op ⟨hwf, hr⟩ hns
      refine ⟨rawOp_wf hwf op, ?_⟩
      cases op with
      | openFile file fd hdr => exact openFile_records hns
      | write c => exact write_records hwf hr hns
    · intro file hopen
      exact absurd hopen.nonneg (Int.not_le.mpr hclosed)
  intro pre hpre
  exact (hrec pre hpre).2.decodable

/-- A full memory card: ten bytes of the file header are stored, and `pcap_open` returns 0. -/
theorem shortHeader_reported :
    ¬ (EachStep RawOp.run StoredWhole (.start fun _ => [])
        [.openFile "ux0:/data/test.cap" 3 ⟨10, by decide⟩] ∧
      Always RawOp.run Decodable (.start fun _ => [])
        [.openFile "ux0:/data/test.cap" 3 ⟨10, by decide⟩]) := by
  rintro ⟨h, -⟩
  have hhdr := (eachStep_cons.mp h).1 rfl
  exact absurd hhdr (by decide)

end Wifimon.Pcap
