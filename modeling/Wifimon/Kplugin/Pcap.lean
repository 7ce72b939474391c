/-
  `src/kplugin/pcap.c`: the capture file.

  The kernel's file calls are answered from outside: an `ksceIoOpen` returns any integer, a
  write returns any integer after storing any number of leading bytes of its buffer
  (`WriteAns`). What they do to the files is `IoState`: the open handles with their paths, the
  contents of every path, and the log of opens and closes. `SCE_O_TRUNC` empties the file.

  `pcapOpen`, `pcapClose`, `pcapWriteRaw` and `pcapWriteRt` are the four functions of the
  source. `pcapWriteRaw` and `pcapWriteRt` repeat one prologue, `recHeader`; they differ in what
  they write after it.
-/
import Wifimon.Lib.Bytes
import Mathlib.Logic.Function.Basic

namespace Wifimon.Pcap

open ByteLib

/-! ## Records of the source -/

/-- `pcap_hdr_t` with the values `pcap_open` gives it (the fields are packed). -/
def pcapHdrBytes : List UInt8 :=
  le 4 0xa1b2c3d4 ++ le 2 2 ++ le 2 4 ++ le 4 0 ++ le 4 0 ++ le 4 65535 ++ le 4 127

/-- `pcaprec_hdr_t`. -/
structure PcaprecHdr where
  tsSec : UInt32
  tsUsec : UInt32
  inclLen : UInt32
  origLen : UInt32

def PcaprecHdr.bytes (r : PcaprecHdr) : List UInt8 :=
  wordBytes [r.tsSec, r.tsUsec, r.inclLen, r.origLen]

/-- `struct timeval` as the clock filled it. -/
structure Timeval where
  tvSec : Int
  tvUsec : Int

/-- `struct ieee80211_radiotap_header` and the bytes that follow it in memory. -/
structure RadiotapHeader where
  itVersion : UInt8
  itPad : UInt8
  itLen : UInt16
  itPresent : UInt32
  more : List UInt8

def RadiotapHeader.bytes (r : RadiotapHeader) : List UInt8 :=
  [r.itVersion, r.itPad] ++ le 2 r.itLen.toNat ++ le 4 r.itPresent.toNat ++ r.more

@[simp] theorem pcapHdrBytes_length : pcapHdrBytes.length = 24 := rfl

@[simp] theorem PcaprecHdr.bytes_length (r : PcaprecHdr) : r.bytes.length = 16 := by
  simp [PcaprecHdr.bytes]

theorem RadiotapHeader.bytes_length (r : RadiotapHeader) :
    r.bytes.length = 8 + r.more.length := by
  simp [RadiotapHeader.bytes]; omega

/-! ## Kernel files -/

/-- What a write call answers: the value it returns, and how many leading bytes of its buffer
    it stored. -/
structure WriteAns where
  ret : Int
  stored : Nat

/-- The call stored all `n` bytes and did not report an error. -/
def WriteAns.Full (a : WriteAns) (n : Nat) : Prop := 0 ≤ a.ret ∧ a.stored = n

instance (a : WriteAns) (n : Nat) : Decidable (a.Full n) :=
  inferInstanceAs (Decidable (_ ∧ _))

inductive IoEvent where
  | opened (fd : Int)
  | closed (fd : Int)
  deriving DecidableEq

structure IoState where
  handles : List (Int × String)
  disk : String → List UInt8
  log : List IoEvent

/-- `ksceIoOpen(file, SCE_O_WRONLY|SCE_O_CREAT|SCE_O_TRUNC, 0777)` answering `fd`. -/
def ioOpen (file : String) (fd : Int) (io : IoState) : IoState :=
  if 0 ≤ fd then
    { handles := (fd, file) :: io.handles
      disk := Function.update io.disk file []
      log := io.log ++ [.opened fd] }
  else io

/-- `ksceIoWrite` and `ksceIoWriteAsync`: the stored bytes go to the end of the file. -/
def ioWrite (fd : Int) (buf : List UInt8) (a : WriteAns) (io : IoState) : IoState :=
  match io.handles.lookup fd with
  | some file =>
    { io with disk := Function.update io.disk file (io.disk file ++ buf.take a.stored) }
  | none => io

def ioClose (fd : Int) (io : IoState) : IoState :=
  { io with
    handles := io.handles.eraseP (fun h => h.1 == fd)
    log := io.log ++ [.closed fd] }

/-! ## The functions -/

structure PcapState where
  pcapFd : Int
  io : IoState

/-- `pcap_fd = -1` and no file open. -/
def PcapState.start (disk : String → List UInt8) : PcapState :=
  ⟨-1, ⟨[], disk, []⟩⟩

def pcapClose (s : PcapState) : PcapState :=
  if 0 ≤ s.pcapFd then { pcapFd := -1, io := ioClose s.pcapFd s.io } else s

/-- Answers to the calls of one `pcap_open`. -/
structure OpenAns where
  fd : Int
  hdr : WriteAns

def pcapOpen (file : String) (a : OpenAns) (s : PcapState) : Int × PcapState :=
  -- the source tests `> 0` here and `>= 0` in `pcap_close`
  let s := if 0 < s.pcapFd then pcapClose s else s
  let s : PcapState := { pcapFd := a.fd, io := ioOpen file a.fd s.io }
  if s.pcapFd < 0 then (-1, s)
  else
    let s := { s with io := ioWrite s.pcapFd pcapHdrBytes a.hdr s.io }
    if a.hdr.ret < 0 then (-1, pcapClose s) else (0, s)

/-- The record header both write functions build from the clock and `buf_len`. -/
def recHeader (tv : Timeval) (bufLen : UInt32) : PcaprecHdr :=
  { tsSec := UInt32.ofInt tv.tvSec
    tsUsec := UInt32.ofInt tv.tvUsec
    inclLen := bufLen
    origLen := bufLen }

/-- Answers to the calls of one `pcap_write_raw`. -/
structure RawAns where
  tv : Timeval
  hdr : WriteAns
  body : WriteAns

def pcapWriteRaw (buf : List UInt8) (bufLen : UInt32) (a : RawAns) (s : PcapState) :
    Int × PcapState :=
  if s.pcapFd < 0 then (0, s)
  else
    let s := { s with io := ioWrite s.pcapFd (recHeader a.tv bufLen).bytes a.hdr s.io }
    if a.hdr.ret < 0 then (-1, pcapClose s)
    else
      let s := { s with io := ioWrite s.pcapFd (buf.take bufLen.toNat) a.body s.io }
      if a.body.ret < 0 then (-1, pcapClose s) else (0, s)

/-- Answers to the calls of one `pcap_write_rt`. -/
structure RtAns where
  tv : Timeval
  hdr : WriteAns
  rtap : WriteAns
  body : WriteAns

def pcapWriteRt (rtap : RadiotapHeader) (buf : List UInt8) (bufLen : UInt32) (a : RtAns)
    (s : PcapState) : Int × PcapState :=
  if s.pcapFd < 0 then (0, s)
  else
    let s := { s with io := ioWrite s.pcapFd (recHeader a.tv bufLen).bytes a.hdr s.io }
    if a.hdr.ret < 0 then (-1, pcapClose s)
    else
      let s := { s with io := ioWrite s.pcapFd (rtap.bytes.take rtap.itLen.toNat) a.rtap s.io }
      if a.rtap.ret < 0 then (-1, pcapClose s)
      else
        let s := { s with io := ioWrite s.pcapFd (buf.take bufLen.toNat) a.body s.io }
        if a.body.ret < 0 then (-1, pcapClose s) else (0, s)

/-! ## An open capture -/

/-- `pcap_fd` is a handle of the open file `file`. -/
structure OpenOn (s : PcapState) (file : String) : Prop where
  nonneg : 0 ≤ s.pcapFd
  handle : s.io.handles.lookup s.pcapFd = some file

/-- A write through an open `pcap_fd` appends what it stored, and keeps it open. -/
theorem openOn_ioWrite {s : PcapState} {file : String} (h : OpenOn s file) (buf : List UInt8)
    (a : WriteAns) :
    OpenOn { s with io := ioWrite s.pcapFd buf a s.io } file ∧
      (ioWrite s.pcapFd buf a s.io).disk file = s.io.disk file ++ buf.take a.stored := by
  simp only [ioWrite, h.handle]
  exact ⟨⟨h.nonneg, h.handle⟩, Function.update_self _ _ _⟩

theorem pcapClose_fd (p : PcapState) : (pcapClose p).pcapFd < 0 := by
  unfold pcapClose
  split
  · show (-1 : Int) < 0
    decide
  · omega

theorem pcapClose_disk (s : PcapState) : (pcapClose s).io.disk = s.io.disk := by
  unfold pcapClose
  split <;> rfl

/-- A `pcap_open` that gets its handle leaves what was stored of the header in the file. -/
theorem pcapOpen_stored (file : String) {a : OpenAns} (s : PcapState) (hfd : 0 ≤ a.fd)
    (hret : 0 ≤ a.hdr.ret) :
    (pcapOpen file a s).1 = 0 ∧ OpenOn (pcapOpen file a s).2 file ∧
      (pcapOpen file a s).2.io.disk file = pcapHdrBytes.take a.hdr.stored := by
  unfold pcapOpen
  dsimp only
  rw [if_neg (Int.not_lt.mpr hfd), if_neg (Int.not_lt.mpr hret)]
  generalize (if 0 < s.pcapFd then pcapClose s else s).io = io
  have hopen : OpenOn ⟨a.fd, ioOpen file a.fd io⟩ file := ⟨hfd, by simp [ioOpen, hfd]⟩
  have hempty : (ioOpen file a.fd io).disk file = [] := by simp [ioOpen, hfd]
  obtain ⟨h1, h2⟩ := openOn_ioWrite hopen pcapHdrBytes a.hdr
  refine ⟨rfl, h1, ?_⟩
  rw [h2, hempty, List.nil_append]

theorem pcapOpen_success (file : String) {a : OpenAns} (s : PcapState) (hfd : 0 ≤ a.fd)
    (hhdr : a.hdr.Full 24) :
    (pcapOpen file a s).1 = 0 ∧ OpenOn (pcapOpen file a s).2 file ∧
      (pcapOpen file a s).2.io.disk file = pcapHdrBytes := by
  obtain ⟨hret, hall⟩ := hhdr
  have h := pcapOpen_stored file s hfd hret
  rwa [hall, List.take_of_length_le (Nat.le_of_eq pcapHdrBytes_length)] at h

/-- A call with the capture open: what the two writes stored is appended, the second one only
    after a first that did not fail. -/
theorem pcapWriteRaw_open {s : PcapState} {file : String} (h : OpenOn s file) {buf : List UInt8}
    {bufLen : UInt32} (hlen : bufLen.toNat = buf.length) (a : RawAns) :
    (pcapWriteRaw buf bufLen a s).2.io.disk file =
        s.io.disk file ++ ((recHeader a.tv bufLen).bytes.take a.hdr.stored ++
          if 0 ≤ a.hdr.ret then buf.take a.body.stored else []) ∧
      (0 ≤ a.hdr.ret ∧ 0 ≤ a.body.ret → (pcapWriteRaw buf bufLen a s).1 = 0 ∧
        OpenOn (pcapWriteRaw buf bufLen a s).2 file) ∧
      (¬ (0 ≤ a.hdr.ret ∧ 0 ≤ a.body.ret) → (pcapWriteRaw buf bufLen a s).1 = -1 ∧
        (pcapWriteRaw buf bufLen a s).2.pcapFd < 0) := by
  obtain ⟨h1, e1⟩ := openOn_ioWrite h (recHeader a.tv bufLen).bytes a.hdr
  obtain ⟨h2, e2⟩ := openOn_ioWrite h1 (buf.take bufLen.toNat) a.body
  have hall : buf.take bufLen.toNat = buf := by rw [hlen, List.take_length]
  unfold pcapWriteRaw
  rw [if_neg (Int.not_lt.mpr h.nonneg)]
  dsimp only
  by_cases hhdr : 0 ≤ a.hdr.ret
  · rw [if_neg (Int.not_lt.mpr hhdr), if_pos hhdr]
    dsimp only at e2
    rw [e1, hall, List.append_assoc] at e2
    by_cases hbody : 0 ≤ a.body.ret
    · rw [if_neg (Int.not_lt.mpr hbody)]
      refine ⟨?_, fun _ => ⟨rfl, h2⟩, fun hn => absurd ⟨hhdr, hbody⟩ hn⟩
      rw [hall]
      exact e2
    · rw [if_pos (Int.not_le.mp hbody)]
      refine ⟨?_, fun hy => absurd hy.2 hbody, fun _ => ⟨rfl, pcapClose_fd _⟩⟩
      rw [pcapClose_disk, hall]
      exact e2
  · rw [if_pos (Int.not_le.mp hhdr), if_neg hhdr, List.append_nil]
    refine ⟨?_, fun hy => absurd hy.1 hhdr, fun _ => ⟨rfl, pcapClose_fd _⟩⟩
    rw [pcapClose_disk]
    exact e1

theorem pcapWriteRaw_success {s : PcapState} {file : String} (h : OpenOn s file)
    {buf : List UInt8} {bufLen : UInt32} (hlen : bufLen.toNat = buf.length) {a : RawAns}
    (hhdr : a.hdr.Full 16) (hbody : a.body.Full buf.length) :
    (pcapWriteRaw buf bufLen a s).1 = 0 ∧ OpenOn (pcapWriteRaw buf bufLen a s).2 file ∧
      (pcapWriteRaw buf bufLen a s).2.io.disk file =
        s.io.disk file ++ ((recHeader a.tv bufLen).bytes ++ buf) := by
  obtain ⟨hdisk, hok, -⟩ := pcapWriteRaw_open h hlen a
  obtain ⟨hret, hopen⟩ := hok ⟨hhdr.1, hbody.1⟩
  refine ⟨hret, hopen, ?_⟩
  rw [hdisk, if_pos hhdr.1, hhdr.2, hbody.2, List.take_length,
    List.take_of_length_le (Nat.le_of_eq (PcaprecHdr.bytes_length _))]

theorem pcapWriteRt_success {s : PcapState} {file : String} (h : OpenOn s file)
    {rtap : RadiotapHeader} (hrtap : rtap.itLen.toNat = rtap.bytes.length)
    {buf : List UInt8} {bufLen : UInt32} (hlen : bufLen.toNat = buf.length) {a : RtAns}
    (hhdr : a.hdr.Full 16) (hrt : a.rtap.Full rtap.bytes.length) (hbody : a.body.Full buf.length) :
    (pcapWriteRt rtap buf bufLen a s).1 = 0 ∧ OpenOn (pcapWriteRt rtap buf bufLen a s).2 file ∧
      (pcapWriteRt rtap buf bufLen a s).2.io.disk file =
        s.io.disk file ++ ((recHeader a.tv bufLen).bytes ++ (rtap.bytes ++ buf)) := by
  obtain ⟨hret1, hall1⟩ := hhdr
  obtain ⟨hret2, hall2⟩ := hrt
  obtain ⟨hret3, hall3⟩ := hbody
  obtain ⟨h1, e1⟩ := openOn_ioWrite h (recHeader a.tv bufLen).bytes a.hdr
  obtain ⟨h2, e2⟩ := openOn_ioWrite h1 (rtap.bytes.take rtap.itLen.toNat) a.rtap
  obtain ⟨h3, e3⟩ := openOn_ioWrite h2 (buf.take bufLen.toNat) a.body
  simp only [pcapWriteRt, if_neg (Int.not_lt.mpr h.nonneg), if_neg (Int.not_lt.mpr hret1),
    if_neg (Int.not_lt.mpr hret2), if_neg (Int.not_lt.mpr hret3)]
  refine ⟨trivial, h3, ?_⟩
  rw [e3, e2, e1, hall1, hall2, hall3, hlen, hrtap]
  simp [List.take_of_length_le]

end Wifimon.Pcap
