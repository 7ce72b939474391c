/-
  `src/kplugin/knet.c`: `knet_write_rt`, a frame sent over the socket of the network recorder.

  The radiotap header and the frame are copied one behind the other into `knet_pkt`, an array of
  2048 bytes; the memory from its start on is a `Mem`, and `KnetWriteResult.stores` keeps the
  ranges that were stored to, also past the array. `ksceNetSendto` answers any integer.

  `knetWriteRt_forwards_iff`: the frame is sent as it is, or the call fails with nothing stored,
  and nothing is stored past the array, if and only if the socket is not open, or header and
  frame have at most 2048 bytes together and `ksceNetSendto` takes the datagram. Neither length
  is checked, and both copies come before the send, whose negative answer is the result.
-/
import Wifimon.Kplugin.Knet
import Wifimon.Kplugin.Pcap

namespace Wifimon.Knet

open ByteLib Pcap

/-- `sizeof(knet_pkt)`. -/
def knetPktSize : Nat := 2048

/-- A call of `ksceNetSendto`: the socket, the datagram and the port of `knet_tgt`. -/
structure Sendto where
  fd : Int
  datagram : List UInt8
  port : UInt16
  deriving DecidableEq

structure KnetWriteResult where
  ret : Int
  knetPkt : Mem
  stores : List (Nat × Nat)
  sent : List Sendto

/-- `ksceNetSendto` answers `ans`. -/
def knetWriteRt (rtap : RadiotapHeader) (buf : List UInt8) (bufLen : UInt32) (ans : Int)
    (pkt : Mem) (s : KnetState) : KnetWriteResult :=
  if s.knetFd < 0 then { ret := -1, knetPkt := pkt, stores := [], sent := [] }
  else
    let itLen := rtap.itLen.toNat
    let pkt := store pkt 0 (rtap.bytes.take itLen)
    let pkt := store pkt itLen (buf.take bufLen.toNat)
    -- the sum is a uint32_t
    let len := rtap.itLen.toUInt32 + bufLen
    { ret := ans
      knetPkt := pkt
      stores := [(0, itLen), (itLen, bufLen.toNat)]
      sent := [⟨s.knetFd, load pkt 0 len.toNat, s.tgtPort⟩] }

/-! ## What the function is for -/

/-- A frame to send: `it_len` is the true length of the radiotap header, and the length of the
    frame has 32 bits. -/
structure KnetFrame where
  rtap : RadiotapHeader
  buf : List UInt8
  itLenTrue : rtap.itLen.toNat = rtap.bytes.length
  fits : buf.length < 2 ^ 32

def KnetFrame.write (f : KnetFrame) (ans : Int) (pkt : Mem) (s : KnetState) : KnetWriteResult :=
  knetWriteRt f.rtap f.buf (UInt32.ofNat f.buf.length) ans pkt s

/-- Every store is to an index of `knet_pkt`. -/
def KnetWriteResult.Inside (r : KnetWriteResult) : Prop :=
  ∀ p ∈ r.stores, ∀ i, p.1 ≤ i → i < p.1 + p.2 → i < knetPktSize

/-- The frame went to `ksceNetSendto` behind its radiotap header, in one datagram, and was taken:
    the answer, which is the result, is no error. -/
structure KnetFrame.Sent (f : KnetFrame) (ans : Int) (s : KnetState) (r : KnetWriteResult) :
    Prop where
  sent : r.sent = [⟨s.knetFd, f.rtap.bytes ++ f.buf, s.tgtPort⟩]
  ret : r.ret = ans
  taken : 0 ≤ ans

/-- The call fails, with nothing stored and nothing sent. -/
structure KnetWriteResult.Refused (r : KnetWriteResult) : Prop where
  ret : r.ret < 0
  stores : r.stores = []
  sent : r.sent = []

structure KnetFrame.Forwards (f : KnetFrame) (ans : Int) (s : KnetState) (r : KnetWriteResult) :
    Prop where
  outcome : f.Sent ans s r ∨ r.Refused
  inside : r.Inside

/-! ## One call -/

theorem write_closed (f : KnetFrame) (ans : Int) (pkt : Mem) {s : KnetState}
    (h : s.knetFd < 0) : (f.write ans pkt s).Refused := by
  unfold KnetFrame.write knetWriteRt
  rw [if_pos h]
  exact ⟨(by decide : (-1 : Int) < 0), rfl, rfl⟩

/-- With the socket open, whatever the lengths. -/
theorem write_open (f : KnetFrame) (ans : Int) (pkt : Mem) {s : KnetState} (h : ¬ s.knetFd < 0) :
    (f.write ans pkt s).stores =
        [(0, f.rtap.itLen.toNat), (f.rtap.itLen.toNat, f.buf.length)] ∧
      (f.write ans pkt s).ret = ans ∧
      (f.write ans pkt s).sent = [⟨s.knetFd,
        load (store (store pkt 0 f.rtap.bytes) f.rtap.bytes.length f.buf) 0
          (f.rtap.itLen.toUInt32 + UInt32.ofNat f.buf.length).toNat, s.tgtPort⟩] := by
  have hlen : (UInt32.ofNat f.buf.length).toNat = f.buf.length :=
    UInt32.toNat_ofNat_of_lt' f.fits
  unfold KnetFrame.write knetWriteRt
  rw [if_neg h]
  dsimp only
  rw [hlen, f.itLenTrue, List.take_length, List.take_length]
  exact ⟨rfl, rfl, rfl⟩

/-- The stores stay inside if and only if header and frame have room together: the header is
    never empty, so the last byte stored decides. -/
theorem write_inside_iff (f : KnetFrame) (ans : Int) (pkt : Mem) {s : KnetState}
    (h : ¬ s.knetFd < 0) :
    (f.write ans pkt s).Inside ↔ f.rtap.itLen.toNat + f.buf.length ≤ knetPktSize := by
  have hpos : 0 < f.rtap.itLen.toNat := by
    rw [f.itLenTrue, RadiotapHeader.bytes_length]
    omega
  unfold KnetWriteResult.Inside
  rw [(write_open f ans pkt h).1]
  constructor
  · intro hin
    by_cases hbuf : f.buf.length = 0
    · have hlast := hin (0, f.rtap.itLen.toNat) (by simp) (f.rtap.itLen.toNat - 1)
        (Nat.zero_le _) (by simp only; omega)
      omega
    · have hlast := hin (f.rtap.itLen.toNat, f.buf.length) (by simp)
        (f.rtap.itLen.toNat + f.buf.length - 1) (by simp only; omega) (by simp only; omega)
      omega
  · intro hroom p hp i _ hi
    simp only [List.mem_cons, List.not_mem_nil, or_false] at hp
    obtain rfl | rfl := hp
    · simp only at hi
      omega
    · simp only at hi
      omega

/-- With the socket open the call has stored when it fails. -/
theorem write_not_refused (f : KnetFrame) (ans : Int) (pkt : Mem) {s : KnetState}
    (h : ¬ s.knetFd < 0) : ¬ (f.write ans pkt s).Refused := by
  intro href
  have hstores := href.stores
  rw [(write_open f ans pkt h).1] at hstores
  exact List.cons_ne_nil _ _ hstores

/-- A datagram that fits is the header and the frame: the sum of the lengths does not wrap. -/
theorem write_sent (f : KnetFrame) {ans : Int} (pkt : Mem) {s : KnetState} (h : ¬ s.knetFd < 0)
    (hroom : f.rtap.itLen.toNat + f.buf.length ≤ knetPktSize) (hans : 0 ≤ ans) :
    f.Sent ans s (f.write ans pkt s) := by
  obtain ⟨-, hret, hsent⟩ := write_open f ans pkt h
  have hlen : (f.rtap.itLen.toUInt32 + UInt32.ofNat f.buf.length).toNat =
      f.rtap.bytes.length + f.buf.length := by
    have hsize : knetPktSize = 2048 := rfl
    rw [UInt32.toNat_add, UInt16.toNat_toUInt32, UInt32.toNat_ofNat_of_lt' f.fits,
      Nat.mod_eq_of_lt (by omega), f.itLenTrue]
  have hload := load_store_append pkt 0 f.rtap.bytes f.buf
  rw [Nat.zero_add] at hload
  rw [hlen, hload] at hsent
  exact ⟨hsent, hret, hans⟩

/-- **Network forwarding.** For every radiotap header of true length, frame, state of the socket
    and answer of `ksceNetSendto`: one datagram of header and frame is sent, or the call fails
    with nothing stored, and no store leaves `knet_pkt`, if and only if the socket is not open,
    or header and frame fit in `knet_pkt` and the answer is not negative. -/
theorem knetWriteRt_forwards_iff (f : KnetFrame) (ans : Int) (pkt : Mem) (s : KnetState) :
    f.Forwards ans s (f.write ans pkt s) ↔
      s.knetFd < 0 ∨ (f.rtap.itLen.toNat + f.buf.length ≤ knetPktSize ∧ 0 ≤ ans) := by
  by_cases h : s.knetFd < 0
  · have href := write_closed f ans pkt h
    refine iff_of_true ⟨Or.inr href, ?_⟩ (Or.inl h)
    intro p hp
    rw [href.stores] at hp
    exact absurd hp List.not_mem_nil
  · rw [or_iff_right h]
    constructor
    · intro hf
      have hroom := (write_inside_iff f ans pkt h).mp hf.inside
      obtain hsent | href := hf.outcome
      · exact ⟨hroom, hsent.taken⟩
      · exact absurd href (write_not_refused f ans pkt h)
    · rintro ⟨hroom, hans⟩
      exact ⟨Or.inl (write_sent f pkt h hroom hans), (write_inside_iff f ans pkt h).mpr hroom⟩

/-- A minimal radiotap header in front of a frame of 2041 bytes. -/
def longFrame : KnetFrame where
  rtap := ⟨0, 0, 8, 0, []⟩
  buf := List.replicate 2041 0
  itLenTrue := rfl
  fits := by
    rw [List.length_replicate]
    decide

/-- Its last byte is stored behind `knet_pkt`. -/
theorem longFrame_overflows :
    ¬ longFrame.Forwards 2049 (knetStart 65111 3 .start).2
      (longFrame.write 2049 (fun _ => 0) (knetStart 65111 3 .start).2) := by
  intro h
  have hfd : ¬ (knetStart 65111 3 .start).2.knetFd < 0 := by decide
  have hroom := (write_inside_iff longFrame 2049 (fun _ => 0) hfd).mp h.inside
  have hlen : longFrame.buf.length = 2041 := List.length_replicate
  have hsize : longFrame.rtap.itLen.toNat = 8 := rfl
  rw [hlen, hsize] at hroom
  exact absurd hroom (by decide)

end Wifimon.Knet
