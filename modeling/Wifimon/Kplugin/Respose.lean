/-
  `src/kplugin/kwifimon.c`: `kwifimon_process_respose`, the hooked receive handler.

  The packet is the memory behind `in_pkt` (`struct sdio_rx_t` at offset 0, `struct rxpd` at
  offset 4, both packed). The hook either swallows a packet (returns 0) or passes it on to the
  original handler, whose result is `orig`. `RxResult` collects what a call did: the value
  returned, the calls of the original handler, the module state, and the byte ranges of `in_pkt`
  it read. The recording branches of the source are commented out there; they are not modelled.

  * `swallowed_iff`: the hook swallows exactly the packets of `swallows`, whatever the mutex and
    the module state.
  * `exactFilter_iff`: it drops exactly monitor events and management frames if and only if, for
    an event packet, the SDIO packet length and the event cause agree on being `0x123` in their
    low 12 bits: the source copies `evt` from offset 0, where the length is.
  * `readsInside_iff`: `in_pkt_len` is not looked at, so the hook stays inside the packet if and
    only if the packet is long enough for its type.
-/
import Wifimon.Kplugin.Module

namespace Wifimon.Kplugin

open ByteLib

/-! ## The packet -/

def pktTypeMgmt : UInt16 := 0xE5
def pktTypeAmsdu : UInt16 := 0xE6
def pktTypeBar : UInt16 := 0xE7

/-- `rxt->pkt_type`. -/
def pktType (pkt : Mem) : UInt16 := rd16 pkt 2

/-- `rx_pd->rx_pkt_type`. -/
def rxPktType (pkt : Mem) : UInt16 := rd16 pkt 10

/-- `evt`: the two bytes at the start of the packet, masked. -/
def evt (pkt : Mem) : UInt16 := rd16 pkt 0 &&& 0xfff

/-- The arguments of the handler; `inPkt` is the memory behind the pointer. -/
structure RxArgs where
  dev : UInt32
  inPkt : Mem
  inPktLen : Int
  somenumber : UInt32

/-- What one call did. -/
structure RxResult where
  ret : Int
  passed : List RxArgs
  state : KState
  reads : List (Nat × Nat)

/-! ## The handler -/

/-- The critical section of the event branch. -/
def countEvt (st : WifimonStats) : WifimonStats := { st with evtCnt := st.evtCnt + 1 }

/-- The critical section of the data branch. -/
def countRx (ty : UInt16) (st : WifimonStats) : WifimonStats :=
  if ty = pktTypeMgmt then { st with mgmtCnt := st.mgmtCnt + 1 }
  else if ty = pktTypeAmsdu then { st with amsduCnt := st.amsduCnt + 1 }
  else if ty = pktTypeBar then { st with barCnt := st.barCnt + 1 }
  else { st with pktCnt := st.pktCnt + 1 }

/-- `body` on the statistics under `kwifimon_mutex`; skipped when the lock fails. -/
def locked (a : LockAns) (body : WifimonStats → WifimonStats) (s : KState) : KState :=
  if 0 ≤ a.lock then { s with kwifimonStats := body s.kwifimonStats } else s

/-- The data branch and the final `TAI_CONTINUE`; `reads` is what was read before. -/
def resposeRx (orig : RxArgs → Int) (a : LockAns) (args : RxArgs) (s : KState)
    (reads : List (Nat × Nat)) : RxResult :=
  let pkt := args.inPkt
  if pktType pkt = 0 ∨ pktType pkt = 10 then
    -- rx_pkt_offset and rx_pkt_length are fetched, then rx_pkt_type
    let reads := reads ++ [(8, 2), (6, 2), (10, 2)]
    let s := locked a (countRx (rxPktType pkt)) s
    if rxPktType pkt = pktTypeMgmt then { ret := 0, passed := [], state := s, reads }
    else { ret := orig args, passed := [args], state := s, reads }
  else { ret := orig args, passed := [args], state := s, reads }

def kwifimonProcessRespose (orig : RxArgs → Int) (a : LockAns) (args : RxArgs) (s : KState) :
    RxResult :=
  let pkt := args.inPkt
  if pktType pkt = 3 then
    if evt pkt = 0x123 then
      { ret := 0, passed := [], state := locked a countEvt s, reads := [(2, 2), (0, 2)] }
    else resposeRx orig a args s [(2, 2), (0, 2)]
  else resposeRx orig a args s [(2, 2)]

/-! ## What the handler decides -/

/-- The packet is a data or aggregate packet. -/
def IsRx (pkt : Mem) : Prop := pktType pkt = 0 ∨ pktType pkt = 10

instance (pkt : Mem) : Decidable (IsRx pkt) := inferInstanceAs (Decidable (_ ∨ _))

/-- The packets the handler takes for monitor events. -/
def TakenForEvent (pkt : Mem) : Prop := pktType pkt = 3 ∧ evt pkt = 0x123

instance (pkt : Mem) : Decidable (TakenForEvent pkt) := inferInstanceAs (Decidable (_ ∧ _))

def IsMgmt (pkt : Mem) : Prop := IsRx pkt ∧ rxPktType pkt = pktTypeMgmt

instance (pkt : Mem) : Decidable (IsMgmt pkt) := inferInstanceAs (Decidable (_ ∧ _))

/-- The packets the handler does not pass on. -/
def swallows (pkt : Mem) : Bool := decide (TakenForEvent pkt ∨ IsMgmt pkt)

/-- The critical section a packet goes through, if any. -/
def sectionOf (pkt : Mem) : Option (WifimonStats → WifimonStats) :=
  if TakenForEvent pkt then some countEvt
  else if IsRx pkt then some (countRx (rxPktType pkt))
  else none

theorem not_isRx_of_event {pkt : Mem} (h : pktType pkt = 3) : ¬ IsRx pkt := by
  rintro (h0 | h0) <;> rw [h] at h0 <;> exact absurd h0 (by decide)

/-- A call in one line: the critical section under the mutex, then the verdict. -/
theorem kwifimonProcessRespose_eq (orig : RxArgs → Int) (a : LockAns) (args : RxArgs)
    (s : KState) :
    (kwifimonProcessRespose orig a args s).state =
        (match sectionOf args.inPkt with
          | some body => locked a body s
          | none => s) ∧
      (if swallows args.inPkt then
        (kwifimonProcessRespose orig a args s).ret = 0 ∧
          (kwifimonProcessRespose orig a args s).passed = []
      else
        (kwifimonProcessRespose orig a args s).ret = orig args ∧
          (kwifimonProcessRespose orig a args s).passed = [args]) := by
  unfold kwifimonProcessRespose resposeRx sectionOf swallows
  dsimp only
  by_cases h3 : pktType args.inPkt = 3
  · have hrx : ¬ (pktType args.inPkt = 0 ∨ pktType args.inPkt = 10) := not_isRx_of_event h3
    rw [if_pos h3, if_neg hrx]
    by_cases he : evt args.inPkt = 0x123 <;> simp [TakenForEvent, IsMgmt, IsRx, h3, he]
  · rw [if_neg h3]
    by_cases hrx : pktType args.inPkt = 0 ∨ pktType args.inPkt = 10
    · rw [if_pos hrx]
      by_cases hm : rxPktType args.inPkt = pktTypeMgmt <;>
        simp [TakenForEvent, IsMgmt, IsRx, h3, hrx, hm]
    · rw [if_neg hrx]
      simp [TakenForEvent, IsMgmt, IsRx, h3, hrx]

/-- The handler swallows exactly the packets of `swallows`. -/
theorem swallowed_iff (orig : RxArgs → Int) (a : LockAns) (args : RxArgs) (s : KState) :
    ((kwifimonProcessRespose orig a args s).ret = 0 ∧
      (kwifimonProcessRespose orig a args s).passed = []) ↔ swallows args.inPkt = true := by
  have h := (kwifimonProcessRespose_eq orig a args s).2
  cases hs : swallows args.inPkt with
  | true =>
    rw [hs, if_pos rfl] at h
    exact ⟨fun _ => rfl, fun _ => h⟩
  | false =>
    rw [hs, if_neg Bool.false_ne_true] at h
    exact ⟨fun hn => absurd (h.2.symm.trans hn.2) (List.cons_ne_nil _ _), fun hf => by simp at hf⟩

/-- A packet that is not swallowed is passed on once, unchanged, for the original result. -/
theorem passed_of_not_swallows (orig : RxArgs → Int) (a : LockAns) (args : RxArgs) (s : KState)
    (h : ¬ swallows args.inPkt = true) :
    (kwifimonProcessRespose orig a args s).passed = [args] ∧
      (kwifimonProcessRespose orig a args s).ret = orig args := by
  have hq := (kwifimonProcessRespose_eq orig a args s).2
  rw [if_neg h] at hq
  exact hq.symm

/-! ## The filter the hook is for -/

/-- The event cause: the word after the SDIO interface header. -/
def eventCause (pkt : Mem) : UInt32 := rd32 pkt 4

def MonitorEvent (pkt : Mem) : Prop := pktType pkt = 3 ∧ eventCause pkt &&& 0xfff = 0x123

/-- Monitor events and management frames are dropped; everything else is passed on once,
    unchanged, and its result returned. -/
def ExactFilter (orig : RxArgs → Int) (args : RxArgs) (r : RxResult) : Prop :=
  ((r.ret = 0 ∧ r.passed = []) ↔ MonitorEvent args.inPkt ∨ IsMgmt args.inPkt) ∧
    (¬ (MonitorEvent args.inPkt ∨ IsMgmt args.inPkt) →
      r.passed = [args] ∧ r.ret = orig args)

/-- In an event packet the packet length and the event cause have `0x123` in their low 12 bits
    both or neither. -/
def LengthLooksLikeCause (pkt : Mem) : Prop :=
  pktType pkt = 3 → (evt pkt = 0x123 ↔ eventCause pkt &&& 0xfff = 0x123)

/-- **The drop filter.** For every packet, module state and outcome of the mutex calls, the hook
    drops exactly the monitor events and the management frames, and passes on the rest, if and
    only if `LengthLooksLikeCause`. -/
theorem exactFilter_iff (orig : RxArgs → Int) (a : LockAns) (args : RxArgs) (s : KState) :
    ExactFilter orig args (kwifimonProcessRespose orig a args s) ↔
      LengthLooksLikeCause args.inPkt := by
  have hsw : swallows args.inPkt = true ↔ TakenForEvent args.inPkt ∨ IsMgmt args.inPkt := by
    simp [swallows]
  rw [ExactFilter, swallowed_iff, hsw]
  constructor
  · rintro ⟨h, -⟩ h3
    -- an event packet is no management frame, so the filter speaks about its event word
    have hm : ¬ IsMgmt args.inPkt := fun hm => not_isRx_of_event h3 hm.1
    rw [or_iff_left hm, or_iff_left hm] at h
    exact ⟨fun he => (h.mp ⟨h3, he⟩).2, fun hc => (h.mpr ⟨h3, hc⟩).2⟩
  · intro hl
    have hev : TakenForEvent args.inPkt ↔ MonitorEvent args.inPkt :=
      and_congr_right fun h3 => hl h3
    refine ⟨or_congr_left hev, fun hn => passed_of_not_swallows orig a args s ?_⟩
    rw [hsw, hev]
    exact hn

/-- A link event (cause 0x4) in a packet whose length is 0x123. -/
def linkEvent : RxArgs where
  dev := 0
  inPkt := ofList [0x23, 0x01, 0x03, 0x00, 0x04, 0x00, 0x00, 0x00]
  inPktLen := 0x123
  somenumber := 0

/-- It is dropped. -/
theorem linkEvent_dropped :
    ¬ ExactFilter (fun _ => 1) linkEvent
      (kwifimonProcessRespose (fun _ => 1) ⟨0, 0⟩ linkEvent (.start fun _ => [])) := by
  rintro ⟨h, -⟩
  have hdrop : swallows linkEvent.inPkt = true := by decide
  have hspec := h.mp ((swallowed_iff _ _ _ _).mpr hdrop)
  exact absurd hspec (by unfold MonitorEvent; decide)

/-! ## What is read -/

/-- Every byte read has an index below `len`. -/
def ReadsInside (len : Int) (reads : List (Nat × Nat)) : Prop :=
  ∀ p ∈ reads, ∀ i : Nat, p.1 ≤ i → i < p.1 + p.2 → (i : Int) < len

/-- The packet type always, the first two bytes for an event, three fields of `struct rxpd` for
    a data packet. -/
theorem kwifimonProcessRespose_reads (orig : RxArgs → Int) (a : LockAns) (args : RxArgs)
    (s : KState) :
    (kwifimonProcessRespose orig a args s).reads =
      (2, 2) :: ((if pktType args.inPkt = 3 then [(0, 2)] else []) ++
        if IsRx args.inPkt then [(8, 2), (6, 2), (10, 2)] else []) := by
  have hrx : ∀ reads, (resposeRx orig a args s reads).reads =
      reads ++ if IsRx args.inPkt then [(8, 2), (6, 2), (10, 2)] else [] := by
    intro reads
    unfold resposeRx
    by_cases hrx : pktType args.inPkt = 0 ∨ pktType args.inPkt = 10
    · have his : IsRx args.inPkt := hrx
      dsimp only
      rw [if_pos hrx, if_pos his]
      split <;> rfl
    · have his : ¬ IsRx args.inPkt := hrx
      dsimp only
      rw [if_neg hrx, if_neg his, List.append_nil]
  unfold kwifimonProcessRespose
  dsimp only
  by_cases h3 : pktType args.inPkt = 3
  · rw [if_pos h3, if_pos h3, if_neg (not_isRx_of_event h3)]
    split
    · rfl
    · rw [hrx, if_neg (not_isRx_of_event h3)]
      rfl
  · rw [if_neg h3, if_neg h3, hrx]
    rfl

theorem readsInside_nil (len : Int) : ReadsInside len [] := by
  intro p hp
  exact absurd hp List.not_mem_nil

theorem readsInside_append {len : Int} {l l' : List (Nat × Nat)} :
    ReadsInside len (l ++ l') ↔ ReadsInside len l ∧ ReadsInside len l' :=
  List.forall_mem_append

/-- Fields of two bytes: the last byte of each decides. -/
theorem readsInside_fields (len : Int) (l : List Nat) :
    ReadsInside len (l.map fun o => (o, 2)) ↔ ∀ o ∈ l, (o : Int) + 2 ≤ len := by
  unfold ReadsInside
  rw [List.forall_mem_map]
  refine forall₂_congr fun o _ => ?_
  dsimp only
  constructor
  · intro h
    have hlast := h (o + 1) (by omega) (by omega)
    omega
  · intro h i _ hi
    omega

/-- **Reads of the packet.** For every packet, length, module state and outcome of the mutex
    calls: the hook reads below `in_pkt_len` only if and only if the packet has an SDIO header
    and, if it is a data packet, the descriptor's fields up to `rx_pkt_type`. -/
theorem readsInside_iff (orig : RxArgs → Int) (a : LockAns) (args : RxArgs) (s : KState) :
    ReadsInside args.inPktLen (kwifimonProcessRespose orig a args s).reads ↔
      4 ≤ args.inPktLen ∧ (IsRx args.inPkt → 12 ≤ args.inPktLen) := by
  have htype := readsInside_fields args.inPktLen [2]
  have hevt := readsInside_fields args.inPktLen [0]
  have hrxpd := readsInside_fields args.inPktLen [8, 6, 10]
  simp only [List.map_cons, List.map_nil, List.forall_mem_cons, List.not_mem_nil,
    false_implies, implies_true, and_true] at htype hevt hrxpd
  rw [kwifimonProcessRespose_reads, ← List.singleton_append, readsInside_append,
    readsInside_append, htype]
  refine and_congr_right fun h4 => ?_
  have hfirst : ReadsInside args.inPktLen (if pktType args.inPkt = 3 then [(0, 2)] else []) := by
    split
    · exact hevt.mpr (by omega)
    · exact readsInside_nil _
  rw [and_iff_right hfirst]
  by_cases hrx : IsRx args.inPkt
  · rw [if_pos hrx, hrxpd]
    constructor
    · intro h _
      omega
    · intro h
      have h12 := h hrx
      omega
  · rw [if_neg hrx]
    exact iff_of_true (readsInside_nil _) fun h => absurd h hrx

/-- A data packet of six bytes. -/
def shortPacket : RxArgs where
  dev := 0
  inPkt := ofList [0x06, 0x00, 0x00, 0x00, 0x00, 0x00]
  inPktLen := 6
  somenumber := 0

/-- Its descriptor is read all the same. -/
theorem shortPacket_overread :
    ¬ ReadsInside shortPacket.inPktLen
      (kwifimonProcessRespose (fun _ => 1) ⟨0, 0⟩ shortPacket (.start fun _ => [])).reads := by
  have hrx : IsRx shortPacket.inPkt := by decide
  intro h
  have hlast := h (10, 2) (by
    rw [kwifimonProcessRespose_reads, if_pos hrx]
    simp) 11 (by decide) (by decide)
  exact absurd hlast (by decide)

end Wifimon.Kplugin
