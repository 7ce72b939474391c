/-
  `src/kplugin/kwifimon.c`: the module's state and its six system calls.

  Every call takes the mutex, does its work and releases it; the mutex calls, the file calls,
  the socket call and the copy to user space are answered from outside. A call whose lock fails
  returns the error and does nothing.

  `recFile_agrees_iff`: along a run of `kwifimon_cap_start`, `kwifimon_cap_stop`,
  `kwifimon_net_start` and `kwifimon_net_stop` from a fresh module, the bit `STATE_REC_FILE` of
  `kwifimon_mod_state` says whether a capture file is open if and only if every step of the run
  meets `KeepsRecFile`: the network recorder is started only while a file is open and stopped
  only while none is (`STATE_REC_NET` is 3, so it contains the file bit), and no restart of a
  running capture fails (`kwifimon_cap_start` leaves the bit set when it does).
-/
import Wifimon.Lib.Runs
import Wifimon.Kplugin.Pcap
import Wifimon.Kplugin.Knet
import Mathlib.Data.Nat.Bitwise

namespace Wifimon.Kplugin

open Pcap Knet RunLib

/-! ## State -/

/-- `enum kwifimon_state_t`, the values the system calls use. -/
def stateRecFile : UInt32 := 0x00000002
def stateRecNet : UInt32 := 0x00000003

def kwifimonNetPort : UInt16 := 65111

/-- `struct wifimon_stats_t`. -/
@[ext] structure WifimonStats where
  pktCnt : UInt32
  mgmtCnt : UInt32
  amsduCnt : UInt32
  barCnt : UInt32
  evtCnt : UInt32
  deriving DecidableEq

def WifimonStats.zero : WifimonStats := ⟨0, 0, 0, 0, 0⟩

/-- The variables of the module (`kwifimon_state` is an `int`; its bits are kept here). -/
structure KState where
  pcap : PcapState
  knet : KnetState
  kwifimonState : UInt32
  kwifimonStats : WifimonStats

/-- The module after a successful `module_start`. -/
def KState.start (disk : String → List UInt8) : KState :=
  ⟨.start disk, .start, 0, .zero⟩

/-! ## System calls -/

def kwifimonModState (s : KState) : UInt32 := s.kwifimonState

structure CapStartAns where
  lock : Int
  pcap : OpenAns
  unlock : Int

def kwifimonCapStart (a : CapStartAns) (s : KState) : Int × KState :=
  if 0 ≤ a.lock then
    let r := pcapOpen "ux0:/data/test.cap" a.pcap s.pcap
    let s := { s with pcap := r.2 }
    let s := if r.1 = 0 then { s with kwifimonState := s.kwifimonState ||| stateRecFile } else s
    (a.unlock, s)
  else (a.lock, s)

structure LockAns where
  lock : Int
  unlock : Int

def kwifimonCapStop (a : LockAns) (s : KState) : Int × KState :=
  if 0 ≤ a.lock then
    (a.unlock, { s with
      pcap := pcapClose s.pcap
      kwifimonState := s.kwifimonState &&& ~~~stateRecFile })
  else (a.lock, s)

structure ModStatsAns where
  lock : Int
  copy : Int
  unlock : Int

/-- The value returned, the counters the caller received, and the state left behind. -/
structure ModStatsResult where
  ret : Int
  received : Option WifimonStats
  state : KState

/-- The result of `ksceKernelMemcpyKernelToUser` is not looked at. -/
def kwifimonModStats (reset : Int) (a : ModStatsAns) (s : KState) : ModStatsResult :=
  if 0 ≤ a.lock then
    { ret := a.unlock
      received := if 0 ≤ a.copy then some s.kwifimonStats else none
      state := if reset ≠ 0 then { s with kwifimonStats := .zero } else s }
  else { ret := a.lock, received := none, state := s }

structure NetStartAns where
  lock : Int
  socket : Int
  unlock : Int

def kwifimonNetStart (a : NetStartAns) (s : KState) : Int × KState :=
  if 0 ≤ a.lock then
    let r := knetStart kwifimonNetPort a.socket s.knet
    let s := { s with knet := r.2 }
    let s := if r.1 = 0 then { s with kwifimonState := s.kwifimonState ||| stateRecNet } else s
    (a.unlock, s)
  else (a.lock, s)

def kwifimonNetStop (a : LockAns) (s : KState) : Int × KState :=
  if 0 ≤ a.lock then
    (a.unlock, { s with
      knet := knetStop s.knet
      kwifimonState := s.kwifimonState &&& ~~~stateRecNet })
  else (a.lock, s)

/-- The calls that start and stop the recorders, with the answers they get. -/
inductive RecOp where
  | capStart (a : CapStartAns)
  | capStop (a : LockAns)
  | netStart (a : NetStartAns)
  | netStop (a : LockAns)

def RecOp.run (s : KState) : RecOp → KState
  | .capStart a => (kwifimonCapStart a s).2
  | .capStop a => (kwifimonCapStop a s).2
  | .netStart a => (kwifimonNetStart a s).2
  | .netStop a => (kwifimonNetStop a s).2

def RecOp.IsNet : RecOp → Prop
  | .capStart _ | .capStop _ => False
  | .netStart _ | .netStop _ => True

/-! ## The capture file -/

/-- `pcap_fd` is the handle of an open file. -/
def FileOpen (p : PcapState) : Prop := ∃ file, OpenOn p file

/-- A non-negative `pcap_fd` is always an open handle: only `pcap_open` sets it so. -/
def PcapWf (p : PcapState) : Prop := 0 ≤ p.pcapFd → FileOpen p

theorem fileOpen_iff {p : PcapState} (h : PcapWf p) : FileOpen p ↔ 0 ≤ p.pcapFd :=
  ⟨fun ⟨_, ho⟩ => ho.nonneg, h⟩

theorem pcapWf_of_neg {p : PcapState} (h : p.pcapFd < 0) : PcapWf p :=
  fun h0 => absurd h0 (by omega)

/-- `pcap_open` succeeds if and only if the open and the header write do. -/
theorem pcapOpen_ret (file : String) (a : OpenAns) (p : PcapState) :
    (pcapOpen file a p).1 = 0 ↔ 0 ≤ a.fd ∧ 0 ≤ a.hdr.ret := by
  unfold pcapOpen
  dsimp only
  by_cases h1 : a.fd < 0
  · rw [if_pos h1]
    show (-1 : Int) = 0 ↔ _
    omega
  · rw [if_neg h1]
    by_cases h2 : a.hdr.ret < 0
    · rw [if_pos h2]
      show (-1 : Int) = 0 ↔ _
      omega
    · rw [if_neg h2]
      show (0 : Int) = 0 ↔ _
      omega

/-- After `pcap_open` a file is open if and only if it returned 0. -/
theorem pcapOpen_fd (file : String) (a : OpenAns) (p : PcapState) :
    PcapWf (pcapOpen file a p).2 ∧
      (0 ≤ (pcapOpen file a p).2.pcapFd ↔ (pcapOpen file a p).1 = 0) := by
  rw [pcapOpen_ret]
  unfold pcapOpen
  dsimp only
  generalize (if 0 < p.pcapFd then pcapClose p else p).io = io
  by_cases h1 : a.fd < 0
  · rw [if_pos h1]
    exact ⟨pcapWf_of_neg h1, by simp only; omega⟩
  · have hopen : OpenOn ⟨a.fd, ioOpen file a.fd io⟩ file :=
      ⟨by simp only; omega, by simp [ioOpen, Int.not_lt.mp h1]⟩
    rw [if_neg h1]
    by_cases h2 : a.hdr.ret < 0
    · rw [if_pos h2]
      have := pcapClose_fd ⟨a.fd, ioWrite a.fd pcapHdrBytes a.hdr (ioOpen file a.fd io)⟩
      exact ⟨pcapWf_of_neg this, by simp only; omega⟩
    · rw [if_neg h2]
      exact ⟨fun _ => ⟨file, (openOn_ioWrite hopen _ _).1⟩, by simp only; omega⟩

/-! ## What the start calls leave -/

theorem capStart_pcap (a : CapStartAns) (k : KState) (h : 0 ≤ a.lock) :
    (RecOp.run k (.capStart a)).pcap = (pcapOpen "ux0:/data/test.cap" a.pcap k.pcap).2 := by
  simp only [RecOp.run, kwifimonCapStart, if_pos h]
  split <;> rfl

theorem netStart_knet (a : NetStartAns) (k : KState) (h : 0 ≤ a.lock) :
    (RecOp.run k (.netStart a)).knet = (knetStart kwifimonNetPort a.socket k.knet).2 := by
  simp only [RecOp.run, kwifimonNetStart, if_pos h]
  split <;> rfl

/-! ## The file bit -/

/-- The file-recording bit of a state word. -/
def RecFileBit (state : UInt32) : Prop := state &&& stateRecFile ≠ 0

instance (state : UInt32) : Decidable (RecFileBit state) := inferInstanceAs (Decidable (_ ≠ _))

theorem recFileBit_iff (x : UInt32) : RecFileBit x ↔ x.toNat.testBit 1 = true := by
  have h : (x &&& stateRecFile).toNat = 2 ^ 1 * (x.toNat.testBit 1).toNat := by
    rw [UInt32.toNat_and, Nat.land_comm, show stateRecFile.toNat = 2 ^ 1 from rfl,
      Nat.two_pow_and]
  rw [RecFileBit, Ne, ← UInt32.toNat_inj, h]
  cases x.toNat.testBit 1 <;> simp

/-- Setting flags that contain the file bit sets it. -/
theorem recFileBit_or {flags : UInt32} (hf : RecFileBit flags) (x : UInt32) :
    RecFileBit (x ||| flags) := by
  rw [recFileBit_iff] at hf ⊢
  rw [UInt32.toNat_or, Nat.testBit_or, hf, Bool.or_true]

/-- Clearing flags that contain the file bit clears it. -/
theorem recFileBit_and {mask : UInt32} (hm : ¬ RecFileBit mask) (x : UInt32) :
    ¬ RecFileBit (x &&& mask) := by
  rw [recFileBit_iff] at hm ⊢
  rw [UInt32.toNat_and, Nat.testBit_and, Bool.eq_false_iff.mpr hm, Bool.and_false]
  exact Bool.false_ne_true

/-- The file bit of the module state says whether a capture file is open. -/
def RecFileAgrees (s : KState) : Prop :=
  RecFileBit (kwifimonModState s) ↔ FileOpen s.pcap

/-- A network call leaves the file bit alone. -/
def NetKeepsRecFile (s : KState) (op : RecOp) : Prop :=
  op.IsNet → (RecFileBit (kwifimonModState (op.run s)) ↔ RecFileBit (kwifimonModState s))

/-- What a call needs for the file bit to stay right: a capture restarted while a file is open
    gets its file and its header; the network recorder is started with a file open and stopped
    with none. Calls that do not get the mutex need nothing. -/
def KeepsRecFile (s : KState) : RecOp → Prop
  | .capStart a => 0 ≤ a.lock → FileOpen s.pcap → 0 ≤ a.pcap.fd ∧ 0 ≤ a.pcap.hdr.ret
  | .capStop _ => True
  | .netStart a => 0 ≤ a.lock → 0 ≤ a.socket → FileOpen s.pcap
  | .netStop a => 0 ≤ a.lock → ¬ FileOpen s.pcap

/-! ## One call -/

theorem capStart_agrees {s : KState} (a : CapStartAns) (hp : RecFileAgrees s) :
    RecFileAgrees (RecOp.run s (.capStart a)) ↔ KeepsRecFile s (.capStart a) := by
  obtain ⟨hwf, hfd⟩ := pcapOpen_fd "ux0:/data/test.cap" a.pcap s.pcap
  have hret := pcapOpen_ret "ux0:/data/test.cap" a.pcap s.pcap
  have hopen := (fileOpen_iff hwf).trans hfd
  by_cases hl : 0 ≤ a.lock
  · simp only [RecOp.run, kwifimonCapStart, if_pos hl, KeepsRecFile]
    by_cases hr : (pcapOpen "ux0:/data/test.cap" a.pcap s.pcap).1 = 0
    · -- the open succeeded: the bit is set and the file is open
      rw [if_pos hr]
      have hbit := recFileBit_or (show RecFileBit stateRecFile by decide) s.kwifimonState
      exact ⟨fun _ _ _ => hret.mp hr, fun _ => ⟨fun _ => hopen.mpr hr, fun _ => hbit⟩⟩
    · -- it failed: no file is open, and the bit is what it was
      rw [if_neg hr]
      have hno : ¬ FileOpen (pcapOpen "ux0:/data/test.cap" a.pcap s.pcap).2 := mt hopen.mp hr
      constructor
      · intro h _ hf
        exact absurd (h.mp (hp.mpr hf)) hno
      · intro hk
        exact ⟨fun hb => absurd (hret.mpr (hk hl (hp.mp hb))) hr, fun hf => absurd hf hno⟩
  · simp only [RecOp.run, kwifimonCapStart, if_neg hl, KeepsRecFile]
    exact ⟨fun _ h => absurd h hl, fun _ => hp⟩

theorem capStop_agrees {s : KState} (a : LockAns) (hp : RecFileAgrees s) :
    RecFileAgrees (RecOp.run s (.capStop a)) := by
  simp only [RecOp.run, kwifimonCapStop]
  by_cases hl : 0 ≤ a.lock
  · rw [if_pos hl]
    have hbit := recFileBit_and (show ¬ RecFileBit (~~~stateRecFile) by decide) s.kwifimonState
    have hno : ¬ FileOpen (pcapClose s.pcap) := fun ⟨_, ho⟩ => by
      have := ho.nonneg
      have := pcapClose_fd s.pcap
      omega
    exact ⟨fun h => absurd h hbit, fun h => absurd h hno⟩
  · rw [if_neg hl]; exact hp

/-- What a network call does to the part of the state the file bit is about: nothing to the
    capture file, and it sets the bit or clears it. -/
theorem netStart_cases (s : KState) (a : NetStartAns) :
    (RecOp.run s (.netStart a)).pcap = s.pcap ∧
      (0 ≤ a.lock ∧ 0 ≤ a.socket ∧ RecFileBit (RecOp.run s (.netStart a)).kwifimonState ∨
        ¬ (0 ≤ a.lock ∧ 0 ≤ a.socket) ∧
          (RecOp.run s (.netStart a)).kwifimonState = s.kwifimonState) := by
  simp only [RecOp.run, kwifimonNetStart, knetStart]
  by_cases hl : 0 ≤ a.lock
  · rw [if_pos hl]
    by_cases hs : a.socket < 0
    · rw [if_pos hs]; exact ⟨rfl, Or.inr ⟨by omega, rfl⟩⟩
    · rw [if_neg hs]
      exact ⟨rfl, Or.inl ⟨hl, by omega,
        recFileBit_or (show RecFileBit stateRecNet by decide) s.kwifimonState⟩⟩
  · rw [if_neg hl]; exact ⟨rfl, Or.inr ⟨fun h => hl h.1, rfl⟩⟩

theorem netStop_cases (s : KState) (a : LockAns) :
    (RecOp.run s (.netStop a)).pcap = s.pcap ∧
      (0 ≤ a.lock ∧ ¬ RecFileBit (RecOp.run s (.netStop a)).kwifimonState ∨
        ¬ 0 ≤ a.lock ∧ (RecOp.run s (.netStop a)).kwifimonState = s.kwifimonState) := by
  simp only [RecOp.run, kwifimonNetStop]
  by_cases hl : 0 ≤ a.lock
  · rw [if_pos hl]
    exact ⟨rfl, Or.inl ⟨hl,
      recFileBit_and (show ¬ RecFileBit (~~~stateRecNet) by decide) s.kwifimonState⟩⟩
  · rw [if_neg hl]; exact ⟨rfl, Or.inr ⟨hl, rfl⟩⟩

theorem netStart_agrees {s : KState} (a : NetStartAns) (hp : RecFileAgrees s) :
    RecFileAgrees (RecOp.run s (.netStart a)) ↔ KeepsRecFile s (.netStart a) := by
  obtain ⟨hpc, ⟨hl, hs, hb⟩ | ⟨hn, he⟩⟩ := netStart_cases s a
  · rw [RecFileAgrees, hpc]
    exact ⟨fun h _ _ => h.mp hb, fun hk => ⟨fun _ => hk hl hs, fun _ => hb⟩⟩
  · rw [RecFileAgrees, kwifimonModState, hpc, he]
    exact ⟨fun _ hl hs => absurd ⟨hl, hs⟩ hn, fun _ => hp⟩

theorem netStop_agrees {s : KState} (a : LockAns) (hp : RecFileAgrees s) :
    RecFileAgrees (RecOp.run s (.netStop a)) ↔ KeepsRecFile s (.netStop a) := by
  obtain ⟨hpc, ⟨hl, hb⟩ | ⟨hn, he⟩⟩ := netStop_cases s a
  · rw [RecFileAgrees, hpc]
    exact ⟨fun h _ hf => hb (h.mpr hf), fun hk => ⟨fun h => absurd h hb, fun hf => absurd hf (hk hl)⟩⟩
  · rw [RecFileAgrees, kwifimonModState, hpc, he]
    exact ⟨fun _ hl => absurd hl hn, fun _ => hp⟩

/-- One call from a state whose file bit is right: it stays right if and only if the call meets
    `KeepsRecFile`. -/
theorem recOp_agrees {s : KState} (op : RecOp) (hp : RecFileAgrees s) :
    RecFileAgrees (op.run s) ↔ KeepsRecFile s op := by
  cases op with
  | capStart a => exact capStart_agrees a hp
  | capStop a => exact ⟨fun _ => trivial, fun _ => capStop_agrees a hp⟩
  | netStart a => exact netStart_agrees a hp
  | netStop a => exact netStop_agrees a hp

theorem recOp_net_pcap (s : KState) (op : RecOp) (h : op.IsNet) : (op.run s).pcap = s.pcap := by
  cases op with
  | capStart _ => exact absurd h id
  | capStop _ => exact absurd h id
  | netStart a => exact (netStart_cases s a).1
  | netStop a => exact (netStop_cases s a).1

/-! ## Runs -/

theorem start_agrees (disk : String → List UInt8) : RecFileAgrees (.start disk) :=
  ⟨fun h => absurd h (show ¬ RecFileBit 0 by decide),
    fun ⟨_, ho⟩ => absurd ho.nonneg (show ¬ (0 : Int) ≤ -1 by decide)⟩

/-- **The file bit.** Along a run of recorder calls from a fresh module, the file bit says in
    every state reached whether a capture file is open, and no network call changes it, if and
    only if every call meets `KeepsRecFile`. -/
theorem recFile_agrees_iff (disk : String → List UInt8) (ops : List RecOp) :
    Always RecOp.run RecFileAgrees (.start disk) ops ∧
        EachStep RecOp.run NetKeepsRecFile (.start disk) ops ↔
      EachStep RecOp.run KeepsRecFile (.start disk) ops := by
  have key : Always RecOp.run RecFileAgrees (.start disk) ops ↔
      EachStep RecOp.run KeepsRecFile (.start disk) ops :=
    always_iff_eachStep (I := fun _ => True) (fun _ _ _ => trivial)
      (fun _ op _ hp => recOp_agrees op hp) trivial (start_agrees disk) ops
  constructor
  · exact fun h => key.mp h.1
  · intro h
    have hall := key.mpr h
    refine ⟨hall, fun pre op hpre hnet => ?_⟩
    -- the bit is right before and after the call, and the call does not touch the file
    have h0 := hall pre ((List.prefix_append pre [op]).trans hpre)
    have h1 := hall (pre ++ [op]) hpre
    rw [List.foldl_append] at h1
    have hpc := recOp_net_pcap (pre.foldl RecOp.run (.start disk)) op hnet
    exact h1.trans (by rw [show ([op].foldl RecOp.run (pre.foldl RecOp.run (.start disk))).pcap =
      (pre.foldl RecOp.run (.start disk)).pcap from hpc]; exact h0.symm)

/-- Starting the network recorder on a fresh module sets the file bit with no file open. -/
theorem netStart_sets_recFile :
    ¬ (Always RecOp.run RecFileAgrees (.start fun _ => []) [.netStart ⟨0, 3, 0⟩] ∧
      EachStep RecOp.run NetKeepsRecFile (.start fun _ => []) [.netStart ⟨0, 3, 0⟩]) := by
  rintro ⟨h, -⟩
  have hbit : RecFileBit
      (kwifimonModState (RecOp.run (.start fun _ => []) (.netStart ⟨0, 3, 0⟩))) := by decide
  obtain ⟨_, hopen⟩ := h.run.mp hbit
  exact absurd hopen.nonneg (by decide)

end Wifimon.Kplugin
