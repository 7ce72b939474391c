/-
  What the system calls return, against what they did.

  `kwifimon_cap_start` and `kwifimon_net_start` keep the result of `pcap_open` and `knet_start`
  in `ret` and then store the result of the unlock in the same variable;
  `kwifimon_mod_stats` does not look at the result of its copy. So a caller may be told of a
  success that did not happen (`Truthful` says what a success is).

  `results_truthful_iff`: along every run of the module the calls are truthful if and only if
  every call meets `HonestAnswers`.
-/
import Wifimon.Kplugin.ModuleStop
import Wifimon.Kplugin.Respose

namespace Wifimon.Kplugin

open Pcap Knet RunLib

/-! ## Calls -/

/-- What changes the state of the module: a call of a recorder, a call of
    `kwifimon_mod_stats`, or a received packet. -/
inductive SysCall where
  | recorder (op : RecOp)
  | modStats (reset : Int) (a : ModStatsAns)
  | packet (orig : RxArgs → Int) (args : RxArgs) (a : LockAns)

def SysCall.run (s : KState) : SysCall → KState
  | .recorder op => op.run s
  | .modStats reset a => (kwifimonModStats reset a s).state
  | .packet orig args a => (kwifimonProcessRespose orig a args s).state

/-- The capture file is open, and it holds the file header. -/
structure CaptureOpen (s : KState) : Prop where
  handle : OpenOn s.pcap "ux0:/data/test.cap"
  header : s.pcap.io.disk "ux0:/data/test.cap" = pcapHdrBytes

structure SocketOpen (s : KState) : Prop where
  nonneg : 0 ≤ s.knet.knetFd
  handle : s.knet.knetFd ∈ s.knet.sockets

/-- A non-negative result means that the call did what it is for; the counters are cleared only
    when the caller has them. -/
def Truthful (s : KState) : SysCall → Prop
  | .recorder (.capStart a) =>
    0 ≤ (kwifimonCapStart a s).1 → CaptureOpen (kwifimonCapStart a s).2
  | .recorder (.netStart a) =>
    0 ≤ (kwifimonNetStart a s).1 → SocketOpen (kwifimonNetStart a s).2
  | .modStats reset a =>
    (0 ≤ (kwifimonModStats reset a s).ret →
        (kwifimonModStats reset a s).received = some s.kwifimonStats) ∧
      ((kwifimonModStats reset a s).state.kwifimonStats ≠ s.kwifimonStats →
        (kwifimonModStats reset a s).received = some s.kwifimonStats)
  | _ => True

/-- What the source does not look at went well: with the mutex taken, and given back, the open,
    the header write and the socket call; with the mutex taken, the copy to user space, unless
    the unlock fails and there was nothing to clear. -/
def HonestAnswers (s : KState) : SysCall → Prop
  | .recorder (.capStart a) => 0 ≤ a.lock → 0 ≤ a.unlock →
    0 ≤ a.pcap.fd ∧ 0 ≤ a.pcap.hdr.ret ∧ pcapHdrBytes.length ≤ a.pcap.hdr.stored
  | .recorder (.netStart a) => 0 ≤ a.lock → 0 ≤ a.unlock → 0 ≤ a.socket
  | .modStats reset a => 0 ≤ a.lock →
    0 ≤ a.copy ∨ a.unlock < 0 ∧ (reset = 0 ∨ s.kwifimonStats = .zero)
  | _ => True

/-! ## One call -/

/-- The first `n` bytes of the header are the header if and only if they are all of it. -/
theorem take_header_iff (n : Nat) : pcapHdrBytes.take n = pcapHdrBytes ↔ pcapHdrBytes.length ≤ n :=
  List.take_eq_self_iff pcapHdrBytes

/-- Whether the capture is open after a start that got the mutex. -/
theorem captureOpen_iff (s : KState) (a : CapStartAns) (hl : 0 ≤ a.lock) :
    CaptureOpen (kwifimonCapStart a s).2 ↔
      0 ≤ a.pcap.fd ∧ 0 ≤ a.pcap.hdr.ret ∧ pcapHdrBytes.length ≤ a.pcap.hdr.stored := by
  have hpcap := capStart_pcap a s hl
  obtain ⟨hwf, hfd⟩ := pcapOpen_fd "ux0:/data/test.cap" a.pcap s.pcap
  have hret := pcapOpen_ret "ux0:/data/test.cap" a.pcap s.pcap
  constructor
  · intro h
    have hnonneg := h.handle.nonneg
    have hheader := h.header
    rw [show (kwifimonCapStart a s).2.pcap = _ from hpcap] at hnonneg hheader
    obtain ⟨hopen, hwrite⟩ := hret.mp (hfd.mp hnonneg)
    rw [(pcapOpen_stored _ s.pcap hopen hwrite).2.2] at hheader
    exact ⟨hopen, hwrite, (take_header_iff _).mp hheader⟩
  · intro h
    obtain ⟨hopen, hwrite, hstored⟩ := h
    obtain ⟨-, hon, hdisk⟩ := pcapOpen_stored "ux0:/data/test.cap" s.pcap hopen hwrite
    rw [(take_header_iff _).mpr hstored] at hdisk
    constructor
    · rw [show (kwifimonCapStart a s).2.pcap = _ from hpcap]
      exact hon
    · rw [show (kwifimonCapStart a s).2.pcap = _ from hpcap]
      exact hdisk

theorem socketOpen_iff (s : KState) (a : NetStartAns) (hl : 0 ≤ a.lock) :
    SocketOpen (kwifimonNetStart a s).2 ↔ 0 ≤ a.socket := by
  have hknet : (kwifimonNetStart a s).2.knet = _ := netStart_knet a s hl
  obtain ⟨hfd, hmem⟩ := knetStart_fd kwifimonNetPort a.socket s.knet
  constructor
  · intro h
    have hnonneg := h.nonneg
    rwa [hknet, hfd] at hnonneg
  · intro h
    constructor
    · rwa [hknet, hfd]
    · rw [hknet, hfd]
      exact hmem h

/-- A call that returns what the mutex calls answer says something only if both succeed. -/
theorem mutexResult_iff {lock unlock ret : Int} {P Q : Prop}
    (hret : ret = if 0 ≤ lock then unlock else lock) (h : 0 ≤ lock → (P ↔ Q)) :
    (0 ≤ ret → P) ↔ (0 ≤ lock → 0 ≤ unlock → Q) := by
  by_cases hl : 0 ≤ lock
  · rw [if_pos hl] at hret
    rw [hret, h hl]
    exact ⟨fun hq _ => hq, fun hq => hq hl⟩
  · rw [if_neg hl] at hret
    rw [hret]
    exact iff_of_true (fun h0 => absurd h0 hl) (fun h0 => absurd h0 hl)

theorem capStart_truthful (s : KState) (a : CapStartAns) :
    Truthful s (.recorder (.capStart a)) ↔ HonestAnswers s (.recorder (.capStart a)) := by
  refine mutexResult_iff ?_ (captureOpen_iff s a)
  unfold kwifimonCapStart
  split <;> rfl

theorem netStart_truthful (s : KState) (a : NetStartAns) :
    Truthful s (.recorder (.netStart a)) ↔ HonestAnswers s (.recorder (.netStart a)) := by
  refine mutexResult_iff ?_ (socketOpen_iff s a)
  unfold kwifimonNetStart
  split <;> rfl

/-- With the mutex the caller has the counters if and only if the copy went well, and they are
    cleared whenever that was asked for. -/
theorem modStats_locked (reset : Int) (a : ModStatsAns) (s : KState) (hl : 0 ≤ a.lock) :
    (kwifimonModStats reset a s).ret = a.unlock ∧
      ((kwifimonModStats reset a s).received = some s.kwifimonStats ↔ 0 ≤ a.copy) ∧
      ((kwifimonModStats reset a s).state.kwifimonStats ≠ s.kwifimonStats ↔
        ¬ (reset = 0 ∨ s.kwifimonStats = .zero)) := by
  unfold kwifimonModStats
  rw [if_pos hl]
  refine ⟨rfl, ?_, ?_⟩
  · dsimp only
    by_cases hc : 0 ≤ a.copy
    · rw [if_pos hc]
      exact iff_of_true rfl hc
    · rw [if_neg hc]
      exact iff_of_false (fun h => by cases h) hc
  · dsimp only
    by_cases hr : reset = 0
    · rw [if_neg (not_not_intro hr)]
      exact iff_of_false (fun h => h rfl) (not_not_intro (Or.inl hr))
    · rw [if_pos hr, or_iff_right hr]
      exact not_congr eq_comm

theorem modStats_truthful (s : KState) (reset : Int) (a : ModStatsAns) :
    Truthful s (.modStats reset a) ↔ HonestAnswers s (.modStats reset a) := by
  unfold Truthful HonestAnswers
  dsimp only
  by_cases hl : 0 ≤ a.lock
  · obtain ⟨hret, hrec, hclear⟩ := modStats_locked reset a s hl
    rw [hret, hrec, hclear]
    constructor
    · intro h _
      by_cases hc : 0 ≤ a.copy
      · exact Or.inl hc
      · refine Or.inr ⟨Int.not_le.mp fun hu => hc (h.1 hu), ?_⟩
        exact not_not.mp fun hq => hc (h.2 hq)
    · intro h
      obtain hc | ⟨hu, hq⟩ := h hl
      · exact ⟨fun _ => hc, fun _ => hc⟩
      · exact ⟨fun h0 => absurd hu (Int.not_lt.mpr h0), fun hn => absurd hq hn⟩
  · have hr : kwifimonModStats reset a s = { ret := a.lock, received := none, state := s } := by
      unfold kwifimonModStats
      rw [if_neg hl]
    rw [hr]
    exact iff_of_true ⟨fun h => absurd h hl, fun h => absurd rfl h⟩ (fun h => absurd h hl)

/-- One call, in any state. -/
theorem sysCall_truthful (s : KState) (c : SysCall) : Truthful s c ↔ HonestAnswers s c := by
  cases c with
  | recorder op =>
    cases op with
    | capStart a => exact capStart_truthful s a
    | netStart a => exact netStart_truthful s a
    | capStop _ => exact Iff.rfl
    | netStop _ => exact Iff.rfl
  | modStats reset a => exact modStats_truthful s reset a
  | packet _ _ _ => exact Iff.rfl

/-! ## Runs -/

/-- **The results.** Along every run of the module, whatever its calls are answered, every call
    is truthful if and only if every call gets honest answers. -/
theorem results_truthful_iff (disk : String → List UInt8) (a : StartAns) (calls : List SysCall) :
    EachStep SysCall.run Truthful (moduleStart disk a).2.k calls ↔
      EachStep SysCall.run HonestAnswers (moduleStart disk a).2.k calls :=
  eachStep_congr sysCall_truthful

/-- The file cannot be opened, and `kwifimon_cap_start` returns 0. -/
theorem failedCapture_untruthful :
    ¬ EachStep SysCall.run Truthful (moduleStart (fun _ => []) ⟨0, (1, 0), (2, 0)⟩).2.k
      [.recorder (.capStart ⟨0, ⟨-1, ⟨0, 0⟩⟩, 0⟩)] := by
  intro h
  have hopen := h [] _ (List.prefix_refl _) (by decide)
  exact absurd hopen.handle.nonneg (by decide)

end Wifimon.Kplugin
