/-
  The handles of the module: `pcap_fd` of `src/kplugin/pcap.c`, `knet_fd` of `src/kplugin/knet.c`.

  Both are a variable that holds the handle of what is open (`Slot`); the two files differ in
  what they close (`filePolicy`, `netPolicy`). `pcap_open` closes what it finds, but tests
  `> 0` where every other function tests `>= 0` or `< 0`; `knet_start` closes nothing, and
  `knet_stop` closes whatever it finds, a socket or -1.

  * `file_lifecycle_iff`: along a run of the functions of pcap.c at most one file is open, the
    one in `pcap_fd`, only open files are closed, and `pcap_close` leaves none open, if and only
    if no `pcap_open` of the run finds handle 0 in `pcap_fd`.
  * `socket_lifecycle_iff`: along a run of system calls and a final `module_stop` the same holds
    of sockets, and at the end every socket was closed as often as it was created, if and only
    if every network start finds no socket, and every network stop and `module_stop` find one.
-/
import Wifimon.Lib.Handles
import Wifimon.Kplugin.ModuleStop
import Mathlib.Data.List.Count

namespace Wifimon.Kplugin

open Pcap Knet RunLib HandleLib

/-! ## `pcap_fd` as a slot -/

def ioEvent : IoEvent → Event
  | .opened fd => .opened fd
  | .closed fd => .closed fd

def fileSlot (p : PcapState) : Slot where
  fd := p.pcapFd
  live := p.io.handles.map Prod.fst
  log := p.io.log.map ioEvent

/-- What `pcap_open` and `pcap_close` close. -/
def filePolicy : Policy where
  closesOld fd := decide (0 < fd)
  closesAny := false

theorem fileSlot_ioClose (p : PcapState) :
    fileSlot { pcapFd := -1, io := ioClose p.pcapFd p.io } = (fileSlot p).closeFd := by
  unfold fileSlot ioClose Slot.closeFd
  dsimp only
  rw [List.erase_eq_eraseP', List.eraseP_map, List.map_append]
  rfl

theorem fileSlot_close (p : PcapState) :
    fileSlot (pcapClose p) = (fileSlot p).release filePolicy := by
  unfold pcapClose
  by_cases h : 0 ≤ p.pcapFd
  · rw [if_pos h, fileSlot_ioClose]
    exact (if_pos (Or.inr h)).symm
  · rw [if_neg h]
    exact (if_neg (not_or.mpr ⟨Bool.false_ne_true, h⟩)).symm

theorem fileSlot_ioWrite (fd fd' : Int) (buf : List UInt8) (a : WriteAns) (io : IoState) :
    fileSlot ⟨fd, ioWrite fd' buf a io⟩ = fileSlot ⟨fd, io⟩ := by
  unfold ioWrite
  cases io.handles.lookup fd' <;> rfl

theorem fileSlot_ioOpen (file : String) (fd : Int) (p : PcapState) :
    fileSlot { pcapFd := fd, io := ioOpen file fd p.io } = (fileSlot p).openFd fd := by
  unfold ioOpen Slot.openFd
  by_cases h : 0 ≤ fd
  · rw [if_pos h, if_pos h]
    unfold fileSlot
    rw [List.map_append]
    rfl
  · rw [if_neg h, if_neg h]
    rfl

/-- `pcap_open` acquires the handle it is answered, and keeps it if it can write the header. -/
theorem fileSlot_open (file : String) (a : OpenAns) (p : PcapState) :
    fileSlot (pcapOpen file a p).2 =
      (fileSlot p).acquire filePolicy a.fd (decide (0 ≤ a.hdr.ret)) := by
  have hold : fileSlot (if 0 < p.pcapFd then pcapClose p else p) =
      (fileSlot p).closeOld filePolicy := by
    by_cases h : 0 < p.pcapFd
    · rw [if_pos h, fileSlot_close]
      exact (if_pos (Or.inr (Int.le_of_lt h))).trans (if_pos (decide_eq_true h)).symm
    · rw [if_neg h]
      exact (if_neg fun hd => h (of_decide_eq_true hd)).symm
  unfold pcapOpen Slot.acquire
  dsimp only
  generalize (if 0 < p.pcapFd then pcapClose p else p) = p' at hold ⊢
  rw [← hold, ← fileSlot_ioOpen file a.fd p']
  by_cases h1 : a.fd < 0
  · rw [if_pos h1, if_pos (Or.inr h1)]
  · rw [if_neg h1]
    by_cases h2 : a.hdr.ret < 0
    · -- the header could not be written: the new handle is closed
      have hkeep : ¬ (decide (0 ≤ a.hdr.ret) = true ∨ a.fd < 0) := by
        rw [decide_eq_true_eq]
        omega
      rw [if_pos h2, if_neg hkeep, fileSlot_close]
      exact (if_pos (Or.inr (Int.not_lt.mp h1))).trans
        (congrArg Slot.closeFd (fileSlot_ioWrite a.fd a.fd _ _ _))
    · rw [if_neg h2, if_pos (Or.inl (decide_eq_true (Int.not_lt.mp h2)))]
      exact fileSlot_ioWrite a.fd a.fd _ _ _

/-- A failing write closes the handle. -/
theorem fileSlot_failed {p q : PcapState} (h : fileSlot q = fileSlot p) :
    fileSlot (pcapClose q) = (fileSlot p).release filePolicy := by
  rw [fileSlot_close, h]

/-- The two write functions leave the handle alone or close it. -/
theorem fileSlot_writeRaw (buf : List UInt8) (bufLen : UInt32) (a : RawAns) (p : PcapState) :
    fileSlot (pcapWriteRaw buf bufLen a p).2 = fileSlot p ∨
      fileSlot (pcapWriteRaw buf bufLen a p).2 = (fileSlot p).release filePolicy := by
  have h1 := fileSlot_ioWrite p.pcapFd p.pcapFd (recHeader a.tv bufLen).bytes a.hdr p.io
  have h2 := (fileSlot_ioWrite p.pcapFd p.pcapFd (buf.take bufLen.toNat) a.body _).trans h1
  unfold pcapWriteRaw
  split
  · exact Or.inl rfl
  · split
    · exact Or.inr (fileSlot_failed h1)
    · split
      · exact Or.inr (fileSlot_failed h2)
      · exact Or.inl h2

theorem fileSlot_writeRt (rtap : RadiotapHeader) (buf : List UInt8) (bufLen : UInt32) (a : RtAns)
    (p : PcapState) :
    fileSlot (pcapWriteRt rtap buf bufLen a p).2 = fileSlot p ∨
      fileSlot (pcapWriteRt rtap buf bufLen a p).2 = (fileSlot p).release filePolicy := by
  have h1 := fileSlot_ioWrite p.pcapFd p.pcapFd (recHeader a.tv bufLen).bytes a.hdr p.io
  have h2 := (fileSlot_ioWrite p.pcapFd p.pcapFd (rtap.bytes.take rtap.itLen.toNat) a.rtap _).trans h1
  have h3 := (fileSlot_ioWrite p.pcapFd p.pcapFd (buf.take bufLen.toNat) a.body _).trans h2
  unfold pcapWriteRt
  split
  · exact Or.inl rfl
  · split
    · exact Or.inr (fileSlot_failed h1)
    · split
      · exact Or.inr (fileSlot_failed h2)
      · split
        · exact Or.inr (fileSlot_failed h3)
        · exact Or.inl h3

/-! ## Runs of `pcap.c` -/

/-- A call of one of the functions of pcap.c, with the answers it gets. -/
inductive PcapOp where
  | openFile (file : String) (a : OpenAns)
  | writeRaw (buf : List UInt8) (bufLen : UInt32) (a : RawAns)
  | writeRt (rtap : RadiotapHeader) (buf : List UInt8) (bufLen : UInt32) (a : RtAns)
  | close

def PcapOp.run (p : PcapState) : PcapOp → PcapState
  | .openFile file a => (pcapOpen file a p).2
  | .writeRaw buf bufLen a => (pcapWriteRaw buf bufLen a p).2
  | .writeRt rtap buf bufLen a => (pcapWriteRt rtap buf bufLen a p).2
  | .close => pcapClose p

/-- At most one file is open, and `pcap_fd` is its handle; only open files were closed. -/
structure FileOwned (p : PcapState) : Prop where
  one : p.io.handles = [] ∨ ∃ file, p.io.handles = [(p.pcapFd, file)]
  closes : ClosesLive (p.io.log.map ioEvent)

/-- No file is open after a `pcap_close`. -/
def CloseEmpties (p : PcapState) (op : PcapOp) : Prop :=
  op = .close → (op.run p).io.handles = []

/-- A `pcap_open` does not find handle 0 in `pcap_fd`. -/
def FindsNoZero (p : PcapState) : PcapOp → Prop
  | .openFile _ _ => p.pcapFd ≠ 0
  | _ => True

theorem fileOwned_iff (p : PcapState) : FileOwned p ↔ (fileSlot p).Good := by
  have htidy : (p.io.handles = [] ∨ ∃ file, p.io.handles = [(p.pcapFd, file)]) ↔
      (fileSlot p).Tidy := by
    unfold Slot.Tidy fileSlot
    dsimp only
    rw [List.map_eq_nil_iff, List.map_eq_singleton_iff]
    refine or_congr_right ⟨?_, ?_⟩
    · intro h
      obtain ⟨file, hf⟩ := h
      exact ⟨_, hf, rfl⟩
    · intro h
      obtain ⟨⟨fd, file⟩, hf, hfd⟩ := h
      exact ⟨file, by rw [hf, ← hfd]⟩
  exact ⟨fun h => ⟨htidy.mp h.one, h.closes⟩, fun h => ⟨htidy.mpr h.tidy, h.closes⟩⟩

/-- A call does nothing to the slot, or it is one of the slot's operations, which the policy
    allows unless the call is an open that finds handle 0. -/
theorem fileSlot_run (p : PcapState) (op : PcapOp) :
    (fileSlot (op.run p) = fileSlot p ∧ FindsNoZero p op) ∨
      ∃ sop, fileSlot (op.run p) = (fileSlot p).step filePolicy sop ∧
        (filePolicy.Allows (fileSlot p) sop ↔ FindsNoZero p op) := by
  have hrelease : filePolicy.Allows (fileSlot p) .release :=
    fun h => absurd h Bool.false_ne_true
  cases op with
  | openFile file a =>
    refine Or.inr ⟨.acquire a.fd (decide (0 ≤ a.hdr.ret)), fileSlot_open file a p, ?_⟩
    -- the two tests of the source agree on every handle but 0
    show (decide (0 < p.pcapFd) = true ↔ 0 ≤ p.pcapFd) ↔ p.pcapFd ≠ 0
    rw [decide_eq_true_eq]
    omega
  | writeRaw buf bufLen a =>
    obtain h | h := fileSlot_writeRaw buf bufLen a p
    · exact Or.inl ⟨h, trivial⟩
    · exact Or.inr ⟨.release, h, iff_of_true hrelease trivial⟩
  | writeRt rtap buf bufLen a =>
    obtain h | h := fileSlot_writeRt rtap buf bufLen a p
    · exact Or.inl ⟨h, trivial⟩
    · exact Or.inr ⟨.release, h, iff_of_true hrelease trivial⟩
  | close => exact Or.inr ⟨.release, fileSlot_close p, iff_of_true hrelease trivial⟩

theorem fileSlot_wf (p : PcapState) (op : PcapOp) (hw : (fileSlot p).Wf) :
    (fileSlot (op.run p)).Wf := by
  obtain ⟨h, -⟩ | ⟨sop, h, -⟩ := fileSlot_run p op
  · rw [h]
    exact hw
  · rw [h]
    exact wf_step hw filePolicy sop

/-- One call. -/
theorem fileOwned_step (p : PcapState) (op : PcapOp) (hw : (fileSlot p).Wf) (hp : FileOwned p) :
    FileOwned (op.run p) ↔ FindsNoZero p op := by
  rw [fileOwned_iff] at hp ⊢
  obtain ⟨h, hnz⟩ | ⟨sop, h, hallows⟩ := fileSlot_run p op
  · rw [h]
    exact iff_of_true hp hnz
  · rw [h, good_step hw hp, hallows]

theorem closeEmpties_of_owned {p : PcapState} (hw : (fileSlot p).Wf) (hp : FileOwned p)
    (op : PcapOp) : CloseEmpties p op := by
  intro hop
  rw [hop]
  have hclose : (fileSlot (pcapClose p)).Good :=
    (fileOwned_iff _).mp ((fileOwned_step p .close hw hp).mpr trivial)
  have hw' : (fileSlot (pcapClose p)).Wf := fileSlot_wf p .close hw
  have hempty := (live_nil_iff hw').mpr ⟨(tidy_iff hw').mp hclose.tidy, pcapClose_fd p⟩
  exact List.map_eq_nil_iff.mp hempty

theorem start_fileOwned (disk : String → List UInt8) : FileOwned (.start disk) :=
  ⟨Or.inl rfl, closesLive_nil⟩

/-- **The capture file.** For every run of pcap.c's functions, whatever the opens and the writes
    answer: at every point at most one file is open, the one in `pcap_fd`, only open files were
    closed, and `pcap_close` leaves no file open, if and only if no `pcap_open` of the run finds
    handle 0 in `pcap_fd`. -/
theorem file_lifecycle_iff (disk : String → List UInt8) (ops : List PcapOp) :
    Always PcapOp.run FileOwned (.start disk) ops ∧
        EachStep PcapOp.run CloseEmpties (.start disk) ops ↔
      EachStep PcapOp.run FindsNoZero (.start disk) ops := by
  have hstart : (fileSlot (.start disk)).Wf := wf_start
  have key : Always PcapOp.run FileOwned (.start disk) ops ↔
      EachStep PcapOp.run FindsNoZero (.start disk) ops :=
    always_iff_eachStep (I := fun p => (fileSlot p).Wf) fileSlot_wf fileOwned_step hstart
      (start_fileOwned disk) ops
  constructor
  · intro h
    exact key.mp h.1
  · intro h
    have hall := key.mpr h
    have hwf : Always PcapOp.run (fun p => (fileSlot p).Wf) (.start disk) ops :=
      always_of_inv fileSlot_wf hstart ops
    refine ⟨hall, fun pre op hpre => ?_⟩
    have hle : pre <+: ops := (List.prefix_append pre [op]).trans hpre
    exact closeEmpties_of_owned (hwf pre hle) (hall pre hle) op

/-- Two captures started one after the other. -/
def twoOpens : List PcapOp :=
  [.openFile "ux0:/data/test.cap" ⟨0, ⟨24, 24⟩⟩, .openFile "ux0:/data/test.cap" ⟨1, ⟨24, 24⟩⟩]

/-- The kernel gives handle 0 and then handle 1: the first file stays open. -/
theorem twoOpens_keep_zero :
    ¬ (Always PcapOp.run FileOwned (.start fun _ => []) twoOpens ∧
      EachStep PcapOp.run CloseEmpties (.start fun _ => []) twoOpens) := by
  intro h
  have hlen : (twoOpens.foldl PcapOp.run (.start fun _ => [])).io.handles.length = 2 := by decide
  obtain h0 | ⟨file, h1⟩ := h.1.run.one
  · rw [h0, List.length_nil] at hlen
    omega
  · rw [h1, List.length_singleton] at hlen
    omega

/-! ## `knet_fd` as a slot -/

def sockEvent : SockEvent → Event
  | .created fd => .opened fd
  | .closed fd => .closed fd

def netSlot (n : KnetState) : Slot where
  fd := n.knetFd
  live := n.sockets
  log := n.log.map sockEvent

/-- `knet_start` closes nothing; `knet_stop` closes whatever is there. -/
def netPolicy : Policy where
  closesOld _ := false
  closesAny := true

theorem netSlot_start (port : UInt16) (fd : Int) (n : KnetState) :
    netSlot (knetStart port fd n).2 = (netSlot n).acquire netPolicy fd true := by
  have hacquire : (netSlot n).acquire netPolicy fd true = (netSlot n).openFd fd := by
    unfold Slot.acquire
    rw [if_pos (Or.inl rfl)]
    rfl
  rw [hacquire]
  unfold knetStart netSocket Slot.openFd
  by_cases h : 0 ≤ fd
  · rw [if_pos h, if_pos h]
    dsimp only
    rw [if_neg (Int.not_lt.mpr h)]
    unfold netSlot
    dsimp only
    rw [List.map_append]
    rfl
  · rw [if_neg h, if_neg h]
    dsimp only
    rw [if_pos (Int.not_le.mp h)]
    rfl

theorem netSlot_stop (n : KnetState) : netSlot (knetStop n) = (netSlot n).release netPolicy := by
  have hrelease : (netSlot n).release netPolicy = (netSlot n).closeFd := if_pos (Or.inl rfl)
  rw [hrelease]
  unfold knetStop netClose netSlot Slot.closeFd
  dsimp only
  rw [List.map_append]
  rfl

/-! ## System calls as operations of the slots -/

/-- What a system call does to `pcap_fd`. -/
def recFileOp : RecOp → Option SlotOp
  | .capStart a =>
    if 0 ≤ a.lock then some (.acquire a.pcap.fd (decide (0 ≤ a.pcap.hdr.ret))) else none
  | .capStop a => if 0 ≤ a.lock then some .release else none
  | .netStart _ | .netStop _ => none

/-- What a system call does to `knet_fd`. -/
def recNetOp : RecOp → Option SlotOp
  | .netStart a => if 0 ≤ a.lock then some (.acquire a.socket true) else none
  | .netStop a => if 0 ≤ a.lock then some .release else none
  | .capStart _ | .capStop _ => none

theorem cap_knet (k : KState) (op : RecOp) (h : ¬ op.IsNet) : (op.run k).knet = k.knet := by
  cases op with
  | capStart a =>
    simp only [RecOp.run, kwifimonCapStart]
    split
    · split <;> rfl
    · rfl
  | capStop a =>
    simp only [RecOp.run, kwifimonCapStop]
    split <;> rfl
  | netStart _ => exact absurd trivial h
  | netStop _ => exact absurd trivial h

theorem fileSlot_rec (k : KState) (op : RecOp) :
    fileSlot (op.run k).pcap =
      (recFileOp op).elim (fileSlot k.pcap) ((fileSlot k.pcap).step filePolicy) := by
  cases op with
  | capStart a =>
    unfold recFileOp
    dsimp only
    by_cases h : 0 ≤ a.lock
    · rw [if_pos h, capStart_pcap a k h]
      exact fileSlot_open _ _ _
    · simp only [RecOp.run, kwifimonCapStart, if_neg h, Option.elim_none]
  | capStop a =>
    unfold recFileOp
    dsimp only
    by_cases h : 0 ≤ a.lock
    · simp only [RecOp.run, kwifimonCapStop, if_pos h, Option.elim_some]
      exact fileSlot_close k.pcap
    · simp only [RecOp.run, kwifimonCapStop, if_neg h, Option.elim_none]
  | netStart a => exact congrArg fileSlot (recOp_net_pcap k (.netStart a) trivial)
  | netStop a => exact congrArg fileSlot (recOp_net_pcap k (.netStop a) trivial)

theorem netSlot_rec (k : KState) (op : RecOp) :
    netSlot (op.run k).knet =
      (recNetOp op).elim (netSlot k.knet) ((netSlot k.knet).step netPolicy) := by
  cases op with
  | netStart a =>
    unfold recNetOp
    dsimp only
    by_cases h : 0 ≤ a.lock
    · rw [if_pos h, netStart_knet a k h]
      exact netSlot_start _ _ _
    · simp only [RecOp.run, kwifimonNetStart, if_neg h, Option.elim_none]
  | netStop a =>
    unfold recNetOp
    dsimp only
    by_cases h : 0 ≤ a.lock
    · simp only [RecOp.run, kwifimonNetStop, if_pos h, Option.elim_some]
      exact netSlot_stop k.knet
    · simp only [RecOp.run, kwifimonNetStop, if_neg h, Option.elim_none]
  | capStart a => exact congrArg netSlot (cap_knet k (.capStart a) id)
  | capStop a => exact congrArg netSlot (cap_knet k (.capStop a) id)

/-! ## Runs of the module -/

/-- At most one socket is open, and `knet_fd` is its handle; only open sockets were closed. -/
structure SocketOwned (s : ModState) : Prop where
  one : s.k.knet.sockets = [] ∨ s.k.knet.sockets = [s.k.knet.knetFd]
  closes : ClosesLive (s.k.knet.log.map sockEvent)

/-- Every socket was closed as often as it was created. -/
def SocketsClosed (s : ModState) : Prop :=
  ∀ fd, s.k.knet.log.count (.created fd) = s.k.knet.log.count (.closed fd)

/-- The call gets the mutex. -/
def GetsMutex (s : ModState) (lock : Int) : Prop := s.mutexDeleted = false ∧ 0 ≤ lock

/-- A network start finds no socket; a network stop and `module_stop` find one. -/
def FindsSocket (s : ModState) : Act → Prop
  | .call (.netStart a) => GetsMutex s a.lock → s.k.knet.knetFd < 0
  | .call (.netStop a) => GetsMutex s a.lock → 0 ≤ s.k.knet.knetFd
  | .stop .knetStop => 0 ≤ s.k.knet.knetFd
  | _ => True

theorem socketOwned_iff (s : ModState) : SocketOwned s ↔ (netSlot s.k.knet).Good :=
  ⟨fun h => ⟨h.one, h.closes⟩, fun h => ⟨h.tidy, h.closes⟩⟩

/-- `knet_start` may not find a socket, and `knet_stop` may not find none. -/
theorem netPolicy_allows (s : Slot) :
    (∀ h keep, netPolicy.Allows s (.acquire h keep) ↔ s.fd < 0) ∧
      (netPolicy.Allows s .release ↔ 0 ≤ s.fd) := by
  constructor
  · intro h keep
    show (false = true ↔ 0 ≤ s.fd) ↔ s.fd < 0
    rw [← Int.not_le]
    exact ⟨fun h h0 => Bool.false_ne_true (h.mpr h0), fun h => iff_of_false Bool.false_ne_true h⟩
  · show (true = true → 0 ≤ s.fd) ↔ 0 ≤ s.fd
    exact ⟨fun h => h rfl, fun h _ => h⟩

/-- A system call without the mutex does nothing to the slot and needs nothing. -/
theorem netSlot_call_without {s : ModState} {op : RecOp} (hrun : Act.run s (.call op) = s)
    (hno : ∀ lock, ¬ GetsMutex s lock) :
    netSlot (Act.run s (.call op)).k.knet = netSlot s.k.knet ∧ FindsSocket s (.call op) := by
  rw [hrun]
  refine ⟨rfl, ?_⟩
  cases op with
  | netStart a => exact fun h => absurd h (hno _)
  | netStop a => exact fun h => absurd h (hno _)
  | _ => exact trivial

theorem netSlot_call {s : ModState} (hd : s.mutexDeleted = false) (op : RecOp) :
    netSlot (Act.run s (.call op)).k.knet =
      (recNetOp op).elim (netSlot s.k.knet) ((netSlot s.k.knet).step netPolicy) := by
  rw [act_call hd]
  exact netSlot_rec s.k op

/-- An action does nothing to the slot, or it is one of the slot's operations. -/
theorem netSlot_run (s : ModState) (act : Act) :
    (netSlot (act.run s).k.knet = netSlot s.k.knet ∧ FindsSocket s act) ∨
      ∃ sop, netSlot (act.run s).k.knet = (netSlot s.k.knet).step netPolicy sop ∧
        (netPolicy.Allows (netSlot s.k.knet) sop ↔ FindsSocket s act) := by
  obtain ⟨hacquire, hrelease⟩ := netPolicy_allows (netSlot s.k.knet)
  cases act with
  | call op =>
    cases hd : s.mutexDeleted with
    | true =>
      exact Or.inl (netSlot_call_without (act_call_deleted hd op)
        fun lock h => absurd (hd.symm.trans h.1) (by decide))
    | false =>
      have hslot := netSlot_call hd op
      cases op with
      | netStart a =>
        by_cases h : 0 ≤ a.lock
        · rw [recNetOp, if_pos h, Option.elim_some] at hslot
          refine Or.inr ⟨_, hslot, (hacquire _ _).trans ?_⟩
          exact ⟨fun hf _ => hf, fun hf => hf ⟨hd, h⟩⟩
        · rw [recNetOp, if_neg h, Option.elim_none] at hslot
          exact Or.inl ⟨hslot, fun hg => absurd hg.2 h⟩
      | netStop a =>
        by_cases h : 0 ≤ a.lock
        · rw [recNetOp, if_pos h, Option.elim_some] at hslot
          refine Or.inr ⟨_, hslot, hrelease.trans ?_⟩
          exact ⟨fun hf _ => hf, fun hf => hf ⟨hd, h⟩⟩
        · rw [recNetOp, if_neg h, Option.elim_none] at hslot
          exact Or.inl ⟨hslot, fun hg => absurd hg.2 h⟩
      | capStart a => exact Or.inl ⟨hslot, trivial⟩
      | capStop a => exact Or.inl ⟨hslot, trivial⟩
  | stop st =>
    cases st with
    | knetStop => exact Or.inr ⟨.release, netSlot_stop _, hrelease⟩
    | _ => exact Or.inl ⟨rfl, trivial⟩

theorem netSlot_wf (s : ModState) (act : Act) (hw : (netSlot s.k.knet).Wf) :
    (netSlot (act.run s).k.knet).Wf := by
  obtain ⟨h, -⟩ | ⟨sop, h, -⟩ := netSlot_run s act
  · rw [h]
    exact hw
  · rw [h]
    exact wf_step hw netPolicy sop

/-- One action. -/
theorem socketOwned_step (s : ModState) (act : Act) (hw : (netSlot s.k.knet).Wf)
    (hp : SocketOwned s) : SocketOwned (act.run s) ↔ FindsSocket s act := by
  rw [socketOwned_iff] at hp ⊢
  obtain ⟨h, hf⟩ | ⟨sop, h, hallows⟩ := netSlot_run s act
  · rw [h]
    exact iff_of_true hp hf
  · rw [h, good_step hw hp, hallows]

theorem sockEvent_count (log : List SockEvent) (fd : Int) :
    (log.map sockEvent).count (.opened fd) = log.count (.created fd) ∧
      (log.map sockEvent).count (.closed fd) = log.count (.closed fd) := by
  have hinj : Function.Injective sockEvent := by
    intro e e' h
    cases e <;> cases e' <;> cases h <;> rfl
  exact ⟨List.count_map_of_injective log sockEvent hinj (.created fd),
    List.count_map_of_injective log sockEvent hinj (.closed fd)⟩

/-- Where only open sockets were closed and none is open, opens and closes match. -/
theorem socketsClosed_of_owned {s : ModState} (hw : (netSlot s.k.knet).Wf) (hp : SocketOwned s)
    (hneg : s.k.knet.knetFd < 0) : SocketsClosed s := by
  have hgood := (socketOwned_iff s).mp hp
  have hempty : s.k.knet.sockets = [] :=
    (live_nil_iff hw).mpr ⟨(tidy_iff hw).mp hgood.tidy, hneg⟩
  intro fd
  obtain ⟨hopened, hclosed⟩ := sockEvent_count s.k.knet.log fd
  have hcount := count_live hp.closes fd
  have hlive : HandleLib.live (s.k.knet.log.map sockEvent) = s.k.knet.sockets := hw.log.symm
  rw [hlive, hempty, hopened, hclosed, List.count_nil] at hcount
  exact hcount

/-- The system calls of `ops`, then `module_stop`. -/
def thenStop (ops : List RecOp) : List Act := ops.map .call ++ stopSteps.map .stop

theorem thenStop_fd (ops : List RecOp) (s : ModState) :
    ((thenStop ops).foldl Act.run s).k.knet.knetFd < 0 := by
  unfold thenStop
  rw [List.foldl_append]
  show (-1 : Int) < 0
  decide

/-- The variables at the start of the module. -/
theorem moduleStart_slots (disk : String → List UInt8) (a : StartAns) :
    fileSlot (moduleStart disk a).2.k.pcap = .start ∧
      netSlot (moduleStart disk a).2.k.knet = .start ∧
      (moduleStart disk a).2.mutexDeleted = false := by
  unfold moduleStart
  split <;> exact ⟨rfl, rfl, rfl⟩

/-- **The sockets.** For every start of the module, every run of system calls and a final
    `module_stop`, whatever the mutex, the socket and the file calls answer: at every point at
    most one socket is open, the one in `knet_fd`, only open sockets were closed, and at the end
    each was closed as often as it was created, if and only if every network start finds no
    socket, and every network stop and `module_stop` find one. -/
theorem socket_lifecycle_iff (disk : String → List UInt8) (a : StartAns) (ops : List RecOp) :
    Always Act.run SocketOwned (moduleStart disk a).2 (thenStop ops) ∧
        SocketsClosed ((thenStop ops).foldl Act.run (moduleStart disk a).2) ↔
      EachStep Act.run FindsSocket (moduleStart disk a).2 (thenStop ops) := by
  obtain ⟨-, hslot, -⟩ := moduleStart_slots disk a
  have hstart : (netSlot (moduleStart disk a).2.k.knet).Wf := by
    rw [hslot]
    exact wf_start
  have howned : SocketOwned (moduleStart disk a).2 := by
    rw [socketOwned_iff, hslot]
    exact good_start
  have key : Always Act.run SocketOwned (moduleStart disk a).2 (thenStop ops) ↔
      EachStep Act.run FindsSocket (moduleStart disk a).2 (thenStop ops) :=
    always_iff_eachStep (I := fun s => (netSlot s.k.knet).Wf) netSlot_wf socketOwned_step hstart
      howned (thenStop ops)
  constructor
  · intro h
    exact key.mp h.1
  · intro h
    have hall := key.mpr h
    have hwf : Always Act.run (fun s => (netSlot s.k.knet).Wf) (moduleStart disk a).2
        (thenStop ops) := always_of_inv netSlot_wf hstart _
    exact ⟨hall, socketsClosed_of_owned hwf.run hall.run (thenStop_fd ops _)⟩

/-- A module that starts. -/
def plainStart : StartAns := ⟨0, (1, 0), (2, 0)⟩

/-- Two network starts: the first socket is never closed. -/
theorem twoStarts_leak :
    ¬ (Always Act.run SocketOwned (moduleStart (fun _ => []) plainStart).2
          (thenStop [.netStart ⟨0, 3, 0⟩, .netStart ⟨0, 4, 0⟩]) ∧
        SocketsClosed ((thenStop [.netStart ⟨0, 3, 0⟩, .netStart ⟨0, 4, 0⟩]).foldl Act.run
          (moduleStart (fun _ => []) plainStart).2)) := by
  intro h
  exact absurd (h.2 3) (by decide)

end Wifimon.Kplugin
