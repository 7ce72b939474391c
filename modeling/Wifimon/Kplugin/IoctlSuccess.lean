/-
  `kwifimon_ioctl` and what a non-negative result says.

  The hook starts from `int ret = -1` and overwrites it with what the original handler returned;
  the branches of the plugin's own requests replace that value only where they get to the
  operation. `patch_do` takes the sign for the outcome.

  `CarriedOut` says what each of the four requests asks for, in terms of what was done. A result
  is non-negative only if the request was carried out if and only if the original handler fails
  the requests that the hook does not get to, and no command that is exchanged asks for 256 bytes
  or more (`ioctl_success_iff`).
-/
import Wifimon.Kplugin.MacControl

namespace Wifimon.Kplugin

open ByteLib

inductive PluginReq where
  | getMacControl | setMacControl | anycmd | mem
  deriving DecidableEq

def PluginReq.code : PluginReq → UInt32
  | .getMacControl => wlanIoctlGetMacControl
  | .setMacControl => wlanIoctlSetMacControl
  | .anycmd => wlanIoctlAnycmd
  | .mem => wlanIoctlMem

/-! ## Carried out -/

section CarriedOut

-- the buffer and the device are those the original handler leaves
variable (d : Driver) (before : Mem) (dev : WlanDev) (r : IoctlResult)

structure ModeDelivered : Prop where
  stored : .bufWrite 0 2 ∈ r.log
  mode : rd16 r.buf 0 = dev.currentMacControl

structure ModeSent : Prop where
  sent : ∃ out, sentCmds r.log = [(wlanCmdMacControl, 4, out)] ∧
    rd32 out 0 = (rd16 before 0).toUInt32
  send : 0 ≤ d.send
  wait : 0 ≤ d.wait

structure CmdExchanged : Prop where
  tunnel : Tunnel d before (rd16 before 0) (rd16 before 2) (rd16 before 4) r
  send : 0 ≤ d.send
  wait : 0 ≤ d.wait

structure WordRead : Prop where
  direction : before 0 = 0
  read : .memRead (rd32 before 1) ∈ r.log
  ok : 0 ≤ (d.memRead (rd32 before 1) (rd32 before 5)).1
  value : rd32 r.buf 5 = (d.memRead (rd32 before 1) (rd32 before 5)).2

structure WordWritten : Prop where
  direction : before 0 = 1
  written : .memWrite (rd32 before 1) (rd32 before 5) ∈ r.log
  ok : 0 ≤ d.memWrite (rd32 before 1) (rd32 before 5)

/-- The operation a request asks for was done. -/
def CarriedOut : PluginReq → Prop
  | .getMacControl => ModeDelivered dev r
  | .setMacControl => ModeSent d before r
  | .anycmd => CmdExchanged d before r
  | .mem => WordRead d before r ∨ WordWritten d before r

end CarriedOut

/-- Releasing the lock does not change what was done. -/
theorem carriedOut_unlock (d : Driver) (before : Mem) (dev : WlanDev) (r : IoctlResult)
    (q : PluginReq) :
    CarriedOut d before dev { r with log := r.log ++ [.unlock] } q ↔
      CarriedOut d before dev r q := by
  have hsent : sentCmds (r.log ++ [.unlock]) = sentCmds r.log := by
    rw [sentCmds_append]
    exact List.append_nil _
  cases q with
  | getMacControl => exact ⟨fun h => ⟨by simpa using h.stored, h.mode⟩,
      fun h => ⟨by simpa using h.stored, h.mode⟩⟩
  | setMacControl => exact ⟨fun h => ⟨hsent ▸ h.sent, h.send, h.wait⟩,
      fun h => ⟨hsent.symm ▸ h.sent, h.send, h.wait⟩⟩
  | anycmd => exact ⟨fun h => ⟨⟨hsent ▸ h.tunnel.sent, h.tunnel.stored⟩, h.send, h.wait⟩,
      fun h => ⟨⟨hsent.symm ▸ h.tunnel.sent, h.tunnel.stored⟩, h.send, h.wait⟩⟩
  | mem =>
    refine or_congr ?_ ?_
    · exact ⟨fun h => ⟨h.direction, by simpa using h.read, h.ok, h.value⟩,
        fun h => ⟨h.direction, by simpa using h.read, h.ok, h.value⟩⟩
    · exact ⟨fun h => ⟨h.direction, by simpa using h.written, h.ok⟩,
        fun h => ⟨h.direction, by simpa using h.written, h.ok⟩⟩

/-- Where nothing was done but looking, nothing was carried out. -/
theorem not_carriedOut_of_looksOnly {d : Driver} {before : Mem} {dev : WlanDev}
    {r : IoctlResult} (h : ∀ e ∈ r.log, e.LooksOnly) (q : PluginReq) :
    ¬ CarriedOut d before dev r q := by
  have hsent : sentCmds r.log = [] := by
    unfold sentCmds
    rw [List.filterMap_eq_nil_iff]
    intro e he
    have hlook := h e he
    cases e with
    | send2 _ _ _ _ => exact hlook.elim
    | _ => rfl
  cases q with
  | getMacControl => exact fun hc => h _ hc.stored
  | setMacControl =>
    intro hc
    obtain ⟨out, hout, -⟩ := hc.sent
    rw [hsent] at hout
    exact List.cons_ne_nil _ _ hout.symm
  | anycmd =>
    intro hc
    obtain ⟨out, hout, -⟩ := hc.tunnel.sent
    rw [hsent] at hout
    exact List.cons_ne_nil _ _ hout.symm
  | mem => exact fun hc => hc.elim (fun hr => h _ hr.read) (fun hw => h _ hw.written)

/-! ## The requests the hook gets to -/

/-- The hook gets to the operation, and replaces the original handler's value. -/
structure Reached (q : PluginReq) (d : Driver) (before : Mem) (bufLen : Int) : Prop where
  lock : 0 ≤ d.lock
  served : Served q.code before bufLen
  direction : q = .mem → before 0 = 0 ∨ before 0 = 1

/-- A command is exchanged and fails nowhere. -/
structure Answers (d : Driver) : Prop where
  slot : d.alloc ≠ none
  send : 0 ≤ d.send
  wait : 0 ≤ d.wait

theorem served_iff (q : PluginReq) (before : Mem) (bufLen : Int) :
    Served q.code before bufLen ↔
      match q with
      | .getMacControl | .setMacControl => 2 ≤ bufLen
      | .anycmd => 6 ≤ bufLen ∧
          (max (rd16 before 2).toNat (rd16 before 4).toNat : Int) + 6 ≤ bufLen
      | .mem => 9 ≤ bufLen := by
  unfold Served
  cases q <;>
    simp [PluginReq.code, wlanIoctlGetMacControl, wlanIoctlSetMacControl, wlanIoctlAnycmd,
      wlanIoctlMem]

theorem get_carriedOut {d : Driver} {before : Mem} {bufLen : Int} {r : IoctlResult}
    (h2 : 2 ≤ bufLen) :
    CarriedOut d before r.dev (ioctlGetMacControl bufLen r) .getMacControl := by
  unfold ioctlGetMacControl
  rw [if_pos h2]
  exact ⟨by simp, rd16_store_le r.buf 0 _⟩

theorem set_carriedOut {d : Driver} {bufLen : Int} {r : IoctlResult} (h2 : 2 ≤ bufLen)
    (hlog : sentCmds r.log = []) (hret : 0 ≤ (ioctlSetMacControl d bufLen r).ret) (dev : WlanDev) :
    CarriedOut d r.buf dev (ioctlSetMacControl d bufLen r) .setMacControl := by
  unfold ioctlSetMacControl at hret ⊢
  rw [if_pos h2] at hret ⊢
  obtain ⟨hslot, hsend, hwait⟩ := (macControl_ret d _).mp hret
  obtain ⟨out, hout, hmode⟩ := macControl_sent d (rd16 r.buf 0) hslot
  refine ⟨⟨out, ?_, hmode⟩, hsend, hwait⟩
  dsimp only
  rw [sentCmds_append, sentCmds_append, hlog, hout]
  rfl

theorem anycmd_carriedOut_iff (chain : Chain) (d : Driver) (buf : Mem) (bufLen : Int)
    (dev : WlanDev) (hlock : 0 ≤ d.lock) {before : Mem}
    (hbefore : (chain wlanIoctlAnycmd buf bufLen dev).2.1 = before)
    (hlen : (max (rd16 before 2).toNat (rd16 before 4).toNat : Int) + 6 ≤ bufLen) (dev' : WlanDev) :
    (0 ≤ (kwifimonIoctl chain d wlanIoctlAnycmd buf bufLen dev).ret →
        CarriedOut d before dev' (kwifimonIoctl chain d wlanIoctlAnycmd buf bufLen dev) .anycmd) ↔
      (Answers d → (rd16 before 2).toNat < 256) := by
  obtain ⟨hsent, hbuf, hret⟩ := kwifimonIoctl_anycmd chain d buf bufLen dev hlock hbefore hlen
  rw [hret, wlanAnycmd_ret]
  constructor
  · intro h ha
    obtain ⟨slot, hslot⟩ := Option.ne_none_iff_exists'.mp ha.slot
    exact (tunnel_iff d before hslot hsent hbuf).mp (h ⟨ha.slot, ha.send, ha.wait⟩).tunnel
  · intro h ha
    obtain ⟨slot, hslot⟩ := Option.ne_none_iff_exists'.mp ha.1
    have hlt := h ⟨ha.1, ha.2.1, ha.2.2⟩
    exact ⟨(tunnel_iff d before hslot hsent hbuf).mpr hlt, ha.2.1, ha.2.2⟩

theorem mem_carriedOut {d : Driver} {bufLen : Int} {r : IoctlResult} (h9 : 9 ≤ bufLen)
    (hdir : r.buf 0 = 0 ∨ r.buf 0 = 1) (hret : 0 ≤ (ioctlMem d bufLen r).ret) (dev : WlanDev) :
    CarriedOut d r.buf dev (ioctlMem d bufLen r) .mem := by
  unfold ioctlMem at hret ⊢
  rw [if_pos h9] at hret ⊢
  dsimp only at hret ⊢
  obtain h0 | h1 := hdir
  · rw [if_pos h0] at hret ⊢
    exact Or.inl ⟨h0, by simp, hret, rd32_store_le r.buf 5 _⟩
  · have h0 : r.buf 0 ≠ 0 := by
      rw [h1]
      decide
    rw [if_neg h0, if_pos h1] at hret ⊢
    exact Or.inr ⟨h1, by simp, hret⟩

/-- A `WLAN_IOCTL_MEM` of an unknown direction accesses no word. -/
theorem mem_not_carriedOut {d : Driver} {before : Mem} (h0 : before 0 ≠ 0) (h1 : before 0 ≠ 1)
    (dev : WlanDev) (r : IoctlResult) : ¬ CarriedOut d before dev r .mem :=
  fun h => h.elim (fun hr => h0 hr.direction) (fun hw => h1 hw.direction)

theorem mem_ret_unknown {d : Driver} {bufLen : Int} {r : IoctlResult} (h0 : r.buf 0 ≠ 0)
    (h1 : r.buf 0 ≠ 1) : (ioctlMem d bufLen r).ret = r.ret := by
  unfold ioctlMem
  rw [if_neg h0, if_neg h1]
  split <;> rfl

/-! ## The hook -/

/-- A request the hook does not get to is not carried out, and returns what the original handler
    returned. -/
theorem ioctl_not_reached (chain : Chain) (d : Driver) (q : PluginReq) (buf : Mem) (bufLen : Int)
    (dev : WlanDev) (h : ¬ Reached q d (chain q.code buf bufLen dev).2.1 bufLen) (dev' : WlanDev) :
    (kwifimonIoctl chain d q.code buf bufLen dev).ret = (chain q.code buf bufLen dev).1 ∧
      ¬ CarriedOut d (chain q.code buf bufLen dev).2.1 dev'
        (kwifimonIoctl chain d q.code buf bufLen dev) q := by
  by_cases hlock : 0 ≤ d.lock
  · by_cases hserved : Served q.code (chain q.code buf bufLen dev).2.1 bufLen
    · -- only the direction is left
      have hdir : ¬ (q = .mem → (chain q.code buf bufLen dev).2.1 0 = 0 ∨
          (chain q.code buf bufLen dev).2.1 0 = 1) := fun hd => h ⟨hlock, hserved, hd⟩
      obtain ⟨rfl, hd⟩ := Classical.not_imp.mp hdir
      obtain ⟨h0, h1⟩ := not_or.mp hd
      refine ⟨?_, mem_not_carriedOut h0 h1 dev' _⟩
      rw [kwifimonIoctl_locked _ _ _ _ _ _ hlock]
      exact mem_ret_unknown h0 h1
    · have ht := kwifimonIoctl_transparent chain d q.code buf bufLen dev hserved
      exact ⟨ht.ret, not_carriedOut_of_looksOnly ht.log q⟩
  · rw [kwifimonIoctl_unlocked _ _ _ _ _ _ hlock]
    refine ⟨rfl, not_carriedOut_of_looksOnly ?_ q⟩
    simp [afterChain, IoctlEvent.LooksOnly]

theorem ioctl_reached (chain : Chain) (d : Driver) (q : PluginReq) (buf : Mem) (bufLen : Int)
    (dev : WlanDev) (h : Reached q d (chain q.code buf bufLen dev).2.1 bufLen) :
    (0 ≤ (kwifimonIoctl chain d q.code buf bufLen dev).ret →
        CarriedOut d (chain q.code buf bufLen dev).2.1 (chain q.code buf bufLen dev).2.2
          (kwifimonIoctl chain d q.code buf bufLen dev) q) ↔
      (q = .anycmd → Answers d →
        (rd16 (chain q.code buf bufLen dev).2.1 2).toNat < 256) := by
  have hlong := (served_iff q _ bufLen).mp h.served
  have hlog : sentCmds (afterChain (chain q.code buf bufLen dev) d).log = [] := rfl
  cases q with
  | getMacControl =>
    refine iff_of_true (fun _ => ?_) (fun hq => by cases hq)
    rw [kwifimonIoctl_locked _ _ _ _ _ _ h.lock, carriedOut_unlock]
    exact get_carriedOut (r := afterChain (chain wlanIoctlGetMacControl buf bufLen dev) d) hlong
  | setMacControl =>
    refine iff_of_true (fun hret => ?_) (fun hq => by cases hq)
    rw [kwifimonIoctl_locked _ _ _ _ _ _ h.lock] at hret ⊢
    rw [carriedOut_unlock]
    exact set_carriedOut hlong hlog hret _
  | anycmd =>
    have hiff := anycmd_carriedOut_iff chain d buf bufLen dev h.lock rfl hlong.2
      (chain wlanIoctlAnycmd buf bufLen dev).2.2
    exact hiff.trans ⟨fun hs _ => hs, fun hs => hs rfl⟩
  | mem =>
    refine iff_of_true (fun hret => ?_) (fun hq => by cases hq)
    rw [kwifimonIoctl_locked _ _ _ _ _ _ h.lock] at hret ⊢
    rw [carriedOut_unlock]
    exact mem_carriedOut hlong (h.direction rfl) hret _

/-- **Truthful success.** For every request of the plugin, buffer, length, original handler and
    driver: a non-negative result says that the request was carried out if and only if the
    original handler's value is negative where the hook does not get to the operation, and a
    command that is exchanged is shorter than 256 bytes. -/
theorem ioctl_success_iff (chain : Chain) (d : Driver) (q : PluginReq) (buf : Mem)
    (bufLen : Int) (dev : WlanDev) :
    (0 ≤ (kwifimonIoctl chain d q.code buf bufLen dev).ret →
        CarriedOut d (chain q.code buf bufLen dev).2.1 (chain q.code buf bufLen dev).2.2
          (kwifimonIoctl chain d q.code buf bufLen dev) q) ↔
      (0 ≤ (chain q.code buf bufLen dev).1 →
          Reached q d (chain q.code buf bufLen dev).2.1 bufLen) ∧
        (Reached q d (chain q.code buf bufLen dev).2.1 bufLen → q = .anycmd → Answers d →
          (rd16 (chain q.code buf bufLen dev).2.1 2).toNat < 256) := by
  by_cases h : Reached q d (chain q.code buf bufLen dev).2.1 bufLen
  · rw [ioctl_reached chain d q buf bufLen dev h]
    exact ⟨fun hs => ⟨fun _ => h, fun _ => hs⟩, fun hs => hs.2 h⟩
  · obtain ⟨hret, hnot⟩ := ioctl_not_reached chain d q buf bufLen dev h
      (chain q.code buf bufLen dev).2.2
    rw [hret]
    constructor
    · intro hs
      exact ⟨fun hc => absurd (hs hc) hnot, fun hr => absurd hr h⟩
    · intro hs hc
      exact absurd (hs.1 hc) h

/-- An original handler that answers every request with success. -/
def agreeableChain : Chain := fun _ buf _ dev => (0, buf, dev)

/-- A write of the word 1 to address 0 with a driver that does not give the lock: the result is
    0, and nothing was written. -/
theorem unlockedWrite_succeeds :
    ¬ (0 ≤ (kwifimonIoctl agreeableChain { willing with lock := -1 } PluginReq.mem.code
          (ofList [1, 0, 0, 0, 0, 1, 0, 0, 0]) 9 ⟨0⟩).ret →
        CarriedOut { willing with lock := -1 } (ofList [1, 0, 0, 0, 0, 1, 0, 0, 0]) ⟨0⟩
          (kwifimonIoctl agreeableChain { willing with lock := -1 } PluginReq.mem.code
            (ofList [1, 0, 0, 0, 0, 1, 0, 0, 0]) 9 ⟨0⟩) .mem) := by
  intro h
  have hlog : ∀ e ∈ (kwifimonIoctl agreeableChain { willing with lock := -1 } PluginReq.mem.code
      (ofList [1, 0, 0, 0, 0, 1, 0, 0, 0]) 9 ⟨0⟩).log, e.LooksOnly := by
    rw [kwifimonIoctl_unlocked _ _ _ _ _ _ (by decide)]
    simp [afterChain, IoctlEvent.LooksOnly]
  exact not_carriedOut_of_looksOnly hlog .mem (h (by decide))

end Wifimon.Kplugin
