/-
  The functions of `src/app/util.c` that are no memory accesses, over the hook of
  `src/kplugin/kwifimon.c`.

  A call (`UtilCall`) meets its own original handler, driver and kernel buffer (`ControlEnv`); the
  system calls leave the device and the commands that were sent to the firmware behind (`Wlan`).
  `Card` is what the functions are for: a MAC control mode, and the list of commands the card got.

  `control_refines`: any run of these functions, with any failures, is a run of the card. With the
  lock, the mode that `wlan_get_maccontrol` reports is the card's, and a command that is reported
  as done was taken. Without it, as with the requests that are not the plugin's, the call reports
  what the original handler has made of the request. An interface index that is not positive
  keeps all of them away from the card. `control_unreached`: so does a list of interfaces in which
  `find_wlan_idx` of `src/app/main.c` finds none.

  The original handler is taken to leave the mode alone, and the buffers of the two requests that
  send commands.
-/
import Wifimon.App.Util
import Wifimon.Kplugin.MacControl

namespace Wifimon.App

open ByteLib Kplugin RunLib

/-! ## The functions -/

def wlanIoctlDisconnect : UInt32 := 0x50110002
def wlanIoctlInit : UInt32 := 0x5011FF08

variable {σ : Type}

/-- The value returned and the buffer left behind; without an interface nothing is called. -/
def guarded (ctl : SyscallControl σ) (wlanIdx : Int) (req : UInt32) (buf : Mem) (bufLen : Int)
    (s : σ) : Int × Mem × σ :=
  if 0 < wlanIdx then ctl wlanIdx req buf bufLen s else (-1, buf, s)

def wlanDisconnect (ctl : SyscallControl σ) (wlanIdx : Int) (frame : Mem) (s : σ) : Int × σ :=
  let r := guarded ctl wlanIdx wlanIoctlDisconnect (store frame 0 (le 4 0)) 4 s
  (r.1, r.2.2)

def wlanSetMaccontrol (ctl : SyscallControl σ) (wlanIdx : Int) (frame : Mem) (mac : UInt16)
    (s : σ) : Int × σ :=
  let r := guarded ctl wlanIdx wlanIoctlSetMacControl (store frame 0 (le 2 mac.toNat)) 2 s
  (r.1, r.2.2)

/-- The value returned and `*mac`; `mac` is the memory behind the caller's pointer. -/
def wlanGetMaccontrol (ctl : SyscallControl σ) (wlanIdx : Int) (mac : Mem) (s : σ) :
    Int × UInt16 × σ :=
  let r := guarded ctl wlanIdx wlanIoctlGetMacControl mac 2 s
  (r.1, rd16 r.2.1 0, r.2.2)

/-- The request of six bytes: a command and two lengths. -/
def shortRequest (frame : Mem) (cmd outLen inLen : UInt16) : Mem :=
  store (store (store frame 0 (le 2 cmd.toNat)) 2 (le 2 outLen.toNat)) 4 (le 2 inLen.toNat)

def wlanCmdFuncShutdown (ctl : SyscallControl σ) (wlanIdx : Int) (frame : Mem) (s : σ) : Int × σ :=
  let cmd : UInt16 := 0xaa
  let len : UInt16 := 0
  let request := shortRequest frame cmd len len
  let r := guarded ctl wlanIdx wlanIoctlAnycmd request 6 s
  (r.1, r.2.2)

/-- The buffer is a null pointer, and its length 0. -/
def wlanCmdInit (ctl : SyscallControl σ) (wlanIdx : Int) (frame : Mem) (s : σ) : Int × σ :=
  let r := guarded ctl wlanIdx wlanIoctlInit frame 0 s
  (r.1, r.2.2)

/-- The value of `sceNetSyscallControl` is not looked at. -/
def getRandom (ctl : SyscallControl σ) (wlanIdx : Int) (frame : Mem) (s : σ) : UInt32 × σ :=
  let r := guarded ctl wlanIdx 0x14 (store frame 0 (le 4 4)) 4 s
  (rd32 r.2.1 0, r.2.2)

/-! ## The interface -/

/-- The fields of `struct iface_t` that `find_wlan_idx` reads. -/
structure Iface where
  name : List UInt8
  devIdx : Int

/-- The name is `wlan0`; `strcmp` stops at the first zero byte. -/
def Iface.isWlan0 (f : Iface) : Bool :=
  f.name.takeWhile (fun b => b ≠ 0) == [0x77, 0x6c, 0x61, 0x6e, 0x30]

/-- `find_wlan_idx` of `main.c`, on the count that the first `sceNetSyscallGetIfList` returns and
    the list that the second one leaves; the result of the second one is not looked at. -/
def findWlanIdx (ifaceCount : Int) (ifaceList : List Iface) (wlanIdx : Int) : Int :=
  if 0 ≤ ifaceCount then
    (ifaceList.take ifaceCount.toNat).foldl (fun idx f => if f.isWlan0 then f.devIdx else idx)
      wlanIdx
  else wlanIdx

/-- The last interface of the name counts. -/
theorem foldl_wlan0 (ifaces : List Iface) (wlanIdx : Int) :
    ifaces.foldl (fun idx f => if f.isWlan0 then f.devIdx else idx) wlanIdx =
      ((ifaces.filter Iface.isWlan0).getLast?.map Iface.devIdx).getD wlanIdx := by
  induction ifaces using List.reverseRecOn with
  | nil => rfl
  | append_singleton ifaces f ih =>
    rw [List.foldl_append, List.filter_append, ih]
    by_cases hf : f.isWlan0 = true
    · simp [hf]
    · simp [hf]

/-! ## The system -/

/-- What a system call meets. The original handler leaves the MAC control mode alone, and the
    buffers of the plugin's own requests. -/
structure ControlEnv where
  chain : Chain
  d : Driver
  kernel : Mem
  keepsDev : ∀ req buf bufLen dev, (chain req buf bufLen dev).2.2 = dev
  keepsSet : ∀ buf bufLen dev, (chain wlanIoctlSetMacControl buf bufLen dev).2.1 = buf
  keepsAnycmd : ∀ buf bufLen dev, (chain wlanIoctlAnycmd buf bufLen dev).2.1 = buf

/-- The device, and the commands handed to `wlan_cmd_send2` so far. -/
structure Wlan where
  dev : WlanDev
  sent : List (UInt16 × Int × Mem)

/-- The call of the hook behind a system call, on the kernel's copy of the buffer. -/
def ControlEnv.call (e : ControlEnv) (req : UInt32) (request : Mem) (bufLen : Int) : IoctlCall where
  chain := e.chain
  d := e.d
  req := req
  buf := store e.kernel 0 (load request 0 bufLen.toNat)
  bufLen := bufLen
  keeps := e.keepsDev req _ bufLen

def controlSyscall (e : ControlEnv) : SyscallControl Wlan := fun _ req request bufLen s =>
  let r := (e.call req request bufLen).result s.dev
  (r.ret, store request 0 (load r.buf 0 bufLen.toNat), ⟨r.dev, s.sent ++ sentCmds r.log⟩)

inductive UtilFun where
  | disconnect
  | setMaccontrol (mac : UInt16)
  | getMaccontrol
  | cmdFuncShutdown
  | cmdInit
  | random

/-- A call of the app: what it meets, `wlan_idx`, and what was on its stack. -/
structure UtilCall where
  fn : UtilFun
  env : ControlEnv
  wlanIdx : Int
  frame : Mem

/-- The value returned, the mode or the number delivered, and the system afterwards. -/
structure UtilResult where
  ret : Option Int
  mode : Option UInt16
  number : Option UInt32
  wlan : Wlan

def UtilCall.result (c : UtilCall) (s : Wlan) : UtilResult :=
  let ctl := controlSyscall c.env
  match c.fn with
  | .disconnect =>
    let r := wlanDisconnect ctl c.wlanIdx c.frame s
    ⟨some r.1, none, none, r.2⟩
  | .setMaccontrol mac =>
    let r := wlanSetMaccontrol ctl c.wlanIdx c.frame mac s
    ⟨some r.1, none, none, r.2⟩
  | .getMaccontrol =>
    let r := wlanGetMaccontrol ctl c.wlanIdx c.frame s
    ⟨some r.1, some r.2.1, none, r.2.2⟩
  | .cmdFuncShutdown =>
    let r := wlanCmdFuncShutdown ctl c.wlanIdx c.frame s
    ⟨some r.1, none, none, r.2⟩
  | .cmdInit =>
    let r := wlanCmdInit ctl c.wlanIdx c.frame s
    ⟨some r.1, none, none, r.2⟩
  | .random =>
    let r := getRandom ctl c.wlanIdx c.frame s
    ⟨none, none, some r.1, r.2⟩

def UtilCall.run (s : Wlan) (c : UtilCall) : Wlan := (c.result s).wlan

/-- The request that the function hands to the hook. -/
def UtilCall.request (c : UtilCall) : IoctlCall :=
  match c.fn with
  | .disconnect => c.env.call wlanIoctlDisconnect (store c.frame 0 (le 4 0)) 4
  | .setMaccontrol mac => c.env.call wlanIoctlSetMacControl (store c.frame 0 (le 2 mac.toNat)) 2
  | .getMaccontrol => c.env.call wlanIoctlGetMacControl c.frame 2
  | .cmdFuncShutdown => c.env.call wlanIoctlAnycmd (shortRequest c.frame 0xaa 0 0) 6
  | .cmdInit => c.env.call wlanIoctlInit c.frame 0
  | .random => c.env.call 0x14 (store c.frame 0 (le 4 4)) 4

/-- What a function makes of a returned value and the buffer behind it. -/
def UtilFun.deliver (fn : UtilFun) (ret : Int) (buf : Mem) (s : Wlan) : UtilResult :=
  match fn with
  | .getMaccontrol => ⟨some ret, some (rd16 buf 0), none, s⟩
  | .random => ⟨none, none, some (rd32 buf 0), s⟩
  | _ => ⟨some ret, none, none, s⟩

/-! ## The card -/

/-- The purpose of the functions: the mode, and the commands that the card got, with their bytes. -/
@[ext] structure Card where
  mode : UInt16
  commands : List (UInt16 × List UInt8)

/-- The system seen as the card. -/
def Wlan.card (s : Wlan) : Card :=
  ⟨s.dev.currentMacControl, s.sent.map fun cmd => (cmd.1, load cmd.2.2 0 cmd.2.1.toNat)⟩

/-- The call gets a command slot. -/
def UtilCall.Sends (c : UtilCall) : Prop := 0 < c.wlanIdx ∧ 0 ≤ c.env.d.lock ∧ c.env.d.alloc ≠ none

/-- Its command is sent, and the card answers. -/
def UtilCall.Done (c : UtilCall) : Prop := c.Sends ∧ 0 ≤ c.env.d.send ∧ 0 ≤ c.env.d.wait

/-- The plugin has no part in the call: it does not get the lock, or the request is not its own. -/
def UtilCall.Passed (c : UtilCall) : Prop :=
  c.env.d.lock < 0 ∨ c.fn = .disconnect ∨ c.fn = .cmdInit ∨ c.fn = .random

/-- The original handler alone, with the system as it was. -/
def UtilCall.original (c : UtilCall) (s : Wlan) : UtilResult :=
  let r := c.request.chain c.request.req c.request.buf c.request.bufLen s.dev
  c.fn.deliver r.1 r.2.1 s

instance (c : UtilCall) : Decidable c.Sends := inferInstanceAs (Decidable (_ ∧ _ ∧ _))
instance (c : UtilCall) : Decidable c.Done := inferInstanceAs (Decidable (_ ∧ _ ∧ _))

/-- What a call does to the card. -/
def UtilCall.act (a : Card) (c : UtilCall) : Card :=
  match c.fn with
  | .setMaccontrol mac =>
    { mode := if c.Done then mac else a.mode
      commands := if c.Sends then
        a.commands ++ [(wlanCmdMacControl, le 4 mac.toNat)] else a.commands }
  | .cmdFuncShutdown =>
    { a with commands := if c.Sends then a.commands ++ [(0xaa, [])] else a.commands }
  | _ => a

/-! ## One system call -/

/-- The kernel's copy of a request. -/
theorem call_copied (e : ControlEnv) (req : UInt32) (request : Mem) {bufLen : Int} {i : Nat}
    (h : i + 2 ≤ bufLen.toNat) : rd16 (e.call req request bufLen).buf i = rd16 request i :=
  rd16_store_load h

/-- With an interface a function is one call of the hook. -/
theorem result_eq (c : UtilCall) (hidx : 0 < c.wlanIdx) (s : Wlan) :
    c.result s = c.fn.deliver (c.request.result s.dev).ret (c.request.result s.dev).buf
      ⟨(c.request.result s.dev).dev, s.sent ++ sentCmds (c.request.result s.dev).log⟩ := by
  cases hfn : c.fn with
  | disconnect | setMaccontrol mac | cmdFuncShutdown | cmdInit =>
    simp only [UtilCall.result, UtilCall.request, UtilFun.deliver, hfn, wlanDisconnect,
      wlanSetMaccontrol, wlanCmdFuncShutdown, wlanCmdInit, guarded, if_pos hidx]
    rfl
  | getMaccontrol =>
    simp only [UtilCall.result, UtilCall.request, UtilFun.deliver, hfn, wlanGetMaccontrol,
      guarded, if_pos hidx]
    exact congrArg (UtilResult.mk _ · _ _) (congrArg some (rd16_store_load (by decide)))
  | random =>
    simp only [UtilCall.result, UtilCall.request, UtilFun.deliver, hfn, getRandom, guarded,
      if_pos hidx]
    exact congrArg (UtilResult.mk _ _ · _) (congrArg some (rd32_store_load (by decide)))

theorem sentCmds_unlocked {c : IoctlCall} (h : ¬ 0 ≤ c.d.lock) (dev : WlanDev) :
    sentCmds (c.result dev).log = [] := by
  rw [IoctlCall.result, kwifimonIoctl_unlocked _ _ _ _ _ _ h]
  rfl

/-- Only two of the requests send commands. -/
theorem sentCmds_other {c : IoctlCall} (hset : c.req ≠ wlanIoctlSetMacControl)
    (hany : c.req ≠ wlanIoctlAnycmd) (dev : WlanDev) : sentCmds (c.result dev).log = [] := by
  by_cases hl : 0 ≤ c.d.lock
  · have hlog : ∀ r, sentCmds r.log = [] →
        sentCmds (ioctlLocked c.d c.req c.bufLen r).log = [] := by
      intro r hr
      obtain ⟨-, h⟩ | ⟨h, -⟩ | ⟨h, -⟩ | ⟨-, h⟩ | ⟨-, -, -, -, h⟩ :=
        ioctlLocked_cases c.d c.req c.bufLen
      · rw [h, ioctlGetMacControl]
        split
        · rw [sentCmds_append, hr]
          rfl
        · exact hr
      · exact absurd h hset
      · exact absurd h hany
      · rw [h]
        by_cases h9 : 9 ≤ c.bufLen
        · obtain ⟨_, _, acc, hacc, hword⟩ := ioctlMem_word c.d r h9
          rw [hword, sentCmds_append, sentCmds_append, hr]
          obtain rfl | ⟨_, rfl⟩ | ⟨_, _, rfl⟩ := hacc <;> rfl
        · rw [ioctlMem_short c.d r h9, hr]
      · rw [h, hr]
    rw [IoctlCall.result, kwifimonIoctl_locked _ _ _ _ _ _ hl, sentCmds_append, hlog _ rfl]
    rfl
  · exact sentCmds_unlocked hl dev

/-- Without the lock, or on a request that is not the plugin's, the hook leaves the original
    handler's answer as it is. -/
theorem result_passed {c : IoctlCall} (h : c.d.lock < 0 ∨
    (c.req ≠ wlanIoctlGetMacControl ∧ c.req ≠ wlanIoctlSetMacControl ∧ c.req ≠ wlanIoctlAnycmd ∧
      c.req ≠ wlanIoctlMem)) (dev : WlanDev) :
    (c.result dev).ret = (c.chain c.req c.buf c.bufLen dev).1 ∧
      (c.result dev).buf = (c.chain c.req c.buf c.bufLen dev).2.1 ∧
      (c.result dev).dev = dev ∧ sentCmds (c.result dev).log = [] := by
  have hkeeps : (c.chain c.req c.buf c.bufLen dev).2.2 = dev := c.keeps dev
  rw [IoctlCall.result]
  by_cases hl : 0 ≤ c.d.lock
  · obtain hlock | ⟨hget, hset, hany, hmem⟩ := h
    · exact absurd hl (Int.not_le.mpr hlock)
    · obtain ⟨h, -⟩ | ⟨h, -⟩ | ⟨h, -⟩ | ⟨h, -⟩ | ⟨-, -, -, -, hlocked⟩ :=
        ioctlLocked_cases c.d c.req c.bufLen
      · exact absurd h hget
      · exact absurd h hset
      · exact absurd h hany
      · exact absurd h hmem
      · rw [kwifimonIoctl_locked _ _ _ _ _ _ hl, hlocked]
        exact ⟨rfl, rfl, hkeeps, rfl⟩
  · rw [kwifimonIoctl_unlocked _ _ _ _ _ _ hl]
    exact ⟨rfl, rfl, hkeeps, rfl⟩

/-- The command of `kwifimon_mac_control` as the card gets it. -/
theorem macControl_command (d : Driver) (mac : UInt16) :
    (sentCmds (kwifimonMacControl d mac).2).map (fun cmd => (cmd.1, load cmd.2.2 0 cmd.2.1.toNat)) =
      if d.alloc ≠ none then [(wlanCmdMacControl, le 4 mac.toNat)] else [] := by
  by_cases h : d.alloc ≠ none
  · obtain ⟨out, hsent, hword⟩ := macControl_sent d mac h
    rw [if_pos h, hsent]
    have hbytes := le_rd32 out 0
    rw [hword, UInt16.toNat_toUInt32] at hbytes
    rw [List.map_singleton, hbytes]
    rfl
  · rw [if_neg h]
    rw [not_not] at h
    unfold kwifimonMacControl
    rw [h]
    rfl

/-- The system behind a call of the hook. -/
theorem card_after (s : Wlan) (r : IoctlResult) :
    (Wlan.mk r.dev (s.sent ++ sentCmds r.log)).card = ⟨r.dev.currentMacControl,
      s.card.commands ++ (sentCmds r.log).map fun cmd => (cmd.1, load cmd.2.2 0 cmd.2.1.toNat)⟩ := by
  rw [Wlan.card, List.map_append]
  rfl

/-! ## One function -/

theorem guarded_other (e : ControlEnv) (wlanIdx : Int) {req : UInt32}
    (hset : req ≠ wlanIoctlSetMacControl) (hany : req ≠ wlanIoctlAnycmd) (buf : Mem) (bufLen : Int)
    (s : Wlan) : (guarded (controlSyscall e) wlanIdx req buf bufLen s).2.2.card = s.card := by
  unfold guarded
  split
  · have hsent := sentCmds_other (c := e.call req buf bufLen) hset hany s.dev
    have hdev : ((e.call req buf bufLen).result s.dev).dev = s.dev :=
      run_not_setDone (fun h => hset h.req) s.dev
    show (Wlan.mk ((e.call req buf bufLen).result s.dev).dev (s.sent ++ sentCmds _)).card = _
    rw [card_after, hsent, hdev, List.map_nil, List.append_nil]
    rfl
  · rfl

/-- What `wlan_set_maccontrol` returns with the lock, and what it does. -/
theorem set_spec (e : ControlEnv) (frame : Mem) (mac : UInt16) (dev : WlanDev)
    (hl : 0 ≤ e.d.lock) :
    let c := e.call wlanIoctlSetMacControl (store frame 0 (le 2 mac.toNat)) 2
    (c.result dev).dev = (if 0 ≤ (kwifimonMacControl e.d mac).1 then ⟨mac⟩ else dev) ∧
      sentCmds (c.result dev).log = sentCmds (kwifimonMacControl e.d mac).2 ∧
      (c.result dev).ret = (kwifimonMacControl e.d mac).1 := by
  intro c
  have hmode : c.mode dev = mac := by
    have hbuf : (c.chain c.req c.buf c.bufLen dev).2.1 = c.buf := e.keepsSet ..
    rw [IoctlCall.mode, hbuf, call_copied e _ _ (by decide), rd16_store_le]
  obtain ⟨hrun, hsent⟩ := result_set c dev rfl hl (Int.le_refl 2)
  rw [hmode] at hrun hsent
  refine ⟨hrun, hsent, ?_⟩
  rw [← hmode]
  have hlocked : ∀ r, ioctlLocked c.d c.req c.bufLen r = ioctlSetMacControl c.d c.bufLen r :=
    fun _ => rfl
  have hlock : 0 ≤ c.d.lock := hl
  rw [IoctlCall.result, kwifimonIoctl_locked _ _ _ _ _ _ hlock, hlocked, ioctlSetMacControl,
    if_pos (show (2 : Int) ≤ c.bufLen from Int.le_refl 2)]
  rfl

theorem shortRequest_fields (frame : Mem) (cmd outLen inLen : UInt16) :
    rd16 (shortRequest frame cmd outLen inLen) 0 = cmd ∧
      rd16 (shortRequest frame cmd outLen inLen) 2 = outLen ∧
      rd16 (shortRequest frame cmd outLen inLen) 4 = inLen := by
  have hcmd := rd16_store_le frame 0 cmd
  have hout := rd16_store_le (store frame 0 (le 2 cmd.toNat)) 2 outLen
  refine ⟨?_, ?_, rd16_store_le _ 4 inLen⟩
  · rw [shortRequest, rd16, rd_store_disjoint (by simp), rd_store_disjoint (by simp)]
    exact hcmd
  · rw [shortRequest, rd16, rd_store_disjoint (by simp)]
    exact hout

/-- What `wlan_cmd_func_shutdown` sends with the lock: command 0xaa, without data. -/
theorem shutdown_spec (e : ControlEnv) (frame : Mem) (dev : WlanDev) (hl : 0 ≤ e.d.lock) :
    let c := e.call wlanIoctlAnycmd (shortRequest frame 0xaa 0 0) 6
    (c.result dev).dev = dev ∧
      (sentCmds (c.result dev).log).map (fun cmd => (cmd.1, load cmd.2.2 0 cmd.2.1.toNat)) =
        (if e.d.alloc ≠ none then [(0xaa, [])] else []) ∧
      (0 ≤ (c.result dev).ret ↔ e.d.alloc ≠ none ∧ 0 ≤ e.d.send ∧ 0 ≤ e.d.wait) := by
  intro c
  obtain ⟨hcmd, hout, hin⟩ := shortRequest_fields frame 0xaa 0 0
  have hcmd' : rd16 c.buf 0 = 0xaa := (call_copied e _ _ (by decide)).trans hcmd
  have hout' : rd16 c.buf 2 = 0 := (call_copied e _ _ (by decide)).trans hout
  have hin' : rd16 c.buf 4 = 0 := (call_copied e _ _ (by decide)).trans hin
  obtain ⟨hsent, -, hret⟩ := kwifimonIoctl_anycmd e.chain e.d c.buf 6 dev hl
    (e.keepsAnycmd c.buf 6 dev) (by rw [hout', hin']; decide)
  rw [hcmd', hout', hin'] at hsent hret
  refine ⟨run_not_setDone (fun h => absurd h.req (show wlanIoctlAnycmd ≠ _ by decide)) dev, ?_, ?_⟩
  · rw [show sentCmds (c.result dev).log = _ from hsent]
    cases halloc : e.d.alloc with
    | none =>
      rw [if_neg (not_not_intro rfl)]
      unfold kwifimonWlanAnycmd
      rw [halloc]
      rfl
    | some slot =>
      rw [if_pos (Option.some_ne_none slot), anycmd_sent e.d _ _ 6 _ _ halloc]
      rfl
  · rw [show (c.result dev).ret = _ from hret]
    exact wlanAnycmd_ret ..

theorem control_set (c : UtilCall) (mac : UInt16) (hfn : c.fn = .setMaccontrol mac) (s : Wlan) :
    (c.run s).card = c.act s.card := by
  have hrun : c.run s = (guarded (controlSyscall c.env) c.wlanIdx wlanIoctlSetMacControl
      (store c.frame 0 (le 2 mac.toNat)) 2 s).2.2 := by
    rw [UtilCall.run, UtilCall.result, hfn]
    rfl
  rw [hrun, UtilCall.act, hfn, guarded]
  dsimp only
  by_cases hidx : 0 < c.wlanIdx
  · rw [if_pos hidx]
    show (Wlan.mk (IoctlCall.result _ s.dev).dev (s.sent ++ sentCmds _)).card = _
    rw [card_after]
    by_cases hl : 0 ≤ c.env.d.lock
    · obtain ⟨hdev, hsent, -⟩ := set_spec c.env c.frame mac s.dev hl
      have hsends : c.Sends ↔ c.env.d.alloc ≠ none := by
        rw [UtilCall.Sends, and_iff_right hidx, and_iff_right hl]
      have hdone : c.Done ↔ 0 ≤ (kwifimonMacControl c.env.d mac).1 := by
        rw [UtilCall.Done, hsends, macControl_ret]
      rw [hdev, hsent, macControl_command, apply_ite WlanDev.currentMacControl]
      simp only [hdone, hsends]
      refine Card.ext rfl ?_
      dsimp only
      split
      · rfl
      · exact List.append_nil _
    · have hsends : ¬ c.Sends := fun h => hl h.2.1
      rw [sentCmds_unlocked hl, if_neg hsends, if_neg (fun h => hsends h.1)]
      refine Card.ext ?_ (List.append_nil _)
      exact congrArg WlanDev.currentMacControl (run_not_setDone (fun h => hl h.lock) s.dev)
  · have hsends : ¬ c.Sends := fun h => hidx h.1
    rw [if_neg hidx, if_neg hsends, if_neg (fun h => hsends h.1)]

theorem control_shutdown (c : UtilCall) (hfn : c.fn = .cmdFuncShutdown) (s : Wlan) :
    (c.run s).card = c.act s.card := by
  have hrun : c.run s = (guarded (controlSyscall c.env) c.wlanIdx wlanIoctlAnycmd
      (shortRequest c.frame 0xaa 0 0) 6 s).2.2 := by
    rw [UtilCall.run, UtilCall.result, hfn]
    rfl
  rw [hrun, UtilCall.act, hfn, guarded]
  dsimp only
  by_cases hidx : 0 < c.wlanIdx
  · rw [if_pos hidx]
    show (Wlan.mk (IoctlCall.result _ s.dev).dev (s.sent ++ sentCmds _)).card = _
    rw [card_after]
    by_cases hl : 0 ≤ c.env.d.lock
    · obtain ⟨hdev, hsent, -⟩ := shutdown_spec c.env c.frame s.dev hl
      have hsends : c.Sends ↔ c.env.d.alloc ≠ none := by
        rw [UtilCall.Sends, and_iff_right hidx, and_iff_right hl]
      rw [hdev, hsent]
      simp only [hsends]
      refine Card.ext rfl ?_
      dsimp only
      split
      · rfl
      · exact List.append_nil _
    · have hsends : ¬ c.Sends := fun h => hl h.2.1
      rw [sentCmds_unlocked hl, if_neg hsends]
      refine Card.ext ?_ (List.append_nil _)
      exact congrArg WlanDev.currentMacControl (run_not_setDone (fun h => hl h.lock) s.dev)
  · have hsends : ¬ c.Sends := fun h => hidx h.1
    rw [if_neg hidx, if_neg hsends]

/-- Every function does to the card what it is for. -/
theorem control_step (s : Wlan) (c : UtilCall) : (c.run s).card = c.act s.card := by
  have hother : ∀ {req : UInt32} {buf : Mem} {bufLen : Int}, req ≠ wlanIoctlSetMacControl →
      req ≠ wlanIoctlAnycmd → c.run s = (guarded (controlSyscall c.env) c.wlanIdx req buf bufLen
        s).2.2 → c.act s.card = s.card → (c.run s).card = c.act s.card := by
    intro req buf bufLen hset hany hrun hact
    rw [hrun, hact, guarded_other c.env c.wlanIdx hset hany]
  cases hfn : c.fn with
  | setMaccontrol mac => exact control_set c mac hfn s
  | cmdFuncShutdown => exact control_shutdown c hfn s
  | disconnect | getMaccontrol | cmdInit | random =>
    refine hother ?_ ?_ (by rw [UtilCall.run, UtilCall.result, hfn]; rfl)
      (by rw [UtilCall.act, hfn])
    · decide
    · decide

/-! ## Runs -/

/-- What a call reports, in the system `s` that it finds: with an interface, the first two for the
    calls that the plugin has a part in, the third for the others. -/
structure CallReports (s : Wlan) (c : UtilCall) : Prop where
  get : c.fn = .getMaccontrol → 0 < c.wlanIdx → 0 ≤ c.env.d.lock →
    (c.result s).ret = some 0 ∧ (c.result s).mode = some s.card.mode
  command : (∃ mac, c.fn = .setMaccontrol mac) ∨ c.fn = .cmdFuncShutdown → 0 < c.wlanIdx →
    0 ≤ c.env.d.lock → ∃ ret, (c.result s).ret = some ret ∧ (0 ≤ ret ↔ c.Done)
  passed : c.Passed → 0 < c.wlanIdx → c.result s = c.original s
  noInterface : ¬ 0 < c.wlanIdx → c.run s = s ∧
    ((c.result s).ret = some (-1) ∨ (c.result s).number = some 4)

theorem control_reports (s : Wlan) (c : UtilCall) : CallReports s c where
  get hfn hidx hl := by
    have hget := result_get (c := c.env.call wlanIoctlGetMacControl c.frame 2)
      ⟨rfl, hl, Int.le_refl 2⟩ s.dev
    have hrequest : c.request = c.env.call wlanIoctlGetMacControl c.frame 2 := by
      rw [UtilCall.request, hfn]
    rw [result_eq c hidx, hfn, hrequest]
    exact ⟨congrArg some hget.1, congrArg some hget.2⟩
  command hfn hidx hl := by
    have hdone : c.Done ↔ c.env.d.alloc ≠ none ∧ 0 ≤ c.env.d.send ∧ 0 ≤ c.env.d.wait := by
      rw [UtilCall.Done, UtilCall.Sends, and_iff_right hidx, and_iff_right hl]
    rcases hfn with ⟨mac, hfn⟩ | hfn
    · have hret := (set_spec c.env c.frame mac s.dev hl).2.2
      refine ⟨_, ?_, (macControl_ret c.env.d mac).trans hdone.symm⟩
      rw [result_eq c hidx, UtilCall.request, hfn]
      exact congrArg some hret
    · refine ⟨_, ?_, (shutdown_spec c.env c.frame s.dev hl).2.2.trans hdone.symm⟩
      rw [result_eq c hidx, UtilCall.request, hfn]
      rfl
  passed hpassed hidx := by
    have hhook : c.request.d.lock < 0 ∨ (c.request.req ≠ wlanIoctlGetMacControl ∧
        c.request.req ≠ wlanIoctlSetMacControl ∧ c.request.req ≠ wlanIoctlAnycmd ∧
        c.request.req ≠ wlanIoctlMem) := by
      obtain hlock | hfn | hfn | hfn := hpassed
      · refine Or.inl ?_
        rw [UtilCall.request]
        split <;> exact hlock
      all_goals
        refine Or.inr ?_
        rw [UtilCall.request, hfn]
        dsimp only [ControlEnv.call]
        decide
    obtain ⟨hret, hbuf, hdev, hsent⟩ := result_passed hhook s.dev
    rw [result_eq c hidx, hret, hbuf, hdev, hsent, List.append_nil]
    rfl
  noInterface hidx := by
    cases hfn : c.fn <;>
      simp [UtilCall.run, UtilCall.result, hfn, wlanDisconnect, wlanSetMaccontrol,
        wlanGetMaccontrol, wlanCmdFuncShutdown, wlanCmdInit, getRandom, guarded, hidx]
    exact rd32_store_le c.frame 0 4

/-- **The card.** For every run of the functions of `util.c` that are no memory accesses, with any
    modes, interface indices and answers of the lock and of the driver, behind an original handler
    that leaves alone what `ControlEnv` says: what the run does to the mode and to the list of
    commands is what the functions do to the card, one after the other, and every call reports
    what `CallReports` says. -/
theorem control_refines (s : Wlan) (calls : List UtilCall) :
    (calls.foldl UtilCall.run s).card = calls.foldl UtilCall.act s.card ∧
      EachStep UtilCall.run CallReports s calls := by
  refine ⟨?_, fun pre c _ => control_reports _ c⟩
  induction calls generalizing s with
  | nil => rfl
  | cons c calls ih => rw [List.foldl_cons, List.foldl_cons, ih, control_step]

/-- A system call that meets nothing unusual. -/
def quietEnv : ControlEnv where
  chain := noChain
  d := willing
  kernel := fun _ => 0
  keepsDev _ _ _ _ := rfl
  keepsSet _ _ _ := rfl
  keepsAnycmd _ _ _ := rfl

/-- A mode that was set is the one reported. -/
theorem control_refines_set :
    (UtilCall.result ⟨.getMaccontrol, quietEnv, 1, fun _ => 0⟩
      (UtilCall.run ⟨⟨3⟩, []⟩ ⟨.setMaccontrol 0x13, quietEnv, 1, fun _ => 0⟩)).mode =
        some 0x13 := by
  have hcard := (control_refines ⟨⟨3⟩, []⟩ [⟨.setMaccontrol 0x13, quietEnv, 1, fun _ => 0⟩]).1
  have hget := ((control_refines ⟨⟨3⟩, []⟩ [⟨.setMaccontrol 0x13, quietEnv, 1, fun _ => 0⟩,
    ⟨.getMaccontrol, quietEnv, 1, fun _ => 0⟩]).2 [_] _ (List.prefix_refl _)).get rfl
      (by decide) (by decide)
  exact hget.2.trans (congrArg some (congrArg Card.mode hcard))

/-- **No interface.** Where no interface of the list is called `wlan0`, or the last one has no
    positive index, `find_wlan_idx` leaves an index at which no run of the functions that are no
    memory accesses reaches the card, whatever the calls meet: each returns -1, or, as a random
    number, the 4 that it put into the buffer. -/
theorem control_unreached (ifaceCount : Int) (ifaceList : List Iface)
    (h : ∀ f ∈ ((ifaceList.take ifaceCount.toNat).filter Iface.isWlan0).getLast?, f.devIdx ≤ 0)
    (s : Wlan) (calls : List UtilCall)
    (hidx : ∀ c ∈ calls, c.wlanIdx = findWlanIdx ifaceCount ifaceList (-1)) :
    calls.foldl UtilCall.run s = s ∧
      ∀ c ∈ calls, (c.result s).ret = some (-1) ∨ (c.result s).number = some 4 := by
  have hnone : ¬ 0 < findWlanIdx ifaceCount ifaceList (-1) := by
    unfold findWlanIdx
    split
    · rw [foldl_wlan0]
      cases hlast : ((ifaceList.take ifaceCount.toNat).filter Iface.isWlan0).getLast? with
      | none => decide
      | some f => exact Int.not_lt.mpr (h f hlast)
    · decide
  have hcall : ∀ c ∈ calls, ∀ s : Wlan, c.run s = s ∧
      ((c.result s).ret = some (-1) ∨ (c.result s).number = some 4) :=
    fun c hc s => (control_reports s c).noInterface (by rw [hidx c hc]; exact hnone)
  refine ⟨?_, fun c hc => (hcall c hc s).2⟩
  induction calls with
  | nil => rfl
  | cons c calls ih =>
    rw [List.foldl_cons, (hcall c (List.mem_cons_self ..) s).1]
    exact ih (fun c' hc' => hidx c' (List.mem_cons_of_mem _ hc'))
      fun c' hc' => hcall c' (List.mem_cons_of_mem _ hc')

/-- The list cannot be got, and the mode is not set. -/
theorem control_unreached_noList :
    (UtilCall.run ⟨⟨3⟩, []⟩ ⟨.setMaccontrol 0x13, quietEnv, findWlanIdx (-1) [] (-1),
      fun _ => 0⟩).dev = ⟨3⟩ := by
  have hsame := (control_unreached (-1) [] (by simp) ⟨⟨3⟩, []⟩
    [⟨.setMaccontrol 0x13, quietEnv, findWlanIdx (-1) [] (-1), fun _ => 0⟩]
    (fun c hc => by rw [List.mem_singleton.mp hc])).1
  exact congrArg Wlan.dev hsame

end Wifimon.App
