/-
  `src/kplugin/kwifimon.c`: `kwifimon_ioctl`, the hooked ioctl, and the firmware commands it
  issues.

  The original handler runs first (`Chain`); then, under `wlan_lock`, the hook serves the four
  requests of the plugin. What the driver answers in one call is a `Driver`: the lock, the
  command slot, the results of sending and waiting, the slot's `in_data` afterwards, and the
  firmware memory functions. `IoctlResult` is the value returned, the buffer and the device left
  behind, and the log of what was done, in order: driver calls, accesses to the command slot,
  and the ranges of the user's buffer that were read and written.

  `anycmd_tunnel_iff`: with the lock and a slot, and a buffer as long as the hook checks for,
  `WLAN_IOCTL_ANYCMD` sends the requested command and stores its answer if and only if
  `out_len < 256`, the width of the parameter of `kwifimon_wlan_anycmd`.
-/
import Wifimon.Lib.Bytes

namespace Wifimon.Kplugin

open ByteLib

/-! ## Requests and commands -/

def wlanIoctlGetMacControl : UInt32 := 0x4011FF01
def wlanIoctlSetMacControl : UInt32 := 0x5011FF01
def wlanIoctlAnycmd : UInt32 := 0x5011FF05
def wlanIoctlMem : UInt32 := 0x5011FF07

def wlanCmdMacControl : UInt16 := 0x0028

/-- `0x80418005` as an `int`: no command slot. -/
def noCmd : Int := -0x7fbe7ffb

/-- The fields of `struct wlan_dev_t` the hook uses, its lock apart. -/
structure WlanDev where
  currentMacControl : UInt16
  deriving DecidableEq

/-- What the driver answers during one call. -/
structure Driver where
  lock : Int
  alloc : Option Nat
  /-- `out_data` of the slot before the call. -/
  outData : Mem
  send : Int
  wait : Int
  /-- `in_data` of the slot once `wlan_cmd_wait` has returned. -/
  inData : Mem
  /-- The value returned and the word left in `*value`, for an address and the word there. -/
  memRead : UInt32 → UInt32 → Int × UInt32
  memWrite : UInt32 → UInt32 → Int

inductive IoctlEvent where
  | lock (ret : Int)
  | unlock
  | alloc (cmdLen : Int) (slot : Option Nat)
  | slotWrite (slot : Nat)
  | slotRead (slot : Nat)
  | send2 (slot : Nat) (cmdid : UInt16) (cmdLen : Int) (outData : Mem)
  | wait (slot : Nat)
  | free (slot : Nat)
  | memRead (addr : UInt32)
  | memWrite (addr value : UInt32)
  | bufRead (ofs len : Nat)
  | bufWrite (ofs len : Nat)

structure IoctlResult where
  ret : Int
  buf : Mem
  dev : WlanDev
  log : List IoctlEvent

/-! ## Firmware commands -/

/-- The value returned and what was done. `sizeof(struct wlan_mac_control_t)` is 4. -/
def kwifimonMacControl (d : Driver) (mode : UInt16) : Int × List IoctlEvent :=
  match d.alloc with
  | none => (noCmd, [.alloc 4 none])
  | some slot =>
    let out := store d.outData 0 (le 4 mode.toNat)
    let log := [.alloc 4 (some slot), .slotWrite slot, .slotWrite slot,
      .send2 slot wlanCmdMacControl 4 out]
    if 0 ≤ d.send then (d.wait, log ++ [.wait slot, .free slot])
    else (d.send, log ++ [.free slot])

/-- The pointer `buf` of the source is offset `p` of the user's buffer. `out_len` has eight
    bits, `in_len` sixteen. The value returned, the buffer left behind, and what was done. -/
def kwifimonWlanAnycmd (d : Driver) (wlancmd : Int) (buf : Mem) (p : Nat) (outLen : UInt8)
    (inLen : UInt16) : Int × Mem × List IoctlEvent :=
  match d.alloc with
  | none => (noCmd, buf, [.alloc outLen.toNat none])
  | some slot =>
    let out := store d.outData 0 (load buf p outLen.toNat)
    let log := [.alloc outLen.toNat (some slot), .slotWrite slot, .bufRead p outLen.toNat,
      .slotWrite slot, .send2 slot (UInt16.ofInt wlancmd) outLen.toNat out]
    if 0 ≤ d.send then
      -- in_data is copied whatever wlan_cmd_wait returned
      if inLen ≠ 0 then
        (d.wait, store buf p (load d.inData 0 inLen.toNat),
          log ++ [.wait slot, .slotRead slot, .bufWrite p inLen.toNat, .free slot])
      else (d.wait, buf, log ++ [.wait slot, .free slot])
    else (d.send, buf, log ++ [.free slot])

/-! ## The hook

The branches of `kwifimon_ioctl`, each on the value to return, the buffer and the device so
far. -/

def ioctlGetMacControl (bufLen : Int) (r : IoctlResult) : IoctlResult :=
  if 2 ≤ bufLen then
    { r with
      ret := 0
      buf := store r.buf 0 (le 2 r.dev.currentMacControl.toNat)
      log := r.log ++ [.bufWrite 0 2] }
  else r

def ioctlSetMacControl (d : Driver) (bufLen : Int) (r : IoctlResult) : IoctlResult :=
  if 2 ≤ bufLen then
    let mode := rd16 r.buf 0
    let c := kwifimonMacControl d mode
    { r with
      ret := c.1
      dev := if 0 ≤ c.1 then { r.dev with currentMacControl := mode } else r.dev
      log := r.log ++ [.bufRead 0 2] ++ c.2 }
  else r

def ioctlAnycmd (d : Driver) (bufLen : Int) (r : IoctlResult) : IoctlResult :=
  if 6 ≤ bufLen then
    let cmd := rd16 r.buf 0
    let outLen := rd16 r.buf 2
    let inLen := rd16 r.buf 4
    let log := r.log ++ [.bufRead 0 2, .bufRead 2 2, .bufRead 4 2]
    if (max outLen.toNat inLen.toNat : Int) + 6 ≤ bufLen then
      let c := kwifimonWlanAnycmd d cmd.toNat r.buf 6 outLen.toUInt8 inLen
      { r with ret := c.1, buf := c.2.1, log := log ++ c.2.2 }
    else { r with log := log }
  else r

def ioctlMem (d : Driver) (bufLen : Int) (r : IoctlResult) : IoctlResult :=
  if 9 ≤ bufLen then
    let addr := rd32 r.buf 1
    let value := rd32 r.buf 5
    let log := r.log ++ [.bufRead 1 4, .bufRead 5 4, .bufRead 0 1]
    if r.buf 0 = 0 then
      let c := d.memRead addr value
      { r with
        ret := c.1
        buf := store r.buf 5 (le 4 c.2.toNat)
        log := log ++ [.memRead addr, .bufWrite 5 4] }
    else if r.buf 0 = 1 then
      { r with
        ret := d.memWrite addr value
        buf := store r.buf 5 (le 4 value.toNat)
        log := log ++ [.memWrite addr value, .bufWrite 5 4] }
    else
      { r with
        buf := store r.buf 5 (le 4 value.toNat)
        log := log ++ [.bufWrite 5 4] }
  else r

/-- The original handler: the value it returns, and what it leaves in the buffer and the
    device. -/
abbrev Chain := UInt32 → Mem → Int → WlanDev → Int × Mem × WlanDev

/-- The four requests, with `wlan_lock` held. -/
def ioctlLocked (d : Driver) (req : UInt32) (bufLen : Int) (r : IoctlResult) : IoctlResult :=
  if req = wlanIoctlGetMacControl then ioctlGetMacControl bufLen r
  else if req = wlanIoctlSetMacControl then ioctlSetMacControl d bufLen r
  else if req = wlanIoctlAnycmd then ioctlAnycmd d bufLen r
  else if req = wlanIoctlMem then ioctlMem d bufLen r
  else r

def kwifimonIoctl (chain : Chain) (d : Driver) (req : UInt32) (buf : Mem) (bufLen : Int)
    (dev : WlanDev) : IoctlResult :=
  let c := chain req buf bufLen dev
  let r : IoctlResult := ⟨c.1, c.2.1, c.2.2, [.lock d.lock]⟩
  if 0 ≤ d.lock then
    let r := ioctlLocked d req bufLen r
    { r with log := r.log ++ [.unlock] }
  else r

theorem ioctlMem_short (d : Driver) {bufLen : Int} (r : IoctlResult) (h : ¬ 9 ≤ bufLen) :
    ioctlMem d bufLen r = r :=
  if_neg h

/-- Whatever the direction, three reads, at most one access of a word, and a word copied back. -/
theorem ioctlMem_word (d : Driver) {bufLen : Int} (r : IoctlResult) (h : 9 ≤ bufLen) :
    ∃ (ret : Int) (value : UInt32) (acc : List IoctlEvent),
      (acc = [] ∨ (∃ addr, acc = [.memRead addr]) ∨ ∃ addr v, acc = [.memWrite addr v]) ∧
      ioctlMem d bufLen r =
        { r with
          ret := ret
          buf := store r.buf 5 (le 4 value.toNat)
          log := r.log ++ [.bufRead 1 4, .bufRead 5 4, .bufRead 0 1] ++ (acc ++ [.bufWrite 5 4]) } := by
  unfold ioctlMem
  rw [if_pos h]
  dsimp only
  by_cases h0 : r.buf 0 = 0
  · rw [if_pos h0]
    exact ⟨_, _, [_], Or.inr (Or.inl ⟨_, rfl⟩), rfl⟩
  · rw [if_neg h0]
    by_cases h1 : r.buf 0 = 1
    · rw [if_pos h1]
      exact ⟨_, _, [_], Or.inr (Or.inr ⟨_, _, rfl⟩), rfl⟩
    · rw [if_neg h1]
      exact ⟨_, _, [], Or.inl rfl, rfl⟩

/-- The request decides what is done with the lock held. -/
theorem ioctlLocked_cases (d : Driver) (req : UInt32) (bufLen : Int) :
    (req = wlanIoctlGetMacControl ∧ ∀ r, ioctlLocked d req bufLen r = ioctlGetMacControl bufLen r) ∨
    (req = wlanIoctlSetMacControl ∧
      ∀ r, ioctlLocked d req bufLen r = ioctlSetMacControl d bufLen r) ∨
    (req = wlanIoctlAnycmd ∧ ∀ r, ioctlLocked d req bufLen r = ioctlAnycmd d bufLen r) ∨
    (req = wlanIoctlMem ∧ ∀ r, ioctlLocked d req bufLen r = ioctlMem d bufLen r) ∨
    (req ≠ wlanIoctlGetMacControl ∧ req ≠ wlanIoctlSetMacControl ∧ req ≠ wlanIoctlAnycmd ∧
      req ≠ wlanIoctlMem ∧ ∀ r, ioctlLocked d req bufLen r = r) := by
  unfold ioctlLocked
  by_cases h1 : req = wlanIoctlGetMacControl
  · exact Or.inl ⟨h1, fun r => if_pos h1⟩
  · by_cases h2 : req = wlanIoctlSetMacControl
    · exact Or.inr (Or.inl ⟨h2, fun r => by rw [if_neg h1, if_pos h2]⟩)
    · by_cases h3 : req = wlanIoctlAnycmd
      · exact Or.inr (Or.inr (Or.inl ⟨h3, fun r => by rw [if_neg h1, if_neg h2, if_pos h3]⟩))
      · by_cases h4 : req = wlanIoctlMem
        · refine Or.inr (Or.inr (Or.inr (Or.inl ⟨h4, fun r => ?_⟩)))
          rw [if_neg h1, if_neg h2, if_neg h3, if_pos h4]
        · refine Or.inr (Or.inr (Or.inr (Or.inr ⟨h1, h2, h3, h4, fun r => ?_⟩)))
          rw [if_neg h1, if_neg h2, if_neg h3, if_neg h4]

/-! ## The tunnel -/

/-- The commands a log hands to `wlan_cmd_send2`: id, length and `out_data`. -/
def sentCmds (log : List IoctlEvent) : List (UInt16 × Int × Mem) :=
  log.filterMap fun
    | .send2 _ cmdid cmdLen outData => some (cmdid, cmdLen, outData)
    | _ => none

@[simp] theorem sentCmds_append (l l' : List IoctlEvent) :
    sentCmds (l ++ l') = sentCmds l ++ sentCmds l' :=
  List.filterMap_append

/-- The command a request `id, outLen, inLen, payload` in `before` is to issue, and what its
    answer is to leave in the buffer. -/
structure Tunnel (d : Driver) (before : Mem) (id outLen inLen : UInt16) (r : IoctlResult) :
    Prop where
  sent : ∃ out, sentCmds r.log = [(id, (outLen.toNat : Int), out)] ∧
    load out 0 outLen.toNat = load before 6 outLen.toNat
  stored : 0 ≤ d.send → 0 ≤ d.wait → ∀ i, r.buf i =
    if 6 ≤ i ∧ i < 6 + inLen.toNat then d.inData (i - 6) else before i

/-- What `kwifimon_wlan_anycmd` sends, given a slot. -/
theorem anycmd_sent (d : Driver) (wlancmd : Int) (buf : Mem) (p : Nat) (outLen : UInt8)
    (inLen : UInt16) {slot : Nat} (h : d.alloc = some slot) :
    sentCmds (kwifimonWlanAnycmd d wlancmd buf p outLen inLen).2.2 =
      [(UInt16.ofInt wlancmd, (outLen.toNat : Int),
        store d.outData 0 (load buf p outLen.toNat))] := by
  unfold kwifimonWlanAnycmd
  rw [h]
  dsimp only
  by_cases hs : 0 ≤ d.send
  · rw [if_pos hs]
    by_cases hi : inLen ≠ 0
    · rw [if_pos hi]
      rfl
    · rw [if_neg hi]
      rfl
  · rw [if_neg hs]
    rfl

/-- What it leaves in the buffer when the command is sent. -/
theorem anycmd_buf (d : Driver) (wlancmd : Int) (buf : Mem) (p : Nat) (outLen : UInt8)
    (inLen : UInt16) {slot : Nat} (h : d.alloc = some slot) (hs : 0 ≤ d.send) :
    (kwifimonWlanAnycmd d wlancmd buf p outLen inLen).2.1 =
      store buf p (load d.inData 0 inLen.toNat) := by
  unfold kwifimonWlanAnycmd
  rw [h]
  dsimp only
  rw [if_pos hs]
  by_cases hi : inLen = 0
  · rw [if_neg (not_not_intro hi), hi]
    exact (store_nil buf p).symm
  · rw [if_pos hi]

/-- A call with `WLAN_IOCTL_ANYCMD`, the lock and a buffer of the length checked for. -/
theorem kwifimonIoctl_anycmd (chain : Chain) (d : Driver) (buf : Mem) (bufLen : Int)
    (dev : WlanDev) (hlock : 0 ≤ d.lock) {before : Mem}
    (hbefore : (chain wlanIoctlAnycmd buf bufLen dev).2.1 = before)
    (hlen : (max (rd16 before 2).toNat (rd16 before 4).toNat : Int) + 6 ≤ bufLen) :
    let c := kwifimonWlanAnycmd d (rd16 before 0).toNat before 6 (rd16 before 2).toUInt8
      (rd16 before 4)
    let r := kwifimonIoctl chain d wlanIoctlAnycmd buf bufLen dev
    sentCmds r.log = sentCmds c.2.2 ∧ r.buf = c.2.1 ∧ r.ret = c.1 := by
  have h6 : 6 ≤ bufLen := by omega
  have hreq : ∀ r, ioctlLocked d wlanIoctlAnycmd bufLen r = ioctlAnycmd d bufLen r := fun _ => rfl
  intro c r
  have hr : r = kwifimonIoctl chain d wlanIoctlAnycmd buf bufLen dev := rfl
  unfold kwifimonIoctl at hr
  rw [if_pos hlock] at hr
  dsimp only at hr
  rw [hreq, ioctlAnycmd, if_pos h6] at hr
  dsimp only at hr
  rw [hbefore, if_pos hlen] at hr
  rw [hr]
  refine ⟨?_, rfl, rfl⟩
  simp only [sentCmds_append]
  simp [sentCmds, c]

theorem wlanAnycmd_ret (d : Driver) (wlancmd : Int) (buf : Mem) (p : Nat) (outLen : UInt8)
    (inLen : UInt16) : 0 ≤ (kwifimonWlanAnycmd d wlancmd buf p outLen inLen).1 ↔
      d.alloc ≠ none ∧ 0 ≤ d.send ∧ 0 ≤ d.wait := by
  unfold kwifimonWlanAnycmd
  cases d.alloc with
  | none => exact iff_of_false (show ¬ 0 ≤ noCmd by decide) fun h => h.1 rfl
  | some slot =>
    rw [and_iff_right (Option.some_ne_none slot)]
    dsimp only
    by_cases hs : 0 ≤ d.send
    · rw [if_pos hs, and_iff_right hs]
      split <;> rfl
    · rw [if_neg hs]
      exact iff_of_false hs fun h => hs h.1

/-- What `kwifimon_wlan_anycmd` does with the request in `before`, given a slot, is the tunnel if
    and only if `out_len` is not cut. -/
theorem tunnel_iff (d : Driver) (before : Mem) {slot : Nat} (halloc : d.alloc = some slot)
    {r : IoctlResult} (hsent : sentCmds r.log = sentCmds (kwifimonWlanAnycmd d
      (rd16 before 0).toNat before 6 (rd16 before 2).toUInt8 (rd16 before 4)).2.2)
    (hbuf : r.buf = (kwifimonWlanAnycmd d (rd16 before 0).toNat before 6
      (rd16 before 2).toUInt8 (rd16 before 4)).2.1) :
    Tunnel d before (rd16 before 0) (rd16 before 2) (rd16 before 4) r ↔
      (rd16 before 2).toNat < 256 := by
  rw [anycmd_sent d _ before 6 _ _ halloc] at hsent
  have hid : UInt16.ofInt ((rd16 before 0).toNat : Int) = rd16 before 0 := by
    apply UInt16.toNat_inj.mp
    have := (rd16 before 0).toNat_lt
    simp only [UInt16.ofInt, UInt16.toNat_ofNat']
    omega
  have hmod : (rd16 before 2).toUInt8.toNat = (rd16 before 2).toNat % 256 := by
    simp
  rw [hid, hmod] at hsent
  constructor
  · rintro ⟨⟨out, hout, -⟩, -⟩
    -- the length sent is out_len mod 256
    rw [hsent] at hout
    simp only [List.cons.injEq, Prod.mk.injEq] at hout
    omega
  · intro hlt
    rw [Nat.mod_eq_of_lt hlt] at hsent
    refine ⟨⟨_, hsent, ?_⟩, fun hs _ i => ?_⟩
    · have hself := load_store_self d.outData 0 (load before 6 (rd16 before 2).toNat)
      rw [load_length] at hself
      exact hself
    · rw [hbuf, anycmd_buf d _ before 6 _ _ halloc hs]
      by_cases hi : 6 ≤ i ∧ i < 6 + (rd16 before 4).toNat
      · obtain ⟨k, rfl⟩ := Nat.exists_eq_add_of_le hi.1
        have hk : k < (load d.inData 0 (rd16 before 4).toNat).length := by
          rw [load_length]; omega
        rw [if_pos hi, store_apply_of_mem hk, load_getElem, Nat.zero_add,
          Nat.add_sub_cancel_left]
      · rw [if_neg hi, store_apply_of_not (by rw [load_length]; omega)]

/-- **The command tunnel.** For every buffer the original handler leaves, whatever command and
    lengths it asks for: with the lock, a slot and the length the hook checks for, the request
    is tunnelled faithfully if and only if its `out_len` is below 256. -/
theorem anycmd_tunnel_iff (chain : Chain) (d : Driver) (buf : Mem) (bufLen : Int)
    (dev : WlanDev) (before : Mem) (slot : Nat)
    (hbefore : (chain wlanIoctlAnycmd buf bufLen dev).2.1 = before)
    (hlock : 0 ≤ d.lock) (halloc : d.alloc = some slot)
    (hlen : (max (rd16 before 2).toNat (rd16 before 4).toNat : Int) + 6 ≤ bufLen) :
    Tunnel d before (rd16 before 0) (rd16 before 2) (rd16 before 4)
        (kwifimonIoctl chain d wlanIoctlAnycmd buf bufLen dev) ↔
      (rd16 before 2).toNat < 256 := by
  obtain ⟨hsent, hbuf, -⟩ := kwifimonIoctl_anycmd chain d buf bufLen dev hlock hbefore hlen
  exact tunnel_iff d before halloc hsent hbuf

/-- An original handler that knows none of the plugin's requests. -/
def noChain : Chain := fun _ buf _ dev => (-1, buf, dev)

/-- A driver that gives slot 0 and fails nothing. -/
def willing : Driver where
  lock := 0
  alloc := some 0
  outData := fun _ => 0
  send := 0
  wait := 0
  inData := fun _ => 0xEE
  memRead := fun _ value => (0, value)
  memWrite := fun _ _ => 0

/-- Command `0xaa` with one byte out and two in. -/
theorem anycmd_tunnel_iff_short :
    Tunnel willing (ofList [0xaa, 0, 1, 0, 2, 0, 7]) 0xaa 1 2
      (kwifimonIoctl noChain willing wlanIoctlAnycmd (ofList [0xaa, 0, 1, 0, 2, 0, 7]) 8 ⟨0⟩) :=
  (anycmd_tunnel_iff noChain willing (ofList [0xaa, 0, 1, 0, 2, 0, 7]) 8 ⟨0⟩
    (ofList [0xaa, 0, 1, 0, 2, 0, 7]) 0 rfl (by decide) rfl (by decide)).mpr (by decide)

/-- Command `0xaa` with 256 bytes out: a command of length 0 is sent. -/
theorem longCommand_emptied :
    ¬ Tunnel willing (ofList [0xaa, 0, 0, 1, 0, 0]) 0xaa 256 0
      (kwifimonIoctl noChain willing wlanIoctlAnycmd (ofList [0xaa, 0, 0, 1, 0, 0]) 262 ⟨0⟩) := by
  rintro ⟨⟨out, hout, -⟩, -⟩
  have hlen : (sentCmds (kwifimonIoctl noChain willing wlanIoctlAnycmd
      (ofList [0xaa, 0, 0, 1, 0, 0]) 262 ⟨0⟩).log).map (fun c => c.2.1) = [0] := by
    decide
  rw [hout] at hlen
  exact absurd hlen (by simp)

end Wifimon.Kplugin
