/-
  The MAC control mode that the hook keeps in `dev->current_mac_control`.

  A call of `kwifimon_ioctl` (`IoctlCall`) has its own original handler, driver, request and
  buffer; the handler does not write `current_mac_control`. `SetDone` are the
  `WLAN_IOCTL_SET_MAC_CONTROL` calls whose command was exchanged without error.

  `macControl_cache`: after any run of calls the device holds the mode of the last `SetDone` call
  (`LastMode`), that mode is what was sent, a `WLAN_IOCTL_GET_MAC_CONTROL` returns what the
  device holds, and no other call changes it.
-/
import Wifimon.Lib.Runs
import Wifimon.Kplugin.IoctlBuffer
import Mathlib.Data.List.Induction

namespace Wifimon.Kplugin

open ByteLib RunLib

/-! ## Calls -/

structure IoctlCall where
  chain : Chain
  d : Driver
  req : UInt32
  buf : Mem
  bufLen : Int
  /-- The original handler does not write `current_mac_control`. -/
  keeps : ∀ dev, (chain req buf bufLen dev).2.2 = dev

def IoctlCall.result (c : IoctlCall) (dev : WlanDev) : IoctlResult :=
  kwifimonIoctl c.chain c.d c.req c.buf c.bufLen dev

def IoctlCall.run (dev : WlanDev) (c : IoctlCall) : WlanDev := (c.result dev).dev

/-- The two bytes the hook takes for the mode. -/
def IoctlCall.mode (c : IoctlCall) (dev : WlanDev) : UInt16 :=
  rd16 (c.chain c.req c.buf c.bufLen dev).2.1 0

/-- A mode was set, and the firmware took it. -/
structure IoctlCall.SetDone (c : IoctlCall) : Prop where
  req : c.req = wlanIoctlSetMacControl
  lock : 0 ≤ c.d.lock
  len : 2 ≤ c.bufLen
  slot : c.d.alloc ≠ none
  send : 0 ≤ c.d.send
  wait : 0 ≤ c.d.wait

/-- The mode was asked for. -/
structure IoctlCall.GetDone (c : IoctlCall) : Prop where
  req : c.req = wlanIoctlGetMacControl
  lock : 0 ≤ c.d.lock
  len : 2 ≤ c.bufLen

/-- What one call does. -/
structure CallSpec (dev : WlanDev) (c : IoctlCall) : Prop where
  /-- One command is sent, with the mode zero-extended to 32 bits, and the device keeps it. -/
  set : c.SetDone → (c.run dev).currentMacControl = c.mode dev ∧
    ∃ out, sentCmds (c.result dev).log = [(wlanCmdMacControl, 4, out)] ∧
      rd32 out 0 = (c.mode dev).toUInt32
  get : c.GetDone → (c.result dev).ret = 0 ∧
    rd16 (c.result dev).buf 0 = dev.currentMacControl
  /-- Every other call leaves the device alone. -/
  keep : ¬ c.SetDone → c.run dev = dev

/-- `m` is the mode of the last `SetDone` call, in the device that call found; without such a
    call it is the initial one. -/
def LastMode (dev : WlanDev) (calls : List IoctlCall) (m : UInt16) : Prop :=
  (∃ pre c suf, calls = pre ++ c :: suf ∧ c.SetDone ∧ (∀ c' ∈ suf, ¬ c'.SetDone) ∧
      m = c.mode (pre.foldl IoctlCall.run dev)) ∨
    (∀ c ∈ calls, ¬ c.SetDone) ∧ m = dev.currentMacControl

/-! ## One call -/

theorem macControl_ret (d : Driver) (mode : UInt16) :
    0 ≤ (kwifimonMacControl d mode).1 ↔ d.alloc ≠ none ∧ 0 ≤ d.send ∧ 0 ≤ d.wait := by
  unfold kwifimonMacControl
  cases d.alloc with
  | none => exact iff_of_false (show ¬ 0 ≤ noCmd by decide) fun h => h.1 rfl
  | some slot =>
    rw [and_iff_right (Option.some_ne_none slot)]
    dsimp only
    by_cases hs : 0 ≤ d.send
    · rw [if_pos hs]
      exact (and_iff_right hs).symm
    · rw [if_neg hs]
      exact iff_of_false hs fun h => hs h.1

theorem macControl_sent (d : Driver) (mode : UInt16) (h : d.alloc ≠ none) :
    ∃ out, sentCmds (kwifimonMacControl d mode).2 = [(wlanCmdMacControl, 4, out)] ∧
      rd32 out 0 = mode.toUInt32 := by
  obtain ⟨slot, hslot⟩ := Option.ne_none_iff_exists'.mp h
  have hword : rd32 (store d.outData 0 (le 4 mode.toNat)) 0 = mode.toUInt32 := by
    rw [← UInt16.toNat_toUInt32]
    exact rd32_store_le d.outData 0 mode.toUInt32
  refine ⟨_, ?_, hword⟩
  unfold kwifimonMacControl
  rw [hslot]
  dsimp only
  split <;> rfl

/-- Only the set request writes the device. -/
theorem locked_dev (d : Driver) (req : UInt32) (bufLen : Int) (r : IoctlResult)
    (h : req ≠ wlanIoctlSetMacControl) : (ioctlLocked d req bufLen r).dev = r.dev := by
  obtain ⟨-, hr⟩ | ⟨hreq, -⟩ | ⟨-, hr⟩ | ⟨-, hr⟩ | ⟨-, -, -, -, hr⟩ :=
    ioctlLocked_cases d req bufLen
  · rw [hr]
    unfold ioctlGetMacControl
    split <;> rfl
  · exact absurd hreq h
  · rw [hr]
    unfold ioctlAnycmd
    split
    · dsimp only
      split <;> rfl
    · rfl
  · rw [hr]
    by_cases h9 : 9 ≤ bufLen
    · obtain ⟨_, _, _, -, hword⟩ := ioctlMem_word d r h9
      rw [hword]
    · rw [ioctlMem_short d r h9]
  · rw [hr]

theorem result_set (c : IoctlCall) (dev : WlanDev) (hreq : c.req = wlanIoctlSetMacControl)
    (hlock : 0 ≤ c.d.lock) (hlen : 2 ≤ c.bufLen) :
    c.run dev = (if 0 ≤ (kwifimonMacControl c.d (c.mode dev)).1 then ⟨c.mode dev⟩ else dev) ∧
      sentCmds (c.result dev).log = sentCmds (kwifimonMacControl c.d (c.mode dev)).2 := by
  have hlocked : ∀ r, ioctlLocked c.d c.req c.bufLen r = ioctlSetMacControl c.d c.bufLen r := by
    intro r
    rw [hreq]
    rfl
  unfold IoctlCall.run IoctlCall.result
  rw [kwifimonIoctl_locked _ _ _ _ _ _ hlock, hlocked]
  unfold ioctlSetMacControl afterChain
  rw [if_pos hlen]
  refine ⟨?_, ?_⟩
  · dsimp only
    rw [c.keeps dev]
    rfl
  · simp only [sentCmds_append]
    simp [sentCmds, IoctlCall.mode]

theorem run_setDone {c : IoctlCall} (h : c.SetDone) (dev : WlanDev) :
    c.run dev = ⟨c.mode dev⟩ ∧ ∃ out, sentCmds (c.result dev).log = [(wlanCmdMacControl, 4, out)] ∧
      rd32 out 0 = (c.mode dev).toUInt32 := by
  obtain ⟨hrun, hsent⟩ := result_set c dev h.req h.lock h.len
  rw [if_pos ((macControl_ret c.d (c.mode dev)).mpr ⟨h.slot, h.send, h.wait⟩)] at hrun
  rw [hsent]
  exact ⟨hrun, macControl_sent c.d (c.mode dev) h.slot⟩

theorem run_not_setDone {c : IoctlCall} (h : ¬ c.SetDone) (dev : WlanDev) : c.run dev = dev := by
  have hchain : (afterChain (c.chain c.req c.buf c.bufLen dev) c.d).dev = dev := c.keeps dev
  by_cases hlock : 0 ≤ c.d.lock
  · by_cases hreq : c.req = wlanIoctlSetMacControl
    · by_cases hlen : 2 ≤ c.bufLen
      · -- a set that fails at the slot, at sending or at waiting
        obtain ⟨hrun, -⟩ := result_set c dev hreq hlock hlen
        rwa [if_neg] at hrun
        rw [macControl_ret]
        intro hdone
        exact h ⟨hreq, hlock, hlen, hdone.1, hdone.2.1, hdone.2.2⟩
      · unfold IoctlCall.run IoctlCall.result
        rw [kwifimonIoctl_locked _ _ _ _ _ _ hlock]
        have hlocked : ∀ r, ioctlLocked c.d c.req c.bufLen r = r := by
          intro r
          rw [hreq]
          show ioctlSetMacControl c.d c.bufLen r = r
          unfold ioctlSetMacControl
          rw [if_neg hlen]
        rw [hlocked]
        exact hchain
    · unfold IoctlCall.run IoctlCall.result
      rw [kwifimonIoctl_locked _ _ _ _ _ _ hlock]
      exact (locked_dev c.d c.req c.bufLen _ hreq).trans hchain
  · unfold IoctlCall.run IoctlCall.result
    rw [kwifimonIoctl_unlocked _ _ _ _ _ _ hlock]
    exact hchain

theorem result_get {c : IoctlCall} (h : c.GetDone) (dev : WlanDev) :
    (c.result dev).ret = 0 ∧ rd16 (c.result dev).buf 0 = dev.currentMacControl := by
  have hlocked : ∀ r, ioctlLocked c.d c.req c.bufLen r = ioctlGetMacControl c.bufLen r := by
    intro r
    rw [h.req]
    rfl
  unfold IoctlCall.result
  rw [kwifimonIoctl_locked _ _ _ _ _ _ h.lock, hlocked]
  unfold ioctlGetMacControl
  rw [if_pos h.len]
  refine ⟨rfl, ?_⟩
  dsimp only
  rw [rd16_store_le]
  exact congrArg WlanDev.currentMacControl (c.keeps dev)

theorem call_spec (dev : WlanDev) (c : IoctlCall) : CallSpec dev c where
  set h := by
    obtain ⟨hrun, hsent⟩ := run_setDone h dev
    exact ⟨congrArg WlanDev.currentMacControl hrun, hsent⟩
  get h := result_get h dev
  keep h := run_not_setDone h dev

/-! ## Runs -/

/-- One call more: it is the last one, or the last one stays the last. -/
theorem lastMode_append {dev : WlanDev} {calls : List IoctlCall} {m : UInt16}
    (h : LastMode dev calls m) {c : IoctlCall} (hc : ¬ c.SetDone) :
    LastMode dev (calls ++ [c]) m := by
  obtain ⟨pre, c₀, suf, hsplit, hdone, hnone, hm⟩ | ⟨hnone, hm⟩ := h
  · refine Or.inl ⟨pre, c₀, suf ++ [c], ?_, hdone, ?_, hm⟩
    · rw [hsplit, List.append_assoc, List.cons_append]
    · intro c' hc'
      obtain hc' | hc' := List.mem_append.mp hc'
      · exact hnone c' hc'
      · rw [List.mem_singleton.mp hc']
        exact hc
  · refine Or.inr ⟨?_, hm⟩
    intro c' hc'
    obtain hc' | hc' := List.mem_append.mp hc'
    · exact hnone c' hc'
    · rw [List.mem_singleton.mp hc']
      exact hc

theorem lastMode_run (dev : WlanDev) (calls : List IoctlCall) :
    LastMode dev calls (calls.foldl IoctlCall.run dev).currentMacControl := by
  induction calls using List.reverseRecOn with
  | nil => exact Or.inr ⟨fun c hc => absurd hc List.not_mem_nil, rfl⟩
  | append_singleton calls c ih =>
    rw [List.foldl_append, List.foldl_cons, List.foldl_nil]
    by_cases hc : c.SetDone
    · rw [(run_setDone hc _).1]
      exact Or.inl ⟨calls, c, [], rfl, hc, fun c' hc' => absurd hc' List.not_mem_nil, rfl⟩
    · rw [run_not_setDone hc]
      exact lastMode_append ih hc

/-- **The MAC control mode.** At every point of every run of calls, whatever the requests, the
    buffers and the driver's answers, the device holds the mode of the last set that was
    exchanged, and each call does what `CallSpec` says. -/
theorem macControl_cache (dev : WlanDev) (calls : List IoctlCall) :
    (∀ pre, pre <+: calls →
        LastMode dev pre (pre.foldl IoctlCall.run dev).currentMacControl) ∧
      EachStep IoctlCall.run CallSpec dev calls := by
  constructor
  · intro pre _
    exact lastMode_run dev pre
  · intro pre c _
    exact call_spec (pre.foldl IoctlCall.run dev) c

/-- A request with two bytes, behind an original handler and a driver that fail nothing. -/
def modeCall (req : UInt32) (bytes : List UInt8) : IoctlCall where
  chain := noChain
  d := willing
  req := req
  buf := ofList bytes
  bufLen := 2
  keeps := fun _ => rfl

/-- A set that is exchanged, and a get behind it. -/
theorem macControl_cache_set :
    rd16 (IoctlCall.result (modeCall wlanIoctlGetMacControl [])
      (IoctlCall.run ⟨3⟩ (modeCall wlanIoctlSetMacControl [0x13, 0]))).buf 0 = 0x13 := by
  obtain ⟨-, hsteps⟩ := macControl_cache ⟨3⟩
    [modeCall wlanIoctlSetMacControl [0x13, 0], modeCall wlanIoctlGetMacControl []]
  have hset := (hsteps [] (modeCall wlanIoctlSetMacControl [0x13, 0]) (by simp)).set
    ⟨rfl, Int.le_refl 0, Int.le_refl 2, Option.some_ne_none 0, Int.le_refl 0, Int.le_refl 0⟩
  have hget := (hsteps [_] _ (List.prefix_refl _)).get ⟨rfl, Int.le_refl 0, Int.le_refl 2⟩
  exact hget.2.trans (hset.1.trans (by decide))

end Wifimon.Kplugin
