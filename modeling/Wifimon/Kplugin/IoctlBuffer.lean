/-
  `kwifimon_ioctl` and the user's buffer.

  * `ioctl_confined`: the hook reads and writes the buffer below `buf_len` only. Reads: what it
    does is the same for any two buffers that agree there. A request that is none of the
    plugin's, or whose buffer is too short for it (`Served`), is answered as the original handler
    answered it.
  * `ioctl_failed_iff`: a call that returns an error leaves the buffer as the original handler
    did if and only if it is not a `WLAN_IOCTL_ANYCMD` whose command was sent and whose wait
    failed, or the command's `in_data` is what the buffer holds (`NoStaleAnswer`).
-/
import Wifimon.Kplugin.Ioctl

namespace Wifimon.Kplugin

open ByteLib

/-! ## Accesses -/

def Within (bufLen : Int) : IoctlEvent → Prop
  | .bufRead ofs len => (ofs : Int) + len ≤ bufLen
  | .bufWrite ofs len => (ofs : Int) + len ≤ bufLen
  | _ => True

/-- All accesses so far are in range, and no byte past the end has changed. -/
structure Confined (bufLen : Int) (before : Mem) (r : IoctlResult) : Prop where
  log : ∀ e ∈ r.log, Within bufLen e
  outside : ∀ i : Nat, bufLen ≤ i → r.buf i = before i

/-- Two results that differ at most in the bytes past the end of the buffer. -/
structure SameBelow (bufLen : Int) (r r' : IoctlResult) : Prop where
  ret : r.ret = r'.ret
  dev : r.dev = r'.dev
  log : r.log = r'.log
  buf : ∀ i : Nat, (i : Int) < bufLen → r.buf i = r'.buf i

theorem within_append {bufLen : Int} {l l' : List IoctlEvent} (h : ∀ e ∈ l, Within bufLen e)
    (h' : ∀ e ∈ l', Within bufLen e) : ∀ e ∈ l ++ l', Within bufLen e := by
  intro e he
  exact (List.mem_append.mp he).elim (h e) (h' e)

/-- A store below the end changes nothing past it. -/
theorem store_outside {bufLen : Int} {m before : Mem} (h : ∀ i : Nat, bufLen ≤ i → m i = before i)
    {ofs : Nat} {bs : List UInt8} (hlen : (ofs : Int) + bs.length ≤ bufLen) :
    ∀ i : Nat, bufLen ≤ i → store m ofs bs i = before i := by
  intro i hi
  rw [store_apply_of_not (Or.inr (by omega))]
  exact h i hi

theorem store_same {bufLen : Int} {m m' : Mem} (h : ∀ i : Nat, (i : Int) < bufLen → m i = m' i)
    (ofs : Nat) (bs : List UInt8) :
    ∀ i : Nat, (i : Int) < bufLen → store m ofs bs i = store m' ofs bs i := by
  intro i hi
  unfold store
  split
  · rfl
  · exact h i hi

theorem load_same {bufLen : Int} {m m' : Mem} (h : ∀ i : Nat, (i : Int) < bufLen → m i = m' i)
    {ofs n : Nat} (hlen : (ofs : Int) + n ≤ bufLen) : load m ofs n = load m' ofs n :=
  load_congr fun i hi => h (ofs + i) (by omega)

theorem rd16_same {bufLen : Int} {m m' : Mem} (h : ∀ i : Nat, (i : Int) < bufLen → m i = m' i)
    (ofs : Nat) (hlen : (ofs : Int) + 2 ≤ bufLen) : rd16 m ofs = rd16 m' ofs := by
  unfold rd16 rd
  rw [load_same h hlen]

theorem rd32_same {bufLen : Int} {m m' : Mem} (h : ∀ i : Nat, (i : Int) < bufLen → m i = m' i)
    (ofs : Nat) (hlen : (ofs : Int) + 4 ≤ bufLen) : rd32 m ofs = rd32 m' ofs := by
  unfold rd32 rd
  rw [load_same h hlen]

/-! ## The requests -/

theorem macControl_within (bufLen : Int) (d : Driver) (mode : UInt16) :
    ∀ e ∈ (kwifimonMacControl d mode).2, Within bufLen e := by
  unfold kwifimonMacControl
  cases d.alloc with
  | none => simp [Within]
  | some slot =>
    dsimp only
    split <;> simp [Within]

theorem getMacControl_confined {bufLen : Int} {before : Mem} {r : IoctlResult}
    (h : Confined bufLen before r) : Confined bufLen before (ioctlGetMacControl bufLen r) := by
  unfold ioctlGetMacControl
  by_cases h2 : 2 ≤ bufLen
  · rw [if_pos h2]
    refine ⟨within_append h.log ?_, store_outside h.outside ?_⟩
    · intro e he
      rw [List.mem_singleton.mp he]
      exact h2
    · rw [le_length]
      exact h2
  · rw [if_neg h2]
    exact h

theorem setMacControl_confined {bufLen : Int} {before : Mem} {r : IoctlResult} (d : Driver)
    (h : Confined bufLen before r) : Confined bufLen before (ioctlSetMacControl d bufLen r) := by
  unfold ioctlSetMacControl
  by_cases h2 : 2 ≤ bufLen
  · rw [if_pos h2]
    refine ⟨within_append (within_append h.log ?_) (macControl_within bufLen d _), h.outside⟩
    intro e he
    rw [List.mem_singleton.mp he]
    exact h2
  · rw [if_neg h2]
    exact h

/-- Both copies of `kwifimon_wlan_anycmd` start at offset `p`. -/
theorem wlanAnycmd_confined {bufLen : Int} {before : Mem} (d : Driver) (wlancmd : Int) {buf : Mem}
    (p : Nat) (outLen : UInt8) (inLen : UInt16) (hout : (p : Int) + outLen.toNat ≤ bufLen)
    (hin : (p : Int) + inLen.toNat ≤ bufLen)
    (hbuf : ∀ i : Nat, bufLen ≤ i → buf i = before i) :
    (∀ e ∈ (kwifimonWlanAnycmd d wlancmd buf p outLen inLen).2.2, Within bufLen e) ∧
      ∀ i : Nat, bufLen ≤ i →
        (kwifimonWlanAnycmd d wlancmd buf p outLen inLen).2.1 i = before i := by
  unfold kwifimonWlanAnycmd
  cases d.alloc with
  | none => exact ⟨by simp [Within], hbuf⟩
  | some slot =>
    dsimp only
    by_cases hs : 0 ≤ d.send
    · rw [if_pos hs]
      by_cases hi : inLen ≠ 0
      · rw [if_pos hi]
        refine ⟨by simp [Within, hout, hin], store_outside hbuf ?_⟩
        rw [load_length]
        exact hin
      · rw [if_neg hi]
        exact ⟨by simp [Within, hout], hbuf⟩
    · rw [if_neg hs]
      exact ⟨by simp [Within, hout], hbuf⟩

theorem anycmd_confined {bufLen : Int} {before : Mem} {r : IoctlResult} (d : Driver)
    (h : Confined bufLen before r) : Confined bufLen before (ioctlAnycmd d bufLen r) := by
  unfold ioctlAnycmd
  by_cases h6 : 6 ≤ bufLen
  · rw [if_pos h6]
    dsimp only
    have hhead : ∀ e ∈ r.log ++ [.bufRead 0 2, .bufRead 2 2, .bufRead 4 2], Within bufLen e := by
      refine within_append h.log ?_
      simp only [List.forall_mem_cons, Within]
      exact ⟨by omega, by omega, by omega, by simp⟩
    by_cases hmax : (max (rd16 r.buf 2).toNat (rd16 r.buf 4).toNat : Int) + 6 ≤ bufLen
    · rw [if_pos hmax]
      have hout : (rd16 r.buf 2).toUInt8.toNat ≤ (rd16 r.buf 2).toNat := by
        rw [UInt16.toNat_toUInt8]
        exact Nat.mod_le _ _
      obtain ⟨hlog, hbuf⟩ := wlanAnycmd_confined d (rd16 r.buf 0).toNat 6 (rd16 r.buf 2).toUInt8
        (rd16 r.buf 4) (by omega) (by omega) h.outside
      exact ⟨within_append hhead hlog, hbuf⟩
    · rw [if_neg hmax]
      exact ⟨hhead, h.outside⟩
  · rw [if_neg h6]
    exact h

theorem mem_confined {bufLen : Int} {before : Mem} {r : IoctlResult} (d : Driver)
    (h : Confined bufLen before r) : Confined bufLen before (ioctlMem d bufLen r) := by
  by_cases h9 : 9 ≤ bufLen
  · obtain ⟨ret, value, acc, hacc, hr⟩ := ioctlMem_word d r h9
    rw [hr]
    refine ⟨within_append (within_append h.log ?_) (within_append ?_ ?_),
      store_outside h.outside ?_⟩
    · simp only [List.forall_mem_cons, Within]
      exact ⟨by omega, by omega, by omega, by simp⟩
    · obtain rfl | ⟨_, rfl⟩ | ⟨_, _, rfl⟩ := hacc
      · exact nofun
      · simp [Within]
      · simp [Within]
    · intro e he
      rw [List.mem_singleton.mp he]
      exact h9
    · rw [le_length]
      exact h9
  · rw [ioctlMem_short d r h9]
    exact h

theorem locked_confined {bufLen : Int} {before : Mem} {r : IoctlResult} (d : Driver) (req : UInt32)
    (h : Confined bufLen before r) : Confined bufLen before (ioctlLocked d req bufLen r) := by
  obtain ⟨-, hr⟩ | ⟨-, hr⟩ | ⟨-, hr⟩ | ⟨-, hr⟩ | ⟨-, -, -, -, hr⟩ :=
    ioctlLocked_cases d req bufLen
  · rw [hr]
    exact getMacControl_confined h
  · rw [hr]
    exact setMacControl_confined d h
  · rw [hr]
    exact anycmd_confined d h
  · rw [hr]
    exact mem_confined d h
  · rw [hr]
    exact h

/-! ## Reads -/

theorem getMacControl_same {bufLen : Int} {r r' : IoctlResult} (h : SameBelow bufLen r r') :
    SameBelow bufLen (ioctlGetMacControl bufLen r) (ioctlGetMacControl bufLen r') := by
  unfold ioctlGetMacControl
  rw [h.dev, h.log]
  split
  · exact ⟨rfl, rfl, rfl, store_same h.buf _ _⟩
  · exact h

theorem setMacControl_same {bufLen : Int} {r r' : IoctlResult} (d : Driver)
    (h : SameBelow bufLen r r') :
    SameBelow bufLen (ioctlSetMacControl d bufLen r) (ioctlSetMacControl d bufLen r') := by
  unfold ioctlSetMacControl
  by_cases h2 : 2 ≤ bufLen
  · rw [if_pos h2, if_pos h2, rd16_same h.buf 0 (by omega), h.dev, h.log]
    exact ⟨rfl, rfl, rfl, h.buf⟩
  · rw [if_neg h2, if_neg h2]
    exact h

theorem wlanAnycmd_same {bufLen : Int} {m m' : Mem}
    (h : ∀ i : Nat, (i : Int) < bufLen → m i = m' i) (d : Driver) (wlancmd : Int) (p : Nat)
    (outLen : UInt8) (inLen : UInt16) (hout : (p : Int) + outLen.toNat ≤ bufLen) :
    (kwifimonWlanAnycmd d wlancmd m p outLen inLen).1 =
        (kwifimonWlanAnycmd d wlancmd m' p outLen inLen).1 ∧
      (kwifimonWlanAnycmd d wlancmd m p outLen inLen).2.2 =
        (kwifimonWlanAnycmd d wlancmd m' p outLen inLen).2.2 ∧
      ∀ i : Nat, (i : Int) < bufLen →
        (kwifimonWlanAnycmd d wlancmd m p outLen inLen).2.1 i =
          (kwifimonWlanAnycmd d wlancmd m' p outLen inLen).2.1 i := by
  unfold kwifimonWlanAnycmd
  cases d.alloc with
  | none => exact ⟨rfl, rfl, h⟩
  | some slot =>
    dsimp only
    rw [load_same h hout]
    split
    · split
      · exact ⟨rfl, rfl, store_same h _ _⟩
      · exact ⟨rfl, rfl, h⟩
    · exact ⟨rfl, rfl, h⟩

theorem anycmd_same {bufLen : Int} {r r' : IoctlResult} (d : Driver) (h : SameBelow bufLen r r') :
    SameBelow bufLen (ioctlAnycmd d bufLen r) (ioctlAnycmd d bufLen r') := by
  unfold ioctlAnycmd
  by_cases h6 : 6 ≤ bufLen
  · rw [if_pos h6, if_pos h6]
    dsimp only
    rw [rd16_same h.buf 0 (by omega), rd16_same h.buf 2 (by omega), rd16_same h.buf 4 (by omega),
      h.log]
    by_cases hmax : (max (rd16 r'.buf 2).toNat (rd16 r'.buf 4).toNat : Int) + 6 ≤ bufLen
    · rw [if_pos hmax, if_pos hmax]
      have hout : (rd16 r'.buf 2).toUInt8.toNat ≤ (rd16 r'.buf 2).toNat := by
        rw [UInt16.toNat_toUInt8]
        exact Nat.mod_le _ _
      obtain ⟨hret, hlog, hbuf⟩ := wlanAnycmd_same h.buf d (rd16 r'.buf 0).toNat 6
        (rd16 r'.buf 2).toUInt8 (rd16 r'.buf 4) (by omega)
      refine ⟨hret, h.dev, ?_, hbuf⟩
      exact congrArg (r'.log ++ [.bufRead 0 2, .bufRead 2 2, .bufRead 4 2] ++ ·) hlog
    · rw [if_neg hmax, if_neg hmax]
      exact ⟨h.ret, h.dev, rfl, h.buf⟩
  · rw [if_neg h6, if_neg h6]
    exact h

theorem mem_same {bufLen : Int} {r r' : IoctlResult} (d : Driver) (h : SameBelow bufLen r r') :
    SameBelow bufLen (ioctlMem d bufLen r) (ioctlMem d bufLen r') := by
  unfold ioctlMem
  by_cases h9 : 9 ≤ bufLen
  · rw [if_pos h9, if_pos h9]
    dsimp only
    rw [rd32_same h.buf 1 (by omega), rd32_same h.buf 5 (by omega), h.buf 0 (by omega), h.log]
    split
    · exact ⟨rfl, h.dev, rfl, store_same h.buf _ _⟩
    · split
      · exact ⟨rfl, h.dev, rfl, store_same h.buf _ _⟩
      · exact ⟨h.ret, h.dev, rfl, store_same h.buf _ _⟩
  · rw [if_neg h9, if_neg h9]
    exact h

theorem locked_same {bufLen : Int} {r r' : IoctlResult} (d : Driver) (req : UInt32)
    (h : SameBelow bufLen r r') :
    SameBelow bufLen (ioctlLocked d req bufLen r) (ioctlLocked d req bufLen r') := by
  obtain ⟨-, hr⟩ | ⟨-, hr⟩ | ⟨-, hr⟩ | ⟨-, hr⟩ | ⟨-, -, -, -, hr⟩ :=
    ioctlLocked_cases d req bufLen
  · rw [hr, hr]
    exact getMacControl_same h
  · rw [hr, hr]
    exact setMacControl_same d h
  · rw [hr, hr]
    exact anycmd_same d h
  · rw [hr, hr]
    exact mem_same d h
  · rw [hr, hr]
    exact h

/-! ## Requests that are not served -/

/-- The request is one of the plugin's, and the buffer is as long as it needs. -/
def Served (req : UInt32) (before : Mem) (bufLen : Int) : Prop :=
  req = wlanIoctlGetMacControl ∧ 2 ≤ bufLen ∨
    req = wlanIoctlSetMacControl ∧ 2 ≤ bufLen ∨
    req = wlanIoctlAnycmd ∧ 6 ≤ bufLen ∧
      (max (rd16 before 2).toNat (rd16 before 4).toNat : Int) + 6 ≤ bufLen ∨
    req = wlanIoctlMem ∧ 9 ≤ bufLen

/-- Taking and releasing `wlan_lock`, and looking at the buffer. -/
def IoctlEvent.LooksOnly : IoctlEvent → Prop
  | .lock _ | .unlock | .bufRead _ _ => True
  | _ => False

/-- The result is the original handler's. -/
structure Transparent (c : Int × Mem × WlanDev) (r : IoctlResult) : Prop where
  ret : r.ret = c.1
  buf : r.buf = c.2.1
  dev : r.dev = c.2.2
  log : ∀ e ∈ r.log, e.LooksOnly

theorem locked_transparent {c : Int × Mem × WlanDev} {r : IoctlResult} (h : Transparent c r)
    (d : Driver) (req : UInt32) (bufLen : Int) (hs : ¬ Served req r.buf bufLen) :
    Transparent c (ioctlLocked d req bufLen r) := by
  unfold Served at hs
  obtain ⟨hreq, hr⟩ | ⟨hreq, hr⟩ | ⟨hreq, hr⟩ | ⟨hreq, hr⟩ | ⟨-, -, -, -, hr⟩ :=
    ioctlLocked_cases d req bufLen
  · rw [hr]
    unfold ioctlGetMacControl
    rw [if_neg fun h2 => hs (Or.inl ⟨hreq, h2⟩)]
    exact h
  · rw [hr]
    unfold ioctlSetMacControl
    rw [if_neg fun h2 => hs (Or.inr (Or.inl ⟨hreq, h2⟩))]
    exact h
  · rw [hr]
    unfold ioctlAnycmd
    by_cases h6 : 6 ≤ bufLen
    · -- the three lengths are read, and nothing else is done
      rw [if_pos h6]
      dsimp only
      rw [if_neg fun hmax => hs (Or.inr (Or.inr (Or.inl ⟨hreq, h6, hmax⟩)))]
      refine ⟨h.ret, h.buf, h.dev, ?_⟩
      intro e he
      obtain he | he := List.mem_append.mp he
      · exact h.log e he
      · simp only [List.mem_cons, List.not_mem_nil, or_false] at he
        obtain rfl | rfl | rfl := he <;> exact trivial
    · rw [if_neg h6]
      exact h
  · rw [hr, ioctlMem_short d r fun h9 => hs (Or.inr (Or.inr (Or.inr ⟨hreq, h9⟩)))]
    exact h
  · rw [hr]
    exact h

/-! ## The hook -/

/-- What the original handler leaves, before the hook's own work. -/
def afterChain (c : Int × Mem × WlanDev) (d : Driver) : IoctlResult :=
  ⟨c.1, c.2.1, c.2.2, [.lock d.lock]⟩

theorem kwifimonIoctl_locked (chain : Chain) (d : Driver) (req : UInt32) (buf : Mem)
    (bufLen : Int) (dev : WlanDev) (hl : 0 ≤ d.lock) :
    kwifimonIoctl chain d req buf bufLen dev =
      { ioctlLocked d req bufLen (afterChain (chain req buf bufLen dev) d) with
        log := (ioctlLocked d req bufLen (afterChain (chain req buf bufLen dev) d)).log ++
          [.unlock] } := by
  unfold kwifimonIoctl
  rw [if_pos hl]
  rfl

theorem kwifimonIoctl_unlocked (chain : Chain) (d : Driver) (req : UInt32) (buf : Mem)
    (bufLen : Int) (dev : WlanDev) (hl : ¬ 0 ≤ d.lock) :
    kwifimonIoctl chain d req buf bufLen dev = afterChain (chain req buf bufLen dev) d := by
  unfold kwifimonIoctl
  rw [if_neg hl]
  rfl

theorem kwifimonIoctl_confined (chain : Chain) (d : Driver) (req : UInt32) (buf : Mem)
    (bufLen : Int) (dev : WlanDev) :
    Confined bufLen (chain req buf bufLen dev).2.1 (kwifimonIoctl chain d req buf bufLen dev) := by
  have hstart : Confined bufLen (chain req buf bufLen dev).2.1
      (afterChain (chain req buf bufLen dev) d) :=
    ⟨by simp [afterChain, Within], fun _ _ => rfl⟩
  by_cases hl : 0 ≤ d.lock
  · rw [kwifimonIoctl_locked _ _ _ _ _ _ hl]
    have h := locked_confined d req hstart
    exact ⟨within_append h.log (by simp [Within]), h.outside⟩
  · rw [kwifimonIoctl_unlocked _ _ _ _ _ _ hl]
    exact hstart

theorem kwifimonIoctl_same (chain chain' : Chain) (d : Driver) (req : UInt32) (buf buf' : Mem)
    (bufLen : Int) (dev dev' : WlanDev)
    (h : SameBelow bufLen (afterChain (chain req buf bufLen dev) d)
      (afterChain (chain' req buf' bufLen dev') d)) :
    SameBelow bufLen (kwifimonIoctl chain d req buf bufLen dev)
      (kwifimonIoctl chain' d req buf' bufLen dev') := by
  by_cases hl : 0 ≤ d.lock
  · rw [kwifimonIoctl_locked _ _ _ _ _ _ hl, kwifimonIoctl_locked _ _ _ _ _ _ hl]
    have h' := locked_same d req h
    exact ⟨h'.ret, h'.dev, congrArg (· ++ [.unlock]) h'.log, h'.buf⟩
  · rw [kwifimonIoctl_unlocked _ _ _ _ _ _ hl, kwifimonIoctl_unlocked _ _ _ _ _ _ hl]
    exact h

theorem kwifimonIoctl_transparent (chain : Chain) (d : Driver) (req : UInt32) (buf : Mem)
    (bufLen : Int) (dev : WlanDev) (hs : ¬ Served req (chain req buf bufLen dev).2.1 bufLen) :
    Transparent (chain req buf bufLen dev) (kwifimonIoctl chain d req buf bufLen dev) := by
  have hstart : Transparent (chain req buf bufLen dev)
      (afterChain (chain req buf bufLen dev) d) :=
    ⟨rfl, rfl, rfl, by simp [afterChain, IoctlEvent.LooksOnly]⟩
  by_cases hl : 0 ≤ d.lock
  · rw [kwifimonIoctl_locked _ _ _ _ _ _ hl]
    have h := locked_transparent hstart d req bufLen hs
    refine ⟨h.ret, h.buf, h.dev, ?_⟩
    intro e he
    obtain he | he := List.mem_append.mp he
    · exact h.log e he
    · rw [List.mem_singleton.mp he]
      exact trivial
  · rw [kwifimonIoctl_unlocked _ _ _ _ _ _ hl]
    exact hstart

/-- **The buffer's bounds.** For every original handler, driver, request, buffer and length, also
    negative: the hook's accesses are below `buf_len` and no byte past it changes; what it does
    depends only on what the original handler returned and left in the device and below
    `buf_len`; and a request that it does not serve is left as the original handler left it. -/
theorem ioctl_confined (chain : Chain) (d : Driver) (req : UInt32) (buf : Mem) (bufLen : Int)
    (dev : WlanDev) :
    Confined bufLen (chain req buf bufLen dev).2.1 (kwifimonIoctl chain d req buf bufLen dev) ∧
      (∀ (chain' : Chain) (buf' : Mem) (dev' : WlanDev),
        SameBelow bufLen (afterChain (chain req buf bufLen dev) d)
            (afterChain (chain' req buf' bufLen dev') d) →
          SameBelow bufLen (kwifimonIoctl chain d req buf bufLen dev)
            (kwifimonIoctl chain' d req buf' bufLen dev')) ∧
      (¬ Served req (chain req buf bufLen dev).2.1 bufLen →
        Transparent (chain req buf bufLen dev) (kwifimonIoctl chain d req buf bufLen dev)) := by
  refine ⟨?_, ?_, ?_⟩
  · exact kwifimonIoctl_confined chain d req buf bufLen dev
  · intro chain' buf' dev' h
    exact kwifimonIoctl_same chain chain' d req buf buf' bufLen dev dev' h
  · intro hs
    exact kwifimonIoctl_transparent chain d req buf bufLen dev hs

/-! ## Failed calls -/

/-- Copying back what a word was read from changes nothing. -/
theorem store_load_self (m : Mem) (off n : Nat) : store m off (load m off n) = m := by
  funext i
  by_cases h : off ≤ i ∧ i < off + n
  · obtain ⟨k, rfl⟩ := Nat.exists_eq_add_of_le h.1
    have hk : k < (load m off n).length := by
      rw [load_length]
      omega
    rw [store_apply_of_mem hk, load_getElem]
  · exact store_apply_of_not (by rw [load_length]; omega)

theorem store_eq_self_iff (m : Mem) (off : Nat) (bs : List UInt8) :
    store m off bs = m ↔ bs = load m off bs.length := by
  constructor
  · intro h
    have hself := load_store_self m off bs
    rw [h] at hself
    exact hself.symm
  · intro h
    rw [h]
    exact store_load_self m off _

/-- The command of a `WLAN_IOCTL_ANYCMD` was sent and its wait failed. -/
structure WaitFailed (d : Driver) (req : UInt32) (before : Mem) (bufLen : Int) : Prop where
  req : req = wlanIoctlAnycmd
  lock : 0 ≤ d.lock
  len : (max (rd16 before 2).toNat (rd16 before 4).toNat : Int) + 6 ≤ bufLen
  slot : d.alloc ≠ none
  send : 0 ≤ d.send
  wait : d.wait < 0

/-- No answer that did not come is copied: where the wait fails, the command's `in_data` is what
    the buffer holds (for one, if `in_len` is 0). -/
def NoStaleAnswer (d : Driver) (req : UInt32) (before : Mem) (bufLen : Int) : Prop :=
  WaitFailed d req before bufLen →
    load d.inData 0 (rd16 before 4).toNat = load before 6 (rd16 before 4).toNat

theorem wlanAnycmd_failed_iff (d : Driver) (wlancmd : Int) (buf : Mem) (p : Nat) (outLen : UInt8)
    (inLen : UInt16) :
    ((kwifimonWlanAnycmd d wlancmd buf p outLen inLen).1 < 0 →
        (kwifimonWlanAnycmd d wlancmd buf p outLen inLen).2.1 = buf) ↔
      (d.alloc ≠ none → 0 ≤ d.send → d.wait < 0 →
        load d.inData 0 inLen.toNat = load buf p inLen.toNat) := by
  cases hslot : d.alloc with
  | none =>
    have hbuf : (kwifimonWlanAnycmd d wlancmd buf p outLen inLen).2.1 = buf := by
      unfold kwifimonWlanAnycmd
      rw [hslot]
    exact iff_of_true (fun _ => hbuf) (fun h => absurd rfl h)
  | some slot =>
    by_cases hs : 0 ≤ d.send
    · have hret : (kwifimonWlanAnycmd d wlancmd buf p outLen inLen).1 = d.wait := by
        unfold kwifimonWlanAnycmd
        rw [hslot]
        dsimp only
        rw [if_pos hs]
        split <;> rfl
      rw [hret, anycmd_buf d wlancmd buf p outLen inLen hslot hs, store_eq_self_iff, load_length]
      exact ⟨fun h _ _ => h, fun h => h (Option.some_ne_none slot) hs⟩
    · have hbuf : (kwifimonWlanAnycmd d wlancmd buf p outLen inLen).2.1 = buf := by
        unfold kwifimonWlanAnycmd
        rw [hslot]
        dsimp only
        rw [if_neg hs]
      exact iff_of_true (fun _ => hbuf) (fun _ h => absurd h hs)

theorem mem_failed (d : Driver) (hmem : ∀ addr value, (d.memRead addr value).1 < 0 →
    (d.memRead addr value).2 = value) (bufLen : Int) (r : IoctlResult)
    (hret : (ioctlMem d bufLen r).ret < 0) : (ioctlMem d bufLen r).buf = r.buf := by
  have hback : store r.buf 5 (le 4 (rd32 r.buf 5).toNat) = r.buf := by
    rw [le_rd32]
    exact store_load_self r.buf 5 4
  unfold ioctlMem at hret ⊢
  by_cases h9 : 9 ≤ bufLen
  · rw [if_pos h9] at hret ⊢
    dsimp only at hret ⊢
    by_cases h0 : r.buf 0 = 0
    · rw [if_pos h0] at hret ⊢
      dsimp only at hret ⊢
      rw [hmem _ _ hret]
      exact hback
    · rw [if_neg h0]
      split <;> exact hback
  · rw [if_neg h9]

theorem anycmd_failed_iff (d : Driver) (bufLen : Int) (r : IoctlResult) :
    ((ioctlAnycmd d bufLen r).ret < 0 → (ioctlAnycmd d bufLen r).buf = r.buf) ↔
      ((max (rd16 r.buf 2).toNat (rd16 r.buf 4).toNat : Int) + 6 ≤ bufLen →
        d.alloc ≠ none → 0 ≤ d.send → d.wait < 0 →
          load d.inData 0 (rd16 r.buf 4).toNat = load r.buf 6 (rd16 r.buf 4).toNat) := by
  unfold ioctlAnycmd
  by_cases hmax : (max (rd16 r.buf 2).toNat (rd16 r.buf 4).toNat : Int) + 6 ≤ bufLen
  · have h6 : 6 ≤ bufLen := by omega
    rw [if_pos h6]
    dsimp only
    rw [if_pos hmax]
    have h := wlanAnycmd_failed_iff d (rd16 r.buf 0).toNat r.buf 6 (rd16 r.buf 2).toUInt8
      (rd16 r.buf 4)
    exact h.trans ⟨fun h _ => h, fun h => h hmax⟩
  · have hbuf : ∀ r' : IoctlResult, r'.buf = r.buf → (r'.ret < 0 → r'.buf = r.buf) :=
      fun _ h _ => h
    refine iff_of_true (hbuf _ ?_) (fun h => absurd h hmax)
    split
    · dsimp only
      rw [if_neg hmax]
    · rfl

theorem locked_failed_iff (d : Driver) (hmem : ∀ addr value, (d.memRead addr value).1 < 0 →
    (d.memRead addr value).2 = value) (req : UInt32) (bufLen : Int) (r : IoctlResult)
    (hl : 0 ≤ d.lock) :
    ((ioctlLocked d req bufLen r).ret < 0 → (ioctlLocked d req bufLen r).buf = r.buf) ↔
      NoStaleAnswer d req r.buf bufLen := by
  have hother : req ≠ wlanIoctlAnycmd → NoStaleAnswer d req r.buf bufLen :=
    fun hne hw => absurd hw.req hne
  obtain ⟨hreq, hr⟩ | ⟨hreq, hr⟩ | ⟨hreq, hr⟩ | ⟨hreq, hr⟩ | ⟨-, -, hreq, -, hr⟩ :=
    ioctlLocked_cases d req bufLen
  · rw [hr]
    refine iff_of_true ?_ (hother (by rw [hreq]; decide))
    unfold ioctlGetMacControl
    split
    · intro hret
      exact absurd hret (Int.lt_irrefl 0)
    · exact fun _ => rfl
  · rw [hr]
    refine iff_of_true ?_ (hother (by rw [hreq]; decide))
    unfold ioctlSetMacControl
    split <;> exact fun _ => rfl
  · rw [hr, anycmd_failed_iff]
    constructor
    · intro h hw
      exact h hw.len hw.slot hw.send hw.wait
    · intro h hlen hslot hsend hwait
      exact h ⟨hreq, hl, hlen, hslot, hsend, hwait⟩
  · rw [hr]
    exact iff_of_true (mem_failed d hmem bufLen r) (hother (by rw [hreq]; decide))
  · rw [hr]
    exact iff_of_true (fun _ => rfl) (hother hreq)

/-- **A failed call.** For every original handler, request, buffer and length, and every driver
    whose failed `wlan_mem_read` stores nothing: a call that returns an error leaves the buffer
    as the original handler left it if and only if no answer is copied that did not come. -/
theorem ioctl_failed_iff (chain : Chain) (d : Driver)
    (hmem : ∀ addr value, (d.memRead addr value).1 < 0 → (d.memRead addr value).2 = value)
    (req : UInt32) (buf : Mem) (bufLen : Int) (dev : WlanDev) :
    ((kwifimonIoctl chain d req buf bufLen dev).ret < 0 →
        (kwifimonIoctl chain d req buf bufLen dev).buf = (chain req buf bufLen dev).2.1) ↔
      NoStaleAnswer d req (chain req buf bufLen dev).2.1 bufLen := by
  by_cases hl : 0 ≤ d.lock
  · rw [kwifimonIoctl_locked _ _ _ _ _ _ hl]
    exact locked_failed_iff d hmem req bufLen (afterChain (chain req buf bufLen dev) d) hl
  · rw [kwifimonIoctl_unlocked _ _ _ _ _ _ hl]
    exact iff_of_true (fun _ => rfl) (fun hw => absurd hw.lock hl)

/-- A driver whose `wlan_cmd_wait` fails. -/
def waitFails : Driver := { willing with wait := -1 }

/-- A command without an answer. -/
theorem ioctl_failed_iff_noAnswer :
    NoStaleAnswer waitFails wlanIoctlAnycmd (ofList [0xaa, 0, 1, 0, 0, 0, 7]) 7 :=
  (ioctl_failed_iff noChain waitFails (fun _ _ _ => rfl) wlanIoctlAnycmd
    (ofList [0xaa, 0, 1, 0, 0, 0, 7]) 7 ⟨0⟩).mp fun _ => by
      funext i
      rfl

/-- Two bytes of an answer that did not come reach the caller. -/
theorem staleAnswer_copied :
    ¬ ((kwifimonIoctl noChain waitFails wlanIoctlAnycmd (ofList [0xaa, 0, 0, 0, 2, 0]) 8 ⟨0⟩).ret < 0 →
      (kwifimonIoctl noChain waitFails wlanIoctlAnycmd (ofList [0xaa, 0, 0, 0, 2, 0]) 8 ⟨0⟩).buf =
        (noChain wlanIoctlAnycmd (ofList [0xaa, 0, 0, 0, 2, 0]) 8 ⟨0⟩).2.1) := by
  intro h
  have hbyte := congrFun (h (by decide)) 6
  exact absurd hbyte (by decide)

end Wifimon.Kplugin
