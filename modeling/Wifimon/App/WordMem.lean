/-
  The app's memory access down to the firmware: `src/app/util.c` over `src/kplugin/kwifimon.c`.

  `hookControl` is `sceNetSyscallControl` with the hook behind it: the request is copied into a
  buffer of the kernel, `kwifimon_ioctl` runs on it, and the buffer is copied back. The driver's
  `wlan_mem_read` and `wlan_mem_write` act on a memory of 32-bit words (`WordMem`) or fail
  without effect. What else a call meets is its `Env`.

  `wordMem_refines`: every run of `mem_read` and `mem_write` calls is a run of the word memory.
  After any prefix each word is the last one that was written to its address with success, or
  the initial one (`lastWritten`), and each call does what `MemSpec` says.
-/
import Wifimon.App.Util
import Wifimon.Kplugin.IoctlBuffer
import Wifimon.Lib.Runs
import Mathlib.Data.List.Induction
import Mathlib.Logic.Function.Basic

namespace Wifimon.App

open ByteLib Kplugin RunLib

/-! ## The system -/

abbrev WordMem := UInt32 → UInt32

/-- What one system call meets: the original handler, which leaves `WLAN_IOCTL_MEM` requests as
    they are, a driver that gives the lock, what the kernel's buffer held before, the device,
    and the value that `wlan_mem_read` or `wlan_mem_write` returns. -/
structure Env where
  chain : Chain
  d : Driver
  kernel : Mem
  dev : WlanDev
  ans : Int
  keeps : ∀ buf, (chain wlanIoctlMem buf 9 dev).2.1 = buf
  locks : 0 ≤ d.lock

/-- The driver over the word memory `m`: an access that fails stores nothing. -/
def Env.driver (e : Env) (m : WordMem) : Driver :=
  { e.d with
    memRead := fun addr value => (e.ans, if 0 ≤ e.ans then m addr else value)
    memWrite := fun _ _ => e.ans }

/-- The memory after the calls of the driver that a log records. -/
def Env.after (e : Env) (m : WordMem) (log : List IoctlEvent) : WordMem :=
  log.foldl (fun m ev =>
    match ev with
    | .memWrite addr value => if 0 ≤ e.ans then Function.update m addr value else m
    | _ => m) m

def hookControl (e : Env) : SyscallControl WordMem := fun _ req request bufLen m =>
  let buf := store e.kernel 0 (load request 0 bufLen.toNat)
  let r := kwifimonIoctl e.chain (e.driver m) req buf bufLen e.dev
  (r.ret, store request 0 (load r.buf 0 bufLen.toNat), e.after m r.log)

/-! ## The hook on a memory request -/

section MemRequest

variable {chain : Chain} {d : Driver} {buf : Mem} {dev : WlanDev} (hlock : 0 ≤ d.lock)
  (hkeeps : (chain wlanIoctlMem buf 9 dev).2.1 = buf)

include hlock hkeeps

/-- With the lock, and a buffer that the original handler leaves alone. -/
theorem kwifimonIoctl_mem : ∃ ret dev', kwifimonIoctl chain d wlanIoctlMem buf 9 dev =
    { ioctlMem d 9 ⟨ret, buf, dev', [.lock d.lock]⟩ with
      log := (ioctlMem d 9 ⟨ret, buf, dev', [.lock d.lock]⟩).log ++ [.unlock] } := by
  refine ⟨(chain wlanIoctlMem buf 9 dev).1, (chain wlanIoctlMem buf 9 dev).2.2, ?_⟩
  have hlocked : ∀ r, ioctlLocked d wlanIoctlMem 9 r = ioctlMem d 9 r := fun _ => rfl
  rw [kwifimonIoctl_locked _ _ _ _ _ _ hlock, hlocked]
  unfold afterChain
  rw [hkeeps]

theorem kwifimonIoctl_memRead (h0 : buf 0 = 0) :
    (kwifimonIoctl chain d wlanIoctlMem buf 9 dev).ret =
        (d.memRead (rd32 buf 1) (rd32 buf 5)).1 ∧
      (kwifimonIoctl chain d wlanIoctlMem buf 9 dev).buf =
        store buf 5 (le 4 (d.memRead (rd32 buf 1) (rd32 buf 5)).2.toNat) ∧
      (kwifimonIoctl chain d wlanIoctlMem buf 9 dev).log =
        [.lock d.lock, .bufRead 1 4, .bufRead 5 4, .bufRead 0 1, .memRead (rd32 buf 1),
          .bufWrite 5 4, .unlock] := by
  obtain ⟨ret, dev', h⟩ := kwifimonIoctl_mem hlock hkeeps
  rw [h]
  unfold ioctlMem
  rw [if_pos (by decide : (9 : Int) ≤ 9)]
  dsimp only
  rw [if_pos h0]
  exact ⟨rfl, rfl, rfl⟩

theorem kwifimonIoctl_memWrite (h1 : buf 0 = 1) :
    (kwifimonIoctl chain d wlanIoctlMem buf 9 dev).ret =
        d.memWrite (rd32 buf 1) (rd32 buf 5) ∧
      (kwifimonIoctl chain d wlanIoctlMem buf 9 dev).log =
        [.lock d.lock, .bufRead 1 4, .bufRead 5 4, .bufRead 0 1,
          .memWrite (rd32 buf 1) (rd32 buf 5), .bufWrite 5 4, .unlock] := by
  obtain ⟨ret, dev', h⟩ := kwifimonIoctl_mem hlock hkeeps
  rw [h]
  unfold ioctlMem
  rw [if_pos (by decide : (9 : Int) ≤ 9)]
  dsimp only
  rw [if_neg (by rw [h1]; decide), if_pos h1]
  exact ⟨rfl, rfl⟩

end MemRequest

/-! ## One call of the app -/

/-- The bytes of the request as the kernel's copy has them. -/
theorem copied_apply (m e : Mem) {i n : Nat} (hi : i < n) : store m 0 (load e 0 n) i = e i := by
  have hlen : i < (load e 0 n).length := by
    rw [load_length]
    exact hi
  have h : store m 0 (load e 0 n) (0 + i) = (load e 0 n)[i] := store_apply_of_mem hlen
  rwa [load_getElem, Nat.zero_add] at h

theorem memRead_hook (e : Env) (wlanIdx : Int) (stack : Mem) (addr : UInt32) (m : WordMem) :
    (memRead (hookControl e) wlanIdx stack addr m).1 = e.ans ∧
      (0 ≤ e.ans → (memRead (hookControl e) wlanIdx stack addr m).2.1 = m addr) ∧
      (memRead (hookControl e) wlanIdx stack addr m).2.2 = m := by
  unfold memRead hookControl
  dsimp only
  set request := store (store stack 0 [0]) 1 (le 4 addr.toNat) with hrequest
  set kbuf := store e.kernel 0 (load request 0 (9 : Int).toNat) with hkbuf
  obtain ⟨hreq, hreqAddr⟩ := readRequest_layout stack addr
  have h0 : kbuf 0 = 0 := by
    rw [hkbuf, copied_apply _ _ (by decide), hrequest, hreq]
  have haddr : rd32 kbuf 1 = addr := by
    rw [hkbuf, rd32_store_load (by decide), hrequest, hreqAddr]
  obtain ⟨hret, hbuf, hlog⟩ :=
    kwifimonIoctl_memRead (d := e.driver m) e.locks (e.keeps kbuf) h0
  refine ⟨hret, ?_, ?_⟩
  · intro hans
    rw [rd32_store_load (by decide), hbuf, rd32_store_le, haddr]
    exact if_pos hans
  · rw [hlog]
    rfl

theorem memWrite_hook (e : Env) (wlanIdx : Int) (stack : Mem) (addr data : UInt32) (m : WordMem) :
    (memWrite (hookControl e) wlanIdx stack addr data m).1 = e.ans ∧
      (memWrite (hookControl e) wlanIdx stack addr data m).2 =
        if 0 ≤ e.ans then Function.update m addr data else m := by
  unfold memWrite hookControl
  dsimp only
  set request := store (store (store stack 0 [1]) 1 (le 4 addr.toNat)) 5 (le 4 data.toNat)
    with hrequest
  set kbuf := store e.kernel 0 (load request 0 (9 : Int).toNat) with hkbuf
  obtain ⟨hreq, hreqAddr, hreqData⟩ := writeRequest_layout stack addr data
  have h1 : kbuf 0 = 1 := by
    rw [hkbuf, copied_apply _ _ (by decide), hrequest, hreq]
  have haddr : rd32 kbuf 1 = addr := by
    rw [hkbuf, rd32_store_load (by decide), hrequest, hreqAddr]
  have hdata : rd32 kbuf 5 = data := by
    rw [hkbuf, rd32_store_load (by decide), hrequest, hreqData]
  obtain ⟨hret, hlog⟩ := kwifimonIoctl_memWrite (d := e.driver m) e.locks (e.keeps kbuf) h1
  refine ⟨hret, ?_⟩
  rw [hlog, haddr, hdata]
  rfl

/-! ## Runs -/

inductive MemCall where
  | read (addr : UInt32)
  | write (addr data : UInt32)

/-- A call of the app, with what it meets and what was on its stack. -/
structure AppCall where
  call : MemCall
  env : Env
  wlanIdx : Int
  stack : Mem

/-- The value returned, the word delivered (by a read), and the memory afterwards. -/
structure MemResult where
  ret : Int
  data : Option UInt32
  mem : WordMem

def AppCall.result (c : AppCall) (m : WordMem) : MemResult :=
  match c.call with
  | .read addr =>
    let r := memRead (hookControl c.env) c.wlanIdx c.stack addr m
    ⟨r.1, some r.2.1, r.2.2⟩
  | .write addr data =>
    let r := memWrite (hookControl c.env) c.wlanIdx c.stack addr data m
    ⟨r.1, none, r.2⟩

/-- The device's memory, and the calls so far with the values they returned. -/
structure AppRun where
  mem : WordMem
  history : List (MemCall × Int)

def AppRun.step (s : AppRun) (c : AppCall) : AppRun where
  mem := (c.result s.mem).mem
  history := s.history ++ [(c.call, (c.result s.mem).ret)]

/-- What a finished call wrote to `addr`: its data, if it is a write there that succeeded. -/
def wrote (addr : UInt32) : MemCall × Int → Option UInt32
  | (.write a data, ret) => if a = addr ∧ 0 ≤ ret then some data else none
  | (.read _, _) => none

/-- The last value that was written to `addr` with success, or the initial one. -/
def lastWritten (init : WordMem) (history : List (MemCall × Int)) (addr : UInt32) : UInt32 :=
  (history.filterMap (wrote addr)).getLastD (init addr)

/-- What a call does, given the calls before it: it returns the driver's answer; a successful
    write updates its word, a successful read delivers the word last written there, and nothing
    else changes anything. -/
def MemSpec (init : WordMem) (s : AppRun) (c : AppCall) : Prop :=
  (c.result s.mem).ret = c.env.ans ∧
    match c.call with
    | .read addr =>
      (0 ≤ (c.result s.mem).ret →
          (c.result s.mem).data = some (lastWritten init s.history addr)) ∧
        (c.result s.mem).mem = s.mem
    | .write addr data =>
      (0 ≤ (c.result s.mem).ret → (c.result s.mem).mem = Function.update s.mem addr data) ∧
        ((c.result s.mem).ret < 0 → (c.result s.mem).mem = s.mem)

/-- The memory is what the history says. -/
def Recorded (init : WordMem) (s : AppRun) : Prop :=
  ∀ addr, s.mem addr = lastWritten init s.history addr

theorem lastWritten_append (init : WordMem) (history : List (MemCall × Int)) (x : MemCall × Int)
    (addr : UInt32) : lastWritten init (history ++ [x]) addr =
      (wrote addr x).getD (lastWritten init history addr) := by
  unfold lastWritten
  rw [List.filterMap_append]
  cases hx : wrote addr x with
  | none => rw [List.filterMap_cons_none hx, List.filterMap_nil, List.append_nil, Option.getD_none]
  | some data =>
    rw [List.filterMap_cons_some hx, List.filterMap_nil, List.getLastD_concat, Option.getD_some]

/-- The memory after a call, word by word. -/
theorem result_mem (c : AppCall) (m : WordMem) (addr : UInt32) :
    (c.result m).mem addr = (wrote addr (c.call, (c.result m).ret)).getD (m addr) := by
  unfold AppCall.result
  cases c.call with
  | read a =>
    obtain ⟨-, -, hmem⟩ := memRead_hook c.env c.wlanIdx c.stack a m
    dsimp only
    rw [hmem]
    rfl
  | write a data =>
    obtain ⟨hret, hmem⟩ := memWrite_hook c.env c.wlanIdx c.stack a data m
    dsimp only
    rw [hret, hmem]
    unfold wrote
    dsimp only
    by_cases hans : 0 ≤ c.env.ans
    · rw [if_pos hans]
      by_cases ha : a = addr
      · rw [if_pos ⟨ha, hans⟩, ha, Function.update_self, Option.getD_some]
      · rw [if_neg fun h => ha h.1, Function.update_of_ne (Ne.symm ha), Option.getD_none]
    · rw [if_neg hans, if_neg fun h => hans h.2, Option.getD_none]

theorem recorded_step {init : WordMem} {s : AppRun} (h : Recorded init s) (c : AppCall) :
    Recorded init (s.step c) := by
  intro addr
  show (c.result s.mem).mem addr =
    lastWritten init (s.history ++ [(c.call, (c.result s.mem).ret)]) addr
  rw [lastWritten_append, result_mem, h addr]

theorem call_memSpec {init : WordMem} {s : AppRun} (h : Recorded init s) (c : AppCall) :
    MemSpec init s c := by
  unfold MemSpec AppCall.result
  cases c.call with
  | read addr =>
    obtain ⟨hret, hdata, hmem⟩ := memRead_hook c.env c.wlanIdx c.stack addr s.mem
    dsimp only
    rw [hret, ← h addr]
    exact ⟨rfl, fun hans => congrArg some (hdata hans), hmem⟩
  | write addr data =>
    obtain ⟨hret, hmem⟩ := memWrite_hook c.env c.wlanIdx c.stack addr data s.mem
    dsimp only
    rw [hret, hmem]
    exact ⟨rfl, fun hans => if_pos hans, fun hans => if_neg (Int.not_le.mpr hans)⟩

/-- **The word memory.** For every initial memory and every run of `mem_read` and `mem_write`
    calls, at any addresses, with any data and any failures: every word is always the one last
    written to it with success, or the initial one, and every call does what `MemSpec` says. -/
theorem wordMem_refines (init : WordMem) (calls : List AppCall) :
    Always AppRun.step (Recorded init) ⟨init, []⟩ calls ∧
      EachStep AppRun.step (MemSpec init) ⟨init, []⟩ calls := by
  have hall : Always AppRun.step (Recorded init) ⟨init, []⟩ calls :=
    always_of_inv (fun _ c h => recorded_step h c) (fun _ => rfl) calls
  refine ⟨hall, ?_⟩
  intro pre c hpre
  have hpre' : pre <+: calls := (List.prefix_append pre [c]).trans hpre
  exact call_memSpec (hall pre hpre') c

/-- A system call that the driver answers with `ans`. -/
def answering (ans : Int) : Env where
  chain := noChain
  d := willing
  kernel := fun _ => 0
  dev := ⟨0⟩
  ans := ans
  keeps := fun _ => rfl
  locks := Int.le_refl 0

/-- A word is written, a second write to it fails, and a read asks for it. -/
def rewriteCalls : List AppCall :=
  [⟨.write 0x100 5, answering 0, 1, fun _ => 0⟩, ⟨.write 0x100 7, answering (-1), 1, fun _ => 0⟩,
    ⟨.read 0x100, answering 0, 1, fun _ => 0⟩]

/-- The read delivers the first of the two. -/
theorem wordMem_refines_rewrite :
    (AppCall.result ⟨.read 0x100, answering 0, 1, fun _ => 0⟩
      ((rewriteCalls.take 2).foldl AppRun.step ⟨fun _ => 0, []⟩).mem).data = some 5 := by
  obtain ⟨hret, hdata, -⟩ := (wordMem_refines (fun _ => 0) rewriteCalls).2 (rewriteCalls.take 2)
    ⟨.read 0x100, answering 0, 1, fun _ => 0⟩ (List.prefix_refl _)
  rw [hdata (by rw [hret]; decide)]
  rfl

end Wifimon.App
