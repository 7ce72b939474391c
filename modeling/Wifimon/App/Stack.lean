/-
  The app's patching down to the firmware: `src/app/patch.c` over `src/app/util.c` over
  `src/kplugin/kwifimon.c`.

  `stackControl` is `sceNetSyscallControl` with the hook behind it for a run of calls: the call
  number `k` meets `envs k`, whose driver acts on the firmware's memory of bytes or fails without
  effect. The app's loops are run over it as they are. What is said here holds for calls that get
  the lock, behind an original handler that leaves the buffers of `WLAN_IOCTL_MEM` requests as
  they are (`Env.locks`, `Env.keeps`): without the lock the hook returns the original handler's
  value, and nothing is stored or read.

  `patchDo_stack`: what `patch_do` returns and what it leaves in memory are given by the number of
  accesses that succeed before the first one that fails. `attempts_inOrder`: after any number of
  attempts the firmware has a beginning of the table's words and nothing else, so no byte of an
  entry is patched before the earlier entries are; a successful attempt leaves the whole table.
-/
import Wifimon.App.Undo
import Wifimon.App.WordMem

namespace Wifimon.App

open ByteLib Kplugin RunLib

/-! ## The system -/

/-- The firmware's memory, and the number of system calls so far. -/
structure Firmware where
  mem : UInt32 → UInt8
  calls : Nat

/-- The memory after the calls of the driver that a log records. -/
def Env.stored (e : Env) (m : UInt32 → UInt8) (log : List IoctlEvent) : UInt32 → UInt8 :=
  log.foldl (fun m ev =>
    match ev with
    | .memWrite addr value => if 0 ≤ e.ans then putWord m addr value else m
    | _ => m) m

def stackControl (envs : Nat → Env) : SyscallControl Firmware := fun _ req request bufLen s =>
  let e := envs s.calls
  let buf := store e.kernel 0 (load request 0 bufLen.toNat)
  let r := kwifimonIoctl e.chain (e.driver (wordAt s.mem)) req buf bufLen e.dev
  (r.ret, store request 0 (load r.buf 0 bufLen.toNat), ⟨e.stored s.mem r.log, s.calls + 1⟩)

/-- `util.h` over it. -/
abbrev stack (envs : Nat → Env) (wlanIdx : Int) (frame : Mem) : MemDev Firmware :=
  util (stackControl envs) wlanIdx frame

/-! ## One access -/

/-- The kernel's copy of a request of nine bytes. -/
theorem kernelCopy_apply (e : Env) (request : Mem) {i : Nat} (hi : i < 9) :
    store e.kernel 0 (load request 0 (9 : Int).toNat) i = request i :=
  copied_apply _ _ hi

theorem kernelCopy_rd32 (e : Env) (request : Mem) {i : Nat} (hi : i + 4 ≤ 9) :
    rd32 (store e.kernel 0 (load request 0 (9 : Int).toNat)) i = rd32 request i :=
  rd32_store_load hi

theorem stack_memRead (envs : Nat → Env) (wlanIdx : Int) (frame : Mem) (addr : UInt32)
    (s : Firmware) :
    ((stack envs wlanIdx frame).memRead addr s).1 = (envs s.calls).ans ∧
      (0 ≤ (envs s.calls).ans →
        ((stack envs wlanIdx frame).memRead addr s).2.1 = wordAt s.mem addr) ∧
      ((stack envs wlanIdx frame).memRead addr s).2.2 = ⟨s.mem, s.calls + 1⟩ := by
  obtain ⟨hret, hdata, -⟩ := memRead_hook (envs s.calls) wlanIdx frame addr (wordAt s.mem)
  refine ⟨hret, hdata, ?_⟩
  obtain ⟨hreq, -⟩ := readRequest_layout frame addr
  obtain ⟨-, -, hlog⟩ := kwifimonIoctl_memRead (d := (envs s.calls).driver (wordAt s.mem))
    (envs s.calls).locks ((envs s.calls).keeps _)
    ((kernelCopy_apply (envs s.calls) _ (by decide)).trans hreq)
  show (⟨(envs s.calls).stored s.mem (kwifimonIoctl _ _ _ _ _ _).log, s.calls + 1⟩ : Firmware) = _
  rw [hlog]
  rfl

theorem stack_memWrite (envs : Nat → Env) (wlanIdx : Int) (frame : Mem) (addr data : UInt32)
    (s : Firmware) :
    (stack envs wlanIdx frame).memWrite addr data s = ((envs s.calls).ans,
      ⟨if 0 ≤ (envs s.calls).ans then putWord s.mem addr data else s.mem, s.calls + 1⟩) := by
  obtain ⟨hret, -⟩ := memWrite_hook (envs s.calls) wlanIdx frame addr data (wordAt s.mem)
  refine Prod.ext hret ?_
  obtain ⟨hreq, haddr, hdata⟩ := writeRequest_layout frame addr data
  obtain ⟨-, hlog⟩ := kwifimonIoctl_memWrite (d := (envs s.calls).driver (wordAt s.mem))
    (envs s.calls).locks ((envs s.calls).keeps _)
    ((kernelCopy_apply (envs s.calls) _ (by decide)).trans hreq)
  show (⟨(envs s.calls).stored s.mem (kwifimonIoctl _ _ _ _ _ _).log, s.calls + 1⟩ : Firmware) = _
  rw [hlog, kernelCopy_rd32 _ _ (by decide), kernelCopy_rd32 _ _ (by decide), haddr, hdata]
  rfl

/-! ## One attempt -/

/-- How many of the `n` answers from number `k` on come before the first failure. -/
def served (ans : Nat → Int) : Nat → Nat → Nat
  | 0, _ => 0
  | n + 1, k => if 0 ≤ ans k then served ans n (k + 1) + 1 else 0

/-- The words go to memory in order. -/
def putWords (ws : List Word) (m : UInt32 → UInt8) : UInt32 → UInt8 :=
  ws.foldl (fun m w => putWord m w.addr w.data) m

/-- What `patch_do` returns for `words` words when `n` accesses succeed. -/
def attemptRet (words n : Nat) : Int :=
  if n = 2 * words then words else if n % 2 = 0 then -1 else -2

theorem served_le (ans : Nat → Int) (n k : Nat) : served ans n k ≤ n := by
  induction n generalizing k with
  | zero => exact Nat.le_refl _
  | succ n ih =>
    rw [served]
    split
    · exact Nat.succ_le_succ (ih (k + 1))
    · exact Nat.zero_le _

variable {envs : Nat → Env} {wlanIdx : Int} {frame : Mem}

/-- The loop over words: it goes on while the accesses succeed, and a word that was written is
    read back equal. -/
theorem verifyWords_stack (ws : List Word) (cnt : Nat) (s : Firmware)
    (h : cnt + ws.length < 2 ^ 31) {n : Nat}
    (hn : n = served (fun k => (envs k).ans) (2 * ws.length) s.calls) :
    verifyWords (stack envs wlanIdx frame) ws cnt s =
      (if n = 2 * ws.length then .ok ((cnt + ws.length : Nat) : Int)
        else .error (attemptRet ws.length n),
        ⟨putWords (ws.take ((n + 1) / 2)) s.mem, s.calls + min (n + 1) (2 * ws.length)⟩) := by
  induction ws generalizing cnt s n with
  | nil =>
    subst hn
    simp [verifyWords, served, putWords]
  | cons x ws ih =>
    rw [List.length_cons] at h hn ⊢
    rw [Nat.mul_succ, served, served] at hn
    rw [verifyWords, stack_memWrite]
    dsimp only
    by_cases hw : 0 ≤ (envs s.calls).ans
    · rw [if_neg (Int.not_lt.mpr hw), if_pos hw]
      obtain ⟨hret, hdata, hstate⟩ := stack_memRead envs wlanIdx frame x.addr
        ⟨putWord s.mem x.addr x.data, s.calls + 1⟩
      rw [hret, hstate]
      by_cases hr : 0 ≤ (envs (s.calls + 1)).ans
      · rw [if_pos hw, if_pos hr] at hn
        rw [if_neg (Int.not_lt.mpr hr), hdata hr, wordAt_putWord, if_neg (fun hne => hne rfl),
          incr_eq (by omega)]
        refine (ih (cnt + 1) ⟨putWord s.mem x.addr x.data, s.calls + 1 + 1⟩ (by omega) rfl).trans ?_
        generalize served (fun k => (envs k).ans) (2 * ws.length) (s.calls + 1 + 1) = n' at hn ⊢
        have hhalf : (n + 1) / 2 = (n' + 1) / 2 + 1 := by omega
        have hcalls : s.calls + 1 + 1 + min (n' + 1) (2 * ws.length) =
            s.calls + min (n + 1) (2 * (ws.length + 1)) := by omega
        rw [hhalf, List.take_succ_cons, ← hcalls]
        by_cases hfull : n' = 2 * ws.length
        · rw [if_pos hfull, if_pos (by omega), Nat.add_right_comm, Nat.add_assoc]
          rfl
        · have hret : attemptRet (ws.length + 1) n = attemptRet ws.length n' := by
            rw [attemptRet, attemptRet, if_neg hfull, if_neg (by omega), hn, Nat.add_assoc,
              Nat.add_mod_right]
          rw [if_neg hfull, if_neg (by omega), hret]
          rfl
      · rw [if_pos hw, if_neg hr] at hn
        subst hn
        have hcalls : s.calls + min (0 + 1 + 1) (2 * (ws.length + 1)) = s.calls + 1 + 1 := by omega
        rw [if_pos (Int.not_le.mp hr), if_neg (by omega), attemptRet, if_neg (by omega), hcalls]
        rfl
    · rw [if_neg hw] at hn
      subst hn
      have hcalls : s.calls + min (0 + 1) (2 * (ws.length + 1)) = s.calls + 1 := by omega
      rw [if_pos (Int.not_le.mp hw), if_neg hw, if_neg (by omega), attemptRet, if_neg (by omega),
        hcalls]
      rfl

/-- With `n` the number of accesses that succeed before the first one that fails, `patch_do`
    writes the first `(n + 1) / 2` words of the table, and returns the number of words if no access
    fails, -1 if a write fails, and -2 if a read does. -/
theorem patchDo_stack {t : List Patch} (h : TableOk t) (s : Firmware) {n : Nat}
    (hn : n = served (fun k => (envs k).ans) (2 * (tableWords t).length) s.calls) :
    patchDo (stack envs wlanIdx frame) t s = (attemptRet (tableWords t).length n,
      ⟨putWords ((tableWords t).take ((n + 1) / 2)) s.mem,
        s.calls + min (n + 1) (2 * (tableWords t).length)⟩) := by
  have hlong : 0 + (tableWords t).length < 2 ^ 31 := by
    rw [Nat.zero_add, tableWords_length]
    exact h.total
  have hrun : verifyWords (stack envs wlanIdx frame) (tableWords t) 0 s = _ :=
    verifyWords_stack (tableWords t) 0 s hlong hn
  rw [patchDo, patchTable_eq _ _ h.aligned, hrun, Nat.zero_add]
  by_cases hfull : n = 2 * (tableWords t).length
  · rw [if_pos hfull, attemptRet, if_pos hfull]
  · rw [if_neg hfull]

/-! ## Bytes of the table -/

theorem covers_of_inWord {p : Patch} {w : Word} (hw : w ∈ p.words) {x : UInt32}
    (hx : InWord w.addr x) : p.Covers x := by
  obtain ⟨j, hj, rfl⟩ := mem_words.mp hw
  have hlt := p.size.toNat_lt
  have hofs := sub_word p (n := j) (by omega) x
  have hsub := (x - p.addr).toNat_lt
  rw [InWord, hofs] at hx
  rw [Patch.Covers]
  omega

/-- The byte at `x` of a word of the entry. -/
theorem word_byte {p : Patch} {w : Word} (hw : w ∈ p.words) {x : UInt32} (hx : InWord w.addr x) :
    (le 4 w.data.toNat).getD (x - w.addr).toNat 0 = p.patch (x - p.addr).toNat := by
  obtain ⟨j, hj, rfl⟩ := mem_words.mp hw
  have hlt := p.size.toNat_lt
  have hofs := sub_word p (n := j) (by omega) x
  have hsub := (x - p.addr).toNat_lt
  rw [InWord] at hx
  have hlen : (x - (p.word j).addr).toNat < (load p.patch (4 * j) 4).length := by
    rw [load_length]
    exact hx
  show (le 4 (rd32 p.patch (4 * j)).toNat).getD _ 0 = _
  rw [le_rd32, List.getD_eq_getElem _ _ hlen, load_getElem]
  congr 1
  omega

/-- Two entries of a table in order that cover one address are the same. -/
theorem TableOk.eq_of_covers {t : List Patch} (h : TableOk t) {p q : Patch} (hp : p ∈ t)
    (hq : q ∈ t) {x : UInt32} (hpx : p.Covers x) (hqx : q.Covers x) : p = q := by
  by_contra hne
  have hsymm : Std.Symm fun p q : Patch => ∀ x, p.Covers x → ¬ q.Covers x :=
    ⟨fun _ _ hpq x hq hp => hpq x hp hq⟩
  exact h.disjoint.forall hp hq hne x hpx hqx

/-- Every entry's address is in one of its words. -/
theorem exists_inWord {p : Patch} (h : p.size.toNat % 4 = 0) {x : UInt32} (hx : p.Covers x) :
    ∃ w ∈ p.words, InWord w.addr x := by
  have hlt := p.size.toNat_lt
  have hsub := (x - p.addr).toNat_lt
  rw [Patch.Covers] at hx
  have hofs := sub_word p (n := (x - p.addr).toNat / 4) (by omega) x
  refine ⟨_, mem_words.mpr ⟨(x - p.addr).toNat / 4, by omega, rfl⟩, ?_⟩
  rw [InWord]
  omega

theorem putWords_of_not {ws : List Word} {x : UInt32} (h : ∀ w ∈ ws, ¬ InWord w.addr x)
    (m : UInt32 → UInt8) : putWords ws m x = m x := by
  induction ws generalizing m with
  | nil => rfl
  | cons w ws ih =>
    rw [List.forall_mem_cons] at h
    exact (ih h.2 _).trans (putWord_of_not h.1)

/-- Words that agree on the byte at `x` put it there. -/
theorem putWords_of_mem {ws : List Word} {x : UInt32} {b : UInt8}
    (hb : ∀ w ∈ ws, InWord w.addr x → (le 4 w.data.toNat).getD (x - w.addr).toNat 0 = b)
    (h : ∃ w ∈ ws, InWord w.addr x) (m : UInt32 → UInt8) : putWords ws m x = b := by
  induction ws generalizing m with
  | nil =>
    obtain ⟨w, hw, -⟩ := h
    cases hw
  | cons w ws ih =>
    rw [List.forall_mem_cons] at hb
    by_cases hrest : ∃ v ∈ ws, InWord v.addr x
    · exact ih hb.2 hrest _
    · obtain ⟨v, hv, hin⟩ := h
      have hhead : InWord w.addr x := by
        rcases List.mem_cons.mp hv with rfl | hv
        · exact hin
        · exact absurd ⟨v, hv, hin⟩ hrest
      have hnot : ∀ v ∈ ws, ¬ InWord v.addr x := fun v hv hin => hrest ⟨v, hv, hin⟩
      exact (putWords_of_not hnot _).trans ((putWord_of_mem hhead).trans (hb.1 hhead))

/-- Some words of the table in memory: at an address that one of them covers stands the byte of
    the entry, and the other addresses are as before. -/
theorem putWords_table {t : List Patch} (h : TableOk t) {ws : List Word}
    (hws : ∀ w ∈ ws, w ∈ tableWords t) (m : UInt32 → UInt8) (x : UInt32) :
    (∀ p ∈ t, p.Covers x → (∃ w ∈ ws, InWord w.addr x) →
        putWords ws m x = p.patch (x - p.addr).toNat) ∧
      ((¬ ∃ w ∈ ws, InWord w.addr x) → putWords ws m x = m x) := by
  refine ⟨fun p hp hpx hex => putWords_of_mem (fun w hw hin => ?_) hex m, fun hno =>
    putWords_of_not (fun w hw hin => hno ⟨w, hw, hin⟩) m⟩
  obtain ⟨q, hq, hwq⟩ := mem_tableWords.mp (hws w hw)
  rw [h.eq_of_covers hp hq hpx (covers_of_inWord hwq hin)]
  exact word_byte hwq hin

/-! ## Attempts -/

/-- The memory `m'` is `m` with the first `n` words of the table. -/
def HasPrefix (t : List Patch) (m m' : UInt32 → UInt8) (n : Nat) : Prop :=
  n ≤ (tableWords t).length ∧ m' = putWords ((tableWords t).take n) m

/-- No entry is patched, at any byte, before the earlier entries are patched at all of theirs. -/
def EntriesInOrder (t : List Patch) (m m' : UInt32 → UInt8) : Prop :=
  ∀ (i k : Nat) (hi : i < t.length) (hk : k < t.length), i < k →
    (∃ x, t[k].Covers x ∧ m' x ≠ m x) → ∀ y, t[i].Covers y → m' y = t[i].patch (y - t[i].addr).toNat

/-- More words over fewer, or fewer over more: the longer prefix stays. -/
theorem putWords_putWords {t : List Patch} (h : TableOk t) (m : UInt32 → UInt8) (n k : Nat) :
    putWords ((tableWords t).take k) (putWords ((tableWords t).take n) m) =
      putWords ((tableWords t).take (max n k)) m := by
  funext x
  have htake : ∀ i, ∀ w ∈ (tableWords t).take i, w ∈ tableWords t :=
    fun i w hw => List.mem_of_mem_take hw
  have hmono : ∀ {i j}, i ≤ j → ∀ w ∈ (tableWords t).take i, w ∈ (tableWords t).take j :=
    fun hij w hw => (List.take_prefix_take_left hij).subset hw
  by_cases hex : ∃ w ∈ (tableWords t).take (max n k), InWord w.addr x
  · obtain ⟨w, hw, hin⟩ := hex
    obtain ⟨p, hp, hwp⟩ := mem_tableWords.mp (htake _ w hw)
    have hpx := covers_of_inWord hwp hin
    rw [(putWords_table h (htake _) m x).1 p hp hpx ⟨w, hw, hin⟩]
    by_cases hk : ∃ w ∈ (tableWords t).take k, InWord w.addr x
    · exact (putWords_table h (htake k) _ x).1 p hp hpx hk
    · rw [(putWords_table h (htake k) _ x).2 hk]
      refine (putWords_table h (htake n) m x).1 p hp hpx ?_
      rcases Nat.le_total n k with hle | hle
      · rw [Nat.max_eq_right hle] at hw
        exact absurd ⟨w, hw, hin⟩ hk
      · rw [Nat.max_eq_left hle] at hw
        exact ⟨w, hw, hin⟩
  · have hnot : ∀ i, i ≤ max n k → ¬ ∃ w ∈ (tableWords t).take i, InWord w.addr x :=
      fun i hi hw => hex (hw.imp fun w hw => ⟨hmono hi w hw.1, hw.2⟩)
    rw [(putWords_table h (htake _) m x).2 hex,
      (putWords_table h (htake k) _ x).2 (hnot k (Nat.le_max_right ..)),
      (putWords_table h (htake n) m x).2 (hnot n (Nat.le_max_left ..))]

theorem entriesInOrder_of_prefix {t : List Patch} (h : TableOk t) {m m' : UInt32 → UInt8} {n : Nat}
    (hn : HasPrefix t m m' n) : EntriesInOrder t m m' := by
  obtain ⟨-, rfl⟩ := hn
  rintro i k hi hk hik ⟨x, hkx, hdiff⟩ y hiy
  have htake : ∀ w ∈ (tableWords t).take n, w ∈ tableWords t := fun w hw => List.mem_of_mem_take hw
  have hex : ∃ w ∈ (tableWords t).take n, InWord w.addr x := by
    by_contra hno
    exact hdiff ((putWords_table h htake m x).2 hno)
  obtain ⟨w, hw, hin⟩ := hex
  obtain ⟨q, hq, hwq⟩ := mem_tableWords.mp (htake w hw)
  have hkmem : t[k] ∈ t := List.getElem_mem hk
  have hcover : t[k].Covers w.addr := by
    rw [h.eq_of_covers hkmem hq hkx (covers_of_inWord hwq hin)]
    exact covers_of_mem hwq
  have himem : t[i] ∈ t := List.getElem_mem hi
  obtain ⟨v, hv, hvy⟩ := exists_inWord (h.aligned _ himem) hiy
  -- the words of entry `i` are in front of `w`
  obtain ⟨ws₁, ws₂, hsplit⟩ := List.append_of_mem hw
  have htable : tableWords t = ws₁ ++ w :: (ws₂ ++ (tableWords t).drop n) := by
    rw [← List.cons_append, ← List.append_assoc, ← hsplit, List.take_append_drop]
  have hbefore := words_before h htable hk hcover hik hv
  refine (putWords_table h htake m y).1 _ himem hiy ⟨v, ?_, hvy⟩
  rw [hsplit]
  exact List.mem_append_left _ hbefore

/-- One call of `patch_do`, with the interface index and what was on the stack. -/
def attempt (envs : Nat → Env) (t : List Patch) (s : Firmware) (a : Int × Mem) : Firmware :=
  (patchDo (stack envs a.1 a.2) t s).2

def attemptResult (envs : Nat → Env) (t : List Patch) (s : Firmware) (a : Int × Mem) : Int :=
  (patchDo (stack envs a.1 a.2) t s).1

theorem attempt_hasPrefix {t : List Patch} (h : TableOk t) {m : UInt32 → UInt8} {s : Firmware}
    {n : Nat} (hn : HasPrefix t m s.mem n) (a : Int × Mem) :
    ∃ n', n ≤ n' ∧ HasPrefix t m (attempt envs t s a).mem n' ∧
      (0 ≤ attemptResult envs t s a → n' = (tableWords t).length) := by
  obtain ⟨hle, hmem⟩ := hn
  have hserved := served_le (fun k => (envs k).ans) (2 * (tableWords t).length) s.calls
  generalize hk : served (fun k => (envs k).ans) (2 * (tableWords t).length) s.calls = k at hserved
  have hrun : patchDo (stack envs a.1 a.2) t s = _ := patchDo_stack h s hk.symm
  refine ⟨max n ((k + 1) / 2), Nat.le_max_left .., ⟨by omega, ?_⟩, fun hret => ?_⟩
  · rw [attempt, hrun]
    dsimp only
    rw [hmem, putWords_putWords h]
  · rw [attemptResult, hrun] at hret
    change 0 ≤ attemptRet (tableWords t).length k at hret
    rw [attemptRet] at hret
    split at hret
    · omega
    · split at hret <;> exact absurd hret (by decide)

/-- The prefix only grows. -/
theorem attempts_hasPrefix {t : List Patch} (h : TableOk t) {m : UInt32 → UInt8} {s : Firmware}
    {n : Nat} (hn : HasPrefix t m s.mem n) (as : List (Int × Mem)) :
    ∃ n', n ≤ n' ∧ HasPrefix t m (as.foldl (attempt envs t) s).mem n' := by
  induction as generalizing s n with
  | nil => exact ⟨n, Nat.le_refl n, hn⟩
  | cons a as ih =>
    obtain ⟨n₁, hle₁, hn₁, -⟩ := attempt_hasPrefix h hn a
    obtain ⟨n₂, hle₂, hn₂⟩ := ih hn₁
    exact ⟨n₂, Nat.le_trans hle₁ hle₂, hn₂⟩

/-- **Attempts.** For every table in order, every firmware and every pattern of accesses that the
    driver fails, along any number of calls of `patch_do` through the hook, where each system call
    gets the lock and the original handler leaves its buffer alone: each attempt returns what its
    accesses say; the firmware is always as it was but for the first words of the table, so that
    no entry is patched at a byte before the earlier entries are patched at all; and once an
    attempt was successful the firmware has all words of the table, whatever the calls behind it
    meet. -/
theorem attempts_inOrder (t : List Patch) (h : TableOk t) (envs : Nat → Env) (s : Firmware)
    (as : List (Int × Mem)) :
    EachStep (attempt envs t) (fun s' a => attemptResult envs t s' a =
        attemptRet (tableWords t).length
          (served (fun k => (envs k).ans) (2 * (tableWords t).length) s'.calls)) s as ∧
      Always (attempt envs t) (fun s' => (∃ n, HasPrefix t s.mem s'.mem n) ∧
        EntriesInOrder t s.mem s'.mem) s as ∧
      ∀ pre a post, as = pre ++ a :: post →
        0 ≤ attemptResult envs t (pre.foldl (attempt envs t) s) a →
        (as.foldl (attempt envs t) s).mem = putWords (tableWords t) s.mem := by
  have hstart : HasPrefix t s.mem s.mem 0 := ⟨Nat.zero_le _, rfl⟩
  refine ⟨fun pre a _ => ?_, fun pre _ => ?_, ?_⟩
  · show attemptResult envs t _ a = _
    rw [attemptResult, patchDo_stack h _ rfl]
  · obtain ⟨n, -, hn⟩ := attempts_hasPrefix h hstart pre
    exact ⟨⟨n, hn⟩, entriesInOrder_of_prefix h hn⟩
  · rintro pre a post rfl hret
    obtain ⟨n₁, -, hn₁⟩ := attempts_hasPrefix h hstart pre
    obtain ⟨n₂, -, hn₂, hwhole⟩ := attempt_hasPrefix h hn₁ a
    obtain ⟨n₃, hle, hlong, hmem⟩ := attempts_hasPrefix h hn₂ post
    have hn : n₃ = (tableWords t).length := by
      have := hwhole hret
      omega
    rw [List.foldl_append, List.foldl_cons, hmem, hn, List.take_length]

/-- The access number `k` fails. -/
def failsAccess (k i : Nat) : Env := answering (if i = k then -1 else 0)

theorem tableWords_patches_length : (tableWords patches).length = 14 := by
  rw [tableWords_length]
  rfl

/-- The attempt that fails with the write of the hook has made 27 system calls. -/
theorem failsAccess_calls :
    (attempt (failsAccess 26) patches ⟨unpatched, 0⟩ (1, fun _ => 0)).calls = 27 := by
  have hserved :
      served (fun i => (failsAccess 26 i).ans) (2 * (tableWords patches).length) 0 = 26 := by
    rw [tableWords_patches_length]
    decide
  rw [attempt, patchDo_stack tableOk_patches _ hserved.symm, tableWords_patches_length]
  decide

/-- The committed table, with the write of the hook failing at first. -/
theorem attempts_inOrder_patches :
    ([(1, fun _ => 0), (1, fun _ => 0)].foldl (attempt (failsAccess 26) patches)
      ⟨unpatched, 0⟩).mem = putWords (tableWords patches) unpatched := by
  refine (attempts_inOrder patches tableOk_patches (failsAccess 26) ⟨unpatched, 0⟩ _).2.2
    [(1, fun _ => 0)] (1, fun _ => 0) [] rfl ?_
  have hserved :
      served (fun i => (failsAccess 26 i).ans) (2 * (tableWords patches).length) 27 = 28 := by
    rw [tableWords_patches_length]
    decide
  have hcalls : ([(1, fun _ => 0)].foldl (attempt (failsAccess 26) patches) ⟨unpatched, 0⟩).calls =
      27 := failsAccess_calls
  rw [attemptResult, patchDo_stack tableOk_patches _ rfl, hcalls, hserved,
    tableWords_patches_length]
  decide

end Wifimon.App
