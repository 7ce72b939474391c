/-
  `kwifimon_ioctl` and the driver's resources: `wlan_lock` and the command slots.

  `Resources` is what a monitor of the hook's log knows: how often `wlan_lock` is held, which
  slots of `struct wlan_dev_t` are free, and which have been taken from `wlan_cmd_alloc` and not
  been given back. `Resources.Allows` is the discipline: a slot is written, read, sent, waited
  for and freed while it is taken, and the firmware is only talked to with the lock.

  `ioctls_balanced`: after every call of every sequence of calls the log has kept to it and the
  resources are what they were.
-/
import Mathlib.Data.Finset.Basic
import Wifimon.Kplugin.IoctlBuffer
import Wifimon.Lib.Monitor

namespace Wifimon.Kplugin

open ByteLib MonitorLib RunLib

/-! ## The monitor -/

structure Resources where
  held : Nat
  free : Finset Nat
  taken : Finset Nat
  deriving DecidableEq

def Resources.Allows (s : Resources) : IoctlEvent → Prop
  | .lock _ | .bufRead _ _ | .bufWrite _ _ => True
  | .unlock | .alloc _ none | .memRead _ | .memWrite _ _ => 0 < s.held
  | .alloc _ (some slot) => 0 < s.held ∧ slot ∈ s.free ∧ slot ∉ s.taken
  | .slotWrite slot | .slotRead slot => slot ∈ s.taken
  | .send2 slot _ _ _ | .wait slot => 0 < s.held ∧ slot ∈ s.taken
  | .free slot => 0 < s.held ∧ slot ∈ s.taken ∧ slot ∉ s.free

def Resources.after (s : Resources) : IoctlEvent → Resources
  | .lock ret => { s with held := if 0 ≤ ret then s.held + 1 else s.held }
  | .unlock => { s with held := s.held - 1 }
  | .alloc _ (some slot) => { s with free := s.free.erase slot, taken := insert slot s.taken }
  | .free slot => { s with free := insert slot s.free, taken := s.taken.erase slot }
  | _ => s

/-! ## What a log says by itself -/

def IoctlEvent.locks : IoctlEvent → Bool
  | .lock ret => decide (0 ≤ ret)
  | _ => false

def IoctlEvent.unlocks : IoctlEvent → Bool
  | .unlock => true
  | _ => false

/-- `wlan_cmd_alloc` gave `slot`. -/
def IoctlEvent.obtains (slot : Nat) : IoctlEvent → Bool
  | .alloc _ (some slot') => slot' == slot
  | _ => false

def IoctlEvent.frees (slot : Nat) : IoctlEvent → Bool
  | .free slot' => slot' == slot
  | _ => false

/-- The event works on `slot`. -/
def IoctlEvent.Uses (slot : Nat) : IoctlEvent → Prop
  | .slotWrite slot' | .slotRead slot' | .send2 slot' _ _ _ | .wait slot' | .free slot' =>
    slot' = slot
  | _ => False

/-- The event is part of a command, or an access to the firmware's memory. -/
def IoctlEvent.Issues : IoctlEvent → Prop
  | .alloc _ _ | .send2 _ _ _ _ | .wait _ | .free _ | .memRead _ | .memWrite _ _ => True
  | _ => False

theorem after_held (s : Resources) (e : IoctlEvent) (h : s.Allows e) :
    (s.after e).held + e.unlocks.toNat = s.held + e.locks.toNat := by
  cases e with
  | lock ret =>
    unfold Resources.after IoctlEvent.locks IoctlEvent.unlocks
    by_cases hret : 0 ≤ ret
    · simp [hret]
    · simp [hret]
  | unlock =>
    have hheld : 0 < s.held := h
    unfold Resources.after IoctlEvent.locks IoctlEvent.unlocks
    simp only [Bool.toNat_true, Bool.toNat_false]
    omega
  | alloc cmdLen slot => cases slot <;> rfl
  | _ => rfl

/-- Whether `slot` is taken, as a number. -/
def Resources.has (slot : Nat) (s : Resources) : Nat :=
  (decide (slot ∈ s.taken)).toNat

theorem after_has (slot : Nat) (s : Resources) (e : IoctlEvent) (h : s.Allows e) :
    (s.after e).has slot + (e.frees slot).toNat = s.has slot + (e.obtains slot).toNat := by
  cases e with
  | alloc cmdLen slot' =>
    cases slot' with
    | none => rfl
    | some slot' =>
      have hnot : slot' ∉ s.taken := h.2.2
      unfold Resources.has Resources.after IoctlEvent.frees IoctlEvent.obtains
      by_cases hs : slot' = slot
      · rw [hs] at hnot
        simp [hs, hnot]
      · simp [hs, Ne.symm hs]
  | free slot' =>
    have htaken : slot' ∈ s.taken := h.2.1
    unfold Resources.has Resources.after IoctlEvent.frees IoctlEvent.obtains
    by_cases hs : slot' = slot
    · rw [hs] at htaken
      simp [hs, htaken]
    · simp [hs, Ne.symm hs]
  | _ => rfl

/-- What the hook's log says of the driver's resources, `wlan_lock` held `held` times and the
    slots of `pool` free at the start. -/
structure Balanced (held : Nat) (pool : Finset Nat) (log : List IoctlEvent) : Prop where
  /-- The lock and the free slots are as they were, and no slot is out. -/
  back : log.foldl Resources.after ⟨held, pool, ∅⟩ = ⟨held, pool, ∅⟩
  freed : ∀ slot, log.countP (IoctlEvent.frees slot) = log.countP (IoctlEvent.obtains slot)
  /-- A slot is worked on after it was obtained and before it is freed. -/
  used : ∀ pre e slot, pre ++ [e] <+: log → e.Uses slot →
    pre.countP (IoctlEvent.obtains slot) = pre.countP (IoctlEvent.frees slot) + 1
  /-- The firmware is talked to with the lock. -/
  issued : ∀ pre e, pre ++ [e] <+: log → e.Issues →
    pre.countP IoctlEvent.unlocks < held + pre.countP IoctlEvent.locks

/-- A slot that is not given back. -/
example : ¬ Balanced 0 {0} [.lock 0, .alloc 4 (some 0), .slotWrite 0, .unlock] :=
  fun h => absurd (h.freed 0) (by decide)

theorem Resources.Allows.uses {s : Resources} {e : IoctlEvent} {slot : Nat} (h : s.Allows e)
    (hu : e.Uses slot) : s.has slot = 1 := by
  have hmem : slot ∈ s.taken := by
    cases e with
    | slotWrite slot' | slotRead slot' =>
      obtain rfl : slot' = slot := hu
      exact h
    | send2 slot' _ _ _ | wait slot' =>
      obtain rfl : slot' = slot := hu
      exact h.2
    | free slot' =>
      obtain rfl : slot' = slot := hu
      exact h.2.1
    | _ => exact hu.elim
  unfold Resources.has
  rw [decide_eq_true hmem]
  rfl

theorem Resources.Allows.issues {s : Resources} {e : IoctlEvent} (h : s.Allows e)
    (hi : e.Issues) : 0 < s.held := by
  cases e with
  | alloc cmdLen slot =>
    cases slot with
    | none => exact h
    | some slot => exact h.1
  | send2 _ _ _ _ | wait _ | free _ => exact h.1
  | memRead _ | memWrite _ _ => exact h
  | _ => exact hi.elim

theorem balanced_of_keeps {held : Nat} {pool : Finset Nat} {log : List IoctlEvent}
    (h : Keeps Resources.Allows Resources.after ⟨held, pool, ∅⟩ log) :
    Balanced held pool log where
  back := h.back
  freed := fun slot => h.count_eq (after_has slot)
  used := by
    intro pre e slot hpre hu
    have hhas := (h.allowed pre e hpre).uses hu
    have hcount := foldl_count (after_has slot)
      (eachStep_mono ((List.prefix_append pre [e]).trans hpre) h.allowed)
    rw [hhas] at hcount
    have hzero : Resources.has slot ⟨held, pool, ∅⟩ = 0 := rfl
    omega
  issued := by
    intro pre e hpre hi
    have hheld := (h.allowed pre e hpre).issues hi
    have hcount := foldl_count after_held
      (eachStep_mono ((List.prefix_append pre [e]).trans hpre) h.allowed)
    dsimp only at hcount
    omega

/-! ## One call -/

/-- The event is one of those between taking and freeing `slot`. -/
def IoctlEvent.Inside (slot : Nat) : IoctlEvent → Prop
  | .slotWrite slot' | .slotRead slot' | .send2 slot' _ _ _ | .wait slot' => slot' = slot
  | .bufRead _ _ | .bufWrite _ _ => True
  | _ => False

/-- A log kept with the lock held and no slot out. -/
def KeptLocked (pool : Finset Nat) (log : List IoctlEvent) : Prop :=
  ∀ held, Keeps Resources.Allows Resources.after ⟨held + 1, pool, ∅⟩ log

theorem KeptLocked.append {pool : Finset Nat} {log log' : List IoctlEvent}
    (h : KeptLocked pool log) (h' : KeptLocked pool log') : KeptLocked pool (log ++ log') :=
  fun held => (h held).append (h' held)

/-- An access to the user's buffer or to the firmware's memory. -/
def IoctlEvent.Slotless : IoctlEvent → Prop
  | .bufRead _ _ | .bufWrite _ _ | .memRead _ | .memWrite _ _ | .alloc _ none => True
  | _ => False

theorem keptLocked_slotless {pool : Finset Nat} {log : List IoctlEvent}
    (h : ∀ e ∈ log, e.Slotless) : KeptLocked pool log := by
  intro held
  apply keeps_of_forall
  intro e he
  have hslot := h e he
  cases e with
  | bufRead _ _ | bufWrite _ _ => exact ⟨trivial, rfl⟩
  | memRead _ | memWrite _ _ => exact ⟨Nat.succ_pos held, rfl⟩
  | alloc cmdLen slot =>
    cases slot with
    | none => exact ⟨Nat.succ_pos held, rfl⟩
    | some slot => exact hslot.elim
  | _ => exact hslot.elim

/-- A command's log is kept: the slot it takes is given back at its end. -/
theorem keptLocked_command {pool : Finset Nat} {slot : Nat} (hslot : slot ∈ pool) (cmdLen : Int)
    (log : List IoctlEvent) (hlog : ∀ e ∈ log, e.Inside slot) :
    KeptLocked pool (.alloc cmdLen (some slot) :: (log ++ [.free slot])) := by
  intro held
  have htaken : slot ∈ insert slot (∅ : Finset Nat) := Finset.mem_insert_self slot ∅
  have hinside : Keeps Resources.Allows Resources.after
      ⟨held + 1, pool.erase slot, insert slot ∅⟩ log := by
    apply keeps_of_forall
    intro e he
    have hin := hlog e he
    cases e with
    | slotWrite slot' | slotRead slot' =>
      obtain rfl : slot' = slot := hin
      exact ⟨htaken, rfl⟩
    | send2 slot' _ _ _ | wait slot' =>
      obtain rfl : slot' = slot := hin
      exact ⟨⟨Nat.succ_pos held, htaken⟩, rfl⟩
    | bufRead _ _ | bufWrite _ _ => exact ⟨trivial, rfl⟩
    | _ => exact hin.elim
  refine hinside.bracket ⟨Nat.succ_pos held, hslot, Finset.notMem_empty slot⟩ rfl
    ⟨Nat.succ_pos held, htaken, Finset.notMem_erase slot pool⟩ ?_
  unfold Resources.after
  dsimp only
  rw [Finset.insert_erase hslot]
  simp

theorem macControl_kept {pool : Finset Nat} (d : Driver)
    (hd : ∀ slot, d.alloc = some slot → slot ∈ pool) (mode : UInt16) :
    KeptLocked pool (kwifimonMacControl d mode).2 := by
  unfold kwifimonMacControl
  cases hslot : d.alloc with
  | none => exact keptLocked_slotless (by simp [IoctlEvent.Slotless])
  | some slot =>
    dsimp only
    by_cases hs : 0 ≤ d.send
    · rw [if_pos hs]
      refine keptLocked_command (hd slot hslot) 4 [_, _, _, .wait slot] ?_
      simp [IoctlEvent.Inside]
    · rw [if_neg hs]
      refine keptLocked_command (hd slot hslot) 4 [_, _, _] ?_
      simp [IoctlEvent.Inside]

theorem wlanAnycmd_kept {pool : Finset Nat} (d : Driver)
    (hd : ∀ slot, d.alloc = some slot → slot ∈ pool) (wlancmd : Int) (buf : Mem) (p : Nat)
    (outLen : UInt8) (inLen : UInt16) :
    KeptLocked pool (kwifimonWlanAnycmd d wlancmd buf p outLen inLen).2.2 := by
  unfold kwifimonWlanAnycmd
  cases hslot : d.alloc with
  | none => exact keptLocked_slotless (by simp [IoctlEvent.Slotless])
  | some slot =>
    dsimp only
    by_cases hs : 0 ≤ d.send
    · rw [if_pos hs]
      by_cases hi : inLen ≠ 0
      · rw [if_pos hi]
        refine keptLocked_command (hd slot hslot) _
          [_, _, _, _, .wait slot, .slotRead slot, .bufWrite p inLen.toNat] ?_
        simp [IoctlEvent.Inside]
      · rw [if_neg hi]
        refine keptLocked_command (hd slot hslot) _ [_, _, _, _, .wait slot] ?_
        simp [IoctlEvent.Inside]
    · rw [if_neg hs]
      refine keptLocked_command (hd slot hslot) _ [_, _, _, _] ?_
      simp [IoctlEvent.Inside]

/-- What is done with the lock held is added to the log, and kept. -/
theorem locked_kept {pool : Finset Nat} (d : Driver)
    (hd : ∀ slot, d.alloc = some slot → slot ∈ pool) (req : UInt32) (bufLen : Int)
    (r : IoctlResult) :
    ∃ log, (ioctlLocked d req bufLen r).log = r.log ++ log ∧ KeptLocked pool log := by
  have hnothing : KeptLocked pool [] := keptLocked_slotless (by simp)
  obtain ⟨-, hr⟩ | ⟨-, hr⟩ | ⟨-, hr⟩ | ⟨-, hr⟩ | ⟨-, -, -, -, hr⟩ :=
    ioctlLocked_cases d req bufLen
  · rw [hr]
    unfold ioctlGetMacControl
    split
    · exact ⟨_, rfl, keptLocked_slotless (by simp [IoctlEvent.Slotless])⟩
    · exact ⟨[], (List.append_nil _).symm, hnothing⟩
  · rw [hr]
    unfold ioctlSetMacControl
    split
    · refine ⟨_, List.append_assoc _ _ _, ?_⟩
      exact (keptLocked_slotless (by simp [IoctlEvent.Slotless])).append (macControl_kept d hd _)
    · exact ⟨[], (List.append_nil _).symm, hnothing⟩
  · rw [hr]
    unfold ioctlAnycmd
    split
    · dsimp only
      split
      · refine ⟨_, List.append_assoc _ _ _, ?_⟩
        exact (keptLocked_slotless (by simp [IoctlEvent.Slotless])).append
          (wlanAnycmd_kept d hd _ _ _ _ _)
      · exact ⟨_, rfl, keptLocked_slotless (by simp [IoctlEvent.Slotless])⟩
    · exact ⟨[], (List.append_nil _).symm, hnothing⟩
  · rw [hr]
    by_cases h9 : 9 ≤ bufLen
    · obtain ⟨_, _, _, hacc, hword⟩ := ioctlMem_word d r h9
      rw [hword]
      refine ⟨_, List.append_assoc _ _ _, ?_⟩
      obtain rfl | ⟨_, rfl⟩ | ⟨_, _, rfl⟩ := hacc <;>
        exact keptLocked_slotless (by simp [IoctlEvent.Slotless])
    · rw [ioctlMem_short d r h9]
      exact ⟨[], (List.append_nil _).symm, hnothing⟩
  · rw [hr]
    exact ⟨[], (List.append_nil _).symm, hnothing⟩

theorem kwifimonIoctl_keeps {pool : Finset Nat} (chain : Chain) (d : Driver)
    (hd : ∀ slot, d.alloc = some slot → slot ∈ pool) (req : UInt32) (buf : Mem) (bufLen : Int)
    (dev : WlanDev) (held : Nat) :
    Keeps Resources.Allows Resources.after ⟨held, pool, ∅⟩
      (kwifimonIoctl chain d req buf bufLen dev).log := by
  by_cases hl : 0 ≤ d.lock
  · rw [kwifimonIoctl_locked _ _ _ _ _ _ hl]
    obtain ⟨log, hlog, hkept⟩ :=
      locked_kept d hd req bufLen (afterChain (chain req buf bufLen dev) d)
    dsimp only
    rw [hlog]
    refine (hkept held).bracket trivial ?_ (Nat.succ_pos held) rfl
    unfold Resources.after
    dsimp only
    rw [if_pos hl]
  · rw [kwifimonIoctl_unlocked _ _ _ _ _ _ hl]
    apply keeps_of_forall
    intro e he
    obtain rfl := List.mem_singleton.mp he
    refine ⟨trivial, ?_⟩
    unfold Resources.after
    dsimp only
    rw [if_neg hl]

/-! ## A sequence of calls -/

/-- A call of `kwifimon_ioctl`, and what the driver answers in it. `wlan_cmd_alloc` hands out free
    slots: it gives one of `pool`, which are free when a call begins, or none. -/
structure PoolCall (pool : Finset Nat) where
  chain : Chain
  d : Driver
  req : UInt32
  buf : Mem
  bufLen : Int
  fromPool : ∀ slot, d.alloc = some slot → slot ∈ pool

structure IoctlRun where
  dev : WlanDev
  log : List IoctlEvent

def IoctlRun.call {pool : Finset Nat} (s : IoctlRun) (c : PoolCall pool) : IoctlRun :=
  let r := kwifimonIoctl c.chain c.d c.req c.buf c.bufLen s.dev
  ⟨r.dev, s.log ++ r.log⟩

/-- **Balanced resources.** Whatever the requests, buffers and lengths and whatever the original
    handler and the driver answer: at the return of every call `wlan_lock` is held as it was, the
    slots that are free are those that were, each slot obtained has been freed, and slots and
    firmware have only been accessed as `Balanced` says. -/
theorem ioctls_balanced (held : Nat) (pool : Finset Nat) (dev : WlanDev)
    (calls : List (PoolCall pool)) :
    Always IoctlRun.call (fun s => Balanced held pool s.log) ⟨dev, []⟩ calls := by
  have hinv : Always IoctlRun.call
      (fun s : IoctlRun => Keeps Resources.Allows Resources.after ⟨held, pool, ∅⟩ s.log)
      ⟨dev, []⟩ calls := by
    apply always_of_inv
    · intro s c hs
      exact hs.append (kwifimonIoctl_keeps c.chain c.d c.fromPool c.req c.buf c.bufLen s.dev held)
    · exact keeps_nil _
  intro pre hpre
  exact balanced_of_keeps (hinv pre hpre)

/-- A set of the MAC control mode in slot 0 of eight, whose command the card does not answer. -/
def unanswered : PoolCall (Finset.range 8) where
  chain := noChain
  d := { willing with wait := -1 }
  req := wlanIoctlSetMacControl
  buf := ofList [0x13, 0]
  bufLen := 2
  fromPool slot h := by
    obtain rfl := Option.some.inj h
    decide

/-- Slot 0 is free again when the next call wants it. -/
theorem ioctls_balanced_unanswered :
    Balanced 0 (Finset.range 8) ([unanswered, unanswered].foldl IoctlRun.call ⟨⟨0⟩, []⟩).log :=
  ioctls_balanced 0 (Finset.range 8) ⟨0⟩ [unanswered, unanswered] _ (List.prefix_refl _)

end Wifimon.Kplugin
