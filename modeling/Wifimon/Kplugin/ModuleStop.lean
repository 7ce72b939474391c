/-
  `src/kplugin/kwifimon.c`: `module_start`, `module_stop`, and calls that run into it.

  `module_stop` does not take `kwifimon_mutex`: it tears the module down step by step
  (`stopSteps`), and system calls of other threads may run between the steps. `Act` is one step
  of `module_stop`, or one whole system call (its work is done under the mutex). Once the mutex
  is deleted every lock fails, so a call does nothing.

  `released_installed_iff`: `module_stop` gives back exactly the hooks that `module_start`
  installed if and only if none of the installations failed; it takes every non-zero `hooks_uid`
  for a handle.

  Of `module_start` the addresses it looks up in the driver are left out: nothing here reads
  them.
-/
import Wifimon.Kplugin.Module

namespace Wifimon.Kplugin

open Pcap Knet

/-! ## State -/

def stateError : UInt32 := 0x80000001

/-- `HOOKS_NUMBER`. -/
abbrev hooksNumber : Nat := 5

/-- A call that gives an injection or a hook back. -/
inductive Release where
  | inject (uid : Int)
  | hook (uid : Int) (ref : Nat)
  deriving DecidableEq

structure ModState where
  k : KState
  uids : Fin hooksNumber → Int
  hooksUid : Fin hooksNumber → Int
  refHooks : Fin hooksNumber → Nat
  released : List Release
  mutexDeleted : Bool

/-- Answers to the calls of `module_start`: the module info, and the identifier and the
    reference of the two hooks. -/
structure StartAns where
  info : Int
  hook1 : Int × Nat
  hook2 : Int × Nat

def moduleStart (disk : String → List UInt8) (a : StartAns) : Int × ModState :=
  let s : ModState :=
    { k := .start disk
      uids := fun _ => 0
      hooksUid := fun _ => 0
      refHooks := fun _ => 0
      released := []
      mutexDeleted := false }
  -- SCE_KERNEL_START_SUCCESS either way
  if a.info < 0 then (0, { s with k := { s.k with kwifimonState := stateError } })
  else
    (0, { s with
      hooksUid := Function.update (Function.update s.hooksUid 1 a.hook1.1) 2 a.hook2.1
      refHooks := Function.update (Function.update s.refHooks 1 a.hook1.2) 2 a.hook2.2 })

/-! ## `module_stop` -/

inductive StopStep where
  | pcapClose
  | knetStop
  | resetState
  | releaseInject (i : Fin hooksNumber)
  | releaseHook (i : Fin hooksNumber)
  | deleteMutex
  deriving DecidableEq

def StopStep.run (s : ModState) : StopStep → ModState
  | .pcapClose => { s with k := { s.k with pcap := Pcap.pcapClose s.k.pcap } }
  | .knetStop => { s with k := { s.k with knet := Knet.knetStop s.k.knet } }
  | .resetState => { s with k := { s.k with kwifimonState := 0 } }
  | .releaseInject i =>
    { s with released :=
        if s.uids i ≠ 0 then s.released ++ [.inject (s.uids i)] else s.released }
  | .releaseHook i =>
    { s with released :=
        if s.hooksUid i ≠ 0 then s.released ++ [.hook (s.hooksUid i) (s.refHooks i)]
        else s.released }
  | .deleteMutex => { s with mutexDeleted := true }

/-- `i = HOOKS_NUMBER; while (i--)`. -/
def downHooks : List (Fin hooksNumber) := [4, 3, 2, 1, 0]

def stopSteps : List StopStep :=
  [.pcapClose, .knetStop, .resetState] ++ downHooks.map .releaseInject ++
    downHooks.map .releaseHook ++ [.deleteMutex]

/-- The value is `SCE_KERNEL_STOP_SUCCESS`. -/
def moduleStop (s : ModState) : Int × ModState := (0, stopSteps.foldl StopStep.run s)

/-! ## Calls between the steps -/

inductive Act where
  | call (op : RecOp)
  | stop (st : StopStep)

def Act.run (s : ModState) : Act → ModState
  | .call op => if s.mutexDeleted = true then s else { s with k := op.run s.k }
  | .stop st => st.run s

@[simp] theorem act_stop (s : ModState) (st : StopStep) : Act.run s (.stop st) = st.run s := rfl

theorem act_call {s : ModState} (h : s.mutexDeleted = false) (op : RecOp) :
    Act.run s (.call op) = { s with k := op.run s.k } :=
  if_neg (Bool.eq_false_iff.mp h)

theorem act_call_deleted {s : ModState} (h : s.mutexDeleted = true) (op : RecOp) :
    Act.run s (.call op) = s :=
  if_pos h

/-- Only the last step of `module_stop` deletes the mutex. -/
theorem act_mutex (s : ModState) (a : Act) (ha : a ≠ .stop .deleteMutex) :
    (Act.run s a).mutexDeleted = s.mutexDeleted := by
  cases a with
  | call op =>
    show (if s.mutexDeleted = true then s else { s with k := op.run s.k }).mutexDeleted = _
    split <;> rfl
  | stop st =>
    cases st with
    | deleteMutex => exact absurd rfl ha
    | _ => rfl

/-- `module_stop` with no call in between, as actions. -/
theorem moduleStop_acts (s : ModState) :
    (moduleStop s).2 = (stopSteps.map Act.stop).foldl Act.run s := by
  unfold moduleStop
  rw [List.foldl_map]
  rfl

/-! ## What is given back -/

/-- What `module_stop` gives back of the injection and of the hook in slot `i`. -/
def ModState.injectAt (s : ModState) (i : Fin hooksNumber) : Option Release :=
  if s.uids i ≠ 0 then some (.inject (s.uids i)) else none

def ModState.hookAt (s : ModState) (i : Fin hooksNumber) : Option Release :=
  if s.hooksUid i ≠ 0 then some (.hook (s.hooksUid i) (s.refHooks i)) else none

theorem run_releaseInject (s : ModState) (i : Fin hooksNumber) :
    StopStep.run s (.releaseInject i) =
      { s with released := s.released ++ (s.injectAt i).toList } := by
  unfold ModState.injectAt
  by_cases h : s.uids i ≠ 0
  · simp only [StopStep.run, if_pos h, Option.toList_some]
  · simp only [StopStep.run, if_neg h, Option.toList_none, List.append_nil]

theorem run_releaseHook (s : ModState) (i : Fin hooksNumber) :
    StopStep.run s (.releaseHook i) =
      { s with released := s.released ++ (s.hookAt i).toList } := by
  unfold ModState.hookAt
  by_cases h : s.hooksUid i ≠ 0
  · simp only [StopStep.run, if_pos h, Option.toList_some]
  · simp only [StopStep.run, if_neg h, Option.toList_none, List.append_nil]

/-- Every injection and every hook is given back once, the injections first, each from the last
    slot down. -/
theorem moduleStop_released (s : ModState) :
    (moduleStop s).2.released = s.released ++
      (downHooks.flatMap fun i => (s.injectAt i).toList) ++
      downHooks.flatMap fun i => (s.hookAt i).toList := by
  unfold moduleStop stopSteps downHooks
  simp only [List.map_cons, List.map_nil, List.cons_append, List.nil_append, List.foldl_cons,
    List.foldl_nil, run_releaseInject, run_releaseHook, List.flatMap_cons, List.flatMap_nil,
    List.append_assoc, List.append_nil]
  rfl

/-! ## Hooks -/

/-- The hooks `module_start` installed, as they are to be given back. A positive answer is a
    handle. -/
def StartAns.installed (a : StartAns) : List Release :=
  if a.info < 0 then []
  else ([a.hook1, a.hook2].filter fun h => 0 < h.1).map fun h => .hook h.1 h.2

/-- What `module_stop` gives back for an answer that `module_start` stored in `hooks_uid`. -/
def slotRelease (h : Int × Nat) : List Release :=
  if h.1 ≠ 0 then [.hook h.1 h.2] else []

def ownRelease (h : Int × Nat) : List Release :=
  if 0 < h.1 then [.hook h.1 h.2] else []

theorem slotRelease_of_nonneg {h : Int × Nat} (hok : 0 ≤ h.1) : slotRelease h = ownRelease h := by
  unfold slotRelease ownRelease
  by_cases hzero : h.1 = 0
  · rw [if_neg (not_not_intro hzero), if_neg (by omega)]
  · rw [if_pos hzero, if_pos (by omega)]

/-- A slot that holds an error gives back one thing more than was installed. -/
theorem slotRelease_length (h : Int × Nat) :
    (slotRelease h).length = (ownRelease h).length + if h.1 < 0 then 1 else 0 := by
  by_cases herr : h.1 < 0
  · unfold slotRelease ownRelease
    rw [if_pos (by omega), if_neg (by omega), if_pos herr]
    rfl
  · rw [slotRelease_of_nonneg (by omega), if_neg herr, Nat.add_zero]

theorem installed_eq {a : StartAns} (h : ¬ a.info < 0) :
    a.installed = ownRelease a.hook1 ++ ownRelease a.hook2 := by
  unfold StartAns.installed ownRelease
  rw [if_neg h, List.filter_cons, List.filter_cons, List.filter_nil]
  by_cases h1 : 0 < a.hook1.1 <;> by_cases h2 : 0 < a.hook2.1 <;> simp [h1, h2]

/-- System calls leave the hooks and injections alone. -/
theorem calls_hooks (calls : List RecOp) (s : ModState) :
    ((calls.map Act.call).foldl Act.run s).uids = s.uids ∧
      ((calls.map Act.call).foldl Act.run s).hooksUid = s.hooksUid ∧
      ((calls.map Act.call).foldl Act.run s).refHooks = s.refHooks ∧
      ((calls.map Act.call).foldl Act.run s).released = s.released := by
  induction calls generalizing s with
  | nil => exact ⟨rfl, rfl, rfl, rfl⟩
  | cons op calls ih =>
    have hop : (Act.run s (.call op)).uids = s.uids ∧
        (Act.run s (.call op)).hooksUid = s.hooksUid ∧
        (Act.run s (.call op)).refHooks = s.refHooks ∧
        (Act.run s (.call op)).released = s.released := by
      cases hdel : s.mutexDeleted with
      | true =>
        rw [act_call_deleted hdel]
        exact ⟨rfl, rfl, rfl, rfl⟩
      | false =>
        rw [act_call hdel]
        exact ⟨rfl, rfl, rfl, rfl⟩
    obtain ⟨huids, hhooks, hrefs, hrel⟩ := ih (Act.run s (.call op))
    exact ⟨huids.trans hop.1, hhooks.trans hop.2.1, hrefs.trans hop.2.2.1,
      hrel.trans hop.2.2.2⟩

/-- A module's life: `module_start`, system calls, `module_stop`. -/
def moduleLife (disk : String → List UInt8) (a : StartAns) (calls : List RecOp) : ModState :=
  (moduleStop ((calls.map Act.call).foldl Act.run (moduleStart disk a).2)).2

theorem moduleLife_released (disk : String → List UInt8) (a : StartAns) (calls : List RecOp) :
    (moduleLife disk a calls).released =
      if a.info < 0 then [] else slotRelease a.hook2 ++ slotRelease a.hook1 := by
  obtain ⟨huids, hhooks, hrefs, hrel⟩ := calls_hooks calls (moduleStart disk a).2
  unfold moduleLife
  rw [moduleStop_released, hrel]
  unfold ModState.injectAt ModState.hookAt
  rw [huids, hhooks, hrefs]
  unfold moduleStart downHooks
  by_cases hinfo : a.info < 0
  · rw [if_pos hinfo, if_pos hinfo]
    rfl
  · rw [if_neg hinfo, if_neg hinfo]
    unfold slotRelease
    by_cases h1 : a.hook1.1 = 0 <;> by_cases h2 : a.hook2.1 = 0 <;>
      simp [Function.update, h1, h2]

/-- **Hooks.** For every outcome of the steps of `module_start` and all system calls before
    `module_stop`: what is given back is the installed hooks, each once and with its own
    reference, and nothing else, if and only if no installation that was tried failed. -/
theorem released_installed_iff (disk : String → List UInt8) (a : StartAns)
    (calls : List RecOp) :
    (moduleLife disk a calls).released.Perm a.installed ↔
      a.info < 0 ∨ 0 ≤ a.hook1.1 ∧ 0 ≤ a.hook2.1 := by
  rw [moduleLife_released]
  by_cases hinfo : a.info < 0
  · unfold StartAns.installed
    rw [if_pos hinfo, if_pos hinfo]
    exact iff_of_true (List.Perm.refl []) (Or.inl hinfo)
  · rw [if_neg hinfo, installed_eq hinfo, or_iff_right hinfo]
    constructor
    · intro hperm
      have hlen := hperm.length_eq
      rw [List.length_append, List.length_append, slotRelease_length, slotRelease_length] at hlen
      by_cases h1 : a.hook1.1 < 0
      · rw [if_pos h1] at hlen
        omega
      · by_cases h2 : a.hook2.1 < 0
        · rw [if_pos h2] at hlen
          omega
        · exact ⟨by omega, by omega⟩
    · rintro ⟨h1, h2⟩
      rw [slotRelease_of_nonneg h1, slotRelease_of_nonneg h2]
      exact List.perm_append_comm

/-- The second installation fails, and its error is given back as a hook. -/
theorem failedHook_released :
    ¬ (moduleLife (fun _ => []) ⟨0, (7, 70), (-1, 0)⟩ []).released.Perm
      (StartAns.installed ⟨0, (7, 70), (-1, 0)⟩) := by
  intro h
  rw [moduleLife_released] at h
  exact absurd h.length_eq (by decide)

end Wifimon.Kplugin
