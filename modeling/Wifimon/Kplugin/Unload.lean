/-
  `module_stop` against system calls that run between its steps.

  `module_stop` closes the file and the socket and resets the state without taking the mutex, and
  deletes the mutex last. A call that gets the mutex in between may open a file or a socket that
  nothing closes any more, or set a flag again.

  `unload_clean_iff`: for every interleaving of the steps with any number of calls, no file and
  no socket is open and the state is 0 at the end if and only if the actions before the mutex is
  deleted are `TornDown`: each that opens a file or a socket is followed by one that closes it,
  the next one on that handle, and each that sets a flag by one that clears it.
-/
import Wifimon.Lib.Flags
import Wifimon.Kplugin.Lifecycle
import Mathlib.Data.List.TakeWhile

namespace Wifimon.Kplugin

open Pcap Knet RunLib HandleLib FlagLib

/-! ## Actions, by what they do to the shared variables -/

def fileOp : Act → Option SlotOp
  | .call op => recFileOp op
  | .stop .pcapClose => some .release
  | .stop _ => none

def netOp : Act → Option SlotOp
  | .call op => recNetOp op
  | .stop .knetStop => some .release
  | .stop _ => none

/-- What an action does to `kwifimon_state`. -/
def stateOp : Act → WordOp
  | .call (.capStart a) =>
    if 0 ≤ a.lock ∧ 0 ≤ a.pcap.fd ∧ 0 ≤ a.pcap.hdr.ret then .raise stateRecFile else .keep
  | .call (.capStop a) => if 0 ≤ a.lock then .lower stateRecFile else .keep
  | .call (.netStart a) => if 0 ≤ a.lock ∧ 0 ≤ a.socket then .raise stateRecNet else .keep
  | .call (.netStop a) => if 0 ≤ a.lock then .lower stateRecNet else .keep
  | .stop .resetState => .lower 0xffffffff
  | .stop _ => .keep

def Act.deletesMutex : Act → Bool
  | .stop .deleteMutex => true
  | _ => false

theorem eq_deleteMutex {act : Act} (h : act.deletesMutex = true) : act = .stop .deleteMutex := by
  cases act with
  | call op => cases h
  | stop st =>
    cases st with
    | deleteMutex => rfl
    | _ => cases h

theorem act_mutex_of {s : ModState} {act : Act} (hs : s.mutexDeleted = false)
    (ha : act.deletesMutex = false) : (act.run s).mutexDeleted = false := by
  rw [act_mutex s act, hs]
  intro he
  rw [he] at ha
  exact absurd ha (by decide)

theorem fileSlot_act {s : ModState} (hs : s.mutexDeleted = false) (act : Act) :
    fileSlot (act.run s).k.pcap =
      (fileOp act).elim (fileSlot s.k.pcap) ((fileSlot s.k.pcap).step filePolicy) := by
  cases act with
  | call op =>
    rw [act_call hs]
    exact fileSlot_rec s.k op
  | stop st =>
    cases st with
    | pcapClose => exact fileSlot_close s.k.pcap
    | _ => rfl

theorem netSlot_act {s : ModState} (hs : s.mutexDeleted = false) (act : Act) :
    netSlot (act.run s).k.knet =
      (netOp act).elim (netSlot s.k.knet) ((netSlot s.k.knet).step netPolicy) := by
  cases act with
  | call op => exact netSlot_call hs op
  | stop st =>
    cases st with
    | knetStop => exact netSlot_stop s.k.knet
    | _ => rfl

theorem state_rec (k : KState) (op : RecOp) :
    (op.run k).kwifimonState = (stateOp (.call op)).apply k.kwifimonState := by
  unfold stateOp
  cases op with
  | capStart a =>
    have hret := pcapOpen_ret "ux0:/data/test.cap" a.pcap k.pcap
    simp only [RecOp.run, kwifimonCapStart]
    by_cases h : 0 ≤ a.lock
    · rw [if_pos h]
      by_cases hr : (pcapOpen "ux0:/data/test.cap" a.pcap k.pcap).1 = 0
      · rw [if_pos hr, if_pos ⟨h, hret.mp hr⟩]
        rfl
      · rw [if_neg hr, if_neg fun hc => hr (hret.mpr hc.2)]
        rfl
    · rw [if_neg h, if_neg fun hc => h hc.1]
      rfl
  | capStop a =>
    simp only [RecOp.run, kwifimonCapStop]
    split <;> rfl
  | netStart a =>
    have hret := knetStart_ret kwifimonNetPort a.socket k.knet
    simp only [RecOp.run, kwifimonNetStart]
    by_cases h : 0 ≤ a.lock
    · rw [if_pos h]
      by_cases hr : (knetStart kwifimonNetPort a.socket k.knet).1 = 0
      · rw [if_pos hr, if_pos ⟨h, hret.mp hr⟩]
        rfl
      · rw [if_neg hr, if_neg fun hc => hr (hret.mpr hc.2)]
        rfl
    · rw [if_neg h, if_neg fun hc => h hc.1]
      rfl
  | netStop a =>
    simp only [RecOp.run, kwifimonNetStop]
    split <;> rfl

theorem state_act {s : ModState} (hs : s.mutexDeleted = false) (act : Act) :
    (act.run s).k.kwifimonState = (stateOp act).apply s.k.kwifimonState := by
  cases act with
  | call op =>
    rw [act_call hs]
    exact state_rec s.k op
  | stop st =>
    cases st with
    | resetState =>
      show (0 : UInt32) = s.k.kwifimonState &&& ~~~0xffffffff
      rw [show ~~~(0xffffffff : UInt32) = 0 from by decide, UInt32.and_zero]
    | _ => rfl

/-! ## The actions before the mutex is deleted -/

def beforeDelete (acts : List Act) : List Act := acts.takeWhile fun act => !act.deletesMutex

/-- Everything that the actions open, create or set is undone by a later one of them. -/
structure TornDown (acts : List Act) : Prop where
  files : AllFollowed filePolicy (acts.filterMap fileOp)
  sockets : AllFollowed netPolicy (acts.filterMap netOp)
  flags : ∀ i < 32, Lowered (acts.map fun act => (stateOp act).flagAt i)

/-- No file and no socket is open, and the state is 0. -/
structure Clean (s : ModState) : Prop where
  files : s.k.pcap.io.handles = []
  sockets : s.k.knet.sockets = []
  state : s.k.kwifimonState = 0

theorem beforeDelete_mutex {acts : List Act} {act : Act} (h : act ∈ beforeDelete acts) :
    act.deletesMutex = false := by
  have hnot := List.mem_takeWhile_imp (p := fun act : Act => !act.deletesMutex) h
  rwa [Bool.not_eq_true'] at hnot

/-- Up to the deletion, a variable that every action changes by `f` shows the run of `f`. -/
theorem beforeDelete_view {T B : Type} {step' : T → B → T} (proj : ModState → T)
    (f : Act → Option B)
    (hstep : ∀ s act, s.mutexDeleted = false →
      proj (Act.run s act) = (f act).elim (proj s) (step' (proj s)))
    {s : ModState} (hs : s.mutexDeleted = false) (acts : List Act) :
    proj ((beforeDelete acts).foldl Act.run s) =
      ((beforeDelete acts).filterMap f).foldl step' (proj s) := by
  apply foldl_proj proj f (fun s => s.mutexDeleted = false) (fun act => act.deletesMutex = false)
  · intro s act hs ha
    exact act_mutex_of hs ha
  · intro s act hs _
    exact hstep s act hs
  · intro act h
    exact beforeDelete_mutex h
  · exact hs

/-! ## Interleavings -/

/-- `module_stop` and one thread for each call. -/
def unloadThreads (ops : List RecOp) : List (List Act) :=
  stopSteps.map .stop :: ops.map fun op => [.call op]

def stopOf : Act → Option StopStep
  | .stop st => some st
  | .call _ => none

/-- The steps of `module_stop` stand in its order in every interleaving. -/
theorem filterMap_stopOf {ops : List RecOp} {acts : List Act}
    (h : Interleaving (unloadThreads ops) acts) : acts.filterMap stopOf = stopSteps := by
  have hsteps : (stopSteps.map Act.stop).filterMap stopOf = stopSteps := by
    rw [List.filterMap_map]
    exact List.filterMap_some
  rw [h.filterMap_eq ?_, hsteps]
  intro t ht
  obtain ⟨op, -, rfl⟩ := List.mem_map.mp ht
  rfl

theorem mem_stopOf {st : StopStep} {acts : List Act} :
    st ∈ acts.filterMap stopOf ↔ .stop st ∈ acts := by
  rw [List.mem_filterMap]
  constructor
  · rintro ⟨act, hact, hst⟩
    cases act with
    | call op => cases hst
    | stop st' =>
      cases hst
      exact hact
  · intro h
    exact ⟨.stop st, h, rfl⟩

/-- An interleaving is cut where the mutex is deleted: the other steps of `module_stop` come
    before that, and only calls after it. -/
theorem unload_cut {ops : List RecOp} {acts : List Act}
    (h : Interleaving (unloadThreads ops) acts) :
    ∃ suf, acts = beforeDelete acts ++ .stop .deleteMutex :: suf ∧
      (∀ act ∈ suf, ∃ op, act = .call op) ∧ .stop .resetState ∈ beforeDelete acts := by
  have hsteps := filterMap_stopOf h
  have hdel : .stop .deleteMutex ∈ acts := by
    rw [← mem_stopOf, hsteps]
    decide
  obtain ⟨act, suf, hcut, hact⟩ :=
    cut_first (p := Act.deletesMutex) ⟨.stop .deleteMutex, hdel, rfl⟩
  rw [eq_deleteMutex hact] at hcut
  change acts = beforeDelete acts ++ .stop .deleteMutex :: suf at hcut
  -- the steps before the deletion are all of `stopSteps` but the last
  rw [hcut, List.filterMap_append,
    List.filterMap_cons_some (show stopOf (.stop .deleteMutex) = some .deleteMutex from rfl)]
    at hsteps
  have hlast : stopSteps.dropLast ++ .deleteMutex :: [] = stopSteps := rfl
  obtain ⟨hbefore, -, hafter⟩ :=
    (List.append_cons_inj_of_notMem (by decide) List.not_mem_nil).mp (hlast.trans hsteps.symm)
  refine ⟨suf, hcut, ?_, ?_⟩
  · intro b hb
    cases b with
    | call op => exact ⟨op, rfl⟩
    | stop st =>
      have hmem : st ∈ suf.filterMap stopOf := mem_stopOf.mpr hb
      rw [← hafter] at hmem
      exact absurd hmem List.not_mem_nil
  · rw [← mem_stopOf, ← hbefore]
    decide

theorem calls_deleted {suf : List Act} (hsuf : ∀ act ∈ suf, ∃ op, act = .call op) {s : ModState}
    (hs : s.mutexDeleted = true) : suf.foldl Act.run s = s := by
  induction suf with
  | nil => rfl
  | cons act suf ih =>
    obtain ⟨op, rfl⟩ := hsuf act (List.mem_cons_self ..)
    rw [List.foldl_cons, act_call_deleted hs op]
    exact ih fun b hb => hsuf b (List.mem_cons_of_mem _ hb)

/-! ## The state when `module_stop` has finished -/

/-- The last state is the one before the deletion, but for the mutex. -/
theorem unload_end {ops : List RecOp} {acts : List Act}
    (h : Interleaving (unloadThreads ops) acts) (s : ModState) :
    acts.foldl Act.run s = StopStep.run ((beforeDelete acts).foldl Act.run s) .deleteMutex := by
  obtain ⟨suf, hcut, hcalls, -⟩ := unload_cut h
  calc acts.foldl Act.run s
      = (beforeDelete acts ++ .stop .deleteMutex :: suf).foldl Act.run s :=
        congrArg (·.foldl Act.run s) hcut
    _ = suf.foldl Act.run (StopStep.run ((beforeDelete acts).foldl Act.run s) .deleteMutex) := by
        rw [List.foldl_append, List.foldl_cons, act_stop]
    _ = _ := calls_deleted hcalls rfl

/-- The state reset clears every flag. -/
theorem resetState_clears {acts : List Act} (h : .stop .resetState ∈ acts) {i : Nat}
    (hi : i < 32) : .clear ∈ acts.map fun act => (stateOp act).flagAt i := by
  refine List.mem_map.mpr ⟨_, h, ?_⟩
  show (if bit 0xffffffff i = true then FlagOp.clear else .keep) = .clear
  exact if_pos (bit_ones hi)

/-- **Unloading.** For every start of the module and every interleaving of the steps of
    `module_stop` with system calls, whatever the calls are answered: at the end no file and no
    socket is open and the state is 0 if and only if what comes before the deletion of the mutex
    is torn down. -/
theorem unload_clean_iff (disk : String → List UInt8) (a : StartAns) (ops : List RecOp)
    (acts : List Act) (h : Interleaving (unloadThreads ops) acts) :
    Clean (acts.foldl Act.run (moduleStart disk a).2) ↔ TornDown (beforeDelete acts) := by
  obtain ⟨hfile, hsock, hmutex⟩ := moduleStart_slots disk a
  have hend := unload_end h (moduleStart disk a).2
  obtain ⟨-, -, -, hreset⟩ := unload_cut h
  generalize (moduleStart disk a).2 = s at hfile hsock hmutex hend ⊢
  have hview1 := beforeDelete_view (fun s => fileSlot s.k.pcap) fileOp
    (fun s act hs => fileSlot_act hs act) hmutex acts
  have hview2 := beforeDelete_view (fun s => netSlot s.k.knet) netOp
    (fun s act hs => netSlot_act hs act) hmutex acts
  have hview3 := beforeDelete_view (fun s => s.k.kwifimonState) (fun act => some (stateOp act))
    (fun s act hs => show _ = (some (stateOp act)).elim _ (WordOp.apply s.k.kwifimonState) from
      state_act hs act) hmutex acts
  rw [hend]
  generalize (beforeDelete acts).foldl Act.run s = s' at hview1 hview2 hview3 ⊢
  have hfiles : s'.k.pcap.io.handles = [] ↔
      AllFollowed filePolicy ((beforeDelete acts).filterMap fileOp) := by
    rw [← live_run_start, ← hfile, ← hview1]
    exact List.map_eq_nil_iff.symm
  have hsockets : s'.k.knet.sockets = [] ↔
      AllFollowed netPolicy ((beforeDelete acts).filterMap netOp) := by
    rw [← live_run_start, ← hsock, ← hview2]
    exact Iff.rfl
  have hstate : s'.k.kwifimonState = 0 ↔
      ∀ i < 32, Lowered ((beforeDelete acts).map fun act => (stateOp act).flagAt i) := by
    rw [hview3, List.filterMap_eq_map', foldl_zero_iff]
    refine forall_congr' fun i => forall_congr' fun hi => ?_
    rw [List.map_map]
    exact and_iff_right fun _ => resetState_clears hreset hi
  constructor
  · intro hc
    exact ⟨hfiles.mp hc.files, hsockets.mp hc.sockets, hstate.mp hc.state⟩
  · intro ht
    exact ⟨hfiles.mpr ht.files, hsockets.mpr ht.sockets, hstate.mpr ht.flags⟩

/-- A capture that is running when the module is unloaded. -/
theorem unload_clean_iff_recording :
    TornDown (beforeDelete (.call (.capStart ⟨0, ⟨3, ⟨24, 24⟩⟩, 0⟩) :: stopSteps.map .stop)) := by
  have hrest : Interleaving [stopSteps.map Act.stop, []] (stopSteps.map .stop) :=
    .alone _ (by simp)
  have hint : Interleaving (unloadThreads [.capStart ⟨0, ⟨3, ⟨24, 24⟩⟩, 0⟩])
      (.call (.capStart ⟨0, ⟨3, ⟨24, 24⟩⟩, 0⟩) :: stopSteps.map .stop) := hrest.second
  exact (unload_clean_iff (fun _ => []) plainStart _ _ hint).mp ⟨rfl, rfl, rfl⟩

/-- A capture that starts after `module_stop` closed the file. -/
def lateCapture : List Act :=
  .stop .pcapClose :: .call (.capStart ⟨0, ⟨3, ⟨24, 24⟩⟩, 0⟩) :: (stopSteps.drop 1).map .stop

/-- Its file stays open. -/
theorem lateCapture_unclean :
    Interleaving (unloadThreads [.capStart ⟨0, ⟨3, ⟨24, 24⟩⟩, 0⟩]) lateCapture ∧
      ¬ Clean (lateCapture.foldl Act.run (moduleStart (fun _ => []) plainStart).2) := by
  have hrest : Interleaving [(stopSteps.drop 1).map Act.stop, []]
      ((stopSteps.drop 1).map .stop) := .alone _ (by simp)
  refine ⟨hrest.second.first, fun h => ?_⟩
  have hlen := congrArg List.length h.files
  exact absurd hlen (by decide)

end Wifimon.Kplugin
