/-
  `kwifimon_mutex`: the calls of `src/kplugin/kwifimon.c`, step by step.

  The other modules take a call for one action. Here a call that got the mutex is a list of steps
  (`SysCall.steps`): the kernel's calls, and the loads and the stores of the variables of the
  module; `kwifimon_state |= x` and `kwifimon_stats.pkt_cnt++` are a load and a store, and the
  statistics are copied and cleared word by word. Any number of threads with any calls go on in
  any order. Behind its last step the thread that has the mutex gives it back: the owner's
  `ksceKernelUnlockMutex` frees the mutex, and its value is only the result of the call.

  `calls_atomic`: whenever the mutex is free the state of the module and what the callers hold
  are those of the calls run one after the other, in the order in which they got the mutex, and
  `kwifimon_mod_state`, which takes no mutex, reads a state between two of them.
-/
import Wifimon.Lib.Mutex
import Wifimon.Kplugin.Results
import Wifimon.Kplugin.Stats

namespace Wifimon.Kplugin

open Pcap Knet MutexLib

/-! ## Steps -/

/-- What a thread has for itself: the result of `pcap_open` or `knet_start`, the word that was
    loaded, and the structure that it gives to `kwifimon_mod_stats`. -/
structure Caller where
  ret : Int
  word : UInt32
  user : WifimonStats

abbrev KStep := Step KState Caller

def onPcap (f : PcapState → PcapState) : KStep := fun x => ({ x.1 with pcap := f x.1.pcap }, x.2)

def onKnet (f : KnetState → KnetState) : KStep := fun x => ({ x.1 with knet := f x.1.knet }, x.2)

def setRet (f : KState → Int) : KStep := fun x => (x.1, { x.2 with ret := f x.1 })

def loadState : KStep := fun x => (x.1, { x.2 with word := x.1.kwifimonState })

def storeState (f : UInt32 → UInt32) : KStep :=
  fun x => ({ x.1 with kwifimonState := f x.2.word }, x.2)

/-- The step is made if `ret` is 0. -/
def ifOk (f : KStep) : KStep := fun x => if x.2.ret = 0 then f x else x

/-! ### The file -/

/-- The two steps of `pcap_close`, under a condition on `pcap_fd`. -/
def closeFile (p : PcapState) : PcapState :=
  if 0 ≤ p.pcapFd then { p with io := ioClose p.pcapFd p.io } else p

def dropFd (p : PcapState) : PcapState := if 0 ≤ p.pcapFd then { p with pcapFd := -1 } else p

def closeSteps (b : PcapState → Bool) : List KStep :=
  [onPcap fun p => if b p then closeFile p else p, onPcap fun p => if b p then dropFd p else p]

/-- `pcap_open("ux0:/data/test.cap")`. -/
def openSteps (a : OpenAns) : List KStep :=
  closeSteps (fun p => decide (0 < p.pcapFd)) ++
    [onPcap fun p => { p with io := ioOpen "ux0:/data/test.cap" a.fd p.io },
      onPcap fun p => { p with pcapFd := a.fd },
      onPcap fun p =>
        if p.pcapFd < 0 then p else { p with io := ioWrite p.pcapFd pcapHdrBytes a.hdr p.io }] ++
    closeSteps (fun _ => decide (a.hdr.ret < 0)) ++
    [setRet fun _ => if a.fd < 0 ∨ a.hdr.ret < 0 then -1 else 0]

/-! ### The socket -/

/-- `knet_start(KWIFIMON_NET_PORT)`. -/
def socketSteps (fd : Int) : List KStep :=
  [onKnet (netSocket fd), onKnet fun n => { n with knetFd := fd },
    onKnet fun n => if n.knetFd < 0 then n else { n with tgtPort := htons kwifimonNetPort },
    setRet fun s => if s.knet.knetFd < 0 then -1 else 0]

/-! ### The statistics -/

def Counter.set (x : Counter) (n : UInt32) (st : WifimonStats) : WifimonStats :=
  match x with
  | .pkt => { st with pktCnt := n }
  | .mgmt => { st with mgmtCnt := n }
  | .amsdu => { st with amsduCnt := n }
  | .bar => { st with barCnt := n }
  | .evt => { st with evtCnt := n }

/-- `struct wifimon_stats_t`, word by word. -/
def statWords : List Counter := [.pkt, .mgmt, .amsdu, .bar, .evt]

def copyWord (x : Counter) : KStep :=
  fun y => (y.1, { y.2 with user := x.set (x.get y.1.kwifimonStats) y.2.user })

def clearWord (x : Counter) : KStep :=
  fun y => ({ y.1 with kwifimonStats := x.set 0 y.1.kwifimonStats }, y.2)

def loadCounter (x : Counter) : KStep :=
  fun y => (y.1, { y.2 with word := x.get y.1.kwifimonStats })

def storeCounter (x : Counter) : KStep :=
  fun y => ({ y.1 with kwifimonStats := x.set (y.2.word + 1) y.1.kwifimonStats }, y.2)

/-! ## Calls -/

/-- What the call is answered for the mutex. -/
def SysCall.lock : SysCall → Int
  | .recorder (.capStart a) => a.lock
  | .recorder (.capStop a) => a.lock
  | .recorder (.netStart a) => a.lock
  | .recorder (.netStop a) => a.lock
  | .modStats _ a => a.lock
  | .packet _ _ a => a.lock

/-- What the call does with the mutex. -/
def SysCall.steps : SysCall → List KStep
  | .recorder (.capStart a) =>
    openSteps a.pcap ++ [ifOk loadState, ifOk (storeState (· ||| stateRecFile))]
  | .recorder (.capStop _) =>
    closeSteps (fun _ => true) ++ [loadState, storeState (· &&& ~~~stateRecFile)]
  | .recorder (.netStart a) =>
    socketSteps a.socket ++ [ifOk loadState, ifOk (storeState (· ||| stateRecNet))]
  | .recorder (.netStop _) =>
    [onKnet fun n => netClose n.knetFd n, onKnet fun n => { n with knetFd := -1 }] ++
      [loadState, storeState (· &&& ~~~stateRecNet)]
  | .modStats reset a =>
    (if 0 ≤ a.copy then statWords.map copyWord else []) ++
      if reset ≠ 0 then statWords.map clearWord else []
  | .packet _ args _ =>
    match counterOf args.inPkt with
    | some x => [loadCounter x, storeCounter x]
    | none => []

/-- The hook takes the mutex for the packets that it counts only. -/
def SysCall.takesMutex : SysCall → Bool
  | .packet _ args _ => (counterOf args.inPkt).isSome
  | _ => true

/-- The call takes the mutex, and gets it. -/
def SysCall.Enters (c : SysCall) : Prop := c.takesMutex = true ∧ 0 ≤ c.lock

instance (c : SysCall) : Decidable c.Enters := inferInstanceAs (Decidable (_ ∧ _))

/-- What a call leaves in the caller's structure. -/
def SysCall.received (s : KState) (user : WifimonStats) : SysCall → WifimonStats
  | .modStats reset a => (kwifimonModStats reset a s).received.getD user
  | _ => user

/-! ## The steps of a call, run whole -/

theorem closeSteps_run (b : PcapState → Bool) (hb : ∀ p, b (closeFile p) = b p)
    (x : KState × Caller) : (closeSteps b).foldl (fun y f => f y) x =
      ({ x.1 with pcap := if b x.1.pcap then pcapClose x.1.pcap else x.1.pcap }, x.2) := by
  have hclose : dropFd (closeFile x.1.pcap) = pcapClose x.1.pcap := by
    unfold dropFd closeFile pcapClose
    split <;> simp [*]
  show onPcap _ (onPcap _ x) = _
  unfold onPcap
  by_cases h : b x.1.pcap = true
  · simp only [h, hb, if_true, hclose]
  · simp [h]

theorem openSteps_run (a : OpenAns) (x : KState × Caller) :
    (openSteps a).foldl (fun y f => f y) x =
      ({ x.1 with pcap := (pcapOpen "ux0:/data/test.cap" a x.1.pcap).2 },
        { x.2 with ret := (pcapOpen "ux0:/data/test.cap" a x.1.pcap).1 }) := by
  have hfirst : ∀ p : PcapState, decide (0 < (closeFile p).pcapFd) = decide (0 < p.pcapFd) := by
    intro p
    unfold closeFile
    split <;> rfl
  rw [openSteps, List.foldl_append, List.foldl_append, List.foldl_append,
    closeSteps_run (fun p => decide (0 < p.pcapFd)) hfirst,
    closeSteps_run (fun _ => decide (a.hdr.ret < 0)) fun _ => rfl]
  simp only [List.foldl_cons, List.foldl_nil, onPcap, setRet, decide_eq_true_eq, pcapOpen]
  by_cases hfd : a.fd < 0
  · have hclosed : ∀ io, pcapClose ⟨a.fd, io⟩ = ⟨a.fd, io⟩ := fun io =>
      if_neg (Int.not_le.mpr hfd)
    simp [hfd, hclosed]
  · by_cases hret : a.hdr.ret < 0
    · simp [hfd, hret]
    · simp [hfd, hret]

theorem steps_run (c : SysCall) (h : c.Enters) (x : KState × Caller) :
    (c.steps.foldl (fun y f => f y) x).1 = c.run x.1 ∧
      (c.steps.foldl (fun y f => f y) x).2.user = c.received x.1 x.2.user := by
  obtain ⟨htakes, hlock⟩ := h
  cases c with
  | recorder op =>
    cases op with
    | capStart a =>
      have hlock : 0 ≤ a.lock := hlock
      show _ = (kwifimonCapStart a x.1).2 ∧ _
      rw [SysCall.steps, List.foldl_append, openSteps_run, kwifimonCapStart, if_pos hlock]
      by_cases hret : (pcapOpen "ux0:/data/test.cap" a.pcap x.1.pcap).1 = 0
      · simp [ifOk, loadState, storeState, hret, SysCall.received]
      · simp [ifOk, hret, SysCall.received]
    | capStop a =>
      have hlock : 0 ≤ a.lock := hlock
      show _ = (kwifimonCapStop a x.1).2 ∧ _
      rw [SysCall.steps, List.foldl_append, closeSteps_run _ fun _ => rfl, kwifimonCapStop,
        if_pos hlock]
      exact ⟨rfl, rfl⟩
    | netStart a =>
      have hlock : 0 ≤ a.lock := hlock
      show _ = (kwifimonNetStart a x.1).2 ∧ _
      rw [SysCall.steps, kwifimonNetStart, if_pos hlock]
      by_cases hfd : a.socket < 0
      · simp [ifOk, socketSteps, onKnet, setRet, knetStart, netSocket, hfd, SysCall.received]
      · simp [ifOk, loadState, storeState, socketSteps, onKnet, setRet, knetStart, netSocket, hfd,
          SysCall.received]
    | netStop a =>
      have hlock : 0 ≤ a.lock := hlock
      show _ = (kwifimonNetStop a x.1).2 ∧ _
      rw [kwifimonNetStop, if_pos hlock]
      exact ⟨rfl, rfl⟩
  | modStats reset a =>
    have hlock : 0 ≤ a.lock := hlock
    show _ = (kwifimonModStats reset a x.1).state ∧ _
    rw [SysCall.received, SysCall.steps, kwifimonModStats, if_pos hlock]
    by_cases hcopy : 0 ≤ a.copy
    · by_cases hreset : reset = 0
      · simp [hcopy, hreset, statWords, copyWord, Counter.set, Counter.get]
      · simp [hcopy, hreset, statWords, copyWord, clearWord, Counter.set, Counter.get]
        rfl
    · by_cases hreset : reset = 0
      · simp [hcopy, hreset]
      · simp [hcopy, hreset, statWords, clearWord, Counter.set]
        rfl
  | packet orig args a =>
    have hlock : 0 ≤ a.lock := hlock
    show _ = (kwifimonProcessRespose orig a args x.1).state ∧ _
    rw [(kwifimonProcessRespose_eq orig a args x.1).1, sectionOf_eq, SysCall.steps]
    cases hx : counterOf args.inPkt with
    | none => exact ⟨rfl, rfl⟩
    | some y =>
      have hbump : y.set (y.get x.1.kwifimonStats + 1) x.1.kwifimonStats =
          y.bump x.1.kwifimonStats := by
        cases y <;> rfl
      simp [loadCounter, storeCounter, hbump, locked, hlock, SysCall.received]

/-! ## Reads of the state word -/

def KeepsState (f : KStep) : Prop := ∀ y, kwifimonModState (f y).1 = kwifimonModState y.1

theorem keepsState_ifOk {f : KStep} (h : KeepsState f) : KeepsState (ifOk f) := by
  intro y
  unfold ifOk
  split
  · exact h y
  · rfl

theorem keepsState_open (a : OpenAns) : ∀ f ∈ openSteps a, KeepsState f := by
  simp only [openSteps, closeSteps, List.forall_mem_append, List.forall_mem_cons]
  exact ⟨⟨⟨⟨fun _ => rfl, fun _ => rfl, by simp⟩, fun _ => rfl, fun _ => rfl, fun _ => rfl,
    by simp⟩, fun _ => rfl, fun _ => rfl, by simp⟩, fun _ => rfl, by simp⟩

/-- A call stores the state word at its end, if at all. -/
theorem changesOnce_state {I : Type} [DecidableEq I] (c : SysCall) :
    ChangesOnce (I := I) SysCall.steps kwifimonModState c := by
  have hkeep : ∀ {fs : List KStep}, c.steps = fs → (∀ f ∈ fs, KeepsState f) →
      ChangesOnce (I := I) SysCall.steps kwifimonModState c := fun hsteps hall =>
    changesOnce_of SysCall.steps (hsteps.trans (List.append_nil _).symm) (Nat.zero_le 1) hall
  have hlast : ∀ {fs : List KStep} {f g : KStep}, c.steps = fs ++ [f, g] →
      (∀ f ∈ fs, KeepsState f) → KeepsState f →
      ChangesOnce (I := I) SysCall.steps kwifimonModState c := by
    intro fs f g hsteps hall hf
    have hsplit : c.steps = (fs ++ [f]) ++ [g] := by rw [hsteps, List.append_assoc]; rfl
    refine changesOnce_of SysCall.steps hsplit (Nat.le_refl 1) fun f' hf' => ?_
    rcases List.mem_append.mp hf' with hmem | hmem
    · exact hall f' hmem
    · rw [List.mem_singleton.mp hmem]
      exact hf
  have hload : KeepsState loadState := fun _ => rfl
  cases c with
  | recorder op =>
    cases op with
    | capStart a => exact hlast rfl (keepsState_open a.pcap) (keepsState_ifOk hload)
    | capStop a =>
      exact hlast rfl (by simp [closeSteps, KeepsState, onPcap, kwifimonModState]) hload
    | netStart a =>
      exact hlast rfl (by simp [socketSteps, KeepsState, onKnet, setRet, kwifimonModState])
        (keepsState_ifOk hload)
    | netStop a => exact hlast rfl (by simp [KeepsState, onKnet, kwifimonModState]) hload
  | modStats reset a =>
    refine hkeep rfl fun f hf => ?_
    rcases List.mem_append.mp hf with hcopy | hclear
    · split at hcopy
      · obtain ⟨x, -, rfl⟩ := List.mem_map.mp hcopy
        exact fun _ => rfl
      · cases hcopy
    · split at hclear
      · obtain ⟨x, -, rfl⟩ := List.mem_map.mp hclear
        exact fun _ => rfl
      · cases hclear
  | packet orig args a =>
    cases hx : counterOf args.inPkt with
    | none => exact hkeep (by rw [SysCall.steps, hx]) (by simp)
    | some x =>
      exact hkeep (by rw [SysCall.steps, hx])
        (by simp [KeepsState, loadCounter, storeCounter, kwifimonModState])

/-! ## Threads -/

/-- A call of a thread, run whole, on the state and on what the callers hold. -/
def callOn {I : Type} [DecidableEq I] (x : KState × (I → WifimonStats)) (a : I × SysCall) :
    KState × (I → WifimonStats) :=
  (a.2.run x.1, Function.update x.2 a.1 (a.2.received x.1 (x.2 a.1)))

/-- A call that does not get the mutex, or does not take it, changes nothing. -/
theorem run_of_not_enters {c : SysCall} (h : ¬ c.Enters) (s : KState) (u : WifimonStats) :
    c.run s = s ∧ c.received s u = u := by
  cases c with
  | recorder op =>
    refine ⟨?_, rfl⟩
    cases op <;> exact congrArg Prod.snd (if_neg fun hlock => h ⟨rfl, hlock⟩)
  | modStats reset a =>
    have hlock : ¬ 0 ≤ a.lock := fun hlock => h ⟨rfl, hlock⟩
    simp [SysCall.run, SysCall.received, kwifimonModStats, hlock]
  | packet orig args a =>
    refine ⟨?_, rfl⟩
    show (kwifimonProcessRespose orig a args s).state = s
    rw [(kwifimonProcessRespose_eq orig a args s).1, sectionOf_eq]
    cases hx : counterOf args.inPkt with
    | none => rfl
    | some x =>
      exact if_neg fun hlock => h ⟨by rw [SysCall.takesMutex, hx]; rfl, hlock⟩

section

variable {I : Type} [DecidableEq I]

/-- The threads before their first steps. -/
def threads (k : KState) (own : I → Caller) (calls : I → List SysCall) :
    World I KState Caller SysCall :=
  .start k own fun i => (calls i).filter fun c => decide c.Enters

def view (x : KState × (I → Caller)) : KState × (I → WifimonStats) := (x.1, fun i => (x.2 i).user)

theorem view_atOnce (x : KState × (I → Caller)) (a : I × SysCall) (h : a.2.Enters) :
    view (atOnce SysCall.steps x a) = callOn (view x) a := by
  obtain ⟨hstate, huser⟩ := steps_run a.2 h (x.1, x.2 a.1)
  refine Prod.ext hstate (funext fun i => ?_)
  simp only [view, atOnce, runSteps, callOn]
  by_cases hi : i = a.1
  · rw [hi, Function.update_self, Function.update_self]
    exact huser
  · rw [Function.update_of_ne hi, Function.update_of_ne hi]

theorem view_order (calls : List (I × SysCall)) (h : ∀ a ∈ calls, a.2.Enters)
    (x : KState × (I → Caller)) :
    view (calls.foldl (atOnce SysCall.steps) x) = calls.foldl callOn (view x) := by
  induction calls generalizing x with
  | nil => rfl
  | cons a calls ih =>
    rw [List.foldl_cons, List.foldl_cons, ih fun b hb => h b (List.mem_cons_of_mem _ hb),
      view_atOnce x a (h a (List.mem_cons_self ..))]

/-- **Atomicity.** For any threads with any calls, whatever these are answered, and every order in
    which the threads go on, where the owner's unlock frees the mutex: the calls of a thread get
    the mutex in the order of the thread, and those that do not get it change nothing; whenever
    the mutex is free, the state of the module and the callers' structures are those of the calls
    run whole, in the order in which they got the mutex; the state word that `kwifimon_mod_state`
    reads at any time is that between two of these calls; and the mutex comes free again. -/
theorem calls_atomic (k : KState) (own : I → Caller) (calls : I → List SysCall)
    (schedule : List I) :
    let w := schedule.foldl (World.step SysCall.steps) (threads k own calls)
    (∀ i, (w.order.filter fun a => decide (a.1 = i)).map Prod.snd ++ w.todo i =
        (calls i).filter fun c => decide c.Enters) ∧
      (∀ i, ∀ c ∈ calls i, ¬ c.Enters → ∀ s u, c.run s = s ∧ c.received s u = u) ∧
      (w.holder = none → (w.shared, fun i => (w.own i).user) =
        w.order.foldl callOn (k, fun i => (own i).user)) ∧
      (∃ done, done <+: w.order ∧ w.order.length ≤ done.length + 1 ∧
        kwifimonModState w.shared =
          kwifimonModState (done.foldl callOn (k, fun i => (own i).user)).1) ∧
      ∃ more : List I, (more.foldl (World.step SysCall.steps) w).holder = none := by
  intro w
  have horder := order_run SysCall.steps k own
    (fun i => (calls i).filter fun c => decide c.Enters) schedule
  have henters : ∀ a ∈ w.order, a.2.Enters := by
    intro a ha
    have hmem : a.2 ∈ (calls a.1).filter fun c => decide c.Enters := by
      rw [← horder a.1]
      exact List.mem_append_left _ (List.mem_map.mpr
        ⟨a, List.mem_filter.mpr ⟨ha, decide_eq_true rfl⟩, rfl⟩)
    exact of_decide_eq_true (List.mem_filter.mp hmem).2
  refine ⟨horder, fun _ _ _ hout s u => run_of_not_enters hout s u, fun hfree => ?_, ?_,
    free_again SysCall.steps w⟩
  · have hatomic := schedule_atomic SysCall.steps k own _ schedule hfree
    exact (congrArg view hatomic).trans (view_order w.order henters (k, own))
  · obtain ⟨done, hdone, hlen, hread⟩ := schedule_read SysCall.steps kwifimonModState
      changesOnce_state k own (fun i => (calls i).filter fun c => decide c.Enters) schedule
    refine ⟨done, hdone, hlen, hread.trans ?_⟩
    have hview := view_order done (fun a ha => henters a (hdone.subset ha)) (k, own)
    exact congrArg (fun x => kwifimonModState x.1) hview

end

/-- The hook counts a beacon while a call that resets the statistics waits for the mutex. -/
example :
    let calls : Bool → List SysCall := fun i =>
      if i then [.modStats 1 ⟨0, 0, 0⟩] else [.packet (fun _ => 0) beacon ⟨0, 0⟩]
    let schedule := [false, true, false, true, false, true, false] ++ List.replicate 12 true
    let w := schedule.foldl (World.step SysCall.steps)
      (threads (.start fun _ => []) (fun _ => ⟨0, 0, .zero⟩) calls)
    w.holder.isNone = true ∧ w.order.map Prod.fst = [false, true] ∧
      (w.own true).user.mgmtCnt = 1 ∧ w.shared.kwifimonStats.mgmtCnt = 0 := by
  decide

end Wifimon.Kplugin
