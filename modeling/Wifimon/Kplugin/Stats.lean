/-
  The statistics under concurrent use.

  A call of `kwifimon_process_respose` is at most one critical section (`HookAct.count`) and then
  its return or the call of the original handler (`HookAct.leave`); a call of
  `kwifimon_mod_stats` is one critical section. Calls interleave between these actions. The mutex
  calls succeed and the copy to user space delivers the structure.

  * `callActs_run`: the actions of one call, run alone, are the call as `Respose` and `Module`
    model it.
  * `total_run`: after any run of actions, what the resetting calls delivered of a counter plus
    its current value is, mod 2^32, the number of packets counted for it.
  * `stats_conserved`: for an interleaving of complete calls, the same with the packets of the
    calls; every data or aggregate packet belongs to exactly one of the four packet counters;
    the packets not passed on number what `mgmt_cnt` and `evt_cnt` account for; and the calls
    are those of the module.
-/
import Wifimon.Kplugin.Respose
import Mathlib.Data.Nat.ModEq
import Mathlib.Algebra.BigOperators.Group.List.Basic

namespace Wifimon.Kplugin

open ByteLib RunLib

/-! ## Counters -/

inductive Counter where
  | pkt | mgmt | amsdu | bar | evt
  deriving DecidableEq

def Counter.get : Counter → WifimonStats → UInt32
  | .pkt, st => st.pktCnt
  | .mgmt, st => st.mgmtCnt
  | .amsdu, st => st.amsduCnt
  | .bar, st => st.barCnt
  | .evt, st => st.evtCnt

/-- The packets that belong to a counter. -/
def Counter.Counts : Counter → Mem → Prop
  | .pkt, p => IsRx p ∧ rxPktType p ≠ 0xE5 ∧ rxPktType p ≠ 0xE6 ∧ rxPktType p ≠ 0xE7
  | .mgmt, p => IsRx p ∧ rxPktType p = 0xE5
  | .amsdu, p => IsRx p ∧ rxPktType p = 0xE6
  | .bar, p => IsRx p ∧ rxPktType p = 0xE7
  | .evt, p => pktType p = 3 ∧ swallows p = true

instance (c : Counter) (p : Mem) : Decidable (c.Counts p) := by
  cases c <;> exact inferInstanceAs (Decidable (_ ∧ _))

/-- The counter of a data or aggregate packet. -/
def rxCounter (ty : UInt16) : Counter :=
  if ty = 0xE5 then .mgmt else if ty = 0xE6 then .amsdu else if ty = 0xE7 then .bar else .pkt

/-- The counter a packet belongs to, if any. -/
def counterOf (p : Mem) : Option Counter :=
  if TakenForEvent p then some .evt
  else if IsRx p then some (rxCounter (rxPktType p))
  else none

theorem rxCounter_eq_iff (p : Mem) (c : Counter) (h : IsRx p) :
    rxCounter (rxPktType p) = c ↔ c.Counts p := by
  have h3 : pktType p ≠ 3 := fun h3 => not_isRx_of_event h3 h
  unfold rxCounter
  by_cases h5 : rxPktType p = 0xE5
  · cases c <;> simp [Counter.Counts, h, h3, h5]
  · by_cases h6 : rxPktType p = 0xE6
    · cases c <;> simp [Counter.Counts, h, h3, h6]
    · by_cases h7 : rxPktType p = 0xE7
      · cases c <;> simp [Counter.Counts, h, h3, h7]
      · cases c <;> simp [Counter.Counts, h, h3, h5, h6, h7]

/-- `counterOf` is the counter the packet belongs to. -/
theorem counterOf_eq_some_iff (p : Mem) (c : Counter) : counterOf p = some c ↔ c.Counts p := by
  unfold counterOf
  by_cases he : TakenForEvent p
  · have hrx : ¬ IsRx p := not_isRx_of_event he.1
    have hsw : swallows p = true := by simp [swallows, he]
    rw [if_pos he]
    cases c <;> simp [Counter.Counts, hrx, he.1, hsw]
  · rw [if_neg he]
    by_cases hrx : IsRx p
    · rw [if_pos hrx, Option.some_inj, rxCounter_eq_iff p c hrx]
    · have hsw : swallows p = false := by simp [swallows, he, IsMgmt, hrx]
      rw [if_neg hrx]
      cases c <;> simp [Counter.Counts, hrx, hsw]

/-- The packets that are not passed on are those of `mgmt_cnt` and of `evt_cnt`. -/
theorem swallows_iff_counterOf (p : Mem) :
    swallows p = true ↔ counterOf p = some .mgmt ∨ counterOf p = some .evt := by
  rw [counterOf_eq_some_iff, counterOf_eq_some_iff]
  by_cases he : TakenForEvent p
  · have hsw : swallows p = true := by simp [swallows, he]
    simp [Counter.Counts, hsw, he.1]
  · by_cases hm : IsMgmt p
    · have hsw : swallows p = true := by simp [swallows, hm]
      exact ⟨fun _ => Or.inl hm, fun _ => hsw⟩
    · have hsw : swallows p = false := by simp [swallows, he, hm]
      have hmgmt : ¬ Counter.mgmt.Counts p := hm
      simp [Counter.Counts, hsw] at hmgmt ⊢
      exact hmgmt

/-- One more in a counter. -/
def Counter.bump : Counter → WifimonStats → WifimonStats
  | .pkt, st => { st with pktCnt := st.pktCnt + 1 }
  | .mgmt, st => { st with mgmtCnt := st.mgmtCnt + 1 }
  | .amsdu, st => { st with amsduCnt := st.amsduCnt + 1 }
  | .bar, st => { st with barCnt := st.barCnt + 1 }
  | .evt, st => { st with evtCnt := st.evtCnt + 1 }

/-- The critical section of a packet raises its counter. -/
theorem sectionOf_eq (p : Mem) : sectionOf p = (counterOf p).map Counter.bump := by
  have hrx : countRx (rxPktType p) = (rxCounter (rxPktType p)).bump := by
    funext st
    unfold countRx rxCounter pktTypeMgmt pktTypeAmsdu pktTypeBar
    repeat' split
    all_goals rfl
  unfold sectionOf counterOf
  rw [hrx]
  repeat' split
  all_goals rfl

theorem get_bump (c d : Counter) (st : WifimonStats) :
    (c.get (d.bump st)).toNat ≡ (c.get st).toNat + (if d = c then 1 else 0) [MOD 2 ^ 32] := by
  have hsucc : ∀ x : UInt32, (x + 1).toNat ≡ x.toNat + 1 [MOD 2 ^ 32] := fun x => by
    rw [UInt32.toNat_add]
    exact Nat.mod_modEq _ _
  by_cases h : d = c
  · subst h
    rw [if_pos rfl]
    cases d <;> exact hsucc _
  · rw [if_neg h]
    cases c <;> cases d <;> first | exact absurd rfl h | exact Nat.ModEq.refl _

/-- The number of packets of a list that belong to a counter. -/
def Counter.among (c : Counter) (ps : List RxArgs) : Nat :=
  ps.countP fun p => decide (c.Counts p.inPkt)

theorem among_cons (c : Counter) (p : RxArgs) (ps : List RxArgs) :
    c.among (p :: ps) = c.among ps + (if counterOf p.inPkt = some c then 1 else 0) := by
  simp only [Counter.among, List.countP_cons, counterOf_eq_some_iff, decide_eq_true_eq]

theorem among_append (c : Counter) (ps qs : List RxArgs) :
    c.among (ps ++ qs) = c.among ps + c.among qs :=
  List.countP_append

/-! ## Calls and their actions -/

inductive HookCall where
  | respose (args : RxArgs)
  | modStats (reset : Int)

inductive HookAct where
  | count (args : RxArgs)
  | leave (args : RxArgs)
  | stats (reset : Int)

def HookCall.acts : HookCall → List HookAct
  | .respose args =>
    match sectionOf args.inPkt with
    | some _ => [.count args, .leave args]
    | none => [.leave args]
  | .modStats reset => [.stats reset]

/-- The module state, and what the calls have done so far: the values delivered by resetting
    calls, the packets counted, and the packets swallowed and passed on. -/
structure Shared where
  state : KState
  delivered : List WifimonStats
  counted : List RxArgs
  swallowed : List RxArgs
  passed : List RxArgs

def Shared.start (disk : String → List UInt8) : Shared := ⟨.start disk, [], [], [], []⟩

/-- The critical section of `kwifimon_process_respose` on a packet. -/
def critical (p : Mem) (s : KState) : KState :=
  match sectionOf p with
  | some body => locked ⟨0, 0⟩ body s
  | none => s

def Shared.exec (sh : Shared) : HookAct → Shared
  | .count args =>
    { sh with state := critical args.inPkt sh.state, counted := sh.counted ++ [args] }
  | .leave args =>
    if swallows args.inPkt then { sh with swallowed := sh.swallowed ++ [args] }
    else { sh with passed := sh.passed ++ [args] }
  | .stats reset =>
    let r := kwifimonModStats reset ⟨0, 0, 0⟩ sh.state
    { sh with
      state := r.state
      delivered := sh.delivered ++ if reset ≠ 0 then r.received.toList else [] }

/-- The function of the module that a call is, with the mutex got and the copy made: the state it
    leaves, the packets it passes on, whether the packet is kept from the original handler, and
    what a reset delivers. -/
def HookCall.alone (orig : RxArgs → Int) (sh : Shared) : HookCall → Shared
  | .respose args =>
    let r := kwifimonProcessRespose orig ⟨0, 0⟩ args sh.state
    { state := r.state
      delivered := sh.delivered
      counted := sh.counted ++ if (sectionOf args.inPkt).isSome then [args] else []
      swallowed := sh.swallowed ++ if r.passed.isEmpty then [args] else []
      passed := sh.passed ++ r.passed }
  | .modStats reset =>
    let r := kwifimonModStats reset ⟨0, 0, 0⟩ sh.state
    { sh with
      state := r.state
      delivered := sh.delivered ++ if reset ≠ 0 then r.received.toList else [] }

/-- The actions of one call, run alone, are the call. -/
theorem callActs_run (orig : RxArgs → Int) (call : HookCall) (sh : Shared) :
    call.acts.foldl Shared.exec sh = call.alone orig sh := by
  cases call with
  | modStats reset => rfl
  | respose args =>
    obtain ⟨hstate, hver⟩ := kwifimonProcessRespose_eq orig ⟨0, 0⟩ args sh.state
    unfold HookCall.acts HookCall.alone
    dsimp only
    rw [hstate]
    cases hsec : sectionOf args.inPkt <;> cases hsw : swallows args.inPkt <;>
      simp_all [Shared.exec, critical]

/-! ## One action -/

/-- What was delivered of a counter, plus its current value. -/
def Shared.total (c : Counter) (sh : Shared) : Nat :=
  (sh.delivered.map fun st => (c.get st).toNat).sum + (c.get sh.state.kwifimonStats).toNat

/-- A critical section raises the counter its packet belongs to, by one, and no other. -/
theorem critical_get (c : Counter) (p : Mem) (s : KState) :
    (c.get (critical p s).kwifimonStats).toNat ≡
      (c.get s.kwifimonStats).toNat + (if counterOf p = some c then 1 else 0) [MOD 2 ^ 32] := by
  unfold critical
  rw [sectionOf_eq]
  cases counterOf p with
  | none => exact Nat.ModEq.refl _
  | some d => simpa [locked] using get_bump c d s.kwifimonStats

theorem total_exec (c : Counter) (sh : Shared) (act : HookAct)
    (h : sh.total c ≡ c.among sh.counted [MOD 2 ^ 32]) :
    (sh.exec act).total c ≡ c.among (sh.exec act).counted [MOD 2 ^ 32] := by
  cases act with
  | count args =>
    have hcount : c.among (sh.exec (.count args)).counted =
        c.among sh.counted + (if counterOf args.inPkt = some c then 1 else 0) := by
      show c.among (sh.counted ++ [args]) = _
      rw [among_append, among_cons]
      simp [Counter.among]
    rw [hcount]
    refine ((critical_get c args.inPkt sh.state).add_left _).trans ?_
    rw [← Nat.add_assoc]
    exact h.add_right _
  | leave args =>
    unfold Shared.exec
    dsimp only
    split <;> exact h
  | stats reset =>
    by_cases hr : reset = 0
    · simpa [Shared.exec, Shared.total, kwifimonModStats, hr] using h
    · -- the current value moves to the delivered ones, and the counter restarts at zero
      have hz : (c.get WifimonStats.zero).toNat = 0 := by cases c <;> rfl
      have htot : (sh.exec (.stats reset)).total c = sh.total c := by
        simp [Shared.exec, Shared.total, kwifimonModStats, hr, hz]
      rw [htot]
      exact h

/-! ## Runs -/

/-- At every point of every run: delivered plus current is the number of packets counted. -/
theorem total_run (c : Counter) (disk : String → List UInt8) (acts : List HookAct) :
    Always Shared.exec (fun sh => sh.total c ≡ c.among sh.counted [MOD 2 ^ 32])
      (.start disk) acts :=
  always_of_inv (fun sh act h => total_exec c sh act h)
    (by cases c <;> exact Nat.ModEq.refl _) acts

/-- The packets whose critical section an action list contains. -/
def countedBy (acts : List HookAct) : List RxArgs :=
  acts.filterMap fun
    | .count args => some args
    | _ => none

/-- The packets an action list finishes. -/
def leftBy (acts : List HookAct) : List RxArgs :=
  acts.filterMap fun
    | .leave args => some args
    | _ => none

/-- The packets of the calls. -/
def packetsOf (calls : List HookCall) : List RxArgs :=
  calls.filterMap fun
    | .respose args => some args
    | .modStats _ => none

theorem run_counted (acts : List HookAct) (sh : Shared) :
    (acts.foldl Shared.exec sh).counted = sh.counted ++ countedBy acts := by
  induction acts generalizing sh with
  | nil => simp [countedBy]
  | cons act acts ih =>
    rw [List.foldl_cons, ih]
    cases act with
    | count args => simp [Shared.exec, countedBy]
    | leave args => cases hs : swallows args.inPkt <;> simp [Shared.exec, countedBy, hs]
    | stats reset => simp [Shared.exec, countedBy]

theorem run_swallowed (acts : List HookAct) (sh : Shared) :
    (acts.foldl Shared.exec sh).swallowed =
      sh.swallowed ++ (leftBy acts).filter fun p => swallows p.inPkt := by
  induction acts generalizing sh with
  | nil => simp [leftBy]
  | cons act acts ih =>
    rw [List.foldl_cons, ih]
    cases act with
    | count args => simp [Shared.exec, leftBy]
    | leave args => cases hs : swallows args.inPkt <;> simp [Shared.exec, leftBy, hs]
    | stats reset => simp [Shared.exec, leftBy]

/-- Complete calls count every packet that belongs to a counter, once. -/
theorem among_countedBy (c : Counter) (calls : List HookCall) :
    c.among (countedBy (calls.map HookCall.acts).flatten) = c.among (packetsOf calls) := by
  induction calls with
  | nil => rfl
  | cons call calls ih =>
    rw [List.map_cons, List.flatten_cons, countedBy, List.filterMap_append, among_append]
    rw [countedBy] at ih
    rw [ih]
    cases call with
    | modStats reset => simp [HookCall.acts, packetsOf, Counter.among]
    | respose args =>
      show _ = c.among (args :: packetsOf calls)
      rw [among_cons, HookCall.acts, sectionOf_eq]
      cases hc : counterOf args.inPkt with
      | none => simp [Counter.among]
      | some d =>
        show c.among [args] + _ = _
        rw [among_cons, hc, Nat.add_comm]
        simp [Counter.among]

/-- Complete calls finish every packet once. -/
theorem leftBy_acts (calls : List HookCall) :
    leftBy (calls.map HookCall.acts).flatten = packetsOf calls := by
  induction calls with
  | nil => rfl
  | cons call calls ih =>
    rw [List.map_cons, List.flatten_cons, leftBy, List.filterMap_append]
    rw [leftBy] at ih
    rw [ih]
    cases call with
    | modStats reset => rfl
    | respose args =>
      rw [HookCall.acts]
      cases sectionOf args.inPkt <;> rfl

theorem length_filter_swallows (ps : List RxArgs) :
    (ps.filter fun p => swallows p.inPkt).length =
      Counter.mgmt.among ps + Counter.evt.among ps := by
  induction ps with
  | nil => rfl
  | cons p ps ih =>
    rw [List.filter_cons, among_cons, among_cons]
    have hsw := swallows_iff_counterOf p.inPkt
    by_cases hs : swallows p.inPkt = true
    · rw [if_pos hs, List.length_cons, ih]
      rcases hsw.mp hs with hc | hc <;> simp [hc] <;> omega
    · rw [if_neg hs, ih]
      have hn := mt hsw.mpr hs
      rw [not_or] at hn
      rw [if_neg hn.1, if_neg hn.2]
      rfl

/-- A data or aggregate packet belongs to exactly one counter. -/
theorem counts_unique {p : Mem} (h : IsRx p) : ∃! c : Counter, c.Counts p :=
  ⟨rxCounter (rxPktType p), (rxCounter_eq_iff p _ h).mp rfl,
    fun c hc => ((rxCounter_eq_iff p c h).mpr hc).symm⟩

/-- **No count is lost or duplicated.** For every interleaving of complete calls from zeroed
    statistics: at every point, what was delivered of a counter plus its current value is the
    number of packets counted so far that belong to it, mod 2^32; at the end, the number of
    packets of the calls that belong to it; every data or aggregate packet belongs to exactly
    one counter, and not to `evt_cnt`; the packets not passed on number the delivered and
    current `mgmt_cnt` and `evt_cnt`; and each of the calls, run alone, is
    `kwifimon_process_respose` or `kwifimon_mod_stats`. -/
theorem stats_conserved (disk : String → List UInt8) (calls : List HookCall)
    (acts : List HookAct) (h : Interleaving (calls.map HookCall.acts) acts) :
    (∀ pre, pre <+: acts → ∀ c : Counter,
        (pre.foldl Shared.exec (.start disk)).total c ≡ c.among (countedBy pre) [MOD 2 ^ 32]) ∧
      (∀ c : Counter, (acts.foldl Shared.exec (.start disk)).total c ≡
        c.among (packetsOf calls) [MOD 2 ^ 32]) ∧
      (∀ p, IsRx p → (∃! c : Counter, c.Counts p) ∧ ¬ Counter.evt.Counts p) ∧
      (acts.foldl Shared.exec (.start disk)).swallowed.length ≡
        (acts.foldl Shared.exec (.start disk)).total .mgmt +
          (acts.foldl Shared.exec (.start disk)).total .evt [MOD 2 ^ 32] ∧
      ∀ call ∈ calls, ∀ orig sh, call.acts.foldl Shared.exec sh = call.alone orig sh := by
  have hpoint : ∀ pre, pre <+: acts → ∀ c : Counter,
      (pre.foldl Shared.exec (.start disk)).total c ≡ c.among (countedBy pre) [MOD 2 ^ 32] := by
    intro pre hpre c
    have ht : (pre.foldl Shared.exec (.start disk)).total c ≡
        c.among (pre.foldl Shared.exec (.start disk)).counted [MOD 2 ^ 32] :=
      total_run c disk acts pre hpre
    rw [run_counted] at ht
    exact ht
  have hend : ∀ c : Counter, (acts.foldl Shared.exec (.start disk)).total c ≡
      c.among (packetsOf calls) [MOD 2 ^ 32] := by
    intro c
    have hperm : c.among (countedBy acts) =
        c.among (countedBy (calls.map HookCall.acts).flatten) :=
      (h.perm.filterMap _).countP_eq _
    rw [← among_countedBy, ← hperm]
    exact hpoint acts (List.prefix_refl acts) c
  refine ⟨hpoint, hend, fun p hp => ⟨counts_unique hp, fun he => not_isRx_of_event he.1 hp⟩, ?_,
    fun call _ orig sh => callActs_run orig call sh⟩
  have hsw : (acts.foldl Shared.exec (.start disk)).swallowed.length =
      Counter.mgmt.among (packetsOf calls) + Counter.evt.among (packetsOf calls) := by
    have hperm := (h.perm.filterMap fun act => match act with
      | HookAct.leave args => some args
      | _ => none).filter fun p => swallows p.inPkt
    rw [run_swallowed, ← length_filter_swallows, ← leftBy_acts calls]
    exact hperm.length_eq
  rw [hsw]
  exact ((hend .mgmt).add (hend .evt)).symm

/-- A management frame. -/
def beacon : RxArgs where
  dev := 0
  inPkt := ofList [24, 0, 0, 0, 0, 0, 0, 0, 0, 0, 0xE5, 0]
  inPktLen := 24
  somenumber := 0

/-- A reset between the critical section of a call and its return. -/
theorem stats_conserved_beacon :
    (([HookAct.count beacon, .stats 1, .leave beacon].foldl Shared.exec
        (.start fun _ => [])).swallowed.length ≡ 1 [MOD 2 ^ 32]) ∧
      ([HookAct.count beacon, .stats 1, .leave beacon].foldl Shared.exec
        (.start fun _ => [])).total .mgmt ≡ 1 [MOD 2 ^ 32] := by
  have hint : Interleaving ([HookCall.respose beacon, .modStats 1].map HookCall.acts)
      [.count beacon, .stats 1, .leave beacon] :=
    @Interleaving.step HookAct [] [[.stats 1]] _ _ _
      (@Interleaving.step HookAct [[.leave beacon]] [] _ _ _
        (@Interleaving.step HookAct [] [[]] _ _ _ (.done (by simp))))
  obtain ⟨-, hend, -, hsw, -⟩ :=
    stats_conserved (fun _ => []) [.respose beacon, .modStats 1] _ hint
  constructor
  · exact (hsw.trans ((hend .mgmt).add (hend .evt))).trans (by decide)
  · exact (hend .mgmt).trans (by decide)

end Wifimon.Kplugin
