/-
  What a session of the app leaves behind.

  The buttons, the hook and the driver act on one firmware and one module state; the parts they
  share are kept apart here. `recorder` is the module state without the counters: of all that a
  session does only the two recording keys and the unloading change it.

  `session_state`: the firmware has the first words of the patch table, where the system calls
  are those of `stackControl`, and the recorder is where the presses of the two keys have brought
  it, or stopped, if the app has left its first loop with a positive `kmod` and the kernel has
  stopped the plugin for it. `session_counters`: of every counter, what the lines show plus the
  current value is the number of packets handled, as long as the hook is there.
-/
import Wifimon.App.Session

namespace Wifimon.App

open ByteLib Kplugin EdgeLib

/-! ## The recorder -/

/-- The module state without the counters. -/
def recorder (k : KState) : KState := { k with kwifimonStats := .zero }

theorem recorder_recOp (k : KState) (op : RecOp) : recorder (op.run k) = op.run (recorder k) := by
  cases op with
  | capStart a =>
    show recorder (kwifimonCapStart a k).2 = (kwifimonCapStart a (recorder k)).2
    by_cases hl : 0 ≤ a.lock
    · by_cases hr : (Pcap.pcapOpen "ux0:/data/test.cap" a.pcap k.pcap).1 = 0
      · simp only [kwifimonCapStart, if_pos hl, recorder, if_pos hr]
        exact (if_pos hr).symm
      · simp only [kwifimonCapStart, if_pos hl, recorder, if_neg hr]
        exact (if_neg hr).symm
    · simp only [kwifimonCapStart, if_neg hl]
  | capStop a =>
    show recorder (kwifimonCapStop a k).2 = (kwifimonCapStop a (recorder k)).2
    by_cases hl : 0 ≤ a.lock
    · simp only [kwifimonCapStop, if_pos hl, recorder]
    · simp only [kwifimonCapStop, if_neg hl]
  | netStart a =>
    show recorder (kwifimonNetStart a k).2 = (kwifimonNetStart a (recorder k)).2
    by_cases hl : 0 ≤ a.lock
    · by_cases hr : (Knet.knetStart kwifimonNetPort a.socket k.knet).1 = 0
      · simp only [kwifimonNetStart, if_pos hl, recorder, if_pos hr]
        exact (if_pos hr).symm
      · simp only [kwifimonNetStart, if_pos hl, recorder, if_neg hr]
        exact (if_neg hr).symm
    · simp only [kwifimonNetStart, if_neg hl]
  | netStop a =>
    show recorder (kwifimonNetStop a k).2 = (kwifimonNetStop a (recorder k)).2
    by_cases hl : 0 ≤ a.lock
    · simp only [kwifimonNetStop, if_pos hl, recorder]
    · simp only [kwifimonNetStop, if_neg hl]

theorem recorder_modStats (reset : Int) (a : ModStatsAns) (k : KState) :
    recorder (kwifimonModStats reset a k).state = recorder k := by
  unfold kwifimonModStats
  split
  · dsimp only
    split <;> rfl
  · rfl

theorem recorder_locked (a : LockAns) (body : WifimonStats → WifimonStats) (k : KState) :
    recorder (locked a body k) = recorder k := by
  unfold locked
  split <;> rfl

theorem recorder_respose (orig : RxArgs → Int) (a : LockAns) (args : RxArgs) (k : KState) :
    recorder (kwifimonProcessRespose orig a args k).state = recorder k := by
  rw [(kwifimonProcessRespose_eq orig a args k).1]
  cases sectionOf args.inPkt with
  | none => rfl
  | some body => exact recorder_locked a body k

/-- The recorder after `module_stop`. -/
def stopped (k : KState) : KState :=
  { k with pcap := Pcap.pcapClose k.pcap, knet := Knet.knetStop k.knet, kwifimonState := 0 }

theorem moduleStop_k (m : ModState) : (moduleStop m).2.k = stopped m.k := rfl

theorem moduleStop_mutex (m : ModState) : (moduleStop m).2.mutexDeleted = true := rfl

/-! ## Counters -/

/-- The number of a counter in a line. -/
def Line.count (x : Counter) : Line → Nat
  | .stats _ st => (x.get st).toNat
  | _ => 0

/-- What the lines show of a counter. -/
def shown (x : Counter) (s : Session) : Nat := (s.drawn.map fun l => l.2.count x).sum

/-- The packets that are counted: the mutex was got. -/
def countedOf (packets : List (LockAns × RxArgs)) : List RxArgs :=
  (packets.filter fun p => decide (0 ≤ p.1.lock)).map Prod.snd

/-- The hook on one packet. -/
theorem respose_get (x : Counter) (orig : RxArgs → Int) (p : LockAns × RxArgs) (k : KState) :
    (x.get (kwifimonProcessRespose orig p.1 p.2 k).state.kwifimonStats).toNat ≡
      (x.get k.kwifimonStats).toNat + x.among (countedOf [p]) [MOD 2 ^ 32] := by
  have hstate := (kwifimonProcessRespose_eq orig p.1 p.2 k).1
  by_cases hl : 0 ≤ p.1.lock
  · have hcritical : (kwifimonProcessRespose orig p.1 p.2 k).state = critical p.2.inPkt k := by
      rw [hstate]
      unfold critical
      cases sectionOf p.2.inPkt with
      | none => rfl
      | some body => exact if_pos hl
    have hcounted : countedOf [p] = [p.2] := by
      simp [countedOf, hl]
    rw [hcritical, hcounted, among_cons]
    simpa [Counter.among] using critical_get x p.2.inPkt k
  · have hsame : (kwifimonProcessRespose orig p.1 p.2 k).state = k := by
      rw [hstate]
      cases sectionOf p.2.inPkt with
      | none => rfl
      | some body => exact if_neg hl
    have hcounted : countedOf [p] = [] := by
      simp [countedOf, hl]
    rw [hsame, hcounted]
    exact Nat.ModEq.refl _

theorem countedOf_append (ps qs : List (LockAns × RxArgs)) :
    countedOf (ps ++ qs) = countedOf ps ++ countedOf qs := by
  rw [countedOf, List.filter_append, List.map_append]
  rfl

/-- The hook on the packets before a pass. -/
theorem packets_get (x : Counter) (orig : RxArgs → Int) (ps : List (LockAns × RxArgs)) (k : KState) :
    (x.get (ps.foldl (fun k p => (kwifimonProcessRespose orig p.1 p.2 k).state)
        k).kwifimonStats).toNat ≡
      (x.get k.kwifimonStats).toNat + x.among (countedOf ps) [MOD 2 ^ 32] := by
  induction ps generalizing k with
  | nil => exact Nat.ModEq.refl _
  | cons p ps ih =>
    have hfirst := respose_get x orig p k
    have hrest := ih (kwifimonProcessRespose orig p.1 p.2 k).state
    have hsplit : countedOf (p :: ps) = countedOf [p] ++ countedOf ps := countedOf_append [p] ps
    rw [hsplit, among_append, ← Nat.add_assoc, List.foldl_cons]
    exact hrest.trans (hfirst.add_right _)

theorem packets_recorder (orig : RxArgs → Int) (ps : List (LockAns × RxArgs)) (k : KState) :
    recorder (ps.foldl (fun k p => (kwifimonProcessRespose orig p.1 p.2 k).state) k) =
      recorder k := by
  induction ps generalizing k with
  | nil => rfl
  | cons p ps ih => rw [List.foldl_cons, ih, recorder_respose]

/-! ## One pass -/

/-- The calls that a key makes of the recorder. -/
def keyOps (p : Pass) : Key → List RecOp
  | .left => [.capStart p.capStart]
  | .right => [.capStop p.capStop]
  | _ => []

/-- What the lines show of a counter plus its value. -/
def Session.total (x : Counter) (s : Session) : Nat :=
  shown x s + (x.get s.mod.k.kwifimonStats).toNat

/-- The numbers that the triangle asks for arrive. -/
def Pass.Delivers (p : Pass) : Prop := 0 ≤ p.stats.lock ∧ 0 ≤ p.stats.copy

theorem recorder_onKeys (c : Config) (p : Pass) (input : UInt32) (s : Session) :
    recorder (onKeys c p input s).mod.k =
      ((loopKeys.filter fun key => decide (input &&& c.keys.mask key ≠ 0)).flatMap
        (keyOps p)).foldl RecOp.run (recorder s.mod.k) := by
  have htriangle : ∀ s, recorder (onTriangle p s).mod.k = recorder s.mod.k :=
    fun s => recorder_modStats ..
  have hsquare : ∀ s, recorder (onSquare c p s).mod.k = recorder s.mod.k := fun _ => rfl
  have hleft : ∀ s, recorder (onLeft p s).mod.k =
      RecOp.run (recorder s.mod.k) (.capStart p.capStart) :=
    fun s => recorder_recOp s.mod.k (.capStart p.capStart)
  have hright : ∀ s, recorder (onRight p s).mod.k =
      RecOp.run (recorder s.mod.k) (.capStop p.capStop) :=
    fun s => recorder_recOp s.mod.k (.capStop p.capStop)
  unfold onKeys loopKeys
  dsimp only
  simp only [List.filter_cons, List.filter_nil, decide_eq_true_eq]
  split <;> split <;> split <;> split <;>
    simp [htriangle, hsquare, hleft, hright, keyOps]

theorem stats_recOp (k : KState) (op : RecOp) : (op.run k).kwifimonStats = k.kwifimonStats := by
  cases op with
  | capStart a =>
    show (kwifimonCapStart a k).2.kwifimonStats = _
    unfold kwifimonCapStart
    split
    · dsimp only
      split <;> rfl
    · rfl
  | capStop a =>
    show (kwifimonCapStop a k).2.kwifimonStats = _
    unfold kwifimonCapStop
    split <;> rfl
  | netStart a =>
    show (kwifimonNetStart a k).2.kwifimonStats = _
    unfold kwifimonNetStart
    split
    · dsimp only
      split <;> rfl
    · rfl
  | netStop a =>
    show (kwifimonNetStop a k).2.kwifimonStats = _
    unfold kwifimonNetStop
    split <;> rfl

theorem shown_draw (x : Counter) (l : Line) (s : Session) :
    shown x (s.draw l) = shown x s + l.count x := by
  simp [shown, Session.draw]

/-- The keys move the counters to the screen and lose nothing. -/
theorem total_onKeys (x : Counter) {c : Config} {p : Pass} {input : UInt32} {s : Session}
    (h : input &&& c.keys.mask .triangle ≠ 0 → p.Delivers) :
    (onKeys c p input s).total x = s.total x := by
  refine onKeys_induction (P := fun s' => s'.total x = s.total x) rfl ?_ ?_ ?_ ?_
  · intro hpressed s' hs'
    obtain ⟨hlock, hcopy⟩ := h hpressed
    have hreceived : (kwifimonModStats 1 p.stats s'.mod.k).received =
        some s'.mod.k.kwifimonStats := by
      rw [kwifimonModStats, if_pos hlock, if_pos hcopy]
    have hzero : (kwifimonModStats 1 p.stats s'.mod.k).state.kwifimonStats = .zero := by
      rw [kwifimonModStats, if_pos hlock]
      rfl
    have hget : (x.get .zero).toNat = 0 := by
      cases x <;> rfl
    rw [← hs', Session.total, Session.total, onTriangle, shown_draw, hreceived]
    show _ + _ + (x.get (kwifimonModStats 1 p.stats s'.mod.k).state.kwifimonStats).toNat = _
    rw [hzero, hget]
    rfl
  · intro s' hs'
    rw [← hs', Session.total, onSquare, shown_draw]
    rfl
  · intro s' hs'
    have hstats : (kwifimonCapStart p.capStart s'.mod.k).2.kwifimonStats =
        s'.mod.k.kwifimonStats := stats_recOp s'.mod.k (.capStart p.capStart)
    rw [← hs', Session.total, onLeft, shown_draw]
    show _ + _ + (x.get (kwifimonCapStart p.capStart s'.mod.k).2.kwifimonStats).toNat = _
    rw [hstats]
    rfl
  · intro s' hs'
    have hstats : (kwifimonCapStop p.capStop s'.mod.k).2.kwifimonStats =
        s'.mod.k.kwifimonStats := stats_recOp s'.mod.k (.capStop p.capStop)
    rw [← hs', Session.total, onRight, shown_draw]
    show _ + _ + (x.get (kwifimonCapStop p.capStop s'.mod.k).2.kwifimonStats).toNat = _
    rw [hstats]
    rfl

/-! ## Between the loops, and before a pass -/

section

variable (c : Config) (p : Pass) (s : Session)

theorem mutex_onKeys (input : UInt32) :
    (onKeys c p input s).mod.mutexDeleted = s.mod.mutexDeleted :=
  onKeys_induction (P := fun s' => s'.mod.mutexDeleted = s.mod.mutexDeleted) rfl
    (fun _ _ h => h) (fun _ h => h) (fun _ h => h) fun _ h => h

theorem leave_mod : (leave c s).mod = if c.Unloads then (moduleStop s.mod).2 else s.mod := by
  have hunloads : c.Unloads ↔ 0 < c.loading.kmod ∧ c.unloading.stops = true := Iff.rfl
  unfold leave
  dsimp only
  by_cases hkmod : 0 < c.loading.kmod
  · simp only [hunloads, if_pos hkmod, and_iff_right hkmod]
    rfl
  · rw [if_neg hkmod, if_neg fun h => hkmod (hunloads.mp h).1]
    rfl

theorem total_leave (x : Counter) : (leave c s).total x = s.total x := by
  have hshown : shown x (leave c s) = shown x s := by
    unfold leave
    dsimp only
    split
    · exact (shown_draw x .pressO _).trans ((shown_draw x (.kernelUnload _) _).trans
        (shown_draw x (.userUnload _) s))
    · exact (shown_draw x .pressO _).trans (shown_draw x (.userUnload _) s)
  have hstats : (leave c s).mod.k.kwifimonStats = s.mod.k.kwifimonStats := by
    rw [leave_mod]
    split
    · rw [moduleStop_k]
      rfl
    · rfl
  rw [Session.total, hshown, hstats, Session.total]

/-- The packets that the hook counts before a pass: those it gets the mutex for, while it is
    there. -/
def countedIn : List RxArgs := if s.mod.mutexDeleted then [] else countedOf p.packets

theorem total_handled (x : Counter) :
    (handled c p s).total x ≡ s.total x + x.among (countedIn p s) [MOD 2 ^ 32] := by
  unfold handled countedIn
  split
  · exact Nat.ModEq.refl _
  · rw [Session.total, Session.total, Nat.add_assoc]
    exact (packets_get x c.orig p.packets s.mod.k).add_left _

theorem recorder_handled : recorder (handled c p s).mod.k = recorder s.mod.k := by
  unfold handled
  split
  · rfl
  · exact packets_recorder c.orig p.packets s.mod.k

theorem mutex_handled : (handled c p s).mod.mutexDeleted = s.mod.mutexDeleted := by
  unfold handled
  split <;> rfl

end

section

variable {c : Config} {p : Pass} {before after : Session} {keys : List Key}

theorem firmware_passCase {envs : Nat → Env} (hctl : c.ctl = stackControl envs)
    (h : PassCase c p before keys after) {m : UInt32 → UInt8}
    (hn : ∃ n, HasPrefix patches m before.fw.mem n) :
    ∃ n, HasPrefix patches m after.fw.mem n := by
  have hhandled := (handled_fields c p before).2.2.2
  rw [← hhandled] at hn
  cases h with
  | loop input =>
    refine onKeys_induction (P := fun s => ∃ n, HasPrefix patches m s.fw.mem n) hn
      (fun _ _ h => h) ?_ (fun _ h => h) fun _ h => h
    intro s ⟨n, hn⟩
    obtain ⟨n', -, hn', -⟩ : ∃ n', n ≤ n' ∧
        HasPrefix patches m (attempt envs patches s.fw (c.wlanIdx, p.frame)).mem n' ∧
          (0 ≤ attemptResult envs patches s.fw (c.wlanIdx, p.frame) →
            n' = (tableWords patches).length) :=
      attempt_hasPrefix tableOk_patches hn (c.wlanIdx, p.frame)
    refine ⟨n', ?_⟩
    show HasPrefix patches m (patchDo (util c.ctl c.wlanIdx p.frame) patches s.fw).2.mem n'
    rw [hctl]
    exact hn'
  | out =>
    rw [(leave_fields c _).2.2.2]
    exact hn
  | behind => exact hn

/-- Behind the first loop the app stays behind it, and acts on no press. -/
theorem behind_passCase (h : PassCase c p before keys after) (hne : before.phase ≠ .main) :
    keys = [] ∧ after.phase ≠ .main := by
  cases h with
  | loop _ hphase => exact absurd hphase hne
  | out hphase => exact absurd hphase hne
  | behind _ _ _ hstays => exact ⟨rfl, hstays⟩

theorem mutex_passCase (h : PassCase c p before keys after) :
    after.mod.mutexDeleted = (before.mod.mutexDeleted ||
      decide (before.phase = .main ∧ after.phase ≠ .main ∧ c.Unloads)) := by
  have hhandled := mutex_handled c p before
  cases h with
  | loop input hphase =>
    have hstill : (onKeys c p input { handled c p before with uiPadLast := p.pad }).phase = .main :=
      (onKeys_fields c p _ input).1.trans ((handled_fields c p before).1.trans hphase)
    rw [mutex_onKeys, hstill]
    simpa using hhandled
  | out hphase =>
    rw [leave_mod, (leave_fields c _).1]
    by_cases hkmod : c.Unloads
    · rw [if_pos hkmod, moduleStop_mutex]
      simp [hphase, hkmod]
    · rw [if_neg hkmod]
      simpa [hphase, hkmod] using hhandled
  | behind last phase hphase =>
    simpa [hphase] using hhandled

theorem recorder_passCase (h : PassCase c p before keys after) :
    recorder after.mod.k =
      if before.phase = .main ∧ after.phase ≠ .main ∧ c.Unloads then
        stopped ((keys.flatMap (keyOps p)).foldl RecOp.run (recorder before.mod.k))
      else (keys.flatMap (keyOps p)).foldl RecOp.run (recorder before.mod.k) := by
  have hhandled := recorder_handled c p before
  cases h with
  | loop input hphase =>
    have hstill : (onKeys c p input { handled c p before with uiPadLast := p.pad }).phase = .main :=
      (onKeys_fields c p _ input).1.trans ((handled_fields c p before).1.trans hphase)
    rw [recorder_onKeys, hstill, if_neg (by simp), ← hhandled]
  | out hphase =>
    rw [leave_mod, (leave_fields c _).1, ← hhandled]
    by_cases hkmod : c.Unloads
    · rw [if_pos hkmod, if_pos ⟨hphase, by decide, hkmod⟩, moduleStop_k]
      rfl
    · rw [if_neg hkmod, if_neg fun h => hkmod h.2.2]
      rfl
  | behind last phase hphase =>
    rw [if_neg fun h => hphase h.1]
    exact hhandled

theorem total_passCase (x : Counter) (h : PassCase c p before keys after)
    (hdelivers : .triangle ∈ keys → p.Delivers) :
    after.total x ≡ before.total x + x.among (countedIn p before) [MOD 2 ^ 32] := by
  have hhandled := total_handled c p before x
  cases h with
  | loop input =>
    rw [total_onKeys x fun hpressed => hdelivers (List.mem_filter.mpr
      ⟨by decide, decide_eq_true hpressed⟩)]
    exact hhandled
  | out =>
    rw [total_leave]
    exact hhandled
  | behind => exact hhandled

end

/-! ## Along a session -/

section Run

variable (c : Config) (passes : Nat → Pass) (s : Session)

/-- The calls of the recorder that the presses of the first `n` passes make. -/
def recorderOps (n : Nat) : List RecOp :=
  (List.range n).flatMap fun i => (acted c passes s i).flatMap (keyOps (passes i))

/-- The circle was pressed before pass `n`, and that unloads the plugin. -/
def Unloaded (n : Nat) : Prop := (∃ i < n, Pressed c passes s .circle i) ∧ c.Unloads

instance (n : Nat) : Decidable (Unloaded c passes s n) := inferInstanceAs (Decidable (_ ∧ _))

/-- The packets that come before the first `n` passes, while the module is loaded, and for which
    the hook gets the mutex. -/
def hooked (n : Nat) : List RxArgs :=
  (List.range n).flatMap fun i =>
    if Unloaded c passes s i then [] else countedOf (passes i).packets

theorem unloaded_iff (h : s.phase = .main) (n : Nat) :
    Unloaded c passes s n ↔ (session c passes s n).phase ≠ .main ∧ c.Unloads := by
  rw [Unloaded, Ne, session_main_iff c passes s h n]
  simp only [not_forall, not_not, exists_prop]

theorem session_firmware {envs : Nat → Env} (hctl : c.ctl = stackControl envs)
    (h : s.phase = .main) (n : Nat) :
    ∃ m, HasPrefix patches s.fw.mem (session c passes s n).fw.mem m := by
  induction n with
  | zero => exact ⟨0, Nat.zero_le _, rfl⟩
  | succ n ih =>
    exact firmware_passCase hctl (passCase c passes s h n) ih

theorem session_unloaded (h : s.phase = .main) (hloaded : s.mod.mutexDeleted = false) (n : Nat) :
    (session c passes s n).mod.mutexDeleted = decide (Unloaded c passes s n) := by
  rw [decide_eq_decide.mpr (unloaded_iff c passes s h n)]
  induction n with
  | zero =>
    have hmain : ¬ ((session c passes s 0).phase ≠ .main ∧ c.Unloads) := fun hu => hu.1 h
    exact hloaded.trans (decide_eq_false hmain).symm
  | succ n ih =>
    rw [mutex_passCase (passCase c passes s h n), ih, ← Bool.decide_or]
    refine decide_eq_decide.mpr ?_
    by_cases hmain : (session c passes s n).phase = .main
    · simp [hmain]
    · have hstays := (behind_passCase (passCase c passes s h n) hmain).2
      simp [hmain, hstays]

theorem session_recorder (h : s.phase = .main) (n : Nat) :
    recorder (session c passes s n).mod.k =
      if Unloaded c passes s n then
        stopped ((recorderOps c passes s n).foldl RecOp.run (recorder s.mod.k))
      else (recorderOps c passes s n).foldl RecOp.run (recorder s.mod.k) := by
  simp only [unloaded_iff c passes s h n]
  induction n with
  | zero =>
    have hmain : ¬ ((session c passes s 0).phase ≠ .main ∧ c.Unloads) := fun hu => hu.1 h
    exact (if_neg hmain).symm
  | succ n ih =>
    have hops : recorderOps c passes s (n + 1) = recorderOps c passes s n ++
        (acted c passes s n).flatMap (keyOps (passes n)) := by
      rw [recorderOps, List.range_succ, List.flatMap_append, List.flatMap_singleton]
      rfl
    rw [recorder_passCase (passCase c passes s h n), ih, hops, List.foldl_append]
    by_cases hmain : (session c passes s n).phase = .main
    · have hloaded : ¬ ((session c passes s n).phase ≠ .main ∧ c.Unloads) := fun hu => hu.1 hmain
      rw [if_neg hloaded]
      by_cases hu : (session c passes s (n + 1)).phase ≠ .main ∧ c.Unloads
      · rw [if_pos ⟨hmain, hu⟩, if_pos hu]
      · rw [if_neg fun h => hu h.2, if_neg hu]
    · obtain ⟨hnone, hstays⟩ := behind_passCase (passCase c passes s h n) hmain
      rw [if_neg fun h => hmain h.1, hnone, List.flatMap_nil, List.foldl_nil]
      by_cases hkmod : c.Unloads
      · rw [if_pos ⟨hmain, hkmod⟩, if_pos ⟨hstays, hkmod⟩, List.foldl_nil]
      · rw [if_neg fun hu => hkmod hu.2, if_neg fun hu => hkmod hu.2, List.foldl_nil]

/-- **What a session leaves.** Along every session that starts in the first loop with the module
    loaded, whatever the passes meet: where the system calls are those of `stackControl`, which
    get the lock and whose original handler leaves their buffers alone, with any accesses failing
    in the driver, the firmware is as it was but for the first words of the patch table, so that
    no entry is patched at a byte before the earlier entries are patched at all; the plugin is gone
    if and only if the circle was pressed, `kmod` is positive and the kernel stops the plugin for
    it; and file, socket and state word are where the presses of the two recording keys before
    that have brought them, closed and cleared if the plugin is gone, and left open as they are if
    not. -/
theorem session_state (h : s.phase = .main) (hloaded : s.mod.mutexDeleted = false) (n : Nat) :
    (∀ envs, c.ctl = stackControl envs →
        (∃ m, HasPrefix patches s.fw.mem (session c passes s n).fw.mem m) ∧
          EntriesInOrder patches s.fw.mem (session c passes s n).fw.mem) ∧
      ((session c passes s n).mod.mutexDeleted = true ↔ Unloaded c passes s n) ∧
      recorder (session c passes s n).mod.k =
        (if Unloaded c passes s n then
          stopped ((recorderOps c passes s n).foldl RecOp.run (recorder s.mod.k))
        else (recorderOps c passes s n).foldl RecOp.run (recorder s.mod.k)) := by
  refine ⟨fun envs hctl => ?_, ?_, session_recorder c passes s h n⟩
  · obtain ⟨m, hm⟩ := session_firmware c passes s hctl h n
    exact ⟨⟨m, hm⟩, entriesInOrder_of_prefix tableOk_patches hm⟩
  · rw [session_unloaded c passes s h hloaded n, decide_eq_true_iff]

/-- **The counters, from the hook to the screen.** Along every session that starts in the first
    loop with the module loaded, in which the numbers asked for arrive: what the lines show of a
    counter plus its value is, mod 2^32, what it was plus the packets counted for it until the
    plugin was gone. No packet is shown twice, and none is lost between two lines. -/
theorem session_counters (h : s.phase = .main) (hloaded : s.mod.mutexDeleted = false)
    (x : Counter) (n : Nat)
    (hdelivers : ∀ i < n, .triangle ∈ acted c passes s i → (passes i).Delivers) :
    (session c passes s n).total x ≡
      s.total x + x.among (hooked c passes s n) [MOD 2 ^ 32] := by
  induction n with
  | zero => exact Nat.ModEq.refl _
  | succ n ih =>
    have hcounted : countedIn (passes n) (session c passes s n) =
        if Unloaded c passes s n then [] else countedOf (passes n).packets := by
      rw [countedIn, session_unloaded c passes s h hloaded n]
      simp only [decide_eq_true_eq]
    have hhooked : hooked c passes s (n + 1) =
        hooked c passes s n ++ countedIn (passes n) (session c passes s n) := by
      rw [hooked, List.range_succ, List.flatMap_append, List.flatMap_singleton, hcounted]
      rfl
    have hbefore := ih fun i hi => hdelivers i (Nat.lt_succ_of_lt hi)
    have hpass := total_passCase x (passCase c passes s h n)
      (hdelivers n (Nat.lt_succ_self n))
    rw [hhooked, among_append, ← Nat.add_assoc]
    exact hpass.trans (hbefore.add_right _)

/-! ## The capture file -/

/-- Of the calls, the last `pcap_open` that got a file: how many bytes of the header it stored. -/
def headerStored (stored : Option Nat) : RecOp → Option Nat
  | .capStart a => if 0 ≤ a.lock ∧ 0 ≤ a.pcap.fd then some a.pcap.hdr.stored else stored
  | _ => stored

/-- The files, with so many bytes of the header in the capture file and nothing else. -/
def withHeader (disk : String → List UInt8) : Option Nat → String → List UInt8
  | none => disk
  | some n => Function.update disk "ux0:/data/test.cap" (Pcap.pcapHdrBytes.take n)

theorem disk_close (p : Pcap.PcapState) : (Pcap.pcapClose p).io.disk = p.io.disk := by
  unfold Pcap.pcapClose
  split <;> rfl

theorem disk_open (a : Pcap.OpenAns) (p : Pcap.PcapState) :
    (Pcap.pcapOpen "ux0:/data/test.cap" a p).2.io.disk =
      if 0 ≤ a.fd then withHeader p.io.disk (some a.hdr.stored) else p.io.disk := by
  have hold : (if 0 < p.pcapFd then Pcap.pcapClose p else p).io.disk = p.io.disk := by
    split
    · exact disk_close p
    · rfl
  unfold Pcap.pcapOpen
  dsimp only
  generalize (if 0 < p.pcapFd then Pcap.pcapClose p else p).io = io at hold
  by_cases hfd : a.fd < 0
  · rw [if_pos hfd, if_neg (Int.not_le.mpr hfd)]
    simpa [Pcap.ioOpen, Int.not_le.mpr hfd] using hold
  · have hnonneg : 0 ≤ a.fd := Int.not_lt.mp hfd
    have hwritten : (Pcap.ioWrite a.fd Pcap.pcapHdrBytes a.hdr
        (Pcap.ioOpen "ux0:/data/test.cap" a.fd io)).disk =
        withHeader p.io.disk (some a.hdr.stored) := by
      simp [Pcap.ioWrite, Pcap.ioOpen, hnonneg, withHeader, hold]
    rw [if_neg hfd, if_pos hnonneg]
    split
    · exact (disk_close _).trans hwritten
    · exact hwritten

theorem disk_recOp (k : KState) (op : RecOp) {disk : String → List UInt8} {stored : Option Nat}
    (h : k.pcap.io.disk = withHeader disk stored) :
    (op.run k).pcap.io.disk = withHeader disk (headerStored stored op) := by
  cases op with
  | capStart a =>
    by_cases hl : 0 ≤ a.lock
    · rw [capStart_pcap a k hl, disk_open, h, headerStored]
      by_cases hfd : 0 ≤ a.pcap.fd
      · rw [if_pos hfd, if_pos ⟨hl, hfd⟩]
        cases stored with
        | none => rfl
        | some n => exact Function.update_idem ..
      · rw [if_neg hfd, if_neg fun h => hfd h.2]
    · rw [headerStored, if_neg fun h => hl h.1, ← h]
      exact congrArg (fun r : Int × KState => r.2.pcap.io.disk) (if_neg hl)
  | capStop a =>
    show (kwifimonCapStop a k).2.pcap.io.disk = _
    unfold kwifimonCapStop
    split
    · exact (disk_close k.pcap).trans h
    · exact h
  | netStart a =>
    rw [recOp_net_pcap k (.netStart a) trivial]
    exact h
  | netStop a =>
    rw [recOp_net_pcap k (.netStop a) trivial]
    exact h

theorem disk_recOps (ops : List RecOp) (k : KState) {disk : String → List UInt8}
    {stored : Option Nat} (h : k.pcap.io.disk = withHeader disk stored) :
    (ops.foldl RecOp.run k).pcap.io.disk = withHeader disk (ops.foldl headerStored stored) := by
  induction ops generalizing k stored with
  | nil => exact h
  | cons op ops ih => exact ih _ (disk_recOp k op h)

/-- **The capture file.** Along every session that starts in the first loop, whatever packets come
    and whatever the passes meet: of all files only the capture file changes, and it holds what
    the last press of the left key that got a file stored of the file header. No packet is ever
    recorded. -/
theorem session_capture (h : s.phase = .main) (n : Nat) :
    (session c passes s n).mod.k.pcap.io.disk =
      withHeader s.mod.k.pcap.io.disk ((recorderOps c passes s n).foldl headerStored none) := by
  have hrecorder := congrArg (fun k : KState => k.pcap.io.disk) (session_recorder c passes s h n)
  have hstart : (recorder s.mod.k).pcap.io.disk = withHeader s.mod.k.pcap.io.disk none := rfl
  have hdisk := disk_recOps (recorderOps c passes s n) (recorder s.mod.k) hstart
  refine Eq.trans hrecorder ?_
  split
  · exact (disk_close _).trans hdisk
  · exact hdisk

end Run

/-- The left key and the square come down together, and the circle behind them: the file is closed,
    and the firmware patched in order. -/
theorem session_state_closed :
    (session freshConfig (fun n => quietPass (if n = 0 then 0x8080 else 0x2000)) freshSession
        2).mod.k.pcap.pcapFd = -1 ∧
      EntriesInOrder patches unpatched (session freshConfig
        (fun n => quietPass (if n = 0 then 0x8080 else 0x2000)) freshSession 2).fw.mem := by
  obtain ⟨hfirmware, -, hrecorder⟩ := session_state freshConfig
    (fun n => quietPass (if n = 0 then 0x8080 else 0x2000)) freshSession rfl rfl 2
  refine ⟨?_, (hfirmware (failsAccess 26) rfl).2⟩
  have hfd := congrArg (fun k : KState => k.pcap.pcapFd) hrecorder
  refine Eq.trans hfd ?_
  decide

/-- A beacon comes while a capture runs: the file is the header. -/
theorem session_capture_beacon :
    (session freshConfig (fun n => { quietPass (if n = 0 then 0x0080 else 0) with
      packets := [(⟨0, 0⟩, beacon)] }) freshSession 2).mod.k.pcap.io.disk "ux0:/data/test.cap" =
        Pcap.pcapHdrBytes := by
  have hcapture := congrFun (session_capture freshConfig (fun n => { quietPass
    (if n = 0 then 0x0080 else 0) with packets := [(⟨0, 0⟩, beacon)] }) freshSession rfl 2)
    "ux0:/data/test.cap"
  refine Eq.trans hcapture ?_
  decide

/-- A beacon comes before each pass; the numbers are asked for at the second. -/
theorem session_counters_beacons :
    (session freshConfig (fun n => { quietPass (if n = 1 then 0x1000 else 0) with
      packets := [(⟨0, 0⟩, beacon)] }) freshSession 3).total .mgmt ≡ 3 [MOD 2 ^ 32] := by
  have hcounters := session_counters freshConfig (fun n => { quietPass
    (if n = 1 then 0x1000 else 0) with packets := [(⟨0, 0⟩, beacon)] }) freshSession rfl rfl
    .mgmt 3 fun _ _ _ => ⟨Int.le_refl 0, Int.le_refl 0⟩
  exact hcounters

end Wifimon.App
