/-
  A session of the app: `src/app/main.c` and `src/app/ui.c` over the plugin and the firmware.

  A pass (`Pass`) is one reading of the buttons in one of the two loops of `main`, with what the
  calls of the pass are answered and the packets that the hook handles before it. `step` is a pass
  in the phase the app is in; `leave` is what stands between the loops: the modules are to be
  unloaded, and the plugin is stopped if the kernel does so (`Unloading`). The texts of the lines
  and the drawing itself are left out.

  `session_presses`: the app is in its first loop until the circle is pressed, and ends when it is
  pressed again; the lines it draws are the presses of the four other keys in the first loop, each
  hold of a key counting once. What a session leaves of the firmware, of the packet counters and
  of the capture file is in `SessionState`.
-/
import Wifimon.Lib.Edges
import Wifimon.App.Stack
import Wifimon.Kplugin.ModuleStop
import Wifimon.Kplugin.Stats

namespace Wifimon.App

open ByteLib Kplugin EdgeLib

/-! ## Input -/

inductive Key where
  | circle | triangle | square | left | right
  deriving DecidableEq

/-- The button masks `SCE_CTRL_CIRCLE` and so on: one bit each. -/
structure Keys where
  mask : Key → UInt32
  single : ∀ key, ∃ k < 32, (mask key).toNat = 2 ^ k

/-- The buttons that are down and were not, and `ui_pad_last`. -/
def uiGetInput (pad uiPadLast : UInt32) : UInt32 × UInt32 := (pad &&& ~~~uiPadLast, pad)

/-! ## The session -/

/-- A line on the screen; its numbers are those drawn. -/
inductive Line where
  | stats (ret : Int) (s : WifimonStats)
  | patching (ret : Int)
  | startRecording
  | stopRecording
  | userUnload (ret : Int)
  | kernelUnload (ret : Int)
  | pressO
  deriving DecidableEq

/-- What a pass meets. `junk` is what the variable `s` of `main` holds before the call. -/
structure Pass where
  pad : UInt32
  packets : List (LockAns × RxArgs)
  stats : ModStatsAns
  junk : WifimonStats
  frame : Mem
  capStart : CapStartAns
  capStop : LockAns

inductive Phase where
  | main | waiting | exited
  deriving DecidableEq

structure Session where
  phase : Phase
  uiPadLast : UInt32
  y : Int
  mod : ModState
  fw : Firmware
  drawn : List (Int × Line)

/-- How `main` comes to its variable `kmod`: what `_vshKernelSearchModuleByName` and
    `taiLoadStartKernelModule` answer, and what the variable holds before. -/
structure Loading where
  modid : Int
  load : Int
  junk : Int

/-- A module that was loaded already leaves the variable without a meaning. -/
def Loading.kmod (l : Loading) : Int := if l.modid < 0 then l.load else l.junk

/-- The answers of `sceKernelStopUnloadModule` and `taiStopUnloadKernelModule`, and whether the
    plugin was stopped by the latter. -/
structure Unloading where
  user : Int
  kernel : Int
  stops : Bool

/-- What stays the same during a session: the buttons, the system call under `util.c`, the
    interface, the handler behind the hook, and what loading and unloading meet. -/
structure Config where
  keys : Keys
  ctl : SyscallControl Firmware
  wlanIdx : Int
  orig : RxArgs → Int
  loading : Loading
  unloading : Unloading

/-- The plugin is asked for by its id, and stops. -/
def Config.Unloads (c : Config) : Prop := 0 < c.loading.kmod ∧ c.unloading.stops = true

instance (c : Config) : Decidable c.Unloads := inferInstanceAs (Decidable (_ ∧ _))

def Session.draw (l : Line) (s : Session) : Session :=
  { s with drawn := s.drawn ++ [(s.y, l)], y := s.y + 10 }

def Session.setK (k : KState) (s : Session) : Session := { s with mod := { s.mod with k := k } }

def onTriangle (p : Pass) (s : Session) : Session :=
  let r := kwifimonModStats 1 p.stats s.mod.k
  (s.setK r.state).draw (.stats r.ret (r.received.getD p.junk))

def onSquare (c : Config) (p : Pass) (s : Session) : Session :=
  let r := patchDo (util c.ctl c.wlanIdx p.frame) patches s.fw
  { s with fw := r.2 }.draw (.patching r.1)

def onLeft (p : Pass) (s : Session) : Session :=
  (s.setK (kwifimonCapStart p.capStart s.mod.k).2).draw .startRecording

def onRight (p : Pass) (s : Session) : Session :=
  (s.setK (kwifimonCapStop p.capStop s.mod.k).2).draw .stopRecording

/-- The part of a pass behind the test for the circle. -/
def onKeys (c : Config) (p : Pass) (input : UInt32) (s : Session) : Session :=
  let s := if input &&& c.keys.mask .triangle ≠ 0 then onTriangle p s else s
  let s := if input &&& c.keys.mask .square ≠ 0 then onSquare c p s else s
  let s := if input &&& c.keys.mask .left ≠ 0 then onLeft p s else s
  if input &&& c.keys.mask .right ≠ 0 then onRight p s else s

/-- Between the loops: the modules are to be unloaded, the kernel's only with a positive `kmod`. -/
def leave (c : Config) (s : Session) : Session :=
  let s := s.draw (.userUnload c.unloading.user)
  let s :=
    if 0 < c.loading.kmod then
      { s with mod := if c.unloading.stops then (moduleStop s.mod).2 else s.mod }.draw
        (.kernelUnload c.unloading.kernel)
    else s
  { s.draw .pressO with phase := .waiting }

/-- The hook, while it is there, on the packets that come before a pass. -/
def handled (c : Config) (p : Pass) (s : Session) : Session :=
  if s.mod.mutexDeleted then s
  else s.setK (p.packets.foldl (fun k p => (kwifimonProcessRespose c.orig p.1 p.2 k).state) s.mod.k)

def step (c : Config) (s : Session) (p : Pass) : Session :=
  let s := handled c p s
  let i := uiGetInput p.pad s.uiPadLast
  match s.phase with
  | .main =>
    let s := { s with uiPadLast := i.2 }
    if i.1 &&& c.keys.mask .circle ≠ 0 then leave c s else onKeys c p i.1 s
  | .waiting =>
    let s := { s with uiPadLast := i.2 }
    if i.1 &&& c.keys.mask .circle ≠ 0 then { s with phase := .exited } else s
  | .exited => s

/-- The session after the first `n` passes. -/
def session (c : Config) (passes : Nat → Pass) (s : Session) : Nat → Session
  | 0 => s
  | n + 1 => step c (session c passes s n) (passes n)

/-! ## Presses -/

/-- The key is down. -/
def Keys.held (keys : Keys) (key : Key) (pad : UInt32) : Bool := decide (pad &&& keys.mask key ≠ 0)

theorem and_mask_ne_zero {m : UInt32} {k : Nat} (hm : m.toNat = 2 ^ k) (x : UInt32) :
    x &&& m ≠ 0 ↔ x.toNat.testBit k = true := by
  have hzero : x &&& m = 0 ↔ (x &&& m).toNat = 0 :=
    ⟨fun h => by rw [h]; rfl, fun h => UInt32.toNat_inj.mp h⟩
  rw [Ne, hzero, UInt32.toNat_and, hm, Nat.and_two_pow]
  cases x.toNat.testBit k <;> simp

/-- A key is in the input if it is down and was not. -/
theorem input_iff (keys : Keys) (key : Key) (pad last : UInt32) :
    (uiGetInput pad last).1 &&& keys.mask key ≠ 0 ↔
      keys.held key pad = true ∧ keys.held key last = false := by
  obtain ⟨k, hk, hm⟩ := keys.single key
  rw [Keys.held, Keys.held, decide_eq_true_iff, decide_eq_false_iff_not, and_mask_ne_zero hm,
    and_mask_ne_zero hm, and_mask_ne_zero hm]
  have hnot : (~~~last).toNat.testBit k = !last.toNat.testBit k := by
    have hsub : (~~~last).toNat = 2 ^ 32 - (last.toNat + 1) := by
      rw [UInt32.toNat_not, Nat.sub_sub, Nat.add_comm]
      rfl
    rw [hsub, Nat.testBit_two_pow_sub_succ last.toNat_lt, decide_eq_true hk, Bool.true_and]
  rw [uiGetInput, UInt32.toNat_and, Nat.testBit_and, hnot]
  simp

section Presses

variable (c : Config) (passes : Nat → Pass) (s : Session)

/-- The key is pressed in pass `i`: it is down and was not in the pass before. -/
def Pressed (key : Key) (i : Nat) : Prop :=
  FiresAt (c.keys.held key s.uiPadLast) (fun i => c.keys.held key (passes i).pad) i

instance (key : Key) (i : Nat) : Decidable (Pressed c passes s key i) :=
  inferInstanceAs (Decidable (FiresAt _ _ _))

/-- The app is still in the first loop behind pass `i`. -/
def Runs (i : Nat) : Prop := ∀ j ≤ i, ¬ Pressed c passes s .circle j

instance (i : Nat) : Decidable (Runs c passes s i) :=
  decidable_of_iff (∀ j < i + 1, ¬ Pressed c passes s .circle j)
    ⟨fun h j hj => h j (Nat.lt_succ_of_le hj), fun h j hj => h j (Nat.le_of_lt_succ hj)⟩

end Presses

/-- The keys that a line stands for. -/
def Line.key : Line → Option Key
  | .stats .. => some .triangle
  | .patching _ => some .square
  | .startRecording => some .left
  | .stopRecording => some .right
  | _ => none

/-- The keys of the lines drawn, in order. -/
def Session.keys (s : Session) : List Key := s.drawn.filterMap fun l => l.2.key

/-- The keys of the first loop, in the order of its tests. -/
def loopKeys : List Key := [.triangle, .square, .left, .right]

@[simp] theorem keys_draw (l : Line) (s : Session) : (s.draw l).keys = s.keys ++ l.key.toList := by
  rw [Session.keys, Session.draw, List.filterMap_append]
  cases h : l.key <;> simp [h, Session.keys]

theorem keys_onKeys (c : Config) (p : Pass) (input : UInt32) (s : Session) :
    (onKeys c p input s).keys =
      s.keys ++ loopKeys.filter fun key => decide (input &&& c.keys.mask key ≠ 0) := by
  have htriangle : (onTriangle p s).keys = s.keys ++ [.triangle] := keys_draw ..
  have hsquare : ∀ s, (onSquare c p s).keys = s.keys ++ [.square] := fun s => keys_draw ..
  have hleft : ∀ s, (onLeft p s).keys = s.keys ++ [.left] := fun s => keys_draw ..
  have hright : ∀ s, (onRight p s).keys = s.keys ++ [.right] := fun s => keys_draw ..
  unfold onKeys loopKeys
  dsimp only
  simp only [apply_ite Session.keys, htriangle, hsquare, hleft, hright, List.filter_cons,
    List.filter_nil, decide_eq_true_eq]
  split <;> split <;> split <;> split <;> simp

/-! ## One pass -/

section Fields

variable (c : Config) (p : Pass) (s : Session)

theorem handled_fields : (handled c p s).phase = s.phase ∧
    (handled c p s).uiPadLast = s.uiPadLast ∧ (handled c p s).drawn = s.drawn ∧
    (handled c p s).fw = s.fw := by
  unfold handled
  split <;> exact ⟨rfl, rfl, rfl, rfl⟩

/-- What the actions of the keys in the input keep, the pass keeps. -/
theorem onKeys_induction {P : Session → Prop} {c : Config} {p : Pass} {input : UInt32}
    {s : Session} (h : P s)
    (htriangle : input &&& c.keys.mask .triangle ≠ 0 → ∀ s, P s → P (onTriangle p s))
    (hsquare : ∀ s, P s → P (onSquare c p s)) (hleft : ∀ s, P s → P (onLeft p s))
    (hright : ∀ s, P s → P (onRight p s)) : P (onKeys c p input s) := by
  have hif : ∀ (b : Prop) [Decidable b] (f : Session → Session), (b → ∀ s, P s → P (f s)) →
      ∀ s, P s → P (if b then f s else s) := by
    intro b _ f hf s hs
    by_cases hb : b
    · rw [if_pos hb]
      exact hf hb s hs
    · rw [if_neg hb]
      exact hs
  exact hif _ _ (fun _ => hright) _ (hif _ _ (fun _ => hleft) _
    (hif _ _ (fun _ => hsquare) _ (hif _ _ htriangle _ h)))

theorem onKeys_fields (input : UInt32) : (onKeys c p input s).phase = s.phase ∧
    (onKeys c p input s).uiPadLast = s.uiPadLast :=
  onKeys_induction (P := fun s' => s'.phase = s.phase ∧ s'.uiPadLast = s.uiPadLast) ⟨rfl, rfl⟩
    (fun _ _ h => h) (fun _ h => h) (fun _ h => h) fun _ h => h

theorem leave_fields : (leave c s).phase = .waiting ∧ (leave c s).uiPadLast = s.uiPadLast ∧
    (leave c s).keys = s.keys ∧ (leave c s).fw = s.fw := by
  have hkeys : ∀ s : Session, { s.draw .pressO with phase := .waiting }.keys = s.keys :=
    fun s => (keys_draw .pressO s).trans (List.append_nil _)
  unfold leave
  dsimp only
  split
  · exact ⟨rfl, rfl, (hkeys _).trans ((keys_draw ..).trans ((List.append_nil _).trans
      ((keys_draw (.userUnload _) s).trans (List.append_nil _)))), rfl⟩
  · exact ⟨rfl, rfl, (hkeys _).trans ((keys_draw (.userUnload _) s).trans (List.append_nil _)),
      rfl⟩

/-- A pass, by phase. -/
theorem step_main (h : s.phase = .main) : step c s p =
    if (uiGetInput p.pad s.uiPadLast).1 &&& c.keys.mask .circle ≠ 0 then
      leave c { handled c p s with uiPadLast := p.pad }
    else onKeys c p (uiGetInput p.pad s.uiPadLast).1 { handled c p s with uiPadLast := p.pad } := by
  obtain ⟨hphase, hlast, -, -⟩ := handled_fields c p s
  unfold step
  dsimp only
  rw [hphase, h, hlast]
  rfl

theorem step_waiting (h : s.phase = .waiting) : step c s p =
    if (uiGetInput p.pad s.uiPadLast).1 &&& c.keys.mask .circle ≠ 0 then
      { handled c p s with uiPadLast := p.pad, phase := .exited }
    else { handled c p s with uiPadLast := p.pad } := by
  obtain ⟨hphase, hlast, -, -⟩ := handled_fields c p s
  unfold step
  dsimp only
  rw [hphase, h, hlast]
  rfl

theorem step_exited (h : s.phase = .exited) : step c s p = handled c p s := by
  obtain ⟨hphase, -, -, -⟩ := handled_fields c p s
  unfold step
  dsimp only
  rw [hphase, h]

end Fields

/-! ## Presses along a session -/

section Run

variable (c : Config) (passes : Nat → Pass) (s : Session)

/-- The buttons of the pass before. -/
theorem session_last (key : Key) (n : Nat) (h : (session c passes s n).phase ≠ .exited) :
    c.keys.held key (session c passes s n).uiPadLast = before (c.keys.held key s.uiPadLast)
      (fun i => c.keys.held key (passes i).pad) n := by
  cases n with
  | zero => rfl
  | succ n =>
    have hpad : (step c (session c passes s n) (passes n)).uiPadLast = (passes n).pad := by
      cases hphase : (session c passes s n).phase with
      | main =>
        rw [step_main c _ _ hphase]
        split
        · exact (leave_fields c _).2.1
        · exact (onKeys_fields c _ _ _).2
      | waiting =>
        rw [step_waiting c _ _ hphase]
        split <;> rfl
      | exited =>
        have hstay : (session c passes s (n + 1)).phase = .exited := by
          show (step c _ _).phase = _
          rw [step_exited c _ _ hphase, (handled_fields c _ _).1, hphase]
        exact absurd hstay h
    show c.keys.held key (step c (session c passes s n) (passes n)).uiPadLast = _
    rw [hpad]
    rfl

/-- The input of a pass has the keys that are pressed in it. -/
theorem session_input (key : Key) (n : Nat) (h : (session c passes s n).phase ≠ .exited) :
    (uiGetInput (passes n).pad (session c passes s n).uiPadLast).1 &&& c.keys.mask key ≠ 0 ↔
      Pressed c passes s key n := by
  rw [input_iff, session_last c passes s key n h]
  rfl

/-- The phase after `n` passes counts the presses of the circle, up to two. -/
def PhaseAfter (n : Nat) : Phase → Prop
  | .main => ∀ i < n, ¬ Pressed c passes s .circle i
  | .waiting => ∃ i < n, Pressed c passes s .circle i ∧
      ∀ j < n, Pressed c passes s .circle j → j = i
  | .exited => ∃ i j, i < j ∧ j < n ∧ Pressed c passes s .circle i ∧ Pressed c passes s .circle j

theorem session_phase (h : s.phase = .main) (n : Nat) :
    PhaseAfter c passes s n (session c passes s n).phase := by
  induction n with
  | zero =>
    show PhaseAfter c passes s 0 s.phase
    rw [h]
    exact fun i hi => absurd hi (Nat.not_lt_zero i)
  | succ n ih =>
    have hinput := session_input c passes s .circle n
    show PhaseAfter c passes s (n + 1) (step c (session c passes s n) (passes n)).phase
    cases hphase : (session c passes s n).phase with
    | main =>
      rw [hphase] at ih hinput
      rw [step_main c _ _ hphase]
      by_cases hp : Pressed c passes s .circle n
      · rw [if_pos ((hinput (by decide)).mpr hp), (leave_fields c _).1]
        refine ⟨n, Nat.lt_succ_self n, hp, fun j hj hpj => ?_⟩
        by_contra hne
        exact ih j (by omega) hpj
      · rw [if_neg (fun h => hp ((hinput (by decide)).mp h)), (onKeys_fields c _ _ _).1]
        show PhaseAfter c passes s (n + 1) (handled c _ _).phase
        rw [(handled_fields c _ _).1, hphase]
        intro i hi hpi
        rcases Nat.lt_succ_iff_lt_or_eq.mp hi with hlt | rfl
        · exact ih i hlt hpi
        · exact hp hpi
    | waiting =>
      rw [hphase] at ih hinput
      obtain ⟨i, hi, hpi, honly⟩ := ih
      rw [step_waiting c _ _ hphase]
      by_cases hp : Pressed c passes s .circle n
      · rw [if_pos ((hinput (by decide)).mpr hp)]
        exact ⟨i, n, hi, Nat.lt_succ_self n, hpi, hp⟩
      · rw [if_neg (fun h => hp ((hinput (by decide)).mp h))]
        show PhaseAfter c passes s (n + 1) (handled c _ _).phase
        rw [(handled_fields c _ _).1, hphase]
        refine ⟨i, Nat.lt_succ_of_lt hi, hpi, fun j hj hpj => ?_⟩
        rcases Nat.lt_succ_iff_lt_or_eq.mp hj with hlt | rfl
        · exact honly j hlt hpj
        · exact absurd hpj hp
    | exited =>
      rw [hphase] at ih
      rw [step_exited c _ _ hphase, (handled_fields c _ _).1, hphase]
      obtain ⟨i, j, hij, hj, hp⟩ := ih
      exact ⟨i, j, hij, Nat.lt_succ_of_lt hj, hp⟩

/-- Being in the first loop is having seen no press of the circle. -/
theorem session_main_iff (h : s.phase = .main) (n : Nat) :
    (session c passes s n).phase = .main ↔ ∀ i < n, ¬ Pressed c passes s .circle i := by
  have hafter := session_phase c passes s h n
  constructor
  · intro hmain
    rw [hmain] at hafter
    exact hafter
  · intro hnone
    cases hphase : (session c passes s n).phase with
    | main => rfl
    | waiting =>
      rw [hphase] at hafter
      obtain ⟨i, hi, hp, -⟩ := hafter
      exact absurd hp (hnone i hi)
    | exited =>
      rw [hphase] at hafter
      obtain ⟨i, j, hij, hj, hp, -⟩ := hafter
      exact absurd hp (hnone i (by omega))

theorem session_exited_iff (h : s.phase = .main) (n : Nat) :
    (session c passes s n).phase = .exited ↔
      ∃ i j, i < j ∧ j < n ∧ Pressed c passes s .circle i ∧ Pressed c passes s .circle j := by
  have hafter := session_phase c passes s h n
  constructor
  · intro hexited
    rw [hexited] at hafter
    exact hafter
  · rintro ⟨i, j, hij, hj, hpi, hpj⟩
    cases hphase : (session c passes s n).phase with
    | main =>
      rw [hphase] at hafter
      exact absurd hpj (hafter j hj)
    | waiting =>
      rw [hphase] at hafter
      obtain ⟨k, -, -, honly⟩ := hafter
      have := honly i (by omega) hpi
      have := honly j hj hpj
      omega
    | exited => rfl

/-- The presses that the first loop acts on in pass `i`. -/
def acted (i : Nat) : List Key :=
  if Runs c passes s i then loopKeys.filter fun key => decide (Pressed c passes s key i) else []

/-- What a pass makes of a session, and the presses it acts on. -/
inductive PassCase (p : Pass) (before : Session) : List Key → Session → Prop where
  /-- The first loop without a press of the circle. -/
  | loop (input : UInt32) (hphase : before.phase = .main) :
      PassCase p before (loopKeys.filter fun key => decide (input &&& c.keys.mask key ≠ 0))
        (onKeys c p input { handled c p before with uiPadLast := p.pad })
  /-- The first loop with it. -/
  | out (hphase : before.phase = .main) :
      PassCase p before [] (leave c { handled c p before with uiPadLast := p.pad })
  /-- Behind the first loop. -/
  | behind (last : UInt32) (phase : Phase) (hphase : before.phase ≠ .main)
      (hstays : phase ≠ .main) :
      PassCase p before [] { handled c p before with uiPadLast := last, phase := phase }

theorem passCase (h : s.phase = .main) (n : Nat) :
    PassCase c (passes n) (session c passes s n) (acted c passes s n)
      (session c passes s (n + 1)) := by
  have hmain := session_main_iff c passes s h n
  have hout : (session c passes s n).phase ≠ .main → acted c passes s n = [] := fun hne =>
    if_neg fun hruns => hne (hmain.mpr fun i hi => hruns i (Nat.le_of_lt hi))
  show PassCase c _ _ _ (step c (session c passes s n) (passes n))
  cases hphase : (session c passes s n).phase with
  | main =>
    have hinput : ∀ key, (uiGetInput (passes n).pad (session c passes s n).uiPadLast).1 &&&
        c.keys.mask key ≠ 0 ↔ Pressed c passes s key n :=
      fun key => session_input c passes s key n (by rw [hphase]; decide)
    rw [step_main c _ _ hphase]
    by_cases hp : Pressed c passes s .circle n
    · rw [if_pos ((hinput .circle).mpr hp), acted, if_neg fun hruns => hruns n (Nat.le_refl n) hp]
      exact .out hphase
    · have hruns : Runs c passes s n := by
        intro i hi
        rcases Nat.lt_or_eq_of_le hi with hlt | rfl
        · exact hmain.mp hphase i hlt
        · exact hp
      rw [if_neg (fun h => hp ((hinput .circle).mp h)), acted, if_pos hruns]
      simp only [← hinput]
      exact .loop _ hphase
  | waiting =>
    have hne : (session c passes s n).phase ≠ .main := by rw [hphase]; decide
    rw [hout hne, step_waiting c _ _ hphase]
    split
    · exact .behind _ .exited hne (by decide)
    · have hstill : (handled c (passes n) (session c passes s n)).phase ≠ .main := by
        rwa [(handled_fields c _ _).1]
      exact .behind _ _ hne hstill
  | exited =>
    have hne : (session c passes s n).phase ≠ .main := by rw [hphase]; decide
    have hstill : (handled c (passes n) (session c passes s n)).phase ≠ .main := by
      rwa [(handled_fields c _ _).1]
    rw [hout hne, step_exited c _ _ hphase]
    exact .behind (handled c (passes n) (session c passes s n)).uiPadLast _ hne hstill

theorem keys_passCase {p : Pass} {before after : Session} {keys : List Key}
    (h : PassCase c p before keys after) : after.keys = before.keys ++ keys := by
  have hhandled : ∀ last phase, Session.keys { handled c p before with
      uiPadLast := last, phase := phase } = before.keys := fun _ _ =>
    congrArg (List.filterMap fun l : Int × Line => l.2.key) (handled_fields c _ _).2.2.1
  cases h with
  | loop input => exact (keys_onKeys ..).trans (congrArg (· ++ _) (hhandled _ _))
  | out =>
    rw [(leave_fields c _).2.2.1, List.append_nil]
    exact hhandled _ _
  | behind => rw [hhandled, List.append_nil]

theorem session_keys (h : s.phase = .main) (n : Nat) :
    (session c passes s n).keys = s.keys ++ (List.range n).flatMap (acted c passes s) := by
  induction n with
  | zero => exact (List.append_nil _).symm
  | succ n ih =>
    rw [keys_passCase c (passCase c passes s h n), ih, List.append_assoc, List.range_succ,
      List.flatMap_append, List.flatMap_singleton]

/-- **The buttons.** Along every session that starts in the first loop, whatever the passes meet:
    the app is in its first loop until the circle is pressed and ends when it is pressed a second
    time, after it was up; the lines drawn are the presses of the other keys before that, in the
    order of the passes and of the tests of the loop; between two lines of a key the key was up,
    and a key that comes down in the first loop has its line. -/
theorem session_presses (h : s.phase = .main) (n : Nat) :
    ((session c passes s n).phase = .main ↔ ∀ i < n, ¬ Pressed c passes s .circle i) ∧
      ((session c passes s n).phase = .exited ↔ ∃ i k j, i < k ∧ k < j ∧ j < n ∧
        Pressed c passes s .circle i ∧ c.keys.held .circle (passes k).pad = false ∧
        Pressed c passes s .circle j) ∧
      (session c passes s n).keys = s.keys ++ (List.range n).flatMap (acted c passes s) ∧
      (∀ key i j, i < j → key ∈ acted c passes s i → key ∈ acted c passes s j →
        ∃ k, i < k ∧ k < j ∧ c.keys.held key (passes k).pad = false) ∧
      ∀ key ∈ loopKeys, ∀ i j, i < j → c.keys.held key (passes i).pad = false →
        c.keys.held key (passes j).pad = true → Runs c passes s j →
        ∃ k, i < k ∧ k ≤ j ∧ key ∈ acted c passes s k := by
  have hacted : ∀ {key i}, key ∈ acted c passes s i → Pressed c passes s key i := by
    intro key i hkey
    rw [acted] at hkey
    split at hkey
    · exact of_decide_eq_true (List.mem_filter.mp hkey).2
    · cases hkey
  refine ⟨session_main_iff c passes s h n, ?_, session_keys c passes s h n, ?_, ?_⟩
  · rw [session_exited_iff c passes s h n]
    constructor
    · rintro ⟨i, j, hij, hj, hpi, hpj⟩
      obtain ⟨k, hik, hkj, hup⟩ := FiresAt.released hij hpi hpj
      exact ⟨i, k, j, hik, hkj, hj, hpi, hup, hpj⟩
    · rintro ⟨i, k, j, hik, hkj, hj, hpi, -, hpj⟩
      exact ⟨i, j, Nat.lt_trans hik hkj, hj, hpi, hpj⟩
  · intro key i j hij hi hj
    exact FiresAt.released hij (hacted hi) (hacted hj)
  · intro key hkey i j hij hup hdown hruns
    have hbefore : before (c.keys.held key s.uiPadLast) (fun i => c.keys.held key (passes i).pad)
        (i + 1) = false := hup
    have hrise : ∃ k, i + 1 ≤ k ∧ k ≤ j ∧ Pressed c passes s key k :=
      exists_firesAt hbefore hij hdown
    obtain ⟨k, hik, hkj, hk⟩ := hrise
    have hearly : Runs c passes s k := fun l hl => hruns l (Nat.le_trans hl hkj)
    refine ⟨k, hik, hkj, ?_⟩
    rw [acted, if_pos hearly]
    exact List.mem_filter.mpr ⟨hkey, decide_eq_true hk⟩

end Run

/-- The masks of the console's buttons. -/
def consoleKeys : Keys where
  mask
    | .circle => 0x2000
    | .triangle => 0x1000
    | .square => 0x8000
    | .left => 0x0080
    | .right => 0x0020
  single key := by
    cases key with
    | circle => exact ⟨13, by decide, rfl⟩
    | triangle => exact ⟨12, by decide, rfl⟩
    | square => exact ⟨15, by decide, rfl⟩
    | left => exact ⟨7, by decide, rfl⟩
    | right => exact ⟨5, by decide, rfl⟩

/-- A session with the module freshly loaded. -/
def freshSession : Session where
  phase := .main
  uiPadLast := 0
  y := 60
  mod := (moduleStart (fun _ => []) ⟨0, (7, 70), (8, 80)⟩).2
  fw := ⟨unpatched, 0⟩
  drawn := []

def freshConfig : Config where
  keys := consoleKeys
  ctl := stackControl (failsAccess 26)
  wlanIdx := 1
  orig := fun _ => 0
  loading := ⟨-1, 1, 0⟩
  unloading := ⟨0, 0, true⟩

/-- A pass with the given buttons, in which nothing fails. -/
def quietPass (pad : UInt32) : Pass where
  pad := pad
  packets := []
  stats := ⟨0, 0, 0⟩
  junk := .zero
  frame := fun _ => 0
  capStart := ⟨0, ⟨3, ⟨24, 24⟩⟩, 0⟩
  capStop := ⟨0, 0⟩

/-- Holding the circle does not end the app. -/
theorem session_presses_held :
    (session freshConfig (fun _ => quietPass 0x2000) freshSession 3).phase ≠ .exited := by
  intro hexited
  obtain ⟨_, k, _, -, -, -, -, hup, -⟩ := (session_presses freshConfig
    (fun _ => quietPass 0x2000) freshSession rfl 3).2.1.mp hexited
  cases hup

end Wifimon.App
