/-
  A variable that holds the handle of a resource: a file, a socket.

  Handles are integers, and a negative one is an error or no handle. `Slot` is the variable, the
  handles that are open, and the log of opens and closes. `acquire` opens a new handle into the
  slot, `release` closes the one there. A `Policy` says what a program's versions of the two
  close: whether `acquire` first closes what the slot holds, and whether `release` closes
  whatever is there, handle or not.

  * `good_step`: a slot whose only open handle is the one it holds, and that never closed a
    handle that was not open, stays so if and only if the policy allows the operation (`Allows`).
  * `live_run`: after a run no handle is open if and only if every handle acquired meets an
    operation that closes it (`Followed`).
  * `count_live`: where only open handles are closed, a handle was opened as often as it was
    closed, and once more for each time that it is open.

  Nothing here knows which program is being verified.
-/
import Mathlib.Data.List.Basic
import Mathlib.Data.List.Induction
import Mathlib.Tactic.Common

namespace HandleLib

/-! ## Logs -/

inductive Event where
  | opened (h : Int)
  | closed (h : Int)
  deriving DecidableEq

def Event.apply (open_ : List Int) : Event → List Int
  | .opened h => h :: open_
  | .closed h => open_.erase h

/-- The handles that are open after a log. -/
def live (log : List Event) : List Int := log.foldl Event.apply []

/-- Only open handles are closed. -/
def ClosesLive (log : List Event) : Prop :=
  ∀ pre h suf, log = pre ++ .closed h :: suf → h ∈ live pre

theorem live_append (log : List Event) (e : Event) : live (log ++ [e]) = e.apply (live log) := by
  unfold live
  rw [List.foldl_append]
  rfl

theorem closesLive_nil : ClosesLive [] := by
  intro pre h suf he
  simp at he

theorem ClosesLive.initial {log more : List Event} (h : ClosesLive (log ++ more)) :
    ClosesLive log := by
  intro pre x suf he
  refine h pre x (suf ++ more) ?_
  rw [he, List.append_assoc, List.cons_append]

/-- One event more. -/
theorem closesLive_append {log : List Event} {e : Event} :
    ClosesLive (log ++ [e]) ↔ ClosesLive log ∧ ∀ h, e = .closed h → h ∈ live log := by
  constructor
  · intro hc
    refine ⟨hc.initial, ?_⟩
    rintro h rfl
    exact hc log h [] rfl
  · rintro ⟨hc, he⟩ pre h suf hsplit
    rcases List.eq_nil_or_concat suf with rfl | ⟨suf, e', rfl⟩
    · obtain ⟨rfl, hlast⟩ := List.append_inj' hsplit rfl
      exact he h (List.singleton_inj.mp hlast)
    · rw [List.concat_eq_append, ← List.cons_append, ← List.append_assoc] at hsplit
      exact hc pre h suf (List.append_inj' hsplit rfl).1

/-- Opens, closes, and what is open. -/
theorem count_live {log : List Event} (hc : ClosesLive log) (h : Int) :
    log.count (.opened h) = log.count (.closed h) + (live log).count h := by
  induction log using List.reverseRecOn with
  | nil => rfl
  | append_singleton log e ih =>
    obtain ⟨hlog, he⟩ := closesLive_append.mp hc
    have hcount := ih hlog
    rw [live_append, List.count_append, List.count_append]
    cases e with
    | opened x =>
      simp only [Event.apply, List.count_cons, List.count_nil, beq_iff_eq, Event.opened.injEq,
        reduceCtorEq, if_false]
      omega
    | closed x =>
      have hmem := he x rfl
      have hpos : 0 < (live log).count x := List.count_pos_iff.mpr hmem
      simp only [Event.apply, List.count_cons, List.count_nil, List.count_erase, beq_iff_eq,
        Event.closed.injEq, reduceCtorEq, if_false]
      by_cases hx : x = h
      · subst hx
        simp only [if_true]
        omega
      · rw [if_neg hx]
        omega

/-! ## The slot -/

structure Slot where
  fd : Int
  live : List Int
  log : List Event

structure Policy where
  /-- `acquire` closes first what the slot holds. -/
  closesOld : Int → Bool
  /-- `release` closes what the slot holds even if that is no handle. -/
  closesAny : Bool

inductive SlotOp where
  | acquire (h : Int) (keep : Bool)
  | release

def Slot.start : Slot := ⟨-1, [], []⟩

def Slot.closeFd (s : Slot) : Slot :=
  { fd := -1, live := s.live.erase s.fd, log := s.log ++ [.closed s.fd] }

/-- The slot holds the answer, which is an open handle unless it is negative. -/
def Slot.openFd (h : Int) (s : Slot) : Slot :=
  if 0 ≤ h then { fd := h, live := h :: s.live, log := s.log ++ [.opened h] }
  else { s with fd := h }

def Slot.closeOld (p : Policy) (s : Slot) : Slot :=
  if p.closesOld s.fd = true then s.closeFd else s

/-- A handle that is not kept is closed again at once. -/
def Slot.acquire (p : Policy) (h : Int) (keep : Bool) (s : Slot) : Slot :=
  if keep = true ∨ h < 0 then (s.closeOld p).openFd h else ((s.closeOld p).openFd h).closeFd

def Slot.release (p : Policy) (s : Slot) : Slot :=
  if p.closesAny = true ∨ 0 ≤ s.fd then s.closeFd else s

def Slot.step (p : Policy) (s : Slot) : SlotOp → Slot
  | .acquire h keep => s.acquire p h keep
  | .release => s.release p

@[simp] theorem step_acquire (p : Policy) (s : Slot) (h : Int) (keep : Bool) :
    s.step p (.acquire h keep) = s.acquire p h keep := rfl

@[simp] theorem step_release (p : Policy) (s : Slot) : s.step p .release = s.release p := rfl

/-- The slot's handle is open, and `live` is what the log says. -/
structure Slot.Wf (s : Slot) : Prop where
  held : 0 ≤ s.fd → s.fd ∈ s.live
  nonneg : ∀ h ∈ s.live, 0 ≤ h
  log : s.live = HandleLib.live s.log

theorem wf_start : Slot.start.Wf where
  held := fun h => absurd h (by decide)
  nonneg := fun _ h => absurd h List.not_mem_nil
  log := rfl

theorem Slot.Wf.closeFd {s : Slot} (hw : s.Wf) : s.closeFd.Wf where
  held := fun h => absurd h (show ¬ (0 : Int) ≤ -1 by decide)
  nonneg := fun h hm => hw.nonneg h (List.mem_of_mem_erase hm)
  log := by
    show s.live.erase s.fd = HandleLib.live (s.log ++ [.closed s.fd])
    rw [live_append, ← hw.log]
    rfl

theorem Slot.Wf.openFd {s : Slot} (hw : s.Wf) (h : Int) : (s.openFd h).Wf := by
  unfold Slot.openFd
  by_cases h0 : 0 ≤ h
  · rw [if_pos h0]
    refine ⟨fun _ => List.mem_cons_self .., fun x hx => ?_, ?_⟩
    · rcases List.mem_cons.mp hx with rfl | hx
      · exact h0
      · exact hw.nonneg x hx
    · show h :: s.live = HandleLib.live (s.log ++ [.opened h])
      rw [live_append, ← hw.log]
      rfl
  · rw [if_neg h0]
    exact ⟨fun hn => absurd hn h0, hw.nonneg, hw.log⟩

theorem Slot.Wf.closeOld {s : Slot} (hw : s.Wf) (p : Policy) : (s.closeOld p).Wf := by
  unfold Slot.closeOld
  split
  · exact hw.closeFd
  · exact hw

theorem wf_step {s : Slot} (hw : s.Wf) (p : Policy) (op : SlotOp) : (s.step p op).Wf := by
  cases op with
  | acquire h keep =>
    rw [step_acquire]
    unfold Slot.acquire
    split
    · exact (hw.closeOld p).openFd h
    · exact ((hw.closeOld p).openFd h).closeFd
  | release =>
    rw [step_release]
    unfold Slot.release
    split
    · exact hw.closeFd
    · exact hw

/-! ## Handles the slot does not hold -/

/-- The open handles that the slot does not hold: nothing will close them. -/
def Slot.rest (s : Slot) : List Int := s.live.erase s.fd

theorem erase_neg {s : Slot} (hw : s.Wf) {h : Int} (hneg : h < 0) : s.live.erase h = s.live :=
  List.erase_of_not_mem fun hm => absurd (hw.nonneg h hm) (Int.not_le.mpr hneg)

theorem rest_closeFd {s : Slot} (hw : s.Wf) : s.closeFd.rest = s.rest :=
  erase_neg hw.closeFd (show (-1 : Int) < 0 by decide)

theorem rest_openFd {s : Slot} (hw : s.Wf) (h : Int) : (s.openFd h).rest = s.live := by
  unfold Slot.rest Slot.openFd
  by_cases h0 : 0 ≤ h
  · rw [if_pos h0]
    exact List.erase_cons_head ..
  · rw [if_neg h0]
    exact erase_neg hw (Int.not_le.mp h0)

/-- Nothing is open if and only if the slot holds no handle and nothing else is open. -/
theorem live_nil_iff {s : Slot} (hw : s.Wf) : s.live = [] ↔ s.rest = [] ∧ s.fd < 0 := by
  unfold Slot.rest
  constructor
  · intro h
    refine ⟨by rw [h]; rfl, Int.not_le.mp fun h0 => ?_⟩
    have hmem := hw.held h0
    rw [h] at hmem
    exact List.not_mem_nil hmem
  · rintro ⟨hrest, hneg⟩
    rwa [erase_neg hw hneg] at hrest

/-- At most one handle is open, and the slot holds it. -/
def Slot.Tidy (s : Slot) : Prop := s.live = [] ∨ s.live = [s.fd]

theorem tidy_iff {s : Slot} (hw : s.Wf) : s.Tidy ↔ s.rest = [] := by
  unfold Slot.Tidy Slot.rest
  constructor
  · rintro (h | h)
    · rw [h]
      rfl
    · rw [h]
      exact List.erase_cons_head ..
  · intro hrest
    by_cases h0 : 0 ≤ s.fd
    · -- the one element that was erased is all there is
      have hlen := List.length_erase_of_mem (hw.held h0)
      have hpos := List.length_pos_of_mem (hw.held h0)
      rw [hrest, List.length_nil] at hlen
      obtain ⟨x, hx⟩ := List.length_eq_one_iff.mp (show s.live.length = 1 by omega)
      have hmem := hw.held h0
      rw [hx, List.mem_singleton] at hmem
      rw [hx, hmem]
      exact Or.inr rfl
    · rw [erase_neg hw (Int.not_le.mp h0)] at hrest
      exact Or.inl hrest

/-! ## One operation -/

/-- At most the slot's handle is open, and only open handles were closed. -/
structure Slot.Good (s : Slot) : Prop where
  tidy : s.Tidy
  closes : ClosesLive s.log

theorem good_start : Slot.start.Good := ⟨Or.inl rfl, closesLive_nil⟩

/-- The operations that lose no handle and close only open ones. -/
def Policy.Allows (p : Policy) (s : Slot) : SlotOp → Prop
  | .acquire _ _ => p.closesOld s.fd = true ↔ 0 ≤ s.fd
  | .release => p.closesAny = true → 0 ≤ s.fd

theorem closes_closeFd {s : Slot} (hw : s.Wf) :
    ClosesLive s.closeFd.log ↔ ClosesLive s.log ∧ 0 ≤ s.fd := by
  unfold Slot.closeFd
  rw [closesLive_append, ← hw.log]
  refine and_congr_right fun _ => ⟨fun h => hw.nonneg _ (h _ rfl), fun h0 h he => ?_⟩
  cases he
  exact hw.held h0

theorem closes_openFd (s : Slot) (h : Int) :
    ClosesLive (s.openFd h).log ↔ ClosesLive s.log := by
  unfold Slot.openFd
  split
  · rw [closesLive_append]
    exact ⟨And.left, fun hc => ⟨hc, fun _ he => by cases he⟩⟩
  · exact Iff.rfl

theorem good_closeFd {s : Slot} (hw : s.Wf) : s.closeFd.Good ↔ s.Good ∧ 0 ≤ s.fd := by
  constructor
  · rintro ⟨ht, hc⟩
    obtain ⟨hlog, h0⟩ := (closes_closeFd hw).mp hc
    rw [tidy_iff hw.closeFd, rest_closeFd hw, ← tidy_iff hw] at ht
    exact ⟨⟨ht, hlog⟩, h0⟩
  · rintro ⟨⟨ht, hlog⟩, h0⟩
    refine ⟨?_, (closes_closeFd hw).mpr ⟨hlog, h0⟩⟩
    rw [tidy_iff hw.closeFd, rest_closeFd hw, ← tidy_iff hw]
    exact ht

theorem good_openFd {s : Slot} (hw : s.Wf) (h : Int) :
    (s.openFd h).Good ↔ s.Good ∧ s.fd < 0 := by
  have hlive := live_nil_iff hw
  constructor
  · rintro ⟨ht, hc⟩
    rw [tidy_iff (hw.openFd h), rest_openFd hw, hlive, ← tidy_iff hw] at ht
    exact ⟨⟨ht.1, (closes_openFd s h).mp hc⟩, ht.2⟩
  · rintro ⟨⟨ht, hc⟩, hneg⟩
    refine ⟨?_, (closes_openFd s h).mpr hc⟩
    rw [tidy_iff (hw.openFd h), rest_openFd hw, hlive, ← tidy_iff hw]
    exact ⟨ht, hneg⟩

/-- After closing what the slot held it is empty if and only if the policy closes handles, and
    nothing but handles. -/
theorem good_closeOld {s : Slot} (hw : s.Wf) (hg : s.Good) (p : Policy) :
    (s.closeOld p).Good ∧ (s.closeOld p).fd < 0 ↔ (p.closesOld s.fd = true ↔ 0 ≤ s.fd) := by
  unfold Slot.closeOld
  by_cases hp : p.closesOld s.fd = true
  · rw [if_pos hp, good_closeFd hw]
    have hneg : s.closeFd.fd < 0 := show (-1 : Int) < 0 by decide
    exact ⟨fun h => iff_of_true hp h.1.2, fun h => ⟨⟨hg, h.mp hp⟩, hneg⟩⟩
  · rw [if_neg hp]
    exact ⟨fun h => iff_of_false hp (Int.not_le.mpr h.2),
      fun h => ⟨hg, Int.not_le.mp fun h0 => hp (h.mpr h0)⟩⟩

/-- **One operation.** A good slot stays good exactly when the policy allows the operation. -/
theorem good_step {s : Slot} (hw : s.Wf) (hg : s.Good) (p : Policy) (op : SlotOp) :
    (s.step p op).Good ↔ p.Allows s op := by
  cases op with
  | acquire h keep =>
    have hw' := hw.closeOld p
    have hold := good_closeOld hw hg p
    show (s.acquire p h keep).Good ↔ (p.closesOld s.fd = true ↔ 0 ≤ s.fd)
    unfold Slot.acquire
    by_cases hk : keep = true ∨ h < 0
    · rw [if_pos hk, good_openFd hw', hold]
    · have h0 : 0 ≤ h := Int.not_lt.mp fun hn => hk (Or.inr hn)
      have hfd : ((s.closeOld p).openFd h).fd = h := by
        unfold Slot.openFd
        rw [if_pos h0]
      rw [if_neg hk, good_closeFd (hw'.openFd h), good_openFd hw', hold, hfd]
      exact and_iff_left h0
  | release =>
    show (s.release p).Good ↔ (p.closesAny = true → 0 ≤ s.fd)
    unfold Slot.release
    by_cases h0 : 0 ≤ s.fd
    · rw [if_pos (Or.inr h0), good_closeFd hw]
      exact ⟨fun _ _ => h0, fun _ => ⟨hg, h0⟩⟩
    · by_cases hp : p.closesAny = true
      · rw [if_pos (Or.inl hp), good_closeFd hw]
        exact ⟨fun h => absurd h.2 h0, fun h => absurd (h hp) h0⟩
      · rw [if_neg (not_or.mpr ⟨hp, h0⟩)]
        exact ⟨fun _ h => absurd h hp, fun _ => hg⟩

/-! ## Runs -/

/-- The next operation closes the handle `h` in the slot. -/
def Followed (p : Policy) (h : Int) : List SlotOp → Prop
  | [] => False
  | .acquire _ _ :: _ => p.closesOld h = true
  | .release :: _ => True

/-- Every handle that is acquired and kept is followed by an operation that closes it. -/
def AllFollowed (p : Policy) (ops : List SlotOp) : Prop :=
  ∀ pre h suf, ops = pre ++ .acquire h true :: suf → 0 ≤ h → Followed p h suf

theorem allFollowed_nil (p : Policy) : AllFollowed p [] := by
  intro pre h suf he
  simp at he

theorem allFollowed_cons {p : Policy} {op : SlotOp} {ops : List SlotOp} :
    AllFollowed p (op :: ops) ↔
      (∀ h, op = .acquire h true → 0 ≤ h → Followed p h ops) ∧ AllFollowed p ops := by
  constructor
  · intro hall
    refine ⟨?_, fun pre h suf he => hall (op :: pre) h suf (by rw [he]; rfl)⟩
    rintro h rfl
    exact hall [] h ops rfl
  · rintro ⟨hop, hops⟩ pre h suf he
    cases pre with
    | nil =>
      obtain ⟨rfl, rfl⟩ := List.cons.inj he
      exact hop h rfl
    | cons _ pre => exact hops pre h suf (List.cons.inj he).2

theorem live_closeOld {s : Slot} (hw : s.Wf) (p : Policy) :
    (s.closeOld p).live = [] ↔ s.rest = [] ∧ (0 ≤ s.fd → p.closesOld s.fd = true) := by
  unfold Slot.closeOld
  by_cases hp : p.closesOld s.fd = true
  · rw [if_pos hp]
    exact ⟨fun h => ⟨h, fun _ => hp⟩, And.left⟩
  · rw [if_neg hp, live_nil_iff hw]
    exact and_congr_right fun _ => ⟨fun h h0 => absurd h0 (Int.not_le.mpr h),
      fun h => Int.not_le.mp fun h0 => hp (h h0)⟩

theorem acquire_rest {s : Slot} (hw : s.Wf) (p : Policy) (h : Int) (keep : Bool) :
    (s.acquire p h keep).rest = (s.closeOld p).live := by
  unfold Slot.acquire
  split
  · exact rest_openFd (hw.closeOld p) h
  · rw [rest_closeFd ((hw.closeOld p).openFd h)]
    exact rest_openFd (hw.closeOld p) h

/-- The slot holds a handle afterwards if and only if it got one and keeps it. -/
theorem acquire_fd (s : Slot) (p : Policy) (h : Int) (keep : Bool) :
    (keep = true → (s.acquire p h keep).fd = h) ∧
      (0 ≤ (s.acquire p h keep).fd → keep = true) := by
  have hfd : ((s.closeOld p).openFd h).fd = h := by
    unfold Slot.openFd
    split <;> rfl
  unfold Slot.acquire
  by_cases hk : keep = true ∨ h < 0
  · rw [if_pos hk, hfd]
    refine ⟨fun _ => rfl, fun h0 => hk.resolve_right (Int.not_lt.mpr h0)⟩
  · rw [if_neg hk]
    exact ⟨fun hkeep => absurd (Or.inl hkeep) hk,
      fun h0 => absurd h0 (show ¬ (0 : Int) ≤ -1 by decide)⟩

/-- A release gives up the handle in the slot. -/
theorem release_rest {s : Slot} (hw : s.Wf) (p : Policy) :
    (s.release p).rest = s.rest ∧ (s.release p).fd < 0 := by
  unfold Slot.release
  by_cases hc : p.closesAny = true ∨ 0 ≤ s.fd
  · rw [if_pos hc]
    exact ⟨rest_closeFd hw, show (-1 : Int) < 0 by decide⟩
  · rw [if_neg hc]
    exact ⟨rfl, Int.not_le.mp (not_or.mp hc).2⟩

/-- **A run.** No handle is open after it if and only if none was lost before it, the handle in
    the slot, if any, is closed by the first operation, and every handle acquired by the next
    one. -/
theorem live_run {s : Slot} (hw : s.Wf) (p : Policy) (ops : List SlotOp) :
    (ops.foldl (Slot.step p) s).live = [] ↔
      s.rest = [] ∧ (0 ≤ s.fd → Followed p s.fd ops) ∧ AllFollowed p ops := by
  induction ops generalizing s with
  | nil =>
    rw [List.foldl_nil, live_nil_iff hw]
    exact ⟨fun h => ⟨h.1, fun h0 => absurd h0 (Int.not_le.mpr h.2), allFollowed_nil p⟩,
      fun h => ⟨h.1, Int.not_le.mp h.2.1⟩⟩
  | cons op ops ih =>
    rw [List.foldl_cons, ih (wf_step hw p op), allFollowed_cons]
    cases op with
    | acquire h keep =>
      obtain ⟨hkeep, hheld⟩ := acquire_fd s p h keep
      rw [step_acquire, acquire_rest hw, live_closeOld hw]
      constructor
      · rintro ⟨⟨hrest, hold⟩, hnext, hall⟩
        refine ⟨hrest, hold, fun x hx h0 => ?_, hall⟩
        cases hx
        rw [hkeep rfl] at hnext
        exact hnext h0
      · rintro ⟨hrest, hold, hnext, hall⟩
        refine ⟨⟨hrest, hold⟩, fun h0 => ?_, hall⟩
        have hk := hheld h0
        subst hk
        rw [hkeep rfl] at h0 ⊢
        exact hnext h rfl h0
    | release =>
      have hnone : ∀ h, SlotOp.release = .acquire h true → 0 ≤ h → Followed p h ops := by
        intro h he
        cases he
      obtain ⟨hrest, hneg⟩ := release_rest hw p
      rw [step_release, hrest]
      exact ⟨fun h => ⟨h.1, fun _ => trivial, hnone, h.2.2⟩,
        fun h => ⟨h.1, fun h0 => absurd h0 (Int.not_le.mpr hneg), h.2.2.2⟩⟩

theorem live_run_start (p : Policy) (ops : List SlotOp) :
    (ops.foldl (Slot.step p) Slot.start).live = [] ↔ AllFollowed p ops := by
  rw [live_run wf_start]
  exact ⟨fun h => h.2.2, fun h => ⟨rfl, fun h0 => absurd h0 (by decide), h⟩⟩

end HandleLib
