/-
  A mutex, and threads that work on shared data while they hold it.

  A call is a list of steps on the shared data and on the data of its thread (`steps`). In
  `World.step` one thread goes on: it takes the mutex for its next call, makes the next step of
  the call, or gives the mutex back; while another thread has the mutex it waits. A schedule is
  the list of the threads that go on.

  `schedule_atomic`: whenever the mutex is free, the data are what the calls give that run whole,
  one after the other, in the order in which they got the mutex. `schedule_read`: what is read
  without the mutex, of a part of the data that no call changes twice, is what it is between two
  of these calls.
-/
import Mathlib.Logic.Function.Basic
import Wifimon.Lib.Runs

namespace MutexLib

open RunLib

abbrev Step (S L : Type) := S × L → S × L

section

variable {I S L C : Type} [DecidableEq I]

/-- The data, the calls that the threads have not begun, who has the mutex and what is left of
    that call, and the calls that got the mutex, in order. -/
structure World (I S L C : Type) where
  shared : S
  own : I → L
  todo : I → List C
  holder : Option (I × List (Step S L))
  order : List (I × C)

def World.start (shared : S) (own : I → L) (todo : I → List C) : World I S L C :=
  ⟨shared, own, todo, none, []⟩

def World.data (w : World I S L C) : S × (I → L) := (w.shared, w.own)

/-- Thread `i` makes these steps. -/
def runSteps (x : S × (I → L)) (i : I) (fs : List (Step S L)) : S × (I → L) :=
  let r := fs.foldl (fun y f => f y) (x.1, x.2 i)
  (r.1, Function.update x.2 i r.2)

/-- A call, run whole. -/
def atOnce (steps : C → List (Step S L)) (x : S × (I → L)) (a : I × C) : S × (I → L) :=
  runSteps x a.1 (steps a.2)

def World.step (steps : C → List (Step S L)) (w : World I S L C) (i : I) : World I S L C :=
  match w.holder with
  | none =>
    match w.todo i with
    | [] => w
    | c :: cs =>
      { w with
        todo := Function.update w.todo i cs
        holder := some (i, steps c)
        order := w.order ++ [(i, c)] }
  | some (j, rest) =>
    if i = j then
      match rest with
      | [] => { w with holder := none }
      | f :: fs =>
        let x := runSteps w.data i [f]
        { w with shared := x.1, own := x.2, holder := some (i, fs) }
    else w

/-! ## Steps of one thread -/

theorem runSteps_nil (x : S × (I → L)) (i : I) : runSteps x i [] = x := by
  show (x.1, Function.update x.2 i (x.2 i)) = x
  rw [Function.update_eq_self]

theorem runSteps_append (x : S × (I → L)) (i : I) (fs gs : List (Step S L)) :
    runSteps (runSteps x i fs) i gs = runSteps x i (fs ++ gs) := by
  unfold runSteps
  dsimp only
  rw [Function.update_self, Function.update_idem, List.foldl_append]

/-- The thread with the mutex gives it back if it goes on. -/
theorem free_again (steps : C → List (Step S L)) (w : World I S L C) :
    ∃ schedule : List I, (schedule.foldl (World.step steps) w).holder = none := by
  cases hw : w.holder with
  | none => exact ⟨[], hw⟩
  | some held =>
    obtain ⟨i, rest⟩ := held
    induction rest generalizing w with
    | nil =>
      refine ⟨[i], ?_⟩
      show (w.step steps i).holder = none
      simp only [World.step, hw, if_true]
    | cons f fs ih =>
      have hnext : (w.step steps i).holder = some (i, fs) := by
        simp only [World.step, hw, if_true]
      obtain ⟨schedule, hfree⟩ := ih (w.step steps i) hnext
      exact ⟨i :: schedule, hfree⟩

/-! ## The calls in the order of the mutex -/

variable (steps : C → List (Step S L))

/-- The data are those of the calls that had the mutex, run whole, and of the steps that the call
    with the mutex has made. -/
def Follows (x : S × (I → L)) (w : World I S L C) : Prop :=
  match w.holder with
  | none => w.data = w.order.foldl (atOnce steps) x
  | some (i, rest) => ∃ before c done, w.order = before ++ [(i, c)] ∧ steps c = done ++ rest ∧
      w.data = runSteps (before.foldl (atOnce steps) x) i done

theorem follows_step {x : S × (I → L)} {w : World I S L C} (h : Follows steps x w) (i : I) :
    Follows steps x (w.step steps i) := by
  unfold Follows at h
  unfold World.step
  cases hw : w.holder with
  | none =>
    rw [hw] at h
    cases htodo : w.todo i with
    | nil =>
      dsimp only
      rw [Follows, hw]
      exact h
    | cons c cs =>
      refine ⟨w.order, c, [], rfl, rfl, ?_⟩
      rw [runSteps_nil]
      exact h
  | some held =>
    obtain ⟨j, rest⟩ := held
    rw [hw] at h
    obtain ⟨before, c, done, horder, hsteps, hdata⟩ := h
    dsimp only
    by_cases hij : i = j
    · subst hij
      rw [if_pos rfl]
      cases rest with
      | nil =>
        rw [List.append_nil] at hsteps
        show w.data = w.order.foldl (atOnce steps) x
        rw [horder, List.foldl_append, hdata, ← hsteps]
        rfl
      | cons f fs =>
        refine ⟨before, c, done ++ [f], horder, by rw [hsteps, List.append_assoc]; rfl, ?_⟩
        rw [← runSteps_append, ← hdata]
        rfl
    · rw [if_neg hij, Follows, hw]
      exact ⟨before, c, done, horder, hsteps, hdata⟩

theorem follows_run (s : S) (own : I → L) (todo : I → List C) (schedule : List I) :
    Always (World.step steps) (Follows steps (s, own)) (.start s own todo) schedule := by
  have hstart : Follows steps (s, own) (.start s own todo) := rfl
  exact always_of_inv (P := Follows steps (s, own)) (fun _ i h => follows_step steps h i) hstart
    schedule

/-- The calls of a thread that got the mutex are its first ones, in its order. -/
theorem order_run (s : S) (own : I → L) (todo : I → List C) (schedule : List I) (i : I) :
    ((schedule.foldl (World.step steps) (.start s own todo)).order.filter
        fun a => decide (a.1 = i)).map Prod.snd ++
      (schedule.foldl (World.step steps) (.start s own todo)).todo i = todo i := by
  refine (always_of_inv (P := fun w : World I S L C =>
    (w.order.filter fun a => decide (a.1 = i)).map Prod.snd ++ w.todo i = todo i)
    (fun w j h => ?_) rfl schedule).run
  unfold World.step
  cases w.holder with
  | none =>
    cases htodo : w.todo j with
    | nil => exact h
    | cons c cs =>
      by_cases hij : j = i
      · subst hij
        rw [htodo] at h
        dsimp only
        rw [Function.update_self, List.filter_append, List.map_append, ← h]
        simp
      · dsimp only
        rw [Function.update_of_ne (Ne.symm hij), List.filter_append]
        simpa [hij] using h
  | some held =>
    dsimp only
    split
    · split <;> exact h
    · exact h

/-- While the mutex is free, the data are what the calls run whole give, in their order. -/
theorem schedule_atomic (s : S) (own : I → L) (todo : I → List C) (schedule : List I)
    (hfree : (schedule.foldl (World.step steps) (.start s own todo)).holder = none) :
    (schedule.foldl (World.step steps) (.start s own todo)).data =
      (schedule.foldl (World.step steps) (.start s own todo)).order.foldl (atOnce steps)
        (s, own) := by
  have hfollows := (follows_run steps s own todo schedule).run
  rw [Follows, hfree] at hfollows
  exact hfollows

/-! ## Reads without the mutex -/

/-- Along the call `c` the part `part` of the shared data changes once at most. -/
def ChangesOnce {V : Type} (part : S → V) (c : C) : Prop :=
  ∀ done rest, steps c = done ++ rest → ∀ (x : S × (I → L)) (i : I),
    part (runSteps x i done).1 = part x.1 ∨
      part (runSteps x i done).1 = part (runSteps x i (steps c)).1

/-- A call whose last step only changes the part. -/
theorem changesOnce_of {V : Type} {part : S → V} {c : C} {pre last : List (Step S L)}
    (hsteps : steps c = pre ++ last) (hlast : last.length ≤ 1)
    (hkeep : ∀ f ∈ pre, ∀ y, part (f y).1 = part y.1) : ChangesOnce (I := I) steps part c := by
  intro done rest hsplit x i
  have hkept : ∀ fs : List (Step S L), (∀ f ∈ fs, f ∈ pre) → ∀ y : S × L,
      part (fs.foldl (fun y f => f y) y).1 = part y.1 := by
    intro fs
    induction fs with
    | nil => exact fun _ _ => rfl
    | cons f fs ih =>
      intro hfs y
      rw [List.foldl_cons, ih (fun g hg => hfs g (List.mem_cons_of_mem _ hg)),
        hkeep f (hfs f (List.mem_cons_self ..))]
  have hlen := congrArg List.length (hsplit.symm.trans hsteps)
  rw [List.length_append, List.length_append] at hlen
  by_cases hlen : done.length ≤ pre.length
  · have hdone : done <+: pre :=
      List.prefix_of_prefix_length_le ⟨rest, hsplit.symm⟩ ⟨last, hsteps.symm⟩ hlen
    exact Or.inl (hkept done (fun f hf => hdone.subset hf) (x.1, x.2 i))
  · have hrest : rest = [] := List.eq_nil_of_length_eq_zero (by omega)
    rw [hsplit, hrest, List.append_nil]
    exact Or.inr rfl

/-- A part that no call changes twice is read as it is between two calls. -/
theorem schedule_read {V : Type} (part : S → V)
    (honce : ∀ c : C, ChangesOnce (I := I) steps part c) (s : S) (own : I → L)
    (todo : I → List C) (schedule : List I) :
    ∃ calls, calls <+: (schedule.foldl (World.step steps) (.start s own todo)).order ∧
      (schedule.foldl (World.step steps) (.start s own todo)).order.length ≤ calls.length + 1 ∧
      part (schedule.foldl (World.step steps) (.start s own todo)).shared =
        part (calls.foldl (atOnce steps) (s, own)).1 := by
  have hfollows := (follows_run steps s own todo schedule).run
  generalize schedule.foldl (World.step steps) (.start s own todo) = w at hfollows
  unfold Follows at hfollows
  split at hfollows
  · exact ⟨w.order, List.prefix_rfl, Nat.le_succ _, congrArg (fun d => part d.1) hfollows⟩
  · obtain ⟨before, c, done, horder, hsteps, hdata⟩ := hfollows
    have hshared : w.shared = (runSteps (before.foldl (atOnce steps) (s, own)) _ done).1 :=
      congrArg Prod.fst hdata
    rw [hshared, horder]
    rcases honce c done _ hsteps (before.foldl (atOnce steps) (s, own)) _ with hsame | hlast
    · refine ⟨before, List.prefix_append _ _, ?_, hsame⟩
      rw [List.length_append, List.length_singleton]
    · refine ⟨before ++ [_], List.prefix_rfl, Nat.le_succ _, hlast.trans ?_⟩
      rw [List.foldl_append]
      rfl

end

end MutexLib
