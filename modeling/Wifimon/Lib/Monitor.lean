/-
  Monitors: a state that follows a log and says which events are allowed.

  `after s e` is the state after the event `e`, and `allows s e` is what the monitor asks of `e`
  in `s`. A log whose every event is allowed and that brings the monitor back to where it was
  (`Keeps`) can be followed by another one, any number of times; a log between two events that
  undo each other is kept if its inside is (`Keeps.bracket`).

  `foldl_count` is the counting argument: what the monitor's state says about the numbers of
  events of two kinds.
-/
import Mathlib.Data.List.Basic
import Mathlib.Tactic.Common
import Wifimon.Lib.Runs

namespace MonitorLib

open RunLib

variable {S E : Type} (allows : S → E → Prop) (after : S → E → S)

/-- Every event is allowed, and the log leaves the state as it was. -/
structure Keeps (s : S) (log : List E) : Prop where
  allowed : EachStep after allows s log
  back : log.foldl after s = s

variable {allows after}

theorem keeps_nil (s : S) : Keeps allows after s [] :=
  ⟨eachStep_nil, rfl⟩

theorem Keeps.append {s : S} {log log' : List E} (h : Keeps allows after s log)
    (h' : Keeps allows after s log') : Keeps allows after s (log ++ log') where
  allowed := by
    rw [eachStep_append, h.back]
    exact ⟨h.allowed, h'.allowed⟩
  back := by rw [List.foldl_append, h.back, h'.back]

/-- Allowed events that each leave the state as it is. -/
theorem keeps_of_forall {s : S} {log : List E} (h : ∀ e ∈ log, allows s e ∧ after s e = s) :
    Keeps allows after s log := by
  induction log with
  | nil => exact keeps_nil s
  | cons e log ih =>
    obtain ⟨he, hs⟩ := h e (List.mem_cons_self ..)
    have hlog := ih fun e' he' => h e' (List.mem_cons_of_mem _ he')
    refine ⟨eachStep_cons.mpr ⟨he, ?_⟩, ?_⟩
    · rw [hs]
      exact hlog.allowed
    · rw [List.foldl_cons, hs]
      exact hlog.back

/-- A log between an event and one that undoes it. -/
theorem Keeps.bracket {s s' : S} {a b : E} {log : List E} (h : Keeps allows after s' log)
    (ha : allows s a) (hs : after s a = s') (hb : allows s' b) (hs' : after s' b = s) :
    Keeps allows after s (a :: (log ++ [b])) where
  allowed := by
    rw [eachStep_cons, hs, eachStep_append, h.back]
    exact ⟨ha, h.allowed, eachStep_cons.mpr ⟨hb, eachStep_nil⟩⟩
  back := by
    rw [List.foldl_cons, hs, List.foldl_append, h.back]
    exact hs'

/-- Where each allowed step balances a measure of the state against two kinds of events, so does
    an allowed log. -/
theorem foldl_count {m : S → Nat} {got put : E → Bool}
    (hstep : ∀ s e, allows s e → m (after s e) + (put e).toNat = m s + (got e).toNat)
    {s : S} {log : List E} (h : EachStep after allows s log) :
    m (log.foldl after s) + log.countP put = m s + log.countP got := by
  induction log generalizing s with
  | nil => rfl
  | cons e log ih =>
    obtain ⟨he, hlog⟩ := eachStep_cons.mp h
    have hhead := hstep s e he
    have htail := ih hlog
    have hput : (e :: log).countP put = log.countP put + (put e).toNat := by
      rw [List.countP_cons]
      cases put e <;> rfl
    have hgot : (e :: log).countP got = log.countP got + (got e).toNat := by
      rw [List.countP_cons]
      cases got e <;> rfl
    rw [List.foldl_cons, hput, hgot]
    omega

/-- A log that keeps the state has as many events of the one kind as of the other. -/
theorem Keeps.count_eq {m : S → Nat} {got put : E → Bool}
    (hstep : ∀ s e, allows s e → m (after s e) + (put e).toNat = m s + (got e).toNat)
    {s : S} {log : List E} (h : Keeps allows after s log) : log.countP put = log.countP got := by
  have hcount := foldl_count hstep h.allowed
  rw [h.back] at hcount
  exact Nat.add_left_cancel hcount

end MonitorLib
