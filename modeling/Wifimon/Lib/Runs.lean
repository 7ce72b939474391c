/-
  Runs of a deterministic step function, and interleavings of action lists.

  A run applies `step` to a list of actions (`List.foldl step`). `always_of_inv` is the
  invariant rule; `always_iff_eachStep` is its exact form, for a property that a step keeps
  if and only if a condition on the state before it and the action holds.

  `exists_cycle`: steps that go on for ever among finitely many states come to a cycle.

  `Interleaving ts l` says that `l` is a merge of the action lists `ts`, each kept in order.
  What is needed of it is that nothing is lost or added (`Interleaving.perm`).
-/
import Mathlib.Data.Fintype.Card
import Mathlib.Data.List.Basic
import Mathlib.Data.List.Infix
import Mathlib.Data.List.Perm.Basic
import Mathlib.Logic.Relation
import Mathlib.Order.WellFounded
import Mathlib.Tactic.Common

namespace RunLib

variable {S A : Type} (step : S → A → S)

/-! ## Runs -/

/-- `P` holds in every state that a prefix of `as` reaches from `s`. -/
def Always (P : S → Prop) (s : S) (as : List A) : Prop :=
  ∀ pre, pre <+: as → P (pre.foldl step s)

/-- Every action of the run satisfies `C` together with the state it is taken in. -/
def EachStep (C : S → A → Prop) (s : S) (as : List A) : Prop :=
  ∀ pre a, pre ++ [a] <+: as → C (pre.foldl step s) a

variable {step}

theorem always_nil {P : S → Prop} {s : S} : Always step P s [] ↔ P s := by
  simp [Always]

theorem always_cons {P : S → Prop} {s : S} {a : A} {as : List A} :
    Always step P s (a :: as) ↔ P s ∧ Always step P (step s a) as := by
  constructor
  · intro h
    exact ⟨h [] (List.nil_prefix), fun pre hp => h (a :: pre) ((List.prefix_cons_inj a).mpr hp)⟩
  · rintro ⟨h0, h1⟩ pre hp
    cases pre with
    | nil => exact h0
    | cons b pre =>
      obtain ⟨rfl, hp'⟩ := List.cons_prefix_cons.mp hp
      exact h1 pre hp'

theorem eachStep_nil {C : S → A → Prop} {s : S} : EachStep step C s [] := by
  intro pre a h
  simp at h

theorem eachStep_cons {C : S → A → Prop} {s : S} {a : A} {as : List A} :
    EachStep step C s (a :: as) ↔ C s a ∧ EachStep step C (step s a) as := by
  constructor
  · intro h
    refine ⟨h [] a (by simp), fun pre b hp => h (a :: pre) b ?_⟩
    exact (List.prefix_cons_inj a).mpr hp
  · rintro ⟨h0, h1⟩ pre b hp
    cases pre with
    | nil =>
      obtain ⟨rfl, -⟩ := List.cons_prefix_cons.mp hp
      exact h0
    | cons c pre =>
      obtain ⟨rfl, hp'⟩ := List.cons_prefix_cons.mp hp
      exact h1 pre b hp'

/-- What holds of each step of a run holds of each step of its beginnings. -/
theorem eachStep_mono {C : S → A → Prop} {s : S} {as bs : List A} (h : as <+: bs)
    (hb : EachStep step C s bs) : EachStep step C s as :=
  fun pre a hp => hb pre a (hp.trans h)

theorem eachStep_append {C : S → A → Prop} {s : S} {as bs : List A} :
    EachStep step C s (as ++ bs) ↔
      EachStep step C s as ∧ EachStep step C (as.foldl step s) bs := by
  induction as generalizing s with
  | nil => exact ⟨fun h => ⟨eachStep_nil, h⟩, fun h => h.2⟩
  | cons a as ih =>
    rw [List.cons_append, eachStep_cons, eachStep_cons, ih, List.foldl_cons, and_assoc]

/-- The invariant rule. -/
theorem always_of_inv {P : S → Prop} (hstep : ∀ s a, P s → P (step s a)) {s : S} (h : P s)
    (as : List A) : Always step P s as := by
  induction as generalizing s with
  | nil => exact always_nil.mpr h
  | cons a as ih => exact always_cons.mpr ⟨h, ih (hstep s a h)⟩

theorem Always.run {P : S → Prop} {s : S} {as : List A} (h : Always step P s as) :
    P (as.foldl step s) :=
  h as (List.prefix_refl as)

/-- The exact invariant rule: where an invariant `I` makes each step keep `P` if and only if
    `C` holds of it, `P` holds along a run if and only if every step meets `C`. -/
theorem always_iff_eachStep {I P : S → Prop} {C : S → A → Prop}
    (hI : ∀ s a, I s → I (step s a))
    (hstep : ∀ s a, I s → P s → (P (step s a) ↔ C s a)) {s : S} (hi : I s) (hp : P s)
    (as : List A) : Always step P s as ↔ EachStep step C s as := by
  induction as generalizing s with
  | nil => exact ⟨fun _ => eachStep_nil, fun _ => always_nil.mpr hp⟩
  | cons a as ih =>
    rw [always_cons, eachStep_cons]
    constructor
    · rintro ⟨-, h⟩
      have hp' : P (step s a) := h [] List.nil_prefix
      exact ⟨(hstep s a hi hp).mp hp', (ih (hI s a hi) hp').mp h⟩
    · rintro ⟨hc, h⟩
      have hp' := (hstep s a hi hp).mpr hc
      exact ⟨hp, (ih (hI s a hi) hp').mpr h⟩

/-- The invariant rule for runs whose steps all meet a condition. -/
theorem always_of_eachStep {I : S → Prop} {C : S → A → Prop}
    (hstep : ∀ s a, I s → C s a → I (step s a)) {s : S} (hi : I s) {as : List A}
    (h : EachStep step C s as) : Always step I s as := by
  induction as generalizing s with
  | nil => exact always_nil.mpr hi
  | cons a as ih =>
    obtain ⟨ha, has⟩ := eachStep_cons.mp h
    exact always_cons.mpr ⟨hi, ih (hstep s a hi ha) has⟩

/-- Two conditions that an invariant makes the same. -/
theorem eachStep_congr_inv {I : S → Prop} {C D : S → A → Prop}
    (hI : ∀ s a, I s → I (step s a)) (hcd : ∀ s a, I s → (C s a ↔ D s a)) {s : S} (hi : I s)
    (as : List A) : EachStep step C s as ↔ EachStep step D s as := by
  induction as generalizing s with
  | nil => exact iff_of_true eachStep_nil eachStep_nil
  | cons a as ih => rw [eachStep_cons, eachStep_cons, hcd s a hi, ih (hI s a hi)]

theorem eachStep_congr {C D : S → A → Prop} (h : ∀ s a, C s a ↔ D s a) {s : S} {as : List A} :
    EachStep step C s as ↔ EachStep step D s as := by
  unfold EachStep
  exact forall_congr' fun pre => forall_congr' fun a => imp_congr_right fun _ => h _ a

/-- A run seen through `proj`: where each action of the run shows as an action `f a` of another
    system or, if that is `none`, not at all, the run shows as a run of that system. -/
theorem foldl_proj {T B : Type} {step' : T → B → T} (proj : S → T) (f : A → Option B)
    (I : S → Prop) (ok : A → Prop) (hI : ∀ s a, I s → ok a → I (step s a))
    (hstep : ∀ s a, I s → ok a → proj (step s a) = (f a).elim (proj s) (step' (proj s)))
    {as : List A} (hok : ∀ a ∈ as, ok a) {s : S} (hi : I s) :
    proj (as.foldl step s) = (as.filterMap f).foldl step' (proj s) := by
  induction as generalizing s with
  | nil => rfl
  | cons a as ih =>
    have ha : ok a := hok a (List.mem_cons_self ..)
    rw [List.foldl_cons, ih (fun b hb => hok b (List.mem_cons_of_mem _ hb)) (hI s a hi ha),
      hstep s a hi ha]
    cases hf : f a with
    | none => rw [List.filterMap_cons_none hf, Option.elim_none]
    | some b => rw [List.filterMap_cons_some hf, List.foldl_cons, Option.elim_some]

/-- A run is cut at the first action that `p` holds of. -/
theorem cut_first {p : A → Bool} {as : List A} (h : ∃ a ∈ as, p a = true) :
    ∃ a rest, as = as.takeWhile (fun b => !p b) ++ a :: rest ∧ p a = true := by
  induction as with
  | nil =>
    obtain ⟨a, ha, -⟩ := h
    exact absurd ha List.not_mem_nil
  | cons b as ih =>
    cases hb : p b with
    | true =>
      refine ⟨b, as, ?_, hb⟩
      rw [List.takeWhile_cons_of_neg (by rw [hb]; decide), List.nil_append]
    | false =>
      obtain ⟨a, ha, hpa⟩ := h
      have hrest : a ∈ as := by
        obtain rfl | ha := List.mem_cons.mp ha
        · rw [hb] at hpa
          exact absurd hpa (by decide)
        · exact ha
      obtain ⟨c, rest, hcut, hc⟩ := ih ⟨a, hrest, hpa⟩
      refine ⟨c, rest, ?_, hc⟩
      rw [List.takeWhile_cons_of_pos (by rw [hb]; rfl), List.cons_append, ← hcut]

/-! ## Cycles -/

/-- Where finitely much is reached, and from all of it `R` goes on, something is reached again. -/
theorem exists_cycle {R : S → S → Prop} {s : S}
    (hfin : {t | Relation.ReflTransGen R s t}.Finite)
    (hgo : ∀ t, Relation.ReflTransGen R s t → ∃ u, R t u) :
    ∃ t, Relation.ReflTransGen R s t ∧ Relation.TransGen R t t := by
  by_contra hnone
  have : Finite {t // Relation.ReflTransGen R s t} := hfin
  let behind : {t // Relation.ReflTransGen R s t} → {t // Relation.ReflTransGen R s t} → Prop :=
    fun t u => Relation.TransGen R u.1 t.1
  have : IsTrans _ behind := ⟨fun _ _ _ htu huv => huv.trans htu⟩
  have : Std.Irrefl behind := ⟨fun t ht => hnone ⟨t.1, t.2, ht⟩⟩
  -- a last one of what is reached would have nothing behind it
  obtain ⟨t, -, hlast⟩ := (Finite.wellFounded_of_trans_of_irrefl behind).has_min Set.univ
    ⟨⟨s, .refl⟩, trivial⟩
  obtain ⟨u, hu⟩ := hgo t.1 t.2
  exact hlast ⟨u, t.2.tail hu⟩ trivial (.single hu)

/-- What is on a cycle goes on to something on it. -/
theorem cycle_next {R : S → S → Prop} {s : S} (h : Relation.TransGen R s s) :
    ∃ t, R s t ∧ Relation.TransGen R t t := by
  obtain ⟨t, hst, hts⟩ := Relation.TransGen.head'_iff.mp h
  exact ⟨t, hst, Relation.TransGen.tail' hts hst⟩

/-! ## Interleavings -/

/-- `l` merges the lists `ts`: each step takes the head of one of them. -/
inductive Interleaving : List (List A) → List A → Prop where
  | done {ts : List (List A)} : (∀ t ∈ ts, t = []) → Interleaving ts []
  | step {ts us : List (List A)} {a : A} {t l : List A} :
      Interleaving (ts ++ t :: us) l → Interleaving (ts ++ (a :: t) :: us) (a :: l)

theorem Interleaving.perm {ts : List (List A)} {l : List A} (h : Interleaving ts l) :
    l.Perm ts.flatten := by
  induction h with
  | done h => rw [List.flatten_eq_nil_iff.mpr h]
  | @step ts us a t l _ ih =>
    refine (ih.cons a).trans ?_
    simp only [List.flatten_append, List.flatten_cons, List.cons_append]
    exact List.perm_middle.symm

/-- An action list keeps its order in an interleaving. -/
theorem Interleaving.sublist {ts : List (List A)} {l : List A} (h : Interleaving ts l)
    {t : List A} (ht : t ∈ ts) : t.Sublist l := by
  induction h generalizing t with
  | done h =>
    rw [h t ht]
  | @step ts us a t' l _ ih =>
    rcases List.mem_append.mp ht with ht | ht
    · exact (ih (List.mem_append_left _ ht)).cons a
    · rcases List.mem_cons.mp ht with rfl | ht
      · exact (ih (List.mem_append_right _ (List.mem_cons_self ..))).cons_cons a
      · exact (ih (List.mem_append_right _ (List.mem_cons_of_mem _ ht))).cons a

/-- The actions of one list, picked out of an interleaving in which no other list has any that
    `f` picks. -/
theorem Interleaving.filterMap_eq {B : Type} {t : List A} {ts : List (List A)} {l : List A}
    (h : Interleaving (t :: ts) l) {f : A → Option B} (hts : ∀ u ∈ ts, u.filterMap f = []) :
    l.filterMap f = t.filterMap f := by
  have hsub : (t.filterMap f).Sublist (l.filterMap f) :=
    (h.sublist (List.mem_cons_self ..)).filterMap f
  have hrest : ts.flatten.filterMap f = [] := by
    rw [List.filterMap_flatten, List.flatten_eq_nil_iff]
    intro u hu
    obtain ⟨v, hv, rfl⟩ := List.mem_map.mp hu
    exact hts v hv
  have hlen := (h.perm.filterMap f).length_eq
  rw [List.flatten_cons, List.filterMap_append, hrest, List.append_nil] at hlen
  exact (hsub.eq_of_length hlen.symm).symm

theorem Interleaving.first {t l : List A} {ts : List (List A)} {a : A}
    (h : Interleaving (t :: ts) l) : Interleaving ((a :: t) :: ts) (a :: l) :=
  @Interleaving.step A [] ts a t l h

theorem Interleaving.second {t u l : List A} {ts : List (List A)} {a : A}
    (h : Interleaving (t :: u :: ts) l) : Interleaving (t :: (a :: u) :: ts) (a :: l) :=
  @Interleaving.step A [t] ts a u l h

/-- One list alone. -/
theorem Interleaving.alone (t : List A) {ts : List (List A)} (hts : ∀ u ∈ ts, u = []) :
    Interleaving (t :: ts) t := by
  induction t with
  | nil => exact .done fun u hu => (List.mem_cons.mp hu).elim id (hts u)
  | cons a t ih => exact ih.first

end RunLib
