import Mathlib.Logic.Relation

/-!
# Labelled transition systems with a partial step function

A system is an initial state and a step function that answers `none` when the
named action is not enabled.  All nondeterminism sits in the action, so a run is
a list of actions and can be evaluated.  A guard `ok` on state and action
restricts attention to the runs all of whose steps meet it; `anyStep` is the
guard that admits every step.
-/

namespace RaftLabs

/-- A transition system: where runs start and what an action does. -/
structure System (σ α : Type) where
  init : σ
  step : σ → α → Option σ

namespace System

variable {σ α : Type}

/-- The guard that every step meets. -/
def anyStep (_ : σ) (_ : α) : Prop := True

instance (s : σ) (a : α) : Decidable (anyStep s a) := isTrue trivial

variable (S : System σ α) (ok : σ → α → Prop)

/-- `t` follows `s` by one action that meets the guard. -/
def Step (s t : σ) : Prop := ∃ a, ok s a ∧ S.step s a = some t

/-- `t` follows `s` by any number of guarded steps. -/
def Reaches : σ → σ → Prop := Relation.ReflTransGen (S.Step ok)

/-- The states of guarded runs from the initial state. -/
def Reachable (s : σ) : Prop := S.Reaches ok S.init s

/-- Perform a list of actions in order, as long as they meet the guard. -/
def run [∀ s a, Decidable (ok s a)] (s : σ) (as : List α) : Option σ :=
  as.foldlM (fun s a => if ok s a then S.step s a else none) s

variable {S ok}

/-- The induction rule for invariants: true at the start and kept by every
    guarded step from a reachable state. -/
theorem Reachable.invariant {P : σ → Prop} (hinit : P S.init)
    (hstep : ∀ s a t, S.Reachable ok s → P s → ok s a → S.step s a = some t → P t)
    {s : σ} (hs : S.Reachable ok s) : P s := by
  induction hs with
  | refl => exact hinit
  | tail hreach hst ih =>
    obtain ⟨a, hok, hstep'⟩ := hst
    exact hstep _ a _ hreach ih hok hstep'

/-- Forward simulation: if related states stay related while every step on the
    left is matched by any number of steps on the right, then so is every run. -/
theorem Reaches.simulation {τ : Type} {R : σ → τ → Prop} {Q : τ → τ → Prop}
    (hstep : ∀ s a s' t, R s t → ok s a → S.step s a = some s' →
      ∃ t', Relation.ReflTransGen Q t t' ∧ R s' t')
    {s s' : σ} (hrun : S.Reaches ok s s') {t : τ} (hR : R s t) :
    ∃ t', Relation.ReflTransGen Q t t' ∧ R s' t' := by
  induction hrun with
  | refl => exact ⟨t, .refl, hR⟩
  | tail _ hlast ih =>
    obtain ⟨a, hok, hst⟩ := hlast
    obtain ⟨u, htu, hRu⟩ := ih
    obtain ⟨v, huv, hRv⟩ := hstep _ a _ u hRu hok hst
    exact ⟨v, htu.trans huv, hRv⟩

/-- If from every state that follows a state with `P x` can be reached, for every `x` of
    a list, and `P x` stays true, then a state with all of them can be reached. -/
theorem Reaches.exists_forall_mem {ι : Type} {P : ι → σ → Prop} {s : σ} {l : List ι}
    (hkept : ∀ x t u, P x t → S.Reaches ok t u → P x u)
    (hcan : ∀ x ∈ l, ∀ t, S.Reaches ok s t → ∃ u, S.Reaches ok t u ∧ P x u) :
    ∃ t, S.Reaches ok s t ∧ ∀ x ∈ l, P x t := by
  induction l with
  | nil => exact ⟨s, .refl, nofun⟩
  | cons x l ih =>
    obtain ⟨t, hst, ht⟩ := ih fun y hy => hcan y (List.mem_cons_of_mem x hy)
    obtain ⟨u, htu, hu⟩ := hcan x List.mem_cons_self t hst
    refine ⟨u, hst.trans htu, fun y hy => ?_⟩
    rcases List.mem_cons.mp hy with rfl | hy
    · exact hu
    · exact hkept y t u (ht y hy) htu

theorem Reachable.step {s t : σ} {a : α} (hs : S.Reachable ok s) (hok : ok s a)
    (hst : S.step s a = some t) : S.Reachable ok t :=
  hs.tail ⟨a, hok, hst⟩

theorem Reachable.mono {ok' : σ → α → Prop} (himp : ∀ s a, ok s a → ok' s a)
    {s : σ} (hs : S.Reachable ok s) : S.Reachable ok' s := by
  refine hs.invariant .refl ?_
  intro s a t _ ih hok hst
  exact ih.step (himp s a hok) hst

variable [∀ s a, Decidable (ok s a)]

/-- Evaluating a list of actions gives a run. -/
theorem reaches_of_run {as : List α} {s t : σ} (h : S.run ok s as = some t) :
    S.Reaches ok s t := by
  induction as generalizing s with
  | nil =>
    simp only [run, List.foldlM_nil, Option.pure_def, Option.some.injEq] at h
    subst h
    exact .refl
  | cons a as ih =>
    simp only [run, List.foldlM_cons, Option.bind_eq_bind, Option.bind_eq_some_iff,
      Option.ite_none_right_eq_some] at h
    obtain ⟨u, ⟨hok, hu⟩, hrest⟩ := h
    exact .head ⟨a, hok, hu⟩ (ih hrest)

variable (S ok)

/-- A check on the end of an evaluated run gives a reachable state that passes
    it. -/
theorem exists_reachable_of_run (as : List α) (P : σ → Bool)
    (h : (S.run ok S.init as).any P = true) : ∃ s, S.Reachable ok s ∧ P s = true := by
  cases hrun : S.run ok S.init as with
  | none => simp [hrun] at h
  | some s =>
    rw [hrun] at h
    exact ⟨s, reaches_of_run hrun, h⟩

/-- The same for two moments of one run. -/
theorem exists_reaches_of_run (as bs : List α) (P Q : σ → Bool)
    (h : (S.run ok S.init as).any (fun s => P s && (S.run ok s bs).any Q) = true) :
    ∃ s t, S.Reachable ok s ∧ S.Reaches ok s t ∧ P s = true ∧ Q t = true := by
  obtain ⟨s, hs, hP⟩ := S.exists_reachable_of_run ok as _ h
  rw [Bool.and_eq_true] at hP
  cases hrun : S.run ok s bs with
  | none => simp [hrun] at hP
  | some t =>
    rw [hrun] at hP
    exact ⟨s, t, hs, reaches_of_run hrun, hP.1, hP.2⟩

/-- The same for a single step from the end of the run. -/
theorem exists_step_of_run (as : List α) (a : α) (P : σ → σ → Bool)
    (h : (S.run ok S.init as).any (fun s => (S.step s a).any (P s)) = true) :
    ∃ s t, S.Reachable ok s ∧ S.step s a = some t ∧ P s t = true := by
  obtain ⟨s, hs, hP⟩ := S.exists_reachable_of_run ok as _ h
  cases hstep : S.step s a with
  | none => simp [hstep] at hP
  | some t =>
    rw [hstep] at hP
    exact ⟨s, t, hs, hstep, hP⟩

end System

end RaftLabs
