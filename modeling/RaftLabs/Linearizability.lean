import Mathlib.Data.List.Basic
import Mathlib.Data.List.Nodup
import Mathlib.Tactic.Choose

/-!
# Linearizability

A history is the sequence of invocations and responses of a concurrent object.
It is linearizable if the calls that returned, and perhaps some that are still
pending, can be put in one sequential order that the object allows, that gives
the answers that were given, and in which a call that returned before another
was invoked comes first.

A system usually shows this by a trace: the sequence of effects as they happened,
mutations once and observations as often as they were made.  The history carries
the length of the trace at each event.  If effects lie between the invocation
and the response they belong to, the history is linearizable.
-/

namespace RaftLabs.Linearizability

variable {ι Q R σ : Type}

/-- A sequential object: what a query does to the state and what it answers. -/
structure Object (σ Q R : Type) where
  init : σ
  next : σ → Q → σ
  answer : σ → Q → R

inductive Event (ι Q R : Type) where
  | invoke (id : ι) (query : Q)
  | respond (id : ι) (answer : R)
deriving DecidableEq

/-- A query that has been carried out, and its answer. -/
structure Effect (ι Q R : Type) where
  id : ι
  query : Q
  answer : R

/-- The object allows the sequence of effects from state `s` on. -/
def Legal (obj : Object σ Q R) : σ → List (Effect ι Q R) → Prop
  | _, [] => True
  | s, e :: es => e.answer = obj.answer s e.query ∧ Legal obj (obj.next s e.query) es

/-- The state after a sequence of effects. -/
def after (obj : Object σ Q R) (s : σ) (es : List (Effect ι Q R)) : σ :=
  es.foldl (fun s e => obj.next s e.query) s

/-- Call `i` returned before call `j` was invoked. -/
def Precedes (history : List (Event ι Q R)) (i j : ι) : Prop :=
  ∃ past future answer query, history = past ++ future ∧
    .respond i answer ∈ past ∧ .invoke j query ∈ future

/-- What may happen after `past`: a call is invoked once, and answered at most
    once and after its invocation. -/
def Fits (past : List (Event ι Q R)) : Event ι Q R → Prop
  | .invoke i _ => ∀ q, .invoke i q ∉ past
  | .respond i _ => (∃ q, .invoke i q ∈ past) ∧ ∀ r, .respond i r ∉ past

def WellFormed (history : List (Event ι Q R)) : Prop :=
  ∀ past ev future, history = past ++ ev :: future → Fits past ev

/-- The calls of the history can be ordered as the object allows. -/
def Linearizable (obj : Object σ Q R) (history : List (Event ι Q R)) : Prop :=
  ∃ order : List (Effect ι Q R),
    (order.map Effect.id).Nodup ∧
    (∀ e ∈ order, .invoke e.id e.query ∈ history) ∧
    (∀ i r, .respond i r ∈ history → ∃ e ∈ order, e.id = i ∧ e.answer = r) ∧
    Legal obj obj.init order ∧
    ∀ (a b : Nat) x y, order[a]? = some x → order[b]? = some y →
      Precedes history x.id y.id → a < b

theorem WellFormed.nil : WellFormed ([] : List (Event ι Q R)) := by
  intro past ev future h
  simp at h

theorem WellFormed.snoc {history : List (Event ι Q R)} {ev : Event ι Q R}
    (h : WellFormed history) (hev : Fits history ev) : WellFormed (history ++ [ev]) := by
  intro past ev' future heq
  rcases List.eq_nil_or_concat future with rfl | ⟨future, last, rfl⟩
  · obtain ⟨rfl, hlast⟩ := List.append_inj' heq rfl
    cases hlast
    exact hev
  · rw [List.concat_eq_append, ← List.cons_append, ← List.append_assoc] at heq
    exact h past ev' future (List.append_inj' heq rfl).1

/-! ### Legal sequences -/

variable {obj : Object σ Q R}

theorem legal_append (s : σ) (xs ys : List (Effect ι Q R)) :
    Legal obj s (xs ++ ys) ↔ Legal obj s xs ∧ Legal obj (after obj s xs) ys := by
  induction xs generalizing s with
  | nil => simp [Legal, after]
  | cons x xs ih =>
    simp only [List.cons_append, Legal, after, List.foldl_cons, ih, and_assoc]

theorem after_append (s : σ) (xs ys : List (Effect ι Q R)) :
    after obj s (xs ++ ys) = after obj (after obj s xs) ys := by
  simp [after]

theorem Legal.exists_answer {s : σ} {es : List (Effect ι Q R)} (h : Legal obj s es)
    {e : Effect ι Q R} (he : e ∈ es) : ∃ s', e.answer = obj.answer s' e.query := by
  induction es generalizing s with
  | nil => cases he
  | cons x es ih =>
    rcases List.mem_cons.mp he with rfl | he
    · exact ⟨s, h.1⟩
    · exact ih h.2 he

/-- Observations can be left out of a legal sequence. -/
theorem Legal.filter {readonly : Q → Prop} (hread : ∀ q, readonly q → ∀ s, obj.next s q = s)
    (keep : Effect ι Q R × Nat → Bool) {es : List (Effect ι Q R × Nat)}
    (hdrop : ∀ e ∈ es, keep e = false → readonly e.1.query) {s : σ}
    (h : Legal obj s (es.map Prod.fst)) : Legal obj s ((es.filter keep).map Prod.fst) := by
  induction es generalizing s with
  | nil => exact h
  | cons e es ih =>
    obtain ⟨hanswer, hrest⟩ := h
    have ih' := ih (fun f hf => hdrop f (List.mem_cons_of_mem _ hf)) hrest
    cases hk : keep e with
    | true =>
      rw [List.filter_cons_of_pos hk]
      exact ⟨hanswer, ih'⟩
    | false =>
      rw [List.filter_cons_of_neg (by simp [hk])]
      rw [hread _ (hdrop e (List.mem_cons_self ..) hk)] at ih'
      exact ih'

/-! ### Traces -/

/-- No call that may change the state is carried out twice. -/
def MutationsOnce (readonly : Q → Prop) (effects : List (Effect ι Q R)) : Prop :=
  ∀ (p p' : Nat) e e', effects[p]? = some e → effects[p']? = some e' →
    e.id = e'.id → ¬ readonly e.query → ¬ readonly e'.query → p = p'

theorem MutationsOnce.snoc {readonly : Q → Prop} {effects : List (Effect ι Q R)}
    {e : Effect ι Q R} (h : MutationsOnce readonly effects)
    (hnew : ¬ readonly e.query → ∀ x ∈ effects, x.id = e.id → readonly x.query) :
    MutationsOnce readonly (effects ++ [e]) := by
  intro p p' x x' hp hp' hid hx hx'
  rw [List.getElem?_append] at hp hp'
  split at hp
  · split at hp'
    · exact h p p' x x' hp hp' hid hx hx'
    · cases List.mem_singleton.mp (List.mem_of_getElem? hp')
      exact absurd (hnew hx' x (List.mem_of_getElem? hp) hid) hx
  · split at hp'
    · cases List.mem_singleton.mp (List.mem_of_getElem? hp)
      exact absurd (hnew hx x' (List.mem_of_getElem? hp') hid.symm) hx'
    · have := (List.getElem?_eq_some_iff.mp hp).1
      have := (List.getElem?_eq_some_iff.mp hp').1
      simp only [List.length_singleton] at *
      omega

/-- In a list whose values increase, a smaller value stands at an earlier place. -/
theorem index_lt_of_pairwise {α : Type} {f : α → Nat} {l : List α}
    (hl : l.Pairwise fun x y => f x < f y) {a b : Nat} {x y : α} (hx : l[a]? = some x)
    (hy : l[b]? = some y) (hxy : f x < f y) : a < b := by
  obtain ⟨ha, rfl⟩ := List.getElem?_eq_some_iff.mp hx
  obtain ⟨hb, rfl⟩ := List.getElem?_eq_some_iff.mp hy
  by_contra hba
  rcases Nat.eq_or_lt_of_le (Nat.le_of_not_lt hba) with heq | hlt
  · subst heq
    exact Nat.lt_irrefl _ hxy
  · have hyx := List.pairwise_iff_getElem.mp hl b a hb ha hlt
    omega

/-- A trace that justifies a history stamped with the length the trace had at each
    event. -/
structure Justifies (obj : Object σ Q R) (readonly : Q → Prop)
    (effects : List (Effect ι Q R)) (history : List (Nat × Event ι Q R)) : Prop where
  legal : Legal obj obj.init effects
  sorted : history.Pairwise fun x y => x.1 ≤ y.1
  invoked : ∀ e ∈ effects, ∃ t, (t, .invoke e.id e.query) ∈ history
  same_query : ∀ t t' i q q', (t, .invoke i q) ∈ history → (t', .invoke i q') ∈ history → q = q'
  one_response : ∀ t t' i r r', (t, .respond i r) ∈ history → (t', .respond i r') ∈ history →
    t = t' ∧ r = r'
  after_invoke : ∀ t i q, (t, .invoke i q) ∈ history →
    ∀ (p : Nat) e, effects[p]? = some e → e.id = i → t ≤ p
  before_respond : ∀ t i r, (t, .respond i r) ∈ history →
    ∃ (p : Nat) (e : Effect ι Q R), p < t ∧ effects[p]? = some e ∧ e.id = i ∧ e.answer = r
  mutation_once : MutationsOnce readonly effects

namespace Justifies

variable {readonly : Q → Prop} {effects : List (Effect ι Q R)} {history : List (Nat × Event ι Q R)}

theorem query_eq (h : Justifies obj readonly effects history) {e e' : Effect ι Q R}
    (he : e ∈ effects) (he' : e' ∈ effects) (hid : e.id = e'.id) : e.query = e'.query := by
  obtain ⟨t, ht⟩ := h.invoked e he
  obtain ⟨t', ht'⟩ := h.invoked e' he'
  rw [← hid] at ht'
  exact h.same_query t t' e.id _ _ ht ht'

/-- A mutation has one place in the trace. -/
theorem place_eq (h : Justifies obj readonly effects history) {p p' : Nat} {e e' : Effect ι Q R}
    (he : effects[p]? = some e) (he' : effects[p']? = some e') (hid : e.id = e'.id)
    (hmut : ¬ readonly e.query) : p = p' := by
  have hquery := h.query_eq (List.mem_of_getElem? he) (List.mem_of_getElem? he') hid
  exact h.mutation_once _ _ _ _ he he' hid hmut (hquery ▸ hmut)

/-- Each call that returned has an effect from before its response. -/
theorem exists_pick (h : Justifies obj readonly effects history) :
    ∃ pick : ι → Option Nat, ∀ t i r, (t, .respond i r) ∈ history →
      ∃ (p : Nat) (e : Effect ι Q R), pick i = some p ∧ p < t ∧ effects[p]? = some e ∧
        e.id = i ∧ e.answer = r := by
  have hpick : ∀ i, ∃ pick : Option Nat, ∀ t r, (t, .respond i r) ∈ history →
      ∃ (p : Nat) (e : Effect ι Q R), pick = some p ∧ p < t ∧ effects[p]? = some e ∧
        e.id = i ∧ e.answer = r := by
    intro i
    by_cases hex : ∃ t r, (t, Event.respond i r) ∈ history
    · obtain ⟨t, r, ht⟩ := hex
      obtain ⟨p, e, hp⟩ := h.before_respond t i r ht
      refine ⟨some p, ?_⟩
      intro t' r' ht'
      obtain ⟨rfl, rfl⟩ := h.one_response t t' i r r' ht ht'
      exact ⟨p, e, rfl, hp⟩
    · exact ⟨none, fun t r ht => absurd ⟨t, r, ht⟩ hex⟩
  choose pick hpick using hpick
  exact ⟨pick, fun t i r => hpick i t r⟩

open Classical in
/-- Keep every mutation, and of the observations those that were answered. -/
theorem linearizable (h : Justifies obj readonly effects history)
    (hread : ∀ q, readonly q → ∀ s, obj.next s q = s) :
    Linearizable obj (history.map Prod.snd) := by
  obtain ⟨pick, hpick⟩ := h.exists_pick
  let keep : Effect ι Q R × Nat → Bool :=
    fun x => decide (¬ readonly x.1.query ∨ pick x.1.id = some x.2)
  let kept := effects.zipIdx.filter keep
  have hmem : ∀ x ∈ kept, effects[x.2]? = some x.1 ∧
      (¬ readonly x.1.query ∨ pick x.1.id = some x.2) := by
    intro x hx
    obtain ⟨hx, hk⟩ := List.mem_filter.mp hx
    exact ⟨List.mem_zipIdx_iff_getElem?.mp hx, of_decide_eq_true hk⟩
  have hlt : kept.Pairwise fun x y => x.2 < y.2 := by
    have hrange : (effects.zipIdx.map Prod.snd).Pairwise (· < ·) := by
      rw [List.zipIdx_map_snd]
      exact List.pairwise_lt_range'
    exact (List.pairwise_map.mp hrange).filter keep
  refine ⟨kept.map Prod.fst, ?_, ?_, ?_, ?_, ?_⟩
  · -- two kept effects of one call are at the same place
    rw [List.map_map]
    refine List.pairwise_map.mpr (hlt.imp_of_mem ?_)
    intro x y hx hy hxy hid
    obtain ⟨hgx, hkx⟩ := hmem x hx
    obtain ⟨hgy, hky⟩ := hmem y hy
    refine Nat.ne_of_lt hxy ?_
    rcases hkx with hmut | hkx
    · exact h.place_eq hgx hgy hid hmut
    · rcases hky with hmut | hky
      · exact (h.place_eq hgy hgx hid.symm hmut).symm
      · have hid' : x.1.id = y.1.id := hid
        rw [hid', hky] at hkx
        exact (Option.some.inj hkx).symm
  · intro e he
    obtain ⟨x, hx, rfl⟩ := List.mem_map.mp he
    obtain ⟨t, ht⟩ := h.invoked x.1 (List.mem_of_getElem? (hmem x hx).1)
    exact List.mem_map.mpr ⟨_, ht, rfl⟩
  · intro i r hr
    obtain ⟨⟨t, ev⟩, hev, heq⟩ := List.mem_map.mp hr
    dsimp only at heq
    subst heq
    obtain ⟨p, e, hp, -, he, rfl, rfl⟩ := hpick t i r hev
    refine ⟨e, List.mem_map.mpr ⟨(e, p), ?_, rfl⟩, rfl, rfl⟩
    exact List.mem_filter.mpr ⟨List.mem_zipIdx_iff_getElem?.mpr he, decide_eq_true (.inr hp)⟩
  · refine Legal.filter hread keep ?_ ?_
    · intro x _ hk
      by_contra hro
      have hnot := of_decide_eq_false hk
      exact hnot (.inl hro)
    · rw [List.zipIdx_map_fst]
      exact h.legal
  · intro a b x y hx hy hprec
    rw [List.getElem?_map, Option.map_eq_some_iff] at hx hy
    obtain ⟨⟨x, p⟩, hx, rfl⟩ := hx
    obtain ⟨⟨y, p'⟩, hy, rfl⟩ := hy
    obtain ⟨hgx, hkx⟩ := hmem _ (List.mem_of_getElem? hx)
    obtain ⟨hgy, -⟩ := hmem _ (List.mem_of_getElem? hy)
    dsimp only at hgx hkx hgy hprec
    -- the response of the first call is stamped no later than the invocation
    obtain ⟨past, future, r, q, hsplit, hres, hinv⟩ := hprec
    obtain ⟨past', future', rfl, rfl, rfl⟩ := List.map_eq_append_iff.mp hsplit
    obtain ⟨⟨t, _⟩, ht, rfl⟩ := List.mem_map.mp hres
    obtain ⟨⟨t', _⟩, ht', rfl⟩ := List.mem_map.mp hinv
    have hstamp : t ≤ t' := (List.pairwise_append.mp h.sorted).2.2 _ ht _ ht'
    obtain ⟨p'', e, hpe, hlt', he, hid, -⟩ :=
      hpick t x.id r (List.mem_append_left _ ht)
    have hpp : p = p'' := by
      rcases hkx with hmut | hk
      · exact h.place_eq hgx he hid.symm hmut
      · rw [hk] at hpe
        exact Option.some.inj hpe
    have hle := h.after_invoke t' y.id q (List.mem_append_right _ ht') p' y hgy rfl
    -- the kept effects are in the order of the trace
    have hord : p < p' := by omega
    exact index_lt_of_pairwise hlt hx hy hord

end Justifies

end RaftLabs.Linearizability
