import RaftLabs.Linearizability
import Mathlib.Logic.Function.Basic

/-!
# Clients with numbered calls

Any number of clients, each with at most one call outstanding.  A client numbers
its calls, so a call is identified by the client and the number.  `Explained` is
the invariant that ties the history of the calls to a growing trace of effects:
the trace may grow by effects of calls that were invoked, and a call may be
answered once the trace holds an effect of it with that answer.
-/

namespace RaftLabs.Linearizability

variable {Q R σ : Type}

/-- The number of the latest call and, while it is outstanding, its query. -/
structure Session (Q : Type) where
  seq : Nat
  call : Option Q

/-- The clients and the history of their calls, stamped with the length that the
    trace had at each event. -/
structure Clients (Q R : Type) where
  sessions : Nat → Session Q
  history : List (Nat × Event (Nat × Nat) Q R)

namespace Clients

def start : Clients Q R where
  sessions _ := { seq := 0, call := none }
  history := []

/-- Client `c` begins a call. -/
def invoke (cl : Clients Q R) (now c : Nat) (q : Q) : Option (Clients Q R) :=
  let session := cl.sessions c
  match session.call with
  | some _ => none
  | none => some
    { sessions := Function.update cl.sessions c { seq := session.seq + 1, call := some q }
      history := cl.history ++ [(now, .invoke (c, session.seq + 1) q)] }

/-- Client `c` takes the answer to its call number `seq`. -/
def respond (cl : Clients Q R) (now c seq : Nat) (r : R) : Option (Clients Q R) :=
  let session := cl.sessions c
  if session.call.isSome ∧ session.seq = seq then some
    { sessions := Function.update cl.sessions c { session with call := none }
      history := cl.history ++ [(now, .respond (c, seq) r)] }
  else none

/-- Call `i` was made, with query `q`. -/
def Asked (cl : Clients Q R) (i : Nat × Nat) (q : Q) : Prop :=
  ∃ t, (t, .invoke i q) ∈ cl.history

theorem invoke_eq_some {cl cl' : Clients Q R} {now c : Nat} {q : Q}
    (h : cl.invoke now c q = some cl') :
    (cl.sessions c).call = none ∧
      cl'.sessions = Function.update cl.sessions c
        { seq := (cl.sessions c).seq + 1, call := some q } ∧
      cl'.history = cl.history ++ [(now, .invoke (c, (cl.sessions c).seq + 1) q)] := by
  simp only [invoke] at h
  split at h
  · exact absurd h (by simp)
  · next hcall =>
    simp only [Option.some.injEq] at h
    subst h
    exact ⟨hcall, rfl, rfl⟩

theorem respond_eq_some {cl cl' : Clients Q R} {now c seq : Nat} {r : R}
    (h : cl.respond now c seq r = some cl') :
    (cl.sessions c).call.isSome ∧ (cl.sessions c).seq = seq ∧
      cl'.sessions = Function.update cl.sessions c { cl.sessions c with call := none } ∧
      cl'.history = cl.history ++ [(now, .respond (c, seq) r)] := by
  simp only [respond] at h
  split at h
  · next hcond =>
    simp only [Option.some.injEq] at h
    subst h
    exact ⟨hcond.1, hcond.2, rfl, rfl⟩
  · exact absurd h (by simp)

/-- The number of a session never goes back. -/
theorem seq_le_of_invoke {cl cl' : Clients Q R} {now c : Nat} {q : Q}
    (h : cl.invoke now c q = some cl') (d : Nat) :
    (cl.sessions d).seq ≤ (cl'.sessions d).seq := by
  rw [(invoke_eq_some h).2.1, Function.update_apply]
  split
  · next hd => subst hd; exact Nat.le_succ _
  · exact Nat.le_refl _

theorem seq_eq_of_respond {cl cl' : Clients Q R} {now c seq : Nat} {r : R}
    (h : cl.respond now c seq r = some cl') (d : Nat) :
    (cl'.sessions d).seq = (cl.sessions d).seq := by
  rw [(respond_eq_some h).2.2.1, Function.update_apply]
  split
  · next hd => rw [hd]
  · rfl

theorem asked_invoke {cl cl' : Clients Q R} {now c : Nat} {q : Q}
    (hstep : cl.invoke now c q = some cl') (i : Nat × Nat) (p : Q) :
    cl'.Asked i p ↔ cl.Asked i p ∨ (i = (c, (cl.sessions c).seq + 1) ∧ p = q) := by
  simp only [Asked, (invoke_eq_some hstep).2.2, List.mem_append, List.mem_singleton,
    Prod.mk.injEq, Event.invoke.injEq, exists_or, exists_eq_left]

theorem asked_respond {cl cl' : Clients Q R} {now c seq : Nat} {r : R}
    (hstep : cl.respond now c seq r = some cl') (i : Nat × Nat) (p : Q) :
    cl'.Asked i p ↔ cl.Asked i p := by
  simp [Asked, (respond_eq_some hstep).2.2.2]

theorem Asked.invoke {cl cl' : Clients Q R} {now c : Nat} {q p : Q} {i : Nat × Nat}
    (h : cl.Asked i p) (hstep : cl.invoke now c q = some cl') : cl'.Asked i p :=
  (asked_invoke hstep i p).mpr (.inl h)

theorem Asked.respond {cl cl' : Clients Q R} {now c seq : Nat} {r : R} {p : Q} {i : Nat × Nat}
    (h : cl.Asked i p) (hstep : cl.respond now c seq r = some cl') : cl'.Asked i p :=
  (asked_respond hstep i p).mpr h

/-- The history without the stamps. -/
def calls (cl : Clients Q R) : List (Event (Nat × Nat) Q R) := cl.history.map Prod.snd

end Clients

/-! ### Clients that differ in their stamps -/

/-- The sessions and the calls are the same. -/
structure SameCalls (cl cl' : Clients Q R) : Prop where
  sessions : cl'.sessions = cl.sessions
  calls : cl'.calls = cl.calls

namespace SameCalls

variable {cl cl' cl₁ : Clients Q R}

theorem invoke (h : SameCalls cl cl') {t c : Nat} {q : Q} (hst : cl.invoke t c q = some cl₁)
    (t' : Nat) : ∃ cl₁', cl'.invoke t' c q = some cl₁' ∧ SameCalls cl₁ cl₁' := by
  obtain ⟨hcall, hsessions, hhistory⟩ := Clients.invoke_eq_some hst
  have hst' : cl'.invoke t' c q = some
      { sessions := Function.update cl.sessions c
          { seq := (cl.sessions c).seq + 1, call := some q }
        history := cl'.history ++ [(t', .invoke (c, (cl.sessions c).seq + 1) q)] } := by
    simp only [Clients.invoke, h.sessions, hcall]
  refine ⟨_, hst', hsessions.symm, ?_⟩
  have hcalls := h.calls
  simp only [Clients.calls, hhistory, List.map_append] at hcalls ⊢
  rw [hcalls]
  rfl

theorem respond (h : SameCalls cl cl') {t c seq : Nat} {r : R}
    (hst : cl.respond t c seq r = some cl₁) (t' : Nat) :
    ∃ cl₁', cl'.respond t' c seq r = some cl₁' ∧ SameCalls cl₁ cl₁' := by
  obtain ⟨hcall, hseq, hsessions, hhistory⟩ := Clients.respond_eq_some hst
  have hst' : cl'.respond t' c seq r = some
      { sessions := Function.update cl.sessions c { cl.sessions c with call := none }
        history := cl'.history ++ [(t', .respond (c, seq) r)] } := by
    simp only [Clients.respond, h.sessions]
    rw [if_pos ⟨hcall, hseq⟩]
  refine ⟨_, hst', hsessions.symm, ?_⟩
  have hcalls := h.calls
  simp only [Clients.calls, hhistory, List.map_append] at hcalls ⊢
  rw [hcalls]
  rfl

theorem event (h : SameCalls cl cl') {k t : Nat} {ev : Event (Nat × Nat) Q R}
    (hk : cl.history[k]? = some (t, ev)) : ∃ t', cl'.history[k]? = some (t', ev) := by
  have hcall : cl'.calls[k]? = some ev := by
    rw [h.calls, Clients.calls, List.getElem?_map, hk]
    rfl
  rw [Clients.calls, List.getElem?_map, Option.map_eq_some_iff] at hcall
  obtain ⟨⟨t', ev'⟩, hget, rfl⟩ := hcall
  exact ⟨t', hget⟩

end SameCalls

/-! ### Traces that explain a history -/

/-- The trace explains the history: effects are of calls that were invoked before,
    and answers are those of effects that happened before. -/
structure Explained (cl : Clients Q R) (effects : List (Effect (Nat × Nat) Q R)) : Prop where
  wellFormed : WellFormed cl.calls
  sorted : cl.history.Pairwise fun x y => x.1 ≤ y.1
  stamp_le : ∀ x ∈ cl.history, x.1 ≤ effects.length
  asked_seq : ∀ i q, cl.Asked i q → 0 < i.2 ∧ i.2 ≤ (cl.sessions i.1).seq
  asked_call : ∀ c q, (cl.sessions c).call = some q → cl.Asked (c, (cl.sessions c).seq) q
  same_query : ∀ i q q', cl.Asked i q → cl.Asked i q' → q = q'
  answered_seq : ∀ t i r, (t, .respond i r) ∈ cl.history →
    i.2 < (cl.sessions i.1).seq ∨ i.2 = (cl.sessions i.1).seq ∧ (cl.sessions i.1).call = none
  one_response : ∀ t t' i r r', (t, .respond i r) ∈ cl.history →
    (t', .respond i r') ∈ cl.history → t = t' ∧ r = r'
  asked : ∀ e ∈ effects, cl.Asked e.id e.query
  after_invoke : ∀ t i q, (t, .invoke i q) ∈ cl.history →
    ∀ (p : Nat) e, effects[p]? = some e → e.id = i → t ≤ p
  before_respond : ∀ t i r, (t, .respond i r) ∈ cl.history →
    ∃ (p : Nat) (e : Effect (Nat × Nat) Q R),
      p < t ∧ effects[p]? = some e ∧ e.id = i ∧ e.answer = r

namespace Explained

variable {cl cl' : Clients Q R} {effects : List (Effect (Nat × Nat) Q R)}

theorem start : Explained (Clients.start : Clients Q R) [] where
  wellFormed := WellFormed.nil
  sorted := List.Pairwise.nil
  stamp_le := by simp [Clients.start]
  asked_seq := by simp [Clients.Asked, Clients.start]
  asked_call := by simp [Clients.start]
  same_query := by simp [Clients.Asked, Clients.start]
  answered_seq := by simp [Clients.start]
  one_response := by simp [Clients.start]
  asked := by simp
  after_invoke := by simp
  before_respond := by simp [Clients.start]

/-- The trace may grow by effects of calls that were made. -/
theorem grow (h : Explained cl effects) {more : List (Effect (Nat × Nat) Q R)}
    (hmore : ∀ e ∈ more, cl.Asked e.id e.query) : Explained cl (effects ++ more) where
  wellFormed := h.wellFormed
  sorted := h.sorted
  stamp_le x hx := by
    rw [List.length_append]
    exact Nat.le_add_right_of_le (h.stamp_le x hx)
  asked_seq := h.asked_seq
  asked_call := h.asked_call
  same_query := h.same_query
  answered_seq := h.answered_seq
  one_response := h.one_response
  asked e he := (List.mem_append.mp he).elim (h.asked e) (hmore e)
  after_invoke t i q ht p e hp hid := by
    by_cases hlt : p < effects.length
    · rw [List.getElem?_append_left hlt] at hp
      exact h.after_invoke t i q ht p e hp hid
    · exact Nat.le_trans (h.stamp_le _ ht) (Nat.le_of_not_lt hlt)
  before_respond t i r ht := by
    obtain ⟨p, e, hpt, hp, hrest⟩ := h.before_respond t i r ht
    refine ⟨p, e, hpt, ?_, hrest⟩
    rw [List.getElem?_append_left (List.getElem?_eq_some_iff.mp hp).1]
    exact hp

/-- An event that happens now keeps the stamps in order. -/
theorem stamped (h : Explained cl effects) (ev : Event (Nat × Nat) Q R) :
    (cl.history ++ [(effects.length, ev)]).Pairwise (fun x y => x.1 ≤ y.1) ∧
      ∀ x ∈ cl.history ++ [(effects.length, ev)], x.1 ≤ effects.length := by
  constructor
  · refine List.pairwise_append.mpr ⟨h.sorted, List.pairwise_singleton _ _, ?_⟩
    intro x hx y hy
    cases List.mem_singleton.mp hy
    exact h.stamp_le x hx
  · intro x hx
    rcases List.mem_append.mp hx with hx | hx
    · exact h.stamp_le x hx
    · cases List.mem_singleton.mp hx
      exact Nat.le_refl _

/-- A new call has a number that no effect carries yet. -/
theorem invoke (h : Explained cl effects) {c : Nat} {q : Q}
    (hstep : cl.invoke effects.length c q = some cl') : Explained cl' effects := by
  obtain ⟨hidle, hsessions, hhistory⟩ := Clients.invoke_eq_some hstep
  have hseq := Clients.seq_le_of_invoke hstep
  have hasked := Clients.asked_invoke hstep
  have hfresh : ∀ p, ¬ cl.Asked (c, (cl.sessions c).seq + 1) p := by
    intro p hp
    have := (h.asked_seq _ _ hp).2
    dsimp only at this
    omega
  have hres : ∀ t i r, (t, .respond i r) ∈ cl'.history → (t, .respond i r) ∈ cl.history := by
    intro t i r ht
    simpa [hhistory] using ht
  refine
    { wellFormed := ?_, sorted := ?_, stamp_le := ?_, asked_seq := ?_, asked_call := ?_,
      same_query := ?_, answered_seq := ?_, one_response := ?_, asked := ?_,
      after_invoke := ?_, before_respond := ?_ }
  · rw [Clients.calls, hhistory, List.map_append]
    refine h.wellFormed.snoc ?_
    intro p hp
    obtain ⟨⟨t, _⟩, ht, rfl⟩ := List.mem_map.mp hp
    exact hfresh p ⟨t, ht⟩
  · exact hhistory ▸ (h.stamped _).1
  · exact hhistory ▸ (h.stamped _).2
  · intro i p hp
    rcases (hasked i p).mp hp with hp | ⟨rfl, -⟩
    · have := h.asked_seq i p hp
      exact ⟨this.1, Nat.le_trans this.2 (hseq _)⟩
    · simp [hsessions]
  · intro d p hp
    rw [hasked]
    by_cases hd : d = c
    · subst hd
      simp only [hsessions, Function.update_self, Option.some.injEq] at hp
      exact .inr ⟨by simp [hsessions], hp.symm⟩
    · simp only [hsessions, Function.update_of_ne hd] at hp ⊢
      exact .inl (h.asked_call d p hp)
  · intro i p p' hp hp'
    rcases (hasked i p).mp hp with hp | ⟨rfl, rfl⟩
    · rcases (hasked i p').mp hp' with hp' | ⟨rfl, rfl⟩
      · exact h.same_query i p p' hp hp'
      · exact absurd hp (hfresh p)
    · rcases (hasked _ p').mp hp' with hp' | ⟨-, rfl⟩
      · exact absurd hp' (hfresh p')
      · rfl
  · intro t i r ht
    have := h.answered_seq t i r (hres t i r ht)
    by_cases hd : i.1 = c
    · simp only [hsessions, hd, Function.update_self] at this ⊢
      omega
    · simpa only [hsessions, Function.update_of_ne hd] using this
  · intro t t' i r r' ht ht'
    exact h.one_response t t' i r r' (hres t i r ht) (hres t' i r' ht')
  · intro e he
    exact (hasked _ _).mpr (.inl (h.asked e he))
  · intro t i p ht k e hk hid
    rw [hhistory] at ht
    rcases List.mem_append.mp ht with ht | ht
    · exact h.after_invoke t i p ht k e hk hid
    · -- no effect carries the new number
      simp only [List.mem_singleton, Prod.mk.injEq, Event.invoke.injEq] at ht
      obtain ⟨-, rfl, -⟩ := ht
      have he := h.asked e (List.mem_of_getElem? hk)
      rw [hid] at he
      exact absurd he (hfresh _)
  · intro t i r ht
    exact h.before_respond t i r (hres t i r ht)

/-- A call may be answered as an effect in the trace says. -/
theorem respond (h : Explained cl effects) {c seq : Nat} {r : R}
    (hstep : cl.respond effects.length c seq r = some cl')
    (heffect : ∃ e ∈ effects, e.id = (c, seq) ∧ e.answer = r) : Explained cl' effects := by
  obtain ⟨hbusy, rfl, hsessions, hhistory⟩ := Clients.respond_eq_some hstep
  have hseq := Clients.seq_eq_of_respond hstep
  have hasked := Clients.asked_respond hstep
  have hres : ∀ t i s, (t, .respond i s) ∈ cl'.history ↔ (t, .respond i s) ∈ cl.history ∨
      (t = effects.length ∧ i = (c, (cl.sessions c).seq) ∧ s = r) := by
    intro t i s
    simp [hhistory]
  have hfresh : ∀ t s, (t, .respond (c, (cl.sessions c).seq) s) ∉ cl.history := by
    intro t s ht
    rcases h.answered_seq t _ s ht with hlt | ⟨-, hnone⟩
    · exact Nat.lt_irrefl _ hlt
    · rw [hnone] at hbusy
      exact absurd hbusy (by simp)
  refine
    { wellFormed := ?_, sorted := ?_, stamp_le := ?_, asked_seq := ?_, asked_call := ?_,
      same_query := ?_, answered_seq := ?_, one_response := ?_, asked := ?_,
      after_invoke := ?_, before_respond := ?_ }
  · rw [Clients.calls, hhistory, List.map_append]
    refine h.wellFormed.snoc ⟨?_, ?_⟩
    · obtain ⟨q, hq⟩ := Option.isSome_iff_exists.mp hbusy
      obtain ⟨t, ht⟩ := h.asked_call c q hq
      exact ⟨q, List.mem_map.mpr ⟨_, ht, rfl⟩⟩
    · intro s hs
      obtain ⟨⟨t, _⟩, ht, rfl⟩ := List.mem_map.mp hs
      exact hfresh t s ht
  · exact hhistory ▸ (h.stamped _).1
  · exact hhistory ▸ (h.stamped _).2
  · intro i p hp
    rw [hseq]
    exact h.asked_seq i p ((hasked i p).mp hp)
  · intro d p hp
    rw [hasked, hseq]
    by_cases hd : d = c
    · subst hd
      simp [hsessions] at hp
    · simp only [hsessions, Function.update_of_ne hd] at hp
      exact h.asked_call d p hp
  · intro i p p' hp hp'
    exact h.same_query i p p' ((hasked i p).mp hp) ((hasked i p').mp hp')
  · intro t i s ht
    rw [hseq]
    rcases (hres t i s).mp ht with ht | ⟨-, rfl, -⟩
    · rcases h.answered_seq t i s ht with hlt | ⟨heq, hnone⟩
      · exact .inl hlt
      · refine .inr ⟨heq, ?_⟩
        rw [hsessions, Function.update_apply]
        split
        · rfl
        · exact hnone
    · exact .inr ⟨rfl, by simp [hsessions]⟩
  · intro t t' i s s' ht ht'
    rcases (hres t i s).mp ht with ht | ⟨rfl, rfl, rfl⟩
    · rcases (hres t' i s').mp ht' with ht' | ⟨rfl, rfl, rfl⟩
      · exact h.one_response t t' i s s' ht ht'
      · exact absurd ht (hfresh t s)
    · rcases (hres t' _ s').mp ht' with ht' | ⟨rfl, -, rfl⟩
      · exact absurd ht' (hfresh t' s')
      · exact ⟨rfl, rfl⟩
  · intro e he
    exact (hasked _ _).mpr (h.asked e he)
  · intro t i p ht
    refine h.after_invoke t i p ?_
    simpa [hhistory] using ht
  · intro t i s ht
    rcases (hres t i s).mp ht with ht | ⟨rfl, rfl, rfl⟩
    · exact h.before_respond t i s ht
    · obtain ⟨e, he, hid, hans⟩ := heffect
      obtain ⟨p, hp⟩ := List.mem_iff_getElem?.mp he
      exact ⟨p, e, (List.getElem?_eq_some_iff.mp hp).1, hp, hid, hans⟩

/-- An effect of the client's latest call number or beyond is of the latest call. -/
theorem id_eq (h : Explained cl effects) {e : Effect (Nat × Nat) Q R} (he : e ∈ effects)
    {c seq : Nat} (hclient : e.id.1 = c) (hle : seq ≤ e.id.2) (hseq : (cl.sessions c).seq = seq) :
    e.id = (c, seq) := by
  subst hclient hseq
  exact Prod.ext rfl (Nat.le_antisymm (h.asked_seq _ _ (h.asked e he)).2 hle)

/-- A legal trace in which no mutation happens twice makes the history
    linearizable. -/
theorem linearizable {obj : Object σ Q R} (h : Explained cl effects) (readonly : Q → Prop)
    (hlegal : Legal obj obj.init effects) (honce : MutationsOnce readonly effects)
    (hread : ∀ q, readonly q → ∀ s, obj.next s q = s) :
    Linearizable obj cl.calls := by
  have hjust : Justifies obj readonly effects cl.history :=
    { legal := hlegal
      sorted := h.sorted
      invoked := h.asked
      same_query := fun t t' i q q' hq hq' => h.same_query i q q' ⟨t, hq⟩ ⟨t', hq'⟩
      one_response := h.one_response
      after_invoke := h.after_invoke
      before_respond := h.before_respond
      mutation_once := honce }
  exact hjust.linearizable hread

end Explained

/-- Every call but one that is outstanding has had an effect. -/
def Served (cl : Clients Q R) (effects : List (Effect (Nat × Nat) Q R)) : Prop :=
  ∀ c k, 0 < k →
    k < (cl.sessions c).seq ∨ k = (cl.sessions c).seq ∧ (cl.sessions c).call = none →
    ∃ e ∈ effects, e.id = (c, k)

namespace Served

variable {cl cl' : Clients Q R} {effects : List (Effect (Nat × Nat) Q R)}

theorem start : Served (Clients.start : Clients Q R) [] := by
  rintro c k hpos (hlt | ⟨heq, -⟩)
  · exact absurd hlt (Nat.not_lt_zero k)
  · exact absurd heq (Nat.ne_of_gt hpos)

theorem grow (h : Served cl effects) (more : List (Effect (Nat × Nat) Q R)) :
    Served cl (effects ++ more) := by
  intro c k hpos hdone
  obtain ⟨e, he, hid⟩ := h c k hpos hdone
  exact ⟨e, List.mem_append_left _ he, hid⟩

/-- A client that begins a call has had an effect of all those before. -/
theorem invoke (h : Served cl effects) {now c : Nat} {q : Q}
    (hstep : cl.invoke now c q = some cl') : Served cl' effects := by
  obtain ⟨hidle, hsessions, -⟩ := Clients.invoke_eq_some hstep
  intro d k hpos hdone
  refine h d k hpos ?_
  rw [hsessions] at hdone
  by_cases hd : d = c
  · subst hd
    rw [Function.update_self] at hdone
    rcases hdone with hlt | ⟨-, hcall⟩
    · rcases Nat.lt_or_eq_of_le (Nat.le_of_lt_succ hlt) with hlt | heq
      · exact .inl hlt
      · exact .inr ⟨heq, hidle⟩
    · cases hcall
  · rwa [Function.update_of_ne hd] at hdone

theorem respond (h : Served cl effects) {now c seq : Nat} {r : R}
    (hstep : cl.respond now c seq r = some cl') (heffect : ∃ e ∈ effects, e.id = (c, seq)) :
    Served cl' effects := by
  obtain ⟨-, rfl, hsessions, -⟩ := Clients.respond_eq_some hstep
  intro d k hpos hdone
  rw [hsessions] at hdone
  by_cases hd : d = c
  · subst hd
    rw [Function.update_self] at hdone
    rcases hdone with hlt | ⟨rfl, -⟩
    · exact h d k hpos (.inl hlt)
    · exact heffect
  · rw [Function.update_of_ne hd] at hdone
    exact h d k hpos hdone

/-- If a call of the client has had an effect, so has every call before it. -/
theorem exists_effect (h : Served cl effects) (hcl : Explained cl effects)
    {e : Effect (Nat × Nat) Q R} (he : e ∈ effects) {k : Nat} (hpos : 0 < k) (hle : k ≤ e.id.2) :
    ∃ e' ∈ effects, e'.id = (e.id.1, k) := by
  rcases Nat.lt_or_eq_of_le hle with hlt | rfl
  · have hseq := (hcl.asked_seq _ _ (hcl.asked e he)).2
    exact h e.id.1 k hpos (.inl (Nat.lt_of_lt_of_le hlt hseq))
  · exact ⟨e, he, rfl⟩

end Served

end RaftLabs.Linearizability
