import RaftLabs.BacktrackSearch
import RaftLabs.Linearization
import Mathlib.Data.Fintype.Prod
import Mathlib.Data.List.FinRange
import Mathlib.Data.List.TakeWhile

/-!
# Searching for a sequential order

An operation may come next if it was called before any of the operations that are
left had returned.  A search that starts with nothing and takes such operations, as
long as the object accepts them, finds the orders that linearize a history.
-/

namespace RaftLabs.Linearization

open BacktrackSearch (Problem)

variable {σ : Type} {n : Nat}

/-- The calls and returns of `n` operations in the order in which they happened:
    `(x, false)` is the call of `x` and `(x, true)` its return. -/
structure Timeline (n : Nat) where
  marks : List (Fin n × Bool)
  nodup : marks.Nodup
  complete : ∀ x, x ∈ marks
  ordered : ∀ x, marks.idxOf (x, false) < marks.idxOf (x, true)

/-- The operations called before the first return. -/
def openCalls (marks : List (Fin n × Bool)) : List (Fin n) :=
  (marks.takeWhile fun x => !x.2).map Prod.fst

namespace Timeline

variable (t : Timeline n)

/-- `a` returned before `b` was called. -/
def Before (a b : Fin n) : Prop := t.marks.idxOf (a, true) < t.marks.idxOf (b, false)

/-- The calls and returns of the operations that are not in `L`. -/
def remaining (L : Finset (Fin n)) : List (Fin n × Bool) := t.marks.filter fun x => x.1 ∉ L

/-- The search for an order: a configuration is the set of the operations that have
    been taken and the state of the object. -/
def problem (accept : σ → Fin n → Option σ) (equal : σ → σ → Bool) (init : σ) :
    Problem (Finset (Fin n) × σ) (Fin n) where
  start := (∅, init)
  goal c := c.1 = Finset.univ
  moves c := openCalls (t.remaining c.1)
  child c x := (accept c.2 x).map fun s => (insert x c.1, s)
  same c d := c.1 = d.1 && equal c.2 d.2

/-- The operations `xs` can come first in this order: the object accepts them, and
    time orders them neither against each other nor against the others. -/
structure Beginning (accept : σ → Fin n → Option σ) (init : σ) (xs : List (Fin n)) : Prop where
  nodup : xs.Nodup
  accepted : ∃ s, xs.foldlM accept init = some s
  ordered : xs.Pairwise fun a b => ¬ t.Before b a
  first : ∀ x ∈ xs, ∀ y, y ∉ xs → ¬ t.Before y x

/-- The number of operations that are left. -/
def left (c : Finset (Fin n) × σ) : Nat := n - c.1.card

end Timeline

/-- States that are taken for equal accept the same. -/
def Respects (accept : σ → Fin n → Option σ) (equal : σ → σ → Bool) : Prop :=
  ∀ s t x s', equal s t = true → accept s x = some s' →
    ∃ t', accept t x = some t' ∧ equal s' t' = true

/-! ### Places in a list -/

theorem idxOf_lt_of_sublist {α : Type} [BEq α] [LawfulBEq α] {l : List α} (hl : l.Nodup) {p q : α}
    (h : [p, q].Sublist l) : l.idxOf p < l.idxOf q := by
  induction l with
  | nil => cases h
  | cons a l ih =>
    obtain ⟨ha, hl⟩ := List.nodup_cons.mp hl
    cases h with
    | cons _ h =>
      have hp : a ≠ p := by
        rintro rfl
        exact ha (h.subset (by simp))
      have hq : a ≠ q := by
        rintro rfl
        exact ha (h.subset (by simp))
      rw [List.idxOf_cons_ne _ hp, List.idxOf_cons_ne _ hq]
      exact Nat.succ_lt_succ (ih hl h)
    | cons_cons _ h =>
      have hq : p ≠ q := by
        rintro rfl
        exact ha (h.subset (by simp))
      rw [List.idxOf_cons_self, List.idxOf_cons_ne _ hq]
      exact Nat.succ_pos _

theorem sublist_of_idxOf_lt {α : Type} [BEq α] [LawfulBEq α] {l : List α} {p q : α}
    (hq : q ∈ l) (h : l.idxOf p < l.idxOf q) : [p, q].Sublist l := by
  induction l with
  | nil => cases hq
  | cons a l ih =>
    by_cases hqa : a = q
    · subst hqa
      simp at h
    · have hq : q ∈ l := (List.mem_cons.mp hq).resolve_left (Ne.symm hqa)
      by_cases hpa : a = p
      · subst hpa
        exact (List.singleton_sublist.mpr hq).cons_cons a
      · rw [List.idxOf_cons_ne _ hpa, List.idxOf_cons_ne _ hqa] at h
        exact (ih hq (Nat.lt_of_succ_lt_succ h)).cons a

/-- What has a later place stands behind. -/
theorem mem_of_idxOf_lt {α : Type} [BEq α] [LawfulBEq α] {xs ys : List α} {p q : α} (hp : p ∉ xs)
    (hq : q ∈ xs ++ p :: ys) (h : (xs ++ p :: ys).idxOf p < (xs ++ p :: ys).idxOf q) : q ∈ ys := by
  rw [List.idxOf_append_of_notMem hp, List.idxOf_cons_self] at h
  rcases List.mem_append.mp hq with hq | hq
  · have := List.idxOf_lt_length_of_mem hq
    rw [List.idxOf_append_of_mem hq] at h
    omega
  · rcases List.mem_cons.mp hq with rfl | hq
    · rw [List.idxOf_append_of_notMem hp, List.idxOf_cons_self] at h
      omega
    · exact hq

theorem idxOf_map {α β : Type} [BEq α] [LawfulBEq α] [BEq β] [LawfulBEq β] {f : α → β}
    (hf : Function.Injective f) (l : List α) (a : α) : (l.map f).idxOf (f a) = l.idxOf a := by
  induction l with
  | nil => rfl
  | cons b l ih =>
    by_cases hab : b = a
    · subst hab
      rw [List.map_cons, List.idxOf_cons_self, List.idxOf_cons_self]
    · rw [List.map_cons, List.idxOf_cons_ne _ (hf.ne hab), List.idxOf_cons_ne _ hab, ih]

/-- A pair that does not begin with the first element lies in the rest. -/
theorem pair_sublist_cons {α : Type} {a p q : α} {l : List α} (h : a ≠ p) :
    [p, q].Sublist (a :: l) ↔ [p, q].Sublist l := by
  refine ⟨fun hsub => ?_, List.Sublist.cons a⟩
  cases hsub with
  | cons _ hsub => exact hsub
  | cons_cons => exact absurd rfl h

/-- An operation may come next exactly if no return stands before its call. -/
theorem mem_openCalls {marks : List (Fin n × Bool)} (hnd : marks.Nodup) {x : Fin n}
    (hx : (x, false) ∈ marks) :
    x ∈ openCalls marks ↔ ∀ y, ¬ [(y, true), (x, false)].Sublist marks := by
  induction marks with
  | nil => cases hx
  | cons m marks ih =>
    obtain ⟨hm, hrest⟩ := List.nodup_cons.mp hnd
    obtain ⟨a, returned⟩ := m
    cases returned with
    | true =>
      have hx : (x, false) ∈ marks := (List.mem_cons.mp hx).resolve_left (by simp)
      refine iff_of_false (by simp [openCalls]) fun h => h a ?_
      exact (List.singleton_sublist.mpr hx).cons_cons _
    | false =>
      have hopen : openCalls ((a, false) :: marks) = a :: openCalls marks := by
        simp [openCalls]
      rw [hopen, List.mem_cons]
      simp only [pair_sublist_cons (show (a, false) ≠ (_, true) by simp)]
      by_cases hxa : x = a
      · subst hxa
        exact iff_of_true (.inl rfl) fun y h => hm (h.subset (by simp))
      · have hx : (x, false) ∈ marks := (List.mem_cons.mp hx).resolve_left (by simp [hxa])
        rw [← ih hrest hx]
        exact or_iff_right hxa

theorem call_mem_of_mem_openCalls {marks : List (Fin n × Bool)} {x : Fin n}
    (h : x ∈ openCalls marks) : (x, false) ∈ marks := by
  obtain ⟨⟨y, returned⟩, hy, rfl⟩ := List.mem_map.mp h
  obtain rfl : returned = false := by
    simpa using List.mem_takeWhile_imp hy
  exact (List.takeWhile_sublist _).subset hy

namespace Timeline

variable (t : Timeline n) {accept : σ → Fin n → Option σ} {equal : σ → σ → Bool} {init : σ}
  {L : Finset (Fin n)} {x y : Fin n}

theorem length_marks : t.marks.length = 2 * n := by
  have huniv : t.marks.toFinset = Finset.univ :=
    Finset.eq_univ_of_forall fun m => List.mem_toFinset.mpr (t.complete m)
  rw [← List.toFinset_card_of_nodup t.nodup, huniv, Finset.card_univ, Fintype.card_prod,
    Fintype.card_fin, Fintype.card_bool, Nat.mul_comm]

/-- The return of an operation stands behind its call. -/
theorem return_mem {pre ms : List (Fin n × Bool)} (h : t.marks = pre ++ (x, false) :: ms) :
    (x, true) ∈ ms := by
  have hnd := t.nodup
  have hmem := t.complete (x, true)
  have hlt := t.ordered x
  rw [h] at hnd hmem hlt
  obtain ⟨-, -, hdisj⟩ := List.nodup_append.mp hnd
  exact mem_of_idxOf_lt (fun hpre => hdisj _ hpre _ List.mem_cons_self rfl) hmem hlt

theorem mem_remaining {m : Fin n × Bool} : m ∈ t.remaining L ↔ m.1 ∉ L := by
  simp [remaining, t.complete m]

@[simp] theorem remaining_empty : t.remaining ∅ = t.marks := by
  simp [remaining]

theorem nodup_remaining (L : Finset (Fin n)) : (t.remaining L).Nodup := t.nodup.filter _

theorem remaining_eq_nil : t.remaining L = [] ↔ L = Finset.univ := by
  rw [List.eq_nil_iff_forall_not_mem, Finset.eq_univ_iff_forall]
  refine ⟨fun h x => ?_, fun h m hm => t.mem_remaining.mp hm (h m.1)⟩
  by_contra hx
  exact h (x, true) (t.mem_remaining.mpr hx)

/-- What is left when one more operation is taken, whose return was not passed. -/
theorem remaining_insert {xs ys : List (Fin n × Bool)} (h : t.remaining L = xs ++ (x, false) :: ys)
    (hxs : ∀ m ∈ xs, m.2 = false) :
    ∃ ys₁ ys₂, ys = ys₁ ++ (x, true) :: ys₂ ∧ t.remaining (insert x L) = xs ++ (ys₁ ++ ys₂) := by
  have hx : x ∉ L := t.mem_remaining.mp (h ▸ by simp : (x, false) ∈ t.remaining L)
  have hret : (x, true) ∈ xs ++ (x, false) :: ys := h ▸ t.mem_remaining.mpr hx
  have hys : (x, true) ∈ ys := by
    rcases List.mem_append.mp hret with hin | hin
    · cases hxs _ hin
    · exact (List.mem_cons.mp hin).resolve_left (by simp)
  obtain ⟨ys₁, ys₂, rfl⟩ := List.append_of_mem hys
  refine ⟨ys₁, ys₂, rfl, ?_⟩
  have hnd := t.nodup_remaining L
  have hfilter : t.remaining (insert x L) = (t.remaining L).filter fun m => m.1 ≠ x := by
    rw [remaining, remaining, List.filter_filter]
    refine List.filter_congr fun m _ => ?_
    simp only [Finset.mem_insert, not_or, Bool.decide_and, ne_eq]
  rw [h] at hnd
  -- only the two marks of `x` are about it
  have hother : ∀ m ∈ xs ++ (ys₁ ++ ys₂), m.1 ≠ x := by
    rintro ⟨y, returned⟩ hm rfl
    cases returned <;> grind
  rw [hfilter, h]
  simp only [List.filter_append, ne_eq, not_true_eq_false, decide_false, Bool.false_eq_true,
    not_false_eq_true, List.filter_cons_of_neg]
  rw [← List.filter_append, ← List.filter_append, List.filter_eq_self]
  simpa using hother

/-- The operations that may come next: those that are left and that no operation
    that is left precedes. -/
theorem mem_moves (s : σ) : x ∈ (t.problem accept equal init).moves (L, s) ↔
    x ∉ L ∧ ∀ y, y ∉ L → ¬ t.Before y x := by
  have hnd := t.nodup_remaining L
  change x ∈ openCalls (t.remaining L) ↔ _
  refine ⟨fun h => ?_, fun ⟨hx, hbefore⟩ => ?_⟩
  · have hx := call_mem_of_mem_openCalls h
    refine ⟨t.mem_remaining.mp hx, fun y hy hbefore => ?_⟩
    refine (mem_openCalls hnd hx).mp h y ?_
    have hsub := (sublist_of_idxOf_lt (t.complete _) hbefore).filter fun m => m.1 ∉ L
    rwa [List.filter_eq_self.mpr] at hsub
    intro m hm
    have hxL := t.mem_remaining.mp hx
    simp only [List.mem_cons, List.not_mem_nil, or_false] at hm
    rcases hm with rfl | rfl
    · simpa using hy
    · simpa using hxL
  · refine (mem_openCalls hnd (t.mem_remaining.mpr hx)).mpr fun y hsub => ?_
    refine hbefore y (t.mem_remaining.mp (hsub.subset (List.mem_cons_self ..))) ?_
    exact idxOf_lt_of_sublist t.nodup (hsub.trans List.filter_sublist)

theorem lawful (hequal : Respects accept equal) :
    (t.problem accept equal init).Lawful left where
  child_height := by
    rintro ⟨L, s⟩ x d hx hd
    obtain ⟨s', hs', rfl⟩ := Option.map_eq_some_iff.mp hd
    obtain ⟨hxL, -⟩ := (t.mem_moves s).mp hx
    have hcard := Finset.card_insert_of_notMem hxL
    have hle := Finset.card_le_univ (insert x L)
    rw [Fintype.card_fin] at hle
    dsimp only [left] at *
    omega
  same_height := by
    rintro ⟨L, s⟩ ⟨M, s'⟩ h
    simp only [problem, Bool.and_eq_true, decide_eq_true_eq] at h
    simp [left, h.1]
  same_goal := by
    rintro ⟨L, s⟩ ⟨M, s'⟩ h hgoal
    simp only [problem, Bool.and_eq_true, decide_eq_true_eq] at h hgoal ⊢
    exact h.1 ▸ hgoal
  same_child := by
    rintro ⟨L, s⟩ ⟨M, s'⟩ x d h hx hd
    simp only [problem, Bool.and_eq_true, decide_eq_true_eq] at h
    obtain ⟨rfl, hss'⟩ := h
    obtain ⟨s₁, hs₁, rfl⟩ := Option.map_eq_some_iff.mp hd
    obtain ⟨s₂, hs₂, heq⟩ := hequal s s' x s₁ hss' hs₁
    refine ⟨hx, (insert x L, s₂), Option.map_eq_some_iff.mpr ⟨s₂, hs₂, rfl⟩, ?_⟩
    simp [problem, heq]

theorem length_openCalls_le (L : Finset (Fin n)) : (openCalls (t.remaining L)).length ≤ n := by
  have hnd : (openCalls (t.remaining L)).Nodup := by
    refine List.Nodup.map_on ?_ ((t.nodup_remaining L).sublist (List.takeWhile_sublist _))
    intro a ha b hb heq
    have ha' := List.mem_takeWhile_imp ha
    have hb' := List.mem_takeWhile_imp hb
    exact Prod.ext heq (by simp_all)
  have hle := hnd.length_le_card
  rwa [Fintype.card_fin] at hle

/-- What a path of the search says: the operations taken make up the set and can
    come first. -/
theorem beginning_of_path {xs : List (Fin n)} {c : Finset (Fin n) × σ}
    (h : (t.problem accept equal init).Path (∅, init) xs c) :
    (∀ x, x ∈ c.1 ↔ x ∈ xs) ∧ xs.foldlM accept init = some c.2 ∧
      t.Beginning accept init xs := by
  induction h with
  | nil => exact ⟨by simp, rfl, List.nodup_nil, ⟨init, rfl⟩, .nil, by simp⟩
  | @snoc xs c d x hpath hx hd ih =>
    obtain ⟨L, s⟩ := c
    obtain ⟨s', hs', rfl⟩ := Option.map_eq_some_iff.mp hd
    obtain ⟨hxL, hbefore⟩ := (t.mem_moves s).mp hx
    obtain ⟨hmem, hruns, hbegin⟩ := ih
    dsimp only at hmem hruns hs'
    have hx : x ∉ xs := fun h => hxL ((hmem x).mpr h)
    have hruns' : (xs ++ [x]).foldlM accept init = some s' := by
      rw [List.foldlM_append, hruns]
      simp [hs']
    refine ⟨fun y => by simp [hmem y, or_comm], hruns', ?_, ⟨s', hruns'⟩, ?_, ?_⟩
    · refine List.nodup_append.mpr ⟨hbegin.nodup, List.nodup_singleton x, ?_⟩
      rintro a ha b hb rfl
      rw [← List.mem_singleton.mp hb] at hx
      exact hx ha
    · refine List.pairwise_append.mpr ⟨hbegin.ordered, List.pairwise_singleton .., ?_⟩
      intro a ha b hb
      exact List.mem_singleton.mp hb ▸ hbegin.first a ha x hx
    · intro a ha y hy
      have hyx : y ∉ xs := fun h => hy (List.mem_append_left _ h)
      rcases List.mem_append.mp ha with ha | ha
      · exact hbegin.first a ha y hyx
      · exact List.mem_singleton.mp ha ▸ hbefore y fun h => hyx ((hmem y).mp h)

/-- A sequence that can come first without its last operation. -/
theorem Beginning.dropLast {xs : List (Fin n)} (h : t.Beginning accept init (xs ++ [x])) :
    t.Beginning accept init xs := by
  obtain ⟨hnd, ⟨s, hruns⟩, hordered, hfirst⟩ := h
  obtain ⟨hordered, -, hlast⟩ := List.pairwise_append.mp hordered
  rw [List.foldlM_append] at hruns
  obtain ⟨s', hs', -⟩ := Option.bind_eq_some_iff.mp hruns
  refine ⟨(List.nodup_append.mp hnd).1, ⟨s', hs'⟩, hordered, fun a ha y hy => ?_⟩
  by_cases hyx : y = x
  · exact hyx ▸ hlast a ha x (List.mem_singleton_self x)
  · exact hfirst a (List.mem_append_left _ ha) y (by simp [hy, hyx])

/-- What can come first is found by the search. -/
theorem Beginning.path {xs : List (Fin n)} (h : t.Beginning accept init xs) :
    ∃ c, (t.problem accept equal init).Path (∅, init) xs c := by
  induction xs using List.reverseRecOn with
  | nil => exact ⟨_, .nil⟩
  | append_singleton xs x ih =>
    obtain ⟨⟨L, s⟩, hpath⟩ := ih (Beginning.dropLast t h)
    obtain ⟨hmem, hruns, -⟩ := t.beginning_of_path hpath
    dsimp only at hmem hruns
    obtain ⟨hnd, ⟨s', hruns'⟩, -, hfirst⟩ := h
    rw [List.foldlM_append, hruns] at hruns'
    have hstep : accept s x = some s' := by simpa using hruns'
    have hx : x ∉ xs := fun hx => (List.nodup_append.mp hnd).2.2 x hx x (by simp) rfl
    refine ⟨(insert x L, s'), hpath.snoc ((t.mem_moves s).mpr ⟨?_, ?_⟩) ?_⟩
    · exact fun hxL => hx ((hmem x).mp hxL)
    · intro y hy
      by_cases hyx : y = x
      · subst hyx
        exact Nat.not_lt.mpr (t.ordered y).le
      · refine hfirst x (by simp) y ?_
        simp only [List.mem_append, List.mem_singleton, not_or]
        exact ⟨fun h => hy ((hmem y).mpr h), hyx⟩
    · exact Option.map_eq_some_iff.mpr ⟨s', hstep, rfl⟩

/-- A linearization is a sequence of all operations that can come first. -/
theorem linearizable_iff : Linearizable accept t.Before init (List.finRange n) ↔
    ∃ xs, t.Beginning accept init xs ∧ ∀ x, x ∈ xs := by
  refine ⟨?_, ?_⟩
  · rintro ⟨order, hperm, hruns, hordered⟩
    have hall : ∀ x, x ∈ order := fun x => hperm.symm.subset (List.mem_finRange x)
    have hnd := hperm.nodup_iff.mpr (List.nodup_finRange n)
    exact ⟨order, ⟨hnd, runs_iff.mp hruns, hordered, fun x _ y hy => absurd (hall y) hy⟩, hall⟩
  · rintro ⟨xs, h, hall⟩
    refine ⟨xs, ?_, runs_iff.mpr h.accepted, h.ordered⟩
    rw [List.perm_ext_iff_of_nodup h.nodup (List.nodup_finRange n)]
    exact fun x => iff_of_true (hall x) (List.mem_finRange x)

/-- A search that ends at a goal has found a linearization. -/
theorem linearizable_of_path {xs : List (Fin n)} {c : Finset (Fin n) × σ}
    (h : (t.problem accept equal init).Path (∅, init) xs c)
    (hgoal : (t.problem accept equal init).goal c = true) :
    t.Beginning accept init xs ∧ ∀ x, x ∈ xs := by
  obtain ⟨hmem, -, hbegin⟩ := t.beginning_of_path h
  have huniv : c.1 = Finset.univ := of_decide_eq_true hgoal
  exact ⟨hbegin, fun x => (hmem x).mp (huniv ▸ Finset.mem_univ x)⟩

/-- And if no goal can be reached there is none. -/
theorem not_linearizable_of_hopeless (h : (t.problem accept equal init).Hopeless (∅, init)) :
    ¬ Linearizable accept t.Before init (List.finRange n) := by
  rw [linearizable_iff]
  rintro ⟨xs, hbegin, hall⟩
  obtain ⟨c, hpath⟩ : ∃ c, (t.problem accept equal init).Path (∅, init) xs c :=
    Beginning.path t hbegin
  obtain ⟨hmem, -⟩ := t.beginning_of_path hpath
  have hgoal := h xs c hpath
  rw [problem, decide_eq_false_iff_not] at hgoal
  exact hgoal (Finset.eq_univ_of_forall fun x => (hmem x).mpr (hall x))

/-! ### Other names for the operations -/

theorem rename_injective (e : Equiv.Perm (Fin n)) :
    Function.Injective fun m : Fin n × Bool => (e m.1, m.2) := by
  intro m m' h
  simp only [Prod.mk.injEq, EmbeddingLike.apply_eq_iff_eq] at h
  exact Prod.ext h.1 h.2

theorem idxOf_rename (e : Equiv.Perm (Fin n)) (x : Fin n) (returned : Bool) :
    (t.marks.map fun m => (e m.1, m.2)).idxOf (x, returned) =
      t.marks.idxOf (e.symm x, returned) := by
  have hmap := idxOf_map (rename_injective e) t.marks (e.symm x, returned)
  simpa only [e.apply_symm_apply] using hmap

/-- The timeline with the operations renamed. -/
def rename (e : Equiv.Perm (Fin n)) : Timeline n where
  marks := t.marks.map fun m => (e m.1, m.2)
  nodup := t.nodup.map (rename_injective e)
  complete m := List.mem_map.mpr ⟨(e.symm m.1, m.2), t.complete _, by simp⟩
  ordered x := by
    rw [idxOf_rename, idxOf_rename]
    exact t.ordered (e.symm x)

theorem rename_before (e : Equiv.Perm (Fin n)) (a b : Fin n) :
    (t.rename e).Before a b ↔ t.Before (e.symm a) (e.symm b) := by
  rw [Before, Before, rename, idxOf_rename, idxOf_rename]

/-- Renaming changes nothing. -/
theorem linearizable_rename (e : Equiv.Perm (Fin n)) (accept : σ → Fin n → Option σ) (init : σ) :
    Linearizable (fun s x => accept s (e.symm x)) (t.rename e).Before init (List.finRange n) ↔
      Linearizable accept t.Before init (List.finRange n) := by
  have hbefore : (t.rename e).Before = fun a b => t.Before (e.symm a) (e.symm b) := by
    funext a b
    exact propext (t.rename_before e a b)
  have hperm : ((List.finRange n).map e.symm).Perm (List.finRange n) :=
    Equiv.Perm.map_finRange_perm e.symm
  rw [hbefore, ← linearizable_map e.symm]
  exact ⟨fun h => h.perm hperm, fun h => h.perm hperm.symm⟩

end Timeline

end RaftLabs.Linearization
