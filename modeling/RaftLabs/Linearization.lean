import RaftLabs.KeyGroups
import Mathlib.Data.List.Dedup
import Mathlib.Data.List.Perm.Basic
import Mathlib.Data.List.Sort
import Mathlib.Logic.Function.Basic

/-!
# Sequential orders of complete histories

A history here is a list of operations that have returned, each with its answer.  A
sequential object accepts an operation in a state or does not, and may come to
another state by it.  The history is linearizable if its operations can be put in an
order that the object accepts from its initial state and in which no operation comes
after one that it preceded in time.

If an operation takes up an interval of time and the object consists of independent
parts, each operation being about one part, a history is linearizable exactly if the
operations on each part are.  An accepted order of the operations on one part gives
every operation a moment inside its interval, the latest beginning so far, and
sorting all operations by these moments keeps the order within each part.
-/

namespace RaftLabs.Linearization

variable {σ α β κ τ : Type}

/-- The object accepts the operations one after another. -/
def Runs (accept : σ → α → Option σ) : σ → List α → Prop
  | _, [] => True
  | s, a :: as => ∃ s', accept s a = some s' ∧ Runs accept s' as

/-- The operations can be put in an order that the object accepts and that respects
    `before`. -/
def Linearizable (accept : σ → α → Option σ) (before : α → α → Prop) (s : σ) (ops : List α) :
    Prop :=
  ∃ order, order.Perm ops ∧ Runs accept s order ∧ order.Pairwise fun a b => ¬ before b a

variable {accept : σ → α → Option σ} {before : α → α → Prop} {s : σ}

theorem runs_iff {as : List α} : Runs accept s as ↔ ∃ s', as.foldlM accept s = some s' := by
  induction as generalizing s with
  | nil => simp [Runs]
  | cons a as ih =>
    simp only [Runs, ih, List.foldlM_cons, Option.bind_eq_bind, Option.bind_eq_some_iff]
    exact ⟨fun ⟨s₁, h₁, s₂, h₂⟩ => ⟨s₂, s₁, h₁, h₂⟩, fun ⟨s₂, s₁, h₁, h₂⟩ => ⟨s₁, h₁, s₂, h₂⟩⟩

/-! ### Renaming the operations -/

theorem runs_map (f : β → α) (as : List β) :
    Runs accept s (as.map f) ↔ Runs (fun s b => accept s (f b)) s as := by
  induction as generalizing s with
  | nil => rfl
  | cons a as ih => simp only [List.map_cons, Runs, ih]

theorem exists_map_eq_of_perm {f : β → α} {l : List β} {m : List α} (h : (l.map f).Perm m) :
    ∃ l', List.Perm l' l ∧ l'.map f = m := by
  induction m generalizing l with
  | nil => exact ⟨l, .refl l, List.Perm.eq_nil h⟩
  | cons a m ih =>
    obtain ⟨b, hb, rfl⟩ := List.mem_map.mp (h.symm.subset List.mem_cons_self)
    obtain ⟨l₁, l₂, rfl⟩ := List.append_of_mem hb
    rw [List.map_append, List.map_cons] at h
    have hrest := (List.perm_middle.symm.trans h).cons_inv
    rw [← List.map_append] at hrest
    obtain ⟨l', hl', hm⟩ := ih hrest
    exact ⟨b :: l', (hl'.cons b).trans List.perm_middle.symm, by rw [List.map_cons, hm]⟩

theorem linearizable_map (f : β → α) (ops : List β) :
    Linearizable accept before s (ops.map f) ↔
      Linearizable (fun s b => accept s (f b)) (fun a b => before (f a) (f b)) s ops := by
  refine ⟨?_, ?_⟩
  · rintro ⟨order, hperm, hruns, hordered⟩
    obtain ⟨order', hperm', rfl⟩ := exists_map_eq_of_perm hperm.symm
    exact ⟨order', hperm', (runs_map f order').mp hruns, List.pairwise_map.mp hordered⟩
  · rintro ⟨order, hperm, hruns, hordered⟩
    exact ⟨order.map f, hperm.map f, (runs_map f order).mpr hruns, List.pairwise_map.mpr hordered⟩

theorem Linearizable.perm {ops ops' : List α} (h : Linearizable accept before s ops)
    (hperm : ops.Perm ops') : Linearizable accept before s ops' := by
  obtain ⟨order, horder, hrest⟩ := h
  exact ⟨order, horder.trans hperm, hrest⟩

/-! ### Independent parts -/

section Locality

variable [DecidableEq κ] (key : α → κ)

/-- An operation of the whole object: it is about one part and leaves the others. -/
def acceptAt (accept : σ → α → Option σ) (m : κ → σ) (a : α) : Option (κ → σ) :=
  (accept (m (key a)) a).map (Function.update m (key a))

variable {key}

/-- The whole object accepts what every part accepts of it. -/
theorem runs_acceptAt {m : κ → σ} {as : List α} :
    Runs (acceptAt key accept) m as ↔
      ∀ k, Runs accept (m k) (as.filter fun a => key a = k) := by
  induction as generalizing m with
  | nil => simp [Runs]
  | cons a as ih =>
    refine ⟨?_, fun h => ?_⟩
    · rintro ⟨m', hm', hrest⟩ k
      obtain ⟨s', hs', rfl⟩ := Option.map_eq_some_iff.mp hm'
      have hk := ih.mp hrest k
      by_cases hak : key a = k
      · subst hak
        rw [List.filter_cons_of_pos (by simp)]
        rw [Function.update_self] at hk
        exact ⟨s', hs', hk⟩
      · rw [List.filter_cons_of_neg (by simp [hak])]
        rwa [Function.update_of_ne (Ne.symm hak)] at hk
    · have ha := h (key a)
      rw [List.filter_cons_of_pos (by simp)] at ha
      obtain ⟨s', hs', hrest⟩ := ha
      refine ⟨Function.update m (key a) s', by rw [acceptAt, hs']; rfl, ih.mpr fun k => ?_⟩
      by_cases hak : key a = k
      · subst hak
        rwa [Function.update_self]
      · have hk := h k
        rw [List.filter_cons_of_neg (by simp [hak])] at hk
        rwa [Function.update_of_ne (Ne.symm hak)]

/-- A linearization of the whole linearizes every part. -/
theorem Linearizable.part {m : κ → σ} {ops : List α}
    (h : Linearizable (acceptAt key accept) before m ops) (k : κ) :
    Linearizable accept before (m k) (ops.filter fun a => key a = k) := by
  obtain ⟨order, hperm, hruns, hordered⟩ := h
  exact ⟨_, hperm.filter _, runs_acceptAt.mp hruns k, hordered.filter _⟩

variable [LinearOrder τ] {call ret : α → τ}

/-- Each operation of an order that respects time can be given a moment in its
    interval such that the moments do not decrease. -/
theorem exists_moments_from {order : List α} (hint : ∀ a ∈ order, call a ≤ ret a)
    (hordered : order.Pairwise fun a b => ¬ ret b < call a) {t : τ} (ht : ∀ a ∈ order, t ≤ ret a) :
    ∃ timed : List (τ × α), timed.map Prod.snd = order ∧
      timed.Pairwise (fun x y => x.1 ≤ y.1) ∧
      ∀ x ∈ timed, t ≤ x.1 ∧ call x.2 ≤ x.1 ∧ x.1 ≤ ret x.2 := by
  induction order generalizing t with
  | nil => exact ⟨[], rfl, .nil, by simp⟩
  | cons a as ih =>
    obtain ⟨hfirst, hordered⟩ := List.pairwise_cons.mp hordered
    have hlatest : ∀ b ∈ as, max t (call a) ≤ ret b := fun b hb =>
      max_le (ht b (List.mem_cons_of_mem a hb)) (not_lt.mp (hfirst b hb))
    obtain ⟨timed, hsnd, hmono, hin⟩ :=
      ih (fun b hb => hint b (List.mem_cons_of_mem a hb)) hordered hlatest
    refine ⟨(max t (call a), a) :: timed, by rw [List.map_cons, hsnd], ?_, ?_⟩
    · exact List.pairwise_cons.mpr ⟨fun x hx => (hin x hx).1, hmono⟩
    · intro x hx
      rcases List.mem_cons.mp hx with rfl | hx
      · exact ⟨le_max_left .., le_max_right ..,
          max_le (ht a List.mem_cons_self) (hint a List.mem_cons_self)⟩
      · obtain ⟨hle, hin⟩ := hin x hx
        exact ⟨(le_max_left ..).trans hle, hin⟩

theorem exists_moments {order : List α} (hint : ∀ a ∈ order, call a ≤ ret a)
    (hordered : order.Pairwise fun a b => ¬ ret b < call a) :
    ∃ timed : List (τ × α), timed.map Prod.snd = order ∧
      timed.Pairwise (fun x y => x.1 ≤ y.1) ∧ ∀ x ∈ timed, call x.2 ≤ x.1 ∧ x.1 ≤ ret x.2 := by
  cases order with
  | nil => exact ⟨[], rfl, .nil, by simp⟩
  | cons a as =>
    have hfirst := (List.pairwise_cons.mp hordered).1
    have ht : ∀ b ∈ a :: as, call a ≤ ret b := by
      intro b hb
      rcases List.mem_cons.mp hb with rfl | hb
      · exact hint b List.mem_cons_self
      · exact not_lt.mp (hfirst b hb)
    obtain ⟨timed, hsnd, hmono, hin⟩ := exists_moments_from hint hordered ht
    exact ⟨timed, hsnd, hmono, fun x hx => (hin x hx).2⟩

/-- Locality: a history is linearizable exactly if its parts are. -/
theorem linearizable_iff_parts {m : κ → σ} {ops : List α} (hint : ∀ a ∈ ops, call a ≤ ret a) :
    Linearizable (acceptAt key accept) (fun a b => ret a < call b) m ops ↔
      ∀ k, Linearizable accept (fun a b => ret a < call b) (m k)
        (ops.filter fun a => key a = k) := by
  refine ⟨fun h k => h.part k, fun h => ?_⟩
  choose order hperm hruns hordered using h
  have hmem : ∀ k, ∀ a ∈ order k, a ∈ ops ∧ key a = k := fun k a ha => by
    simpa using (hperm k).subset ha
  choose timed hsnd hmono hin using fun k =>
    exists_moments (fun a ha => hint a (hmem k a ha).1) (hordered k)
  let keys := (ops.map key).dedup
  let sorted := (keys.flatMap timed).insertionSort fun x y => x.1 ≤ y.1
  have hsorted : sorted.Perm (keys.flatMap timed) := List.perm_insertionSort _ _
  have hall : (sorted.map Prod.snd).Perm ops := by
    have hparts : (keys.flatMap fun k => (timed k).map Prod.snd).Perm
        (keys.flatMap fun k => ops.filter fun a => key a = k) :=
      (List.Perm.refl keys).flatMap fun k _ => by
        rw [hsnd k]
        exact hperm k
    refine (hsorted.map Prod.snd).trans ?_
    rw [List.map_flatMap]
    exact hparts.trans (KeyGroups.flatMap_filter_perm (List.nodup_dedup _) fun a ha =>
      List.mem_dedup.mpr (List.mem_map_of_mem ha))
  refine ⟨sorted.map Prod.snd, hall, runs_acceptAt.mpr fun k => ?_, List.pairwise_map.mpr ?_⟩
  · -- sorting keeps the order within each part
    have hsub : (timed k).Sublist sorted := by
      by_cases hk : k ∈ keys
      · refine List.sublist_insertionSort (hmono k) ?_
        rw [List.flatMap_def]
        exact List.sublist_flatten_of_mem (List.mem_map_of_mem hk)
      · have hnil : timed k = [] := by
          rw [← List.map_eq_nil_iff, hsnd k, List.eq_nil_iff_forall_not_mem]
          intro a ha
          obtain ⟨hops, rfl⟩ := hmem k a ha
          exact hk (List.mem_dedup.mpr (List.mem_map_of_mem hops))
        rw [hnil]
        exact List.nil_sublist _
    have hpart : (order k).Sublist ((sorted.map Prod.snd).filter fun a => key a = k) := by
      have hself : (order k).filter (fun a => key a = k) = order k :=
        List.filter_eq_self.mpr fun a ha => by simpa using (hmem k a ha).2
      rw [← hself, ← hsnd k]
      exact (hsub.map Prod.snd).filter _
    have hlen := ((hall.filter fun a => key a = k).trans (hperm k).symm).length_eq
    rw [← hpart.eq_of_length hlen.symm]
    exact hruns k
  · refine (List.pairwise_insertionSort _ _).imp_of_mem ?_
    intro x y hx hy hle
    obtain ⟨k, -, hx⟩ := List.mem_flatMap.mp (hsorted.subset hx)
    obtain ⟨k', -, hy⟩ := List.mem_flatMap.mp (hsorted.subset hy)
    exact not_lt.mpr ((hin k x hx).1.trans (hle.trans (hin k' y hy).2))

end Locality

end RaftLabs.Linearization
