import RaftLabs.PorcupineSearch

/-!
# Histories and their timelines

`makeEntries` sorts the calls and returns of a history of operations by time, with
calls before returns at the same time.  The entries are then the calls and returns of
a timeline, in which one operation comes before another exactly if it returned
earlier than the other was called.
-/

namespace RaftLabs.Porcupine

open Linearization (Timeline Linearizable)

variable {σ I O : Type}

/-- `a` had returned when `b` was called. -/
def Operation.Before (a b : Operation I O) : Prop := a.ret < b.call

/-- The history can be explained by the model. -/
def FullModel.Explains (model : FullModel σ I O) (history : List (Operation I O)) : Prop :=
  Linearizable (fun s op => model.accepts s op.input op.output) Operation.Before model.init history

/-! ### Sorted lists -/

/-- In a list that is sorted by a relation, what may not come later comes earlier. -/
theorem idxOf_lt_of_pairwise {α : Type} [BEq α] [LawfulBEq α] {R : α → α → Prop} {l : List α}
    (hl : l.Pairwise R) {p q : α} (hp : p ∈ l) (hpq : p ≠ q) (h : ¬ R q p) :
    l.idxOf p < l.idxOf q := by
  rcases lt_trichotomy (l.idxOf p) (l.idxOf q) with hlt | heq | hgt
  · exact hlt
  · exact absurd ((List.idxOf_inj hp).mp heq) hpq
  · have hsub := Linearization.sublist_of_idxOf_lt hp hgt
    exact absurd (List.pairwise_pair.mp (hl.sublist hsub)) h

theorem rel_of_idxOf_lt {α : Type} [BEq α] [LawfulBEq α] {R : α → α → Prop} {l : List α}
    (hl : l.Pairwise R) {p q : α} (hq : q ∈ l) (h : l.idxOf p < l.idxOf q) : R p q :=
  List.pairwise_pair.mp (hl.sublist (Linearization.sublist_of_idxOf_lt hq h))

/-! ### `makeEntries` -/

section Operations

variable {history : List (Operation I O)} {entries : List (Entry I O)}

def entryOf (history : List (Operation I O)) (m : Fin history.length × Bool) : Entry I O :=
  let op := history.get m.1
  if m.2 then ⟨.ret op.output, m.1.val, op.ret, op.clientId⟩
  else ⟨.call op.input, m.1.val, op.call, op.clientId⟩

/-- The calls and returns of `n` operations, in the order of the operations. -/
def opMarks (n : Nat) : List (Fin n × Bool) :=
  (List.finRange n).flatMap fun x => [(x, false), (x, true)]

theorem nodup_opMarks (n : Nat) : (opMarks n).Nodup := by
  refine List.nodup_flatMap.mpr ⟨fun x _ => by simp, ?_⟩
  refine (List.nodup_finRange n).imp fun {a b} hab => ?_
  simp [Function.onFun, Ne.symm hab]

theorem mem_opMarks {n : Nat} (m : Fin n × Bool) : m ∈ opMarks n := by
  obtain ⟨x, returned⟩ := m
  cases returned <;> simp [opMarks]

theorem opEntries_eq (history : List (Operation I O)) :
    opEntries history = (opMarks history.length).map (entryOf history) := by
  have hzip : history.zipIdx =
      (List.finRange history.length).map fun x => (history.get x, x.val) := by
    refine List.ext_getElem (by simp) fun i hi hi' => ?_
    simp
  rw [opEntries, hzip, opMarks, List.map_flatMap, List.flatMap_map]
  rfl

/-- A call comes before a return at the same time. -/
theorem less_call_ret (x y : Fin history.length) :
    (entryOf history (x, false)).less (entryOf history (y, true)) = true ↔
      (history.get x).call ≤ (history.get y).ret := by
  have hless : (entryOf history (x, false)).less (entryOf history (y, true)) =
      if (history.get x).call ≠ (history.get y).ret then
        decide ((history.get x).call < (history.get y).ret) else true := rfl
  rw [hless]
  split
  · rw [decide_eq_true_iff]
    omega
  · exact iff_of_true rfl (by omega)

theorem less_ret_call (x y : Fin history.length) :
    (entryOf history (x, true)).less (entryOf history (y, false)) = true ↔
      (history.get x).Before (history.get y) := by
  have hless : (entryOf history (x, true)).less (entryOf history (y, false)) =
      if (history.get x).ret ≠ (history.get y).call then
        decide ((history.get x).ret < (history.get y).call) else false := rfl
  rw [hless, Operation.Before]
  split
  · exact decide_eq_true_iff
  · exact iff_of_false Bool.false_ne_true (by omega)

/-- The timeline of the entries that `makeEntries` may give. -/
theorem MakeEntries.exists_timeline (h : MakeEntries history entries)
    (htimes : ∀ op ∈ history, op.call ≤ op.ret) :
    ∃ t : Timeline history.length,
      Records t (fun x => (history.get x).input) (fun x => (history.get x).output) entries ∧
      ∀ a b, t.Before a b ↔ (history.get a).Before (history.get b) := by
  obtain ⟨hperm, hsorted⟩ := h
  rw [opEntries_eq] at hperm
  obtain ⟨marks, hmarks, rfl⟩ := Linearization.exists_map_eq_of_perm hperm.symm
  have hsorted : marks.Pairwise fun a b => (entryOf history b).less (entryOf history a) = false :=
    List.pairwise_map.mp hsorted
  have hall : ∀ m, m ∈ marks := fun m => hmarks.symm.subset (mem_opMarks m)
  have hnd : marks.Nodup := hmarks.nodup_iff.mpr (nodup_opMarks _)
  have hless : ∀ m m', m ≠ m' → (entryOf history m).less (entryOf history m') = true →
      marks.idxOf m < marks.idxOf m' := by
    intro m m' hne hless
    refine idxOf_lt_of_pairwise hsorted (hall m) hne ?_
    rw [hless]
    simp
  refine ⟨⟨marks, hnd, hall, fun x => hless _ _ (by simp) ?_⟩, ?_, fun a b => ?_⟩
  · have hle := htimes _ (List.get_mem history x)
    exact (less_call_ret x x).mpr hle
  · unfold Records
    rw [List.map_map]
    refine List.map_congr_left fun m _ => ?_
    obtain ⟨x, returned⟩ := m
    cases returned <;> rfl
  · refine ⟨fun hbefore => ?_, fun hbefore => hless _ _ (by simp) ?_⟩
    · have hnot := rel_of_idxOf_lt hsorted (hall _) hbefore
      rw [← Bool.not_eq_true, less_call_ret, Int.not_le] at hnot
      exact hnot
    · exact (less_ret_call a b).mpr hbefore

/-- A timeline for the operations explains what the operations explain. -/
theorem explains_iff {model : FullModel σ I O} {t : Timeline history.length}
    (hbefore : ∀ a b, t.Before a b ↔ (history.get a).Before (history.get b)) :
    model.Explains history ↔ Linearizable
      (fun s x => model.accepts s (history.get x).input (history.get x).output) t.Before
      model.init (List.finRange history.length) := by
  have hmap : (List.finRange history.length).map history.get = history := by
    simp
  have hrel : t.Before = fun a b => (history.get a).Before (history.get b) := by
    funext a b
    exact propext (hbefore a b)
  rw [hrel]
  conv_lhs => rw [FullModel.Explains, ← hmap]
  exact Linearization.linearizable_map _ _

end Operations

end RaftLabs.Porcupine
