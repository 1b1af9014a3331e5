import RaftLabs.PorcupineCheck

/-!
# The checker on histories of the key/value services

`KvModel` describes the value of a single key, and its `Partition` gives the checker
the operations on each key as a history of their own.  What the checker then says is
about the whole map: a history is explained key by key exactly if it can be explained
by one order of all operations on the map.
-/

namespace RaftLabs.Porcupine

open Linearization (Linearizable acceptAt)

abbrev KvOperation := Operation KvInput KvOutput

/-- The map of all keys: what it accepts of an operation, and what it becomes. -/
def storeAccepts (m : Str → Str) (op : KvOperation) : Option (Str → Str) :=
  let key := op.input.key
  if op.input.op = 0 then
    if op.output.value = m key then some m else none
  else if op.input.op = 1 then some (Function.update m key op.input.value)
  else if op.input.op = 2 then some (Function.update m key (m key ++ op.input.value))
  else if op.output.value = m key then some (Function.update m key (m key ++ op.input.value))
  else none

/-- The history can be explained by one order of its operations on the map. -/
def StoreExplains (history : List KvOperation) : Prop :=
  Linearizable storeAccepts Operation.Before (fun _ => []) history

/-! ### The keys are independent -/

theorem kvStep_accepts (s : Str) (inp : KvInput) (out : KvOutput) :
    (fillDefault KvModel).accepts s inp out =
      if inp.op = 0 then (if out.value = s then some s else none)
      else if inp.op = 1 then some inp.value
      else if inp.op = 2 then some (s ++ inp.value)
      else if out.value = s then some (s ++ inp.value) else none := by
  change (if (kvStep s inp out).1 = true then some (kvStep s inp out).2 else none) = _
  unfold kvStep
  split_ifs <;> simp_all

theorem storeAccepts_eq (m : Str → Str) (op : KvOperation) :
    storeAccepts m op = acceptAt (fun op => op.input.key)
      (fun s op => (fillDefault KvModel).accepts s op.input op.output) m op := by
  unfold storeAccepts acceptAt
  dsimp only
  rw [kvStep_accepts]
  split_ifs <;> simp

/-- The map in `Partition` holds the operations on each key. -/
theorem kvPartition_map (history : List KvOperation) (m : Str → List KvOperation) (key : Str) :
    history.foldl (fun m v => Function.update m v.input.key (m v.input.key ++ [v])) m key =
      m key ++ history.filter fun v => v.input.key = key := by
  induction history generalizing m with
  | nil => simp
  | cons v history ih =>
    rw [List.foldl_cons, ih]
    by_cases hkey : v.input.key = key
    · subst hkey
      simp
    · simp [hkey, Ne.symm hkey]

theorem mem_kvPartition {history : List KvOperation} {part : List KvOperation} :
    part ∈ kvPartition history ↔ ∃ v ∈ history,
      part = history.filter fun w => w.input.key = v.input.key := by
  simp only [kvPartition, List.mem_map, List.mem_insertionSort, List.mem_dedup, kvPartition_map,
    List.nil_append]
  refine ⟨?_, ?_⟩
  · rintro ⟨_, ⟨v, hv, rfl⟩, rfl⟩
    exact ⟨v, hv, rfl⟩
  · rintro ⟨v, hv, rfl⟩
    exact ⟨_, ⟨v, hv, rfl⟩, rfl⟩

/-- The operations on each key can be explained exactly if all operations can. -/
theorem storeExplains_iff {history : List KvOperation}
    (htimes : ∀ op ∈ history, op.call ≤ op.ret) :
    StoreExplains history ↔
      ∀ part ∈ kvPartition history, (fillDefault KvModel).Explains part := by
  have hstore : storeAccepts = acceptAt (fun op => op.input.key)
      (fun s op => (fillDefault KvModel).accepts s op.input op.output) := by
    funext m op
    exact storeAccepts_eq m op
  rw [StoreExplains, hstore]
  refine (Linearization.linearizable_iff_parts htimes).trans ⟨fun h part hpart => ?_, fun h k => ?_⟩
  · obtain ⟨v, -, rfl⟩ := mem_kvPartition.mp hpart
    exact h v.input.key
  · by_cases hk : ∃ v ∈ history, v.input.key = k
    · obtain ⟨v, hv, rfl⟩ := hk
      exact h _ (mem_kvPartition.mpr ⟨v, hv, rfl⟩)
    · have hnil : history.filter (fun v => v.input.key = k) = [] := by
        rw [List.filter_eq_nil_iff]
        intro v hv
        simpa using fun heq => hk ⟨v, hv, heq⟩
      rw [hnil]
      exact ⟨[], .nil, trivial, .nil⟩

theorem kvPartition_sublist {history part : List KvOperation} (h : part ∈ kvPartition history) :
    part.Sublist history := by
  obtain ⟨v, -, rfl⟩ := mem_kvPartition.mp h
  exact List.filter_sublist

section Check

variable {history : List KvOperation} {l : List (List (Entry KvInput KvOutput))}
  {verbose : Bool} {timeout : Int} {s : Parallel Str KvInput KvOutput l.length}

/-- What the answers of the checker mean for the map. -/
theorem kv_answer (hl : CheckOperations KvModel history l)
    (htimes : ∀ op ∈ history, op.call ≤ op.ret) (hsmall : history.length ≤ 2 ^ 64)
    (hs : (checkParallel (fillDefault KvModel) l verbose timeout).Reachable System.anyStep s)
    {result : CheckResult} {ps : List (List (List Int))} (hret : s.caller = .returned result ps) :
    (result = .ok → StoreExplains history) ∧ (result = .illegal → ¬ StoreExplains history) ∧
      (result = .unknown → 0 < timeout) ∧ (verbose = true → s.timedOut = false →
        List.Forall₂ (fillDefault KvModel).Collects (kvPartition history) ps) := by
  obtain ⟨hok, hillegal, hrest⟩ := hl.answer
    (fun part hpart op hop => htimes op ((kvPartition_sublist hpart).subset hop))
    (fun part hpart => (kvPartition_sublist hpart).length_le.trans hsmall) kvModel_equalOk hs hret
  rw [storeExplains_iff htimes]
  refine ⟨hok, fun hresult hall => ?_, hrest⟩
  obtain ⟨part, hpart, hnot⟩ := hillegal hresult
  exact hnot (hall part hpart)

end Check

end RaftLabs.Porcupine
