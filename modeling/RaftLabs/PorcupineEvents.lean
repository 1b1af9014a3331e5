import RaftLabs.PorcupineCheck
import Mathlib.Data.Fintype.EquivFin

/-!
# Histories of events

`checkEvents` takes a history as the sequence of its calls and returns, in which the
two events of an operation carry the same number.  The numbers may be any; `renumber`
replaces them by 0, 1 and so on in the order in which they appear, since the checker
uses them as places in its bitset.  What it then says is about the events as they
were given.
-/

namespace RaftLabs.Porcupine

open Linearization (Timeline Linearizable)

variable {σ I O : Type}

/-- The events are the calls and returns of a timeline; `number` gives the number of an
    operation. -/
structure EventHistory (events : List (Event I O)) where
  size : Nat
  timeline : Timeline size
  input : Fin size → I
  output : Fin size → O
  number : Fin size → Int
  injective : Function.Injective number
  small : size ≤ 2 ^ 64
  events_eq : events.map (fun e => (e.value, e.id)) =
    timeline.marks.map fun m => (valueOf input output m, number m.1)

/-- The model explains the operations of the events. -/
def EventHistory.Explained {events : List (Event I O)} (h : EventHistory events)
    (model : FullModel σ I O) : Prop :=
  Linearizable (fun s x => model.accepts s (h.input x) (h.output x)) h.timeline.Before model.init
    (List.finRange h.size)

/-! ### `renumber` -/

/-- The numbers that have been given: the places in the list of those that have
    appeared. -/
def numbers (known : List Int) (i : Int) : Option Int :=
  if i ∈ known then some (known.idxOf i : Int) else none

theorem update_numbers {known : List Int} {i : Int} (hi : i ∉ known) :
    Function.update (numbers known) i (some (known.length : Int)) = numbers (known ++ [i]) := by
  funext j
  by_cases hj : j = i
  · subst hj
    simp [numbers, List.idxOf_append_of_notMem hi]
  · by_cases hmem : j ∈ known
    · simp [numbers, hj, hmem, List.idxOf_append_of_mem hmem]
    · simp [numbers, hj, hmem]

theorem foldl_renumberEvent (events : List (Event I O)) {known : List Int} (hnd : known.Nodup)
    (e : List (Event I O)) :
    ∃ later, (known ++ later).Nodup ∧
      (∀ i, i ∈ known ++ later ↔ i ∈ known ∨ ∃ v ∈ events, v.id = i) ∧
      events.foldl renumberEvent (numbers known, (known.length : Int), e) =
        (numbers (known ++ later), ((known ++ later).length : Int),
          e ++ events.map fun v => ⟨v.clientId, v.value, ((known ++ later).idxOf v.id : Int)⟩) := by
  induction events generalizing known e with
  | nil => exact ⟨[], by simpa using hnd, by simp, by simp⟩
  | cons v events ih =>
    by_cases hv : v.id ∈ known
    · obtain ⟨later, hnd', hmem, hfold⟩ := ih hnd (e ++ [⟨v.clientId, v.value, known.idxOf v.id⟩])
      refine ⟨later, hnd', fun i => ?_, ?_⟩
      · rw [hmem]
        constructor
        · rintro (h | ⟨w, hw, rfl⟩)
          · exact .inl h
          · exact .inr ⟨w, List.mem_cons_of_mem v hw, rfl⟩
        · rintro (h | ⟨w, hw, rfl⟩)
          · exact .inl h
          · rcases List.mem_cons.mp hw with rfl | hw
            · exact .inl hv
            · exact .inr ⟨w, hw, rfl⟩
      · have hstep : renumberEvent (numbers known, (known.length : Int), e) v =
            (numbers known, (known.length : Int),
              e ++ [⟨v.clientId, v.value, known.idxOf v.id⟩]) := by
          simp [renumberEvent, numbers, hv]
        rw [List.foldl_cons, hstep, hfold, List.map_cons, List.idxOf_append_of_mem hv]
        simp
    · have hnd₁ : (known ++ [v.id]).Nodup := by
        simpa [List.nodup_append] using ⟨hnd, fun a ha h => hv (h ▸ ha)⟩
      obtain ⟨later, hnd', hmem, hfold⟩ := ih hnd₁ (e ++ [⟨v.clientId, v.value, known.length⟩])
      refine ⟨v.id :: later, by simpa using hnd', fun i => ?_, ?_⟩
      · have := hmem i
        simp only [List.append_assoc, List.singleton_append] at this
        rw [this]
        simp only [List.mem_append, List.mem_singleton, List.exists_mem_cons_iff, or_assoc,
          eq_comm (a := i)]
      · have hstep : renumberEvent (numbers known, (known.length : Int), e) v =
            (numbers (known ++ [v.id]), ((known ++ [v.id]).length : Int),
              e ++ [⟨v.clientId, v.value, known.length⟩]) := by
          have hnone : numbers known v.id = none := if_neg hv
          simp only [renumberEvent, hnone, update_numbers hv]
          simp
        rw [List.foldl_cons, hstep, hfold, List.map_cons]
        simp [List.idxOf_append_of_notMem hv]

/-- `renumber` replaces the numbers by their places in the list of the different numbers. -/
theorem renumber_eq (events : List (Event I O)) :
    ∃ known : List Int, known.Nodup ∧ (∀ i, i ∈ known ↔ ∃ v ∈ events, v.id = i) ∧
      renumber events = events.map fun v => ⟨v.clientId, v.value, (known.idxOf v.id : Int)⟩ := by
  obtain ⟨known, hnd, hmem, hfold⟩ := foldl_renumberEvent events List.nodup_nil []
  refine ⟨known, by simpa using hnd, by simpa using hmem, ?_⟩
  have hempty : (fun _ => none : Int → Option Int) = numbers [] := by
    funext i
    simp [numbers]
  rw [renumber, hempty]
  change (events.foldl renumberEvent (numbers [], (([] : List Int).length : Int), [])).2.2 = _
  rw [hfold]
  simp

/-! ### `checkEvents` -/

section CheckEvents

variable {model : FullModel σ I O} {events : List (Event I O)}

theorem map_convertEntries (events : List (Event I O)) :
    (convertEntries events).map (fun e => (e.value, e.id)) =
      events.map fun e => (e.value, e.id) := by
  rw [convertEntries, List.map_map]
  conv_rhs => rw [← List.zipIdx_map_fst 0 events, List.map_map]
  rfl

/-- The numbers that `renumber` gives are those of a renaming of the operations. -/
theorem EventHistory.exists_perm (h : EventHistory events) :
    ∃ p : Equiv.Perm (Fin h.size), (convertEntries (renumber events)).map
        (fun e => (e.value, e.id)) =
      h.timeline.marks.map fun m => (valueOf h.input h.output m, ((p m.1).val : Int)) := by
  obtain ⟨known, hnd, hmem, hrenumber⟩ := renumber_eq events
  have hknown : ∀ i, i ∈ known ↔ ∃ x, h.number x = i := by
    intro i
    have hids : events.map (fun e => e.id) = h.timeline.marks.map fun m => h.number m.1 := by
      simpa [Function.comp_def] using congrArg (List.map Prod.snd) h.events_eq
    have hin : (∃ v ∈ events, v.id = i) ↔ i ∈ events.map fun e => e.id := by simp
    rw [hmem, hin, hids, List.mem_map]
    exact ⟨fun ⟨m, _, hm⟩ => ⟨m.1, hm⟩, fun ⟨x, hx⟩ => ⟨(x, false), h.timeline.complete _, hx⟩⟩
  have hlen : known.length = h.size := by
    have hperm : known.Perm ((List.finRange h.size).map h.number) := by
      refine (List.perm_ext_iff_of_nodup hnd ((List.nodup_finRange _).map h.injective)).mpr ?_
      intro i
      rw [hknown]
      simp
    simpa using hperm.length_eq
  have hlt : ∀ x, known.idxOf (h.number x) < h.size := fun x =>
    hlen ▸ List.idxOf_lt_length_of_mem ((hknown _).mpr ⟨x, rfl⟩)
  have hinj : Function.Injective fun x => (⟨known.idxOf (h.number x), hlt x⟩ : Fin h.size) := by
    intro x y hxy
    exact h.injective ((List.idxOf_inj ((hknown _).mpr ⟨x, rfl⟩)).mp (Fin.mk.inj_iff.mp hxy))
  refine ⟨Equiv.ofBijective _ (Finite.injective_iff_bijective.mp hinj), ?_⟩
  have hvalues : (convertEntries (renumber events)).map (fun e => (e.value, e.id)) =
      events.map fun e => (e.value, (known.idxOf e.id : Int)) := by
    rw [map_convertEntries, hrenumber, List.map_map]
    rfl
  rw [hvalues]
  have hmap := congrArg (List.map fun p : Value I O × Int => (p.1, (known.idxOf p.2 : Int)))
    h.events_eq
  simpa [Function.comp_def] using hmap

/-- The entries of the renumbered events as `checkParallel` wants them. -/
theorem EventHistory.exists_recorded (h : EventHistory events)
    (hequal : model.EqualOk) :
    ∃ r : Recorded model (convertEntries (renumber events)),
      r.Linearizable ↔ h.Explained model := by
  obtain ⟨p, hp⟩ := h.exists_perm
  refine ⟨⟨h.size, h.timeline.rename p, h.input ∘ p.symm, h.output ∘ p.symm, ?_, h.small,
    fun s t x s' => hequal s t _ _ s'⟩, h.timeline.linearizable_rename p
      (fun s x => model.accepts s (h.input x) (h.output x)) model.init⟩
  rw [Records, hp, Timeline.rename, List.map_map]
  refine List.map_congr_left fun m _ => ?_
  simp [valueOf]

/-- What `checkEvents` hands to `checkParallel`. -/
def checkEventsEntries [DecidableEq σ] (model : Model σ I O) (history : List (Event I O)) :
    List (List (Entry I O)) :=
  ((fillDefault model).partitionEvent history).map fun subhistory =>
    convertEntries (renumber subhistory)

section Verdict

variable [DecidableEq σ] {model : Model σ I O} {history : List (Event I O)}
  (parts : ∀ i : Fin ((fillDefault model).partitionEvent history).length,
    EventHistory (((fillDefault model).partitionEvent history).get i))
  (hequal : (fillDefault model).EqualOk)
include hequal

/-- The parts as `checkParallel` wants them: what it judges is what was given. -/
theorem exists_recorded_events :
    ∃ recorded : ∀ i, Recorded (fillDefault model) ((checkEventsEntries model history).get i),
      (∀ i, (recorded i).Linearizable) ↔ ∀ i, (parts i).Explained (fillDefault model) := by
  have hlen : (checkEventsEntries model history).length =
      ((fillDefault model).partitionEvent history).length := List.length_map _
  have hrecorded : ∀ i,
      ∃ r : Recorded (fillDefault model) ((checkEventsEntries model history).get i),
        r.Linearizable ↔ (parts (i.cast hlen)).Explained (fillDefault model) := by
    intro i
    have hget : (checkEventsEntries model history).get i = convertEntries (renumber
        (((fillDefault model).partitionEvent history).get (i.cast hlen))) :=
      List.getElem_map _
    rw [hget]
    exact (parts (i.cast hlen)).exists_recorded hequal
  choose recorded hexplained using hrecorded
  refine ⟨recorded, fun h i => ?_, fun h i => (hexplained i).mpr (h _)⟩
  exact (hexplained (i.cast hlen.symm)).mp (h _)

/-- `CheckEvents` on a history whose parts are calls and returns of operations, under any
    numbers.  Its runs are bounded, no goroutine panics, and one that cannot go on has
    returned; only without parts and without a timeout the caller waits for ever.  In every
    interleaving `Ok` means that the model explains the events of every part, as they were
    given, and `Illegal` that there is a part that it does not explain; what is returned
    without a timeout is one of the two. -/
theorem checkEvents_sound {verbose : Bool} {timeout : Int} :
    (∃ bound, ∀ turns s, (checkParallel (fillDefault model) (checkEventsEntries model history)
      verbose timeout).run System.anyStep (checkParallel (fillDefault model)
        (checkEventsEntries model history) verbose timeout).init turns = some s →
      turns.length ≤ bound) ∧
    ∀ s, (checkParallel (fillDefault model) (checkEventsEntries model history) verbose
        timeout).Reachable System.anyStep s →
      s.crashed = false ∧
      ((fillDefault model).partitionEvent history ≠ [] →
        (∀ turn, (checkParallel (fillDefault model) (checkEventsEntries model history) verbose
          timeout).step s turn = none) → ∃ result ps, s.caller = .returned result ps) ∧
      ((fillDefault model).partitionEvent history = [] → timeout ≤ 0 → s.caller = .selecting) ∧
      ∀ result ps, s.caller = .returned result ps →
        (result = .ok → ∀ i, (parts i).Explained (fillDefault model)) ∧
        (result = .illegal → ∃ i, ¬ (parts i).Explained (fillDefault model)) ∧
        (timeout ≤ 0 → result ≠ .unknown ∧
          (result = .ok ↔ ∀ i, (parts i).Explained (fillDefault model))) := by
  obtain ⟨recorded, hall⟩ := exists_recorded_events parts hequal
  obtain ⟨hbound, hreturns⟩ := checkParallel_returns verbose timeout recorded
  have hnil : checkEventsEntries model history = [] ↔
      (fillDefault model).partitionEvent history = [] := List.map_eq_nil_iff
  rw [Ne, hnil] at hreturns
  refine ⟨hbound, fun s hs => ?_⟩
  obtain ⟨hrunning, hstuck, hnone⟩ := hreturns s hs
  refine ⟨hrunning, hstuck, hnone, fun result ps hret => ?_⟩
  have hinv : ParallelInv verbose timeout recorded s := parallelInv_of_reachable hs
  obtain ⟨hok, hillegal, hunknown, -⟩ := hinv.sound hret
  have hgood : result = .ok → ∀ i, (parts i).Explained (fillDefault model) :=
    fun hresult => hall.mp (hok hresult)
  have hbad : result = .illegal → ∃ i, ¬ (parts i).Explained (fillDefault model) := by
    intro hresult
    rw [← not_forall, ← hall, not_forall]
    exact hillegal hresult
  refine ⟨hgood, hbad, fun htimeout => ⟨fun h => absurd (hunknown h) (by omega), hgood,
    fun hexplained => ?_⟩⟩
  cases result with
  | ok => rfl
  | illegal =>
    obtain ⟨i, hi⟩ := hbad rfl
    exact absurd (hexplained i) hi
  | unknown => exact absurd (hunknown rfl) (by omega)

end Verdict

/-- A `Put` numbered 40 and a `Get` numbered 7 during it. -/
def putGetEvents : List (Event KvInput KvOutput) :=
  [⟨0, .call ⟨1, [1], [7]⟩, 40⟩, ⟨1, .call ⟨0, [1], []⟩, 7⟩, ⟨1, .ret ⟨[7]⟩, 7⟩, ⟨0, .ret ⟨[]⟩, 40⟩]

def putGetHistory : EventHistory putGetEvents where
  size := 2
  timeline :=
    { marks := [(⟨0, Nat.two_pos⟩, false), (⟨1, Nat.one_lt_two⟩, false),
        (⟨1, Nat.one_lt_two⟩, true), (⟨0, Nat.two_pos⟩, true)]
      nodup := by decide
      complete := by decide
      ordered := by decide }
  input := ![⟨1, [1], [7]⟩, ⟨0, [1], []⟩]
  output := ![⟨[]⟩, ⟨[7]⟩]
  number := ![40, 7]
  injective := by decide
  small := by decide
  events_eq := by decide

def putGetParts : ∀ i : Fin ((fillDefault KvModel).partitionEvent putGetEvents).length,
    EventHistory (((fillDefault KvModel).partitionEvent putGetEvents).get i)
  | ⟨0, _⟩ => putGetHistory

theorem checkEvents_sound_putGet : ∃ s : Parallel Str KvInput KvOutput 1,
    (checkParallel (fillDefault KvModel) (checkEventsEntries KvModel putGetEvents) false
      0).Reachable System.anyStep s ∧ s.caller = .returned .ok [] ∧
      putGetHistory.Explained (fillDefault KvModel) := by
  obtain ⟨s, hs, hret⟩ := (checkParallel (fillDefault KvModel)
    (checkEventsEntries KvModel putGetEvents) false 0).exists_reachable_of_run System.anyStep
    putGetTurns (fun s => decide (s.caller = .returned .ok [])) (by decide +kernel)
  have hret := of_decide_eq_true hret
  obtain ⟨-, -, -, hsound⟩ := (checkEvents_sound putGetParts kvModel_equalOk).2 s hs
  exact ⟨s, hs, hret, (hsound .ok [] hret).1 rfl ⟨0, by decide⟩⟩

end CheckEvents

end RaftLabs.Porcupine
