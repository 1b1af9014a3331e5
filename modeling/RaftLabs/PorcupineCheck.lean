import RaftLabs.PorcupineHistory
import RaftLabs.PorcupineParallel

/-!
# `checkSingle` and `checkOperations`

What the checker says about a history of operations: `checkSingle` about one part of
it, and `checkOperations`, which splits the history by the model's `Partition`, about
the whole.
-/

namespace RaftLabs.Porcupine

open Linearization (Timeline)

variable {σ I O : Type}

/-- States that `Equal` does not tell apart accept the same. -/
def FullModel.EqualOk (model : FullModel σ I O) : Prop :=
  ∀ s t input output s', model.equal s t = true → model.accepts s input output = some s' →
    ∃ t', model.accepts t input output = some t' ∧ model.equal s' t' = true

/-- The operations `xs` of the history can come first, in this order: the model accepts
    them, and none of them, and no other operation, had returned before one that comes
    earlier was called. -/
structure FullModel.CanBegin (model : FullModel σ I O) (history : List (Operation I O))
    (xs : List (Fin history.length)) : Prop where
  nodup : xs.Nodup
  accepted : ∃ s, xs.foldlM (fun s x => model.accepts s (history.get x).input
    (history.get x).output) model.init = some s
  ordered : xs.Pairwise fun a b => ¬ (history.get b).Before (history.get a)
  first : ∀ x ∈ xs, ∀ y, y ∉ xs → ¬ (history.get y).Before (history.get x)

/-- `found` are the ids of a longest sequence that can come first and contains operation
    `x`, or nil if there is none. -/
def FullModel.Longest (model : FullModel σ I O) (history : List (Operation I O))
    (x : Fin history.length) : Option (List Int) → Prop
  | none => ∀ ys, model.CanBegin history ys → x ∉ ys
  | some ids => ∃ xs, ids = xs.map (fun y => (y.val : Int)) ∧ model.CanBegin history xs ∧
      x ∈ xs ∧ ∀ ys, model.CanBegin history ys → x ∈ ys → ys.length ≤ xs.length

variable {model : FullModel σ I O} {history : List (Operation I O)} {entries : List (Entry I O)}

theorem beginning_iff {t : Timeline history.length}
    (hbefore : ∀ a b, t.Before a b ↔ (history.get a).Before (history.get b))
    {xs : List (Fin history.length)} :
    t.Beginning (fun s x => model.accepts s (history.get x).input (history.get x).output)
      model.init xs ↔ model.CanBegin history xs := by
  refine ⟨fun ⟨hnd, hacc, hord, hfirst⟩ => ⟨hnd, hacc, ?_, ?_⟩,
    fun ⟨hnd, hacc, hord, hfirst⟩ => ⟨hnd, hacc, ?_, ?_⟩⟩
  · simpa only [hbefore] using hord
  · simpa only [hbefore] using hfirst
  · simpa only [hbefore] using hord
  · simpa only [hbefore] using hfirst

theorem isLongest_iff {t : Timeline history.length}
    (hbefore : ∀ a b, t.Before a b ↔ (history.get a).Before (history.get b))
    {x : Fin history.length} {found : Option (List Int)} :
    IsLongest t (fun s x => model.accepts s (history.get x).input (history.get x).output)
      model.init x found ↔ model.Longest history x found := by
  cases found <;> simp only [IsLongest, FullModel.Longest, beginning_iff hbefore]

/-- `checkSingle` on the sorted entries of a history of at most 2^64 operations, each
    called before it returned: within a number of rounds that depends on the number of
    operations only it returns, without a panic, and its verdict says whether the model
    explains the history. -/
theorem checkSingle_correct (hentries : MakeEntries history entries)
    (htimes : ∀ op ∈ history, op.call ≤ op.ret) (hsmall : history.length ≤ 2 ^ 64)
    (hequal : model.EqualOk) (computePartial : Bool) {fuel : Nat}
    (hfuel : BacktrackSearch.cost history.length (history.length + 1) < fuel) :
    ∃ ok longest, checkSingle model entries computePartial fuel = some (ok, longest) ∧
      (ok = true ↔ model.Explains history) := by
  obtain ⟨t, hrecords, hbefore⟩ := hentries.exists_timeline htimes
  obtain ⟨ok, longest, hcheck, hverdict⟩ := checkSingle_verdict hrecords hsmall
    (fun s t x s' => hequal s t _ _ s') computePartial hfuel
  exact ⟨ok, longest, hcheck, hverdict.iff.trans (explains_iff hbefore).symm⟩

theorem kvModel_equalOk : (fillDefault KvModel).EqualOk := by
  intro s t input output s' hequal haccepts
  obtain rfl : s = t := of_decide_eq_true hequal
  exact ⟨s', haccepts, decide_eq_true rfl⟩

/-- A `Put` and a `Get` of the same key during it that finds what was put. -/
def putGet : List (Operation KvInput KvOutput) :=
  [⟨0, ⟨1, [1], [7]⟩, 0, ⟨[]⟩, 10⟩, ⟨1, ⟨0, [1], []⟩, 2, ⟨[7]⟩, 5⟩]

def putGetEntries : List (Entry KvInput KvOutput) :=
  [⟨.call ⟨1, [1], [7]⟩, 0, 0, 0⟩, ⟨.call ⟨0, [1], []⟩, 1, 2, 1⟩, ⟨.ret ⟨[7]⟩, 1, 5, 1⟩,
    ⟨.ret ⟨[]⟩, 0, 10, 0⟩]

theorem checkSingle_correct_putGet : ∃ ok longest,
    checkSingle (fillDefault KvModel) putGetEntries false 22 = some (ok, longest) ∧
      (ok = true ↔ (fillDefault KvModel).Explains putGet) :=
  checkSingle_correct (by decide) (by decide) (by decide) kvModel_equalOk false (by decide)

/-- If partial results are wanted, `checkSingle` finds for every operation a longest
    sequence of operations that can come first and contains it, also if no order of
    all operations exists. -/
theorem checkSingle_longest (hentries : MakeEntries history entries)
    (htimes : ∀ op ∈ history, op.call ≤ op.ret) (hsmall : history.length ≤ 2 ^ 64)
    (hequal : model.EqualOk) {fuel : Nat}
    (hfuel : BacktrackSearch.cost history.length (history.length + 1) < fuel) :
    ∃ ok longest, checkSingle model entries true fuel = some (ok, longest) ∧
      longest.length = history.length ∧
      ∀ x : Fin history.length, ∃ found, longest[x.val]? = some found ∧
        model.Longest history x found := by
  obtain ⟨t, hrecords, hbefore⟩ := hentries.exists_timeline htimes
  have hrespects : Linearization.Respects (fun s x =>
      model.accepts s (history.get x).input (history.get x).output) model.equal :=
    fun s t x s' => hequal s t _ _ s'
  obtain ⟨ok, longest, hcheck, hverdict⟩ :=
    checkSingle_verdict hrecords hsmall hrespects true hfuel
  refine ⟨ok, longest, hcheck, hverdict.length_longest, fun x => ?_⟩
  obtain ⟨found, hfound, hlongest⟩ := hverdict.isLongest (t.lawful hrespects) (.inl rfl) x
  exact ⟨found, hfound, (isLongest_iff hbefore).mp hlongest⟩

/-- The same `Put`, and a `Get` that finds something else. -/
def putMissed : List (Operation KvInput KvOutput) :=
  [⟨0, ⟨1, [1], [7]⟩, 0, ⟨[]⟩, 10⟩, ⟨1, ⟨0, [1], []⟩, 2, ⟨[9]⟩, 5⟩]

def putMissedEntries : List (Entry KvInput KvOutput) :=
  [⟨.call ⟨1, [1], [7]⟩, 0, 0, 0⟩, ⟨.call ⟨0, [1], []⟩, 1, 2, 1⟩, ⟨.ret ⟨[9]⟩, 1, 5, 1⟩,
    ⟨.ret ⟨[]⟩, 0, 10, 0⟩]

theorem checkSingle_longest_putMissed :
    checkSingle (fillDefault KvModel) putMissedEntries true 22 = some (false, [some [0], none]) ∧
    ∃ ok longest, checkSingle (fillDefault KvModel) putMissedEntries true 22 = some (ok, longest) ∧
      longest.length = putMissed.length ∧
      ∀ x : Fin putMissed.length, ∃ found, longest[x.val]? = some found ∧
        (fillDefault KvModel).Longest putMissed x found :=
  ⟨by decide, checkSingle_longest (by decide) (by decide) (by decide) kvModel_equalOk (by decide)⟩

/-- The sequences `ps` of ids can all come first, and for every operation one that
    contains it is as long as possible. -/
def FullModel.Collects (model : FullModel σ I O) (history : List (Operation I O))
    (ps : List (List Int)) : Prop :=
  (∀ ids ∈ ps, ∃ xs, ids = xs.map (fun x => (x.val : Int)) ∧ model.CanBegin history xs) ∧
    ∀ ys, model.CanBegin history ys → ∀ x ∈ ys, ∃ xs, xs.map (fun x => (x.val : Int)) ∈ ps ∧
      model.CanBegin history xs ∧ x ∈ xs ∧ ys.length ≤ xs.length

/-- The entries of a history as `checkParallel` wants them. -/
theorem MakeEntries.exists_recorded (hentries : MakeEntries history entries)
    (htimes : ∀ op ∈ history, op.call ≤ op.ret) (hsmall : history.length ≤ 2 ^ 64)
    (hequal : model.EqualOk) :
    ∃ r : Recorded model entries, (r.Linearizable ↔ model.Explains history) ∧
      ∀ ps, r.Collects ps → model.Collects history ps := by
  obtain ⟨t, hrecords, hbefore⟩ := hentries.exists_timeline htimes
  refine ⟨⟨history.length, t, _, _, hrecords, hsmall, fun s t x s' => hequal s t _ _ s'⟩,
    (explains_iff hbefore).symm, ?_⟩
  rintro ps ⟨hall, hmost⟩
  refine ⟨fun ids hids => ?_, fun ys hys x hx => ?_⟩
  · obtain ⟨xs, hxs, hbegin⟩ := hall ids hids
    exact ⟨xs, hxs, (beginning_iff hbefore).mp hbegin⟩
  · obtain ⟨xs, hxs, hbegin, hmem, hlen⟩ := hmost ys ((beginning_iff hbefore).mpr hys) x hx
    exact ⟨xs, hxs, (beginning_iff hbefore).mp hbegin, hmem, hlen⟩

/-! ### `checkOperations` -/

section Operations

variable [DecidableEq σ] {model : Model σ I O} {verbose : Bool} {timeout : Int}

/-- What `checkOperations` hands to `checkParallel`: the entries of every part. -/
def CheckOperations (model : Model σ I O) (history : List (Operation I O))
    (l : List (List (Entry I O))) : Prop :=
  List.Forall₂ MakeEntries ((fillDefault model).partition history) l

/-- The parts of the history as `checkParallel` wants them. -/
theorem CheckOperations.exists_parts {l : List (List (Entry I O))}
    (hl : CheckOperations model history l)
    (htimes : ∀ part ∈ (fillDefault model).partition history, ∀ op ∈ part, op.call ≤ op.ret)
    (hsmall : ∀ part ∈ (fillDefault model).partition history, part.length ≤ 2 ^ 64)
    (hequal : (fillDefault model).EqualOk) :
    ∃ parts : ∀ i : Fin l.length, Recorded (fillDefault model) (l.get i),
      ∀ i part, ((fillDefault model).partition history)[i.val]? = some part →
        ((parts i).Linearizable ↔ (fillDefault model).Explains part) ∧
          ∀ ps, (parts i).Collects ps → (fillDefault model).Collects part ps := by
  have hpart : ∀ i : Fin l.length, ∃ r : Recorded (fillDefault model) (l.get i),
      ∀ part, ((fillDefault model).partition history)[i.val]? = some part →
        (r.Linearizable ↔ (fillDefault model).Explains part) ∧
          ∀ ps, r.Collects ps → (fillDefault model).Collects part ps := by
    intro i
    have hi : i.val < ((fillDefault model).partition history).length :=
      lt_of_lt_of_eq i.isLt hl.length_eq.symm
    have hmem := List.getElem_mem hi
    have hentries := hl.get hi i.isLt
    obtain ⟨r, hr⟩ := hentries.exists_recorded (htimes _ hmem) (hsmall _ hmem) hequal
    refine ⟨r, fun part hget => ?_⟩
    rw [List.getElem?_eq_getElem hi] at hget
    cases hget
    exact hr
  choose parts hparts using hpart
  exact ⟨parts, hparts⟩

variable {l : List (List (Entry I O))} (hl : CheckOperations model history l)
  (htimes : ∀ part ∈ (fillDefault model).partition history, ∀ op ∈ part, op.call ≤ op.ret)
  (hsmall : ∀ part ∈ (fillDefault model).partition history, part.length ≤ 2 ^ 64)
  (hequal : (fillDefault model).EqualOk)
include hl htimes hsmall hequal

/-- What the answers of the checker mean. -/
theorem CheckOperations.answer {s : Parallel σ I O l.length}
    (hs : (checkParallel (fillDefault model) l verbose timeout).Reachable System.anyStep s)
    {result : CheckResult} {ps : List (List (List Int))} (hret : s.caller = .returned result ps) :
    (result = .ok →
      ∀ part ∈ (fillDefault model).partition history, (fillDefault model).Explains part) ∧
    (result = .illegal →
      ∃ part ∈ (fillDefault model).partition history, ¬ (fillDefault model).Explains part) ∧
    (result = .unknown → 0 < timeout) ∧
    (verbose = true → s.timedOut = false →
      List.Forall₂ (fillDefault model).Collects ((fillDefault model).partition history) ps) := by
  obtain ⟨parts, hparts⟩ := hl.exists_parts htimes hsmall hequal
  have hinv : ParallelInv verbose timeout parts s := parallelInv_of_reachable hs
  have hlen : ((fillDefault model).partition history).length = l.length := hl.length_eq
  obtain ⟨hok, hillegal, hunknown, hinfo⟩ := hinv.sound hret
  refine ⟨fun hresult part hpart => ?_, fun hresult => ?_, hunknown, fun hverbose htime => ?_⟩
  · obtain ⟨i, hi, rfl⟩ := List.mem_iff_getElem.mp hpart
    exact (hparts ⟨i, hlen ▸ hi⟩ _ (List.getElem?_eq_getElem hi)).1.mp (hok hresult _)
  · obtain ⟨i, hi⟩ := hillegal hresult
    have hlt : i.val < ((fillDefault model).partition history).length :=
      lt_of_lt_of_eq i.isLt hlen.symm
    exact ⟨_, List.getElem_mem hlt,
      mt (hparts i _ (List.getElem?_eq_getElem hlt)).1.mpr hi⟩
  · obtain ⟨hpslen, hps⟩ := hinfo hverbose htime
    refine List.forall₂_iff_get.mpr ⟨hlen.trans hpslen.symm, fun i hi hi' => ?_⟩
    have hil : i < l.length := hlen ▸ hi
    exact (hparts ⟨i, hil⟩ _ (List.getElem?_eq_getElem hi)).2 _
      (hps ⟨i, hil⟩ _ (List.getElem?_eq_getElem hi'))

/-- The checker comes to an end: no run is longer than a bound that depends on the
    history only, and if the history has parts, a run that cannot go on has returned.
    If it has none and there is no timeout, the checker never returns. -/
theorem checkOperations_returns :
    (∃ bound, ∀ turns s, (checkParallel (fillDefault model) l verbose timeout).run System.anyStep
      (checkParallel (fillDefault model) l verbose timeout).init turns = some s →
        turns.length ≤ bound) ∧
    ∀ s, (checkParallel (fillDefault model) l verbose timeout).Reachable System.anyStep s →
      s.crashed = false ∧
      ((fillDefault model).partition history ≠ [] →
        (∀ turn, (checkParallel (fillDefault model) l verbose timeout).step s turn = none) →
          ∃ result ps, s.caller = .returned result ps) ∧
      ((fillDefault model).partition history = [] → timeout ≤ 0 →
        s.caller = .selecting) := by
  obtain ⟨parts, -⟩ := hl.exists_parts htimes hsmall hequal
  have hnil : (fillDefault model).partition history = [] ↔ l = [] := by
    rw [← List.length_eq_zero_iff, ← List.length_eq_zero_iff, hl.length_eq]
  rw [Ne, hnil]
  exact checkParallel_returns verbose timeout parts

end Operations

/-- The goroutine starts, takes the `Put` and then the `Get`, and sends its verdict. -/
def putGetTurns : List (Turn 1) :=
  List.replicate 5 (.work 0) ++ [.receive, .finish]

theorem entries_putGet : CheckOperations KvModel putGet [putGetEntries] := by
  have hparts : kvPartition putGet = [putGet] := by decide
  change List.Forall₂ MakeEntries (kvPartition putGet) _
  rw [hparts]
  exact .cons (by decide) .nil

theorem checkOperations_returns_putGet :
    (∃ bound, ∀ turns s, (checkParallel (fillDefault KvModel) [putGetEntries] true 0).run
      System.anyStep (checkParallel (fillDefault KvModel) [putGetEntries] true 0).init turns =
        some s → turns.length ≤ bound) ∧
    ∀ s, (checkParallel (fillDefault KvModel) [putGetEntries] true 0).Reachable System.anyStep s →
      s.crashed = false ∧
      (kvPartition putGet ≠ [] →
        (∀ turn, (checkParallel (fillDefault KvModel) [putGetEntries] true 0).step s turn = none) →
          ∃ result ps, s.caller = .returned result ps) ∧
      (kvPartition putGet = [] → (0 : Int) ≤ 0 → s.caller = .selecting) :=
  checkOperations_returns entries_putGet (by decide) (by decide) kvModel_equalOk

end RaftLabs.Porcupine
