import RaftLabs.PorcupineSearch
import Mathlib.Algebra.BigOperators.Fin
import Mathlib.Algebra.Order.BigOperators.Group.Finset
import Mathlib.Data.List.Dedup

/-!
# `checkParallel`

One goroutine for each part of a history runs `checkSingle` and sends its verdict over
a channel that has room for all verdicts.  The caller takes verdicts until it has all
of them, until the first bad one if nothing else is wanted, or until the time is up,
and then tells the goroutines to stop.  A goroutine that was told to stop says that
its part is illegal, which is not true of the part; the caller does not look at such
verdicts.

The goroutines, the caller and the timer take their steps in any order.
-/

namespace RaftLabs.Porcupine

open BacktrackSearch (State)
open DancingLinks (Chain)
open Linearization (Timeline)

variable {σ I O : Type}

inductive CheckResult where
  | unknown
  | ok
  | illegal
deriving DecidableEq, Repr

/-- A goroutine: before `checkSingle`, in its loop, about to send, and done. -/
inductive Worker (σ I O : Type) where
  | started
  | running (search : Search σ I O)
  | sending (ok : Bool)
  | exited

/-- The caller: in the loop, after it, and when it has returned. -/
inductive Caller where
  | selecting
  | leaving
  | returned (result : CheckResult) (partialLinearizations : List (List (List Int)))
deriving DecidableEq, Repr

/-- The variables of `checkParallel` for `k` parts, and whether a goroutine has
    panicked. -/
structure Parallel (σ I O : Type) (k : Nat) where
  workers : Fin k → Worker σ I O
  results : List Bool
  longest : Fin k → List (Option (List Int))
  kill : Bool
  count : Nat
  ok : Bool
  timedOut : Bool
  caller : Caller
  crashed : Bool

/-- Who takes a step: a goroutine, the caller at one of its channels, or after them. -/
inductive Turn (k : Nat) where
  | work (i : Fin k)
  | receive
  | timeout
  | drain
  | finish
deriving DecidableEq, Repr

/-- The last lines of `checkParallel`. -/
def verdict (ok timedOut : Bool) : CheckResult :=
  if !ok then .illegal
  else if timedOut then .unknown
  else .ok

theorem verdict_eq_ok {ok timedOut : Bool} :
    verdict ok timedOut = .ok ↔ ok = true ∧ timedOut = false := by
  cases ok <;> cases timedOut <;> decide

theorem verdict_eq_illegal {ok timedOut : Bool} : verdict ok timedOut = .illegal ↔ ok = false := by
  cases ok <;> cases timedOut <;> decide

theorem verdict_eq_unknown {ok timedOut : Bool} :
    verdict ok timedOut = .unknown ↔ ok = true ∧ timedOut = true := by
  cases ok <;> cases timedOut <;> decide

/-- The set of the sequences of one part.  The order in which a map is ranged over is
    open; one is taken. -/
def partials (longest : List (Option (List Int))) : List (List Int) := (longest.filterMap id).dedup

section

variable (model : FullModel σ I O) (history : List (List (Entry I O))) (computeInfo : Bool)
  (timeout : Int)

/-- A step of the goroutine of part `i`. -/
def Parallel.work (s : Parallel σ I O history.length) (i : Fin history.length) :
    Option (Parallel σ I O history.length) :=
  match s.workers i with
  | .started =>
    match Search.start model (history.get i) with
    | none => some { s with crashed := true }
    | some search => some { s with workers := Function.update s.workers i (.running search) }
  | .running search =>
    match search.round model computeInfo s.kill with
    | none => some { s with crashed := true }
    | some (.continues search) =>
      some { s with workers := Function.update s.workers i (.running search) }
    | some (.returns ok l) =>
      some { s with
        workers := Function.update s.workers i (.sending ok)
        longest := Function.update s.longest i l }
  | .sending ok =>
    -- a send blocks when the buffer is full
    if s.results.length < history.length then
      some { s with
        workers := Function.update s.workers i .exited
        results := s.results ++ [ok] }
    else none
  | .exited => none

/-- The caller takes a verdict in its loop. -/
def Parallel.receive (s : Parallel σ I O history.length) :
    Option (Parallel σ I O history.length) :=
  match s.caller, s.results with
  | .selecting, result :: results =>
    let count := s.count + 1
    let ok := s.ok && result
    if !ok && !computeInfo then
      some { s with results, count, ok, kill := true, caller := .leaving }
    else if count ≥ history.length then some { s with results, count, ok, caller := .leaving }
    else some { s with results, count, ok }
  | _, _ => none

def Parallel.step (s : Parallel σ I O history.length) :
    Turn history.length → Option (Parallel σ I O history.length)
  | .work i => if s.crashed then none else s.work model history computeInfo i
  | .receive => if s.crashed then none else s.receive history computeInfo
  | .timeout =>
    match s.caller with
    | .selecting =>
      if !s.crashed && 0 < timeout then
        some { s with timedOut := true, kill := true, caller := .leaving }
      else none
    | _ => none
  | .drain =>
    match s.caller, s.results with
    | .leaving, _ :: results =>
      if !s.crashed && computeInfo && s.count < history.length then
        some { s with results, count := s.count + 1 }
      else none
    | _, _ => none
  | .finish =>
    match s.caller with
    | .leaving =>
      if !s.crashed && (!computeInfo || s.count ≥ history.length) then
        some { s with
          caller := .returned (verdict s.ok s.timedOut)
            (if computeInfo then (List.finRange history.length).map fun i => partials (s.longest i)
            else []) }
      else none
    | _ => none

def checkParallel : System (Parallel σ I O history.length) (Turn history.length) where
  init := {
    workers := fun _ => .started
    results := []
    longest := fun _ => []
    kill := false
    count := 0
    ok := true
    timedOut := false
    caller := .selecting
    crashed := false }
  step := Parallel.step model history computeInfo timeout

end

/-! ### One goroutine -/

/-- A history in the form that `checkSingle` expects, for a model whose `Equal` is one. -/
structure Recorded (model : FullModel σ I O) (entries : List (Entry I O)) where
  size : Nat
  timeline : Timeline size
  input : Fin size → I
  output : Fin size → O
  records : Records timeline input output entries
  small : size ≤ 2 ^ 64
  respects : Linearization.Respects (fun s x => model.accepts s (input x) (output x)) model.equal

namespace Recorded

variable {model : FullModel σ I O} {entries : List (Entry I O)} (r : Recorded model entries)
  (computeInfo : Bool)

def Linearizable : Prop :=
  Linearization.Linearizable (fun s x => model.accepts s (r.input x) (r.output x))
    r.timeline.Before model.init (List.finRange r.size)

/-- The operations `xs` can come first in this order. -/
def Beginning (xs : List (Fin r.size)) : Prop :=
  r.timeline.Beginning (fun s x => model.accepts s (r.input x) (r.output x)) model.init xs

/-- The sequences can all come first, and for every operation one that contains it is as
    long as possible. -/
def Collects (ps : List (List Int)) : Prop :=
  (∀ ids ∈ ps, ∃ xs, ids = xs.map (fun x => (x.val : Int)) ∧ r.Beginning xs) ∧
    ∀ ys, r.Beginning ys → ∀ x ∈ ys, ∃ xs, xs.map (fun x => (x.val : Int)) ∈ ps ∧
      r.Beginning xs ∧ x ∈ xs ∧ ys.length ≤ xs.length

def problem : BacktrackSearch.Problem (Finset (Fin r.size) × σ) (Fin r.size) :=
  searchProblem r.timeline r.input r.output model

def Verdict (ok : Bool) (longest : List (Option (List Int))) : Prop :=
  Porcupine.Verdict r.timeline r.input r.output model computeInfo ok longest

/-- The search is under way, with at most `m` rounds to go. -/
def Running (search : Search σ I O) (m : Nat) : Prop :=
  ∃ base a, Chain base r.timeline.marks.length (r.timeline.marks.map (place r.timeline)) ∧
    Sim r.timeline r.input r.output base computeInfo search a ∧
    BacktrackSearch.Inv r.problem a ∧ BacktrackSearch.Explored r.problem a ∧
    BacktrackSearch.measure r.size Timeline.left a ≤ m

/-- A verdict is right, or it was given because `kill` was set. -/
def Judged (kill ok : Bool) (longest : List (Option (List Int))) : Prop :=
  r.Verdict computeInfo ok longest ∨ ok = false ∧ kill = true

variable {r computeInfo}

theorem lawful : r.problem.Lawful Timeline.left := r.timeline.lawful r.respects

theorem length_moves_le (c : Finset (Fin r.size) × σ) : (r.problem.moves c).length ≤ r.size :=
  r.timeline.length_openCalls_le c.1

theorem exists_start (r : Recorded model entries) (computeInfo : Bool) :
    ∃ search, Search.start model entries = some search ∧
      r.Running computeInfo search (BacktrackSearch.cost r.size (r.size + 1)) := by
  obtain ⟨search, base, hstart, hbase, hsim⟩ := start_sim r.records model computeInfo
  refine ⟨search, hstart, base, _, hbase, hsim, BacktrackSearch.Inv.init,
    BacktrackSearch.Explored.init, ?_⟩
  exact BacktrackSearch.measure_init_le length_moves_le

/-- What a round can do. -/
theorem Running.round {search : Search σ I O} {m : Nat} (h : r.Running computeInfo search m)
    (kill : Bool) :
    (∃ search' m', search.round model computeInfo kill = some (.continues search') ∧
      m' < m ∧ r.Running computeInfo search' m') ∨
    ∃ ok longest, search.round model computeInfo kill = some (.returns ok longest) ∧
      r.Judged computeInfo kill ok longest := by
  obtain ⟨base, a, hbase, hsim, hinv, hexplored, hm⟩ := h
  by_cases hgoal : a.config.1 = Finset.univ
  · exact .inr ⟨_, _, hsim.round_found hbase hgoal kill, .inl (.found hinv hgoal)⟩
  cases kill with
  | true => exact .inr ⟨_, _, hsim.round_killed hbase hgoal, .inr ⟨rfl, rfl⟩⟩
  | false =>
    cases hstep : r.problem.step a with
    | found => exact absurd (of_decide_eq_true (BacktrackSearch.step_found hstep)) hgoal
    | failed =>
      exact .inr ⟨_, _, hsim.round_failed hbase hstep,
        .inl (.failed hinv hexplored hstep hsim.longest)⟩
    | going a' =>
      obtain ⟨search', hround, hsim'⟩ := hsim.round_going hbase r.small hstep
      have hmoves := BacktrackSearch.step_going hstep
      have hless := hinv.measure_lt lawful length_moves_le hmoves
      exact .inl ⟨search', _, hround, lt_of_lt_of_le hless hm, base, a', hbase, hsim',
        hinv.step lawful hmoves, hexplored.step hmoves, le_rfl⟩

theorem Verdict.iff {ok : Bool} {longest : List (Option (List Int))}
    (h : r.Verdict computeInfo ok longest) : ok = true ↔ r.Linearizable :=
  Porcupine.Verdict.iff h

theorem Verdict.partials {ok : Bool} {longest : List (Option (List Int))}
    (h : r.Verdict true ok longest) : r.Collects (partials longest) := by
  have hlongest := Porcupine.Verdict.isLongest h lawful (.inl rfl)
  refine ⟨fun ids hids => ?_, fun ys hys x hx => ?_⟩
  · obtain ⟨_, hmem, rfl⟩ := List.mem_filterMap.mp (List.mem_dedup.mp hids)
    obtain ⟨j, hget⟩ := List.mem_iff_getElem?.mp hmem
    have hj : j < r.size := by
      rw [← Porcupine.Verdict.length_longest h]
      exact (List.getElem?_eq_some_iff.mp hget).1
    obtain ⟨found, hfound, hspec⟩ := hlongest ⟨j, hj⟩
    cases hget.symm.trans hfound
    obtain ⟨xs, rfl, hbegin, -⟩ := hspec
    exact ⟨xs, rfl, hbegin⟩
  · obtain ⟨found, hfound, hspec⟩ := hlongest x
    cases found with
    | none => exact absurd hx (hspec ys hys)
    | some ids =>
      obtain ⟨xs, rfl, hbegin, hxs, hmost⟩ := hspec
      refine ⟨xs, List.mem_dedup.mpr (List.mem_filterMap.mpr ⟨_, ?_, rfl⟩), hbegin, hxs,
        hmost ys hys hx⟩
      exact List.mem_of_getElem? hfound

theorem Judged.mono {kill kill' ok : Bool} {longest : List (Option (List Int))}
    (h : r.Judged computeInfo kill ok longest) (hkill : kill = true → kill' = true) :
    r.Judged computeInfo kill' ok longest :=
  h.imp id fun ⟨hok, hk⟩ => ⟨hok, hkill hk⟩

end Recorded

/-! ### All goroutines -/

section Run

variable {model : FullModel σ I O} {history : List (List (Entry I O))} (computeInfo : Bool)
  (timeout : Int) (parts : ∀ i : Fin history.length, Recorded model (history.get i))

/-- Where a goroutine may be. -/
def WorkerOk (s : Parallel σ I O history.length) (i : Fin history.length) :
    Worker σ I O → Prop
  | .started => True
  | .running search => ∃ m, (parts i).Running computeInfo search m
  | .sending ok => (parts i).Judged computeInfo s.kill ok (s.longest i)
  | .exited => True

/-- A goroutine has at most `m` steps to go. -/
def WorkerLeft (i : Fin history.length) (m : Nat) : Worker σ I O → Prop
  | .started => BacktrackSearch.cost (parts i).size ((parts i).size + 1) + 3 ≤ m
  | .running search => ∃ m', (parts i).Running computeInfo search m' ∧ m' + 2 ≤ m
  | .sending _ => 1 ≤ m
  | .exited => True

/-- The verdicts that have been sent, and by whom: those that the caller has taken and
    those in the channel. -/
structure Sent (s : Parallel σ I O history.length)
    (received pending : List (Fin history.length × Bool)) : Prop where
  nodup : ((received ++ pending).map Prod.fst).Nodup
  exited : ∀ i, i ∈ (received ++ pending).map Prod.fst ↔ s.workers i = .exited
  count : s.count = received.length
  results : s.results = pending.map Prod.snd
  judged : ∀ p ∈ received ++ pending,
    (parts p.1).Judged computeInfo s.kill p.2 (s.longest p.1)

structure ParallelInv (s : Parallel σ I O history.length) : Prop where
  running : s.crashed = false
  workers : ∀ i, WorkerOk computeInfo parts s i (s.workers i)
  sent : ∃ received pending, Sent computeInfo parts s received pending ∧
    (s.caller = .selecting → (s.ok = true ↔ ∀ p ∈ received, p.2 = true))
  illegal : s.ok = false → ∃ i, ¬ (parts i).Linearizable
  legal : s.caller ≠ .selecting → s.ok = true → s.timedOut = false →
    ∀ i, (parts i).Linearizable
  counting : s.caller = .selecting → 0 < history.length → s.count < history.length
  killed : s.kill = true → s.caller ≠ .selecting ∧ (s.timedOut = true ∨ computeInfo = false)
  timedOut : s.timedOut = true → 0 < timeout
  returned : ∀ result partialLinearizations,
    s.caller = .returned result partialLinearizations →
      result = verdict s.ok s.timedOut ∧ (computeInfo = true →
        (∀ i, s.workers i = .exited) ∧ partialLinearizations =
          (List.finRange history.length).map fun i => partials (s.longest i))

variable {computeInfo timeout parts} {s s' : Parallel σ I O history.length}
  {received pending : List (Fin history.length × Bool)}

theorem Sent.length_le (h : Sent computeInfo parts s received pending) :
    received.length + pending.length ≤ history.length := by
  have hle := h.nodup.length_le_card
  rwa [List.length_map, List.length_append, Fintype.card_fin] at hle

/-- When all verdicts have been taken, all goroutines are done. -/
theorem Sent.all (h : Sent computeInfo parts s received pending)
    (hcount : history.length ≤ s.count) : pending = [] ∧ ∀ i, i ∈ received.map Prod.fst := by
  have hle := h.length_le
  have hnil : pending = [] := List.length_eq_zero_iff.mp (by rw [h.count] at hcount; omega)
  refine ⟨hnil, fun i => ?_⟩
  have hnd := h.nodup
  rw [hnil, List.append_nil] at hnd
  have hcard : (received.map Prod.fst).toFinset.card = Fintype.card (Fin history.length) := by
    rw [List.toFinset_card_of_nodup hnd, List.length_map, Fintype.card_fin, ← h.count]
    have := h.count
    omega
  exact List.mem_toFinset.mp ((Finset.card_eq_iff_eq_univ _).mp hcard ▸ Finset.mem_univ i)

/-- A step of a goroutine that has not sent its verdict and does not send it. -/
theorem Sent.work (h : Sent computeInfo parts s received pending) {i : Fin history.length}
    {w : Worker σ I O} (hi : s.workers i ≠ .exited) (hw : w ≠ .exited)
    (l : List (Option (List Int))) :
    Sent computeInfo parts { s with
      workers := Function.update s.workers i w
      longest := Function.update s.longest i l } received pending where
  nodup := h.nodup
  exited j := by
    by_cases hij : j = i
    · subst hij
      simpa [hw] using (h.exited j).not.mpr hi
    · simpa [hij] using h.exited j
  count := h.count
  results := h.results
  judged p hp := by
    have hne : p.1 ≠ i := by
      rintro rfl
      exact hi ((h.exited p.1).mp (List.mem_map_of_mem hp))
    simpa [hne] using h.judged p hp

/-- A goroutine sends its verdict. -/
theorem Sent.send (h : Sent computeInfo parts s received pending) {i : Fin history.length}
    {ok : Bool} (hi : s.workers i = .sending ok)
    (hjudged : (parts i).Judged computeInfo s.kill ok (s.longest i)) :
    Sent computeInfo parts { s with
      workers := Function.update s.workers i .exited
      results := s.results ++ [ok] } received (pending ++ [(i, ok)]) := by
  have hnew : i ∉ (received ++ pending).map Prod.fst := by
    rw [h.exited i, hi]
    simp
  constructor
  · rw [← List.append_assoc, List.map_append]
    exact List.nodup_append.mpr ⟨h.nodup, List.nodup_singleton i, by
      rintro a ha _ hb rfl
      obtain rfl : a = i := List.mem_singleton.mp hb
      exact hnew ha⟩
  · intro j
    rw [← List.append_assoc, List.map_append, List.mem_append, h.exited j]
    by_cases hij : j = i
    · subst hij
      simp
    · simp [hij]
  · exact h.count
  · simp [h.results]
  · intro p hp
    rw [← List.append_assoc] at hp
    rcases List.mem_append.mp hp with hp | hp
    · exact h.judged p hp
    · rw [List.mem_singleton.mp hp]
      exact hjudged

/-- The caller takes a verdict. -/
theorem Sent.take {p : Fin history.length × Bool}
    (h : Sent computeInfo parts s received (p :: pending)) (hworkers : s'.workers = s.workers)
    (hlongest : s'.longest = s.longest) (hcount : s'.count = s.count + 1)
    (hresults : s'.results = pending.map Prod.snd) (hkill : s.kill = true → s'.kill = true) :
    Sent computeInfo parts s' (received ++ [p]) pending where
  nodup := by simpa using h.nodup
  exited i := by simpa [hworkers] using h.exited i
  count := by simp [hcount, h.count]
  results := hresults
  judged q hq := by
    rw [hlongest]
    exact (h.judged q (by simpa using hq)).mono hkill

/-- Who sent the verdict that is next in the channel. -/
theorem Sent.exists_next (h : Sent computeInfo parts s received pending) {result : Bool}
    {results : List Bool} (hresults : s.results = result :: results) :
    ∃ i pending', pending = (i, result) :: pending' ∧ results = pending'.map Prod.snd := by
  have hmap := h.results
  rw [hresults] at hmap
  cases pending with
  | nil => cases hmap
  | cons p pending =>
    obtain ⟨i, ok⟩ := p
    simp only [List.map_cons, List.cons.injEq] at hmap
    exact ⟨i, pending, by rw [hmap.1], hmap.2⟩

theorem WorkerOk.congr {i : Fin history.length} {w : Worker σ I O}
    (h : WorkerOk computeInfo parts s i w) (hkill : s.kill = true → s'.kill = true)
    (hlongest : s'.longest i = s.longest i) : WorkerOk computeInfo parts s' i w := by
  cases w with
  | sending ok =>
    change (parts i).Judged computeInfo s'.kill ok (s'.longest i)
    rw [hlongest]
    exact Recorded.Judged.mono h hkill
  | _ => exact h

theorem ParallelInv.init : ParallelInv computeInfo timeout parts
    (checkParallel model history computeInfo timeout).init where
  running := rfl
  workers _ := trivial
  sent := ⟨[], [], ⟨by simp, by simp [checkParallel], rfl, rfl, by simp⟩, by simp [checkParallel]⟩
  illegal := by simp [checkParallel]
  legal := by simp [checkParallel]
  counting _ hpos := hpos
  killed := by simp [checkParallel]
  timedOut := by simp [checkParallel]
  returned := by simp [checkParallel]

/-- What a step of a goroutine can do. -/
theorem work_cases {i : Fin history.length} (hinv : ParallelInv computeInfo timeout parts s)
    (hst : s.work model history computeInfo i = some s') :
    (∃ w l, s.workers i ≠ .exited ∧ w ≠ .exited ∧ s' = { s with
        workers := Function.update s.workers i w
        longest := Function.update s.longest i l } ∧ WorkerOk computeInfo parts s' i w ∧
        ∀ m, WorkerLeft computeInfo parts i m (s.workers i) →
          ∃ m' < m, WorkerLeft computeInfo parts i m' w) ∨
    ∃ ok, s.workers i = .sending ok ∧ s' = { s with
      workers := Function.update s.workers i .exited
      results := s.results ++ [ok] } := by
  have hi := hinv.workers i
  unfold Parallel.work at hst
  cases hw : s.workers i with
  | started =>
    obtain ⟨search, hstart, hrunning⟩ := (parts i).exists_start computeInfo
    simp only [hw, hstart, Option.some.injEq] at hst
    refine .inl ⟨.running search, s.longest i, by simp, by simp, ?_, ⟨_, hrunning⟩, fun m hm => ?_⟩
    · rw [← hst, Function.update_eq_self]
    · exact ⟨m - 1, by change _ + 3 ≤ m at hm; omega, _, hrunning, by change _ + 3 ≤ m at hm; omega⟩
  | running search =>
    rw [hw] at hi
    obtain ⟨m, hrunning⟩ := hi
    rcases hrunning.round s.kill with ⟨search', m', hround, -, hrunning'⟩ |
      ⟨ok, l, hround, hjudged⟩
    · simp only [hw, hround, Option.some.injEq] at hst
      refine .inl ⟨.running search', s.longest i, by simp, by simp, ?_, ⟨m', hrunning'⟩, ?_⟩
      · rw [← hst, Function.update_eq_self]
      · rintro n ⟨k, hk, hkn⟩
        rcases hk.round s.kill with ⟨search'', k', hround', hlt, hrunning''⟩ | ⟨_, _, hround', -⟩
        · cases hround.symm.trans hround'
          exact ⟨k' + 2, by omega, k', hrunning'', le_rfl⟩
        · cases hround.symm.trans hround'
    · simp only [hw, hround, Option.some.injEq] at hst
      refine .inl ⟨.sending ok, l, by simp, by simp, hst.symm, ?_, ?_⟩
      · rw [← hst]
        simpa [WorkerOk] using hjudged
      · rintro n ⟨k, -, hkn⟩
        exact ⟨1, by omega, le_refl 1⟩
  | sending ok =>
    simp only [hw, Option.ite_none_right_eq_some, Option.some.injEq] at hst
    exact .inr ⟨ok, rfl, hst.2.symm⟩
  | exited =>
    simp [hw] at hst

theorem ParallelInv.work {i : Fin history.length} (h : ParallelInv computeInfo timeout parts s)
    (hst : s.work model history computeInfo i = some s') :
    ParallelInv computeInfo timeout parts s' := by
  obtain ⟨received, pending, hsent, hok⟩ := h.sent
  rcases work_cases h hst with ⟨w, l, hi, hw, rfl, hworker, -⟩ | ⟨ok, hi, rfl⟩
  · refine ⟨h.running, fun j => ?_, ⟨received, pending, hsent.work hi hw l, hok⟩, h.illegal,
      h.legal, h.counting, h.killed, h.timedOut, fun result ps hret => ?_⟩
    · by_cases hij : j = i
      · subst hij
        simpa using hworker
      · dsimp only
        rw [Function.update_of_ne hij]
        exact (h.workers j).congr id (Function.update_of_ne hij ..)
    · obtain ⟨hresult, hdone⟩ := h.returned result ps hret
      exact ⟨hresult, fun hinfo => absurd ((hdone hinfo).1 i) hi⟩
  · have hjudged := h.workers i
    rw [hi] at hjudged
    refine ⟨h.running, fun j => ?_, ⟨received, _, hsent.send hi hjudged, hok⟩, h.illegal,
      h.legal, h.counting, h.killed, h.timedOut, fun result ps hret => ?_⟩
    · by_cases hij : j = i
      · subst hij
        simp [WorkerOk]
      · dsimp only
        rw [Function.update_of_ne hij]
        exact (h.workers j).congr id rfl
    · obtain ⟨hresult, hdone⟩ := h.returned result ps hret
      exact ⟨hresult, fun hinfo => absurd ((hdone hinfo).1 i) (by simp [hi])⟩

/-- While the caller is in its loop every verdict is right. -/
theorem ParallelInv.verdict (h : ParallelInv computeInfo timeout parts s)
    (hsent : Sent computeInfo parts s received pending) (hcaller : s.caller = .selecting)
    {p : Fin history.length × Bool} (hp : p ∈ received ++ pending) :
    (parts p.1).Verdict computeInfo p.2 (s.longest p.1) := by
  rcases hsent.judged p hp with hverdict | ⟨-, hkill⟩
  · exact hverdict
  · exact absurd hcaller (h.killed hkill).1

/-- What taking a verdict in the loop can do. -/
theorem receive_cases (hst : s.receive history computeInfo = some s') :
    ∃ result results, s.caller = .selecting ∧ s.results = result :: results ∧
      s' = { s with
        results := results
        count := s.count + 1
        ok := s.ok && result
        kill := s.kill || (!(s.ok && result) && !computeInfo)
        caller := if (!(s.ok && result) && !computeInfo) || s.count + 1 ≥ history.length
          then .leaving else .selecting } := by
  unfold Parallel.receive at hst
  split at hst
  · next result results hcaller hresults =>
    refine ⟨result, results, hcaller, hresults, ?_⟩
    dsimp only at hst
    generalize (!(s.ok && result) && !computeInfo) = bad at hst ⊢
    cases bad with
    | true => simpa using hst.symm
    | false =>
      by_cases hall : s.count + 1 ≥ history.length
      · simpa [hall] using hst.symm
      · simpa [hall, hcaller] using hst.symm
  · cases hst

theorem ParallelInv.receive (h : ParallelInv computeInfo timeout parts s)
    (hst : s.receive history computeInfo = some s') :
    ParallelInv computeInfo timeout parts s' := by
  obtain ⟨result, results, hcaller, hresults, hs'⟩ := receive_cases hst
  obtain ⟨received, pending, hsent, hok⟩ := h.sent
  obtain ⟨i, pending, rfl, rfl⟩ := hsent.exists_next hresults
  have hverdict := h.verdict hsent hcaller (p := (i, result)) (by simp)
  have hkill : s.kill = false := by
    by_contra hkill
    exact (h.killed (by simpa using hkill)).1 hcaller
  have hokay : (s.ok && result) = true ↔ ∀ p ∈ received ++ [(i, result)], p.2 = true := by
    simp [hok hcaller, or_imp, forall_and]
  have htaken : Sent computeInfo parts s' (received ++ [(i, result)]) pending := by
    rw [hs']
    exact hsent.take rfl rfl rfl rfl (by simp +contextual)
  subst hs'
  refine ⟨h.running, fun j => (h.workers j).congr (by simp +contextual) rfl,
    ⟨_, _, htaken, fun _ => hokay⟩, ?_, ?_, ?_, ?_, h.timedOut, ?_⟩
  · intro hbad
    rcases Bool.and_eq_false_iff.mp hbad with hbad | rfl
    · exact h.illegal hbad
    · exact ⟨i, fun hlin => by simpa using hverdict.iff.mpr hlin⟩
  · -- all verdicts have been taken and they are good
    intro hleft hgood _ j
    dsimp only at hleft hgood
    have hall : history.length ≤ s.count + 1 := by
      by_contra hlt
      exact hleft (by simp [hgood, hlt])
    obtain ⟨rfl, hmem⟩ := htaken.all hall
    obtain ⟨p, hp, rfl⟩ := List.mem_map.mp (hmem j)
    have hp' := h.verdict hsent hcaller (p := p) (by simpa using hp)
    exact hp'.iff.mp (hokay.mp hgood p hp)
  · intro hstay _
    dsimp only at hstay ⊢
    by_contra hall
    simp [Nat.not_lt.mp hall] at hstay
  · intro hnew
    dsimp only at hnew ⊢
    rw [hkill, Bool.false_or] at hnew
    rw [hnew]
    refine ⟨by simp, .inr ?_⟩
    simpa using (Bool.and_eq_true_iff.mp hnew).2
  · intro r ps hret
    dsimp only at hret
    split at hret <;> cases hret

/-- What the caller can do when it takes no verdict in its loop. -/
theorem caller_cases {a : Turn history.length}
    (hst : s.step model history computeInfo timeout a = some s') :
    (∃ i, s.work model history computeInfo i = some s') ∨
    s.receive history computeInfo = some s' ∨
    (s.caller = .selecting ∧ 0 < timeout ∧
      s' = { s with timedOut := true, kill := true, caller := .leaving }) ∨
    (∃ result results, s.caller = .leaving ∧ s.results = result :: results ∧
      s.count < history.length ∧ s' = { s with results := results, count := s.count + 1 }) ∨
    (s.caller = .leaving ∧ (computeInfo = true → history.length ≤ s.count) ∧
      s' = { s with
        caller := .returned (verdict s.ok s.timedOut)
          (if computeInfo then (List.finRange history.length).map fun i => partials (s.longest i)
          else []) }) := by
  cases a with
  | work i =>
    rw [Parallel.step, Option.ite_none_left_eq_some] at hst
    exact .inl ⟨i, hst.2⟩
  | receive =>
    rw [Parallel.step, Option.ite_none_left_eq_some] at hst
    exact .inr (.inl hst.2)
  | timeout =>
    rw [Parallel.step] at hst
    split at hst
    · next hcaller =>
      simp only [Option.ite_none_right_eq_some, Bool.and_eq_true, decide_eq_true_eq,
        Option.some.injEq] at hst
      exact .inr (.inr (.inl ⟨hcaller, hst.1.2, hst.2.symm⟩))
    · cases hst
  | drain =>
    rw [Parallel.step] at hst
    split at hst
    · next result results hcaller hresults =>
      simp only [Option.ite_none_right_eq_some, Bool.and_eq_true, decide_eq_true_eq,
        Option.some.injEq] at hst
      exact .inr (.inr (.inr (.inl ⟨result, results, hcaller, hresults, hst.1.2, hst.2.symm⟩)))
    · cases hst
  | finish =>
    rw [Parallel.step] at hst
    split at hst
    · next hcaller =>
      simp only [Option.ite_none_right_eq_some, Bool.and_eq_true, Bool.or_eq_true,
        Bool.not_eq_true', decide_eq_true_eq, Option.some.injEq] at hst
      refine .inr (.inr (.inr (.inr ⟨hcaller, fun hinfo => ?_, hst.2.symm⟩)))
      exact hst.1.2.resolve_left (by simp [hinfo])
    · cases hst

theorem ParallelInv.step {a : Turn history.length} (h : ParallelInv computeInfo timeout parts s)
    (hst : s.step model history computeInfo timeout a = some s') :
    ParallelInv computeInfo timeout parts s' := by
  obtain ⟨received, pending, hsent, hok⟩ := h.sent
  rcases caller_cases hst with ⟨i, hst⟩ | hst | ⟨hcaller, htimeout, rfl⟩ |
    ⟨result, results, hcaller, hresults, -, rfl⟩ | ⟨hcaller, hcount, rfl⟩
  · exact h.work hst
  · exact h.receive hst
  · have hsent' : Sent computeInfo parts
        { s with timedOut := true, kill := true, caller := .leaving } received pending :=
      ⟨hsent.nodup, hsent.exited, hsent.count, hsent.results,
        fun p hp => (hsent.judged p hp).mono fun _ => rfl⟩
    exact ⟨h.running, fun i => (h.workers i).congr (fun _ => rfl) rfl,
      ⟨_, _, hsent', by simp⟩, h.illegal, by simp, by simp, by simp, fun _ => htimeout, by simp⟩
  · obtain ⟨i, pending, rfl, rfl⟩ := hsent.exists_next hresults
    refine ⟨h.running, fun i => (h.workers i).congr id rfl,
      ⟨_, _, hsent.take rfl rfl rfl rfl id, by simp [hcaller]⟩, h.illegal, h.legal,
      by simp [hcaller], h.killed,
      h.timedOut, by simp [hcaller]⟩
  · refine ⟨h.running, fun i => (h.workers i).congr id rfl,
      ⟨received, pending, ⟨hsent.nodup, hsent.exited, hsent.count, hsent.results, hsent.judged⟩,
        by simp⟩, h.illegal, fun _ => h.legal (by simp [hcaller]), by simp, fun hkill =>
        ⟨by simp, (h.killed hkill).2⟩, h.timedOut, ?_⟩
    rintro result ps hret
    cases hret
    refine ⟨rfl, fun hinfo => ⟨fun i => ?_, by rw [if_pos hinfo]⟩⟩
    obtain ⟨rfl, hall⟩ := hsent.all (hcount hinfo)
    exact (hsent.exited i).mp (by simpa using hall i)

/-- Every state of every run is as it should be. -/
theorem parallelInv_of_reachable
    (h : (checkParallel model history computeInfo timeout).Reachable System.anyStep s) :
    ParallelInv computeInfo timeout parts s :=
  h.invariant ParallelInv.init fun _ _ _ _ hinv _ hst => hinv.step hst

/-! ### Termination -/

/-- The steps that are left to the caller. -/
def callerLeft (s : Parallel σ I O history.length) : Nat :=
  match s.caller with
  | .selecting => history.length - s.count + 2
  | .leaving => history.length - s.count + 1
  | .returned .. => 0

/-- At most `m` steps are left. -/
def Left (computeInfo : Bool) (parts : ∀ i : Fin history.length, Recorded model (history.get i))
    (s : Parallel σ I O history.length) (m : Nat) : Prop :=
  ∃ w : Fin history.length → Nat,
    (∀ i, WorkerLeft computeInfo parts i (w i) (s.workers i)) ∧ ∑ i, w i + callerLeft s ≤ m

theorem Left.init : Left computeInfo parts (checkParallel model history computeInfo timeout).init
    (∑ i, (BacktrackSearch.cost (parts i).size ((parts i).size + 1) + 3) +
      (history.length + 2)) :=
  ⟨_, fun _ => le_rfl, le_rfl⟩

/-- A goroutine's step leaves less to it. -/
theorem Left.work {i : Fin history.length} {m : Nat} {w : Worker σ I O}
    (h : Left computeInfo parts s m) (hcaller : callerLeft s' = callerLeft s)
    (hworkers : s'.workers = Function.update s.workers i w)
    (hless : ∀ m, WorkerLeft computeInfo parts i m (s.workers i) →
      ∃ m' < m, WorkerLeft computeInfo parts i m' w) :
    ∃ m' < m, Left computeInfo parts s' m' := by
  obtain ⟨ws, hws, hm⟩ := h
  obtain ⟨n, hn, hw⟩ := hless _ (hws i)
  have hsum : ∑ j, Function.update ws i n j < ∑ j, ws j := by
    refine Finset.sum_lt_sum (fun j _ => ?_) ⟨i, Finset.mem_univ i, by simpa using hn⟩
    by_cases hij : j = i
    · subst hij
      simpa using hn.le
    · simp [hij]
  refine ⟨_, lt_of_lt_of_le (Nat.add_lt_add_right hsum (callerLeft s)) hm,
    Function.update ws i n, fun j => ?_, by rw [hcaller]⟩
  rw [hworkers]
  by_cases hij : j = i
  · subst hij
    simpa using hw
  · simpa [hij] using hws j

/-- Every step leaves less. -/
theorem Left.step {a : Turn history.length} {m : Nat} (h : Left computeInfo parts s m)
    (hinv : ParallelInv computeInfo timeout parts s)
    (hst : s.step model history computeInfo timeout a = some s') :
    ∃ m' < m, Left computeInfo parts s' m' := by
  have hcaller : ∀ {s'' : Parallel σ I O history.length}, s''.workers = s.workers →
      callerLeft s'' < callerLeft s → ∃ m' < m, Left computeInfo parts s'' m' := by
    intro s'' hworkers hlt
    obtain ⟨ws, hws, hm⟩ := h
    exact ⟨_, lt_of_lt_of_le (Nat.add_lt_add_left hlt _) hm, ws, by rwa [hworkers], le_rfl⟩
  obtain ⟨received, pending, hsent, -⟩ := hinv.sent
  have hle := hsent.length_le
  rw [← hsent.count] at hle
  rcases caller_cases hst with ⟨i, hst⟩ | hst | ⟨hsel, -, rfl⟩ |
    ⟨result, results, hleave, hresults, hlt, rfl⟩ | ⟨hleave, -, rfl⟩
  · rcases work_cases hinv hst with ⟨w, l, -, -, rfl, -, hless⟩ | ⟨ok, hi, rfl⟩
    · exact h.work rfl rfl hless
    · refine h.work rfl rfl fun m hm => ?_
      rw [hi] at hm
      exact ⟨0, hm, trivial⟩
  · obtain ⟨result, results, hsel, hresults, rfl⟩ := receive_cases hst
    obtain ⟨i, pending, rfl, rfl⟩ := hsent.exists_next hresults
    rw [List.length_cons] at hle
    refine hcaller rfl ?_
    simp only [callerLeft, hsel]
    generalize (!(s.ok && result) && !computeInfo || decide (s.count + 1 ≥ history.length)) = leave
    cases leave with
    | true =>
      simp only [if_true]
      omega
    | false =>
      simp only [Bool.false_eq_true, if_false]
      omega
  · refine hcaller rfl ?_
    simp [callerLeft, hsel]
  · refine hcaller rfl ?_
    simp only [callerLeft, hleave]
    omega
  · refine hcaller rfl ?_
    simp [callerLeft, hleave]

theorem length_run_le {as : List (Turn history.length)} {m : Nat}
    (h : Left computeInfo parts s m) (hinv : ParallelInv computeInfo timeout parts s)
    (hrun : (checkParallel model history computeInfo timeout).run System.anyStep s as = some s') :
    as.length ≤ m := by
  induction as generalizing s m with
  | nil => exact Nat.zero_le m
  | cons a as ih =>
    simp only [System.run, List.foldlM_cons, Option.bind_eq_bind, Option.bind_eq_some_iff,
      Option.ite_none_right_eq_some] at hrun
    obtain ⟨t, ⟨-, hst⟩, hrest⟩ := hrun
    obtain ⟨m', hm', hleft⟩ := h.step hinv hst
    have := ih hleft (hinv.step hst) hrest
    rw [List.length_cons]
    omega

/-- A goroutine that has not sent its verdict can go on. -/
theorem ParallelInv.exists_work (h : ParallelInv computeInfo timeout parts s)
    {i : Fin history.length} (hi : s.workers i ≠ .exited)
    (hroom : s.results.length < history.length) :
    ∃ s', s.step model history computeInfo timeout (.work i) = some s' := by
  have hok := h.workers i
  rw [Parallel.step, h.running, Parallel.work]
  cases hw : s.workers i with
  | started =>
    obtain ⟨search, hstart, -⟩ := (parts i).exists_start computeInfo
    exact ⟨_, by simp only [hstart]; rfl⟩
  | running search =>
    rw [hw] at hok
    obtain ⟨m, hrunning⟩ := hok
    rcases hrunning.round s.kill with ⟨search', m', hround, -⟩ | ⟨ok, l, hround, -⟩
    · exact ⟨_, by simp only [hround]; rfl⟩
    · exact ⟨_, by simp only [hround]; rfl⟩
  | sending ok => exact ⟨_, by simp only [if_pos hroom]; rfl⟩
  | exited => exact absurd hw hi

/-- Until the caller has returned, somebody can take a step. -/
theorem ParallelInv.exists_step (h : ParallelInv computeInfo timeout parts s)
    (hpos : 0 < history.length) (hret : ∀ result ps, s.caller ≠ .returned result ps) :
    ∃ a s', s.step model history computeInfo timeout a = some s' := by
  obtain ⟨received, pending, hsent, -⟩ := h.sent
  -- with nothing in the channel, a verdict that is missing is still to be sent
  have hwork : s.results = [] → s.count < history.length →
      ∃ a s', s.step model history computeInfo timeout a = some s' := by
    intro hresults hcount
    have hnil : pending = [] := by
      simpa [hresults] using hsent.results.symm
    obtain ⟨i, hi⟩ : ∃ i, s.workers i ≠ .exited := by
      by_contra hall
      have hmem : ∀ i, i ∈ received.map Prod.fst := fun i => by
        have := (hsent.exited i).mpr (by_contra fun hi => hall ⟨i, hi⟩)
        rwa [hnil, List.append_nil] at this
      have hnd := hsent.nodup
      rw [hnil, List.append_nil] at hnd
      have hlen := List.toFinset_card_of_nodup hnd
      rw [Finset.eq_univ_of_forall fun i => List.mem_toFinset.mpr (hmem i), Finset.card_univ,
        Fintype.card_fin, List.length_map, ← hsent.count] at hlen
      omega
    exact ⟨_, h.exists_work hi (by rw [hresults]; exact hpos)⟩
  cases hcaller : s.caller with
  | selecting =>
    cases hresults : s.results with
    | nil => exact hwork hresults (h.counting hcaller hpos)
    | cons result results =>
      refine ⟨.receive, ?_⟩
      rw [Parallel.step, h.running, Parallel.receive, hcaller, hresults]
      simp only [Bool.false_eq_true, if_false]
      split
      · exact ⟨_, rfl⟩
      · split <;> exact ⟨_, rfl⟩
  | leaving =>
    by_cases hdone : computeInfo = false ∨ history.length ≤ s.count
    · refine ⟨.finish, ?_⟩
      rw [Parallel.step, hcaller, h.running]
      exact ⟨_, if_pos (by simpa using hdone)⟩
    · rw [not_or, Bool.not_eq_false, Nat.not_le] at hdone
      cases hresults : s.results with
      | nil => exact hwork hresults hdone.2
      | cons result results =>
        refine ⟨.drain, ?_⟩
        rw [Parallel.step, hcaller, hresults, h.running]
        exact ⟨_, if_pos (by simpa using hdone)⟩
  | returned result ps => exact absurd hcaller (hret result ps)

/-- Without parts nothing is ever sent, and the caller waits for the timer. -/
theorem ParallelInv.no_parts (h : ParallelInv computeInfo timeout parts s) {a : Turn history.length}
    (hnone : history.length = 0) (htimeout : timeout ≤ 0) (hcaller : s.caller = .selecting)
    (hst : s.step model history computeInfo timeout a = some s') : s'.caller = .selecting := by
  obtain ⟨received, pending, hsent, -⟩ := h.sent
  have hle := hsent.length_le
  rcases caller_cases hst with ⟨i, -⟩ | hst | ⟨-, hpos, -⟩ | ⟨_, _, hleave, -⟩ | ⟨hleave, -⟩
  · exact absurd i.isLt (by omega)
  · obtain ⟨result, results, -, hresults, -⟩ := receive_cases hst
    obtain ⟨i, pending, rfl, -⟩ := hsent.exists_next hresults
    rw [List.length_cons] at hle
    omega
  · omega
  · rw [hcaller] at hleave
    cases hleave
  · rw [hcaller] at hleave
    cases hleave

/-- Whatever the goroutines, the caller and the timer do, a verdict that is returned is
    right, and the sequences are right unless the time was up. -/
theorem ParallelInv.sound (h : ParallelInv computeInfo timeout parts s) {result : CheckResult}
    {ps : List (List (List Int))} (hret : s.caller = .returned result ps) :
    (result = .ok → ∀ i, (parts i).Linearizable) ∧
      (result = .illegal → ∃ i, ¬ (parts i).Linearizable) ∧
      (result = .unknown → 0 < timeout) ∧
      (computeInfo = true → s.timedOut = false → ps.length = history.length ∧
        ∀ (i : Fin history.length) p, ps[i.val]? = some p → (parts i).Collects p) := by
  obtain ⟨hresult, hinfo⟩ := h.returned result ps hret
  refine ⟨fun hok i => ?_, fun hillegal => h.illegal ?_, fun hunknown => ?_,
    fun hcompute htime => ?_⟩
  · obtain ⟨hgood, htime⟩ := verdict_eq_ok.mp (hresult.symm.trans hok)
    exact h.legal (by simp [hret]) hgood htime i
  · exact verdict_eq_illegal.mp (hresult.symm.trans hillegal)
  · exact h.timedOut (verdict_eq_unknown.mp (hresult.symm.trans hunknown)).2
  · obtain ⟨hexited, rfl⟩ := hinfo hcompute
    obtain ⟨received, pending, hsent, -⟩ := h.sent
    refine ⟨by simp, fun i collected hcollected => ?_⟩
    obtain rfl : partials (s.longest i) = collected := by simpa using hcollected
    obtain ⟨p, hp, rfl⟩ := List.mem_map.mp ((hsent.exited i).mpr (hexited i))
    rcases hsent.judged p hp with hverdict | ⟨-, hkill⟩
    · rw [hcompute] at hverdict
      exact hverdict.partials
    · -- nobody was told to stop
      rcases (h.killed hkill).2 with ht | hc
      · rw [htime] at ht
        cases ht
      · rw [hcompute] at hc
        cases hc

variable (computeInfo timeout parts)
include parts

/-- Runs are bounded, and one that cannot go on has returned, unless there are no parts:
    then, without a timeout, the caller waits for ever. -/
theorem checkParallel_returns :
    (∃ bound, ∀ turns s, (checkParallel model history computeInfo timeout).run System.anyStep
      (checkParallel model history computeInfo timeout).init turns = some s →
        turns.length ≤ bound) ∧
    ∀ s, (checkParallel model history computeInfo timeout).Reachable System.anyStep s →
      s.crashed = false ∧
      (history ≠ [] →
        (∀ turn, (checkParallel model history computeInfo timeout).step s turn = none) →
          ∃ result ps, s.caller = .returned result ps) ∧
      (history = [] → timeout ≤ 0 → s.caller = .selecting) := by
  have hinv : ∀ s, (checkParallel model history computeInfo timeout).Reachable System.anyStep s →
      ParallelInv computeInfo timeout parts s := fun s hs => parallelInv_of_reachable hs
  have hleft : Left computeInfo parts (checkParallel model history computeInfo timeout).init _ :=
    Left.init
  refine ⟨⟨_, fun turns s hrun => length_run_le hleft ParallelInv.init hrun⟩,
    fun s hs => ⟨(hinv s hs).running, fun hne hstuck => ?_, fun hnone htimeout => ?_⟩⟩
  · by_contra hret
    obtain ⟨a, s', hst⟩ := (hinv s hs).exists_step (List.length_pos_iff.mpr hne)
      fun result ps h => hret ⟨result, ps, h⟩
    rw [show Parallel.step _ _ _ _ s a = none from hstuck a] at hst
    cases hst
  · refine hs.invariant (P := fun s => s.caller = .selecting) rfl
      fun s a s' hreach hcaller _ hst => ?_
    exact (hinv s hreach).no_parts (List.length_eq_zero_iff.mpr hnone) htimeout hcaller hst

end Run

end RaftLabs.Porcupine
