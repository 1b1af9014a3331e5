import RaftLabs.PorcupineSpec

/-!
# `checkSingle` is a search with a memory

One round of the loop of `checkSingle` is one step of the search of
`LinearizationSearch` for an order of the operations.  The cursor `entry` stands for
the moves that are left to try, the stack `calls` for the path, the list that is left
after the calls of the stack have been lifted for the operations that are left, the
cache for the configurations entered, and `longest` for the paths from which the
search has turned back.
-/

namespace RaftLabs.Porcupine

open BacktrackSearch (Problem State Frame)
open DancingLinks (Links Chain)
open Linearization (Timeline openCalls)

variable {σ I O : Type} {n : Nat}

/-- What the model's `Step` says about one operation. -/
def FullModel.accepts (model : FullModel σ I O) (s : σ) (input : I) (output : O) : Option σ :=
  let (ok, newState) := model.step s input output
  if ok then some newState else none

section

variable (t : Timeline n) (input : Fin n → I) (output : Fin n → O) (model : FullModel σ I O)

/-- The search for an order of the operations of a timeline. -/
def searchProblem : Problem (Finset (Fin n) × σ) (Fin n) :=
  t.problem (fun s x => model.accepts s (input x) (output x)) model.equal model.init

/-! ### The stack and the list -/

/-- The calls of the stack stand for the path, and lifting them one after another has
    made the links `l` of the links `base`. -/
inductive Stack (base : Links Ptr) : List (CallsEntry σ) →
    List (Frame (Finset (Fin n) × σ) (Fin n)) → Finset (Fin n) → Links Ptr → Prop
  | nil : Stack base [] [] ∅ base
  | snoc {calls : List (CallsEntry σ)} {fs : List (Frame (Finset (Fin n) × σ) (Fin n))}
      {L : Finset (Fin n)} {l : Links Ptr} {state : σ} {x : Fin n} {xs ys : List (Fin n × Bool)}
      (h : Stack base calls fs L l) (hrem : t.remaining L = xs ++ (x, false) :: ys)
      (hxs : ∀ m ∈ xs, m.2 = false) :
      Stack base (calls ++ [⟨place t (x, false), state⟩]) (fs ++ [⟨(L, state), x, openCalls ys⟩])
        (insert x L) ((l.unlink (place t (x, false))).unlink (place t (x, true)))

/-- The addresses of the head and of what is left. -/
theorem nodup_places (L : Finset (Fin n)) :
    (t.marks.length :: (t.remaining L).map (place t)).Nodup := by
  refine List.nodup_cons.mpr ⟨fun hmem => ?_, (t.nodup_remaining L).map fun _ _ => (place_inj t).mp⟩
  obtain ⟨m, -, heq⟩ := List.mem_map.mp hmem
  exact (place_lt t m).ne heq

variable {t} {base : Links Ptr} {calls : List (CallsEntry σ)} {c : CallsEntry σ}
  {fs gs : List (Frame (Finset (Fin n) × σ) (Fin n))} {L : Finset (Fin n)} {l : Links Ptr}

/-- The list holds what is left. -/
theorem Stack.chain (hbase : Chain base t.marks.length (t.marks.map (place t)))
    (h : Stack t base calls fs L l) : Chain l t.marks.length ((t.remaining L).map (place t)) := by
  induction h with
  | nil => simpa using hbase
  | @snoc calls fs L l state x xs ys _ hrem hxs ih =>
    obtain ⟨ys₁, ys₂, rfl, hleft⟩ := t.remaining_insert hrem hxs
    have hnd := nodup_places t L
    rw [hrem] at ih hnd
    simp only [List.map_append, List.map_cons] at ih hnd
    have hchain := ih.unlink hnd
    have hnd' := hnd.sublist
      ((List.sublist_cons_self _ _).append_left (xs.map (place t)) |>.cons_cons t.marks.length)
    rw [← List.append_assoc] at hchain hnd'
    rw [hleft, List.map_append, List.map_append, ← List.append_assoc]
    exact hchain.unlink hnd'

theorem Stack.calls_eq_nil (h : Stack t base calls fs L l) : calls = [] ↔ fs = [] := by
  cases h <;> simp

/-- The last call of the stack. -/
theorem Stack.last (h : Stack t base (calls ++ [c]) gs L l) :
    ∃ fs L' l' x xs ys, Stack t base calls fs L' l' ∧
      t.remaining L' = xs ++ (x, false) :: ys ∧ (∀ m ∈ xs, m.2 = false) ∧
      c.entry = place t (x, false) ∧ gs = fs ++ [⟨(L', c.state), x, openCalls ys⟩] ∧
      L = insert x L' ∧ l = (l'.unlink (place t (x, false))).unlink (place t (x, true)) := by
  generalize hcs : calls ++ [c] = cs at h
  cases h with
  | nil => simp at hcs
  | snoc h hrem hxs =>
    obtain ⟨rfl, hlast⟩ := List.append_inj' hcs rfl
    cases hlast
    exact ⟨_, _, _, _, _, _, h, hrem, hxs, rfl, rfl, rfl, rfl⟩

variable {input output}

/-- The ids of the stack are the moves of the path. -/
theorem Stack.ids (h : Stack t base calls fs L l) {node : Ptr → Option (Node I O)}
    (hnode : ∀ m, node (place t m) = some (nodeOf t input output m)) :
    calls.mapM (fun v => do return (← node v.entry).id) =
      some (fs.map fun f => (f.move.val : Int)) := by
  induction h with
  | nil => rfl
  | snoc _ _ _ ih =>
    rw [List.mapM_append, ih, List.map_append]
    simp [hnode, nodeOf]

end

/-! ### The cache -/

/-- The cache entry stands for the configuration. -/
def Cached (n : Nat) (c : CacheEntry σ) (v : Finset (Fin n) × σ) : Prop :=
  Bits c.linearized n (v.1.map Fin.valEmbedding) ∧ c.state = v.2

/-- The cache holds the configurations `visited`, each under its hash. -/
def Remembers (cache : Cache σ) (visited : List (Finset (Fin n) × σ)) : Prop :=
  ∃ cs : List (CacheEntry σ), (cache = fun hash => cs.filter fun c => c.linearized.hash = hash) ∧
    List.Forall₂ (Cached n) cs visited

theorem Cached.equals {c d : CacheEntry σ} {v w : Finset (Fin n) × σ} (hc : Cached n c v)
    (hd : Cached n d w) : c.linearized.equals d.linearized = decide (v.1 = w.1) := by
  rw [Bool.eq_iff_iff, Bitset.equals_iff, decide_eq_true_iff]
  have hbound : ∀ (L : Finset (Fin n)), ∀ k ∈ L.map Fin.valEmbedding, k < n := by
    intro L k hk
    obtain ⟨x, -, rfl⟩ := Finset.mem_map.mp hk
    exact x.isLt
  refine ⟨fun heq => ?_, fun heq => ?_⟩
  · have hbits := hd.1
    rw [← heq] at hbits
    exact Finset.map_injective _ (hc.1.eq_of_bitset hbits (hbound v.1) (hbound w.1))
  · have hbits := hd.1
    rw [← heq] at hbits
    exact hc.1.unique hbits

/-- `cacheContains` finds what looks the same as a configuration that was entered. -/
theorem Remembers.contains {cache : Cache σ} {visited : List (Finset (Fin n) × σ)}
    (h : Remembers cache visited) (t : Timeline n) (input : Fin n → I) (output : Fin n → O)
    (model : FullModel σ I O) {c : CacheEntry σ} {v : Finset (Fin n) × σ} (hc : Cached n c v) :
    cacheContains model cache c =
      visited.any ((searchProblem t input output model).same v) := by
  obtain ⟨cs, rfl, hcs⟩ := h
  have hhash : cacheContains model (fun hash => cs.filter fun c => c.linearized.hash = hash) c =
      cs.any fun d => c.linearized.equals d.linearized && model.equal c.state d.state := by
    rw [cacheContains, List.any_filter]
    congr 1
    funext d
    -- what is equal has the same hash
    by_cases heq : c.linearized.equals d.linearized = true
    · rw [(Bitset.equals_iff _ _).mp heq]
      simp
    · simp [heq]
  rw [hhash]
  clear hhash
  induction hcs with
  | nil => rfl
  | cons hd _ ih =>
    rw [List.any_cons, List.any_cons, ih, hc.equals hd, hc.2, hd.2]
    rfl

theorem Remembers.snoc {cache : Cache σ} {visited : List (Finset (Fin n) × σ)}
    (h : Remembers cache visited) {c : CacheEntry σ} {v : Finset (Fin n) × σ} (hc : Cached n c v) :
    Remembers (Function.update cache c.linearized.hash (cache c.linearized.hash ++ [c]))
      (visited ++ [v]) := by
  obtain ⟨cs, rfl, hcs⟩ := h
  refine ⟨cs ++ [c], ?_, List.rel_append hcs (.cons hc .nil)⟩
  funext hash
  rw [List.filter_append]
  by_cases heq : hash = c.linearized.hash
  · subst heq
    simp
  · rw [Function.update_of_ne heq]
    simp [Ne.symm heq]

/-! ### `longest` -/

/-- For every operation the longest of the sequences `dead` that contain it. -/
structure Longest (n : Nat) (dead : List (List (Fin n))) (longest : List (Option (List Int))) :
    Prop where
  length : longest.length = n
  best : ∀ x : Fin n, (longest[x.val]? = some none ∧ ∀ ys ∈ dead, x ∉ ys) ∨
    ∃ xs ∈ dead, x ∈ xs ∧ longest[x.val]? = some (some (xs.map fun y => (y.val : Int))) ∧
      ∀ ys ∈ dead, x ∈ ys → ys.length ≤ xs.length

/-- The new sequence if it is longer. -/
def better (seq : List Int) (old : Option (List Int)) : Option (List Int) :=
  if old.all fun best => seq.length > best.length then some seq else old

@[simp] theorem better_better (seq : List Int) (old : Option (List Int)) :
    better seq (better seq old) = better seq old := by
  by_cases h : old.all fun best => seq.length > best.length
  · have hnew : better seq old = some seq := if_pos h
    rw [hnew]
    simp [better]
  · have hold : better seq old = old := if_neg h
    rw [hold, hold]

theorem recordLongest_cons {seq ids : List Int} {longest : List (Option (List Int))} {i : Nat}
    {old : Option (List Int)} (h : longest[i]? = some old) :
    Search.recordLongest seq ((i : Int) :: ids) longest =
      Search.recordLongest seq ids (longest.set i (better seq old)) := by
  have hset : longest.set i old = longest := by
    obtain ⟨hi, rfl⟩ := List.getElem?_eq_some_iff.mp h
    exact List.set_getElem_self hi
  have hi : ¬ (i : Int) < 0 := by omega
  simp only [Search.recordLongest, if_neg hi, Int.toNat_natCast, h, better]
  change (if _ then _ else _) = _
  split
  · rfl
  · rw [hset]

theorem recordLongest_eq {seq : List Int} (xs : List (Fin n)) {longest : List (Option (List Int))}
    (hlen : longest.length = n) :
    ∃ longest', Search.recordLongest seq (xs.map fun x => (x.val : Int)) longest = some longest' ∧
      longest'.length = n ∧ ∀ x : Fin n, longest'[x.val]? =
        if x ∈ xs then (longest[x.val]?).map (better seq) else longest[x.val]? := by
  induction xs generalizing longest with
  | nil => exact ⟨longest, rfl, hlen, by simp⟩
  | cons y ys ih =>
    obtain ⟨old, hold⟩ : ∃ old, longest[y.val]? = some old :=
      ⟨_, List.getElem?_eq_getElem (hlen ▸ y.isLt)⟩
    have hset : (longest.set y.val (better seq old)).length = n := by rw [List.length_set, hlen]
    obtain ⟨longest', heq, hlen', hlongest'⟩ := ih hset
    refine ⟨longest', by rw [List.map_cons, recordLongest_cons hold, heq], hlen', fun x => ?_⟩
    rw [hlongest' x, List.getElem?_set]
    by_cases hxy : x = y
    · subst hxy
      have hin : x.val < longest.length := hlen ▸ x.isLt
      rw [hold]
      by_cases hys : x ∈ ys <;> simp [hin, hys]
    · have hne : y.val ≠ x.val := fun h => hxy (Fin.ext h.symm)
      simp [hxy, hne]

/-- One more sequence is recorded. -/
theorem Longest.record {dead : List (List (Fin n))} {longest : List (Option (List Int))}
    (h : Longest n dead longest) (xs : List (Fin n)) :
    ∃ longest', Search.recordLongest (xs.map fun x => (x.val : Int))
        (xs.map fun x => (x.val : Int)) longest = some longest' ∧
      Longest n (dead ++ [xs]) longest' := by
  obtain ⟨longest', heq, hlen, hlongest'⟩ := recordLongest_eq xs h.length
  refine ⟨longest', heq, hlen, fun x => ?_⟩
  have hdead : ∀ {p : List (Fin n) → Prop},
      (∀ ys ∈ dead ++ [xs], p ys) ↔ (∀ ys ∈ dead, p ys) ∧ p xs := by
    intro p
    simp [or_imp, forall_and]
  rw [hlongest' x, hdead]
  by_cases hx : x ∈ xs
  · rw [if_pos hx]
    refine .inr ?_
    rcases h.best x with ⟨hnone, hnever⟩ | ⟨ys, hys, hxys, hbest, hmost⟩
    · refine ⟨xs, by simp, hx, by simp [hnone, better], hdead.mpr ⟨?_, fun _ => le_rfl⟩⟩
      exact fun zs hzs hxzs => absurd hxzs (hnever zs hzs)
    · by_cases hlonger : ys.length < xs.length
      · refine ⟨xs, by simp, hx, by simp [hbest, better, hlonger], hdead.mpr ⟨?_, fun _ => le_rfl⟩⟩
        exact fun zs hzs hxzs => (hmost zs hzs hxzs).trans hlonger.le
      · refine ⟨ys, List.mem_append_left _ hys, hxys, by simp [hbest, better, hlonger],
          hdead.mpr ⟨hmost, fun _ => Nat.le_of_not_lt hlonger⟩⟩
  · rw [if_neg hx]
    rcases h.best x with ⟨hnone, hnever⟩ | ⟨ys, hys, hxys, hbest, hmost⟩
    · exact .inl ⟨hnone, hnever, hx⟩
    · exact .inr ⟨ys, List.mem_append_left _ hys, hxys, hbest,
        hdead.mpr ⟨hmost, fun h => absurd h hx⟩⟩

/-! ### One round is one step -/

section Simulation

variable (t : Timeline n) (input : Fin n → I) (output : Fin n → O) (base : Links Ptr)
  (computePartial : Bool)

/-- The cursor stands at the first of the marks that are left to look at. -/
def Cursor (L : Finset (Fin n)) (entry : Option Ptr) (todo : List (Fin n)) : Prop :=
  ∃ xs ys, t.remaining L = xs ++ ys ∧ (∀ m ∈ xs, m.2 = false) ∧
    entry = (ys.map (place t)).head? ∧ todo = openCalls ys

/-- The variables of `checkSingle` stand for the state of the search. -/
structure Sim (s : Search σ I O) (a : State (Finset (Fin n) × σ) (Fin n)) : Prop where
  head : s.headEntry = t.marks.length
  nodes : ∀ m, s.heap.node (place t m) = some (nodeOf t input output m)
  stack : Stack t base s.calls a.path a.config.1 s.heap.links
  state : s.state = a.config.2
  bits : Bits s.linearized n (a.config.1.map Fin.valEmbedding)
  cursor : Cursor t a.config.1 s.entry a.todo
  cache : Remembers s.cache a.visited
  longest : Longest n (if computePartial then a.dead else []) s.longest

variable {t input output base computePartial} {model : FullModel σ I O} {s : Search σ I O}
  {a : State (Finset (Fin n) × σ) (Fin n)}

/-- Where the cursor stands while operations are left: at a call that is the next to
    try, or at a return with nothing left to try. -/
theorem Cursor.cases {L : Finset (Fin n)} {entry : Option Ptr} {todo : List (Fin n)}
    (h : Cursor t L entry todo) (hL : L ≠ Finset.univ) :
    (∃ x xs ys, entry = some (place t (x, false)) ∧ t.remaining L = xs ++ (x, false) :: ys ∧
      (∀ m ∈ xs, m.2 = false) ∧ todo = x :: openCalls ys) ∨
    ∃ x, entry = some (place t (x, true)) ∧ todo = [] := by
  obtain ⟨xs, ys, hrem, hxs, hentry, htodo⟩ := h
  cases ys with
  | nil =>
    -- only calls would be left, but an operation that is left has its return there
    obtain ⟨x, hx⟩ : ∃ x, x ∉ L := by
      by_contra hall
      exact hL (Finset.eq_univ_of_forall fun x => by_contra fun hx => hall ⟨x, hx⟩)
    rw [List.append_nil] at hrem
    cases hxs (x, true) (hrem ▸ t.mem_remaining.mpr hx)
  | cons m ys =>
    obtain ⟨x, returned⟩ := m
    cases returned with
    | false => exact .inl ⟨x, xs, ys, hentry, hrem, hxs, by simpa [openCalls] using htodo⟩
    | true => exact .inr ⟨x, hentry, by simpa [openCalls] using htodo⟩

/-- The cursor moves on past a call. -/
theorem Cursor.next {L : Finset (Fin n)} {l : Links Ptr} {x : Fin n} {xs ys : List (Fin n × Bool)}
    (hchain : Chain l t.marks.length ((t.remaining L).map (place t)))
    (hrem : t.remaining L = xs ++ (x, false) :: ys) (hxs : ∀ m ∈ xs, m.2 = false) :
    Cursor t L (l.next (place t (x, false))) (openCalls ys) := by
  refine ⟨xs ++ [(x, false)], ys, by simp [hrem], ?_, ?_, rfl⟩
  · intro m hm
    rcases List.mem_append.mp hm with hm | hm
    · exact hxs m hm
    · rw [List.mem_singleton.mp hm]
  · rw [hrem, List.map_append, List.map_cons] at hchain
    exact hchain.middle.2.1

/-- The cursor at the first mark that is left. -/
theorem Cursor.first {L : Finset (Fin n)} {l : Links Ptr}
    (hchain : Chain l t.marks.length ((t.remaining L).map (place t))) :
    Cursor t L (l.next t.marks.length) (openCalls (t.remaining L)) := by
  refine ⟨[], t.remaining L, rfl, by simp, ?_, rfl⟩
  cases hrem : (t.remaining L).map (place t) with
  | nil => rw [hrem] at hchain; exact hchain
  | cons p ps => rw [hrem] at hchain; exact hchain.1

theorem next_head_eq_none {L : Finset (Fin n)} {l : Links Ptr}
    (hchain : Chain l t.marks.length ((t.remaining L).map (place t))) :
    l.next t.marks.length = none ↔ L = Finset.univ := by
  rw [← t.remaining_eq_nil, ← List.map_eq_nil_iff (f := place t)]
  cases hrem : (t.remaining L).map (place t) with
  | nil =>
    rw [hrem] at hchain
    exact iff_of_true hchain rfl
  | cons p ps =>
    rw [hrem] at hchain
    exact iff_of_false (by simp [hchain.1]) (by simp)

namespace Sim

theorem chain (h : Sim t input output base computePartial s a)
    (hbase : Chain base t.marks.length (t.marks.map (place t))) :
    Chain s.heap.links t.marks.length ((t.remaining a.config.1).map (place t)) :=
  h.stack.chain hbase

theorem seq (h : Sim t input output base computePartial s a) :
    s.seq = some (a.path.map fun f => (f.move.val : Int)) :=
  h.stack.ids h.nodes

/-- The loop ends when no operation is left. -/
theorem round_found (h : Sim t input output base computePartial s a)
    (hbase : Chain base t.marks.length (t.marks.map (place t))) (hgoal : a.config.1 = Finset.univ)
    (kill : Bool) :
    s.round model computePartial kill = some (.returns true
      (List.replicate n (some (a.path.map fun f => (f.move.val : Int))))) := by
  have hnone := (next_head_eq_none (h.chain hbase)).mpr hgoal
  rw [← h.head] at hnone
  have hmap : ∀ seq : Option (List Int), s.longest.map (fun _ => seq) = List.replicate n seq := by
    intro seq
    rw [List.map_const', h.longest.length]
  simp only [Search.round, hnone, h.seq, hmap]
  rfl

/-- A killed search gives up. -/
theorem round_killed (h : Sim t input output base computePartial s a)
    (hbase : Chain base t.marks.length (t.marks.map (place t)))
    (hgoal : a.config.1 ≠ Finset.univ) :
    s.round model computePartial true = some (.returns false s.longest) := by
  obtain ⟨p, hp⟩ := Option.ne_none_iff_exists'.mp
    (mt (next_head_eq_none (h.chain hbase)).mp hgoal)
  rw [← h.head] at hp
  simp [Search.round, hp]

/-- A round at a call. -/
theorem round_call (h : Sim t input output base computePartial s a)
    (hbase : Chain base t.marks.length (t.marks.map (place t)))
    (hgoal : a.config.1 ≠ Finset.univ) {x : Fin n} (hentry : s.entry = some (place t (x, false))) :
    s.round model computePartial false =
      (s.tryCall model (place t (x, false)) (nodeOf t input output (x, false))
        (place t (x, true))).map .continues := by
  obtain ⟨p, hp⟩ := Option.ne_none_iff_exists'.mp
    (mt (next_head_eq_none (h.chain hbase)).mp hgoal)
  rw [← h.head] at hp
  have hmate : (nodeOf t input output (x, false)).mate = some (place t (x, true)) := rfl
  simp only [Search.round, hp, hentry, h.nodes, hmate, Bool.false_eq_true, if_false,
    Option.bind_eq_bind, Option.bind_some, Option.pure_def, Option.map_eq_bind]
  rfl

/-- A round at a return. -/
theorem round_return (h : Sim t input output base computePartial s a)
    (hbase : Chain base t.marks.length (t.marks.map (place t)))
    (hgoal : a.config.1 ≠ Finset.univ) {x : Fin n} (hentry : s.entry = some (place t (x, true))) :
    s.round model computePartial false =
      match s.calls.getLast? with
      | none => some (.returns false s.longest)
      | some callsTop => (s.backtrack computePartial callsTop).map .continues := by
  obtain ⟨p, hp⟩ := Option.ne_none_iff_exists'.mp
    (mt (next_head_eq_none (h.chain hbase)).mp hgoal)
  rw [← h.head] at hp
  have hmate : (nodeOf t input output (x, true)).mate = none := rfl
  simp only [Search.round, hp, hentry, h.nodes, hmate, Bool.false_eq_true, if_false,
    Option.bind_eq_bind, Option.bind_some, Option.pure_def, Option.map_eq_bind]
  rfl

theorem uint_id (hn : n ≤ 2 ^ 64) (x : Fin n) : uint (x.val : Int) = x.val := by
  have := x.isLt
  unfold uint
  omega

/-- An operation that the model does not accept is passed over. -/
theorem tryCall_refused (h : Sim t input output base computePartial s a) {x : Fin n}
    (haccepts : model.accepts s.state (input x) (output x) = none) :
    s.tryCall model (place t (x, false)) (nodeOf t input output (x, false)) (place t (x, true)) =
      some (s.advance (place t (x, false))) := by
  have hcall : (nodeOf t input output (x, false)).value = some (.call (input x)) := rfl
  have hret : (nodeOf t input output (x, true)).value = some (.ret (output x)) := rfl
  simp only [Search.tryCall, h.nodes, hcall, hret, Option.bind_eq_bind, Option.bind_some]
  cases hstep : model.step s.state (input x) (output x) with
  | mk ok newState =>
    rw [FullModel.accepts, hstep] at haccepts
    cases ok with
    | false => rfl
    | true => cases haccepts

/-- An operation that the model accepts is tried unless the cache has seen what it
    leads to. -/
theorem tryCall_accepted (h : Sim t input output base computePartial s a) (hn : n ≤ 2 ^ 64)
    {x : Fin n} {newState : σ} {newLinearized : Bitset}
    (haccepts : model.accepts s.state (input x) (output x) = some newState)
    (hset : s.linearized.set x.val = some newLinearized) :
    s.tryCall model (place t (x, false)) (nodeOf t input output (x, false)) (place t (x, true)) =
      if !cacheContains model s.cache ⟨newLinearized, newState⟩ then
        (lift s.heap (place t (x, false))).map fun heap =>
          { s with
            cache := Function.update s.cache newLinearized.hash
              (s.cache newLinearized.hash ++ [⟨newLinearized, newState⟩])
            calls := s.calls ++ [⟨place t (x, false), s.state⟩]
            state := newState
            linearized := newLinearized
            heap := heap
            entry := heap.links.next s.headEntry }
      else some (s.advance (place t (x, false))) := by
  have hcall : (nodeOf t input output (x, false)).value = some (.call (input x)) := rfl
  have hret : (nodeOf t input output (x, true)).value = some (.ret (output x)) := rfl
  have hid : uint (nodeOf t input output (x, false)).id = x.val := uint_id hn x
  simp only [Search.tryCall, h.nodes, hcall, hret, hid, Option.bind_eq_bind, Option.bind_some]
  cases hstep : model.step s.state (input x) (output x) with
  | mk ok state =>
    rw [FullModel.accepts, hstep] at haccepts
    cases ok with
    | false => cases haccepts
    | true =>
      cases haccepts
      simp only [if_true, hset, Option.bind_some, Option.pure_def, Option.map_eq_bind]
      rfl

variable {x : Fin n} {xs ys : List (Fin n × Bool)}

theorem skip (h : Sim t input output base computePartial s a)
    (hbase : Chain base t.marks.length (t.marks.map (place t)))
    (hrem : t.remaining a.config.1 = xs ++ (x, false) :: ys) (hxs : ∀ m ∈ xs, m.2 = false) :
    Sim t input output base computePartial (s.advance (place t (x, false)))
      { a with todo := openCalls ys } :=
  { h with cursor := .next (h.chain hbase) hrem hxs }

/-- A call that is tried is lifted, with its return. -/
theorem enter (h : Sim t input output base computePartial s a)
    (hbase : Chain base t.marks.length (t.marks.map (place t)))
    (hrem : t.remaining a.config.1 = xs ++ (x, false) :: ys) (hxs : ∀ m ∈ xs, m.2 = false)
    {newState : σ} {newLinearized : Bitset}
    (hbits : Bits newLinearized n ((insert x a.config.1).map Fin.valEmbedding)) :
    ∃ heap, lift s.heap (place t (x, false)) = some heap ∧
      Sim t input output base computePartial
        { s with
          cache := Function.update s.cache newLinearized.hash
            (s.cache newLinearized.hash ++ [⟨newLinearized, newState⟩])
          calls := s.calls ++ [⟨place t (x, false), s.state⟩]
          state := newState
          linearized := newLinearized
          heap := heap
          entry := heap.links.next s.headEntry }
        ((searchProblem t input output model).push a x (openCalls ys)
          (insert x a.config.1, newState)) := by
  obtain ⟨ys₁, ys₂, rfl, -⟩ := t.remaining_insert hrem hxs
  have hchain := h.chain hbase
  have hnd := nodup_places t a.config.1
  rw [hrem] at hchain hnd
  simp only [List.map_append, List.map_cons] at hchain hnd
  have hstack : Stack t base (s.calls ++ [⟨place t (x, false), s.state⟩]) _ _ _ :=
    h.stack.snoc hrem hxs
  refine ⟨_, lift_eq hchain hnd (h.nodes (x, false)) rfl, ?_⟩
  have hcached : Cached n ⟨newLinearized, newState⟩ (insert x a.config.1, newState) := ⟨hbits, rfl⟩
  refine ⟨h.head, h.nodes, ?_, rfl, hbits, ?_, h.cache.snoc hcached, h.longest⟩
  · have hconfig : (a.config.1, s.state) = a.config := Prod.ext rfl h.state
    rw [hconfig] at hstack
    exact hstack
  · rw [h.head]
    exact .first (hstack.chain hbase)

/-- Giving an operation up puts its call and its return back. -/
theorem back (h : Sim t input output base computePartial s a)
    (hbase : Chain base t.marks.length (t.marks.map (place t))) (hn : n ≤ 2 ^ 64)
    {callsTop : CallsEntry σ} (hlast : s.calls.getLast? = some callsTop) :
    ∃ s' f, s.backtrack computePartial callsTop = some s' ∧ a.path.getLast? = some f ∧
      Sim t input output base computePartial s' (BacktrackSearch.pop a a.path.dropLast f) := by
  have hcalls := List.dropLast_append_getLast? _ hlast
  have hstack := h.stack
  rw [← hcalls] at hstack
  obtain ⟨fs, L, l, x, xs, ys, hstack, hrem, hxs, hentry, hpath, hL, hl⟩ := hstack.last
  obtain ⟨ys₁, ys₂, rfl, -⟩ := t.remaining_insert hrem hxs
  have hchain := hstack.chain hbase
  have hcursor := Cursor.next hchain hrem hxs
  have hnd := nodup_places t L
  rw [hrem] at hchain hnd
  simp only [List.map_append, List.map_cons] at hchain hnd
  have hxL : x ∉ L := t.mem_remaining.mp (hrem ▸ by simp : (x, false) ∈ t.remaining L)
  obtain ⟨linearized, hclear, hbits⟩ := h.bits.clear x.isLt
  have herase : (a.config.1.map Fin.valEmbedding).erase x.val = L.map Fin.valEmbedding := by
    rw [hL, Finset.map_insert]
    exact Finset.erase_insert ((Finset.mem_map' _).not.mpr hxL)
  rw [herase] at hbits
  obtain ⟨longest, hlongest, hrecorded⟩ :
      ∃ longest, s.newLongest computePartial = some longest ∧
        Longest n (if computePartial then a.dead ++ [a.path.map Frame.move] else []) longest := by
    have hold := h.longest
    cases computePartial with
    | false => exact ⟨s.longest, rfl, hold⟩
    | true =>
      obtain ⟨longest, heq, hnew⟩ := hold.record (a.path.map Frame.move)
      refine ⟨longest, ?_, hnew⟩
      rw [Search.newLongest, if_pos rfl, h.seq, ← heq, List.map_map]
      rfl
  have hid : uint (nodeOf t input output (x, false)).id = x.val := uint_id hn x
  refine ⟨{ s with
    longest := longest, state := callsTop.state, linearized := linearized,
    calls := s.calls.dropLast, heap := { s.heap with links := l },
    entry := l.next (place t (x, false)) }, _, ?_, by rw [hpath, List.getLast?_concat], ?_⟩
  · simp only [Search.backtrack, hlongest, hentry, h.nodes, hid, hclear,
      unlift_eq hchain hnd (h.nodes (x, false)) rfl hl, Option.bind_eq_bind, Option.bind_some,
      Option.pure_def]
  · rw [hpath, List.dropLast_concat]
    exact ⟨h.head, h.nodes, hstack, rfl, hbits, hcursor, h.cache, hrecorded⟩

/-- One round of the loop is one step of the search. -/
theorem round_going (h : Sim t input output base computePartial s a)
    (hbase : Chain base t.marks.length (t.marks.map (place t))) (hn : n ≤ 2 ^ 64)
    {a' : State (Finset (Fin n) × σ) (Fin n)}
    (hstep : (searchProblem t input output model).step a = .going a') :
    ∃ s', s.round model computePartial false = some (.continues s') ∧
      Sim t input output base computePartial s' a' := by
  have hgoal : a.config.1 ≠ Finset.univ := by
    intro hgoal
    simp [Problem.step, searchProblem, Timeline.problem, hgoal] at hstep
  have hgoal' : (searchProblem t input output model).goal a.config = false := decide_eq_false hgoal
  rcases h.cursor.cases hgoal with ⟨x, xs, ys, hentry, hrem, hxs, htodo⟩ | ⟨x, hentry, htodo⟩
  · have hchild : (searchProblem t input output model).child a.config x =
        (model.accepts s.state (input x) (output x)).map fun st => (insert x a.config.1, st) := by
      rw [h.state]
      rfl
    rw [h.round_call hbase hgoal hentry]
    cases haccepts : model.accepts s.state (input x) (output x) with
    | none =>
      rw [haccepts, Option.map_none] at hchild
      simp only [Problem.step, hgoal', htodo, hchild, Bool.false_eq_true, if_false] at hstep
      cases hstep
      exact ⟨_, by rw [h.tryCall_refused haccepts]; rfl, h.skip hbase hrem hxs⟩
    | some newState =>
      obtain ⟨newLinearized, hset, hbits⟩ := h.bits.set x.isLt
      have hinsert : insert x.val (a.config.1.map Fin.valEmbedding) =
          (insert x a.config.1).map Fin.valEmbedding := by
        rw [Finset.map_insert]
        rfl
      rw [hinsert] at hbits
      have hcached : Cached n ⟨newLinearized, newState⟩ (insert x a.config.1, newState) :=
        ⟨hbits, rfl⟩
      have hcontains := h.cache.contains t input output model hcached
      rw [haccepts, Option.map_some] at hchild
      simp only [Problem.step, hgoal', htodo, hchild, Bool.false_eq_true, if_false] at hstep
      rw [h.tryCall_accepted hn haccepts hset, hcontains]
      split at hstep
      · next hvisited =>
        cases hstep
        exact ⟨_, by simp [hvisited], h.skip hbase hrem hxs⟩
      · next hvisited =>
        cases hstep
        obtain ⟨heap, hlift, hsim⟩ := h.enter hbase hrem hxs hbits
        exact ⟨_, by simp [hvisited, hlift], hsim⟩
  · rw [h.round_return hbase hgoal hentry]
    simp only [Problem.step, hgoal', htodo, Bool.false_eq_true, if_false] at hstep
    cases hcalls : s.calls.getLast? with
    | none =>
      have hnil : a.path = [] := h.stack.calls_eq_nil.mp (List.getLast?_eq_none_iff.mp hcalls)
      simp [hnil] at hstep
    | some callsTop =>
      obtain ⟨s', f, hback, hlast, hsim⟩ := h.back hbase hn hcalls
      rw [hlast] at hstep
      cases hstep
      exact ⟨s', by simp [hback], hsim⟩

/-- The loop gives up when the search has failed. -/
theorem round_failed (h : Sim t input output base computePartial s a)
    (hbase : Chain base t.marks.length (t.marks.map (place t)))
    (hstep : (searchProblem t input output model).step a = .failed) :
    s.round model computePartial false = some (.returns false s.longest) := by
  obtain ⟨hgoal, htodo, hpath⟩ := BacktrackSearch.step_failed hstep
  have hgoal : a.config.1 ≠ Finset.univ := of_decide_eq_false hgoal
  rcases h.cursor.cases hgoal with ⟨x, xs, ys, -, -, -, htodo'⟩ | ⟨x, hentry, -⟩
  · rw [htodo] at htodo'
    cases htodo'
  · have hnil : s.calls = [] := h.stack.calls_eq_nil.mpr hpath
    rw [h.round_return hbase hgoal hentry, hnil]
    rfl

end Sim

end Simulation

/-! ### The loop -/

section Loop

variable {t : Timeline n} {input : Fin n → I} {output : Fin n → O} {base : Links Ptr}
  {computePartial : Bool} {model : FullModel σ I O}

/-- The list with the head in front, and its length. -/
theorem Linked.head {linking : Linking I O} (h : Linked t input output t.marks linking) :
    length linking.heap.links (t.marks.length + 1) linking.root = some t.marks.length ∧
      Chain (insertBefore linking.heap.links t.marks.length linking.root) t.marks.length
        (t.marks.map (place t)) := by
  have hnodup := nodup_places t ∅
  have hroot := h.root
  rw [t.remaining_empty] at hnodup
  cases hplaces : t.marks.map (place t) with
  | nil =>
    have hnil : t.marks = [] := List.map_eq_nil_iff.mp hplaces
    rw [hplaces, List.head?_nil] at hroot
    rw [hroot, hnil]
    refine ⟨rfl, (h.fresh _ ?_).1⟩
    simp [hnil]
  | cons r ps =>
    obtain ⟨hchain, hprev⟩ := h.chain r ps hplaces
    have hlen : t.marks.length = ps.length + 1 := by
      simpa using congrArg List.length hplaces
    rw [hplaces, List.head?_cons] at hroot
    rw [hplaces, List.nodup_cons] at hnodup
    rw [hroot, insertBefore_front hprev]
    refine ⟨?_, hchain.insertFront hnodup.1 (List.nodup_cons.mp hnodup.2).1⟩
    rw [length_of_chain hchain (by omega), hlen]

/-- Where `checkSingle` starts, the search starts. -/
theorem start_sim {entries : List (Entry I O)} (hrecords : Records t input output entries)
    (model : FullModel σ I O) (computePartial : Bool) :
    ∃ s base, Search.start model entries = some s ∧
      Chain base t.marks.length (t.marks.map (place t)) ∧
      Sim t input output base computePartial s (searchProblem t input output model).init := by
  have hlinked := linked_makeLinkedEntries hrecords
  obtain ⟨hlength, hchain⟩ := hlinked.head
  have hlen : entries.length = t.marks.length := by
    simpa using congrArg List.length hrecords
  have hhalf : t.marks.length / 2 = n := by
    rw [t.length_marks]
    omega
  generalize hlinking : makeLinkedEntries entries = linking at *
  refine ⟨{
    heap := {
      node := Function.update linking.heap.node t.marks.length (some ⟨none, none, -1⟩)
      links := insertBefore linking.heap.links t.marks.length linking.root }
    headEntry := t.marks.length
    entry := linking.root
    linearized := newBitset n
    cache := fun _ => []
    calls := []
    longest := List.replicate n none
    state := model.init }, _, ?_, hchain, ?_⟩
  · simp only [Search.start, hlinking, hlen, hlength, hhalf, Option.bind_eq_bind, Option.bind_some]
    rfl
  · have hcursor : Cursor t ∅ linking.root (openCalls t.marks) :=
      ⟨[], t.marks, by simp, by simp, hlinked.root, rfl⟩
    have hlongest : Longest n (if computePartial then [] else []) (List.replicate n none) :=
      ⟨List.length_replicate, fun x => .inl ⟨by simp, by simp⟩⟩
    refine ⟨rfl, fun m => ?_, .nil, rfl, Bits.new n, ?_, ⟨[], rfl, .nil⟩, hlongest⟩
    · dsimp only
      rw [Function.update_of_ne (place_lt t m).ne]
      exact hlinked.nodes m (t.complete m)
    · rw [← t.remaining_empty] at hcursor
      exact hcursor

/-- What `checkSingle` has found when it returns. -/
inductive Verdict (t : Timeline n) (input : Fin n → I) (output : Fin n → O)
    (model : FullModel σ I O) (computePartial : Bool) : Bool → List (Option (List Int)) → Prop
  | found {a : State (Finset (Fin n) × σ) (Fin n)}
      (hinv : BacktrackSearch.Inv (searchProblem t input output model) a)
      (hgoal : a.config.1 = Finset.univ) :
      Verdict t input output model computePartial true
        (List.replicate n (some (a.path.map fun f => (f.move.val : Int))))
  | failed {a : State (Finset (Fin n) × σ) (Fin n)} {longest : List (Option (List Int))}
      (hinv : BacktrackSearch.Inv (searchProblem t input output model) a)
      (hexplored : BacktrackSearch.Explored (searchProblem t input output model) a)
      (hend : (searchProblem t input output model).step a = .failed)
      (hlongest : Longest n (if computePartial then a.dead else []) longest) :
      Verdict t input output model computePartial false longest

/-- The loop returns within the steps that are left to the search. -/
theorem Sim.loop {s : Search σ I O} {a : State (Finset (Fin n) × σ) (Fin n)}
    (hbase : Chain base t.marks.length (t.marks.map (place t))) (hn : n ≤ 2 ^ 64)
    (hlawful : (searchProblem t input output model).Lawful Timeline.left)
    (h : Sim t input output base computePartial s a)
    (hinv : BacktrackSearch.Inv (searchProblem t input output model) a)
    (hexplored : BacktrackSearch.Explored (searchProblem t input output model) a) {fuel : Nat}
    (hfuel : BacktrackSearch.measure n Timeline.left a < fuel) :
    ∃ ok longest, s.loop model computePartial fuel = some (ok, longest) ∧
      Verdict t input output model computePartial ok longest := by
  induction fuel generalizing s a with
  | zero => omega
  | succ fuel ih =>
    cases hstep : (searchProblem t input output model).step a with
    | found =>
      have hgoal : a.config.1 = Finset.univ :=
        of_decide_eq_true (BacktrackSearch.step_found hstep)
      refine ⟨_, _, ?_, .found hinv hgoal⟩
      rw [Search.loop, h.round_found hbase hgoal]
      rfl
    | failed =>
      refine ⟨_, _, ?_, .failed hinv hexplored hstep h.longest⟩
      rw [Search.loop, h.round_failed hbase hstep]
      rfl
    | going a' =>
      obtain ⟨s', hround, hsim⟩ := h.round_going hbase hn hstep
      have hmoves := BacktrackSearch.step_going hstep
      have hless := hinv.measure_lt hlawful (fun c => t.length_openCalls_le c.1) hmoves
      obtain ⟨ok, longest, hloop, hverdict⟩ :=
        ih hsim (hinv.step hlawful hmoves) (hexplored.step hmoves) (by omega)
      refine ⟨ok, longest, ?_, hverdict⟩
      rw [Search.loop, hround]
      exact hloop

/-! ### Verdicts -/

variable {ok : Bool} {longest : List (Option (List Int))}

/-- The verdict is right. -/
theorem Verdict.iff (h : Verdict t input output model computePartial ok longest) :
    ok = true ↔ Linearization.Linearizable (fun s x => model.accepts s (input x) (output x))
      t.Before model.init (List.finRange n) := by
  cases h with
  | found hinv hgoal =>
    have horder := t.linearizable_of_path hinv.leads.path (decide_eq_true hgoal)
    exact iff_of_true rfl (t.linearizable_iff.mpr ⟨_, horder⟩)
  | failed hinv _ hend _ =>
    exact iff_of_false (by simp) (t.not_linearizable_of_hopeless (hinv.failed hend))

/-- `found` is a longest sequence that can come first and that contains `x`, or there
    is none. -/
def IsLongest (t : Timeline n) (accept : σ → Fin n → Option σ) (init : σ) (x : Fin n) :
    Option (List Int) → Prop
  | none => ∀ ys, t.Beginning accept init ys → x ∉ ys
  | some ids => ∃ xs, ids = xs.map (fun y => (y.val : Int)) ∧ t.Beginning accept init xs ∧
      x ∈ xs ∧ ∀ ys, t.Beginning accept init ys → x ∈ ys → ys.length ≤ xs.length

/-- Configurations that look the same have the same operations. -/
theorem alike_fst {c d : Finset (Fin n) × σ}
    (h : (searchProblem t input output model).Alike c d) : c.1 = d.1 := by
  induction h with
  | refl => rfl
  | tail _ hsame ih =>
    simp only [searchProblem, Timeline.problem, Bool.and_eq_true, decide_eq_true_eq] at hsame
    exact ih.trans hsame.1

/-- Every sequence that can come first has been matched by one that the failed search
    turned back from, with the same operations. -/
theorem exists_dead {a : State (Finset (Fin n) × σ) (Fin n)}
    (hlawful : (searchProblem t input output model).Lawful Timeline.left)
    (hexplored : BacktrackSearch.Explored (searchProblem t input output model) a)
    (hend : (searchProblem t input output model).step a = .failed) {ys : List (Fin n)}
    (hys : t.Beginning (fun s x => model.accepts s (input x) (output x)) model.init ys)
    (hne : ys ≠ []) :
    ∃ xs ∈ a.dead, xs.length = ys.length ∧ ∀ x, x ∈ xs ↔ x ∈ ys := by
  obtain ⟨c, hpath⟩ : ∃ c, (searchProblem t input output model).Path
      (searchProblem t input output model).start ys c := hys.path t
  obtain ⟨v, halike, xs, hxs, hpath'⟩ := hexplored.failed hlawful hend hpath hne
  obtain ⟨hmem, -⟩ := t.beginning_of_path hpath
  obtain ⟨hmem', -⟩ := t.beginning_of_path hpath'
  refine ⟨xs, hxs, ?_, fun x => ?_⟩
  · have h := hlawful.path_height hpath
    have h' := hlawful.path_height hpath'
    have hheight := hlawful.alike_height halike
    omega
  · rw [← hmem, ← hmem', alike_fst halike]

theorem Verdict.length_longest (h : Verdict t input output model computePartial ok longest) :
    longest.length = n := by
  cases h with
  | found => exact List.length_replicate
  | failed _ _ _ hlongest => exact hlongest.length

/-- `longest` is right, if it is wanted or the verdict is good. -/
theorem Verdict.isLongest (h : Verdict t input output model computePartial ok longest)
    (hlawful : (searchProblem t input output model).Lawful Timeline.left)
    (hwanted : computePartial = true ∨ ok = true) (x : Fin n) :
    ∃ found, longest[x.val]? = some found ∧
      IsLongest t (fun s x => model.accepts s (input x) (output x)) model.init x found := by
  cases h with
  | @found a hinv hgoal =>
    obtain ⟨hbegin, hall⟩ := t.linearizable_of_path hinv.leads.path (decide_eq_true hgoal)
    refine ⟨some (a.path.map fun f => (f.move.val : Int)), by simp, a.path.map Frame.move, by simp,
      hbegin, hall x, fun ys hys _ => ?_⟩
    exact (hys.nodup.subperm fun y _ => hall y).length_le
  | @failed a longest hinv hexplored hend hlongest =>
    rw [hwanted.resolve_right (by simp), if_pos rfl] at hlongest
    rcases hlongest.best x with ⟨hnone, hnever⟩ | ⟨xs, hxs, hx, hbest, hmost⟩
    · refine ⟨none, hnone, fun ys hys hxys => ?_⟩
      obtain ⟨zs, hzs, -, hmem⟩ :=
        exists_dead hlawful hexplored hend hys (List.ne_nil_of_mem hxys)
      exact hnever zs hzs ((hmem x).mpr hxys)
    · obtain ⟨c, hpath⟩ := hexplored.dead xs hxs
      refine ⟨_, hbest, xs, rfl, (t.beginning_of_path hpath).2.2, hx, fun ys hys hxys => ?_⟩
      obtain ⟨zs, hzs, hlen, hmem⟩ :=
        exists_dead hlawful hexplored hend hys (List.ne_nil_of_mem hxys)
      exact hlen ▸ hmost zs hzs ((hmem x).mpr hxys)

end Loop

/-! ### `checkSingle` -/

/-- `checkSingle` returns, and with the right verdict. -/
theorem checkSingle_verdict {t : Timeline n} {input : Fin n → I} {output : Fin n → O}
    {entries : List (Entry I O)} {model : FullModel σ I O}
    (hrecords : Records t input output entries) (hn : n ≤ 2 ^ 64)
    (hequal : Linearization.Respects (fun s x => model.accepts s (input x) (output x)) model.equal)
    (computePartial : Bool) {fuel : Nat} (hfuel : BacktrackSearch.cost n (n + 1) < fuel) :
    ∃ ok longest, checkSingle model entries computePartial fuel = some (ok, longest) ∧
      Verdict t input output model computePartial ok longest := by
  obtain ⟨s, base, hstart, hbase, hsim⟩ := start_sim hrecords model computePartial
  have hlawful : (searchProblem t input output model).Lawful Timeline.left := t.lawful hequal
  have hmeasure :
      BacktrackSearch.measure n Timeline.left (searchProblem t input output model).init ≤
        BacktrackSearch.cost n (n + 1) :=
    BacktrackSearch.measure_init_le fun c => t.length_openCalls_le c.1
  obtain ⟨ok, longest, hloop, hverdict⟩ := hsim.loop hbase hn hlawful BacktrackSearch.Inv.init
    BacktrackSearch.Explored.init (lt_of_le_of_lt hmeasure hfuel)
  refine ⟨ok, longest, ?_, hverdict⟩
  rw [checkSingle, hstart]
  exact hloop

end RaftLabs.Porcupine
