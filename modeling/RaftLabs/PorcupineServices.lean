import RaftLabs.KVRaftRefinement
import RaftLabs.KVSrvLinearizable
import RaftLabs.PorcupineKv
import RaftLabs.ShardKVLinearizable

/-!
# What the tests make of the services

The tests of the key/value services log the calls of their clerks, with the time
before and after each call, and give the log to the checker when all calls have
returned.  The services are linearizable, and the checker is right; so no such test
can end with an illegal history.

For `kvraft` this includes the Raft cluster underneath, in runs in which no command
overtakes a snapshot.  The groups of `shardkv` have one agreed log each, and shards that
were assigned once stay assigned.
-/

namespace RaftLabs.TestLog

open Linearizability (Event Effect Object Precedes WellFormed Legal)
open Porcupine (KvInput KvOutput KvOperation KvModel StoreExplains storeAccepts CheckOperations
  checkParallel fillDefault Parallel CheckResult)

variable {ι : Type}

/-- A log of the calls of a test, kept by wrappers that take the time before and after
    each call.  Calls that only read need not be in it. -/
structure Logged (calls : List (Event ι Query (Option Str))) (input : Query → KvInput)
    (output : Option Str → KvOutput) (log : List (ι × KvOperation)) : Prop where
  nodup : (log.map Prod.fst).Nodup
  complete : ∀ i q, .invoke i q ∈ calls → q.isGet = false → i ∈ log.map Prod.fst
  recorded : ∀ p ∈ log, ∃ q r, .invoke p.1 q ∈ calls ∧ .respond p.1 r ∈ calls ∧
    p.2.input = input q ∧ p.2.output = output r
  interval : ∀ p ∈ log, p.2.call ≤ p.2.ret
  clock : ∀ p ∈ log, ∀ p' ∈ log, p.2.Before p'.2 → Precedes calls p.1 p'.1

theorem invoke_unique {calls : List (Event ι Query (Option Str))} (h : WellFormed calls) {i : ι}
    {q q' : Query} (hq : .invoke i q ∈ calls) (hq' : .invoke i q' ∈ calls) : q = q' := by
  obtain ⟨past, future, rfl⟩ := List.append_of_mem hq
  have hfits := h past _ future rfl
  rcases List.mem_append.mp hq' with hin | hin
  · exact absurd hin (hfits q')
  · rcases List.mem_cons.mp hin with heq | hin
    · cases heq
      rfl
    · obtain ⟨mid, rest, rfl⟩ := List.append_of_mem hin
      have hlater := h (past ++ .invoke i q :: mid) (.invoke i q') rest (by simp)
      exact absurd (by simp) (hlater q)

/-- An order of the calls on the object is an order of the logged operations that the
    map accepts. -/
theorem runs_of_legal {obj : Object (Str → Str) Query (Option Str)} {input : Query → KvInput}
    {output : Option Str → KvOutput}
    (haccepts : ∀ m q (op : KvOperation), op.input = input q → op.output = output (obj.answer m q) →
      storeAccepts m op = some (obj.next m q))
    {order : List (Effect ι Query (Option Str))} {log : List (ι × KvOperation)}
    (hids : log.map Prod.fst = order.map Effect.id)
    (hops : ∀ p ∈ log, ∀ e ∈ order, p.1 = e.id →
      p.2.input = input e.query ∧ p.2.output = output e.answer)
    {m : Str → Str} (hlegal : Legal obj m order) :
    Linearization.Runs storeAccepts m (log.map Prod.snd) := by
  induction order generalizing log m with
  | nil =>
    obtain rfl : log = [] := by simpa using hids
    trivial
  | cons e order ih =>
    cases log with
    | nil => cases hids
    | cons p log =>
      simp only [List.map_cons, List.cons.injEq] at hids
      obtain ⟨hinput, houtput⟩ := hops p List.mem_cons_self e List.mem_cons_self hids.1
      obtain ⟨hanswer, hrest⟩ := hlegal
      rw [hanswer] at houtput
      refine ⟨_, haccepts m e.query p.2 hinput houtput, ih hids.2 (fun p' hp' e' he' => ?_) hrest⟩
      exact hops p' (List.mem_cons_of_mem p hp') e' (List.mem_cons_of_mem e he')

/-- Reads can be left out of a legal order. -/
theorem legal_filter {obj : Object (Str → Str) Query (Option Str)}
    (hread : ∀ q, q.isGet = true → ∀ m, obj.next m q = m)
    (keep : Effect ι Query (Option Str) → Bool)
    {order : List (Effect ι Query (Option Str))}
    (hdrop : ∀ e ∈ order, keep e = false → e.query.isGet = true) {m : Str → Str}
    (h : Legal obj m order) : Legal obj m (order.filter keep) := by
  induction order generalizing m with
  | nil => exact h
  | cons e order ih =>
    obtain ⟨hanswer, hrest⟩ := h
    have hfilter := ih (fun e' he' => hdrop e' (List.mem_cons_of_mem e he')) hrest
    cases hk : keep e with
    | true =>
      rw [List.filter_cons_of_pos hk]
      exact ⟨hanswer, hfilter⟩
    | false =>
      rw [List.filter_cons_of_neg (by simp [hk])]
      rwa [hread _ (hdrop e List.mem_cons_self hk)] at hfilter

/-- What a log of the calls of a linearizable service is for the checker. -/
theorem storeExplains_of_linearizable [DecidableEq ι] {obj : Object (Str → Str) Query (Option Str)}
    {calls : List (Event ι Query (Option Str))} {input : Query → KvInput}
    {output : Option Str → KvOutput} {log : List (ι × KvOperation)} (hwf : WellFormed calls)
    (hlin : Linearizability.Linearizable obj calls) (hlog : Logged calls input output log)
    (hinit : obj.init = fun _ => []) (hread : ∀ q, q.isGet = true → ∀ m, obj.next m q = m)
    (haccepts : ∀ m q (op : KvOperation), op.input = input q → op.output = output (obj.answer m q) →
      storeAccepts m op = some (obj.next m q)) :
    StoreExplains (log.map Prod.snd) := by
  obtain ⟨order, hnodup, hinvoked, hanswered, hlegal, hprecedes⟩ := hlin
  let kept := order.filter fun e => e.id ∈ log.map Prod.fst
  have hkept : ∀ e ∈ kept, e ∈ order := fun e he => (List.mem_filter.mp he).1
  have hperm : (log.map Prod.fst).Perm (kept.map Effect.id) := by
    refine (List.perm_ext_iff_of_nodup hlog.nodup (hnodup.sublist (List.filter_sublist.map _))).mpr
      fun i => ⟨fun hi => ?_, fun hi => ?_⟩
    · obtain ⟨p, hp, rfl⟩ := List.mem_map.mp hi
      obtain ⟨q, r, -, hr, -⟩ := hlog.recorded p hp
      obtain ⟨e, he, hid, -⟩ := hanswered p.1 r hr
      exact List.mem_map.mpr ⟨e, List.mem_filter.mpr ⟨he, by simpa [hid] using hi⟩, hid⟩
    · obtain ⟨e, he, rfl⟩ := List.mem_map.mp hi
      simpa using (List.mem_filter.mp he).2
  obtain ⟨log', hlog', hids⟩ := Linearization.exists_map_eq_of_perm hperm
  refine ⟨log'.map Prod.snd, hlog'.map _, ?_, ?_⟩
  · rw [← hinit]
    refine runs_of_legal haccepts hids (fun p hp e he hid => ?_)
      (legal_filter hread _ (fun e he hdrop => ?_) hlegal)
    · obtain ⟨q, r, hq, hr, hinput, houtput⟩ := hlog.recorded p (hlog'.subset hp)
      obtain rfl : q = e.query := invoke_unique hwf hq (hid ▸ hinvoked e (hkept e he))
      obtain ⟨e', he', hid', rfl⟩ := hanswered p.1 r hr
      obtain rfl : e' = e := List.inj_on_of_nodup_map hnodup he' (hkept e he) (hid'.trans hid)
      exact ⟨hinput, houtput⟩
    · by_contra hmut
      exact of_decide_eq_false hdrop
        (hlog.complete e.id e.query (hinvoked e he) (by simpa using hmut))
  · -- the order of the calls respects the order of their times
    have horder : order.Pairwise fun a b => ¬ Precedes calls b.id a.id := by
      rw [List.pairwise_iff_getElem]
      intro a b ha hb hab hbefore
      have := hprecedes b a _ _ (List.getElem?_eq_getElem hb) (List.getElem?_eq_getElem ha) hbefore
      omega
    have hkeptOrder : (kept.map Effect.id).Pairwise fun a b => ¬ Precedes calls b a :=
      List.pairwise_map.mpr (horder.filter _)
    rw [← hids] at hkeptOrder
    refine List.pairwise_map.mpr ((List.pairwise_map.mp hkeptOrder).imp_of_mem ?_)
    intro p p' hp hp' hnot hbefore
    exact hnot (hlog.clock p' (hlog'.subset hp') p (hlog'.subset hp) hbefore)

/-! ### The wrappers of the tests -/

/-- The arguments as `Get`, `Put` and `Append` of the tests of `kvraft` and `shardkv` log
    them. -/
def kvraftInput : Query → KvInput
  | .get key => ⟨0, key, []⟩
  | .put key value => ⟨1, key, value⟩
  | .append key value => ⟨2, key, value⟩

/-- In the tests of `kvsrv` an `Append` also has a result. -/
def kvsrvInput : Query → KvInput
  | .get key => ⟨0, key, []⟩
  | .put key value => ⟨1, key, value⟩
  | .append key value => ⟨3, key, value⟩

/-- The result, if there is one; otherwise `KvOutput` is left empty. -/
def loggedOutput (answer : Option Str) : KvOutput := ⟨answer.getD []⟩

theorem kvraft_accepts (m : Str → Str) (q : Query) (op : KvOperation)
    (hinput : op.input = kvraftInput q)
    (houtput : op.output = loggedOutput (MapSpec.object.answer m q)) :
    storeAccepts m op = some (MapSpec.object.next m q) := by
  cases q <;> simp [storeAccepts, hinput, houtput, kvraftInput, loggedOutput, MapSpec.object,
    MapSpec.answer, MapSpec.next]

theorem kvsrv_accepts (m : Str → Str) (q : Query) (op : KvOperation)
    (hinput : op.input = kvsrvInput q)
    (houtput : op.output = loggedOutput (KVSrv.fetchAppend.answer m q)) :
    storeAccepts m op = some (KVSrv.fetchAppend.next m q) := by
  cases q <;> simp [storeAccepts, hinput, houtput, kvsrvInput, loggedOutput, KVSrv.fetchAppend,
    KVSrv.returns, MapSpec.next, Query.key]

/-! ### The verdict on the services -/

/-- However the calls have been logged, and however the goroutines of the checker are
    scheduled, the checker does not call the history illegal, and without a timeout it
    says that it is fine. -/
def NeverIllegal (calls : List (Event ι Query (Option Str))) (input : Query → KvInput) : Prop :=
  ∀ log : List (ι × KvOperation), Logged calls input loggedOutput log → log.length ≤ 2 ^ 64 →
    ∀ l, CheckOperations KvModel (log.map Prod.snd) l → ∀ (verbose : Bool) (timeout : Int)
      (s : Parallel Str KvInput KvOutput l.length),
      (checkParallel (fillDefault KvModel) l verbose timeout).Reachable System.anyStep s →
      ∀ result ps, s.caller = .returned result ps →
        result ≠ .illegal ∧ (timeout ≤ 0 → result = .ok)

theorem neverIllegal_of_linearizable [DecidableEq ι] {obj : Object (Str → Str) Query (Option Str)}
    {calls : List (Event ι Query (Option Str))} {input : Query → KvInput} (hwf : WellFormed calls)
    (hlin : Linearizability.Linearizable obj calls) (hinit : obj.init = fun _ => [])
    (hread : ∀ q, q.isGet = true → ∀ m, obj.next m q = m)
    (haccepts : ∀ m q (op : KvOperation), op.input = input q →
      op.output = loggedOutput (obj.answer m q) → storeAccepts m op = some (obj.next m q)) :
    NeverIllegal calls input := by
  intro log hlog hsmall l hl verbose timeout s hs result ps hret
  have hexplains := storeExplains_of_linearizable hwf hlin hlog hinit hread haccepts
  have htimes : ∀ op ∈ log.map Prod.snd, op.call ≤ op.ret := by
    intro op hop
    obtain ⟨p, hp, rfl⟩ := List.mem_map.mp hop
    exact hlog.interval p hp
  obtain ⟨-, hillegal, hunknown, -⟩ :=
    Porcupine.kv_answer hl htimes (by rwa [List.length_map]) hs hret
  refine ⟨fun h => hillegal h hexplains, fun htimeout => ?_⟩
  cases result with
  | ok => rfl
  | illegal => exact absurd hexplains (hillegal rfl)
  | unknown => exact absurd (hunknown rfl) (by omega)

/-- An `Append`, and a `Get` that finds what was appended. -/
def appendGet (key : Str) (answer : Option Str) : List (Event (Nat × Nat) Query (Option Str)) :=
  [.invoke (0, 1) (.append key [7]), .respond (0, 1) answer, .invoke (0, 2) (.get key),
    .respond (0, 2) (some [7])]

def appendGetLog (input : Query → KvInput) (key : Str) (answer : Option Str) :
    List ((Nat × Nat) × KvOperation) :=
  [((0, 1), ⟨0, input (.append key [7]), 0, loggedOutput answer, 1⟩),
    ((0, 2), ⟨0, input (.get key), 2, loggedOutput (some [7]), 3⟩)]

theorem logged_appendGet (input : Query → KvInput) (key : Str) (answer : Option Str) :
    Logged (appendGet key answer) input loggedOutput (appendGetLog input key answer) := by
  constructor
  · simp [appendGetLog]
  · intro i q h hmut
    simp only [appendGet, List.mem_cons, Event.invoke.injEq, reduceCtorEq, false_or,
      List.not_mem_nil, or_false] at h
    rcases h with ⟨rfl, -⟩ | ⟨rfl, -⟩ <;> simp [appendGetLog]
  · simp only [appendGetLog, List.mem_cons, List.not_mem_nil, or_false]
    rintro p (rfl | rfl)
    · exact ⟨.append key [7], answer, by simp [appendGet], by simp [appendGet], rfl, rfl⟩
    · exact ⟨.get key, some [7], by simp [appendGet], by simp [appendGet], rfl, rfl⟩
  · simp [appendGetLog]
  · simp only [appendGetLog, List.mem_cons, List.not_mem_nil, or_false]
    rintro p (rfl | rfl) p' (rfl | rfl) hbefore
    · cases hbefore
    · exact ⟨(appendGet key answer).take 2, (appendGet key answer).drop 2, answer, .get key,
        by simp, by simp [appendGet], by simp [appendGet]⟩
    · cases hbefore
    · cases hbefore

/-- Clerks of the replicated service, and Raft under its servers: in every run in which no
    command overtakes a snapshot, and no snapshot is accepted while its server starts, the
    checker does not call the calls that have returned illegal. -/
theorem kvraft_neverIllegal {n : Nat} (s : KV.KVRaft n)
    (h : (KV.kvRaft n).Reachable KV.InOrder s) : NeverIllegal s.clients.calls kvraftInput := by
  obtain ⟨t, ht, himplements⟩ := KV.exists_implements h
  have hinv := KV.ServiceInv.of_reachable ht
  rw [← himplements.clients.calls]
  refine neverIllegal_of_linearizable hinv.explained.wellFormed ?_ rfl
    (fun q hq m => MapSpec.next_of_isGet hq m) kvraft_accepts
  exact hinv.explained.linearizable (fun q => q.isGet = true) (KV.legal_effects t.service.log).1
    (KV.effects_once t.service.log) (fun q hq m => MapSpec.next_of_isGet hq m)

/-- Server 0 is elected, executes an `Append`, compacts, and answers a `Get`. -/
def appendThenGet : List (KV.KVRaftAction 3) :=
  [.invoke 0 (.append [1] [7]), .cluster (.restore 0), .cluster (.restore 1),
    .cluster (.restore 2), .cluster (.raft (.electionTimeout 0)), .cluster (.raft (.deliver 0)),
    .cluster (.raft (.deliver 2)), .enter 0 0, .start 0, .register 0,
    .cluster (.raft (.replicate 0 1)), .cluster (.raft (.deliver 3)),
    .cluster (.raft (.deliver 4)), .cluster (.raft (.apply 0)), .cluster (.raft (.sendCommand 0)),
    .cluster (.process 0 true), .cluster (.compact 0), .receive 0, .finish 0, .reply 0,
    .invoke 0 (.get [1]), .enter 0 2, .start 1, .register 1, .cluster (.raft (.replicate 0 1)),
    .cluster (.raft (.deliver 5)), .cluster (.raft (.deliver 6)), .cluster (.raft (.apply 0)),
    .cluster (.raft (.sendCommand 0)), .cluster (.process 0 false), .receive 1, .finish 1,
    .reply 1]

theorem kvraft_neverIllegal_appendGet : ∃ s : KV.KVRaft 3,
    (KV.kvRaft 3).Reachable KV.InOrder s ∧ s.clients.calls = appendGet [1] none ∧
      Logged (appendGet [1] none) kvraftInput loggedOutput (appendGetLog kvraftInput [1] none) ∧
      NeverIllegal (appendGet [1] none) kvraftInput := by
  obtain ⟨s, hs, hcalls⟩ := (KV.kvRaft 3).exists_reachable_of_run KV.InOrder
    appendThenGet (fun s => decide (s.clients.calls = appendGet [1] none)) (by decide +kernel)
  have hcalls := of_decide_eq_true hcalls
  exact ⟨s, hs, hcalls, logged_appendGet .., hcalls ▸ kvraft_neverIllegal s hs⟩

/-- The same for the single server, whose `Append` returns the old value. -/
theorem kvsrv_neverIllegal (s : KVSrv.SrvSystem) (h : KVSrv.kvsrv.Reachable System.anyStep s) :
    NeverIllegal s.clients.calls kvsrvInput := by
  have hinv := KVSrv.SrvInv.of_reachable h
  have hordered : KVSrv.Ordered s.executed := hinv.ordered.of_subset hinv.executed
  refine neverIllegal_of_linearizable hinv.explained.wellFormed ?_ rfl
    (fun q hq m => MapSpec.next_of_isGet hq m) kvsrv_accepts
  exact hinv.explained.linearizable (fun q => q.isGet = true) (KVSrv.legal_effects s.executed).1
    (KVSrv.effects_once hordered) (fun q hq m => MapSpec.next_of_isGet hq m)

theorem kvsrv_neverIllegal_appendGet : ∃ s : KVSrv.SrvSystem,
    KVSrv.kvsrv.Reachable System.anyStep s ∧ s.clients.calls = appendGet [1] (some []) ∧
      Logged (appendGet [1] (some [])) kvsrvInput loggedOutput
        (appendGetLog kvsrvInput [1] (some [])) ∧
      NeverIllegal (appendGet [1] (some [])) kvsrvInput := by
  obtain ⟨s, hs, hcalls⟩ := KVSrv.kvsrv.exists_reachable_of_run System.anyStep
    [.invoke 0 (.append [1] [7]), .execute 0, .reply 0, .invoke 0 (.get [1]), .execute 1, .reply 1]
    (fun s => decide (s.clients.calls = appendGet [1] (some []))) (by decide +kernel)
  have hcalls := of_decide_eq_true hcalls
  exact ⟨s, hs, hcalls, logged_appendGet .., hcalls ▸ kvsrv_neverIllegal s hs⟩

/-- And for the sharded service, also while shards move between its groups, under a
    controller that never takes a shard back to group 0.  The groups have one agreed log
    each. -/
theorem shardkv_neverIllegal {ν : Type} [DecidableEq ν] (ct : ShardKV.Controller)
    (makeEnd : ShardKV.MakeEnd ν) (c : ShardKV.ShardSystem ν)
    (h : (ShardKV.shardSystem ct makeEnd).Reachable System.anyStep c) :
    NeverIllegal c.clients.calls kvraftInput := by
  have hinv := ShardKV.LinearInv.of_reachable h
  refine neverIllegal_of_linearizable hinv.explained.wellFormed ?_ rfl
    (fun q hq m => MapSpec.next_of_isGet hq m) kvraft_accepts
  exact hinv.explained.linearizable (fun q => q.isGet = true) hinv.effects.legal
    hinv.effects.once (fun q hq m => MapSpec.next_of_isGet hq m)

theorem shardkv_neverIllegal_handOff : ∃ c : ShardKV.ShardSystem (Fin 3),
    (ShardKV.shardSystem ShardKV.handOff ShardKV.threeServers).Reachable System.anyStep c ∧
      c.clients.calls = appendGet [0] none ∧
      Logged (appendGet [0] none) kvraftInput loggedOutput (appendGetLog kvraftInput [0] none) ∧
      NeverIllegal (appendGet [0] none) kvraftInput := by
  obtain ⟨c, hc, hcalls⟩ :=
    (ShardKV.shardSystem ShardKV.handOff ShardKV.threeServers).exists_reachable_of_run
      System.anyStep (ShardKV.untilPulled ++ ShardKV.untilServed ++ ShardKV.untilRead)
      (fun c => decide (c.clients.calls = appendGet [0] none)) (by decide +kernel)
  have hcalls := of_decide_eq_true hcalls
  exact ⟨c, hc, hcalls, logged_appendGet .., hcalls ▸ shardkv_neverIllegal ShardKV.handOff _ c hc⟩

end RaftLabs.TestLog
