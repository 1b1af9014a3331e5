import RaftLabs.RaftService
import RaftLabs.ShardCtrlerLinearizable

/-!
# `shardctrler` on top of Raft

Clerks, the requests that the controllers run for them, the controllers, and the
Raft cluster underneath, in one system.  A controller never asks Raft to compact, so
no order of the messages on `applyCh` has to be assumed: as long as the clerks name
only groups and shards that there can be, their calls are linearizable.
-/

namespace RaftLabs.Ctrl

open Linearizability ReplicatedService

variable {n N : Nat} {γ : Type}

/-! ### The composed system -/

/-- What stands in slot 0 of a log; it is never applied. -/
instance : Inhabited (Op γ) := ⟨{ args := .query 0, clientId := 0, seq := 0 }⟩

/-- The controllers on top of Raft, the handlers that no longer wait and have not answered,
    the replies that were sent, and the clerks.  The stamps of the history are not used, and
    no snapshot has any bytes. -/
structure CtrlRaft (n N : Nat) (γ : Type) where
  servers : RaftService n (Except Fault (ShardCtrler N γ)) (Op γ) (Op γ) Unit
  reading : List Nat
  replies : List (Op γ × Reply N γ)
  clients : Clients (Args γ) (Option (Config N γ))

inductive CtrlRaftAction (n : Nat) (γ : Type) where
  /-- Clerk `c` begins a call. -/
  | invoke (c : Nat) (args : Args γ)
  /-- Server `i` begins to run the request of event number `k` of the history. -/
  | enter (i : Fin n) (k : Nat)
  /-- A step inside `submit`, of `applyLoop`, or of Raft. -/
  | serve (act : RaftServiceAction n (Op γ) Unit)
  /-- Handler `h`, which is done waiting, sends its reply. -/
  | answer (h : Nat)
  /-- A clerk takes reply number `k`. -/
  | reply (k : Nat)

namespace CtrlRaft

/-- A handler whose `submit` is over goes on, and those at a server that crashes do not. -/
def readingAfter (s : CtrlRaft n N γ) : RaftServiceAction n (Op γ) Unit → List Nat
  | .start h =>
    match s.servers.handlers[h]? with
    | some hd =>
      match ((s.servers.raft.servers hd.server).rf.start hd.op).2.1 with
      | some _ => s.reading
      | none => s.reading ++ [h]
    | none => s.reading
  | .finish h => s.reading ++ [h]
  | .raft act =>
    match s.servers.raft.crashed? act with
    | some i => s.reading.filter fun h => s.servers.handlers[h]?.all fun hd => hd.server ≠ i
    | none => s.reading
  | .register _ => s.reading
  | .receive _ => s.reading
  | .expire _ => s.reading
  | .process _ => s.reading

/-- An action that the service does not notice keeps all handlers. -/
theorem readingAfter_of_unnoticed {s : CtrlRaft n N γ}
    {act : RaftServiceAction n (Op γ) Unit}
    (hm : s.servers.move? act = none) : s.readingAfter act = s.reading := by
  cases act with
  | start k =>
    have hget := Option.map_eq_none_iff.mp hm
    simp only [readingAfter, hget]
  | raft act =>
    have hcrash := Option.map_eq_none_iff.mp hm
    simp only [readingAfter, hcrash]
  | _ => cases hm

end CtrlRaft

variable [LinearOrder γ] [Zero γ]

def CtrlRaft.step (s : CtrlRaft n N γ) : CtrlRaftAction n γ → Option (CtrlRaft n N γ)
  | .invoke c args => do
    let clients ← s.clients.invoke 0 c args
    some { s with clients := clients }
  | .enter i k =>
    match s.clients.history[k]? with
    | some (_, .invoke (c, seq) args) =>
      some { s with servers := s.servers.enter i (Op.request c seq args) }
    | _ => none
  | .serve act => do
    let servers ← s.servers.step machine act
    some { s with servers := servers, reading := s.readingAfter act }
  | .answer h => do
    let hd ← s.servers.handlers[h]?
    match hd.phase, (s.servers.servers hd.server).state with
    | .returned out, .ok sc =>
      if h ∈ s.reading then some { s with
        reading := s.reading.filter (· ≠ h)
        replies := s.replies ++ [(hd.op, handle hd.op (submit hd.op out) sc)] }
      else none
    | _, _ => none
  | .reply k => do
    let (op, reply) ← s.replies[k]?
    if reply.wrongLeader then none
    else do
      let clients ← s.clients.respond 0 op.clientId.toNat op.seq.toNat reply.config
      some { s with clients := clients }

/-- The servers of `shardctrler`, all of them just started, and their clerks. -/
def ctrlRaft (n N : Nat) (γ : Type) [LinearOrder γ] [Zero γ] :
    System (CtrlRaft n N γ) (CtrlRaftAction n γ) where
  init := { servers := .init machine, reading := [], replies := [], clients := .start }
  step := CtrlRaft.step

/-- The clerks are called with a valid group in `Join` and a shard in `Move`. -/
def validArgs (_ : CtrlRaft n N γ) : CtrlRaftAction n γ → Prop
  | .invoke _ args => args.Callable N
  | .enter _ _ => True
  | .serve _ => True
  | .answer _ => True
  | .reply _ => True

instance (s : CtrlRaft n N γ) (a : CtrlRaftAction n γ) : Decidable (validArgs s a) :=
  match a with
  | .invoke _ args => inferInstanceAs (Decidable (args.Callable N))
  | .enter _ _ => isTrue trivial
  | .serve _ => isTrue trivial
  | .answer _ => isTrue trivial
  | .reply _ => isTrue trivial

/-! ### The simulation -/

/-- The service on top of the contract that the whole implements. -/
structure Implements (s : CtrlRaft n N γ) (t : CtrlService (Fin n) N γ) : Prop where
  clients : SameCalls s.clients t.clients
  replies : t.replies = s.replies
  reading : t.servers.reading = s.reading
  grounds : Grounds machine s.servers t.servers.service

namespace Implements

variable {s s' : CtrlRaft n N γ} {t : CtrlService (Fin n) N γ}

theorem initial : Implements (ctrlRaft n N γ).init (ctrlService (Fin n) N γ).init where
  clients := ⟨rfl, rfl⟩
  replies := rfl
  reading := rfl
  grounds := .initial

/-- The handlers that are done waiting are those the service counts. -/
theorem readingAfter_eq (h : Implements s t) {act : RaftServiceAction n (Op γ) Unit}
    {m : Move (Fin n)} (hm : s.servers.move? act = some m) :
    t.servers.readingAfter m = s.readingAfter act := by
  cases act with
  | start k =>
    obtain ⟨hd, hget, rfl⟩ := Option.map_eq_some_iff.mp hm
    simp only [CtrlRaft.readingAfter, hget]
    cases ((s.servers.raft.servers hd.server).rf.start hd.op).2.1 with
    | some index => exact h.reading
    | none => simp only [Reading.readingAfter, h.reading]
  | raft act =>
    obtain ⟨i, hcrash, rfl⟩ := Option.map_eq_some_iff.mp hm
    simp only [CtrlRaft.readingAfter, hcrash, Reading.readingAfter, h.reading, h.grounds.handlers]
  | finish k =>
    obtain rfl := Option.some.inj hm
    simp only [CtrlRaft.readingAfter, Reading.readingAfter, h.reading]
  | _ =>
    obtain rfl := Option.some.inj hm
    exact h.reading

/-- A step of the servers is matched by a command that comes to stand in the log, if need
    be, and a move. -/
theorem serve (h : Implements s t) (ht : (ctrlService (Fin n) N γ).Reachable validCalls t)
    {act : RaftServiceAction n (Op γ) Unit}
    {servers : RaftService n (Except Fault (ShardCtrler N γ)) (Op γ) (Op γ) Unit}
    (hst : s.servers.step machine act = some servers) :
    ∃ t', (ctrlService (Fin n) N γ).Reachable validCalls t' ∧
      Implements { s with servers := servers, reading := s.readingAfter act } t' := by
  rcases h.grounds.step hst with ⟨hm, h'⟩ | ⟨m, t₁, t', hm, hcommit, hmove, h'⟩
  · exact ⟨t, ht, h.clients, h.replies,
      h.reading.trans (CtrlRaft.readingAfter_of_unnoticed hm).symm, h'⟩
  · -- the service may have to commit the command first
    have ht₁ : (ctrlService (Fin n) N γ).Reachable validCalls
        { t with servers := { service := t₁, reading := t.servers.reading } } := by
      rcases hcommit with rfl | ⟨k, hk⟩
      · exact ht
      · refine ht.step (a := .commit k) trivial ?_
        simp [ctrlService, CtrlService.step, hk]
    have hreading :
        ({ service := t₁, reading := t.servers.reading } : Reading _ _ _ _).readingAfter m =
          s.readingAfter act := by
      have hhandlers : t₁.handlers = t.servers.service.handlers := by
        rcases hcommit with rfl | ⟨k, hk⟩
        · rfl
        · obtain ⟨x, -, rfl⟩ := Service.commit_eq_some hk
          rfl
      rw [← h.readingAfter_eq hm]
      cases m <;> simp only [Reading.readingAfter, hhandlers]
    refine ⟨{ t with servers := { service := t', reading := s.readingAfter act } },
      ht₁.step (a := .move m) trivial ?_, h.clients, h.replies, rfl, h'⟩
    have hserved : Reading.move machine { service := t₁, reading := t.servers.reading } m =
        some { service := t', reading := s.readingAfter act } := by
      simp only [Reading.move, hmove, Option.bind_eq_bind, Option.bind_some, hreading]
    -- a controller takes no snapshot
    have hplain : ∀ i, m ≠ .apply i true := by
      rintro i rfl
      cases act with
      | start k =>
        obtain ⟨hd, -, heq⟩ := Option.map_eq_some_iff.mp hm
        split at heq <;> cases heq
      | raft act =>
        obtain ⟨j, -, heq⟩ := Option.map_eq_some_iff.mp hm
        cases heq
      | _ => cases hm
    simp only [ctrlService, CtrlService.step]
    rw [hserved]
    rfl

theorem step (h : Implements s t) (ht : (ctrlService (Fin n) N γ).Reachable validCalls t)
    {act : CtrlRaftAction n γ} (hvalid : validArgs s act) (hst : s.step act = some s') :
    ∃ t', (ctrlService (Fin n) N γ).Reachable validCalls t' ∧ Implements s' t' := by
  cases act with
  | invoke c args =>
    simp only [CtrlRaft.step, Option.bind_eq_bind, Option.bind_eq_some_iff,
      Option.some.injEq] at hst
    obtain ⟨clients, hinvoke, rfl⟩ := hst
    obtain ⟨clients', hinvoke', hsame⟩ := h.clients.invoke hinvoke
      (effects N t.servers.service.log).length
    refine ⟨{ t with clients := clients' }, ht.step (a := .invoke c args) hvalid ?_,
      hsame, h.replies, h.reading, h.grounds⟩
    simp [ctrlService, CtrlService.step, hinvoke']
  | enter i k =>
    simp only [CtrlRaft.step] at hst
    split at hst
    · rename_i stamp c seq args hk
      obtain rfl := Option.some.inj hst
      obtain ⟨stamp', hk'⟩ := h.clients.event hk
      refine ⟨{ t with servers := t.servers.enter i (Op.request c seq args) },
        ht.step (a := .enter i k) trivial ?_, h.clients, h.replies, h.reading,
        h.grounds.enter i _⟩
      simp only [ctrlService, CtrlService.step, hk']
    · cases hst
  | serve act =>
    simp only [CtrlRaft.step, Option.bind_eq_bind, Option.bind_eq_some_iff,
      Option.some.injEq] at hst
    obtain ⟨servers, hservers, rfl⟩ := hst
    exact h.serve ht hservers
  | answer k =>
    simp only [CtrlRaft.step, Option.bind_eq_bind, Option.bind_eq_some_iff] at hst
    obtain ⟨hd, hget, hst⟩ := hst
    split at hst
    · rename_i out sc hphase hstate
      simp only [Option.ite_none_right_eq_some, Option.some.injEq] at hst
      obtain ⟨hread, rfl⟩ := hst
      have hlook : t.servers.look k = some (hd.op, out, .ok sc) := by
        simp only [Reading.look, h.grounds.handlers, hget, Option.bind_eq_bind, Option.bind_some,
          hphase, h.reading, if_pos hread, h.grounds.servers, hstate]
      refine ⟨{ t with
          servers := t.servers.answered k
          replies := t.replies ++ [(hd.op, handle hd.op (submit hd.op out) sc)] },
        ht.step (a := .answer k) trivial ?_, h.clients, ?_, ?_, h.grounds⟩
      · simp [ctrlService, CtrlService.step, hlook]
      · simp only [h.replies]
      · simp only [Reading.answered, h.reading]
    · cases hst
  | reply k =>
    simp only [CtrlRaft.step, Option.bind_eq_bind, Option.bind_eq_some_iff] at hst
    obtain ⟨⟨op, reply⟩, hget, hst⟩ := hst
    dsimp only at hst
    split at hst
    · cases hst
    · rename_i haccept
      simp only [Option.bind_eq_some_iff, Option.some.injEq] at hst
      obtain ⟨clients, hrespond, rfl⟩ := hst
      obtain ⟨clients', hrespond', hsame⟩ := h.clients.respond hrespond
        (effects N t.servers.service.log).length
      refine ⟨{ t with clients := clients' }, ht.step (a := .reply k) trivial ?_,
        hsame, h.replies, h.reading, h.grounds⟩
      simp [ctrlService, CtrlService.step, h.replies, hget, haccept, hrespond']

end Implements

/-- Every run of the whole is a run of the service on top of an agreed log. -/
theorem exists_implements {s : CtrlRaft n N γ} (hs : (ctrlRaft n N γ).Reachable validArgs s) :
    ∃ t, (ctrlService (Fin n) N γ).Reachable validCalls t ∧ Implements s t := by
  refine hs.invariant (P := fun s => ∃ t, (ctrlService (Fin n) N γ).Reachable validCalls t ∧
    Implements s t) ⟨_, Relation.ReflTransGen.refl, .initial⟩ ?_
  intro s act s' _ ih hvalid hst
  obtain ⟨t, ht, h⟩ := ih
  exact h.step ht hvalid hst

/-! ### Linearizability -/

/-- In every run of clerks, controllers and Raft in which no clerk asks for a `Join` of
    group 0 or a `Move` of a shard that does not exist, the calls of the clerks are
    linearizable for the list of configurations.  There is one log, every entry of which
    Raft has handed to a server at its index, and every controller is what the log makes of
    it: none panics or hangs. -/
theorem ctrlRaft_linearizable (s : CtrlRaft n N γ)
    (hs : (ctrlRaft n N γ).Reachable validArgs s) :
    WellFormed s.clients.calls ∧ Linearizable (Configs.object N γ) s.clients.calls ∧
    ∃ log : List (Op γ),
      (∀ (p : Nat) op, log[p]? = some op →
        ∃ i, (i, ApplyMsg.command op (p + 1)) ∈ s.servers.raft.emitted) ∧
      ∀ i, ∃ sc, (s.servers.servers i).state = .ok sc ∧
        Replays log (s.servers.servers i).lastApplied sc := by
  obtain ⟨t, ht, h⟩ := exists_implements hs
  have hinv := CtrlInv.of_reachable ht
  rw [← h.clients.calls]
  refine ⟨hinv.explained.wellFormed, ?_, t.servers.service.log, h.grounds.logged, fun i => ?_⟩
  · obtain ⟨sc, hsc, -⟩ := exists_run hinv.log_callable
    refine hinv.explained.linearizable (fun args => args.isQuery = true)
      (legal_effects hinv.log_callable hsc).1 (effects_once hinv.sound.logged hinv.log_callable) ?_
    intro args hq st
    dsimp only [Configs.object]
    rw [Configs.next, if_pos hq]
  · have hat := hinv.sound.servers i
    rw [h.grounds.servers, h.grounds.position i] at hat
    obtain ⟨sc, hsc, -⟩ := exists_run (N := N) fun op hop =>
      hinv.log_callable op (List.mem_of_mem_take (i := (s.servers.servers i).lastApplied) hop)
    exact ⟨sc, hat.state.trans hsc, replays_of_run hat.le_length hsc⟩

/-- Server `i` of three is elected with the vote of server `j`.  A `Query` for the latest
    configuration is logged before a `Join` and answered with what the `Join` made; then the
    server crashes and begins again with an empty log of configurations. -/
def queryThenCrash (i j : Fin 3) : List (CtrlRaftAction 3 Int) :=
  [.invoke 0 (.query (-1)), .serve (.raft (.electionTimeout i)), .serve (.raft (.deliver 0)),
    .serve (.raft (.deliver 2)), .enter i 0, .serve (.start 0), .serve (.register 0),
    .invoke 1 (.join (Finmap.singleton 3 [[]])), .enter i 1, .serve (.start 1),
    .serve (.register 1), .serve (.raft (.replicate i j)), .serve (.raft (.deliver 3)),
    .serve (.raft (.deliver 4)), .serve (.raft (.apply i)), .serve (.raft (.sendCommand i)),
    .serve (.process i), .serve (.receive 0), .serve (.finish 0), .serve (.raft (.apply i)),
    .serve (.raft (.sendCommand i)), .serve (.process i), .answer 0, .reply 0,
    .serve (.receive 1), .serve (.finish 1), .answer 1, .reply 1, .serve (.raft (.restart i))]

theorem ctrlRaft_linearizable_queryThenCrash : ∃ s : CtrlRaft 3 2 Int,
    (ctrlRaft 3 2 Int).Reachable validArgs s ∧ s.clients.calls.length = 4 ∧
      s.servers.raft.emitted.length = 2 ∧ s.clients.calls.any (answersNum 1) = true ∧
      (s.servers.servers 0).lastApplied = 0 ∧
      Linearizable (Configs.object 2 Int) s.clients.calls := by
  obtain ⟨s, hs, hcheck⟩ := (ctrlRaft 3 2 Int).exists_reachable_of_run validArgs
    (queryThenCrash 0 1) (fun s => decide (s.clients.calls.length = 4 ∧
      s.servers.raft.emitted.length = 2 ∧ s.clients.calls.any (answersNum 1) = true ∧
      (s.servers.servers 0).lastApplied = 0)) (by decide +kernel)
  obtain ⟨hcalls, hsent, hread, hcrash⟩ := of_decide_eq_true hcheck
  exact ⟨s, hs, hcalls, hsent, hread, hcrash, (ctrlRaft_linearizable s hs).2.1⟩

end RaftLabs.Ctrl
