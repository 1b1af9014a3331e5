import RaftLabs.KVReplica
import RaftLabs.KVService

/-!
# `kvraft` as a whole

Clerks, the requests that the servers run for them, the servers, and the Raft
cluster underneath, in one system.  Nothing is assumed of Raft here: `waitFor`
calls `Start` of the Raft server it runs on, and what `applyLoop` handles is what
Raft has sent on `applyCh`.
-/

namespace RaftLabs.KV

open Linearizability ReplicatedService

variable {n : Nat}

/-- The servers, the requests they run, and the clerks.  The stamps of the history
    are not used. -/
structure KVRaft (n : Nat) where
  cluster : KVCluster n
  handlers : List (Handler (Fin n) Op Result)
  clients : Clients Query (Option Str)

inductive KVRaftAction (n : Nat) where
  /-- Clerk `c` begins a call. -/
  | invoke (c : Nat) (q : Query)
  /-- Server `i` begins to run the request of event number `k` of the history. -/
  | enter (i : Fin n) (k : Nat)
  /-- `waitFor` of handler `h` calls `Start`. -/
  | start (h : Nat)
  | register (h : Nat)
  | receive (h : Nat)
  | expire (h : Nat)
  | finish (h : Nat)
  /-- The clerk takes the reply of handler `h`. -/
  | reply (h : Nat)
  /-- The servers make a step on their own. -/
  | cluster (act : KVAction n)

/-- What `applyLoop` sends to a waiting request when it handles its message. -/
def Replica.notice (r : Replica) : Option (Nat × Result) :=
  match r.loop with
  | .received (.command op commandIndex) => (r.kv.applyCommand op commandIndex).2
  | _ => none

/-- Where `waitFor` is after `Start` has returned. -/
def afterStart : Option Nat → Phase Result
  | some index => .proposed index
  | none => .returned .notLeader

namespace KVRaft

/-- A step of the servers that no request makes: `applyLoop` may wake a request, and
    the requests of a server that crashes do not return. -/
def stepCluster (s : KVRaft n) : KVAction n → Option (KVRaft n)
  | .raft (.start _ _) => none
  | .wait _ _ _ => none
  | .process i oversized => do
    let cluster ← s.cluster.step (.process i oversized)
    let handlers ← Service.send s.handlers (s.cluster.replicas i).notice
    some { s with cluster := cluster, handlers := handlers }
  | .raft act => do
    let cluster ← s.cluster.step (.raft act)
    match s.cluster.raft.crashed? act with
    | some i => some { s with cluster := cluster, handlers := s.handlers.map (Service.stop i) }
    | none => some { s with cluster := cluster }
  | .restore i => do
    let cluster ← s.cluster.step (.restore i)
    some { s with cluster := cluster }
  | .compact i => do
    let cluster ← s.cluster.step (.compact i)
    some { s with cluster := cluster }

def step (s : KVRaft n) : KVRaftAction n → Option (KVRaft n)
  | .invoke c q => do
    let clients ← s.clients.invoke 0 c q
    some { s with clients := clients }
  | .enter i k =>
    match s.clients.history[k]? with
    | some (_, .invoke (c, seq) q) =>
      let hd : Handler (Fin n) Op Result :=
        { server := i, op := Op.request c seq q, phase := .entered, inbox := none }
      some { s with handlers := s.handlers ++ [hd] }
    | _ => none
  | .start h => do
    let hd ← s.handlers[h]?
    match hd.phase with
    | .entered => do
      let index := ((s.cluster.raft.servers hd.server).rf.start hd.op).2.1
      let cluster ← s.cluster.step (.raft (.start hd.server hd.op))
      some { s with
        cluster := cluster
        handlers := s.handlers.set h { hd with phase := afterStart index } }
    | _ => none
  | .register h => do
    let hd ← s.handlers[h]?
    match hd.phase with
    | .proposed index => do
      let cluster ← s.cluster.step (.wait hd.server index (some h))
      some { s with
        cluster := cluster
        handlers := s.handlers.set h { hd with phase := .waiting index } }
    | _ => none
  | .receive h => do
    let hd ← s.handlers[h]?
    match hd.phase, hd.inbox with
    | .waiting index, some r => some { s with
        handlers := s.handlers.set h
          { hd with phase := .leaving index (.result r), inbox := none } }
    | _, _ => none
  | .expire h => do
    let hd ← s.handlers[h]?
    match hd.phase with
    | .waiting index => some { s with
        handlers := s.handlers.set h { hd with phase := .leaving index .timeout } }
    | _ => none
  | .finish h => do
    let hd ← s.handlers[h]?
    match hd.phase with
    | .leaving index out => do
      let cluster ← s.cluster.step (.wait hd.server index none)
      some { s with
        cluster := cluster
        handlers := s.handlers.set h { hd with phase := .returned out } }
    | _ => none
  | .reply h => do
    let hd ← s.handlers[h]?
    match hd.phase with
    | .returned out =>
      let res := waitFor hd.op out
      if accepts hd.op.type res.err then do
        let clients ← s.clients.respond 0 hd.op.clientId hd.op.seq (returns hd.op.type res)
        some { s with clients := clients }
      else none
    | _ => none
  | .cluster act => s.stepCluster act

/-! ### What a step can do -/

inductive Does (s : KVRaft n) : KVRaftAction n → KVRaft n → Prop where
  | invoked (c : Nat) (q : Query) (clients : Clients Query (Option Str))
      (hst : s.clients.invoke 0 c q = some clients) :
      Does s (.invoke c q) { s with clients := clients }
  | entered (i : Fin n) (k t c seq : Nat) (q : Query)
      (hk : s.clients.history[k]? = some (t, .invoke (c, seq) q)) :
      Does s (.enter i k) { s with handlers := s.handlers ++
        [{ server := i, op := Op.request c seq q, phase := .entered, inbox := none }] }
  | started (h : Nat) (hd : Handler (Fin n) Op Result) (cluster : KVCluster n)
      (get : s.handlers[h]? = some hd) (phase : hd.phase = .entered)
      (hst : s.cluster.step (.raft (.start hd.server hd.op)) = some cluster) :
      Does s (.start h) { s with
        cluster := cluster
        handlers := s.handlers.set h { hd with
          phase := afterStart ((s.cluster.raft.servers hd.server).rf.start hd.op).2.1 } }
  | registered (h index : Nat) (hd : Handler (Fin n) Op Result) (cluster : KVCluster n)
      (get : s.handlers[h]? = some hd) (phase : hd.phase = .proposed index)
      (hst : s.cluster.step (.wait hd.server index (some h)) = some cluster) :
      Does s (.register h) { s with
        cluster := cluster
        handlers := s.handlers.set h { hd with phase := .waiting index } }
  | received (h index : Nat) (hd : Handler (Fin n) Op Result) (r : Result)
      (get : s.handlers[h]? = some hd) (phase : hd.phase = .waiting index)
      (inbox : hd.inbox = some r) :
      Does s (.receive h) { s with
        handlers := s.handlers.set h { hd with
          phase := .leaving index (.result r), inbox := none } }
  | expired (h index : Nat) (hd : Handler (Fin n) Op Result)
      (get : s.handlers[h]? = some hd) (phase : hd.phase = .waiting index) :
      Does s (.expire h) { s with
        handlers := s.handlers.set h { hd with phase := .leaving index .timeout } }
  | finished (h index : Nat) (out : Outcome Result) (hd : Handler (Fin n) Op Result)
      (cluster : KVCluster n) (get : s.handlers[h]? = some hd)
      (phase : hd.phase = .leaving index out)
      (hst : s.cluster.step (.wait hd.server index none) = some cluster) :
      Does s (.finish h) { s with
        cluster := cluster
        handlers := s.handlers.set h { hd with phase := .returned out } }
  | replied (h : Nat) (out : Outcome Result) (hd : Handler (Fin n) Op Result)
      (clients : Clients Query (Option Str)) (get : s.handlers[h]? = some hd)
      (phase : hd.phase = .returned out)
      (haccepts : accepts hd.op.type (waitFor hd.op out).err = true)
      (hst : s.clients.respond 0 hd.op.clientId hd.op.seq
        (returns hd.op.type (waitFor hd.op out)) = some clients) :
      Does s (.reply h) { s with clients := clients }
  | processed (i : Fin n) (oversized : Bool) (cluster : KVCluster n)
      (handlers : List (Handler (Fin n) Op Result))
      (hst : s.cluster.step (.process i oversized) = some cluster)
      (hsend : Service.send s.handlers (s.cluster.replicas i).notice = some handlers) :
      Does s (.cluster (.process i oversized))
        { s with cluster := cluster, handlers := handlers }
  | crashed (act : Action n Op (Option Store)) (i : Fin n) (cluster : KVCluster n)
      (hst : s.cluster.step (.raft act) = some cluster)
      (hcrash : s.cluster.raft.crashed? act = some i) :
      Does s (.cluster (.raft act))
        { s with cluster := cluster, handlers := s.handlers.map (Service.stop i) }
  | ran (act : Action n Op (Option Store)) (cluster : KVCluster n)
      (hnot : ∀ i op, act ≠ .start i op) (hst : s.cluster.step (.raft act) = some cluster)
      (hcrash : s.cluster.raft.crashed? act = none) :
      Does s (.cluster (.raft act)) { s with cluster := cluster }
  | restored (i : Fin n) (cluster : KVCluster n)
      (hst : s.cluster.step (.restore i) = some cluster) :
      Does s (.cluster (.restore i)) { s with cluster := cluster }
  | compacted (i : Fin n) (cluster : KVCluster n)
      (hst : s.cluster.step (.compact i) = some cluster) :
      Does s (.cluster (.compact i)) { s with cluster := cluster }

theorem does_of_stepCluster {s s' : KVRaft n} {act : KVAction n}
    (hst : s.stepCluster act = some s') : Does s (.cluster act) s' := by
  unfold stepCluster at hst
  split at hst
  · cases hst
  · cases hst
  · simp only [Option.bind_eq_bind, Option.bind_eq_some_iff, Option.some.injEq] at hst
    obtain ⟨cluster, hcluster, handlers, hsend, rfl⟩ := hst
    exact .processed _ _ cluster handlers hcluster hsend
  · rename_i act hnot
    simp only [Option.bind_eq_bind, Option.bind_eq_some_iff] at hst
    obtain ⟨cluster, hcluster, hst⟩ := hst
    split at hst
    · rename_i i hcrash
      obtain rfl := Option.some.inj hst
      exact .crashed act i cluster hcluster hcrash
    · rename_i hcrash
      obtain rfl := Option.some.inj hst
      exact .ran act cluster hnot hcluster hcrash
  · simp only [Option.bind_eq_bind, Option.bind_eq_some_iff, Option.some.injEq] at hst
    obtain ⟨cluster, hcluster, rfl⟩ := hst
    exact .restored _ cluster hcluster
  · simp only [Option.bind_eq_bind, Option.bind_eq_some_iff, Option.some.injEq] at hst
    obtain ⟨cluster, hcluster, rfl⟩ := hst
    exact .compacted _ cluster hcluster

theorem does_of_step {s s' : KVRaft n} {act : KVRaftAction n} (hst : s.step act = some s') :
    Does s act s' := by
  cases act with
  | invoke c q =>
    simp only [step, Option.bind_eq_bind, Option.bind_eq_some_iff, Option.some.injEq] at hst
    obtain ⟨clients, hclients, rfl⟩ := hst
    exact .invoked c q clients hclients
  | enter i k =>
    simp only [step] at hst
    split at hst
    · rename_i t c seq q hk
      obtain rfl := Option.some.inj hst
      exact .entered i k t c seq q hk
    · cases hst
  | start h =>
    simp only [step, Option.bind_eq_bind, Option.bind_eq_some_iff] at hst
    obtain ⟨hd, hget, hst⟩ := hst
    split at hst
    · rename_i hphase
      simp only [Option.bind_eq_some_iff, Option.some.injEq] at hst
      obtain ⟨cluster, hcluster, rfl⟩ := hst
      exact .started h hd cluster hget hphase hcluster
    · cases hst
  | register h =>
    simp only [step, Option.bind_eq_bind, Option.bind_eq_some_iff] at hst
    obtain ⟨hd, hget, hst⟩ := hst
    split at hst
    · rename_i index hphase
      simp only [Option.bind_eq_some_iff, Option.some.injEq] at hst
      obtain ⟨cluster, hcluster, rfl⟩ := hst
      exact .registered h index hd cluster hget hphase hcluster
    · cases hst
  | receive h =>
    simp only [step, Option.bind_eq_bind, Option.bind_eq_some_iff] at hst
    obtain ⟨hd, hget, hst⟩ := hst
    split at hst
    · rename_i index r hphase hinbox
      obtain rfl := Option.some.inj hst
      exact .received h index hd r hget hphase hinbox
    · cases hst
  | expire h =>
    simp only [step, Option.bind_eq_bind, Option.bind_eq_some_iff] at hst
    obtain ⟨hd, hget, hst⟩ := hst
    split at hst
    · rename_i index hphase
      obtain rfl := Option.some.inj hst
      exact .expired h index hd hget hphase
    · cases hst
  | finish h =>
    simp only [step, Option.bind_eq_bind, Option.bind_eq_some_iff] at hst
    obtain ⟨hd, hget, hst⟩ := hst
    split at hst
    · rename_i index out hphase
      simp only [Option.bind_eq_some_iff, Option.some.injEq] at hst
      obtain ⟨cluster, hcluster, rfl⟩ := hst
      exact .finished h index out hd cluster hget hphase hcluster
    · cases hst
  | reply h =>
    simp only [step, Option.bind_eq_bind, Option.bind_eq_some_iff] at hst
    obtain ⟨hd, hget, hst⟩ := hst
    split at hst
    · rename_i out hphase
      simp only [Option.ite_none_right_eq_some, Option.bind_eq_some_iff, Option.some.injEq] at hst
      obtain ⟨haccepts, clients, hclients, rfl⟩ := hst
      exact .replied h out hd clients hget hphase haccepts hclients
    · cases hst
  | cluster act => exact does_of_stepCluster hst

end KVRaft

/-- The servers of `kvraft`, all of them just started, and their clerks. -/
def kvRaft (n : Nat) : System (KVRaft n) (KVRaftAction n) where
  init := { cluster := (kvCluster n).init, handlers := [], clients := Clients.start }
  step := KVRaft.step

/-- No command overtakes a snapshot on its way to a server, and Raft accepts no snapshot from
    a leader for a server that is still being started. -/
def InOrder (s : KVRaft n) : KVRaftAction n → Prop
  | .cluster act => InTurn s.cluster act
  | _ => True

instance (s : KVRaft n) : (act : KVRaftAction n) → Decidable (InOrder s act)
  | .cluster act => inferInstanceAs (Decidable (InTurn s.cluster act))
  | .invoke _ _ => .isTrue trivial
  | .enter _ _ => .isTrue trivial
  | .start _ => .isTrue trivial
  | .register _ => .isTrue trivial
  | .receive _ => .isTrue trivial
  | .expire _ => .isTrue trivial
  | .finish _ => .isTrue trivial
  | .reply _ => .isTrue trivial

end RaftLabs.KV
