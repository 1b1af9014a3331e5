import RaftLabs.RaftServer
import RaftLabs.TransitionSystem
import Mathlib.Algebra.Ring.Nat

/-!
# A cluster of Raft servers

The servers of one cluster, the remote calls between them and the sends on
`applyCh`.  A locked section of a handler is one step; a send on `applyCh`
happens after the lock is released and is a step of its own.

The two halves of a call are packets.  A packet that was posted once may be
delivered at any later time, any number of times or never: calls are lost,
delayed, reordered and answered late.  A calling goroutine takes one reply; for
votes, where a second reply would be counted again, `asking` holds the peers
whose goroutine has not returned yet.

`base`, `sent` and `emitted` record what was put on the channels and are read by
nothing but the precondition of `Snapshot`: the service calls it for an index
that was delivered to it.
-/

namespace RaftLabs

variable {n : Nat} {C D : Type}

/-- The servers of a cluster of three are written as numerals. -/
instance neZeroThree : NeZero 3 := ⟨by decide⟩

/-- An `InstallSnapshot` handler that is blocked sending `msg`; the call it will
    then answer. -/
structure SnapshotSend (n : Nat) (C D : Type) where
  msg : ApplyMsg C D
  caller : Fin n
  args : InstallSnapshotArgs n C D
  reply : InstallSnapshotReply

/-- A running server: its `Raft`, the vote counter and the unfinished vote
    requests of its latest election, what its applier and its `InstallSnapshot`
    handlers are about to send, and what it has sent since `Make`. -/
structure Server (n : Nat) (C D : Type) where
  rf : Raft n C D
  votes : Nat
  asking : Finset (Fin n)
  applierSend : Option (ApplyMsg C D)
  snapshotSends : List (SnapshotSend n C D)
  base : Nat
  sent : List (ApplyMsg C D)

/-- The request or the reply of one remote call. -/
inductive Packet (n : Nat) (C D : Type) where
  | voteRequest (caller callee : Fin n) (args : RequestVoteArgs n)
  | voteReply (caller callee : Fin n) (args : RequestVoteArgs n) (reply : RequestVoteReply)
  | appendRequest (caller callee : Fin n) (args : AppendEntriesArgs n C)
  | appendReply (caller callee : Fin n) (args : AppendEntriesArgs n C)
      (reply : AppendEntriesReply)
  | snapshotRequest (caller callee : Fin n) (args : InstallSnapshotArgs n C D)
  | snapshotReply (caller callee : Fin n) (args : InstallSnapshotArgs n C D)
      (reply : InstallSnapshotReply)

/-- The server a request runs on and the term it carries. -/
def Packet.request? : Packet n C D → Option (Fin n × Nat)
  | .voteRequest _ callee args => some (callee, args.term)
  | .appendRequest _ callee args => some (callee, args.term)
  | .snapshotRequest _ callee args => some (callee, args.term)
  | _ => none

structure Cluster (n : Nat) (C D : Type) where
  servers : Fin n → Server n C D
  packets : List (Packet n C D)
  emitted : List (Fin n × ApplyMsg C D)

inductive Action (n : Nat) (C D : Type) where
  /-- The ticker of `i` finds the election timeout expired. -/
  | electionTimeout (i : Fin n)
  /-- The service of `i` calls `Start`. -/
  | start (i : Fin n) (command : C)
  /-- A `replicateTo` goroutine of `i` takes the lock. -/
  | replicate (i server : Fin n)
  /-- Packet number `k` arrives. -/
  | deliver (k : Nat)
  /-- The applier of `i` takes the lock. -/
  | apply (i : Fin n)
  /-- The applier of `i` completes its send. -/
  | sendCommand (i : Fin n)
  /-- The `k`-th waiting `InstallSnapshot` handler of `i` completes its send. -/
  | sendSnapshot (i : Fin n) (k : Nat)
  /-- The service of `i` calls `Snapshot`. -/
  | snapshot (i : Fin n) (index : Nat) (data : D)
  /-- `i` crashes and is started again through `Make`. -/
  | restart (i : Fin n)
  /-- The receiver of request `k` crashes inside the handler, after
      `becomeFollower` has saved the new term, and is started again. -/
  | crashInHandler (k : Nat)

namespace Cluster

def setServer (c : Cluster n C D) (i : Fin n) (sv : Server n C D) : Cluster n C D :=
  { c with servers := Function.update c.servers i sv }

def post (c : Cluster n C D) (ps : List (Packet n C D)) : Cluster n C D :=
  { c with packets := c.packets ++ ps }

def emit (c : Cluster n C D) (i : Fin n) (msg : ApplyMsg C D) : Cluster n C D :=
  { c with emitted := c.emitted ++ [(i, msg)] }

end Cluster

variable [Inhabited C]

/-- A server as `Make` leaves it. -/
def Server.boot (i : Fin n) (persister : Persister n C D) : Server n C D :=
  let rf := Raft.make i persister
  { rf := rf, votes := 0, asking := ∅, applierSend := none, snapshotSends := [],
    base := rf.lastIncludedIndex, sent := [] }

namespace Cluster

/-- The receiver of a packet handles it. -/
def deliver (c : Cluster n C D) : Packet n C D → Option (Cluster n C D)
  | .voteRequest caller callee args => do
    let sv := c.servers callee
    let (rf, reply) ← sv.rf.requestVote args
    some ((c.setServer callee { sv with rf := rf }).post [.voteReply caller callee args reply])
  | .voteReply caller callee args reply =>
    let sv := c.servers caller
    if sv.rf.currentTerm ≠ args.term ∨ sv.rf.role ≠ .candidate then some c
    else if callee ∈ sv.asking then
      let (rf, votes) := sv.rf.handleVoteReply args.term sv.votes reply
      some (c.setServer caller
        { sv with rf := rf, votes := votes, asking := sv.asking.erase callee })
    else none
  | .appendRequest caller callee args => do
    let sv := c.servers callee
    let (rf, reply) ← sv.rf.appendEntries args
    some ((c.setServer callee { sv with rf := rf }).post
      [.appendReply caller callee args reply])
  | .appendReply caller callee args reply => do
    let sv := c.servers caller
    let rf ← sv.rf.handleAppendReply callee args reply
    some (c.setServer caller { sv with rf := rf })
  | .snapshotRequest caller callee args => do
    let sv := c.servers callee
    let (rf, reply, msg) ← sv.rf.installSnapshot args
    match msg with
    | none =>
      some ((c.setServer callee { sv with rf := rf }).post
        [.snapshotReply caller callee args reply])
    | some msg =>
      let waiting : SnapshotSend n C D :=
        { msg := msg, caller := caller, args := args, reply := reply }
      some (c.setServer callee
        { sv with rf := rf, snapshotSends := sv.snapshotSends ++ [waiting] })
  | .snapshotReply caller callee args reply =>
    let sv := c.servers caller
    some (c.setServer caller { sv with rf := sv.rf.handleSnapshotReply callee args reply })

/-- What an action does. -/
def step (c : Cluster n C D) : Action n C D → Option (Cluster n C D)
  | .electionTimeout i =>
    let sv := c.servers i
    if sv.rf.role = .leader then none
    else do
      let (rf, args) ← sv.rf.startElection
      let peers := (List.finRange n).filter (· ≠ i)
      some ((c.setServer i { sv with rf := rf, votes := 1, asking := Finset.univ.erase i }).post
        (peers.map fun peer => .voteRequest i peer args))
  | .start i command =>
    let sv := c.servers i
    some (c.setServer i { sv with rf := (sv.rf.start command).1 })
  | .replicate i server =>
    if server = i then none
    else do
      let rf := (c.servers i).rf
      match ← rf.replicateTo server rf.currentTerm with
      | none => some c
      | some (.appendEntries args) => some (c.post [.appendRequest i server args])
      | some (.installSnapshot args) => some (c.post [.snapshotRequest i server args])
  | .deliver k => c.packets[k]?.bind c.deliver
  | .apply i =>
    let sv := c.servers i
    if sv.applierSend.isSome then none
    else do
      let (rf, msg) ← sv.rf.applier
      some (c.setServer i { sv with rf := rf, applierSend := msg })
  | .sendCommand i => do
    let sv := c.servers i
    let msg ← sv.applierSend
    some ((c.setServer i { sv with applierSend := none, sent := sv.sent ++ [msg] }).emit i msg)
  | .sendSnapshot i k => do
    let sv := c.servers i
    let waiting ← sv.snapshotSends[k]?
    some (((c.setServer i
      { sv with
        snapshotSends := sv.snapshotSends.eraseIdx k
        sent := sv.sent ++ [waiting.msg] }).emit i waiting.msg).post
      [.snapshotReply waiting.caller i waiting.args waiting.reply])
  | .snapshot i index data => do
    let sv := c.servers i
    if index ∈ sv.sent.map ApplyMsg.index then
      let rf ← sv.rf.snapshot index data
      some (c.setServer i { sv with rf := rf })
    else none
  | .restart i => some (c.setServer i (Server.boot i (c.servers i).rf.persister))
  | .crashInHandler k => do
    let (i, term) ← c.packets[k]?.bind Packet.request?
    let rf := (c.servers i).rf
    if rf.currentTerm < term then
      some (c.setServer i (Server.boot i (rf.becomeFollower term).persister))
    else none

end Cluster

/-- The transition system of a cluster of `n` servers, every one of them started
    with an empty persister. -/
def cluster (n : Nat) (C D : Type) [Inhabited C] [Inhabited D] :
    System (Cluster n C D) (Action n C D) where
  init :=
    { servers := fun i =>
        Server.boot i { raftstate := none, snapshot := { data := default, covers := [] } }
      packets := []
      emitted := [] }
  step := Cluster.step

end RaftLabs
