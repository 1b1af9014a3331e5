import RaftLabs.MapSpec
import RaftLabs.ClientSessions
import RaftLabs.ReplicatedService
import RaftLabs.TransitionSystem

/-!
# The single key/value server

`kvsrv`: one server that never fails, clerks with one call outstanding each, and
a network that loses requests and replies.  A mutation carries the clerk's id
and a number; the server keeps, for each clerk, the number of the latest
mutation and what it answered.  A `Get` carries neither.

A request that was sent once may be executed at any later time, any number of
times or never, and a reply may be taken by the clerk while the call it belongs
to is outstanding.  `Append` returns the value from before its effect, so the
cached reply matters: it must be the right one for the only copy of a request
whose clerk still listens.
-/

namespace RaftLabs.KVSrv

open Linearizability ReplicatedService

/-! ### The server -/

/-- `lastOp`: the latest mutation of a client and, for an `Append`, its answer. -/
structure LastOp where
  seq : Nat
  reply : Str

structure GetArgs where
  key : Str

structure PutAppendArgs where
  key : Str
  value : Str
  clientId : Nat
  seq : Nat

/-- `KVServer`.  A key that is absent from the Go map reads as the empty string,
    and nothing asks whether it is there. -/
structure KVServer where
  data : Str → Str
  dedup : Nat → Option LastOp

namespace KVServer

def get (kv : KVServer) (args : GetArgs) : Str := kv.data args.key

/-- The entry that makes a request a duplicate. -/
def duplicate (kv : KVServer) (args : PutAppendArgs) : Option LastOp :=
  (kv.dedup args.clientId).filter fun last => args.seq ≤ last.seq

def put (kv : KVServer) (args : PutAppendArgs) : KVServer × Str :=
  match kv.duplicate args with
  | some _ => (kv, [])
  | none =>
    ({ data := Function.update kv.data args.key args.value
       dedup := Function.update kv.dedup args.clientId
        (some { seq := args.seq, reply := [] }) }, [])

def append (kv : KVServer) (args : PutAppendArgs) : KVServer × Str :=
  match kv.duplicate args with
  | some last => (kv, last.reply)
  | none =>
    let old := kv.data args.key
    ({ data := Function.update kv.data args.key (old ++ args.value)
       dedup := Function.update kv.dedup args.clientId
        (some { seq := args.seq, reply := old }) }, old)

/-- `StartKVServer`. -/
def start : KVServer where
  data _ := []
  dedup _ := none

end KVServer

/-! ### Requests and replies -/

/-- What a clerk sends for one call: `call` says whose call it is and the how
    many-th, `seq` is the number that a mutation carries. -/
structure Request where
  call : Nat × Nat
  seq : Nat
  query : Query

/-- The arguments of `Put` and `Append`. -/
def Request.args (r : Request) (key value : Str) : PutAppendArgs where
  key := key
  value := value
  clientId := r.call.1
  seq := r.seq

/-- The handler of a request, with the value it replies. -/
def KVServer.handle (kv : KVServer) (r : Request) : KVServer × Str :=
  match r.query with
  | .get key => (kv, kv.get { key := key })
  | .put key value => kv.put (r.args key value)
  | .append key value => kv.append (r.args key value)

/-- What the call returns when it gets a reply; `Put` drops the value. -/
def returns (q : Query) (value : Str) : Option Str :=
  match q with
  | .get _ => some value
  | .put _ _ => none
  | .append _ _ => some value

/-- The map in which `Append` answers what the key held before. -/
def fetchAppend : Object (Str → Str) Query (Option Str) where
  init := fun _ => []
  next := MapSpec.next
  answer m q := returns q (m q.key)

/-! ### The effects of the requests that were executed -/

def machine : Machine KVServer Request Str where
  init := KVServer.start
  apply := KVServer.handle

/-- The entry that makes a request a duplicate; a `Get` is none. -/
def KVServer.duplicateOf (kv : KVServer) (r : Request) : Option LastOp :=
  match r.query with
  | .get _ => none
  | .put key value => kv.duplicate (r.args key value)
  | .append key value => kv.duplicate (r.args key value)

def KVServer.effect (kv : KVServer) (r : Request) : Effect (Nat × Nat) Query (Option Str) where
  id := r.call
  query := r.query
  answer := fetchAppend.answer kv.data r.query

/-- What a request does when it is executed: nothing if it is a duplicate. -/
def KVServer.effects (kv : KVServer) (r : Request) :
    List (Effect (Nat × Nat) Query (Option Str)) :=
  match kv.duplicateOf r with
  | some _ => []
  | none => [kv.effect r]

/-- The effects of the executed requests, in order. -/
def effects (executed : List Request) : List (Effect (Nat × Nat) Query (Option Str)) :=
  machine.collect KVServer.effects executed

/-! ### The system -/

/-- The server, the clerks (`seqs` is their field `seq`) and the network;
    `executed` records the requests in the order in which the server handled
    them. -/
structure SrvSystem where
  server : KVServer
  executed : List Request
  requests : List Request
  replies : List ((Nat × Nat) × Str)
  seqs : Nat → Nat
  clients : Clients Query (Option Str)

inductive Action where
  /-- Clerk `c` begins a call and sends its request. -/
  | invoke (c : Nat) (q : Query)
  /-- The server executes request number `k` and sends the reply. -/
  | execute (k : Nat)
  /-- The clerk takes reply number `k`. -/
  | reply (k : Nat)

def SrvSystem.step (s : SrvSystem) : Action → Option SrvSystem
  | .invoke c q => do
    let clients ← s.clients.invoke (effects s.executed).length c q
    let seq := if q.isGet then s.seqs c else s.seqs c + 1
    some { s with
      clients := clients
      seqs := Function.update s.seqs c seq
      requests := s.requests ++
        [{ call := (c, (clients.sessions c).seq), seq := seq, query := q }] }
  | .execute k => do
    let r ← s.requests[k]?
    let (server, value) := s.server.handle r
    some { s with
      server := server
      executed := s.executed ++ [r]
      replies := s.replies ++ [(r.call, value)] }
  | .reply k => do
    let (call, value) ← s.replies[k]?
    let q ← (s.clients.sessions call.1).call
    let clients ← s.clients.respond (effects s.executed).length call.1 call.2 (returns q value)
    some { s with clients := clients }

/-- The server and its clerks before the first call. -/
def kvsrv : System SrvSystem Action where
  init :=
    { server := .start, executed := [], requests := [], replies := [], seqs := fun _ => 0
      clients := .start }
  step := SrvSystem.step

end RaftLabs.KVSrv
