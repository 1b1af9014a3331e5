import RaftLabs.MapSpec
import RaftLabs.ReplicatedService

/-!
# The key/value server

The state of `KVServer` in `kvraft/server.go` and the sections of it that run
under `kv.mu`.  `data` and `dedup` stand together because they are what a
snapshot holds: the bytes that `maybeSnapshot` encodes are a value of
`Option Store`, with `none` for the empty byte slice, and decoding inverts
encoding.  What the server does with its channels and with `lastApplied` it has in
common with the other services.
-/

namespace RaftLabs.KV

open ReplicatedService

/-- `Op`: the command replicated through Raft. -/
structure Op where
  type : OpType
  key : Str
  value : Str
  clientId : Nat
  seq : Nat
deriving DecidableEq, Repr, Inhabited

inductive Err where
  | ok
  | noKey
  | wrongLeader
  | timeout
deriving DecidableEq, Repr

/-- `result`: what an applied command yields, and which command it was. -/
structure Result where
  err : Err
  value : Str
  clientId : Nat
  seq : Nat
deriving DecidableEq, Repr

/-- `lastReply`: the outcome of the latest mutation of a client. -/
structure LastReply where
  seq : Nat
  value : Str
  err : Err
deriving DecidableEq, Repr

/-- The replicated state: the map and the table of latest mutations. -/
structure Store where
  data : Str → Option Str
  dedup : Nat → Option LastReply

namespace Store

def empty : Store where
  data _ := none
  dedup _ := none

/-- The `switch` of `applyCommand`, for a command that is not a duplicate. -/
def execute (st : Store) (op : Op) : Store × Result :=
  let remember (res : Result) : Nat → Option LastReply :=
    Function.update st.dedup op.clientId
      (some { seq := op.seq, value := res.value, err := res.err })
  match op.type with
  | .get =>
    match st.data op.key with
    | some v => (st, { err := .ok, value := v, clientId := op.clientId, seq := op.seq })
    | none => (st, { err := .noKey, value := [], clientId := op.clientId, seq := op.seq })
  | .put =>
    let res : Result := { err := .ok, value := [], clientId := op.clientId, seq := op.seq }
    ({ data := Function.update st.data op.key (some op.value), dedup := remember res }, res)
  | .append =>
    let res : Result := { err := .ok, value := [], clientId := op.clientId, seq := op.seq }
    ({ data := Function.update st.data op.key (some ((st.data op.key).getD [] ++ op.value)),
       dedup := remember res }, res)

/-- A mutation of this client with this or a later number has been applied. -/
def duplicate (st : Store) (op : Op) : Option LastReply :=
  (st.dedup op.clientId).filter fun last => decide (op.seq ≤ last.seq ∧ op.type ≠ .get)

/-- What `applyCommand` does to the replicated state, and the result it stamps
    with the identity of the command. -/
def applyOp (st : Store) (op : Op) : Store × Result :=
  match st.duplicate op with
  | some last =>
    (st, { err := last.err, value := last.value, clientId := op.clientId, seq := op.seq })
  | none => st.execute op

/-- The state after a sequence of commands. -/
def applyAll (ops : List Op) : Store := ops.foldl (fun st op => (st.applyOp op).1) empty

end Store

/-- The state machine that `applyCommand` runs. -/
def machine : Machine Store Op Result where
  init := Store.empty
  apply := Store.applyOp

/-- `KVServer`: the replicated state, the channel of the request waiting at a log
    index, and the highest index applied. -/
abbrev KVServer := Server Store

namespace KVServer

/-- The server that `StartKVServer` allocates. -/
def new : KVServer := Server.new machine

def readSnapshot (kv : KVServer) (data : Option Store) : KVServer := Server.readSnapshot kv data

/-- `applyCommand` up to `maybeSnapshot`, with what it sends to a waiting
    request. -/
def applyCommand (kv : KVServer) (op : Op) (commandIndex : Nat) :
    KVServer × Option (Nat × Result) :=
  Server.applyCommand machine kv op commandIndex

def applySnapshot (kv : KVServer) (data : Option Store) (snapshotIndex : Nat) : KVServer :=
  Server.applySnapshot kv data snapshotIndex

/-- The bytes that `maybeSnapshot` passes to Raft. -/
def encode (kv : KVServer) : Option Store := some kv.state

end KVServer

end RaftLabs.KV
