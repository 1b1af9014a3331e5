import RaftLabs.KVServer
import RaftLabs.ClientSessions
import RaftLabs.TransitionSystem

/-!
# Clerks and key/value servers

`kvraft` as its clients see it: any number of `Clerk`s, each with one call
outstanding, and servers that run `waitFor` on top of the contract of Raft.

A clerk sends the request of its call to one server after the other until it is
answered.  Which server it tries, and which calls are lost or executed late, is
left open: a request that was made once may begin to run at any server, at any
later time and any number of times.  A reply is that of a handler that returned;
the clerk takes it or never sees it.
-/

namespace RaftLabs.KV

open Linearizability ReplicatedService

/-! ### Requests and replies -/

namespace Op

/-- The command that `Get`, `Put` and `Append` make of the arguments of a call. -/
def request (clientId seq : Nat) : Query → Op
  | .get key => { type := .get, key := key, value := [], clientId := clientId, seq := seq }
  | .put key value =>
    { type := .put, key := key, value := value, clientId := clientId, seq := seq }
  | .append key value =>
    { type := .append, key := key, value := value, clientId := clientId, seq := seq }

/-- The call that a command stands for. -/
def query (op : Op) : Query :=
  match op.type with
  | .get => .get op.key
  | .put => .put op.key op.value
  | .append => .append op.key op.value

/-- The identity of a command: whose call it is and its number. -/
def id (op : Op) : Nat × Nat := (op.clientId, op.seq)

@[simp] theorem query_request (c seq : Nat) (q : Query) : (request c seq q).query = q := by
  cases q <;> rfl

@[simp] theorem id_request (c seq : Nat) (q : Query) : (request c seq q).id = (c, seq) := by
  cases q <;> rfl

theorem key_query (op : Op) : op.query.key = op.key := by
  unfold query
  cases op.type <;> rfl

theorem isGet_query (op : Op) : op.query.isGet = decide (op.type = .get) := by
  unfold query
  cases op.type <;> rfl

end Op

/-- The command is the request of a call that was made. -/
def Requested (cl : Clients Query (Option Str)) (op : Op) : Prop :=
  cl.Asked op.id op.query ∧ op = Op.request op.clientId op.seq op.query

theorem Requested.of_mem {cl : Clients Query (Option Str)} {t c seq : Nat} {q : Query}
    (h : (t, .invoke (c, seq) q) ∈ cl.history) : Requested cl (Op.request c seq q) := by
  constructor
  · rw [Op.id_request, Op.query_request]
    exact ⟨t, h⟩
  · rw [Op.query_request]
    cases q <;> rfl

/-- The identity of a call decides its request. -/
theorem Requested.eq_of_id {cl : Clients Query (Option Str)}
    {effects : List (Effect (Nat × Nat) Query (Option Str))} {op op' : Op}
    (hop : Requested cl op) (h : Explained cl effects) (hop' : Requested cl op')
    (hid : op.id = op'.id) : op = op' := by
  obtain ⟨hasked, heq⟩ := hop
  obtain ⟨hasked', heq'⟩ := hop'
  have hquery := h.same_query _ _ _ hasked (hid ▸ hasked')
  obtain ⟨hclient, hseq⟩ := Prod.mk.inj hid
  rw [heq, heq', hquery, hclient, hseq]

/-- What `waitFor` returns. -/
def waitFor (op : Op) : Outcome Result → Result
  | .notLeader => { err := .wrongLeader, value := [], clientId := 0, seq := 0 }
  | .timeout => { err := .timeout, value := [], clientId := 0, seq := 0 }
  | .result res =>
    -- another command may have come to stand at the index
    if res.clientId ≠ op.clientId ∨ res.seq ≠ op.seq then
      { err := .wrongLeader, value := [], clientId := 0, seq := 0 }
    else res

/-- The replies with which `Clerk.Get` and `Clerk.PutAppend` return. -/
def accepts (type : OpType) (err : Err) : Bool :=
  match type with
  | .get => err = .ok ∨ err = .noKey
  | .put => err = .ok
  | .append => err = .ok

/-- What the call returns: `Put` and `Append` return nothing. -/
def returns (type : OpType) (res : Result) : Option Str :=
  match type with
  | .get => some res.value
  | .put => none
  | .append => none

/-! ### The system -/

structure KVService (ν : Type) where
  service : Service ν Store Op Result
  clients : Clients Query (Option Str)

inductive ServiceAction (ν : Type) where
  /-- Clerk `c` begins a call. -/
  | invoke (c : Nat) (q : Query)
  /-- Server `i` begins to run the request of event number `k` of the history. -/
  | enter (i : ν) (k : Nat)
  /-- Raft commits command number `k` of those it accepted. -/
  | commit (k : Nat)
  | move (m : Move ν)
  /-- The clerk takes the reply of handler `h`. -/
  | reply (h : Nat)

/-! ### The effects of a log -/

/-- The map that a store stands for. -/
def Store.view (st : Store) : Str → Str := fun key => (st.data key).getD []

/-- The call that a command carries out, and its answer. -/
def Store.effect (st : Store) (op : Op) : Effect (Nat × Nat) Query (Option Str) where
  id := op.id
  query := op.query
  answer := MapSpec.answer st.view op.query

/-- What a command does when it is applied: nothing if it is a duplicate. -/
def Store.effects (st : Store) (op : Op) : List (Effect (Nat × Nat) Query (Option Str)) :=
  match st.duplicate op with
  | some _ => []
  | none => [st.effect op]

/-- The effects of the commands of a log, in order. -/
def effects (log : List Op) : List (Effect (Nat × Nat) Query (Option Str)) :=
  machine.collect Store.effects log

namespace KVService

variable {ν : Type} [DecidableEq ν]

def step (s : KVService ν) : ServiceAction ν → Option (KVService ν)
  | .invoke c q => do
    let clients ← s.clients.invoke (effects s.service.log).length c q
    some { s with clients := clients }
  | .enter i k =>
    match s.clients.history[k]? with
    | some (_, .invoke (c, seq) q) =>
      some { s with service := s.service.enter i (Op.request c seq q) }
    | _ => none
  | .commit k => do
    let service ← s.service.commit k
    some { s with service := service }
  | .move m => do
    let service ← s.service.move machine m
    some { s with service := service }
  | .reply h => do
    let hd ← s.service.handlers[h]?
    match hd.phase with
    | .returned out =>
      let res := waitFor hd.op out
      if accepts hd.op.type res.err then do
        let clients ← s.clients.respond (effects s.service.log).length hd.op.clientId hd.op.seq
          (returns hd.op.type res)
        some { s with clients := clients }
      else none
    | _ => none

end KVService

/-- The servers of `kvraft` and their clerks, before the first call. -/
def kvService (ν : Type) [DecidableEq ν] : System (KVService ν) (ServiceAction ν) where
  init := { service := Service.start machine, clients := Clients.start }
  step := KVService.step

end RaftLabs.KV
