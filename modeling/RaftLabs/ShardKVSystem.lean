import RaftLabs.ShardKVServer

/-!
# Groups, clerks and the controller

The sharded store as a whole: any number of groups, each with replicas on top of
one agreed log, the background loops of the replicas, the requests that groups
send to each other, and the clerks.

A replica acts on its own state, which is that of the entries it has applied, and
may take itself for the leader at any time.  What it sent once may arrive at any
later time, any number of times or never.  `effects` records what client commands
did, in the order in which they were committed, and is read by nothing but the
stamps on the history of the clerks.
-/

namespace RaftLabs.ShardKV

open Linearizability ReplicatedService

variable {ν : Type}

/-- The replicas of a group of three are written 0, 1 and 2. -/
instance neZeroThree : NeZero 3 := ⟨by decide⟩

/-! ### Replies to clerks and to groups -/

/-- What `submit` returns.  Only client commands are checked for their identity. -/
def submit (op : Op) : Outcome Result → Result
  | .notLeader => { err := .wrongLeader, value := [], clientId := 0, seq := 0 }
  | .timeout => { err := .timeout, value := [], clientId := 0, seq := 0 }
  | .result res =>
    match op with
    | .client op =>
      if res.clientId ≠ op.clientId ∨ res.seq ≠ op.seq then
        { err := .wrongLeader, value := [], clientId := 0, seq := 0 }
      else res
    | _ => res

/-- The replies with which `Clerk.Get` and `Clerk.PutAppend` return. -/
def accepts (type : OpType) (err : Err) : Bool :=
  match type with
  | .get => err = .ok ∨ err = .noKey
  | .put => err = .ok
  | .append => err = .ok

/-- What the call returns: `Put` and `Append` return nothing. -/
def returns (type : OpType) (res : Result) : Option Str :=
  match type with
  | .get => some res.value
  | .put => none
  | .append => none

/-! ### Effects -/

namespace ShardStore

/-- The call that a client command carries out, and its answer. -/
def effect (st : ShardStore) (op : ClientOp) : Effect (Nat × Nat) Query (Option Str) where
  id := op.id
  query := op.query
  answer := (st.shards (key2shard op.key)).bind fun sh =>
    MapSpec.answer (fun key => (sh.data key).getD []) op.query

/-- What a command does for clients when it is applied. -/
def effects (gid : Nat) (st : ShardStore) : Op → List (Effect (Nat × Nat) Query (Option Str))
  | .client op =>
    if st.canServe gid (key2shard op.key) ∧ (op.type = .get ∨ st.duplicate op = false) then
      [st.effect op]
    else []
  | _ => []

end ShardStore

/-! ### The system -/

/-- What is on its way between groups, and to the controller. -/
inductive Packet where
  /-- `configPoller` of group `gid` has asked for configuration `num`. -/
  | query (gid num : Nat)
  /-- To the server of group `callee` that is reached under `name`. -/
  | pullRequest (caller callee : Nat) (name : Str) (args : MigrateArgs)
  | pullReply (caller : Nat) (args : MigrateArgs) (reply : PullShardReply)
  | deleteRequest (caller callee : Nat) (name : Str) (args : MigrateArgs)
  /-- `DeleteShard` was answered with `OK`. -/
  | deleteReply (caller : Nat) (args : MigrateArgs)

structure ShardSystem (ν : Type) where
  groups : Nat → Service ν ShardStore Op Result
  packets : List Packet
  clients : Clients Query (Option Str)
  effects : List (Effect (Nat × Nat) Query (Option Str))

/-- What happens in one group. -/
inductive GroupAction (ν : Type) where
  /-- Replica `i` begins to run the request of event number `k` of the history. -/
  | serve (i : ν) (k : Nat)
  /-- Raft commits command number `k` of those it accepted. -/
  | commit (k : Nat)
  | move (m : Move ν)
  /-- `configPoller` of replica `i` asks for the next configuration. -/
  | poll (i : ν)
  /-- The controller has answered query `k`, and the configuration is accepted. -/
  | adopt (k index : Nat)
  /-- `shardPuller` of replica `i` asks the server `name` of `callee` for `shards`. -/
  | pull (i : ν) (callee : Nat) (name : Str) (shards : List (Fin NShards))
  /-- Replica `i` answers request `k`. -/
  | answerPull (i : ν) (k : Nat)
  /-- `shardPuller` has reply `k`, and its command is accepted. -/
  | install (k index : Nat)
  /-- `shardGC` of replica `i` tells the server `name` of `callee` to delete `shards`. -/
  | collect (i : ν) (callee : Nat) (name : Str) (shards : List (Fin NShards))
  /-- Replica `i` begins to run request `k`. -/
  | serveDelete (i : ν) (k : Nat)
  /-- Handler `h` has returned and answers request `k`. -/
  | answerDelete (h k : Nat)
  /-- `shardGC` has reply `k`, and its command is accepted. -/
  | confirm (k index : Nat)
  /-- The command of `emptyLogChecker` is accepted. -/
  | noop (index : Nat)
  /-- The clerk takes the reply of handler `h`. -/
  | reply (h : Nat)

inductive ShardAction (ν : Type) where
  /-- Clerk `c` begins a call. -/
  | invoke (c : Nat) (q : Query)
  | group (g : Nat) (act : GroupAction ν)

namespace ShardSystem

def setGroup (s : ShardSystem ν) (g : Nat) (service : Service ν ShardStore Op Result) :
    ShardSystem ν :=
  { s with groups := Function.update s.groups g service }

def post (s : ShardSystem ν) (packet : Packet) : ShardSystem ν :=
  { s with packets := s.packets ++ [packet] }

/-- The committed log of a group. -/
def logs (s : ShardSystem ν) (g : Nat) : List Op := (s.groups g).log

/-- The state of a group: that of its committed log. -/
def group (s : ShardSystem ν) (g : Nat) : ShardStore := (machine g).run (s.logs g)

variable [DecidableEq ν]

def groupStep (ct : History) (makeEnd : MakeEnd ν) (s : ShardSystem ν) (g : Nat) :
    GroupAction ν → Option (ShardSystem ν)
  | .serve i k =>
    match s.clients.history[k]? with
    | some (_, .invoke (c, seq) q) =>
      let op := KV.Op.request c seq q
      if ((s.groups g).servers i).state.canServe g (key2shard op.key) then
        some (s.setGroup g ((s.groups g).enter i (.client op)))
      else some s -- answered `ErrWrongGroup`
    | _ => none
  | .commit k => do
    let (_, op) ← (s.groups g).started[k]?
    let service ← (s.groups g).commit k
    some { s.setGroup g service with effects := s.effects ++ (s.group g).effects g op }
  | .move m => do
    let service ← (s.groups g).move (machine g) m
    some (s.setGroup g service)
  | .poll i =>
    let st := ((s.groups g).servers i).state
    if st.settled then some (s.post (.query g (st.config.num + 1))) else none
  | .adopt k index =>
    match s.packets[k]? with
    | some (.query caller num) =>
      if caller = g then
        some (s.setGroup g ((s.groups g).propose index (.config (ct.config num))))
      else none
    | _ => none
  | .pull i callee name shards =>
    let st := ((s.groups g).servers i).state
    if shards ≠ [] ∧ shards.Perm (st.gidShards .pulling callee) ∧
        name ∈ st.prevConfig.groups callee then
      some (s.post (.pullRequest g callee name { configNum := st.config.num, shards := shards }))
    else none
  | .answerPull i k =>
    match s.packets[k]? with
    | some (.pullRequest caller callee name args) =>
      if callee = g ∧ makeEnd callee name = some i then do
        let reply ← ((s.groups g).servers i).state.pullShard args
        some (s.post (.pullReply caller args reply))
      else none
    | _ => none
  | .install k index =>
    match s.packets[k]? with
    | some (.pullReply caller args reply) =>
      if caller = g then
        some (s.setGroup g ((s.groups g).propose index
          (.installShard args.configNum args.shards reply.data reply.dedup)))
      else none
    | _ => none
  | .collect i callee name shards =>
    let st := ((s.groups g).servers i).state
    if shards ≠ [] ∧ shards.Perm (st.gidShards .gcing callee) ∧
        name ∈ st.prevConfig.groups callee then
      some (s.post (.deleteRequest g callee name { configNum := st.config.num, shards := shards }))
    else none
  | .serveDelete i k =>
    match s.packets[k]? with
    | some (.deleteRequest caller callee name args) =>
      let num := ((s.groups g).servers i).state.config.num
      if callee ≠ g ∨ makeEnd callee name ≠ some i then none
      else if args.configNum < num then some (s.post (.deleteReply caller args))
      else if num < args.configNum then some s -- answered `ErrNotReady`
      else some (s.setGroup g ((s.groups g).enter i (.deleteShard args.configNum args.shards)))
    | _ => none
  | .answerDelete h k => do
    let hd ← (s.groups g).handlers[h]?
    match hd.phase, hd.op, s.packets[k]? with
    | .returned out, .deleteShard configNum shards,
        some (.deleteRequest caller callee name args) =>
      let err := (submit hd.op out).err
      if callee = g ∧ makeEnd callee name = some hd.server ∧
          args = { configNum := configNum, shards := shards } ∧
          err ≠ .wrongLeader ∧ err ≠ .timeout then
        some (s.post (.deleteReply caller args))
      else none
    | _, _, _ => none
  | .confirm k index =>
    match s.packets[k]? with
    | some (.deleteReply caller args) =>
      if caller = g then
        some (s.setGroup g ((s.groups g).propose index (.deleteShard args.configNum args.shards)))
      else none
    | _ => none
  | .noop index => some (s.setGroup g ((s.groups g).propose index .empty))
  | .reply h => do
    let hd ← (s.groups g).handlers[h]?
    match hd.phase, hd.op with
    | .returned out, .client op =>
      let res := submit hd.op out
      if accepts op.type res.err then do
        let clients ← s.clients.respond s.effects.length op.clientId op.seq (returns op.type res)
        some { s with clients := clients }
      else none
    | _, _ => none

def step (ct : History) (makeEnd : MakeEnd ν) (s : ShardSystem ν) :
    ShardAction ν → Option (ShardSystem ν)
  | .invoke c q => do
    let clients ← s.clients.invoke s.effects.length c q
    some { s with clients := clients }
  | .group g act => if g = 0 then none else s.groupStep ct makeEnd g act

/-! ### What a step can do -/

/-- Why group `g` may be asked to log `op`. -/
inductive Causes (ct : History) (s : ShardSystem ν) (g : Nat) : Op → Prop where
  | client (t c seq : Nat) (q : Query) (mem : (t, .invoke (c, seq) q) ∈ s.clients.history) :
      Causes ct s g (.client (KV.Op.request c seq q))
  | config (num : Nat) : Causes ct s g (.config (ct.config num))
  | install (args : MigrateArgs) (reply : PullShardReply)
      (mem : .pullReply g args reply ∈ s.packets) :
      Causes ct s g (.installShard args.configNum args.shards reply.data reply.dedup)
  | delete (caller : Nat) (name : Str) (args : MigrateArgs)
      (mem : .deleteRequest caller g name args ∈ s.packets) :
      Causes ct s g (.deleteShard args.configNum args.shards)
  | confirm (args : MigrateArgs) (mem : .deleteReply g args ∈ s.packets) :
      Causes ct s g (.deleteShard args.configNum args.shards)
  | empty : Causes ct s g .empty

/-- What group `g` may send. -/
inductive Emits (s : ShardSystem ν) (g : Nat) : Packet → Prop where
  | query (num : Nat) : Emits s g (.query g num)
  | pull (i : ν) (callee : Nat) (name : Str) (shards : List (Fin NShards))
      (perm : shards.Perm (((s.groups g).servers i).state.gidShards .pulling callee)) :
      Emits s g (.pullRequest g callee name
        { configNum := ((s.groups g).servers i).state.config.num, shards := shards })
  | pulled (i : ν) (caller : Nat) (name : Str) (args : MigrateArgs) (reply : PullShardReply)
      (mem : .pullRequest caller g name args ∈ s.packets)
      (eq : ((s.groups g).servers i).state.pullShard args = some reply) :
      Emits s g (.pullReply caller args reply)
  | collect (i : ν) (callee : Nat) (name : Str) (shards : List (Fin NShards))
      (perm : shards.Perm (((s.groups g).servers i).state.gidShards .gcing callee)) :
      Emits s g (.deleteRequest g callee name
        { configNum := ((s.groups g).servers i).state.config.num, shards := shards })
  | deleted (caller : Nat) (name : Str) (args : MigrateArgs)
      (mem : .deleteRequest caller g name args ∈ s.packets)
      (reason : (∃ i, args.configNum < ((s.groups g).servers i).state.config.num) ∨
        ∃ hd ∈ (s.groups g).handlers, ∃ r, hd.op = .deleteShard args.configNum args.shards ∧
          hd.phase = .returned (.result r)) : Emits s g (.deleteReply caller args)

/-- A step of group `g`. -/
inductive Happens (ct : History) (s : ShardSystem ν) (g : Nat) :
    GroupAction ν → ShardSystem ν → Prop where
  | nothing {act : GroupAction ν} : Happens ct s g act s
  | entered {act : GroupAction ν} (i : ν) (op : Op) (cause : Causes ct s g op)
      (ready : ∀ configNum shards, op = .deleteShard configNum shards →
        ((s.groups g).servers i).state.config.num = configNum) :
      Happens ct s g act (s.setGroup g ((s.groups g).enter i op))
  | proposed {act : GroupAction ν} (index : Nat) (op : Op) (cause : Causes ct s g op) :
      Happens ct s g act (s.setGroup g ((s.groups g).propose index op))
  | moved (m : Move ν) (service : Service ν ShardStore Op Result)
      (eq : (s.groups g).move (machine g) m = some service) :
      Happens ct s g (.move m) (s.setGroup g service)
  | committed {act : GroupAction ν} (index : Nat) (op : Op)
      (mem : (index, op) ∈ (s.groups g).started) :
      Happens ct s g act
        { s.setGroup g { s.groups g with log := (s.groups g).log ++ [op] } with
          effects := s.effects ++ (s.group g).effects g op }
  | posted {act : GroupAction ν} (packet : Packet) (cause : Emits s g packet) :
      Happens ct s g act (s.post packet)
  | replied {act : GroupAction ν} (hd : Handler ν Op Result) (out : Outcome Result)
      (op : ClientOp) (clients : Clients Query (Option Str)) (mem : hd ∈ (s.groups g).handlers)
      (phase : hd.phase = .returned out) (eq : hd.op = .client op)
      (accepted : accepts op.type (submit (.client op) out).err = true)
      (respond : s.clients.respond s.effects.length op.clientId op.seq
        (returns op.type (submit (.client op) out)) = some clients) :
      Happens ct s g act { s with clients := clients }

section Happens

variable {ct : History} {makeEnd : MakeEnd ν} {s s' : ShardSystem ν} {g : Nat}

theorem happens_serve {i : ν} {k : Nat} (h : s.groupStep ct makeEnd g (.serve i k) = some s') :
    Happens ct s g (.serve i k) s' := by
  simp only [groupStep] at h
  split at h
  · next t c seq q hget =>
    split at h
    · cases h
      exact .entered i _ (.client t c seq q (List.mem_of_getElem? hget))
        fun _ _ heq => nomatch heq
    · cases h
      exact .nothing
  · cases h

theorem happens_commit {k : Nat} (h : s.groupStep ct makeEnd g (.commit k) = some s') :
    Happens ct s g (.commit k) s' := by
  simp only [groupStep, Option.bind_eq_bind, Option.bind_eq_some_iff, Option.some.injEq] at h
  obtain ⟨⟨index, op⟩, hget, service, hcommit, rfl⟩ := h
  simp only [Service.commit, hget, Option.bind_eq_bind, Option.bind_some,
    Option.ite_none_right_eq_some, Option.some.injEq] at hcommit
  obtain ⟨-, rfl⟩ := hcommit
  exact .committed index op (List.mem_of_getElem? hget)

theorem happens_answerPull {i : ν} {k : Nat}
    (h : s.groupStep ct makeEnd g (.answerPull i k) = some s') :
    Happens ct s g (.answerPull i k) s' := by
  simp only [groupStep] at h
  split at h
  · next caller callee name args hget =>
    simp only [Option.ite_none_right_eq_some, Option.bind_eq_bind, Option.bind_eq_some_iff,
      Option.some.injEq] at h
    obtain ⟨⟨rfl, -⟩, reply, hreply, rfl⟩ := h
    exact .posted _ (.pulled i caller name args reply (List.mem_of_getElem? hget) hreply)
  · cases h

/-- A request to delete is answered at once, refused, or handed to Raft. -/
theorem happens_serveDelete {i : ν} {k : Nat}
    (h : s.groupStep ct makeEnd g (.serveDelete i k) = some s') :
    Happens ct s g (.serveDelete i k) s' := by
  simp only [groupStep] at h
  split at h
  · next caller callee name args hget =>
    simp only [Option.ite_none_left_eq_some, not_or, not_not] at h
    obtain ⟨⟨hcallee, -⟩, h⟩ := h
    have hmem := List.mem_of_getElem? hget
    rw [hcallee] at hmem
    split at h
    · next hlt =>
      cases h
      exact .posted _ (.deleted caller name args hmem (.inl ⟨i, hlt⟩))
    · next hge =>
      split at h
      · cases h
        exact .nothing
      · next hle =>
        cases h
        refine .entered i _ (.delete caller name args hmem) fun configNum shards heq => ?_
        cases heq
        exact Nat.le_antisymm (Nat.le_of_not_lt hge) (Nat.le_of_not_lt hle)
  · cases h

theorem happens_answerDelete {h k : Nat}
    (hstep : s.groupStep ct makeEnd g (.answerDelete h k) = some s') :
    Happens ct s g (.answerDelete h k) s' := by
  simp only [groupStep, Option.bind_eq_bind, Option.bind_eq_some_iff] at hstep
  obtain ⟨hd, hhd, hstep⟩ := hstep
  split at hstep
  · next out configNum shards caller callee name args hphase hop hget =>
    simp only [Option.ite_none_right_eq_some, Option.some.injEq] at hstep
    obtain ⟨⟨rfl, -, rfl, hleader, htimeout⟩, rfl⟩ := hstep
    have hmem := List.mem_of_getElem? hhd
    refine .posted _ (.deleted caller name _ (List.mem_of_getElem? hget) (.inr ⟨hd, hmem, ?_⟩))
    cases out with
    | notLeader => exact absurd rfl hleader
    | timeout => exact absurd rfl htimeout
    | result r => exact ⟨r, hop, hphase⟩
  · cases hstep

theorem happens_reply {h : Nat} (hstep : s.groupStep ct makeEnd g (.reply h) = some s') :
    Happens ct s g (.reply h) s' := by
  simp only [groupStep, Option.bind_eq_bind, Option.bind_eq_some_iff] at hstep
  obtain ⟨hd, hget, hstep⟩ := hstep
  split at hstep
  · next out op hphase hop =>
    rw [hop] at hstep
    simp only [Option.ite_none_right_eq_some, Option.bind_eq_some_iff, Option.some.injEq] at hstep
    obtain ⟨haccepts, clients, hrespond, rfl⟩ := hstep
    exact .replied hd out op clients (List.mem_of_getElem? hget) hphase hop haccepts hrespond
  · cases hstep

theorem happens {act : GroupAction ν} (h : s.groupStep ct makeEnd g act = some s') :
    Happens ct s g act s' := by
  cases act with
  | serve i k => exact happens_serve h
  | commit k => exact happens_commit h
  | move m =>
    simp only [groupStep, Option.bind_eq_bind, Option.bind_eq_some_iff, Option.some.injEq] at h
    obtain ⟨service, hmove, rfl⟩ := h
    exact .moved m service hmove
  | poll i =>
    simp only [groupStep, Option.ite_none_right_eq_some, Option.some.injEq] at h
    obtain ⟨-, rfl⟩ := h
    exact .posted _ (.query _)
  | adopt k index =>
    simp only [groupStep] at h
    split at h
    · simp only [Option.ite_none_right_eq_some, Option.some.injEq] at h
      obtain ⟨-, rfl⟩ := h
      exact .proposed index _ (.config _)
    · cases h
  | pull i callee name shards =>
    simp only [groupStep, Option.ite_none_right_eq_some, Option.some.injEq] at h
    obtain ⟨⟨-, hperm, -⟩, rfl⟩ := h
    exact .posted _ (.pull i callee name shards hperm)
  | answerPull i k => exact happens_answerPull h
  | install k index =>
    simp only [groupStep] at h
    split at h
    · next caller args reply hget =>
      simp only [Option.ite_none_right_eq_some, Option.some.injEq] at h
      obtain ⟨rfl, rfl⟩ := h
      exact .proposed index _ (.install args reply (List.mem_of_getElem? hget))
    · cases h
  | collect i callee name shards =>
    simp only [groupStep, Option.ite_none_right_eq_some, Option.some.injEq] at h
    obtain ⟨⟨-, hperm, -⟩, rfl⟩ := h
    exact .posted _ (.collect i callee name shards hperm)
  | serveDelete i k => exact happens_serveDelete h
  | answerDelete k j => exact happens_answerDelete h
  | confirm k index =>
    simp only [groupStep] at h
    split at h
    · next caller args hget =>
      simp only [Option.ite_none_right_eq_some, Option.some.injEq] at h
      obtain ⟨rfl, rfl⟩ := h
      exact .proposed index _ (.confirm args (List.mem_of_getElem? hget))
    · cases h
  | noop index =>
    simp only [groupStep, Option.some.injEq] at h
    subst h
    exact .proposed index _ .empty
  | reply h' => exact happens_reply h

end Happens

/-- A step is a call that begins, or happens in one group. -/
theorem step_cases {ct : History} {makeEnd : MakeEnd ν} {s s' : ShardSystem ν} {act : ShardAction ν}
    (h : s.step ct makeEnd act = some s') :
    (∃ c q clients, s.clients.invoke s.effects.length c q = some clients ∧
      s' = { s with clients := clients }) ∨
    ∃ g gact, act = .group g gact ∧ g ≠ 0 ∧ Happens ct s g gact s' := by
  cases act with
  | invoke c q =>
    simp only [step, Option.bind_eq_bind, Option.bind_eq_some_iff, Option.some.injEq] at h
    obtain ⟨clients, hinvoke, rfl⟩ := h
    exact .inl ⟨c, q, clients, hinvoke, rfl⟩
  | group g act =>
    simp only [step, Option.ite_none_left_eq_some] at h
    exact .inr ⟨g, act, rfl, h.1, happens h.2⟩

/-! ### Logs grow -/

omit [DecidableEq ν] in
theorem logs_setGroup {c : ShardSystem ν} {g : Nat} {service : Service ν ShardStore Op Result}
    (hlog : service.log = c.logs g) :
    (c.setGroup g service).logs = c.logs := by
  funext h
  by_cases hh : h = g
  · subst hh
    simpa [ShardSystem.setGroup, ShardSystem.logs] using hlog
  · simp [ShardSystem.setGroup, ShardSystem.logs, Function.update_of_ne hh]

omit [DecidableEq ν] in
/-- The logs after a command of group `g` was committed. -/
theorem logs_committed (c : ShardSystem ν) (g : Nat) (op : Op) :
    (c.setGroup g { c.groups g with log := c.logs g ++ [op] }).logs =
      Function.update c.logs g (c.logs g ++ [op]) := by
  funext h
  by_cases hh : h = g
  · subst hh
    simp [ShardSystem.setGroup, ShardSystem.logs]
  · simp [ShardSystem.setGroup, ShardSystem.logs, Function.update_of_ne hh]

theorem isPrefix_committed (L : Nat → List Op) (g : Nat) (op : Op) (h : Nat) :
    L h <+: Function.update L g (L g ++ [op]) h := by
  by_cases hh : h = g
  · subst hh
    rw [Function.update_self]
    exact List.prefix_append _ _
  · simp [Function.update_of_ne hh]

/-- A step in a group leaves logs and effects alone, or commits a command that was
    accepted. -/
theorem Happens.logs_effects {ct : History} {c c' : ShardSystem ν} {g : Nat}
    {act : GroupAction ν} (h : c.Happens ct g act c') :
    c'.logs = c.logs ∧ c'.effects = c.effects ∨
      ∃ index op, (index, op) ∈ (c.groups g).started ∧
        c'.logs = Function.update c.logs g (c.logs g ++ [op]) ∧
        c'.effects = c.effects ++ (c.group g).effects g op := by
  cases h with
  | nothing => exact .inl ⟨rfl, rfl⟩
  | entered i op cause => exact .inl ⟨logs_setGroup rfl, rfl⟩
  | proposed index op cause => exact .inl ⟨logs_setGroup rfl, rfl⟩
  | moved m service eq => exact .inl ⟨logs_setGroup (Service.move_log eq), rfl⟩
  | committed index op mem => exact .inr ⟨index, op, mem, logs_committed c g op, rfl⟩
  | posted packet cause => exact .inl ⟨rfl, rfl⟩
  | replied => exact .inl ⟨rfl, rfl⟩

section Kept

variable {ct : History} {c c' : ShardSystem ν} {g : Nat} {act : GroupAction ν}

theorem Happens.isPrefix (h : c.Happens ct g act c') (k : Nat) : c.logs k <+: c'.logs k := by
  rcases h.logs_effects with ⟨hlogs, -⟩ | ⟨index, op, -, hlogs, -⟩
  · simp [hlogs]
  · rw [hlogs]
    exact isPrefix_committed c.logs g op k

theorem Happens.logs_zero (h : c.Happens ct g act c') (hg : g ≠ 0) : c'.logs 0 = c.logs 0 := by
  rcases h.logs_effects with ⟨hlogs, -⟩ | ⟨index, op, -, hlogs, -⟩
  · rw [hlogs]
  · rw [hlogs, Function.update_of_ne hg.symm]

theorem Happens.exists_effects (h : c.Happens ct g act c') :
    ∃ more, c'.effects = c.effects ++ more := by
  rcases h.logs_effects with ⟨-, heffects⟩ | ⟨index, op, -, -, heffects⟩
  · exact ⟨[], by rw [heffects, List.append_nil]⟩
  · exact ⟨_, heffects⟩

omit [DecidableEq ν] in
theorem forall_setGroup {P : Nat → Service ν ShardStore Op Result → Prop}
    {service : Service ν ShardStore Op Result} (hself : P g service)
    (hall : ∀ k, P k (c.groups k)) : ∀ k, P k ((c.setGroup g service).groups k) :=
  (Function.forall_update_iff c.groups P).mpr ⟨hself, fun k _ => hall k⟩

/-- If all that group `g` may be asked to log has the property `Q g` and all that it may
    send has the property `R`, then a step in this group keeps these properties of what
    the groups hold and of what is under way. -/
theorem Happens.keeps {Q : Nat → Op → Prop} {R : Packet → Prop} (h : c.Happens ct g act c')
    (hsound : ∀ k, (c.groups k).Sound (machine k) (Q k)) (hpackets : ∀ p ∈ c.packets, R p)
    (hcauses : ∀ op, Causes ct c g op → Q g op) (hemits : ∀ p, c.Emits g p → R p) :
    (∀ k, (c'.groups k).Sound (machine k) (Q k)) ∧ ∀ p ∈ c'.packets, R p := by
  cases h with
  | nothing => exact ⟨hsound, hpackets⟩
  | entered i op cause =>
    exact ⟨forall_setGroup ((hsound g).enter (hcauses op cause) i) hsound, hpackets⟩
  | proposed index op cause =>
    exact ⟨forall_setGroup ((hsound g).propose (hcauses op cause) index) hsound, hpackets⟩
  | moved m service eq => exact ⟨forall_setGroup ((hsound g).move eq).2 hsound, hpackets⟩
  | committed index op mem => exact ⟨forall_setGroup ((hsound g).grow mem) hsound, hpackets⟩
  | posted packet cause =>
    refine ⟨hsound, List.forall_mem_append.mpr ⟨hpackets, ?_⟩⟩
    exact List.forall_mem_singleton.mpr (hemits packet cause)
  | replied => exact ⟨hsound, hpackets⟩

end Kept

/-- A step changes the log of at most one group, by a command that was accepted. -/
theorem step_logs {ct : History} {makeEnd : MakeEnd ν} {c c' : ShardSystem ν} {act : ShardAction ν}
    (hstep : c.step ct makeEnd act = some c') : c'.logs = c.logs ∨
      ∃ g index op, g ≠ 0 ∧ (index, op) ∈ (c.groups g).started ∧
        c'.logs = Function.update c.logs g (c.logs g ++ [op]) := by
  rcases step_cases hstep with ⟨_, _, clients, -, rfl⟩ | ⟨g, gact, -, hg, hhappens⟩
  · exact .inl rfl
  · rcases hhappens.logs_effects with ⟨hlogs, -⟩ | ⟨index, op, hmem, hlogs, -⟩
    · exact .inl hlogs
    · exact .inr ⟨g, index, op, hg, hmem, hlogs⟩

theorem step_isPrefix {ct : History} {makeEnd : MakeEnd ν} {c c' : ShardSystem ν}
    {act : ShardAction ν} (hstep : c.step ct makeEnd act = some c') (g : Nat) :
    c.logs g <+: c'.logs g := by
  rcases step_cases hstep with ⟨_, _, clients, -, rfl⟩ | ⟨h, gact, -, -, hhappens⟩
  · exact List.prefix_rfl
  · exact hhappens.isPrefix g

end ShardSystem

/-- The groups before the first configuration, and clerks that have not called
    yet. -/
def shardSystem (ct : History) (makeEnd : MakeEnd ν) [DecidableEq ν] :
    System (ShardSystem ν) (ShardAction ν) where
  init :=
    { groups := fun g => Service.start (machine g)
      packets := []
      clients := Clients.start
      effects := [] }
  step := ShardSystem.step ct makeEnd

theorem logs_isPrefix [DecidableEq ν] {ct : History} {makeEnd : MakeEnd ν}
    {ok : ShardSystem ν → ShardAction ν → Prop} {c c' : ShardSystem ν}
    (h : (shardSystem ct makeEnd).Reaches ok c c') (g : Nat) : c.logs g <+: c'.logs g := by
  induction h with
  | refl => exact List.prefix_rfl
  | tail _ hstep ih =>
    obtain ⟨act, -, hstep⟩ := hstep
    exact ih.trans (ShardSystem.step_isPrefix hstep g)

end RaftLabs.ShardKV
