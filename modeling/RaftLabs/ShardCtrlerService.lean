import RaftLabs.ShardCtrlerConfigs
import RaftLabs.ClientSessions
import RaftLabs.ServiceReads

/-!
# Clerks and shard controllers

`shardctrler` as its clients see it: clerks that make one call at a time, and
servers that run `submit` on top of the contract of Raft.

A handler of `Join`, `Leave` or `Move` answers when `submit` returns.  `Query` does
not get its answer from `submit`: it takes the lock again and reads whatever
configurations its server has by then, which may be more than there were when its
own command was applied.

A replica here ranges over its maps in the order of the keys; by `applyLoop_eq` any
other order gives the same state.  A server whose replica has panicked answers
nothing.  The controller takes no snapshots.
-/

namespace RaftLabs.Ctrl

open Linearizability ReplicatedService

variable {N : Nat} {γ : Type} [LinearOrder γ] [Zero γ]

/-! ### The replicated state machine -/

def sortedKeys (m : Groups γ) : List γ :=
  Quotient.liftOn m.keys.val (fun l => l.insertionSort (· ≤ ·)) fun _ _ h =>
    ((List.perm_insertionSort _ _).trans
      (h.trans (List.perm_insertionSort _ _).symm)).eq_of_pairwise'
        (List.pairwise_insertionSort _ _) (List.pairwise_insertionSort _ _)

def sortedOrders (args : Args γ) (last : Config N γ) : MapOrders γ :=
  let copied := sortedKeys last.groups
  let servers := match args with
    | .join servers => sortedKeys servers
    | _ => []
  { copied := copied, servers := servers,
    gids := sortedKeys (prepare ⟨copied, servers, []⟩ args last).groups }

/-- What every replica does with the commands that it is handed in turn; the command
    itself is what a waiting handler is sent. -/
def machine : Machine (Except Fault (ShardCtrler N γ)) (Op γ) (Op γ) where
  init := .ok .start
  apply st op :=
    (st.bind fun sc => sc.applyLoop (sortedOrders op.args sc.current) (sc.lastApplied + 1) op, op)

/-! ### Requests and replies -/

/-- The command of call number `seq` of a clerk. -/
def Op.request (clientId seq : Nat) (args : Args γ) : Op γ :=
  { args := args, clientId := clientId, seq := seq }

def Op.id (op : Op γ) : Nat × Nat := (op.clientId.toNat, op.seq.toNat)

/-- What `submit` returns. -/
def submit (op : Op γ) : Outcome (Op γ) → Bool
  | .notLeader => false
  | .timeout => false
  | .result applied => applied.clientId = op.clientId ∧ applied.seq = op.seq

inductive Err where
  | ok

/-- `JoinReply`, `LeaveReply`, `MoveReply` and `QueryReply`; the last has a
    configuration. -/
structure Reply (N : Nat) (γ : Type) where
  wrongLeader : Bool
  err : Option Err
  config : Option (Config N γ)

/-- The rest of the handler of `op`, once `submit` has returned. -/
def handle (op : Op γ) (submitted : Bool) (sc : ShardCtrler N γ) : Reply N γ :=
  if submitted then
    { wrongLeader := false, err := some .ok
      config := match op.args with
        | .query num => some (sc.configAt num)
        | .join _ => none
        | .leave _ => none
        | .move _ _ => none }
  else { wrongLeader := true, err := none, config := none }

/-! ### The system -/

structure CtrlService (ν : Type) (N : Nat) (γ : Type) where
  servers : Reading ν (Except Fault (ShardCtrler N γ)) (Op γ) (Op γ)
  /-- The replies that were sent, each with the request it answers. -/
  replies : List (Op γ × Reply N γ)
  clients : Clients (Args γ) (Option (Config N γ))

inductive CtrlAction (ν γ : Type) where
  /-- Clerk `c` begins a call. -/
  | invoke (c : Nat) (args : Args γ)
  /-- Server `i` begins to run the request of event number `k` of the history. -/
  | enter (i : ν) (k : Nat)
  /-- Raft commits command number `k` of those it accepted. -/
  | commit (k : Nat)
  | move (m : Move ν)
  /-- Handler `h`, which is done waiting, sends its reply. -/
  | answer (h : Nat)
  /-- A clerk takes reply number `k`. -/
  | reply (k : Nat)

/-! ### The effects of a log -/

/-- A mutation takes effect when it is applied for the first time. -/
def Op.carriedOut (sc : ShardCtrler N γ) (op : Op γ) :
    List (Effect (Nat × Nat) (Args γ) (Option (Config N γ))) :=
  if op.args.isQuery = false ∧ sc.Fresh op then
    [{ id := op.id, query := op.args, answer := none }]
  else []

/-- What a `Query` would read now. -/
def Op.observed (sc : ShardCtrler N γ) (op : Op γ) :
    List (Effect (Nat × Nat) (Args γ) (Option (Config N γ))) :=
  match op.args with
  | .query num => [{ id := op.id, query := op.args, answer := some (sc.configAt num) }]
  | .join _ => []
  | .leave _ => []
  | .move _ _ => []

/-- A command is carried out, and then every `Query` logged up to it may be answered
    from the new state. -/
def stepEffects (done : List (Op γ)) (op : Op γ) :
    List (Effect (Nat × Nat) (Args γ) (Option (Config N γ))) :=
  match machine.run done, machine.run (done ++ [op]) with
  | .ok sc, .ok sc' => op.carriedOut sc ++ (done ++ [op]).flatMap (Op.observed sc')
  | _, _ => []

def effects (N : Nat) (log : List (Op γ)) :
    List (Effect (Nat × Nat) (Args γ) (Option (Config N γ))) :=
  (log.foldl (fun x op => (x.1 ++ [op], x.2 ++ stepEffects x.1 op)) ([], [])).2

namespace CtrlService

variable {ν : Type} [DecidableEq ν]

def step (s : CtrlService ν N γ) : CtrlAction ν γ → Option (CtrlService ν N γ)
  | .invoke c args => do
    let clients ← s.clients.invoke (effects N s.servers.service.log).length c args
    some { s with clients := clients }
  | .enter i k =>
    match s.clients.history[k]? with
    | some (_, .invoke (c, seq) args) =>
      some { s with servers := s.servers.enter i (Op.request c seq args) }
    | _ => none
  | .commit k => do
    let service ← s.servers.service.commit k
    some { s with servers := { s.servers with service := service } }
  | .move m =>
    match m with
    | .apply _ true => none
    | m => do
      let servers ← s.servers.move machine m
      some { s with servers := servers }
  | .answer h => do
    let (op, out, state) ← s.servers.look h
    match state with
    | .error _ => none
    | .ok sc => some { s with
        servers := s.servers.answered h
        replies := s.replies ++ [(op, handle op (submit op out) sc)] }
  | .reply k => do
    let (op, reply) ← s.replies[k]?
    if reply.wrongLeader then none
    else do
      let clients ← s.clients.respond (effects N s.servers.service.log).length
        op.clientId.toNat op.seq.toNat reply.config
      some { s with clients := clients }

end CtrlService

/-- The servers of `shardctrler` and their clerks, before the first call. -/
def ctrlService (ν : Type) [DecidableEq ν] (N : Nat) (γ : Type) [LinearOrder γ] [Zero γ] :
    System (CtrlService ν N γ) (CtrlAction ν γ) where
  init := { servers := .start machine, replies := [], clients := .start }
  step := CtrlService.step

/-- No `Join` names the invalid group, and a `Move` names a shard. -/
def Args.Callable (N : Nat) : Args γ → Prop
  | .join servers => (0 : γ) ∉ servers
  | .leave _ => True
  | .move shard _ => 0 ≤ shard ∧ shard < N
  | .query _ => True

instance (args : Args γ) : Decidable (args.Callable N) :=
  match args with
  | .join servers => inferInstanceAs (Decidable ((0 : γ) ∉ servers))
  | .leave _ => isTrue trivial
  | .move shard _ => inferInstanceAs (Decidable (0 ≤ shard ∧ shard < N))
  | .query _ => isTrue trivial

/-- The clerks are called with such arguments. -/
def validCalls {ν : Type} (_ : CtrlService ν N γ) : CtrlAction ν γ → Prop
  | .invoke _ args => args.Callable N
  | .enter _ _ => True
  | .commit _ => True
  | .move _ => True
  | .answer _ => True
  | .reply _ => True

instance {ν : Type} (s : CtrlService ν N γ) (a : CtrlAction ν γ) : Decidable (validCalls s a) :=
  match a with
  | .invoke _ args => inferInstanceAs (Decidable (args.Callable N))
  | .enter _ _ => isTrue trivial
  | .commit _ => isTrue trivial
  | .move _ => isTrue trivial
  | .answer _ => isTrue trivial
  | .reply _ => isTrue trivial

/-! ### What the controller is for -/

/-- All configurations there have been; there is always one. -/
structure Configs (N : Nat) (γ : Type) where
  configs : List (Config N γ)
  configs_ne : configs ≠ []

namespace Configs

def latest (s : Configs N γ) : Config N γ := s.configs.getLast s.configs_ne

def add (s : Configs N γ) (nc : Config N γ) : Configs N γ where
  configs := s.configs ++ [nc]
  configs_ne := List.append_ne_nil_of_right_ne_nil _ (List.cons_ne_nil _ _)

/-- A mutation adds a configuration that is made from the latest. -/
def next (s : Configs N γ) (args : Args γ) : Configs N γ :=
  if args.isQuery then s
  else match nextConfig (sortedOrders args s.latest) args s.latest with
    | .ok nc => s.add nc
    | .error _ => s

/-- A `Query` is answered with the configuration of that number, or with the latest
    if there is none. -/
def answer (s : Configs N γ) : Args γ → Option (Config N γ)
  | .query num =>
    some (if num < 0 then s.latest else (s.configs[num.toNat]?).getD s.latest)
  | .join _ => none
  | .leave _ => none
  | .move _ _ => none

theorem initial_ne (N : Nat) (γ : Type) [Zero γ] :
    [({ num := 0, shards := fun _ => 0, groups := ∅ } : Config N γ)] ≠ [] :=
  List.cons_ne_nil _ _

/-- The shard controller as one sequential object. -/
def object (N : Nat) (γ : Type) [LinearOrder γ] [Zero γ] :
    Object (Configs N γ) (Args γ) (Option (Config N γ)) where
  init :=
    { configs := [{ num := 0, shards := fun _ => 0, groups := ∅ }]
      configs_ne := initial_ne N γ }
  next := next
  answer := answer

end Configs

end RaftLabs.Ctrl
