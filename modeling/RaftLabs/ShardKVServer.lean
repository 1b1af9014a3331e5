import RaftLabs.KVService
import Mathlib.Algebra.Ring.Nat
import Mathlib.Data.Fin.Basic
import Mathlib.Data.List.FinRange

/-!
# The sharded key/value server

The state of `ShardKV` in `shardkv/server.go` and the sections of it that run
under `kv.mu`.  The replicated part of the state, which is also what a snapshot
holds, is `ShardStore`; channels and `lastApplied` are those of every service.

A group calls another one by the names that its previous configuration has for the
servers of that group.  A name that `Groups` has for a group leads to one of the
replicas of this group, or to nobody (`MakeEnd`).
-/

namespace RaftLabs.ShardKV

open ReplicatedService

abbrev NShards : Nat := 10

instance : NeZero NShards := ⟨by decide⟩

/-- `key2shard`: the first byte of the key decides. -/
def key2shard : Str → Fin NShards
  | [] => 0
  | b :: _ => ⟨b.toNat % NShards, Nat.mod_lt _ (by decide)⟩

/-- `shardctrler.Config`; gid 0 stands for no group, and a gid that is not a key of
    `Groups` has no servers. -/
structure Config where
  num : Nat
  shards : Fin NShards → Nat
  groups : Nat → List Str

/-- `shardctrler.Config{Groups: map[int][]string{}}`. -/
def Config.empty : Config where
  num := 0
  shards _ := 0
  groups _ := []

/-- `make_end`: the replica of a group that is reached under a name. -/
abbrev MakeEnd (ν : Type) := Nat → Str → Option ν

inductive ShardState where
  | serving
  | pulling
  | bePulling
  | gcing
deriving DecidableEq, Repr

abbrev ShardData := Str → Option Str

structure Shard where
  data : ShardData
  state : ShardState

def newShard : Shard where
  data _ := none
  state := .serving

/-- The fields of `Op` that a client request carries, the same as in `kvraft`. -/
abbrev ClientOp := KV.Op

/-- `Op`: what is replicated through Raft. -/
inductive Op where
  | client (op : ClientOp)
  | config (config : Config)
  | installShard (configNum : Nat) (shards : List (Fin NShards))
      (shardData : Fin NShards → Option ShardData) (dedup : Nat → Option Nat)
  | deleteShard (configNum : Nat) (shards : List (Fin NShards))
  | empty

/-- `Err`; `unset` is the empty string of a result that nobody filled in. -/
inductive Err where
  | unset
  | ok
  | noKey
  | wrongGroup
  | wrongLeader
  | timeout
  | notReady
deriving DecidableEq, Repr

/-- `result`. -/
structure Result where
  err : Err
  value : Str
  clientId : Nat
  seq : Nat
deriving DecidableEq, Repr

/-- The part of `ShardKV` that is a function of the log. -/
structure ShardStore where
  shards : Fin NShards → Option Shard
  dedup : Nat → Option Nat
  config : Config
  prevConfig : Config

namespace ShardStore

/-- The state that `StartServer` allocates. -/
def start : ShardStore where
  shards _ := none
  dedup _ := none
  config := .empty
  prevConfig := .empty

/-- `canServe`: the group `gid` owns the shard and is ready to serve it. -/
def canServe (gid : Nat) (st : ShardStore) (shard : Fin NShards) : Bool :=
  if st.config.shards shard ≠ gid then false
  else (st.shards shard).any fun s => decide (s.state = .serving)

/-! ### Client operations -/

/-- What `Put` and `Append` write. -/
def write (data : ShardData) (op : ClientOp) : ShardData :=
  match op.type with
  | .get => data
  | .put => Function.update data op.key (some op.value)
  | .append => Function.update data op.key (some ((data op.key).getD [] ++ op.value))

/-- A mutation with this or a later number of the client has been applied. -/
def duplicate (st : ShardStore) (op : ClientOp) : Bool :=
  (st.dedup op.clientId).any fun last => decide (op.seq ≤ last)

/-- `applyClientOp`. -/
def applyClientOp (gid : Nat) (st : ShardStore) (op : ClientOp) : ShardStore × Result :=
  let shard := key2shard op.key
  let answer (err : Err) (value : Str) : Result :=
    { err := err, value := value, clientId := op.clientId, seq := op.seq }
  if st.config.shards shard ≠ gid then (st, answer .wrongGroup [])
  else match st.shards shard with
    | none => (st, answer .wrongGroup [])
    | some s =>
      if s.state ≠ .serving then (st, answer .wrongGroup [])
      else if op.type = .get then
        match s.data op.key with
        | some v => (st, answer .ok v)
        | none => (st, answer .noKey [])
      else if st.duplicate op then (st, answer .ok [])
      else
        ({ st with
            shards := Function.update st.shards shard (some { s with data := write s.data op })
            dedup := Function.update st.dedup op.clientId (some op.seq) },
          answer .ok [])

/-! ### Configuration changes -/

/-- Every shard is in a settled state. -/
def settled (st : ShardStore) : Bool :=
  (List.finRange NShards).all fun shard =>
    (st.shards shard).all fun s => decide (s.state = .serving)

/-- What happens to one shard when the configuration changes. -/
def migrate (gid oldGid newGid : Nat) (shard : Option Shard) : Option Shard :=
  if newGid ≠ gid then
    if oldGid = gid then shard.map fun s => { s with state := .bePulling } else shard
  else if oldGid = gid ∨ oldGid = 0 then
    some { shard.getD newShard with state := .serving }
  else some { data := fun _ => none, state := .pulling }

/-- `applyConfig`: one configuration at a time, and only from a settled state. -/
def applyConfig (gid : Nat) (st : ShardStore) (newConfig : Config) : ShardStore :=
  if newConfig.num ≠ st.config.num + 1 then st
  else if st.settled = false then st
  else
    { st with
      prevConfig := st.config
      config := newConfig
      shards := fun shard =>
        migrate gid (st.config.shards shard) (newConfig.shards shard) (st.shards shard) }

/-! ### Migration -/

/-- One round of the loop of `applyInstallShard`. -/
def installOne (shardData : Fin NShards → Option ShardData)
    (shards : Fin NShards → Option Shard) (shard : Fin NShards) : Fin NShards → Option Shard :=
  match shards shard with
  | none => shards
  | some s =>
    if s.state ≠ .pulling then shards
    else Function.update shards shard
      (some { data := (shardData shard).getD fun _ => none, state := .gcing })

/-- The larger number wins. -/
def mergeDedup (cur new : Nat → Option Nat) : Nat → Option Nat := fun cid =>
  match new cid with
  | none => cur cid
  | some seq =>
    match cur cid with
    | none => some seq
    | some c => if c < seq then some seq else some c

/-- `applyInstallShard`. -/
def applyInstallShard (st : ShardStore) (configNum : Nat) (shards : List (Fin NShards))
    (shardData : Fin NShards → Option ShardData) (dedup : Nat → Option Nat) : ShardStore :=
  if configNum ≠ st.config.num then st
  else
    { st with
      shards := shards.foldl (installOne shardData) st.shards
      dedup := mergeDedup st.dedup dedup }

/-- One round of the loop of `applyDeleteShard`. -/
def deleteOne (shards : Fin NShards → Option Shard) (shard : Fin NShards) :
    Fin NShards → Option Shard :=
  match shards shard with
  | none => shards
  | some s =>
    if s.state = .gcing then Function.update shards shard (some { s with state := .serving })
    else if s.state = .bePulling then Function.update shards shard none
    else shards

/-- `applyDeleteShard`. -/
def applyDeleteShard (st : ShardStore) (configNum : Nat) (shards : List (Fin NShards)) :
    ShardStore :=
  if configNum ≠ st.config.num then st
  else { st with shards := shards.foldl deleteOne st.shards }

end ShardStore

/-- `applyCommand` on the replicated state of the group `gid`.  Commands that are
    not from a client have no identity, and nobody fills in their result. -/
def apply (gid : Nat) (st : ShardStore) (op : Op) : ShardStore × Result :=
  let unset : Result := { err := .unset, value := [], clientId := 0, seq := 0 }
  match op with
  | .client op => st.applyClientOp gid op
  | .config newConfig => (st.applyConfig gid newConfig, unset)
  | .installShard configNum shards shardData dedup =>
    (st.applyInstallShard configNum shards shardData dedup, unset)
  | .deleteShard configNum shards => (st.applyDeleteShard configNum shards, unset)
  | .empty => (st, unset)

/-- The state machine of the group `gid`. -/
def machine (gid : Nat) : Machine ShardStore Op Result where
  init := ShardStore.start
  apply := apply gid

/-! ### Requests between groups -/

/-- `PullShardArgs` and `DeleteShardArgs`. -/
structure MigrateArgs where
  configNum : Nat
  shards : List (Fin NShards)
deriving DecidableEq

/-- A `PullShardReply` with `Err` equal to `OK`. -/
structure PullShardReply where
  data : Fin NShards → Option ShardData
  dedup : Nat → Option Nat

namespace ShardStore

/-- `PullShard` at a replica that takes itself for the leader; `none` is
    `ErrNotReady`. -/
def pullShard (st : ShardStore) (args : MigrateArgs) : Option PullShardReply :=
  if st.config.num < args.configNum then none
  else some
    { data := fun shard =>
        if shard ∈ args.shards then
          match st.shards shard with
          | some s => some s.data
          | none => some fun _ => none
        else none
      dedup := st.dedup }

/-- The shards in state `state` that belonged to `gid` before, which `shardPuller`
    and `shardGC` put into one request. -/
def gidShards (st : ShardStore) (state : ShardState) (gid : Nat) : List (Fin NShards) :=
  (List.finRange NShards).filter fun shard =>
    (st.shards shard).any (fun s => decide (s.state = state)) ∧ st.prevConfig.shards shard = gid

end ShardStore

/-! ### The controller -/

/-- The configurations that the controller has made and will make, the same for
    everyone. -/
structure History where
  owner : Nat → Fin NShards → Nat
  groups : Nat → Nat → List Str
  unassigned : ∀ shard, owner 0 shard = 0
  ungrouped : ∀ gid, groups 0 gid = []

/-- The answer to `Query(n)`. -/
def History.config (ct : History) (n : Nat) : Config where
  num := n
  shards := ct.owner n
  groups := ct.groups n

theorem History.config_zero (ct : History) : ct.config 0 = .empty := by
  simp only [History.config, Config.empty, Config.mk.injEq, true_and]
  exact ⟨funext ct.unassigned, funext ct.ungrouped⟩

/-- A history in which a shard that was assigned once is never taken back to gid 0. -/
structure Controller extends History where
  kept : ∀ n shard, owner n shard ≠ 0 → owner (n + 1) shard ≠ 0

/-- Where a history is expected, a controller stands for its own: `shardSystem ct` for a
    controller `ct` is elaborated through this. -/
instance : Coe Controller History := ⟨Controller.toHistory⟩

end RaftLabs.ShardKV
