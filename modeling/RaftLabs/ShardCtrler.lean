import RaftLabs.MapSpec
import Mathlib.Algebra.Order.Ring.Int
import Mathlib.Data.Finmap
import Mathlib.Data.List.Sort
import Mathlib.Data.List.FinRange

/-!
# One shard controller

`shardctrler/server.go`: the list of configurations that a replica builds from
the agreed log, and `rebalance`, which spreads the shards over the groups.

* Go ranges over a map in an order of its own choosing.  Every function that
  does so takes the order as an argument, a list that enumerates the keys.
* An index that is out of range panics and a loop that never ends never returns;
  both are a `Fault`.
* Group ids are only compared with each other and with the invalid id 0, so they
  come from any linear order with a zero; the number of shards is a parameter.
-/

namespace RaftLabs.Ctrl

/-- The number of shards. -/
abbrev NShards : Nat := 10

/-- `map[int][]string`. -/
abbrev Groups (γ : Type) := Finmap fun _ : γ => List Str

/-- A configuration -- an assignment of shards to groups. -/
structure Config (N : Nat) (γ : Type) where
  num : Nat
  shards : Fin N → γ
  groups : Groups γ

/-- The fields that the four types of `Op` use. -/
inductive Args (γ : Type) where
  | join (servers : Groups γ)
  | leave (gids : List γ)
  | move (shard : Int) (gid : γ)
  | query (num : Int)

/-- The command replicated through Raft. -/
structure Op (γ : Type) where
  args : Args γ
  clientId : Int
  seq : Int

/-- Why a replica does not get on. -/
inductive Fault where
  | indexOutOfRange
  | endlessLoop
deriving DecidableEq

def Args.isQuery {γ : Type} : Args γ → Bool
  | .query _ => true
  | .join _ => false
  | .leave _ => false
  | .move _ _ => false

variable {N : Nat} {γ : Type} [LinearOrder γ]

/-- `Groups[gid]`, which is empty for a gid that is not a key. -/
def Config.servers (c : Config N γ) (gid : γ) : List Str := (c.groups.lookup gid).getD []

/-! ### Ranging over a map -/

/-- A range over `m` may visit its keys in this order. -/
def Enumerates (order : List γ) (m : Groups γ) : Prop := (order : Multiset γ) = m.keys.val

instance (order : List γ) (m : Groups γ) : Decidable (Enumerates order m) :=
  inferInstanceAs (Decidable ((order : Multiset γ) = m.keys.val))

/-- Copy the entries of `src` to `dst`, ranging over `src`. -/
def putAll (order : List γ) (src dst : Groups γ) : Groups γ :=
  order.foldl (fun out gid =>
    match src.lookup gid with
    | some servers => out.insert gid servers
    | none => out) dst

def copyGroups (order : List γ) (g : Groups γ) : Groups γ := putAll order g ∅

/-! ### Rebalancing -/

variable [Zero γ]

/-- What `rebalance` works on: the assignment, the number of shards of each group
    and the shards that need a home. -/
structure Loads (N : Nat) (γ : Type) where
  shards : Fin N → γ
  count : γ → Nat
  unassigned : List (Fin N)

/-- The first `N % n` groups get one shard more than the others. -/
def targets (N : Nat) (gids : List γ) : γ → Nat :=
  gids.zipIdx.foldl (fun target x =>
    Function.update target x.1
      (if x.2 < N % gids.length then N / gids.length + 1 else N / gids.length)) fun _ => 0

/-- Count the assignments; group 0 and unknown groups count as unassigned. -/
def countLoads (gids : List γ) (shards : Fin N → γ) : Loads N γ :=
  (List.finRange N).foldl (fun l s =>
    let g := l.shards s
    if g ≠ 0 ∧ g ∈ gids then { l with count := Function.update l.count g (l.count g + 1) }
    else { l with unassigned := l.unassigned ++ [s] })
    { shards := shards, count := fun _ => 0, unassigned := [] }

/-- The highest-numbered shard of a group. -/
def lastShardOf (shards : Fin N → γ) (gid : γ) : Option (Fin N) :=
  (List.finRange N).reverse.find? fun s => shards s = gid

/-- Take `k` shards away from a group.  If it has none left nothing changes, and
    the loop around it tests the same condition for ever. -/
def releaseLoop (gid : γ) : Nat → Loads N γ → Except Fault (Loads N γ)
  | 0, l => .ok l
  | k + 1, l =>
    match lastShardOf l.shards gid with
    | none => .error .endlessLoop
    | some s => releaseLoop gid k
      { shards := Function.update l.shards s 0
        count := Function.update l.count gid (l.count gid - 1)
        unassigned := l.unassigned ++ [s] }

/-- Each turn of the loop takes one shard, so it is entered as often as the load
    exceeds the target. -/
def release (target : γ → Nat) (l : Loads N γ) (gid : γ) : Except Fault (Loads N γ) :=
  releaseLoop gid (l.count gid - target gid) l

/-- Hand out up to `k` unassigned shards to a group. -/
def assignLoop (gid : γ) : Nat → Loads N γ → Loads N γ
  | 0, l => l
  | k + 1, l =>
    match l.unassigned with
    | [] => l
    | s :: rest => assignLoop gid k
      { shards := Function.update l.shards s gid
        count := Function.update l.count gid (l.count gid + 1)
        unassigned := rest }

def assign (target : γ → Nat) (l : Loads N γ) (gid : γ) : Loads N γ :=
  assignLoop gid (target gid - l.count gid) l

/-- `rebalance`, with the order in which it ranges over `c.Groups`. -/
def rebalance (order : List γ) (c : Config N γ) : Except Fault (Config N γ) :=
  let gids := order.insertionSort (· ≤ ·)
  if gids.length = 0 then .ok { c with shards := fun _ => 0 }
  else do
    let target := targets N gids
    let l ← gids.foldlM (release target) (countLoads gids c.shards)
    let l := { l with unassigned := l.unassigned.insertionSort (· ≤ ·) }
    let l := gids.foldl (assign target) l
    .ok { c with shards := l.shards }

/-! ### Mutations -/

/-- The orders of the ranges of one `applyMutation`: over the old groups, over
    `op.Servers` and over the new groups. -/
structure MapOrders (γ : Type) where
  copied : List γ
  servers : List γ
  gids : List γ

/-- The new configuration before `rebalance`, with its groups and shards. -/
def prepare (o : MapOrders γ) (args : Args γ) (last : Config N γ) : Config N γ :=
  let nc : Config N γ :=
    { num := last.num + 1, shards := last.shards, groups := copyGroups o.copied last.groups }
  match args with
  | .join servers => { nc with groups := putAll o.servers servers nc.groups }
  | .leave gids =>
    { nc with
      groups := gids.foldl (fun groups gid => groups.erase gid) nc.groups
      shards := fun s => if nc.shards s ∈ gids then 0 else nc.shards s }
  | .move _ _ => nc
  | .query _ => nc

/-- The configuration that `applyMutation` appends. -/
def nextConfig (o : MapOrders γ) (args : Args γ) (last : Config N γ) :
    Except Fault (Config N γ) :=
  let nc := prepare o args last
  match args with
  | .join _ => rebalance o.gids nc
  | .leave _ => rebalance o.gids nc
  | .move shard gid =>
    if h : 0 ≤ shard ∧ shard < N then
      .ok { nc with
        shards := Function.update nc.shards ⟨shard.toNat, (Int.toNat_lt h.1).mpr h.2⟩ gid }
    else .error .indexOutOfRange
  | .query _ => .ok nc

/-- The ranges may go this way. -/
def MapOrders.Possible (o : MapOrders γ) (args : Args γ) (last : Config N γ) : Prop :=
  Enumerates o.copied last.groups ∧
    (∀ servers, args = .join servers → Enumerates o.servers servers) ∧
    Enumerates o.gids (prepare o args last).groups

/-! ### The replica -/

/-- The replicated part of `ShardCtrler`; there is always a configuration. -/
structure ShardCtrler (N : Nat) (γ : Type) where
  configs : List (Config N γ)
  configs_ne : configs ≠ []
  dedup : Int → Option Int
  lastApplied : Nat

namespace ShardCtrler

/-- `StartServer`: config 0 has no groups. -/
def start : ShardCtrler N γ where
  configs := [{ num := 0, shards := fun _ => 0, groups := ∅ }]
  configs_ne := List.cons_ne_nil _ _
  dedup _ := none
  lastApplied := 0

/-- `sc.configs[len(sc.configs)-1]`. -/
def current (sc : ShardCtrler N γ) : Config N γ := sc.configs.getLast sc.configs_ne

/-- Config number `num`, or the latest if `num` is -1 or out of range. -/
def configAt (sc : ShardCtrler N γ) (num : Int) : Config N γ :=
  if num < 0 then sc.current else (sc.configs[num.toNat]?).getD sc.current

def applyMutation (o : MapOrders γ) (sc : ShardCtrler N γ) (op : Op γ) :
    Except Fault (ShardCtrler N γ) := do
  let nc ← nextConfig o op.args sc.current
  .ok { sc with
    configs := sc.configs ++ [nc]
    configs_ne := List.append_ne_nil_of_right_ne_nil _ (List.cons_ne_nil _ _) }

/-- The client's latest mutation is older. -/
def Fresh (sc : ShardCtrler N γ) (op : Op γ) : Prop :=
  ∀ last, sc.dedup op.clientId = some last → last < op.seq

instance (sc : ShardCtrler N γ) (op : Op γ) : Decidable (sc.Fresh op) :=
  match h : sc.dedup op.clientId with
  | none => isTrue (by simp [Fresh, h])
  | some last => decidable_of_iff (last < op.seq) (by simp [Fresh, h])

/-- One turn of `applyLoop`, for a command message. -/
def applyLoop (o : MapOrders γ) (sc : ShardCtrler N γ) (index : Nat) (op : Op γ) :
    Except Fault (ShardCtrler N γ) :=
  if index ≤ sc.lastApplied then .ok sc
  else
    let sc := { sc with lastApplied := index }
    if op.args.isQuery then .ok sc
    else if sc.Fresh op then do
      let sc ← sc.applyMutation o op
      .ok { sc with dedup := Function.update sc.dedup op.clientId (some op.seq) }
    else .ok sc

end ShardCtrler

/-- A replica that was handed the first `k` commands of the log, each for the
    first time in its turn and perhaps again later, may have come to this state;
    its maps are ranged over in any order. -/
inductive Replays (log : List (Op γ)) : Nat → ShardCtrler N γ → Prop where
  | start : Replays log 0 .start
  | next {k : Nat} {sc sc' : ShardCtrler N γ} {op : Op γ} {o : MapOrders γ} :
      Replays log k sc → log[k]? = some op → o.Possible op.args sc.current →
      sc.applyLoop o (k + 1) op = .ok sc' → Replays log (k + 1) sc'
  | again {k i : Nat} {sc sc' : ShardCtrler N γ} {op : Op γ} {o : MapOrders γ} :
      Replays log k sc → i < k → log[i]? = some op → sc.applyLoop o (i + 1) op = .ok sc' →
      Replays log k sc'

end RaftLabs.Ctrl
