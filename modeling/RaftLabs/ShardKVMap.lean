import RaftLabs.ShardKVLog
import Mathlib.Data.Finmap

/-!
# The map of shards

In the source `kv.shards` is a map keyed by integers, and an entry of the log may
carry any `ConfigNum` and any `Shards`, negative or out of range.  This module has
that map and those entries as they are, and relates them to `ShardStore`, where
shards are numbers below `NShards`: an index out of range names no shard and does
nothing.

`MapOk` is the representation invariant of the map.
-/

namespace RaftLabs.ShardKV

open ReplicatedService

/-- `Op` with its integers unrestricted. -/
inductive RawOp where
  | client (op : ClientOp)
  | config (config : Config)
  | installShard (configNum : Int) (shards : List Int) (shardData : Int → Option ShardData)
      (dedup : Nat → Option Nat)
  | deleteShard (configNum : Int) (shards : List Int)
  | empty

/-- `kv.shards`, shard index to shard. -/
abbrev ShardMap := Finmap fun _ : Int => Shard

/-- `ShardStore` with the map as it is. -/
structure RawStore where
  shards : ShardMap
  dedup : Nat → Option Nat
  config : Config
  prevConfig : Config

namespace RawStore

def start : RawStore where
  shards := ∅
  dedup _ := none
  config := .empty
  prevConfig := .empty

/-- `applyClientOp`. -/
def applyClientOp (gid : Nat) (st : RawStore) (op : ClientOp) : RawStore × Result :=
  let shard := key2shard op.key
  let answer (err : Err) (value : Str) : Result :=
    { err := err, value := value, clientId := op.clientId, seq := op.seq }
  if st.config.shards shard ≠ gid then (st, answer .wrongGroup [])
  else match st.shards.lookup (shard.val : Int) with
    | none => (st, answer .wrongGroup [])
    | some s =>
      if s.state ≠ .serving then (st, answer .wrongGroup [])
      else if op.type = .get then
        match s.data op.key with
        | some v => (st, answer .ok v)
        | none => (st, answer .noKey [])
      else if (st.dedup op.clientId).any fun last => decide (op.seq ≤ last) then
        (st, answer .ok [])
      else
        ({ st with
            shards := st.shards.insert (shard.val : Int)
              { s with data := ShardStore.write s.data op }
            dedup := Function.update st.dedup op.clientId (some op.seq) },
          answer .ok [])

/-- Every entry of the map is `Serving`. -/
def settled (st : RawStore) : Bool :=
  decide (∀ i ∈ st.shards.keys, (st.shards.lookup i).any fun s => decide (s.state = .serving))

/-- One round of the loop of `applyConfig`. -/
def migrateOne (gid : Nat) (old new : Config) (m : ShardMap) (shard : Fin NShards) : ShardMap :=
  let oldGid := old.shards shard
  let newGid := new.shards shard
  if newGid ≠ gid then
    if oldGid = gid then
      match m.lookup (shard.val : Int) with
      | none => m
      | some s => m.insert (shard.val : Int) { s with state := .bePulling }
    else m
  else if oldGid = gid ∨ oldGid = 0 then
    let s := (m.lookup (shard.val : Int)).getD newShard
    m.insert (shard.val : Int) { s with state := .serving }
  else m.insert (shard.val : Int) { data := fun _ => none, state := .pulling }

/-- `applyConfig`. -/
def applyConfig (gid : Nat) (st : RawStore) (newConfig : Config) : RawStore :=
  if newConfig.num ≠ st.config.num + 1 then st
  else if st.settled = false then st
  else
    { st with
      prevConfig := st.config
      config := newConfig
      shards := (List.finRange NShards).foldl (migrateOne gid st.config newConfig) st.shards }

/-- One round of the loop of `applyInstallShard`. -/
def installOne (shardData : Int → Option ShardData) (m : ShardMap) (shard : Int) : ShardMap :=
  match m.lookup shard with
  | none => m
  | some s =>
    if s.state ≠ .pulling then m
    else m.insert shard { data := (shardData shard).getD fun _ => none, state := .gcing }

/-- `applyInstallShard`. -/
def applyInstallShard (st : RawStore) (configNum : Int) (shards : List Int)
    (shardData : Int → Option ShardData) (dedup : Nat → Option Nat) : RawStore :=
  if configNum ≠ st.config.num then st
  else
    { st with
      shards := shards.foldl (installOne shardData) st.shards
      dedup := ShardStore.mergeDedup st.dedup dedup }

/-- One round of the loop of `applyDeleteShard`. -/
def deleteOne (m : ShardMap) (shard : Int) : ShardMap :=
  match m.lookup shard with
  | none => m
  | some s =>
    if s.state = .gcing then m.insert shard { s with state := .serving }
    else if s.state = .bePulling then m.erase shard
    else m

/-- `applyDeleteShard`. -/
def applyDeleteShard (st : RawStore) (configNum : Int) (shards : List Int) : RawStore :=
  if configNum ≠ st.config.num then st
  else { st with shards := shards.foldl deleteOne st.shards }

/-- `applyCommand`. -/
def apply (gid : Nat) (st : RawStore) (op : RawOp) : RawStore × Result :=
  let unset : Result := { err := .unset, value := [], clientId := 0, seq := 0 }
  match op with
  | .client op => st.applyClientOp gid op
  | .config newConfig => (st.applyConfig gid newConfig, unset)
  | .installShard configNum shards shardData dedup =>
    (st.applyInstallShard configNum shards shardData dedup, unset)
  | .deleteShard configNum shards => (st.applyDeleteShard configNum shards, unset)
  | .empty => (st, unset)

end RawStore

/-- The group `gid` with the map and the entries as they are. -/
def rawMachine (gid : Nat) : Machine RawStore RawOp Result where
  init := RawStore.start
  apply := RawStore.apply gid

/-! ### Indices that name a shard -/

/-- The shard that an integer names. -/
def shardOf (i : Int) : Option (Fin NShards) :=
  if h : 0 ≤ i ∧ i.toNat < NShards then some ⟨i.toNat, h.2⟩ else none

theorem shardOf_val (s : Fin NShards) : shardOf (s.val : Int) = some s := by
  have h : 0 ≤ (s.val : Int) ∧ (s.val : Int).toNat < NShards := ⟨Int.natCast_nonneg _, s.isLt⟩
  rw [shardOf, dif_pos h]
  rfl

theorem val_of_shardOf {i : Int} {s : Fin NShards} (h : shardOf i = some s) :
    (s.val : Int) = i := by
  unfold shardOf at h
  split at h
  · next hi =>
    cases h
    exact Int.toNat_of_nonneg hi.1
  · cases h

/-- What an entry of the log comes to. -/
def RawOp.named : RawOp → Op
  | .client op => .client op
  | .config newConfig => .config newConfig
  | .installShard configNum shards shardData dedup =>
    if 0 ≤ configNum then
      .installShard configNum.toNat (shards.filterMap shardOf) (fun s => shardData s.val) dedup
    else .empty
  | .deleteShard configNum shards =>
    if 0 ≤ configNum then .deleteShard configNum.toNat (shards.filterMap shardOf) else .empty
  | .empty => .empty

/-- The map has the shards of `f` and no other keys. -/
def Holds (m : ShardMap) (f : Fin NShards → Option Shard) : Prop :=
  ∀ i, m.lookup i = (shardOf i).bind f

namespace Holds

variable {m : ShardMap} {f : Fin NShards → Option Shard}

theorem lookup (h : Holds m f) (s : Fin NShards) : m.lookup (s.val : Int) = f s := by
  rw [h, shardOf_val, Option.bind_some]

theorem lookup_none (h : Holds m f) {i : Int} (hi : shardOf i = none) : m.lookup i = none := by
  rw [h, hi, Option.bind_none]

theorem insert (h : Holds m f) (s : Fin NShards) (sh : Shard) :
    Holds (m.insert (s.val : Int) sh) (Function.update f s (some sh)) := by
  intro i
  by_cases hi : i = s.val
  · rw [hi, Finmap.lookup_insert, shardOf_val, Option.bind_some, Function.update_self]
  · rw [Finmap.lookup_insert_of_ne _ hi, h]
    cases ht : shardOf i with
    | none => rfl
    | some t =>
      have hne : t ≠ s := fun heq => hi (heq ▸ (val_of_shardOf ht).symm)
      rw [Option.bind_some, Option.bind_some, Function.update_of_ne hne]

theorem erase (h : Holds m f) (s : Fin NShards) :
    Holds (m.erase (s.val : Int)) (Function.update f s none) := by
  intro i
  by_cases hi : i = s.val
  · rw [hi, Finmap.lookup_erase, shardOf_val, Option.bind_some, Function.update_self]
  · rw [Finmap.lookup_erase_ne hi, h]
    cases ht : shardOf i with
    | none => rfl
    | some t =>
      have hne : t ≠ s := fun heq => hi (heq ▸ (val_of_shardOf ht).symm)
      rw [Option.bind_some, Option.bind_some, Function.update_of_ne hne]

/-- A loop over integers that passes over missing keys does what the loop over the
    shards among them does. -/
theorem foldl {raw : ShardMap → Int → ShardMap}
    {one : (Fin NShards → Option Shard) → Fin NShards → Fin NShards → Option Shard}
    (hone : ∀ m f, Holds m f → ∀ s : Fin NShards, Holds (raw m (s.val : Int)) (one f s))
    (hmissing : ∀ m i, m.lookup i = none → raw m i = m) (h : Holds m f) (is : List Int) :
    Holds (is.foldl raw m) ((is.filterMap shardOf).foldl one f) := by
  induction is generalizing m f with
  | nil => exact h
  | cons i is ih =>
    cases hi : shardOf i with
    | none =>
      rw [List.foldl_cons, List.filterMap_cons_none hi, hmissing m i (h.lookup_none hi)]
      exact ih h
    | some s =>
      rw [List.foldl_cons, List.filterMap_cons_some hi, List.foldl_cons, ← val_of_shardOf hi]
      exact ih (hone m f h s)

theorem installOne (h : Holds m f) (shardData : Int → Option ShardData) (s : Fin NShards) :
    Holds (RawStore.installOne shardData m (s.val : Int))
      (ShardStore.installOne (fun s => shardData s.val) f s) := by
  unfold RawStore.installOne ShardStore.installOne
  rw [h.lookup s]
  cases f s with
  | none => exact h
  | some sh =>
    by_cases hstate : sh.state = .pulling
    · simp only [hstate, ne_eq, not_true_eq_false, if_false]
      exact h.insert s _
    · simp only [ne_eq, hstate, not_false_eq_true, if_true]
      exact h

theorem deleteOne (h : Holds m f) (s : Fin NShards) :
    Holds (RawStore.deleteOne m (s.val : Int)) (ShardStore.deleteOne f s) := by
  unfold RawStore.deleteOne ShardStore.deleteOne
  rw [h.lookup s]
  cases f s with
  | none => exact h
  | some sh =>
    dsimp only
    split
    · exact h.insert s _
    · split
      · exact h.erase s
      · exact h

theorem migrateOne (h : Holds m f) (gid : Nat) (old new : Config) (s : Fin NShards) :
    Holds (RawStore.migrateOne gid old new m s)
      (Function.update f s (ShardStore.migrate gid (old.shards s) (new.shards s) (f s))) := by
  unfold RawStore.migrateOne ShardStore.migrate
  rw [h.lookup s]
  dsimp only
  split
  · split
    · cases hs : f s with
      | none =>
        have hsame : Function.update f s none = f := hs ▸ Function.update_eq_self s f
        rw [Option.map_none, hsame]
        exact h
      | some sh => exact h.insert s _
    · rw [Function.update_eq_self]
      exact h
  · split
    · exact h.insert s _
    · exact h.insert s _

/-- After the rounds for the shards in `done`. -/
theorem foldl_migrateOne (h : Holds m f) (gid : Nat) (old new : Config)
    (done : List (Fin NShards)) :
    Holds (done.foldl (RawStore.migrateOne gid old new) m) fun s =>
      if s ∈ done then ShardStore.migrate gid (old.shards s) (new.shards s) (f s) else f s := by
  have hfold : Holds (done.foldl (RawStore.migrateOne gid old new) m)
      (done.foldl (fun f s => Function.update f s
        (ShardStore.migrate gid (old.shards s) (new.shards s) (f s))) f) := by
    induction done generalizing m f with
    | nil => exact h
    | cons s done ih => exact ih (h.migrateOne gid old new s)
  have hidem : ∀ s v, ShardStore.migrate gid (old.shards s) (new.shards s)
      (ShardStore.migrate gid (old.shards s) (new.shards s) v) =
      ShardStore.migrate gid (old.shards s) (new.shards s) v := by
    intro s v
    unfold ShardStore.migrate
    split
    · split
      · cases v <;> rfl
      · rfl
    · split <;> rfl
  rw [← funext (foldl_update_apply hidem done f)]
  exact hfold

end Holds

/-! ### The two models agree -/

/-- The two states are the same but for the form of the map. -/
structure Models (raw : RawStore) (st : ShardStore) : Prop where
  shards : Holds raw.shards st.shards
  dedup : raw.dedup = st.dedup
  config : raw.config = st.config
  prevConfig : raw.prevConfig = st.prevConfig

namespace Models

variable {raw : RawStore} {st : ShardStore}

theorem settled_iff (h : Models raw st) : raw.settled = true ↔ st.settled = true := by
  rw [ShardKV.settled_iff, RawStore.settled, decide_eq_true_eq]
  constructor
  · intro hall s sh hsh
    have hlook := (h.shards.lookup s).trans hsh
    have := hall s.val (Finmap.mem_keys.mpr (Finmap.mem_of_lookup_eq_some hlook))
    rw [hlook] at this
    exact of_decide_eq_true this
  · intro hall i hi
    obtain ⟨sh, hsh⟩ := Finmap.mem_iff.mp (Finmap.mem_keys.mp hi)
    rw [hsh]
    rw [h.shards i] at hsh
    obtain ⟨s, -, hs⟩ := Option.bind_eq_some_iff.mp hsh
    exact decide_eq_true (hall s sh hs)

theorem start : Models RawStore.start ShardStore.start where
  shards i := by
    rw [RawStore.start, Finmap.lookup_empty]
    cases shardOf i <;> rfl
  dedup := rfl
  config := rfl
  prevConfig := rfl

theorem applyClientOp (h : Models raw st) (gid : Nat) (op : ClientOp) :
    Models (raw.applyClientOp gid op).1 (st.applyClientOp gid op).1 ∧
      (raw.applyClientOp gid op).2 = (st.applyClientOp gid op).2 := by
  unfold RawStore.applyClientOp ShardStore.applyClientOp ShardStore.duplicate
  dsimp only
  rw [h.config, h.shards.lookup, h.dedup]
  split
  · exact ⟨h, rfl⟩
  · cases st.shards (key2shard op.key) with
    | none => exact ⟨h, rfl⟩
    | some s =>
      dsimp only
      split
      · exact ⟨h, rfl⟩
      · split
        · cases s.data op.key <;> exact ⟨h, rfl⟩
        · split
          · exact ⟨h, rfl⟩
          · exact ⟨⟨h.shards.insert _ _, rfl, rfl, h.prevConfig⟩, rfl⟩

theorem applyConfig (h : Models raw st) (gid : Nat) (config : Config) :
    Models (raw.applyConfig gid config) (st.applyConfig gid config) := by
  unfold RawStore.applyConfig ShardStore.applyConfig
  rw [h.config]
  have hsettled : raw.settled = st.settled := Bool.eq_iff_iff.mpr h.settled_iff
  rw [hsettled]
  split
  · exact h
  · split
    · exact h
    · refine ⟨?_, h.dedup, rfl, rfl⟩
      have hfold := h.shards.foldl_migrateOne gid st.config config (List.finRange NShards)
      simpa only [List.mem_finRange, if_true] using hfold

theorem applyInstallShard (h : Models raw st) (configNum : Nat) (shards : List Int)
    (shardData : Int → Option ShardData) (dedup : Nat → Option Nat) :
    Models (raw.applyInstallShard configNum shards shardData dedup)
      (st.applyInstallShard configNum (shards.filterMap shardOf)
        (fun s => shardData s.val) dedup) := by
  unfold RawStore.applyInstallShard ShardStore.applyInstallShard
  simp only [h.config, ne_eq, Int.natCast_inj]
  split
  · exact h
  · refine ⟨?_, by rw [h.dedup], rfl, h.prevConfig⟩
    refine h.shards.foldl (fun _ _ h s => h.installOne shardData s) ?_ shards
    intro m i hi
    simp only [RawStore.installOne, hi]

theorem applyDeleteShard (h : Models raw st) (configNum : Nat) (shards : List Int) :
    Models (raw.applyDeleteShard configNum shards)
      (st.applyDeleteShard configNum (shards.filterMap shardOf)) := by
  unfold RawStore.applyDeleteShard ShardStore.applyDeleteShard
  simp only [h.config, ne_eq, Int.natCast_inj]
  split
  · exact h
  · refine ⟨?_, h.dedup, rfl, h.prevConfig⟩
    refine h.shards.foldl (fun _ _ h s => h.deleteOne s) ?_ shards
    intro m i hi
    simp only [RawStore.deleteOne, hi]

/-- One entry. -/
theorem apply (h : Models raw st) (gid : Nat) (op : RawOp) :
    Models (raw.apply gid op).1 (ShardKV.apply gid st op.named).1 ∧
      (raw.apply gid op).2 = (ShardKV.apply gid st op.named).2 := by
  cases op with
  | client op => exact h.applyClientOp gid op
  | config config => exact ⟨h.applyConfig gid config, rfl⟩
  | installShard configNum shards shardData dedup =>
    simp only [RawStore.apply, RawOp.named]
    by_cases hpos : 0 ≤ configNum
    · rw [if_pos hpos]
      obtain ⟨k, rfl⟩ := Int.eq_ofNat_of_zero_le hpos
      exact ⟨h.applyInstallShard k shards shardData dedup, rfl⟩
    · rw [if_neg hpos]
      refine ⟨?_, rfl⟩
      rw [RawStore.applyInstallShard, if_pos (by omega)]
      exact h
  | deleteShard configNum shards =>
    simp only [RawStore.apply, RawOp.named]
    by_cases hpos : 0 ≤ configNum
    · rw [if_pos hpos]
      obtain ⟨k, rfl⟩ := Int.eq_ofNat_of_zero_le hpos
      exact ⟨h.applyDeleteShard k shards, rfl⟩
    · rw [if_neg hpos]
      refine ⟨?_, rfl⟩
      rw [RawStore.applyDeleteShard, if_pos (by omega)]
      exact h
  | empty => exact ⟨h, rfl⟩

end Models

theorem models_run (gid : Nat) (log : List RawOp) :
    Models ((rawMachine gid).run log) ((machine gid).run (log.map RawOp.named)) := by
  induction log using List.reverseRecOn with
  | nil => exact Models.start
  | append_singleton log op ih =>
    rw [List.map_append, List.map_singleton, (rawMachine gid).run_snoc, (machine gid).run_snoc]
    exact (ih.apply gid op).1

/-! ### The representation invariant -/

/-- What holds of the map of the group `gid`, for the two configurations it has. -/
structure MapOk (gid : Nat) (st : RawStore) : Prop where
  owned : ∀ s : Fin NShards, st.config.shards s = gid →
    ∃ sh, st.shards.lookup (s.val : Int) = some sh ∧
      (sh.state = .serving ∨ sh.state = .pulling ∨ sh.state = .gcing)
  bePulling : ∀ (s : Fin NShards) sh, st.shards.lookup (s.val : Int) = some sh →
    sh.state = .bePulling → st.prevConfig.shards s = gid ∧ st.config.shards s ≠ gid
  awaited : ∀ (s : Fin NShards) sh, st.shards.lookup (s.val : Int) = some sh →
    sh.state = .pulling ∨ sh.state = .gcing →
    st.prevConfig.shards s ≠ gid ∧ st.prevConfig.shards s ≠ 0
  foreign : ∀ s : Fin NShards, st.config.shards s ≠ gid →
    (s.val : Int) ∉ st.shards ∨
      ∃ sh, st.shards.lookup (s.val : Int) = some sh ∧ sh.state = .bePulling
  /-- No index out of range is ever a key. -/
  named : ∀ i ∈ st.shards, ∃ s : Fin NShards, i = s.val
  keys : st.settled = true →
    ∀ i, i ∈ st.shards ↔ ∃ s : Fin NShards, i = s.val ∧ st.config.shards s = gid
  num : 0 < st.config.num → st.prevConfig.num + 1 = st.config.num
  /-- In the loop of `applyConfig` a shard that the group owned and keeps is there in
      its round, whichever rounds came before. -/
  kept : ∀ (newConfig : Config) (done : List (Fin NShards)) (s : Fin NShards),
    st.config.shards s = gid → newConfig.shards s = gid →
    (s.val : Int) ∈ done.foldl (RawStore.migrateOne gid st.config newConfig) st.shards

section Invariant

variable {ct : History} {gid : Nat} {raw : RawStore} {st : ShardStore}

theorem LocalOk.exists_of_owned (h : LocalOk ct gid st) {s : Fin NShards}
    (hown : st.config.shards s = gid) : ∃ sh, st.shards s = some sh ∧
      (sh.state = .serving ∨ sh.state = .pulling ∨ sh.state = .gcing) := by
  have hfits := h.shards s
  rw [h.owner_eq] at hown
  cases hsh : st.shards s with
  | none =>
    rw [hsh] at hfits
    exact absurd hown hfits
  | some sh =>
    refine ⟨sh, rfl, ?_⟩
    cases hstate : sh.state with
    | serving => exact .inl rfl
    | pulling => exact .inr (.inl rfl)
    | gcing => exact .inr (.inr rfl)
    | bePulling =>
      rw [hsh] at hfits
      simp only [History.Fits, hstate] at hfits
      exact absurd hown hfits.2.2

theorem LocalOk.bePulling_of_foreign (h : LocalOk ct gid st) {s : Fin NShards} {sh : Shard}
    (hown : st.config.shards s ≠ gid) (hsh : st.shards s = some sh) : sh.state = .bePulling := by
  have hfits := h.fits hsh
  rw [h.owner_eq] at hown
  cases hstate : sh.state with
  | bePulling => rfl
  | serving =>
    simp only [History.Fits, hstate] at hfits
    exact absurd hfits hown
  | pulling =>
    simp only [History.Fits, hstate] at hfits
    exact absurd hfits.2.1 hown
  | gcing =>
    simp only [History.Fits, hstate] at hfits
    exact absurd hfits.2.1 hown

/-- Read off what the group knows by itself. -/
theorem Models.mapOk (h : Models raw st) (hlocal : LocalOk ct gid st) : MapOk gid raw where
  owned s hown := by
    rw [h.config] at hown
    rw [h.shards.lookup]
    exact hlocal.exists_of_owned hown
  bePulling s sh hsh hstate := by
    rw [h.shards.lookup] at hsh
    have hfits := hlocal.fits hsh
    simp only [History.Fits, hstate] at hfits
    rw [h.config, h.prevConfig, hlocal.owner_eq, hlocal.prev_eq]
    exact hfits.2
  awaited s sh hsh hstate := by
    rw [h.shards.lookup] at hsh
    have hfits := hlocal.fits hsh
    rw [h.prevConfig, hlocal.prev_eq]
    rcases hstate with hstate | hstate <;>
      simp only [History.Fits, hstate] at hfits <;> exact hfits.2.2
  foreign s hown := by
    rw [h.config] at hown
    rw [← Finmap.lookup_eq_none, h.shards.lookup]
    cases hsh : st.shards s with
    | none => exact .inl rfl
    | some sh => exact .inr ⟨sh, rfl, hlocal.bePulling_of_foreign hown hsh⟩
  named i hi := by
    obtain ⟨sh, hsh⟩ := Finmap.mem_iff.mp hi
    rw [h.shards i] at hsh
    obtain ⟨s, hs, -⟩ := Option.bind_eq_some_iff.mp hsh
    exact ⟨s, (val_of_shardOf hs).symm⟩
  keys hsettled i := by
    have hserving := ShardKV.settled_iff.mp (h.settled_iff.mp hsettled)
    constructor
    · intro hi
      obtain ⟨sh, hsh⟩ := Finmap.mem_iff.mp hi
      rw [h.shards i] at hsh
      obtain ⟨s, hs, hsh⟩ := Option.bind_eq_some_iff.mp hsh
      refine ⟨s, (val_of_shardOf hs).symm, ?_⟩
      rw [h.config, hlocal.owner_eq]
      exact hlocal.owned hsh (hserving s sh hsh)
    · rintro ⟨s, rfl, hown⟩
      rw [h.config] at hown
      obtain ⟨sh, hsh, -⟩ := hlocal.exists_of_owned hown
      exact Finmap.mem_of_lookup_eq_some ((h.shards.lookup s).trans hsh)
  num hpos := by
    rw [h.config] at hpos ⊢
    rw [h.prevConfig, hlocal.prev]
    exact Nat.sub_add_cancel hpos
  kept newConfig done s hold hnew := by
    rw [h.config] at hold ⊢
    obtain ⟨sh, hsh, -⟩ := hlocal.exists_of_owned hold
    have hlook := (h.shards.foldl_migrateOne gid st.config newConfig done).lookup s
    rw [← Finmap.lookup_isSome, hlook]
    split
    · simp [ShardStore.migrate, hold, hnew]
    · rw [hsh]
      rfl

end Invariant

/-- A `Config` entry is one of the controller's. -/
def RawOp.Genuine (ct : History) (op : RawOp) : Prop :=
  ∀ config, op = .config config → config = ct.config config.num

theorem RawOp.Genuine.named {ct : History} {op : RawOp} (h : op.Genuine ct) :
    op.named.Genuine ct := by
  intro config heq
  cases op with
  | client op => cases heq
  | config newConfig =>
    cases heq
    exact h config rfl
  | installShard configNum shards shardData dedup =>
    simp only [RawOp.named] at heq
    split at heq <;> cases heq
  | deleteShard configNum shards =>
    simp only [RawOp.named] at heq
    split at heq <;> cases heq
  | empty => cases heq

/-- Whatever is in the log beside the controller's configurations, the map of a group
    keeps its invariant. -/
theorem shard_map_invariant (ct : History) {gid : Nat} (hgid : gid ≠ 0) (log : List RawOp)
    (hlog : ∀ op ∈ log, op.Genuine ct) : MapOk gid ((rawMachine gid).run log) := by
  have hgenuine : ∀ op ∈ log.map RawOp.named, op.Genuine ct := by
    intro op hop
    obtain ⟨rawOp, hmem, rfl⟩ := List.mem_map.mp hop
    exact (hlog rawOp hmem).named
  exact (models_run gid log).mapOk (localOk_run hgid hgenuine)

/-- All shards belong to group 1 in configuration 1, to group 2 from then on. -/
def moved : History where
  owner n _ := if n = 0 then 0 else if n = 1 then 1 else 2
  groups n gid := if n = 0 then [] else [[UInt8.ofNat gid]]
  unassigned _ := rfl
  ungrouped _ := rfl

/-- A log of group 1 with indices out of range, a stale number and a configuration
    that comes twice; the last entry deletes shard 4. -/
def movedLog : List RawOp :=
  [.installShard (-3) [-1, 12, 0] (fun _ => none) (fun _ => none), .config (moved.config 1),
    .config (moved.config 1),
    .client { type := .put, key := [52], value := [1], clientId := 7, seq := 1 },
    .deleteShard 1 [0, 55], .config (moved.config 2),
    .installShard 2 [3] (fun _ => some fun _ => none) (fun _ => some 9),
    .deleteShard 1 [5], .deleteShard 2 [4, -4, 4]]

theorem shard_map_invariant_moved :
    (∀ op ∈ movedLog, op.Genuine moved) ∧ MapOk 1 ((rawMachine 1).run movedLog) ∧
      ((rawMachine 1).run movedLog).config.num = 2 ∧
      (4 : Int) ∉ ((rawMachine 1).run movedLog).shards ∧
      (((rawMachine 1).run movedLog).shards.lookup 5).map Shard.state = some .bePulling := by
  have hgenuine : ∀ op ∈ movedLog, op.Genuine moved := by
    intro op hop config heq
    subst heq
    simp only [movedLog, List.mem_cons, List.not_mem_nil, reduceCtorEq, RawOp.config.injEq,
      or_false, false_or] at hop
    rcases hop with rfl | rfl | rfl <;> rfl
  refine ⟨hgenuine, shard_map_invariant moved (by decide) movedLog hgenuine, ?_, ?_, ?_⟩
  · decide +kernel
  · rw [← Finmap.lookup_eq_none, ← Option.isNone_iff_eq_none]
    decide +kernel
  · decide +kernel

end RaftLabs.ShardKV
