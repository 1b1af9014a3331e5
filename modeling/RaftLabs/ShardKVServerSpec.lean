import RaftLabs.ShardKVServer

/-!
# What a command does to a group

One relation says what a command of the log can do to the state of a group; the
facts below are read off it.  `LocalOk` is what a group knows by itself: which
state a shard can be in, given the owners of two successive configurations.
-/

namespace RaftLabs.ShardKV

open ReplicatedService

variable {ct : History} {gid n : Nat} {st st' : ShardStore} {op : Op}

/-! ### The loops -/

/-- A loop that rewrites the entry of each key it visits, where a second visit
    changes nothing. -/
theorem foldl_update_apply {κ β : Type} [DecidableEq κ] {f : κ → β → β}
    (hidem : ∀ k v, f k (f k v) = f k v) (keys : List κ) (m : κ → β) (s : κ) :
    keys.foldl (fun m k => Function.update m k (f k (m k))) m s =
      if s ∈ keys then f s (m s) else m s := by
  induction keys generalizing m with
  | nil => simp
  | cons k keys ih =>
    rw [List.foldl_cons, ih]
    by_cases hk : s = k
    · subst hk
      simp [hidem]
    · simp [hk]

/-- What `applyInstallShard` makes of a shard in its list. -/
def takeIn (data : Option ShardData) : Option Shard → Option Shard
  | none => none
  | some s =>
    if s.state ≠ .pulling then some s
    else some { data := data.getD fun _ => none, state := .gcing }

/-- What `applyDeleteShard` makes of a shard in its list. -/
def letGo : Option Shard → Option Shard
  | none => none
  | some s =>
    if s.state = .gcing then some { s with state := .serving }
    else if s.state = .bePulling then none
    else some s

theorem foldl_installOne (shardData : Fin NShards → Option ShardData)
    (shards : List (Fin NShards)) (m : Fin NShards → Option Shard) (s : Fin NShards) :
    shards.foldl (ShardStore.installOne shardData) m s =
      if s ∈ shards then takeIn (shardData s) (m s) else m s := by
  have hone : ShardStore.installOne shardData =
      fun m k => Function.update m k (takeIn (shardData k) (m k)) := by
    funext m k
    unfold ShardStore.installOne takeIn
    cases hm : m k with
    | none => simp [← hm]
    | some sh => by_cases hst : sh.state = .pulling <;> simp [hst, ← hm]
  rw [hone]
  refine foldl_update_apply (f := fun k v => takeIn (shardData k) v) ?_ shards m s
  intro k v
  cases v with
  | none => rfl
  | some sh => by_cases hst : sh.state = .pulling <;> simp [takeIn, hst]

theorem foldl_deleteOne (shards : List (Fin NShards)) (m : Fin NShards → Option Shard)
    (s : Fin NShards) :
    shards.foldl ShardStore.deleteOne m s = if s ∈ shards then letGo (m s) else m s := by
  have hone : ShardStore.deleteOne = fun m k => Function.update m k (letGo (m k)) := by
    funext m k
    unfold ShardStore.deleteOne letGo
    cases hm : m k with
    | none => simp [← hm]
    | some sh => cases hst : sh.state <;> simp [hst, ← hm]
  rw [hone]
  refine foldl_update_apply (f := fun _ v => letGo v) ?_ shards m s
  intro k v
  cases v with
  | none => rfl
  | some sh => cases hst : sh.state <;> simp [letGo, hst]

/-! ### Commands -/

theorem settled_iff : st.settled = true ↔
    ∀ s sh, st.shards s = some sh → sh.state = .serving := by
  simp only [ShardStore.settled, List.all_eq_true, List.mem_finRange, forall_const]
  constructor
  · intro h s sh hsh
    simpa [hsh] using h s
  · intro h s
    cases hsh : st.shards s with
    | none => rfl
    | some sh => simpa using h s sh hsh

theorem canServe_iff {s : Fin NShards} : st.canServe gid s = true ↔
    st.config.shards s = gid ∧ ∃ sh, st.shards s = some sh ∧ sh.state = .serving := by
  unfold ShardStore.canServe
  by_cases hown : st.config.shards s = gid
  · simp only [hown, ne_eq, not_true_eq_false, if_false, true_and]
    cases st.shards s <;> simp
  · simp [hown]

/-- What a command can do to the state of the group `gid`. -/
inductive Applies (gid : Nat) (st : ShardStore) : Op → ShardStore → Prop where
  | same (op : Op) : Applies gid st op st
  | wrote (op : ClientOp) (sh : Shard)
      (owns : st.config.shards (key2shard op.key) = gid)
      (has : st.shards (key2shard op.key) = some sh) (serving : sh.state = .serving)
      (mutates : op.type ≠ .get) (fresh : st.duplicate op = false) :
      Applies gid st (.client op)
        { st with
          shards := Function.update st.shards (key2shard op.key)
            (some { sh with data := ShardStore.write sh.data op })
          dedup := Function.update st.dedup op.clientId (some op.seq) }
  | adopted (config : Config) (next : config.num = st.config.num + 1)
      (settled : st.settled = true) :
      Applies gid st (.config config)
        { st with
          prevConfig := st.config
          config := config
          shards := fun s => ShardStore.migrate gid (st.config.shards s) (config.shards s)
            (st.shards s) }
  | installed (shards : List (Fin NShards)) (shardData : Fin NShards → Option ShardData)
      (dedup : Nat → Option Nat) :
      Applies gid st (.installShard st.config.num shards shardData dedup)
        { st with
          shards := fun s => if s ∈ shards then takeIn (shardData s) (st.shards s) else st.shards s
          dedup := ShardStore.mergeDedup st.dedup dedup }
  | deleted (shards : List (Fin NShards)) :
      Applies gid st (.deleteShard st.config.num shards)
        { st with shards := fun s => if s ∈ shards then letGo (st.shards s) else st.shards s }

theorem applies (gid : Nat) (st : ShardStore) (op : Op) :
    Applies gid st op (apply gid st op).1 := by
  cases op with
  | client op =>
    simp only [apply, ShardStore.applyClientOp]
    split
    · exact .same _
    · next howns =>
      split
      · exact .same _
      · next sh hsh =>
        split
        · exact .same _
        · next hserving =>
          split
          · split <;> exact .same _
          · next hmut =>
            split
            · exact .same _
            · next hfresh =>
              exact .wrote op sh (not_not.mp howns) hsh (not_not.mp hserving) hmut
                (Bool.not_eq_true _ ▸ hfresh)
  | config config =>
    simp only [apply, ShardStore.applyConfig]
    split
    · exact .same _
    · next hnum =>
      split
      · exact .same _
      · next hset => exact .adopted config (not_not.mp hnum) (by simpa using hset)
  | installShard configNum shards shardData dedup =>
    simp only [apply, ShardStore.applyInstallShard]
    split
    · exact .same _
    · next hnum =>
      rw [not_not.mp hnum, funext (foldl_installOne shardData shards st.shards)]
      exact .installed shards shardData dedup
  | deleteShard configNum shards =>
    simp only [apply, ShardStore.applyDeleteShard]
    split
    · exact .same _
    · next hnum =>
      rw [not_not.mp hnum, funext (foldl_deleteOne shards st.shards)]
      exact .deleted shards
  | empty => exact .same _

/-- What a command can do to one shard, and to the configuration number. -/
inductive Evolves (gid : Nat) (st : ShardStore) (op : Op) (s : Fin NShards) :
    Nat → Option Shard → Prop where
  | same : Evolves gid st op s st.config.num (st.shards s)
  | wrote (cop : ClientOp) (sh : Shard) (eq : op = .client cop) (key : key2shard cop.key = s)
      (owns : st.config.shards s = gid) (has : st.shards s = some sh)
      (serving : sh.state = .serving) (mutates : cop.type ≠ .get)
      (fresh : st.duplicate cop = false) :
      Evolves gid st op s st.config.num (some { sh with data := ShardStore.write sh.data cop })
  | migrated (config : Config) (eq : op = .config config)
      (next : config.num = st.config.num + 1) (settled : st.settled = true) :
      Evolves gid st op s config.num
        (ShardStore.migrate gid (st.config.shards s) (config.shards s) (st.shards s))
  | installed (shards : List (Fin NShards)) (shardData : Fin NShards → Option ShardData)
      (dedup : Nat → Option Nat) (sh : Shard)
      (eq : op = .installShard st.config.num shards shardData dedup) (mem : s ∈ shards)
      (has : st.shards s = some sh) (pulling : sh.state = .pulling) :
      Evolves gid st op s st.config.num
        (some { data := (shardData s).getD fun _ => none, state := .gcing })
  | confirmed (shards : List (Fin NShards)) (sh : Shard)
      (eq : op = .deleteShard st.config.num shards) (mem : s ∈ shards)
      (has : st.shards s = some sh) (gcing : sh.state = .gcing) :
      Evolves gid st op s st.config.num (some { sh with state := .serving })
  | removed (shards : List (Fin NShards)) (sh : Shard)
      (eq : op = .deleteShard st.config.num shards) (mem : s ∈ shards)
      (has : st.shards s = some sh) (bePulling : sh.state = .bePulling) :
      Evolves gid st op s st.config.num none

theorem Applies.evolves (h : Applies gid st op st') (s : Fin NShards) :
    Evolves gid st op s st'.config.num (st'.shards s) := by
  cases h with
  | same => exact .same
  | wrote cop sh owns has serving mutates fresh =>
    by_cases hs : s = key2shard cop.key
    · subst hs
      simp only [Function.update_self]
      exact .wrote cop sh rfl rfl owns has serving mutates fresh
    · simp only [Function.update_of_ne hs]
      exact .same
  | adopted config next settled => exact .migrated config rfl next settled
  | installed shards shardData dedup =>
    dsimp only
    split
    · next hmem =>
      cases has : st.shards s with
      | none =>
        rw [takeIn, ← has]
        exact .same
      | some sh =>
        by_cases pulling : sh.state = .pulling
        · simp only [takeIn, pulling, ne_eq, not_true_eq_false, if_false]
          exact .installed shards shardData dedup sh rfl hmem has pulling
        · simp only [takeIn, if_pos pulling, ← has]
          exact .same
    · exact .same
  | deleted shards =>
    dsimp only
    split
    · next hmem =>
      cases has : st.shards s with
      | none =>
        rw [letGo, ← has]
        exact .same
      | some sh =>
        cases hstate : sh.state with
        | gcing =>
          simp only [letGo, hstate, if_true]
          exact .confirmed shards sh rfl hmem has hstate
        | bePulling =>
          simp only [letGo, hstate, reduceCtorEq, if_true, if_false]
          exact .removed shards sh rfl hmem has hstate
        | serving =>
          simp only [letGo, hstate, reduceCtorEq, if_false, ← has]
          exact .same
        | pulling =>
          simp only [letGo, hstate, reduceCtorEq, if_false, ← has]
          exact .same
    · exact .same

/-! ### Configuration numbers and the table of clients -/

theorem Applies.num_le (h : Applies gid st op st') : st.config.num ≤ st'.config.num := by
  cases h with
  | same => exact le_rfl
  | wrote => exact le_rfl
  | adopted config next settled => exact next ▸ Nat.le_succ _
  | installed => exact le_rfl
  | deleted => exact le_rfl

theorem Applies.num_le_succ (h : Applies gid st op st') :
    st'.config.num ≤ st.config.num + 1 := by
  cases h with
  | same => exact Nat.le_succ _
  | wrote => exact Nat.le_succ _
  | adopted config next settled => exact next.le
  | installed => exact Nat.le_succ _
  | deleted => exact Nat.le_succ _

/-- The second table knows of at least as many mutations as the first. -/
def DedupLe (d d' : Nat → Option Nat) : Prop :=
  ∀ c last, d c = some last → ∃ last', d' c = some last' ∧ last ≤ last'

theorem DedupLe.refl (d : Nat → Option Nat) : DedupLe d d := fun _ last h => ⟨last, h, le_rfl⟩

theorem DedupLe.trans {d d' d'' : Nat → Option Nat} (h : DedupLe d d') (h' : DedupLe d' d'') :
    DedupLe d d'' := by
  intro c last hlast
  obtain ⟨last', hlast', hle⟩ := h c last hlast
  obtain ⟨last'', hlast'', hle'⟩ := h' c last' hlast'
  exact ⟨last'', hlast'', hle.trans hle'⟩

theorem DedupLe.known {d d' : Nat → Option Nat} (h : DedupLe d d') {c seq : Nat}
    (hd : ∃ last, d c = some last ∧ seq ≤ last) : ∃ last, d' c = some last ∧ seq ≤ last := by
  obtain ⟨last, hlast, hle⟩ := hd
  obtain ⟨last', hlast', hle'⟩ := h c last hlast
  exact ⟨last', hlast', hle.trans hle'⟩

theorem dedupLe_merge_left (cur new : Nat → Option Nat) :
    DedupLe cur (ShardStore.mergeDedup cur new) := by
  intro c last hlast
  simp only [ShardStore.mergeDedup, hlast]
  cases new c with
  | none => exact ⟨last, rfl, le_rfl⟩
  | some seq =>
    by_cases hlt : last < seq
    · exact ⟨seq, if_pos hlt, hlt.le⟩
    · exact ⟨last, if_neg hlt, le_rfl⟩

theorem dedupLe_merge_right (cur new : Nat → Option Nat) :
    DedupLe new (ShardStore.mergeDedup cur new) := by
  intro c last hlast
  simp only [ShardStore.mergeDedup, hlast]
  cases cur c with
  | none => exact ⟨last, rfl, le_rfl⟩
  | some seq =>
    by_cases hlt : seq < last
    · exact ⟨last, if_pos hlt, le_rfl⟩
    · exact ⟨seq, if_neg hlt, Nat.le_of_not_lt hlt⟩

/-- Whatever the merged table says comes from one of the two. -/
theorem mergeDedup_cases {cur new : Nat → Option Nat} {c last : Nat}
    (h : ShardStore.mergeDedup cur new c = some last) : cur c = some last ∨ new c = some last := by
  simp only [ShardStore.mergeDedup] at h
  split at h
  · exact .inl h
  · next hnew =>
    split at h
    · exact .inr (hnew.trans h)
    · next hcur =>
      split at h
      · exact .inr (hnew.trans h)
      · exact .inl (hcur.trans h)

theorem duplicate_iff {op : ClientOp} : st.duplicate op = true ↔
    ∃ last, st.dedup op.clientId = some last ∧ op.seq ≤ last := by
  unfold ShardStore.duplicate
  cases st.dedup op.clientId <;> simp

theorem dedup_installShard (gid : Nat) (st : ShardStore) (shards : List (Fin NShards))
    (shardData : Fin NShards → Option ShardData) (dedup : Nat → Option Nat) :
    (ShardKV.apply gid st (.installShard st.config.num shards shardData dedup)).1.dedup =
      ShardStore.mergeDedup st.dedup dedup := by
  simp [ShardKV.apply, ShardStore.applyInstallShard]

theorem Applies.dedup_le (h : Applies gid st op st') : DedupLe st.dedup st'.dedup := by
  cases h with
  | same => exact DedupLe.refl _
  | wrote op sh owns has serving mutates fresh =>
    intro c last hlast
    by_cases hc : c = op.clientId
    · subst hc
      refine ⟨op.seq, Function.update_self .., ?_⟩
      by_contra hlt
      have := duplicate_iff.mpr ⟨last, hlast, Nat.le_of_not_le hlt⟩
      rw [fresh] at this
      cases this
    · exact ⟨last, (Function.update_of_ne hc ..).trans hlast, le_rfl⟩
  | adopted => exact DedupLe.refl _
  | installed shards shardData dedup => exact dedupLe_merge_left _ _
  | deleted => exact DedupLe.refl _

/-! ### What a group knows by itself -/

/-- The state a shard can be in at configuration `n` of the group `gid`. -/
def History.Fits (ct : History) (gid n : Nat) (s : Fin NShards) : Option Shard → Prop
  | none => ct.owner n s ≠ gid
  | some sh =>
    match sh.state with
    | .serving => ct.owner n s = gid
    | .bePulling => 0 < n ∧ ct.owner (n - 1) s = gid ∧ ct.owner n s ≠ gid
    | .pulling => 0 < n ∧ ct.owner n s = gid ∧ ct.owner (n - 1) s ≠ gid ∧ ct.owner (n - 1) s ≠ 0
    | .gcing => 0 < n ∧ ct.owner n s = gid ∧ ct.owner (n - 1) s ≠ gid ∧ ct.owner (n - 1) s ≠ 0

structure LocalOk (ct : History) (gid : Nat) (st : ShardStore) : Prop where
  config : st.config = ct.config st.config.num
  prev : st.prevConfig = ct.config (st.config.num - 1)
  shards : ∀ s, ct.Fits gid st.config.num s (st.shards s)

/-- A configuration in the log is one of the controller's. -/
def Op.Genuine (ct : History) (op : Op) : Prop :=
  ∀ config, op = .config config → config = ct.config config.num

/-- What happens to a shard when a settled group goes from configuration `n` to the
    next one. -/
inductive Migrates (ct : History) (gid n : Nat) (s : Fin NShards) :
    Option Shard → Option Shard → Prop where
  | stays (sh : Shard) (serving : sh.state = .serving) (old : ct.owner n s = gid)
      (new : ct.owner (n + 1) s = gid) : Migrates ct gid n s (some sh) (some sh)
  | leaves (sh : Shard) (serving : sh.state = .serving) (old : ct.owner n s = gid)
      (new : ct.owner (n + 1) s ≠ gid) :
      Migrates ct gid n s (some sh) (some { sh with state := .bePulling })
  | absent (old : ct.owner n s ≠ gid) (new : ct.owner (n + 1) s ≠ gid) :
      Migrates ct gid n s none none
  | created (old : ct.owner n s = 0) (new : ct.owner (n + 1) s = gid) :
      Migrates ct gid n s none (some newShard)
  | awaited (old : ct.owner n s ≠ 0) (other : ct.owner n s ≠ gid)
      (new : ct.owner (n + 1) s = gid) :
      Migrates ct gid n s none (some { data := fun _ => none, state := .pulling })

theorem LocalOk.start (hgid : gid ≠ 0) : LocalOk ct gid ShardStore.start where
  config := ct.config_zero.symm
  prev := ct.config_zero.symm
  shards s := by
    change ct.owner 0 s ≠ gid
    rw [ct.unassigned]
    exact hgid.symm

namespace LocalOk

theorem owner_eq (h : LocalOk ct gid st) (s : Fin NShards) :
    st.config.shards s = ct.owner st.config.num s := by
  rw [h.config]
  rfl

theorem prev_eq (h : LocalOk ct gid st) (s : Fin NShards) :
    st.prevConfig.shards s = ct.owner (st.config.num - 1) s := by
  rw [h.prev]
  rfl

theorem prevGroups_eq (h : LocalOk ct gid st) (old : Nat) :
    st.prevConfig.groups old = ct.groups (st.config.num - 1) old := by
  rw [h.prev]
  rfl

theorem fits (h : LocalOk ct gid st) {s : Fin NShards} {sh : Shard}
    (hsh : st.shards s = some sh) : ct.Fits gid st.config.num s (some sh) :=
  hsh ▸ h.shards s

theorem owned (h : LocalOk ct gid st) {s : Fin NShards} {sh : Shard}
    (hsh : st.shards s = some sh) (hserving : sh.state = .serving) :
    ct.owner st.config.num s = gid := by
  have := h.fits hsh
  simpa only [History.Fits, hserving] using this

/-- In a settled group the shards that are there are those it owns. -/
theorem migrates (h : LocalOk ct gid st) (settled : st.settled = true) (s : Fin NShards) :
    Migrates ct gid st.config.num s (st.shards s)
      (ShardStore.migrate gid (ct.owner st.config.num s) (ct.owner (st.config.num + 1) s)
        (st.shards s)) := by
  cases hsh : st.shards s with
  | none =>
    have hold : ct.owner st.config.num s ≠ gid := by
      have := h.shards s
      rwa [hsh] at this
    by_cases hnew : ct.owner (st.config.num + 1) s = gid
    · by_cases hzero : ct.owner st.config.num s = 0
      · simp only [ShardStore.migrate, hnew, hzero, or_true, if_true, ne_eq, not_true_eq_false,
          if_false]
        exact .created hzero hnew
      · simp only [ShardStore.migrate, hnew, hold, hzero, or_self, ne_eq, not_true_eq_false,
          if_false]
        exact .awaited hzero hold hnew
    · simp only [ShardStore.migrate, hnew, hold, ne_eq, not_false_eq_true, if_true, if_false]
      exact .absent hold hnew
  | some sh =>
    have hserving := settled_iff.mp settled s sh hsh
    have hold := h.owned hsh hserving
    by_cases hnew : ct.owner (st.config.num + 1) s = gid
    · have heq : ({ sh with state := .serving } : Shard) = sh := by
        rw [← hserving]
      simp only [ShardStore.migrate, hnew, hold, true_or, if_true, ne_eq, not_true_eq_false,
        if_false, Option.getD_some, heq]
      exact .stays sh hserving hold hnew
    · simp only [ShardStore.migrate, hnew, hold, ne_eq, not_false_eq_true, if_true,
        Option.map_some]
      exact .leaves sh hserving hold hnew

/-- The same for the configuration that an entry brings. -/
theorem adopted_migrates (h : LocalOk ct gid st) {config : Config}
    (hop : (Op.config config).Genuine ct) (next : config.num = st.config.num + 1)
    (settled : st.settled = true) (s : Fin NShards) :
    Migrates ct gid st.config.num s (st.shards s)
      (ShardStore.migrate gid (st.config.shards s) (config.shards s) (st.shards s)) := by
  have hconfig : config = ct.config (st.config.num + 1) := next ▸ hop config rfl
  rw [hconfig, h.owner_eq]
  exact h.migrates settled s

/-- What becomes of a shard fits the configuration that the group then has. -/
theorem fits_evolves (h : LocalOk ct gid st) (hop : op.Genuine ct) {s : Fin NShards} {num : Nat}
    {new : Option Shard} (hev : Evolves gid st op s num new) : ct.Fits gid num s new := by
  cases hev with
  | same => exact h.shards s
  | wrote cop sh eq key owns has serving =>
    simpa only [History.Fits, serving] using h.fits has
  | migrated config eq next settled =>
    subst eq
    have hmigrates := h.adopted_migrates hop next settled s
    rw [next]
    revert hmigrates
    generalize st.shards s = old
    generalize ShardStore.migrate gid _ _ old = new
    intro hmigrates
    cases hmigrates with
    | stays sh hserving hold hnew => simpa only [History.Fits, hserving] using hnew
    | leaves sh hserving hold hnew => exact ⟨Nat.succ_pos _, hold, hnew⟩
    | absent hold hnew => exact hnew
    | created hold hnew => exact hnew
    | awaited hold hold' hnew => exact ⟨Nat.succ_pos _, hnew, hold', hold⟩
  | installed shards shardData dedup sh eq mem has pulling =>
    simpa only [History.Fits, pulling] using h.fits has
  | confirmed shards sh eq mem has gcing =>
    have hfits := h.fits has
    simp only [History.Fits, gcing] at hfits
    exact hfits.2.1
  | removed shards sh eq mem has bePulling =>
    have hfits := h.fits has
    simp only [History.Fits, bePulling] at hfits
    exact hfits.2.2

theorem apply (h : LocalOk ct gid st) (hop : op.Genuine ct) (happ : Applies gid st op st') :
    LocalOk ct gid st' := by
  have hshards := fun s => h.fits_evolves hop (happ.evolves s)
  cases happ with
  | same => exact h
  | wrote => exact { config := h.config, prev := h.prev, shards := hshards }
  | adopted config next settled =>
    have hconfig : config = ct.config (st.config.num + 1) := next ▸ hop config rfl
    subst hconfig
    exact { config := rfl, prev := h.config, shards := hshards }
  | installed => exact { config := h.config, prev := h.prev, shards := hshards }
  | deleted => exact { config := h.config, prev := h.prev, shards := hshards }

end LocalOk

end RaftLabs.ShardKV
