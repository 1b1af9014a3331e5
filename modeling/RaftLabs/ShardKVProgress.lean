import RaftLabs.ServiceProgress
import RaftLabs.ShardKVDeletion

/-!
# Groups that can go on

As long as shards go from group to group, every group can always get to the latest
configuration: the groups that are behind adopt the next one, whoever waits for a
shard pulls it from the group that had it and has the old copy deleted, and after
that nobody waits for anything.

That all this can be done is shown step by step, from any state of a run in which
deletions are confirmed rightly.
-/

namespace RaftLabs.ShardKV

open ReplicatedService

variable {ν : Type} {ct : History} {N : Nat} {g n : Nat} {s : Fin NShards}

/-! ### What stays true of a group -/

theorem Serves.apply {st st' : ShardStore} {op : Op} (h : Serves st n s)
    (happ : Applies g st op st') : Serves st' n s := by
  rcases h with hlt | ⟨hnum, sh, hsh, hserving⟩
  · exact .inl (lt_of_lt_of_le hlt happ.num_le)
  · have hev := happ.evolves s
    unfold Serves
    revert hev
    generalize st'.config.num = num
    generalize st'.shards s = new
    intro hev
    cases hev with
    | same => exact .inr ⟨hnum, sh, hsh, hserving⟩
    | wrote cop sh' eq key owns has serving => exact .inr ⟨hnum, _, rfl, serving⟩
    | migrated config eq next => exact .inl (by omega)
    | installed shards shardData dedup sh' eq mem has pulling =>
      rw [hsh] at has
      cases has
      rw [hserving] at pulling
      cases pulling
    | confirmed => exact .inr ⟨hnum, _, rfl, rfl⟩
    | removed shards sh' eq mem has bePulling =>
      rw [hsh] at has
      cases has
      rw [hserving] at bePulling
      cases bePulling

theorem Serves.of_isPrefix {log log' : List Op} (h : Serves ((machine g).run log) n s)
    (hlog : log <+: log') : Serves ((machine g).run log') n s :=
  (machine g).run_of_isPrefix (fun st op h => Serves.apply h (applies g st op)) hlog h

/-- The group is settled in configuration `n`, or has gone beyond it. -/
def Calm (st : ShardStore) (n : Nat) : Prop :=
  n < st.config.num ∨ st.config.num = n ∧ st.settled = true

theorem Calm.apply {st st' : ShardStore} {op : Op} (h : Calm st n)
    (happ : Applies g st op st') : Calm st' n := by
  rcases h with hlt | ⟨hnum, hsettled⟩
  · exact .inl (lt_of_lt_of_le hlt happ.num_le)
  · rcases Nat.lt_or_eq_of_le happ.num_le with hlt | heq
    · exact .inl (hnum ▸ hlt)
    · refine .inr ⟨heq.symm.trans hnum, settled_iff.mpr fun s sh' hsh' => ?_⟩
      cases hsh : st.shards s with
      | some sh =>
        have hserves : Serves st n s := .inr ⟨hnum, sh, hsh, settled_iff.mp hsettled s sh hsh⟩
        rcases hserves.apply happ with hlt | ⟨-, sh'', hsh'', hserving⟩
        · omega
        · rw [hsh'] at hsh''
          cases hsh''
          exact hserving
      | none =>
        -- only a new configuration brings a shard
        have hev := happ.evolves s
        rw [hsh', ← heq] at hev
        generalize hnum' : st.config.num = num at hev
        generalize hnew : some sh' = new at hev
        cases hev with
        | same => rw [hsh] at hnew; cases hnew
        | wrote _ _ _ _ _ has => rw [hsh] at has; cases has
        | migrated config eq next => omega
        | installed _ _ _ _ _ _ has => rw [hsh] at has; cases has
        | confirmed _ _ _ _ has => rw [hsh] at has; cases has
        | removed => cases hnew

theorem Calm.of_isPrefix {log log' : List Op} (h : Calm ((machine g).run log) n)
    (hlog : log <+: log') : Calm ((machine g).run log') n :=
  (machine g).run_of_isPrefix (fun st op h => Calm.apply h (applies g st op)) hlog h

/-! ### What the commands of a hand-over do -/

theorem applyConfig_num {st : ShardStore} (hsettled : st.settled = true) {config : Config}
    (hnext : config.num = st.config.num + 1) :
    (apply g st (.config config)).1.config.num = st.config.num + 1 := by
  simp [ShardKV.apply, ShardStore.applyConfig, hsettled, hnext]

theorem applyInstallShard_gcing {st : ShardStore} {sh : Shard} (hsh : st.shards s = some sh)
    (hpulling : sh.state = .pulling) {shards : List (Fin NShards)} (hs : s ∈ shards)
    (shardData : Fin NShards → Option ShardData) (dedup : Nat → Option Nat) :
    (apply g st (.installShard st.config.num shards shardData dedup)).1.config.num =
        st.config.num ∧
      ∃ sh', (apply g st (.installShard st.config.num shards shardData dedup)).1.shards s =
        some sh' ∧ sh'.state = .gcing := by
  simp [ShardKV.apply, ShardStore.applyInstallShard, foldl_installOne, hs, hsh, takeIn, hpulling]

theorem applyDeleteShard_serving {st : ShardStore} {sh : Shard} (hsh : st.shards s = some sh)
    (hgcing : sh.state = .gcing) {shards : List (Fin NShards)} (hs : s ∈ shards) :
    Serves (apply g st (.deleteShard st.config.num shards)).1 st.config.num s := by
  refine .inr ?_
  simp [ShardKV.apply, ShardStore.applyDeleteShard, foldl_deleteOne, hs, hsh, letGo, hgcing]

/-! ### Steps that can be taken -/

/-- A server of the group is reached under one of the names. -/
def Reached (makeEnd : MakeEnd ν) (gid : Nat) (names : List Str) : Prop :=
  ∃ name ∈ names, (makeEnd gid name).isSome = true

instance (makeEnd : MakeEnd ν) (gid : Nat) (names : List Str) :
    Decidable (Reached makeEnd gid names) :=
  inferInstanceAs (Decidable (∃ name ∈ names, _))

/-- Handlers are sent results of their own deletions, and only configurations below `N`
    are handed out. -/
def Regular (N : Nat) (c : ShardSystem ν) (act : ShardAction ν) : Prop :=
  OwnDeletions c act ∧ ∀ g k index caller num, act = .group g (.adopt k index) →
    c.packets[k]? = some (.query caller num) → num < N

variable {makeEnd : MakeEnd ν} {c c' : ShardSystem ν}

theorem ownDeletions_of_owned {m : Move ν} (h : (c.groups g).Owned m) :
    OwnDeletions c (.group g (.move m)) := by
  cases m with
  | apply i compact =>
    unfold OwnDeletions ownDeletion
    dsimp only
    split
    · next op ch hop hch =>
      cases hhd : (c.groups g).handlers[ch]? with
      | none => rfl
      | some hd =>
        rw [Option.all_some, decide_eq_true_eq, h op ch hd hop hch hhd]
        exact .inr rfl
    · rfl
  | _ => rfl

/-- Only adoption depends on how many configurations there are. -/
theorem regular_of_ne {act : GroupAction ν} (hown : OwnDeletions c (.group g act))
    (hne : ∀ k index, act ≠ .adopt k index) : Regular N c (.group g act) := by
  refine ⟨hown, fun g' k index caller num heq => ?_⟩
  cases heq
  exact absurd rfl (hne k index)

variable [DecidableEq ν]

theorem Regular.reachable (hc : (shardSystem ct makeEnd).Reachable OwnDeletions c)
    (h : (shardSystem ct makeEnd).Reaches (Regular N) c c') :
    (shardSystem ct makeEnd).Reachable OwnDeletions c' := by
  induction h with
  | refl => exact hc
  | tail _ hstep ih =>
    obtain ⟨act, hok, hstep⟩ := hstep
    exact ih.step hok.1 hstep

theorem snapshots_ne {ok : ShardSystem ν → ShardAction ν → Prop}
    (hc : (shardSystem ct makeEnd).Reachable ok c) (g : Nat) : (c.groups g).snapshots ≠ [] := by
  refine hc.invariant (P := fun c => ∀ g, (c.groups g).snapshots ≠ []) ?_ ?_ g
  · exact fun g => List.cons_ne_nil _ _
  · intro c act c' _ hinv _ hstep
    have hset : ∀ g (service : Service ν ShardStore Op Result), service.snapshots ≠ [] →
        ∀ k, ((c.setGroup g service).groups k).snapshots ≠ [] := fun _ _ hne =>
      ShardSystem.forall_setGroup (P := fun _ service => service.snapshots ≠ []) hne hinv
    rcases ShardSystem.step_cases hstep with ⟨_, _, _, -, rfl⟩ | ⟨g, gact, -, -, hhappens⟩
    · exact hinv
    · cases hhappens with
      | nothing => exact hinv
      | entered => exact hset g _ (hinv g)
      | proposed => exact hset g _ (hinv g)
      | moved m service eq => exact hset g _ (Service.move_snapshots eq (hinv g))
      | committed => exact hset g _ (hinv g)
      | posted => exact hinv
      | replied => exact hinv

/-- What a group can do by itself. -/
theorem exists_goes (ct : History) (makeEnd : MakeEnd ν) (N : Nat) (hg : g ≠ 0)
    {service : Service ν ShardStore Op Result}
    (h : Relation.ReflTransGen (Service.Goes (machine g)) (c.groups g) service) :
    ∃ c', (shardSystem ct makeEnd).Reaches (Regular N) c c' ∧
      c'.groups = Function.update c.groups g service ∧ c'.packets = c.packets := by
  induction h with
  | refl => exact ⟨c, .refl, (Function.update_eq_self g c.groups).symm, rfl⟩
  | @tail s₁ s₂ _ hgoes ih =>
    obtain ⟨c₁, hreach, hgroups, hpackets⟩ := ih
    have hgroup : c₁.groups g = s₁ := by
      rw [hgroups, Function.update_self]
    have hset : Function.update c₁.groups g s₂ = Function.update c.groups g s₂ := by
      rw [hgroups, Function.update_idem]
    subst hgroup
    cases hgoes with
    | move m owned eq =>
      have hok : Regular N c₁ (.group g (.move m)) :=
        regular_of_ne (ownDeletions_of_owned owned) (by simp)
      refine ⟨c₁.setGroup g s₂, hreach.tail ⟨_, hok, ?_⟩, hset, hpackets⟩
      simp [shardSystem, ShardSystem.step, hg, ShardSystem.groupStep, eq]
    | commit k eq =>
      have hok : Regular N c₁ (.group g (.commit k)) := regular_of_ne rfl (by simp)
      cases hk : (c₁.groups g).started[k]? with
      | none => simp [Service.commit, hk] at eq
      | some x =>
        refine ⟨{ c₁.setGroup g s₂ with effects := c₁.effects ++ (c₁.group g).effects g x.2 },
          hreach.tail ⟨_, hok, ?_⟩, hset, hpackets⟩
        simp [shardSystem, ShardSystem.step, hg, ShardSystem.groupStep, hk, eq]

/-- A replica can have applied all that its group has committed. -/
theorem exists_idle (hc : (shardSystem ct makeEnd).Reachable OwnDeletions c) (hg : g ≠ 0) (i : ν) :
    ∃ c', (shardSystem ct makeEnd).Reaches (Regular N) c c' ∧ c'.logs = c.logs ∧
      c'.packets = c.packets ∧ (c'.groups g).Idle i ∧
      ((c'.groups g).servers i).state = c.group g := by
  have hsound := ((DeletionInv.of_reachable hc).groups g).sound
  obtain ⟨service, hgoes, hlog, hidle⟩ := Service.exists_idle hsound (snapshots_ne hc g) i
  obtain ⟨c', hreach, hgroups, hpackets⟩ := exists_goes ct makeEnd N hg hgoes
  have hgroup : c'.groups g = service := by
    rw [hgroups, Function.update_self]
  have hlogs : c'.logs = c.logs := by
    have hset : c'.logs = (c.setGroup g service).logs := by
      funext h
      rw [ShardSystem.logs, hgroups]
      rfl
    rw [hset, ShardSystem.logs_setGroup hlog]
  have hidle' : (c'.groups g).Idle i := hgroup ▸ hidle
  refine ⟨c', hreach, hlogs, hpackets, hidle', ?_⟩
  have hsound' := ((DeletionInv.of_reachable (Regular.reachable hc hreach)).groups g).sound
  rw [hidle'.state hsound', ShardSystem.group, ← hlogs]
  rfl

/-- A command that nobody waits for can be logged next. -/
theorem exists_logged (hg : g ≠ 0) {act : GroupAction ν} {op : Op}
    (hstep : c.groupStep ct makeEnd g act =
      some (c.setGroup g ((c.groups g).propose ((c.logs g).length + 1) op)))
    (hok : Regular N c (.group g act)) :
    ∃ c', (shardSystem ct makeEnd).Reaches (Regular N) c c' ∧
      c'.group g = (apply g (c.group g) op).1 := by
  have hmem : ((c.logs g).length + 1, op) ∈
      ((c.groups g).propose ((c.logs g).length + 1) op).started :=
    List.mem_append_right _ (List.mem_singleton_self _)
  have hgoes := Service.exists_committed (M := machine g)
    (s := (c.groups g).propose ((c.logs g).length + 1) op) hmem
  obtain ⟨c', hreach, hgroups, -⟩ := exists_goes ct makeEnd N
    (c := c.setGroup g ((c.groups g).propose ((c.logs g).length + 1) op)) hg
    (by
      simp only [ShardSystem.setGroup, Function.update_self]
      exact .single hgoes)
  refine ⟨c', .head ⟨_, hok, ?_⟩ hreach, ?_⟩
  · simpa [shardSystem, ShardSystem.step, hg] using hstep
  · rw [ShardSystem.group, ShardSystem.logs, hgroups, Function.update_self]
    exact (machine g).run_snoc _ op

/-- A packet can be sent. -/
theorem exists_posted (hg : g ≠ 0) {act : GroupAction ν} {packet : Packet}
    (hstep : c.groupStep ct makeEnd g act = some (c.post packet))
    (hok : Regular N c (.group g act)) :
    ∃ (c' : ShardSystem ν) (k : Nat), (shardSystem ct makeEnd).Reaches (Regular N) c c' ∧
      c'.groups = c.groups ∧ c'.packets[k]? = some packet := by
  refine ⟨c.post packet, c.packets.length, .single ⟨_, hok, ?_⟩, rfl, List.getElem?_concat_length⟩
  simpa [shardSystem, ShardSystem.step, hg] using hstep

omit [DecidableEq ν] in
theorem group_eq_of_logs (h : c'.logs = c.logs) (g : Nat) : c'.group g = c.group g := by
  rw [ShardSystem.group, h]
  rfl

omit [DecidableEq ν] in
theorem logs_eq_of_groups (h : c'.groups = c.groups) : c'.logs = c.logs := by
  funext g
  rw [ShardSystem.logs, h]
  rfl

/-- A settled group can adopt the next configuration. -/
theorem exists_adopted (hc : (shardSystem ct makeEnd).Reachable OwnDeletions c) (hg : g ≠ 0) (i : ν)
    (hsettled : (c.group g).settled = true) (hN : (c.group g).config.num + 1 < N) :
    ∃ c', (shardSystem ct makeEnd).Reaches (Regular N) c c' ∧
      (c'.group g).config.num = (c.group g).config.num + 1 := by
  obtain ⟨c₁, hreach₁, hlogs₁, -, -, hstate₁⟩ := exists_idle (N := N) hc hg i
  have hpoll : c₁.groupStep ct makeEnd g (.poll i) =
      some (c₁.post (.query g ((c.group g).config.num + 1))) := by
    simp [ShardSystem.groupStep, hstate₁, hsettled]
  obtain ⟨c₂, k, hreach₂, hgroups₂, hget⟩ :=
    exists_posted (N := N) hg hpoll (regular_of_ne rfl (by simp))
  have hadopt : c₂.groupStep ct makeEnd g (.adopt k ((c₂.logs g).length + 1)) =
      some (c₂.setGroup g ((c₂.groups g).propose ((c₂.logs g).length + 1)
        (.config (ct.config ((c.group g).config.num + 1))))) := by
    simp [ShardSystem.groupStep, hget]
  obtain ⟨c', hreach', hgroup'⟩ := exists_logged (N := N) hg hadopt
    (by
      refine ⟨rfl, fun g' k index caller num heq hpacket => ?_⟩
      cases heq
      rw [hget] at hpacket
      cases hpacket
      exact hN)
  refine ⟨c', hreach₁.trans (hreach₂.trans hreach'), ?_⟩
  rw [hgroup', group_eq_of_logs (logs_eq_of_groups hgroups₂), group_eq_of_logs hlogs₁]
  exact applyConfig_num hsettled rfl

/-! ### Hand-over of a shard -/

section HandOver

variable {old : Nat} {sh : Shard} {name : Str} {j : ν} (hend : makeEnd old name = some j)

theorem mem_gidShards_of {st : ShardStore} {state : ShardState} (hsh : st.shards s = some sh)
    (hstate : sh.state = state) : s ∈ st.gidShards state (st.prevConfig.shards s) := by
  simp [ShardStore.gidShards, hsh, hstate]

include hend

/-- A shard that is awaited can be pulled, from a server of the old owner that is in the
    previous configuration. -/
theorem exists_gcing (hc : (shardSystem ct makeEnd).Reachable OwnDeletions c) (hg : g ≠ 0) (i : ν)
    (hsh : (c.group g).shards s = some sh) (hpulling : sh.state = .pulling)
    (hold : (c.group g).prevConfig.shards s = old) (hold0 : old ≠ 0)
    (hname : name ∈ (c.group g).prevConfig.groups old)
    (hle : (c.group g).config.num ≤ (c.group old).config.num) :
    ∃ c', (shardSystem ct makeEnd).Reaches (Regular N) c c' ∧
      (c'.group g).config.num = (c.group g).config.num ∧
      ∃ sh', (c'.group g).shards s = some sh' ∧ sh'.state = .gcing := by
  obtain ⟨c₁, hreach₁, hlogs₁, -, -, hstate₁⟩ := exists_idle (N := N) hc hg i
  have hmem : s ∈ (c.group g).gidShards .pulling old := hold ▸ mem_gidShards_of hsh hpulling
  have hpull : c₁.groupStep ct makeEnd g (.pull i old name ((c.group g).gidShards .pulling old)) =
      some (c₁.post (.pullRequest g old name
        { configNum := (c.group g).config.num,
          shards := (c.group g).gidShards .pulling old })) := by
    simp [ShardSystem.groupStep, hstate₁, List.ne_nil_of_mem hmem, hname]
  obtain ⟨c₂, k, hreach₂, hgroups₂, hget₂⟩ :=
    exists_posted (N := N) hg hpull (regular_of_ne rfl (by simp))
  have hc₂ := Regular.reachable hc (hreach₁.trans hreach₂)
  have hlogs₂ : c₂.logs = c.logs := (logs_eq_of_groups hgroups₂).trans hlogs₁
  -- the old owner answers
  obtain ⟨c₃, hreach₃, hlogs₃, hpackets₃, -, hstate₃⟩ := exists_idle (N := N) hc₂ hold0 j
  rw [group_eq_of_logs hlogs₂] at hstate₃
  obtain ⟨reply, hreply⟩ : ∃ reply, (c.group old).pullShard
      { configNum := (c.group g).config.num, shards := (c.group g).gidShards .pulling old } =
        some reply := ⟨_, if_neg (Nat.not_lt.mpr hle)⟩
  have hanswer : c₃.groupStep ct makeEnd old (.answerPull j k) = some (c₃.post (.pullReply g
      { configNum := (c.group g).config.num, shards := (c.group g).gidShards .pulling old }
      reply)) := by
    simp [ShardSystem.groupStep, hpackets₃, hget₂, hend, hstate₃, hreply]
  obtain ⟨c₄, k', hreach₄, hgroups₄, hget₄⟩ :=
    exists_posted (N := N) hold0 hanswer (regular_of_ne rfl (by simp))
  have hlogs₄ : c₄.logs = c.logs := (logs_eq_of_groups hgroups₄).trans (hlogs₃.trans hlogs₂)
  -- the answer is logged
  have hinstall : c₄.groupStep ct makeEnd g (.install k' ((c₄.logs g).length + 1)) =
      some (c₄.setGroup g ((c₄.groups g).propose ((c₄.logs g).length + 1)
        (.installShard (c.group g).config.num ((c.group g).gidShards .pulling old) reply.data
          reply.dedup))) := by
    simp [ShardSystem.groupStep, hget₄]
  obtain ⟨c', hreach', hgroup'⟩ := exists_logged (N := N) hg hinstall (regular_of_ne rfl (by simp))
  refine ⟨c', hreach₁.trans (hreach₂.trans (hreach₃.trans (hreach₄.trans hreach'))), ?_⟩
  rw [hgroup', group_eq_of_logs hlogs₄]
  exact applyInstallShard_gcing hsh hpulling hmem _ _

/-- A request to delete shards can be answered with `OK`. -/
theorem exists_deleteReply (hc : (shardSystem ct makeEnd).Reachable OwnDeletions c)
    (hold0 : old ≠ 0) {k : Nat} {args : MigrateArgs}
    (hget : c.packets[k]? = some (.deleteRequest g old name args))
    (hle : args.configNum ≤ (c.group old).config.num) (hne : g ≠ old) :
    ∃ (c' : ShardSystem ν) (k' : Nat), (shardSystem ct makeEnd).Reaches (Regular N) c c' ∧
      c'.group g = c.group g ∧ c'.packets[k']? = some (.deleteReply g args) := by
  obtain ⟨c₁, hreach₁, hlogs₁, hpackets₁, hidle₁, hstate₁⟩ := exists_idle (N := N) hc hold0 j
  have hgroup₁ : c₁.group g = c.group g := group_eq_of_logs hlogs₁ g
  rcases Nat.lt_or_eq_of_le hle with hlt | heq
  · -- the old owner has gone on, so it has released them
    have hserve : c₁.groupStep ct makeEnd old (.serveDelete j k) =
        some (c₁.post (.deleteReply g args)) := by
      simp [ShardSystem.groupStep, hpackets₁, hget, hend, hstate₁, hlt]
    obtain ⟨c', k', hreach', hgroups', hget'⟩ :=
      exists_posted (N := N) hold0 hserve (regular_of_ne rfl (by simp))
    exact ⟨c', k', hreach₁.trans hreach',
      (group_eq_of_logs (logs_eq_of_groups hgroups') g).trans hgroup₁, hget'⟩
  · -- the deletion is logged, and its handler answers
    have hserve : c₁.groupStep ct makeEnd old (.serveDelete j k) = some (c₁.setGroup old
        ((c₁.groups old).enter j (.deleteShard args.configNum args.shards))) := by
      simp [ShardSystem.groupStep, hpackets₁, hget, hend, hstate₁, heq]
    have hok₁ : Regular N c₁ (.group old (.serveDelete j k)) := regular_of_ne rfl (by simp)
    have hsound := ((DeletionInv.of_reachable (Regular.reachable hc hreach₁)).groups old).sound
    obtain ⟨service, h, hd, hgoes, -, hhd, hserver, hop, hphase⟩ :=
      Service.exists_call hsound hidle₁ (.deleteShard args.configNum args.shards)
    obtain ⟨c₂, hreach₂, hgroups₂, hpackets₂⟩ := exists_goes ct makeEnd N
      (c := c₁.setGroup old ((c₁.groups old).enter j (.deleteShard args.configNum args.shards)))
      hold0
      (by
        simp only [ShardSystem.setGroup, Function.update_self]
        exact hgoes)
    have hgroup₂ : c₂.group g = c₁.group g := by
      simp only [ShardSystem.group, ShardSystem.logs, hgroups₂, ShardSystem.setGroup,
        Function.update_of_ne hne]
    have hanswer : c₂.groupStep ct makeEnd old (.answerDelete h k) =
        some (c₂.post (.deleteReply g args)) := by
      have hgetk : c₂.packets[k]? = some (.deleteRequest g old name args) := by
        rw [hpackets₂]
        exact hpackets₁ ▸ hget
      have hhd₂ : (c₂.groups old).handlers[h]? = some hd := by
        rw [hgroups₂, Function.update_self]
        exact hhd
      simp [ShardSystem.groupStep, hhd₂, hphase, hop, hgetk, hserver, hend, submit,
        Machine.result, machine, ShardKV.apply]
    obtain ⟨c', k', hreach', hgroups', hget'⟩ :=
      exists_posted (N := N) hold0 hanswer (regular_of_ne rfl (by simp))
    refine ⟨c', k', hreach₁.trans (.head ⟨_, hok₁, ?_⟩ (hreach₂.trans hreach')), ?_, hget'⟩
    · simpa [shardSystem, ShardSystem.step, hold0] using hserve
    · rw [group_eq_of_logs (logs_eq_of_groups hgroups'), hgroup₂, hgroup₁]

/-- A shard that was pulled can come to be served. -/
theorem exists_serves (hc : (shardSystem ct makeEnd).Reachable OwnDeletions c) (hg : g ≠ 0) (i : ν)
    (hsh : (c.group g).shards s = some sh) (hgcing : sh.state = .gcing)
    (hold : (c.group g).prevConfig.shards s = old) (hold0 : old ≠ 0) (hne : g ≠ old)
    (hname : name ∈ (c.group g).prevConfig.groups old)
    (hle : (c.group g).config.num ≤ (c.group old).config.num) :
    ∃ c', (shardSystem ct makeEnd).Reaches (Regular N) c c' ∧
      Serves (c'.group g) (c.group g).config.num s := by
  obtain ⟨c₁, hreach₁, hlogs₁, -, -, hstate₁⟩ := exists_idle (N := N) hc hg i
  have hmem : s ∈ (c.group g).gidShards .gcing old := hold ▸ mem_gidShards_of hsh hgcing
  have hcollect : c₁.groupStep ct makeEnd g
      (.collect i old name ((c.group g).gidShards .gcing old)) =
      some (c₁.post (.deleteRequest g old name
        { configNum := (c.group g).config.num, shards := (c.group g).gidShards .gcing old })) := by
    simp [ShardSystem.groupStep, hstate₁, List.ne_nil_of_mem hmem, hname]
  obtain ⟨c₂, k, hreach₂, hgroups₂, hget₂⟩ :=
    exists_posted (N := N) hg hcollect (regular_of_ne rfl (by simp))
  have hc₂ := Regular.reachable hc (hreach₁.trans hreach₂)
  have hlogs₂ : c₂.logs = c.logs := (logs_eq_of_groups hgroups₂).trans hlogs₁
  obtain ⟨c₃, k', hreach₃, hgroup₃, hget₃⟩ := exists_deleteReply (N := N) hend hc₂ hold0 hget₂
    (by rwa [group_eq_of_logs hlogs₂]) hne
  have hconfirm : c₃.groupStep ct makeEnd g (.confirm k' ((c₃.logs g).length + 1)) =
      some (c₃.setGroup g ((c₃.groups g).propose ((c₃.logs g).length + 1)
        (.deleteShard (c.group g).config.num ((c.group g).gidShards .gcing old)))) := by
    simp [ShardSystem.groupStep, hget₃]
  obtain ⟨c', hreach', hgroup'⟩ := exists_logged (N := N) hg hconfirm (regular_of_ne rfl (by simp))
  refine ⟨c', hreach₁.trans (hreach₂.trans (hreach₃.trans hreach')), ?_⟩
  rw [hgroup', hgroup₃, group_eq_of_logs hlogs₂]
  exact applyDeleteShard_serving hsh hgcing hmem

end HandOver

/-! ### All groups at once -/

/-- Whoever owns a shard in the configuration it has can come to serve it, once the old
    owner has the configuration too, if a server of the old owner is reached. -/
theorem exists_serves_of_owner (hc : (shardSystem ct makeEnd).Reachable OwnDeletions c) (hg : g ≠ 0)
    (i : ν) (howner : ct.owner n s = g) (hnum : n ≤ (c.group g).config.num)
    (hold : ∀ old, Transfers ct n s old g → n ≤ (c.group old).config.num)
    (hreached : ∀ old, Transfers ct n s old g → Reached makeEnd old (ct.groups (n - 1) old)) :
    ∃ c', (shardSystem ct makeEnd).Reaches (Regular N) c c' ∧ Serves (c'.group g) n s := by
  rcases Nat.lt_or_eq_of_le hnum with hlt | rfl
  · exact ⟨c, .refl, .inl hlt⟩
  · have hlocal : LocalOk ct g (c.group g) := (DeletionInv.of_reachable hc).localOk hg
    -- the last part, for a shard that is there
    have hcollect : ∀ (c₁ : ShardSystem ν) (sh₁ : Shard),
        (shardSystem ct makeEnd).Reaches (Regular N) c c₁ →
        (c₁.group g).config.num = (c.group g).config.num → (c₁.group g).shards s = some sh₁ →
        sh₁.state = .gcing → ∃ c', (shardSystem ct makeEnd).Reaches (Regular N) c c' ∧
          Serves (c'.group g) (c.group g).config.num s := by
      intro c₁ sh₁ hreach hnum₁ hsh₁ hgcing
      have hc₁ := Regular.reachable hc hreach
      have hlocal₁ : LocalOk ct g (c₁.group g) := (DeletionInv.of_reachable hc₁).localOk hg
      have htransfers := hlocal₁.transfers hg hsh₁ (.inl hgcing)
      rw [hnum₁] at htransfers
      obtain ⟨name, hname, hsome⟩ := hreached _ htransfers
      obtain ⟨j, hend⟩ := Option.isSome_iff_exists.mp hsome
      rw [← hnum₁, ← hlocal₁.prevGroups_eq] at hname
      have hle := (hold _ htransfers).trans (num_le_of_isPrefix _ (logs_isPrefix hreach _))
      obtain ⟨c', hreach', hserves⟩ := exists_serves (N := N) hend hc₁ hg i hsh₁ hgcing
        rfl htransfers.old_ne htransfers.ne.symm hname (hnum₁.le.trans hle)
      exact ⟨c', hreach.trans hreach', hnum₁ ▸ hserves⟩
    cases hsh : (c.group g).shards s with
    | none =>
      have hfits := hlocal.shards s
      rw [hsh] at hfits
      exact absurd howner hfits
    | some sh =>
      cases hstate : sh.state with
      | serving => exact ⟨c, .refl, .inr ⟨rfl, sh, hsh, hstate⟩⟩
      | pulling =>
        have htransfers := hlocal.transfers hg hsh (.inr hstate)
        obtain ⟨name, hname, hsome⟩ := hreached _ htransfers
        obtain ⟨j, hend⟩ := Option.isSome_iff_exists.mp hsome
        rw [← hlocal.prevGroups_eq] at hname
        obtain ⟨c₁, hreach₁, hnum₁, sh₁, hsh₁, hgcing⟩ := exists_gcing (N := N) hend hc hg i hsh
          hstate rfl htransfers.old_ne hname (hold _ htransfers)
        exact hcollect c₁ sh₁ hreach₁ hnum₁ hsh₁ hgcing
      | gcing => exact hcollect c sh .refl rfl hsh hstate
      | bePulling =>
        have hfits := hlocal.fits hsh
        simp only [History.Fits, hstate] at hfits
        exact absurd howner hfits.2.2

/-- A group that has no shard to wait for, and whose shards nobody waits for, is settled. -/
theorem calm_of_serves (hc : (shardSystem ct makeEnd).Reachable OwnDeletions c) (hg : g ≠ 0)
    (hkept : ∀ s, ct.owner n s ≠ 0 → ct.owner (n + 1) s ≠ 0)
    (hnum : n + 1 ≤ (c.group g).config.num)
    (hserves : ∀ s, ct.owner (n + 1) s ≠ 0 → Serves (c.group (ct.owner (n + 1) s)) (n + 1) s) :
    Calm (c.group g) (n + 1) := by
  have hinv := DeletionInv.of_reachable hc
  have hlocal : LocalOk ct g (c.group g) := hinv.localOk hg
  rcases Nat.lt_or_eq_of_le hnum with hlt | heq
  · exact .inl hlt
  · refine .inr ⟨heq.symm, settled_iff.mpr fun s sh hsh => ?_⟩
    have hfits := hlocal.fits hsh
    rw [← heq] at hfits
    -- a shard of its own is served
    have hown : ct.owner (n + 1) s = g → sh.state = .serving := by
      intro howner
      rcases howner ▸ hserves s (howner ▸ hg) with hlt | ⟨-, sh', hsh', hserving⟩
      · omega
      · rw [hsh] at hsh'
        cases hsh'
        exact hserving
    cases hstate : sh.state with
    | serving => rfl
    | pulling =>
      simp only [History.Fits, hstate] at hfits
      exact hstate.symm.trans (hown hfits.2.1)
    | gcing =>
      simp only [History.Fits, hstate] at hfits
      exact hstate.symm.trans (hown hfits.2.1)
    | bePulling =>
      simp only [History.Fits, hstate, Nat.add_sub_cancel] at hfits
      obtain ⟨hpos, hold, hnew⟩ := hfits
      have hzero := hkept s (hold ▸ hg)
      have htransfers : Transfers ct (n + 1) s g (ct.owner (n + 1) s) :=
        ⟨hpos, hold, rfl, hnew.symm, hg, hzero⟩
      rcases hinv.served _ _ _ _ htransfers (hserves s hzero) with hlt | ⟨-, hnot⟩
      · exact absurd hlt (Nat.not_lt.mpr heq.ge)
      · exact absurd hstate (hnot sh hsh)

/-- Before the first configuration nobody has anything to wait for. -/
theorem calm_zero (hc : (shardSystem ct makeEnd).Reachable OwnDeletions c) (hg : g ≠ 0) :
    Calm (c.group g) 0 := by
  have hlocal : LocalOk ct g (c.group g) := (DeletionInv.of_reachable hc).localOk hg
  rcases Nat.eq_zero_or_pos (c.group g).config.num with heq | hpos
  · refine .inr ⟨heq, settled_iff.mpr fun s sh hsh => ?_⟩
    have hfits := hlocal.fits hsh
    rw [heq] at hfits
    cases hstate : sh.state with
    | serving => rfl
    | pulling => simp [History.Fits, hstate] at hfits
    | gcing => simp [History.Fits, hstate] at hfits
    | bePulling => simp [History.Fits, hstate] at hfits
  · exact .inl hpos

section AllGroups

variable {gids : List Nat} {m : Nat} (hzero : 0 ∉ gids) (i : ν)
include hzero i

/-- Settled groups can all adopt the next configuration. -/
theorem exists_all_adopted (hc : (shardSystem ct makeEnd).Reachable OwnDeletions c) (hm : m + 1 < N)
    (hcalm : ∀ g ∈ gids, Calm (c.group g) m) :
    ∃ c', (shardSystem ct makeEnd).Reaches (Regular N) c c' ∧
      ∀ g ∈ gids, m + 1 ≤ (c'.group g).config.num := by
  refine System.Reaches.exists_forall_mem
    (fun g t u ht htu => ht.trans (num_le_of_isPrefix g (logs_isPrefix htu g))) ?_
  intro g hg t ht
  rcases (hcalm g hg).of_isPrefix (logs_isPrefix ht g) with hlt | ⟨heq, hsettled⟩
  · exact ⟨t, .refl, hlt⟩
  · change (t.group g).config.num = m at heq
    obtain ⟨u, htu, hu⟩ := exists_adopted (N := N) (Regular.reachable hc ht)
      (fun heq => hzero (heq ▸ hg)) i hsettled (by omega)
    exact ⟨u, htu, by rw [hu, heq]⟩

omit hzero in
/-- Groups that have the configuration can all come to serve their shards. -/
theorem exists_all_serve (hc : (shardSystem ct makeEnd).Reachable OwnDeletions c) (hm : m + 1 < N)
    (hgids : ∀ n s, n < N → ct.owner n s ≠ 0 → ct.owner n s ∈ gids)
    (hreached : ∀ n s, n < N → ct.owner n s ≠ 0 →
      Reached makeEnd (ct.owner n s) (ct.groups n (ct.owner n s)))
    (hnum : ∀ g ∈ gids, m + 1 ≤ (c.group g).config.num) :
    ∃ c', (shardSystem ct makeEnd).Reaches (Regular N) c c' ∧ ∀ s ∈ List.finRange NShards,
      ct.owner (m + 1) s ≠ 0 → Serves (c'.group (ct.owner (m + 1) s)) (m + 1) s := by
  refine System.Reaches.exists_forall_mem
    (fun s t u ht htu hs => (ht hs).of_isPrefix (logs_isPrefix htu _)) ?_
  intro s _ t ht
  have hle : ∀ g ∈ gids, m + 1 ≤ (t.group g).config.num := fun g hg =>
    (hnum g hg).trans (num_le_of_isPrefix g (logs_isPrefix ht g))
  by_cases hs : ct.owner (m + 1) s = 0
  · exact ⟨t, .refl, fun hne => absurd hs hne⟩
  · have hold : ∀ old, Transfers ct (m + 1) s old (ct.owner (m + 1) s) →
        old = ct.owner m s ∧ ct.owner m s ≠ 0 := by
      intro old htransfers
      have heq : ct.owner m s = old := htransfers.old_eq
      exact ⟨heq.symm, heq ▸ htransfers.old_ne⟩
    have hm' := Nat.lt_of_succ_lt hm
    obtain ⟨u, htu, hu⟩ := exists_serves_of_owner (N := N) (Regular.reachable hc ht) hs i rfl
      (hle _ (hgids _ s hm hs))
      (fun old htransfers => by
        obtain ⟨rfl, hne⟩ := hold old htransfers
        exact hle _ (hgids m s hm' hne))
      (fun old htransfers => by
        obtain ⟨rfl, hne⟩ := hold old htransfers
        exact hreached m s hm' hne)
    exact ⟨u, htu, fun _ => hu⟩

/-- If no shard is taken back and servers of all owners are reached, all groups can come
    to be settled in a configuration that was made, or be beyond it. -/
theorem exists_calm (hc : (shardSystem ct makeEnd).Reachable OwnDeletions c) (hm : m < N)
    (hgids : ∀ n s, n < N → ct.owner n s ≠ 0 → ct.owner n s ∈ gids)
    (hreached : ∀ n s, n < N → ct.owner n s ≠ 0 →
      Reached makeEnd (ct.owner n s) (ct.groups n (ct.owner n s)))
    (hkept : ∀ n s, n + 1 < N → ct.owner n s ≠ 0 → ct.owner (n + 1) s ≠ 0) :
    ∃ c', (shardSystem ct makeEnd).Reaches (Regular N) c c' ∧ ∀ g ∈ gids, Calm (c'.group g) m := by
  have hne : ∀ g ∈ gids, g ≠ 0 := fun g hg heq => hzero (heq ▸ hg)
  induction m with
  | zero => exact ⟨c, .refl, fun g hg => calm_zero hc (hne g hg)⟩
  | succ m ih =>
    obtain ⟨c₁, hreach₁, hcalm₁⟩ := ih (Nat.lt_of_succ_lt hm)
    have hc₁ := Regular.reachable hc hreach₁
    obtain ⟨c₂, hreach₂, hnum₂⟩ := exists_all_adopted hzero i hc₁ hm hcalm₁
    have hc₂ := Regular.reachable hc₁ hreach₂
    obtain ⟨c₃, hreach₃, hserves₃⟩ := exists_all_serve i hc₂ hm hgids hreached hnum₂
    refine ⟨c₃, hreach₁.trans (hreach₂.trans hreach₃), fun g hg => ?_⟩
    exact calm_of_serves (Regular.reachable hc₂ hreach₃) (hne g hg) (fun s => hkept m s hm)
      ((hnum₂ g hg).trans (num_le_of_isPrefix g (logs_isPrefix hreach₃ g)))
      fun s => hserves₃ s (List.mem_finRange s)

end AllGroups

end RaftLabs.ShardKV
