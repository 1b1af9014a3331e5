import RaftLabs.ShardDeployment
import RaftLabs.ShardKVSessions

/-!
# The table that migrates

A group has one table of clients for all its shards, and `InstallShard` merges the
whole table of the source into it.  `MadeBy` says which mutations a copy of a shard
is made of: those that wrote to it, and those that the source's copy was made of.
The table of a group knows all of these, and whatever it knows has taken effect in
some group.

Nothing is assumed here about the history of configurations.
-/

namespace RaftLabs.ShardKV

open Linearizability ReplicatedService

variable {L L' : Nat → List Op} {g p : Nat} {s : Fin NShards} {op : Op} {st : ShardStore}
  {ops : List ClientOp}

/-! ### What a copy is made of -/

/-- The data that the mutations make of an empty shard. -/
def made (ops : List ClientOp) : ShardData := ops.foldl ShardStore.write fun _ => none

theorem made_snoc (ops : List ClientOp) (op : ClientOp) :
    made (ops ++ [op]) = ShardStore.write (made ops) op := by
  simp [made]

/-- The copy of shard `s` that group `g` has after `p` entries of its log is made by
    the mutations `ops`, in this order. -/
inductive MadeBy (L : Nat → List Op) : Nat → Nat → Fin NShards → List ClientOp → Prop where
  /-- There is no copy. -/
  | missing {g p : Nat} {s : Fin NShards} (le : p ≤ (L g).length)
      (absent : ((machine g).run ((L g).take p)).shards s = none) : MadeBy L g p s []
  /-- The entry makes an empty shard. -/
  | created {g p : Nat} {s : Fin NShards} {op : Op} {st : ShardStore} (entry : Entry L g p op st)
      (absent : st.shards s = none) (present : (apply g st op).1.shards s ≠ none) :
      MadeBy L g (p + 1) s []
  /-- The entry does not touch the data. -/
  | kept {g p : Nat} {s : Fin NShards} {op : Op} {st : ShardStore} {sh sh' : Shard}
      {ops : List ClientOp} (before : MadeBy L g p s ops) (entry : Entry L g p op st)
      (has : st.shards s = some sh) (keeps : (apply g st op).1.shards s = some sh')
      (data : sh'.data = sh.data) (pulling : sh.state = .pulling → sh'.state = .pulling)
      (quiet : ∀ cop, op = .client cop → key2shard cop.key = s → (apply g st op).1 = st) :
      MadeBy L g (p + 1) s ops
  /-- The entry is a mutation of the shard that takes effect. -/
  | wrote {g p : Nat} {s : Fin NShards} {op : ClientOp} {ops : List ClientOp}
      (before : MadeBy L g p s ops) (takes : TakesEffect L g p op) (key : key2shard op.key = s) :
      MadeBy L g (p + 1) s (ops ++ [op])
  /-- The entry takes in the copy that group `h` had after `q` entries of its log. -/
  | installed {g p h q : Nat} {s : Fin NShards} {st : ShardStore} {sh : Shard}
      {args : MigrateArgs} {reply : PullShardReply} {ops : List ClientOp}
      (entry : Entry L g p
        (.installShard args.configNum args.shards reply.data reply.dedup) st)
      (num : st.config.num = args.configNum) (mem : s ∈ args.shards)
      (has : st.shards s = some sh) (pulling : sh.state = .pulling) (le : q ≤ (L h).length)
      (pulled : ((machine h).run ((L h).take q)).pullShard args = some reply)
      (source : MadeBy L h q s ops) : MadeBy L g (p + 1) s ops

theorem Entry.next (h : Entry L g p op st) :
    (machine g).run ((L g).take (p + 1)) = (apply g st op).1 := by
  obtain ⟨hop, rfl⟩ := h
  exact (machine g).run_take_succ hop

/-- A mutation that takes effect stands in the table from then on. -/
theorem TakesEffect.dedup {op : ClientOp} (h : TakesEffect L g p op) :
    ((machine g).run ((L g).take (p + 1))).dedup op.clientId = some op.seq := by
  obtain ⟨st, hentry, mutates, hcan, fresh⟩ := h
  rw [hentry.next]
  obtain ⟨owns, sh, has, serving⟩ := canServe_iff.mp hcan
  simp [apply, ShardStore.applyClientOp, owns, has, serving, mutates, fresh]

theorem pullShard_dedup {args : MigrateArgs} {reply : PullShardReply}
    (h : st.pullShard args = some reply) : reply.dedup = st.dedup := by
  simp only [ShardStore.pullShard, Option.ite_none_left_eq_some, Option.some.injEq] at h
  obtain ⟨-, rfl⟩ := h
  rfl

/-- The table of the group knows every mutation that a copy is made of: tables only
    grow, and a copy that is taken in comes with the table of its source. -/
theorem MadeBy.known (h : MadeBy L g p s ops) : ∀ op ∈ ops,
    ∃ last, ((machine g).run ((L g).take p)).dedup op.clientId = some last ∧ op.seq ≤ last := by
  induction h with
  | missing => exact nofun
  | created => exact nofun
  | @kept g p s op st sh sh' ops before entry has keeps data pulling quiet ih =>
    intro cop hcop
    exact (dedup_mono g (L g) (Nat.le_succ p)).known (ih cop hcop)
  | @wrote g p s op ops before takes key ih =>
    intro cop hcop
    rcases List.mem_append.mp hcop with hcop | hcop
    · exact (dedup_mono g (L g) (Nat.le_succ p)).known (ih cop hcop)
    · cases List.mem_singleton.mp hcop
      exact ⟨op.seq, takes.dedup, le_rfl⟩
  | installed entry num mem has pulling le pulled source ih =>
    intro cop hcop
    have hknown := ih cop hcop
    rw [← pullShard_dedup pulled] at hknown
    rw [entry.next, ← num, dedup_installShard]
    exact (dedupLe_merge_right _ _).known hknown

/-- The mutations have taken effect on this shard. -/
theorem MadeBy.takesEffect (h : MadeBy L g p s ops) : ∀ op ∈ ops,
    ∃ h q, TakesEffect L h q op ∧ key2shard op.key = s := by
  induction h with
  | missing => exact nofun
  | created => exact nofun
  | kept _ _ _ _ _ _ _ ih => exact ih
  | @wrote g p s op ops before takes key ih =>
    intro cop hcop
    rcases List.mem_append.mp hcop with hcop | hcop
    · exact ih cop hcop
    · cases List.mem_singleton.mp hcop
      exact ⟨g, p, takes, key⟩
  | installed _ _ _ _ _ _ _ _ ih => exact ih

/-! ### Logs that grow -/

theorem run_take_of_isPrefix (hL : L g <+: L' g) (hp : p ≤ (L g).length) :
    (machine g).run ((L' g).take p) = (machine g).run ((L g).take p) := by
  obtain ⟨more, hmore⟩ := hL
  rw [← hmore]
  exact (machine g).run_take_append hp more

theorem TakesEffect.of_isPrefix {op : ClientOp} (h : TakesEffect L g p op) (hL : L g <+: L' g) :
    TakesEffect L' g p op := by
  obtain ⟨st, hentry, hrest⟩ := h
  exact ⟨st, hentry.of_isPrefix hL, hrest⟩

theorem MadeBy.of_isPrefix (hL : ∀ g, L g <+: L' g) (h : MadeBy L g p s ops) :
    MadeBy L' g p s ops := by
  induction h with
  | @missing g p s le absent =>
    refine .missing (le.trans (hL g).length_le) ?_
    rw [run_take_of_isPrefix (hL g) le]
    exact absent
  | @created g p s op st entry absent present =>
    exact .created (entry.of_isPrefix (hL g)) absent present
  | @kept g p s op st sh sh' ops before entry has keeps data pulling quiet ih =>
    exact .kept ih (entry.of_isPrefix (hL g)) has keeps data pulling quiet
  | @wrote g p s op ops before takes key ih => exact .wrote ih (takes.of_isPrefix (hL g)) key
  | @installed g p h q s st sh args reply ops entry num mem has pulling le pulled source ih =>
    refine .installed (entry.of_isPrefix (hL g)) num mem has pulling
      (le.trans (hL h).length_le) ?_ ih
    rw [run_take_of_isPrefix (hL h) le]
    exact pulled

/-- Some group gave this reply after some part of its log. -/
def Gave (L : Nat → List Op) (args : MigrateArgs) (reply : PullShardReply) : Prop :=
  ∃ h q, q ≤ (L h).length ∧ ((machine h).run ((L h).take q)).pullShard args = some reply

theorem Gave.of_isPrefix (hL : ∀ g, L g <+: L' g) {args : MigrateArgs} {reply : PullShardReply}
    (h : Gave L args reply) : Gave L' args reply := by
  obtain ⟨k, q, hq, hreply⟩ := h
  refine ⟨k, q, hq.trans (hL k).length_le, ?_⟩
  rw [run_take_of_isPrefix (hL k) hq]
  exact hreply

/-- What `InstallShard` brings is a reply of some group. -/
def Carries (L : Nat → List Op) : Op → Prop
  | .installShard configNum shards shardData dedup =>
    Gave L { configNum := configNum, shards := shards } { data := shardData, dedup := dedup }
  | _ => True

def Delivers (L : Nat → List Op) : Packet → Prop
  | .pullReply _ args reply => Gave L args reply
  | _ => True

theorem Carries.of_isPrefix (hL : ∀ g, L g <+: L' g) (h : Carries L op) : Carries L' op := by
  cases op with
  | installShard => exact Gave.of_isPrefix hL h
  | client => trivial
  | config => trivial
  | deleteShard => trivial
  | empty => trivial

theorem Delivers.of_isPrefix (hL : ∀ g, L g <+: L' g) {packet : Packet} (h : Delivers L packet) :
    Delivers L' packet := by
  cases packet with
  | pullReply => exact Gave.of_isPrefix hL h
  | query => trivial
  | pullRequest => trivial
  | deleteRequest => trivial
  | deleteReply => trivial

/-! ### Every copy is made by mutations -/

/-- The copy of `s` in the state `st`, if there is one, is made by some mutations. -/
def Copied (L : Nat → List Op) (g p : Nat) (s : Fin NShards) (st : ShardStore) : Prop :=
  ∀ sh, st.shards s = some sh → ∃ ops, MadeBy L g p s ops ∧ sh.data = made ops

theorem Copied.client {cop : ClientOp} (h : Copied L g p s st)
    (entry : Entry L g p (.client cop) st) :
    Copied L g (p + 1) s (apply g st (.client cop)).1 := by
  have happ : (apply g st (.client cop)).1 = (st.applyClientOp g cop).1 := rfl
  have hcase := clientCase g st cop
  have hquiet : (st.applyClientOp g cop).1 = st →
      Copied L g (p + 1) s (apply g st (.client cop)).1 := by
    intro hsame sh hsh
    rw [happ, hsame] at hsh
    obtain ⟨ops, hmade, hdata⟩ := h sh hsh
    refine ⟨ops, .kept hmade entry hsh ?_ rfl id fun _ _ _ => happ.trans hsame, hdata⟩
    rw [happ, hsame]
    exact hsh
  generalize (st.applyClientOp g cop).1 = st' at hcase happ hquiet
  generalize st.effects g (.client cop) = more at hcase
  cases hcase with
  | refused => exact hquiet rfl
  | read => exact hquiet rfl
  | duplicate => exact hquiet rfl
  | wrote sh _ _ owns has serving mutates fresh =>
    intro sh' hsh'
    rw [happ] at hsh'
    by_cases hs : s = key2shard cop.key
    · subst hs
      cases (Function.update_self ..).symm.trans hsh'
      obtain ⟨ops, hmade, hdata⟩ := h sh has
      have htakes : TakesEffect L g p cop :=
        ⟨st, entry, mutates, canServe_iff.mpr ⟨owns, sh, has, serving⟩, fresh⟩
      refine ⟨ops ++ [cop], hmade.wrote htakes rfl, ?_⟩
      rw [made_snoc, ← hdata]
    · have hold : st.shards s = some sh' := (Function.update_of_ne hs ..).symm.trans hsh'
      obtain ⟨ops, hmade, hdata⟩ := h sh' hold
      refine ⟨ops, .kept hmade entry hold (happ ▸ hsh') rfl id ?_, hdata⟩
      intro cop' heq hkey
      cases heq
      exact absurd hkey.symm hs

/-- The copy that a reply has is that of the group that gave it. -/
theorem pullShard_data {args : MigrateArgs} {reply : PullShardReply}
    (h : st.pullShard args = some reply) (hs : s ∈ args.shards) :
    (reply.data s).getD (fun _ => none) = ((st.shards s).map Shard.data).getD fun _ => none := by
  simp only [ShardStore.pullShard, Option.ite_none_left_eq_some, Option.some.injEq] at h
  obtain ⟨-, rfl⟩ := h
  simp only [hs, if_true]
  cases st.shards s <;> rfl

theorem Copied.of_isPrefix (hL : ∀ g, L g <+: L' g) (hp : p ≤ (L g).length)
    (h : Copied L g p s ((machine g).run ((L g).take p))) :
    Copied L' g p s ((machine g).run ((L' g).take p)) := by
  intro sh hsh
  rw [run_take_of_isPrefix (hL g) hp] at hsh
  obtain ⟨ops, hmade, hdata⟩ := h sh hsh
  exact ⟨ops, hmade.of_isPrefix hL, hdata⟩

/-- An entry that is not from a client, where `L` are the logs before it. -/
theorem Copied.other {ct : History} (h : Copied L' g p s st) (entry : Entry L' g p op st)
    (hclient : ∀ cop, op ≠ .client cop) (hlocal : LocalOk ct g st) (hop : op.Genuine ct)
    (hL : ∀ g, L g <+: L' g) (hcarries : Carries L op)
    (hcopied : ∀ k q, q ≤ (L k).length → Copied L' k q s ((machine k).run ((L' k).take q))) :
    Copied L' g (p + 1) s (apply g st op).1 := by
  intro sh' hsh'
  -- an entry that leaves the data as they are
  have hkept : ∀ sh, st.shards s = some sh → sh'.data = sh.data →
      (sh.state = .pulling → sh'.state = .pulling) →
      ∃ ops, MadeBy L' g (p + 1) s ops ∧ sh'.data = made ops := by
    intro sh hsh hdata hpulling
    obtain ⟨ops, hmade, hold⟩ := h sh hsh
    exact ⟨ops, .kept hmade entry hsh hsh' hdata hpulling fun cop heq _ =>
      absurd heq (hclient cop), hdata.trans hold⟩
  have hempty : st.shards s = none → sh'.data = (fun _ => none) →
      ∃ ops, MadeBy L' g (p + 1) s ops ∧ sh'.data = made ops := by
    intro habsent hdata
    exact ⟨[], .created entry habsent (by rw [hsh']; exact Option.some_ne_none _), hdata⟩
  have hev := (applies g st op).evolves s
  rw [hsh'] at hev
  generalize (apply g st op).1.config.num = num at hev
  generalize hnew : some sh' = new at hev
  cases hev with
  | same => exact hkept sh' hnew.symm rfl id
  | wrote cop sh eq => exact absurd eq (hclient cop)
  | migrated config eq next settled =>
    subst eq
    have hmigrates := hlocal.adopted_migrates hop next settled s
    rw [← hnew] at hmigrates
    generalize hold : st.shards s = old at hmigrates
    cases hmigrates with
    | stays => exact hkept sh' hold rfl id
    | leaves sh serving =>
      refine hkept sh hold rfl fun hpulling => ?_
      rw [serving] at hpulling
      cases hpulling
    | created => exact hempty hold rfl
    | awaited => exact hempty hold rfl
  | installed shards shardData dedup sh eq mem has pulling =>
    subst eq
    cases hnew
    obtain ⟨k, q, hq, hreply⟩ := hcarries
    have hq' := hq.trans (hL k).length_le
    rw [← run_take_of_isPrefix (hL k) hq] at hreply
    have hdata := pullShard_data hreply mem
    cases hsource : ((machine k).run ((L' k).take q)).shards s with
    | none =>
      rw [hsource] at hdata
      exact ⟨[], .installed entry rfl mem has pulling hq' hreply (.missing hq' hsource), hdata⟩
    | some source =>
      rw [hsource] at hdata
      obtain ⟨ops, hmade, hops⟩ := hcopied k q hq source hsource
      exact ⟨ops, .installed entry rfl mem has pulling hq' hreply hmade, hdata.trans hops⟩
  | confirmed shards sh eq mem has gcing =>
    cases hnew
    refine hkept sh has rfl fun hpulling => ?_
    rw [gcing] at hpulling
    cases hpulling
  | removed => cases hnew

/-- One more entry in the log of group `g`. -/
theorem copied_committed {ct : History} (hlocal : LocalOk ct g (states L g))
    (hop : op.Genuine ct) (hcarries : Carries L op)
    (h : ∀ k q s, q ≤ (L k).length → Copied L k q s ((machine k).run ((L k).take q)))
    (k q : Nat) (s : Fin NShards) (hq : q ≤ (Function.update L g (L g ++ [op]) k).length) :
    Copied (Function.update L g (L g ++ [op])) k q s
      ((machine k).run ((Function.update L g (L g ++ [op]) k).take q)) := by
  have hL := ShardSystem.isPrefix_committed L g op
  have hold : ∀ k q, q ≤ (L k).length → Copied (Function.update L g (L g ++ [op])) k q s
      ((machine k).run ((Function.update L g (L g ++ [op]) k).take q)) :=
    fun k q hq => (h k q s hq).of_isPrefix hL hq
  by_cases hle : q ≤ (L k).length
  · exact hold k q hle
  · -- the entry itself
    have hk : k = g := by
      by_contra hk
      rw [Function.update_of_ne hk] at hq
      exact hle hq
    subst hk
    have hlen : q = (L k).length + 1 := by
      rw [Function.update_self, List.length_append, List.length_singleton] at hq
      omega
    subst hlen
    have entry := Entry.last L k op
    have hbefore : Copied (Function.update L k (L k ++ [op])) k (L k).length s (states L k) := by
      have := hold k (L k).length le_rfl
      rwa [entry.2] at this
    rw [entry.next]
    by_cases hclient : ∃ cop, op = .client cop
    · obtain ⟨cop, rfl⟩ := hclient
      exact hbefore.client entry
    · exact hbefore.other entry (fun cop heq => hclient ⟨cop, heq⟩) hlocal hop hL hcarries hold

/-! ### Runs -/

theorem dedupLe_append (g : Nat) (log more : List Op) :
    DedupLe ((machine g).run log).dedup ((machine g).run (log ++ more)).dedup := by
  have hmono := dedup_mono g (log ++ more) (Nat.le_add_right log.length more.length)
  rwa [List.take_left, ← List.length_append, List.take_length] at hmono

structure PullInv {ν : Type} (c : ShardSystem ν) : Prop where
  sound : ∀ g, (c.groups g).Sound (machine g) (Carries c.logs)
  packets : ∀ packet ∈ c.packets, Delivers c.logs packet
  copied : ∀ g p s, p ≤ (c.logs g).length →
    Copied c.logs g p s ((machine g).run ((c.logs g).take p))

namespace PullInv

variable {ν : Type} {ct : History} {makeEnd : MakeEnd ν} {c c' : ShardSystem ν}

theorem causes_carries (h : PullInv c) (hcause : ShardSystem.Causes ct c g op) :
    Carries c.logs op := by
  cases hcause with
  | client => trivial
  | config => trivial
  | install args reply mem => exact h.packets _ mem
  | delete => trivial
  | confirm => trivial
  | empty => trivial

/-- A replica answers from the state of a part of its group's log. -/
theorem emits_delivers (h : PullInv c) {packet : Packet} (hcause : c.Emits g packet) :
    Delivers c.logs packet := by
  cases hcause with
  | pulled i caller name args reply mem eq =>
    have hat := (h.sound g).servers i
    refine ⟨g, (c.groups g).position i, hat.le_length, ?_⟩
    rw [ShardSystem.logs, ← hat.state]
    exact eq
  | query => trivial
  | pull => trivial
  | collect => trivial
  | deleted => trivial

theorem happens [DecidableEq ν] (h : PullInv c) (hlocal : LocalInv ct c) (hg : g ≠ 0)
    {act : GroupAction ν} (hstep : c.Happens ct g act c') : PullInv c' := by
  obtain ⟨hsound, hpackets⟩ := hstep.keeps (Q := fun _ => Carries c.logs) h.sound h.packets
    (fun _ => h.causes_carries) fun _ => h.emits_delivers
  refine
    { sound := fun k => (hsound k).mono fun _ hop => Carries.of_isPrefix hstep.isPrefix hop
      packets := fun packet hpacket => (hpackets packet hpacket).of_isPrefix hstep.isPrefix
      copied := ?_ }
  rcases hstep.logs_effects with ⟨hlogs, -⟩ | ⟨index, op, hmem, hlogs, -⟩
  · rw [hlogs]
    exact h.copied
  · have hgroup : LocalOk ct g (states c.logs g) := by
      have := hlocal.localOk hg (c.logs g).length
      rwa [List.take_length] at this
    rw [hlogs]
    exact copied_committed hgroup ((hlocal.sound g).started _ hmem).1
      ((h.sound g).started _ hmem) h.copied

theorem of_reachable [DecidableEq ν] {ok : ShardSystem ν → ShardAction ν → Prop}
    (h : (shardSystem ct makeEnd).Reachable ok c) : PullInv c := by
  refine h.invariant ?_ ?_
  · refine
      { sound := fun g => Service.Sound.start (machine g) _
        packets := by simp [shardSystem]
        copied := ?_ }
    intro g p s hp sh hsh
    simp only [shardSystem, ShardSystem.logs, Service.start, List.take_nil] at hsh
    cases hsh
  · intro c act c' hc hinv _ hstep
    rcases ShardSystem.step_cases hstep with ⟨_, _, clients, -, rfl⟩ | ⟨g, gact, -, hg, hhappens⟩
    · exact { hinv with }
    · exact hinv.happens (LocalInv.of_reachable hc) hg hhappens

end PullInv

/-- In every run, for every group and every part of its log, the table of clients is
    exact.  Each copy of a shard is what the mutations make that it is made by, all of
    them have taken effect on that shard, and the table knows them all.  A mutation
    that the table knows, itself or by a later number of its client, has taken effect
    in some group.  And no entry of a table is ever lowered. -/
theorem dedup_exact {ν : Type} [DecidableEq ν] {makeEnd : MakeEnd ν} (ct : History)
    {c : ShardSystem ν}
    (hc : (shardSystem ct makeEnd).Reachable System.anyStep c) :
    (∀ g p s sh, p ≤ (c.logs g).length →
      ((machine g).run ((c.logs g).take p)).shards s = some sh →
      ∃ ops, MadeBy c.logs g p s ops ∧ sh.data = made ops) ∧
    (∀ g p s ops, MadeBy c.logs g p s ops → ∀ op ∈ ops,
      (∃ h q, TakesEffect c.logs h q op ∧ key2shard op.key = s) ∧
      ∃ last, ((machine g).run ((c.logs g).take p)).dedup op.clientId = some last ∧
        op.seq ≤ last) ∧
    (∀ g p client last seq q,
      ((machine g).run ((c.logs g).take p)).dedup client = some last → seq ≤ last →
      .invoke (client, seq) q ∈ c.clients.calls → q.isGet = false →
      ∃ h r op, TakesEffect c.logs h r op ∧ op.id = (client, seq) ∧ op.query = q) ∧
    (∀ g p p', p ≤ p' → DedupLe ((machine g).run ((c.logs g).take p)).dedup
      ((machine g).run ((c.logs g).take p')).dedup) ∧
    ∀ c', (shardSystem ct makeEnd).Reaches System.anyStep c c' → ∀ g,
      DedupLe (c.group g).dedup (c'.group g).dedup := by
  have hinv := SessionInv.of_reachable hc
  refine ⟨?_, ?_, ?_, fun g p p' hle => dedup_mono g _ hle, ?_⟩
  · intro g p s sh hp hsh
    exact (PullInv.of_reachable hc).copied g p s hp sh hsh
  · intro g p s ops hmade op hop
    exact ⟨hmade.takesEffect op hop, hmade.known op hop⟩
  · intro g p client last seq q hlast hle hcall hmut
    obtain ⟨⟨t, _⟩, hcall, rfl⟩ := List.mem_map.mp hcall
    have hasked : c.clients.Asked (client, seq) q := ⟨t, hcall⟩
    -- the table is backed by an effect of this call or a later one
    have hbacked : Backed c.effects ((machine g).run ((c.logs g).take p)).dedup := by
      have hmono := dedupLe_append g ((c.logs g).take p) ((c.logs g).drop p)
      rw [List.take_append_drop] at hmono
      exact (hinv.backed g).of_le hmono
    obtain ⟨e, he, rfl, hseq, -⟩ := hbacked client last hlast
    obtain ⟨e', he', hid⟩ := hinv.served.exists_effect hinv.explained he
      (hinv.explained.asked_seq _ _ hasked).1 (hle.trans hseq)
    have hquery : e'.query = q :=
      hinv.explained.same_query _ _ _ (hinv.explained.asked e' he') (hid ▸ hasked)
    obtain ⟨h, r, op, htakes, hopid, hop⟩ := hinv.origin e' he' (hquery ▸ hmut)
    exact ⟨h, r, op, htakes, hopid.trans hid, hop.trans hquery⟩
  · intro c' hreach g
    obtain ⟨more, hmore⟩ := logs_isPrefix hreach g
    rw [ShardSystem.group, ShardSystem.group, ← hmore]
    exact dedupLe_append g _ more

/-- Group 2 has taken in shard 0 with the `Append` that group 1 carried out.  The reply
    of group 1 was lost, so the call is still outstanding. -/
theorem dedup_exact_handOff : ∃ (c : ShardSystem (Fin 3)) (sh : Shard) (ops : List ClientOp),
    (shardSystem handOff threeServers).Reachable System.anyStep c ∧
      (c.group 2).shards 0 = some sh ∧ sh.state = .gcing ∧ sh.data [0] = some [7] ∧
      MadeBy c.logs 2 (c.logs 2).length 0 ops ∧ sh.data = made ops ∧
      (c.group 2).dedup 0 = some 1 ∧
      ∃ h r op, TakesEffect c.logs h r op ∧ op.id = (0, 1) ∧ op.query = .append [0] [7] := by
  obtain ⟨c, hc, hcheck⟩ := (shardSystem handOff threeServers).exists_reachable_of_run
    System.anyStep (untilPulled ++ [.group 2 (.commit 2)])
    (fun c => ((c.group 2).shards 0).any fun (sh : Shard) =>
      decide (sh.state = .gcing ∧ sh.data [0] = some [7] ∧ (c.group 2).dedup 0 = some 1 ∧
        c.clients.calls = [.invoke (0, 1) (.append [0] [7])]))
    (by decide +kernel)
  obtain ⟨sh, hsh, hcheck⟩ := (Option.any_eq_true _ _).mp hcheck
  obtain ⟨hgcing, hvalue, hdedup, hcalls⟩ := of_decide_eq_true hcheck
  obtain ⟨hcopies, -, hsound, -, -⟩ := dedup_exact handOff.toHistory hc
  have hgroup : (machine 2).run ((c.logs 2).take (c.logs 2).length) = c.group 2 := by
    rw [List.take_length]
    rfl
  obtain ⟨ops, hmade, hdata⟩ := hcopies 2 _ 0 sh le_rfl (hgroup ▸ hsh)
  have htakes := hsound 2 _ 0 1 1 (.append [0] [7]) (hgroup ▸ hdedup) le_rfl
    (by rw [hcalls]; exact List.mem_singleton_self _) rfl
  exact ⟨c, sh, ops, hc, hsh, hgcing, hvalue, hmade, hdata, hdedup, htakes⟩

end RaftLabs.ShardKV
