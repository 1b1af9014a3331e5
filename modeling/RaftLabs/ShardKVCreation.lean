import RaftLabs.ShardDeployment
import RaftLabs.ShardKVHandoff
import RaftLabs.ShardKVLinearizable

/-!
# Empty shards

A group that gets a shard which no group had in the configuration before makes an
empty one.  That is right as long as no shard is ever taken back to group 0, since
then the shard has had no owner at all.  `Leave` of the last group takes all shards
back, though, and the next `Join` gives them out as new.

A key in any copy of a shard anywhere comes from a mutation of that shard, so it is
enough to know that no mutation of the shard took effect.
-/

namespace RaftLabs.ShardKV

open Linearizability ReplicatedService

variable {ν : Type} {effects : Effects} {g : Nat} {s : Fin NShards} {st : ShardStore} {op : Op}

/-! ### Where keys come from -/

/-- Some mutation of the shard has taken effect. -/
def Touched (effects : Effects) (s : Fin NShards) : Prop := ∃ e ∈ effects, Touches e s

theorem Touched.append (h : Touched effects s) (more : Effects) : Touched (effects ++ more) s := by
  obtain ⟨e, he, htouches⟩ := h
  exact ⟨e, List.mem_append_left _ he, htouches⟩

/-- A copy of shard `s` with this data has a key only if the shard was touched. -/
def Marked (effects : Effects) (s : Fin NShards) (data : ShardData) : Prop :=
  ∀ key v, data key = some v → Touched effects s

theorem Marked.append {data : ShardData} (h : Marked effects s data) (more : Effects) :
    Marked (effects ++ more) s data :=
  fun key v hv => (h key v hv).append more

theorem marked_empty (effects : Effects) (s : Fin NShards) : Marked effects s fun _ => none :=
  fun _ _ hv => nomatch hv

def StoreMarked (effects : Effects) (st : ShardStore) : Prop :=
  ∀ s sh, st.shards s = some sh → Marked effects s sh.data

def OpMarked (effects : Effects) : Op → Prop
  | .installShard _ _ shardData _ => ∀ s data, shardData s = some data → Marked effects s data
  | .client _ => True
  | .config _ => True
  | .deleteShard _ _ => True
  | .empty => True

def PacketMarked (effects : Effects) : Packet → Prop
  | .pullReply _ _ reply => ∀ s data, reply.data s = some data → Marked effects s data
  | .query _ _ => True
  | .pullRequest _ _ _ _ => True
  | .deleteRequest _ _ _ _ => True
  | .deleteReply _ _ => True

theorem OpMarked.append (h : OpMarked effects op) (more : Effects) :
    OpMarked (effects ++ more) op := by
  cases op with
  | installShard => exact fun s data hdata => (h s data hdata).append more
  | client => trivial
  | config => trivial
  | deleteShard => trivial
  | empty => trivial

theorem PacketMarked.append {packet : Packet} (h : PacketMarked effects packet) (more : Effects) :
    PacketMarked (effects ++ more) packet := by
  cases packet with
  | pullReply => exact fun s data hdata => (h s data hdata).append more
  | query => trivial
  | pullRequest => trivial
  | deleteRequest => trivial
  | deleteReply => trivial

/-- A change of configuration brings no keys. -/
theorem migrate_data {gid oldGid newGid : Nat} {before : Option Shard} {sh : Shard}
    (h : ShardStore.migrate gid oldGid newGid before = some sh) :
    (∃ sh₀, before = some sh₀ ∧ sh.data = sh₀.data) ∨ sh.data = fun _ => none := by
  unfold ShardStore.migrate at h
  split at h
  · split at h
    · obtain ⟨sh₀, rfl, rfl⟩ := Option.map_eq_some_iff.mp h
      exact .inl ⟨sh₀, rfl, rfl⟩
    · exact .inl ⟨sh, h, rfl⟩
  · split at h
    · cases h
      cases before with
      | none => exact .inr rfl
      | some sh₀ => exact .inl ⟨sh₀, rfl, rfl⟩
    · cases h
      exact .inr rfl

/-- A mutation that is executed has an effect that touches its shard. -/
theorem touched_of_wrote {cop : ClientOp} {sh : Shard}
    (howns : st.config.shards (key2shard cop.key) = g)
    (has : st.shards (key2shard cop.key) = some sh) (hserving : sh.state = .serving)
    (hmut : cop.type ≠ .get) (hfresh : st.duplicate cop = false) :
    Touched (st.effects g (.client cop)) (key2shard cop.key) := by
  have hcan : st.canServe g (key2shard cop.key) = true :=
    canServe_iff.mpr ⟨howns, sh, has, hserving⟩
  refine ⟨st.effect cop, by simp [ShardStore.effects, hcan, hfresh], ?_, ?_⟩
  · simpa [ShardStore.effect, cop.isGet_query] using hmut
  · exact congrArg key2shard cop.key_query

theorem StoreMarked.apply (h : StoreMarked effects st) (hop : OpMarked effects op) :
    StoreMarked (effects ++ st.effects g op) (ShardKV.apply g st op).1 := by
  intro s sh hsh
  have hev := (applies g st op).evolves s
  rw [hsh] at hev
  generalize (ShardKV.apply g st op).1.config.num = num at hev
  generalize hnew : some sh = new at hev
  cases hev with
  | same => exact (h s sh hnew.symm).append _
  | wrote cop sh₀ eq key owns has serving mutates fresh =>
    subst eq key
    cases hnew
    obtain ⟨e, he, htouches⟩ := touched_of_wrote owns has serving mutates fresh
    exact fun _ _ _ => ⟨e, List.mem_append_right _ he, htouches⟩
  | migrated config eq next settled =>
    rcases migrate_data hnew.symm with ⟨sh₀, hsh₀, hdata⟩ | hdata
    · rw [hdata]
      exact (h s sh₀ hsh₀).append _
    · rw [hdata]
      exact marked_empty _ s
  | installed shards shardData dedup sh₀ eq mem has pulling =>
    subst eq
    cases hnew
    cases hdata : shardData s with
    | none => exact marked_empty _ s
    | some data => exact (hop s data hdata).append _
  | confirmed shards sh₀ eq mem has gcing =>
    cases hnew
    exact (h s sh₀ has).append _
  | removed => cases hnew

/-- Every copy of a shard, at every position of every log and on its way between
    groups, has keys only if the shard was touched. -/
structure MarkedInv (c : ShardSystem ν) : Prop where
  sound : ∀ g, (c.groups g).Sound (machine g) (OpMarked c.effects)
  stores : ∀ g p, StoreMarked c.effects ((machine g).run ((c.logs g).take p))
  packets : ∀ packet ∈ c.packets, PacketMarked c.effects packet

namespace MarkedInv

variable {ct : History} {makeEnd : MakeEnd ν} {c c' : ShardSystem ν}

theorem causes_marked (h : MarkedInv c) (hcause : ShardSystem.Causes ct c g op) :
    OpMarked c.effects op := by
  cases hcause with
  | install args reply mem => exact h.packets _ mem
  | client => trivial
  | config => trivial
  | delete => trivial
  | confirm => trivial
  | empty => trivial

theorem emits_marked (h : MarkedInv c) {packet : Packet} (hcause : c.Emits g packet) :
    PacketMarked c.effects packet := by
  cases hcause with
  | pulled i caller name args reply mem eq =>
    intro s data hdata
    have hstore := h.stores g ((c.groups g).position i)
    rw [ShardSystem.logs, ← ((h.sound g).servers i).state] at hstore
    simp only [ShardStore.pullShard, Option.ite_none_left_eq_some, Option.some.injEq] at eq
    obtain ⟨-, rfl⟩ := eq
    simp only [Option.ite_none_right_eq_some] at hdata
    obtain ⟨-, hdata⟩ := hdata
    split at hdata
    · next sh hsh =>
      cases hdata
      exact hstore s sh hsh
    · cases hdata
      exact marked_empty _ s
  | query => trivial
  | pull => trivial
  | collect => trivial
  | deleted => trivial

theorem stores_commit (h : MarkedInv c) (hop : OpMarked c.effects op) (g k p : Nat) :
    StoreMarked (c.effects ++ (c.group g).effects g op)
      ((machine k).run ((Function.update c.logs g (c.logs g ++ [op]) k).take p)) := by
  have hbefore : StoreMarked (c.effects ++ (c.group g).effects g op)
      ((machine k).run ((c.logs k).take p)) :=
    fun s sh hsh => (h.stores k p s sh hsh).append _
  by_cases hk : k = g
  · subst hk
    rw [Function.update_self]
    by_cases hp : p ≤ (c.logs k).length
    · rw [List.take_append_of_le_length hp]
      exact hbefore
    · -- the new entry is applied to the state of the whole log
      rw [List.take_of_length_le (by rw [List.length_append, List.length_singleton]; omega),
        (machine k).run_snoc]
      have hstore := h.stores k (c.logs k).length
      rw [List.take_length] at hstore
      exact hstore.apply hop
  · rw [Function.update_of_ne hk]
    exact hbefore

theorem happens [DecidableEq ν] (h : MarkedInv c) {act : GroupAction ν}
    (hstep : c.Happens ct g act c') : MarkedInv c' := by
  obtain ⟨hsound, hpackets⟩ := hstep.keeps h.sound h.packets
    (fun _ => h.causes_marked) fun _ => h.emits_marked
  obtain ⟨more, hmore⟩ := hstep.exists_effects
  refine { sound := ?_, stores := ?_, packets := ?_ }
  · rw [hmore]
    exact fun k => (hsound k).mono fun _ hop => hop.append more
  · rcases hstep.logs_effects with ⟨hlogs, heffects⟩ | ⟨index, op, hmem, hlogs, heffects⟩
    · rw [hlogs, heffects]
      exact h.stores
    · rw [hlogs, heffects]
      exact h.stores_commit ((h.sound g).started _ hmem) g
  · rw [hmore]
    exact fun packet hpacket => (hpackets packet hpacket).append more

theorem of_reachable [DecidableEq ν] {ok : ShardSystem ν → ShardAction ν → Prop}
    (h : (shardSystem ct makeEnd).Reachable ok c) : MarkedInv c := by
  refine h.invariant ?_ ?_
  · exact
      { sound := fun g => Service.Sound.start (machine g) _
        stores := fun g p s sh hsh => by
          have hnil : ((shardSystem ct makeEnd).init.logs g).take p = [] := List.take_nil
          rw [hnil] at hsh
          cases hsh
        packets := by simp [shardSystem] }
  · intro c act c' _ hinv _ hstep
    rcases ShardSystem.step_cases hstep with ⟨_, _, clients, -, rfl⟩ | ⟨g, gact, -, hg, hhappens⟩
    · exact { hinv with }
    · exact hinv.happens hhappens

end MarkedInv

/-! ### Shards that nobody has -/

/-- No group has a key of the shard, in its committed state or at any replica, and no
    `Put` or `Append` to the shard has returned. -/
structure ShardSystem.Vacant (c : ShardSystem ν) (s : Fin NShards) : Prop where
  group : ∀ g sh, (c.group g).shards s = some sh → ∀ key, sh.data key = none
  replica : ∀ g i sh, ((c.groups g).servers i).state.shards s = some sh → ∀ key, sh.data key = none
  acknowledged : ∀ i q r, .invoke i q ∈ c.clients.calls → .respond i r ∈ c.clients.calls →
    key2shard q.key = s → q.isGet = true

theorem MarkedInv.vacant {c : ShardSystem ν} (h : MarkedInv c)
    (hcl : Explained c.clients c.effects) (hnone : ∀ e ∈ c.effects, ¬ Touches e s) :
    c.Vacant s := by
  have hempty : ∀ g p sh, ((machine g).run ((c.logs g).take p)).shards s = some sh →
      ∀ key, sh.data key = none := by
    intro g p sh hsh key
    by_contra hkey
    obtain ⟨v, hv⟩ := Option.ne_none_iff_exists'.mp hkey
    obtain ⟨e, he, htouches⟩ := h.stores g p s sh hsh key v hv
    exact hnone e he htouches
  refine { group := ?_, replica := ?_, acknowledged := ?_ }
  · intro g sh hsh
    refine hempty g (c.logs g).length sh ?_
    rwa [List.take_length]
  · intro g i sh hsh
    refine hempty g ((c.groups g).position i) sh ?_
    rwa [ShardSystem.logs, ← ((h.sound g).servers i).state]
  · intro i q r hcall hreturn hkey
    obtain ⟨⟨t, _⟩, hcall, rfl⟩ := List.mem_map.mp hcall
    obtain ⟨⟨t', _⟩, hreturn, rfl⟩ := List.mem_map.mp hreturn
    obtain ⟨_, e, -, he, rfl, -⟩ := hcl.before_respond t' i r hreturn
    have he := List.mem_of_getElem? he
    have hquery := hcl.same_query _ _ _ (hcl.asked e he) ⟨t, hcall⟩
    by_contra hmut
    refine hnone e he ⟨?_, ?_⟩
    · simpa [hquery] using hmut
    · rw [hquery]
      exact hkey

/-! ### The configurations of a run -/

/-- The condition on the controller: what it executes takes no shard back to group 0. -/
def KeepsShards (d : Deployment ν) : DeployAction ν → Prop
  | .control _ op => op.args.isQuery = false → d.ctrl.Fresh op → op.args.Keeps d.ctrl.current
  | .system _ => True

instance (d : Deployment ν) (act : DeployAction ν) : Decidable (KeepsShards d act) :=
  match act with
  | .control _ _ => inferInstanceAs (Decidable (_ → _))
  | .system _ => isTrue trivial

/-- A shard that has a group keeps one. -/
structure KeptInv (configs : List (Ctrl.Config NShards Nat)) : Prop where
  zero : ∀ cfg ∈ configs, 0 ∉ cfg.groups
  kept : ∀ (n : Nat) (cfg cfg' : Ctrl.Config NShards Nat) (s : Fin NShards),
    configs[n]? = some cfg → configs[n + 1]? = some cfg' → cfg'.shards s = 0 → cfg.shards s = 0

theorem KeptInv.snoc {configs : List (Ctrl.Config NShards Nat)} {last nc : Ctrl.Config NShards Nat}
    (h : KeptInv configs) (hlast : configs[configs.length - 1]? = some last)
    (hzero : 0 ∉ nc.groups) (hkept : ∀ s, nc.shards s = 0 → last.shards s = 0) :
    KeptInv (configs ++ [nc]) where
  zero cfg hcfg := by
    rcases List.mem_append.mp hcfg with hcfg | hcfg
    · exact h.zero cfg hcfg
    · cases List.mem_singleton.mp hcfg
      exact hzero
  kept n cfg cfg' s hcfg hcfg' := by
    rcases Nat.lt_trichotomy (n + 1) configs.length with hlt | heq | hgt
    · rw [List.getElem?_append_left (Nat.lt_of_succ_lt hlt)] at hcfg
      rw [List.getElem?_append_left hlt] at hcfg'
      exact h.kept n cfg cfg' s hcfg hcfg'
    · rw [heq, List.getElem?_concat_length] at hcfg'
      rw [List.getElem?_append_left (by omega)] at hcfg
      rw [← heq, Nat.add_sub_cancel, hcfg] at hlast
      cases hcfg'
      cases hlast
      exact hkept s
    · rw [List.getElem?_eq_none (by rw [List.length_append, List.length_singleton]; omega)] at hcfg'
      cases hcfg'

namespace Deployment

variable [DecidableEq ν] {makeEnd : MakeEnd ν} {d d' : Deployment ν}
  {ok : Deployment ν → DeployAction ν → Prop}

theorem keptInv (hd : (deployment makeEnd).Reachable KeepsShards d) : KeptInv d.ctrl.configs := by
  refine hd.invariant (P := fun d => KeptInv d.ctrl.configs) ?_ ?_
  · refine { zero := ?_, kept := ?_ }
    · intro cfg hcfg
      cases List.mem_singleton.mp hcfg
      exact Finmap.notMem_empty
    · intro n cfg cfg' s _ hcfg'
      cases hcfg'
  · intro d act d' _ hinv hok hstep
    rcases step_cases hstep with ⟨o, op, ctrl, rfl, ho, hctrl, rfl⟩ | ⟨_, _, -, -, -, rfl⟩
    · rcases Ctrl.ShardCtrler.applyLoop_cases hctrl with
        ⟨-, rfl⟩ | ⟨-, -, ⟨-, hconfigs, -⟩ | ⟨hmutates, hfresh, -, nc, hnc, hconfigs⟩⟩
      · exact hinv
      · rw [hconfigs]
        exact hinv
      · have hcurrent := d.ctrl.getElem?_current
        obtain ⟨hzero, hkept⟩ := Ctrl.nextConfig_keeps ho
          (hinv.zero _ (List.mem_of_getElem? hcurrent)) (hok hmutates hfresh) hnc
        rw [hconfigs]
        exact hinv.snoc hcurrent hzero hkept
    · exact hinv

/-- As long as no shard is taken back, this is a history under which the groups are
    safe. -/
def controller (d : Deployment ν) (h : KeptInv d.ctrl.configs) : Controller where
  toHistory := d.continued 1
  kept n s hn := by
    by_cases hzero : n = 0
    · exact absurd (if_pos hzero) hn
    · simp only [continued, if_neg hzero, if_neg (Nat.succ_ne_zero n)] at hn ⊢
      cases hnext : d.ctrl.configs[n + 1]? with
      | none => exact Nat.one_ne_zero
      | some cfg' =>
        have hlt := (List.getElem?_eq_some_iff.mp hnext).1
        have hcfg := List.getElem?_eq_getElem (Nat.lt_of_succ_lt hlt)
        rw [hcfg] at hn
        exact fun heq => hn (h.kept n _ cfg' s hcfg hnext heq)

theorem linearInv (hd : (deployment makeEnd).Reachable KeepsShards d) :
    LinearInv (d.controller (keptInv hd)) d.system :=
  .of_reachable (system_reachable (fun _ _ _ => trivial) hd (continues_continued hd 1))

theorem markedInv (hd : (deployment makeEnd).Reachable ok d) : MarkedInv d.system :=
  .of_reachable (system_reachable (fun _ _ _ => trivial) hd (continues_continued hd 1) :
    (shardSystem (d.continued 1) makeEnd).Reachable System.anyStep d.system)

end Deployment

/-! ### Creation -/

/-- A shard that appears in state `Serving` had no group before. -/
theorem OwnershipInv.created [DecidableEq ν] {ct : Controller} {c c' : ShardSystem ν}
    (hinv : OwnershipInv ct c) {act : ShardAction ν} (hstep : c.step ct makeEnd act = some c')
    {sh : Shard}
    (hold : (c.group g).shards s = none) (hnew : (c'.group g).shards s = some sh)
    (hserving : sh.state = .serving) :
    g ≠ 0 ∧ sh = newShard ∧ ct.owner (c.group g).config.num s = 0 ∧
      ct.owner ((c.group g).config.num + 1) s = g := by
  have hne : (c'.group g).shards s ≠ (c.group g).shards s := by
    rw [hnew, hold]
    exact Option.some_ne_none sh
  obtain ⟨hg, op, hok, happly⟩ := hinv.step_applies hstep hne
  have hev := (applies g (c.group g) op).evolves s
  rw [← happly, hnew] at hev
  generalize (c'.group g).config.num = num at hev
  generalize hsome : some sh = new at hev
  cases hev with
  | same => exact absurd (hsome.trans hold) (Option.some_ne_none sh)
  | wrote _ _ _ _ _ has => rw [hold] at has; cases has
  | migrated config eq next settled =>
    subst eq
    have hlocal : LocalOk ct g (c.group g) := hinv.groups.localOk g hg
    have hmigrates := hlocal.adopted_migrates hok.genuine next settled s
    rw [← hsome, hold] at hmigrates
    generalize hshard : some sh = shard at hmigrates
    cases hmigrates with
    | absent => cases hshard
    | created old new =>
      cases hshard
      exact ⟨hg, rfl, old, new⟩
    | awaited =>
      cases hshard
      cases hserving
  | installed _ _ _ _ _ _ has => rw [hold] at has; cases has
  | confirmed _ _ _ _ has => rw [hold] at has; cases has
  | removed => cases hsome

/-- In every run in which no `Join`, `Leave` or `Move` takes a shard back to group 0:
    when a shard appears at a group in state `Serving`, it is empty, no group has a key
    of it and no `Put` or `Append` to it has returned. -/
theorem empty_shard_is_new [DecidableEq ν] {makeEnd : MakeEnd ν} (d d' : Deployment ν)
    (act : DeployAction ν) (hd : (deployment makeEnd).Reachable KeepsShards d)
    (hstep : (deployment makeEnd).step d act = some d') (g : Nat) (s : Fin NShards) (sh : Shard)
    (hold : (d.system.group g).shards s = none)
    (hnew : (d'.system.group g).shards s = some sh) (hserving : sh.state = .serving) :
    (∀ key, sh.data key = none) ∧ d.system.Vacant s := by
  rcases Deployment.step_cases hstep with
    ⟨o, op, ctrl, -, -, -, rfl⟩ | ⟨sact, system, -, hanswers, hsys, rfl⟩
  · -- the controller does not touch the groups
    exact absurd (hnew.symm.trans hold) (Option.some_ne_none sh)
  · have hinv := Deployment.linearInv hd
    rw [← Deployment.step_continues hd (Deployment.continues_continued hd 1) hanswers] at hsys
    obtain ⟨hg, rfl, hzero, howner⟩ := hinv.own.created hsys hold hnew hserving
    refine ⟨fun _ => rfl, ?_⟩
    exact (Deployment.markedInv hd).vacant hinv.explained
      (hinv.data.untouched_of_unassigned hzero howner hg)

/-- `Join` of one group. -/
def joins (gid : Nat) (seq : Int) : Ctrl.Op Nat :=
  { args := .join (Finmap.singleton gid serverNames), clientId := 0, seq := seq }

/-- Group 1 joins, an `Append` to shard 0 is executed there and returns, group 1 leaves
    and adopts the configuration without groups. -/
def untilLeft : List (DeployAction (Fin 3)) :=
  [.control ⟨[], [1], [1]⟩ (joins 1 1)] ++
    ([.group 1 (.poll 0), .group 1 (.adopt 0 1), .group 1 (.commit 0),
      .group 1 (.move (.apply 0 false)), .invoke 0 (.append [0] [7]), .group 1 (.serve 0 0),
      .group 1 (.move (.start 0 2)), .group 1 (.move (.register 0)), .group 1 (.commit 1),
      .group 1 (.move (.apply 0 false)), .group 1 (.move (.receive 0)),
      .group 1 (.move (.finish 0)), .group 1 (.reply 0)] :
        List (ShardAction (Fin 3))).map .system ++
    [.control ⟨[1], [], []⟩ { args := .leave [1], clientId := 0, seq := 2 }] ++
    ([.group 1 (.poll 0), .group 1 (.adopt 1 3), .group 1 (.commit 2),
      .group 1 (.move (.apply 0 false))] : List (ShardAction (Fin 3))).map .system

/-- Group 2 joins and has the configurations up to the one that gives it all shards. -/
def untilRejoined : List (DeployAction (Fin 3)) :=
  [.control ⟨[], [2], [2]⟩ (joins 2 3)] ++
    ([.group 2 (.poll 0), .group 2 (.adopt 2 1), .group 2 (.commit 0),
      .group 2 (.move (.apply 0 false)), .group 2 (.poll 0), .group 2 (.adopt 3 2),
      .group 2 (.commit 1), .group 2 (.move (.apply 0 false)), .group 2 (.poll 0),
      .group 2 (.adopt 4 3)] : List (ShardAction (Fin 3))).map .system

/-- Group 2 makes an empty shard 0 and serves it while group 1 has a key of it that
    was acknowledged. -/
theorem empty_shard_after_leave : ∃ (d d' : Deployment (Fin 3)) (sh : Shard),
    (deployment threeServers).Reachable System.anyStep d ∧
      (deployment threeServers).step d (.system (.group 2 (.commit 2))) = some d' ∧
      (d.system.group 2).shards 0 = none ∧ (d'.system.group 2).shards 0 = some sh ∧
      sh.state = .serving ∧ sh.data [0] = none ∧
      ((d.system.group 1).shards 0).map (fun sh => sh.data [0]) = some (some [7]) ∧
      d.system.clients.calls = [.invoke (0, 1) (.append [0] [7]), .respond (0, 1) none] := by
  obtain ⟨d, d', hd, hstep, hcheck⟩ := (deployment threeServers).exists_step_of_run System.anyStep
    (untilLeft ++ untilRejoined) (.system (.group 2 (.commit 2)))
    (fun d d' => decide (((d.system.group 2).shards 0).isNone ∧
      ((d'.system.group 2).shards 0).any (fun sh => sh.state = .serving ∧ (sh.data [0]).isNone) ∧
      ((d.system.group 1).shards 0).map (fun sh => sh.data [0]) = some (some [7]) ∧
      d.system.clients.calls = [.invoke (0, 1) (.append [0] [7]), .respond (0, 1) none]))
    (by decide +kernel)
  obtain ⟨hold, hnew, hkey, hcalls⟩ := of_decide_eq_true hcheck
  cases hsh : (d'.system.group 2).shards 0 with
  | none =>
    rw [hsh] at hnew
    cases hnew
  | some sh =>
    rw [hsh, Option.any_some, decide_eq_true_eq, Option.isNone_iff_eq_none] at hnew
    exact ⟨d, d', sh, hd, hstep, Option.isNone_iff_eq_none.mp hold, hsh, hnew.1, hnew.2, hkey,
      hcalls⟩

/-- Without the `Leave`: group 1 makes shard 0 while a call to it is outstanding. -/
theorem empty_shard_is_new_joined : ∃ (d d' : Deployment (Fin 3)) (sh : Shard),
    (deployment threeServers).Reachable KeepsShards d ∧
      (deployment threeServers).step d (.system (.group 1 (.commit 0))) = some d' ∧
      (d.system.group 1).shards 0 = none ∧ (d'.system.group 1).shards 0 = some sh ∧
      sh.state = .serving ∧ d.system.Vacant 0 := by
  obtain ⟨d, d', hd, hstep, hcheck⟩ := (deployment threeServers).exists_step_of_run KeepsShards
    ([.control ⟨[], [1], [1]⟩ (joins 1 1), .control ⟨[1], [2], [2, 1]⟩ (joins 2 2)] ++
      ([.invoke 0 (.append [0] [7]), .group 1 (.poll 0), .group 1 (.adopt 0 1)] :
        List (ShardAction (Fin 3))).map .system)
    (.system (.group 1 (.commit 0)))
    (fun d d' => decide (((d.system.group 1).shards 0).isNone ∧
      ((d'.system.group 1).shards 0).any (fun sh => sh.state = .serving)))
    (by decide +kernel)
  obtain ⟨hold, hnew⟩ := of_decide_eq_true hcheck
  have hold := Option.isNone_iff_eq_none.mp hold
  cases hsh : (d'.system.group 1).shards 0 with
  | none =>
    rw [hsh] at hnew
    cases hnew
  | some sh =>
    rw [hsh, Option.any_some, decide_eq_true_eq] at hnew
    exact ⟨d, d', sh, hd, hstep, hold, hsh, hnew,
      (empty_shard_is_new d d' _ hd hstep 1 0 sh hold hsh hnew).2⟩

end RaftLabs.ShardKV
