import RaftLabs.ShardCtrlerConfigs
import RaftLabs.ShardKVDeletion

/-!
# Groups under the shard controller

The sharded store together with the controller that makes its configurations.
`Join`, `Leave` and `Move` come at any time; a group is answered when it asks for a
configuration that has been made.

A run of the groups is a run under any history that begins with the configurations
made so far.  So what holds under every history holds here, and since histories may
go on in different ways, no group can be further than the controller.
-/

namespace RaftLabs.ShardKV

open ReplicatedService

variable {ν : Type}

structure Deployment (ν : Type) where
  ctrl : Ctrl.ShardCtrler NShards Nat
  system : ShardSystem ν

inductive DeployAction (ν : Type) where
  /-- The controllers apply the next command of their log; `o` is the order in which
      maps are ranged over. -/
  | control (o : Ctrl.MapOrders Nat) (op : Ctrl.Op Nat)
  | system (act : ShardAction ν)

namespace Deployment

/-- The answers to `Query` if the controller stopped here. -/
def history (d : Deployment ν) : History where
  owner n s := if n = 0 then 0 else (d.ctrl.configAt n).shards s
  groups n gid := if n = 0 then [] else (d.ctrl.configAt n).servers gid
  unassigned _ := rfl
  ungrouped _ := rfl

/-- `configPoller` goes on only if the answer has the number that it asked for. -/
def answers (d : Deployment ν) : ShardAction ν → Bool
  | .group _ (.adopt k _) =>
    match d.system.packets[k]? with
    | some (.query _ num) => decide ((d.ctrl.configAt num).num = num)
    | _ => true
  | _ => true

variable [DecidableEq ν]

def step (makeEnd : MakeEnd ν) (d : Deployment ν) : DeployAction ν → Option (Deployment ν)
  | .control o op =>
    if o.Possible op.args d.ctrl.current then
      match d.ctrl.applyLoop o (d.ctrl.lastApplied + 1) op with
      | .ok ctrl => some { d with ctrl := ctrl }
      | .error _ => none
    else none
  | .system act =>
    if d.answers act then
      (d.system.step d.history makeEnd act).map fun system => { d with system := system }
    else none

end Deployment

/-- No group ever gets a shard. -/
def History.empty : History where
  owner _ _ := 0
  groups _ _ := []
  unassigned _ := rfl
  ungrouped _ := rfl

def deployment (makeEnd : MakeEnd ν) [DecidableEq ν] : System (Deployment ν) (DeployAction ν) where
  init := { ctrl := .start, system := (shardSystem History.empty makeEnd).init }
  step := Deployment.step makeEnd

/-! ### Histories that go on from here -/

/-- The history begins with these configurations. -/
def History.Continues (ct : History) (configs : List (Ctrl.Config NShards Nat)) : Prop :=
  ∀ (n : Nat) (cfg : Ctrl.Config NShards Nat), configs[n]? = some cfg →
    ct.owner n = cfg.shards ∧ ct.groups n = cfg.servers

theorem History.Continues.of_isPrefix {ct : History}
    {configs configs' : List (Ctrl.Config NShards Nat)}
    (h : ct.Continues configs') (hle : configs <+: configs') : ct.Continues configs := by
  intro n cfg hcfg
  obtain ⟨more, rfl⟩ := hle
  refine h n cfg ?_
  rw [List.getElem?_append_left (List.getElem?_eq_some_iff.mp hcfg).1]
  exact hcfg

/-- A step depends on the history only where a configuration is adopted. -/
theorem ShardSystem.step_congr [DecidableEq ν] {ct ct' : History} {makeEnd : MakeEnd ν}
    {c : ShardSystem ν} {act : ShardAction ν}
    (h : ∀ g k index caller num, act = .group g (.adopt k index) →
      c.packets[k]? = some (.query caller num) → ct.config num = ct'.config num) :
    c.step ct makeEnd act = c.step ct' makeEnd act := by
  cases act with
  | invoke => rfl
  | group g gact =>
    cases gact with
    | adopt k index =>
      simp only [ShardSystem.step, ShardSystem.groupStep]
      cases hpacket : c.packets[k]? with
      | none => rfl
      | some packet =>
        cases packet with
        | query caller num => simp only [h g k index caller num rfl hpacket]
        | pullRequest => rfl
        | pullReply => rfl
        | deleteRequest => rfl
        | deleteReply => rfl
    | _ => rfl

namespace Deployment

variable [DecidableEq ν] {makeEnd : MakeEnd ν} {d d' : Deployment ν}
  {ok : Deployment ν → DeployAction ν → Prop}

/-- A step is one of the controller or one of the groups. -/
theorem step_cases {act : DeployAction ν} (h : d.step makeEnd act = some d') :
    (∃ o op ctrl, act = .control o op ∧ o.Possible op.args d.ctrl.current ∧
      d.ctrl.applyLoop o (d.ctrl.lastApplied + 1) op = .ok ctrl ∧ d' = { d with ctrl := ctrl }) ∨
    ∃ sact system, act = .system sact ∧ d.answers sact = true ∧
      d.system.step d.history makeEnd sact = some system ∧ d' = { d with system := system } := by
  cases act with
  | control o op =>
    simp only [step] at h
    split at h
    · next ho =>
      split at h
      · next ctrl hctrl =>
        cases h
        exact .inl ⟨o, op, ctrl, rfl, ho, hctrl, rfl⟩
      · cases h
    · cases h
  | system sact =>
    simp only [step, Option.ite_none_right_eq_some, Option.map_eq_some_iff] at h
    obtain ⟨hanswers, system, hsystem, rfl⟩ := h
    exact .inr ⟨sact, system, rfl, hanswers, hsystem, rfl⟩

/-- The controller is a replica that has applied all of some log. -/
theorem replays (hd : (deployment makeEnd).Reachable ok d) :
    ∃ log, Ctrl.Replays log log.length d.ctrl := by
  refine hd.invariant (P := fun d => ∃ log, Ctrl.Replays log log.length d.ctrl) ?_ ?_
  · exact ⟨[], .start⟩
  · rintro d act d' - ⟨log, hlog⟩ - hstep
    rcases step_cases hstep with ⟨o, op, ctrl, -, ho, hctrl, rfl⟩ | ⟨_, _, -, -, -, rfl⟩
    · rw [hlog.lastApplied_eq] at hctrl
      refine ⟨log ++ [op], ?_⟩
      rw [List.length_append, List.length_singleton]
      exact (hlog.append [op]).next List.getElem?_concat_length ho hctrl
    · exact ⟨log, hlog⟩

/-- Configurations are only ever added. -/
theorem configs_isPrefix {act : DeployAction ν} (h : d.step makeEnd act = some d') :
    d.ctrl.configs <+: d'.ctrl.configs := by
  rcases step_cases h with ⟨o, op, ctrl, -, -, hctrl, rfl⟩ | ⟨_, _, -, -, -, rfl⟩
  · rcases Ctrl.ShardCtrler.applyLoop_cases hctrl with
      ⟨-, rfl⟩ | ⟨-, -, ⟨-, hconfigs, -⟩ | ⟨-, -, -, nc, -, hconfigs⟩⟩
    · exact List.prefix_rfl
    · exact hconfigs ▸ List.prefix_rfl
    · exact hconfigs ▸ List.prefix_append _ _
  · exact List.prefix_rfl

/-- The groups cannot tell how the history will go on. -/
theorem step_continues (hd : (deployment makeEnd).Reachable ok d) {ct : History}
    (hct : ct.Continues d.ctrl.configs) {act : ShardAction ν} (hanswers : d.answers act = true) :
    d.system.step ct makeEnd act = d.system.step d.history makeEnd act := by
  obtain ⟨log, hlog⟩ := replays hd
  refine ShardSystem.step_congr fun g k index caller num hact hpacket => ?_
  subst hact
  simp only [answers, hpacket, decide_eq_true_eq] at hanswers
  obtain ⟨howner, hgroups⟩ := hct num _ (hlog.configAt_eq hanswers)
  by_cases hnum : num = 0
  · subst hnum
    rw [ct.config_zero, d.history.config_zero]
  · simp only [History.config, history, if_neg hnum, howner, hgroups]

/-- The groups run under every history that begins with the configurations made so
    far. -/
theorem system_reachable {ok' : ShardSystem ν → ShardAction ν → Prop}
    (himp : ∀ d act, ok d (.system act) → ok' d.system act)
    (hd : (deployment makeEnd).Reachable ok d) {ct : History} (hct : ct.Continues d.ctrl.configs) :
    (shardSystem ct makeEnd).Reachable ok' d.system := by
  refine hd.invariant (P := fun d => ∀ ct : History, ct.Continues d.ctrl.configs →
    (shardSystem ct makeEnd).Reachable ok' d.system) ?_ ?_ ct hct
  · exact fun ct _ => .refl
  · intro d act d' hd ih hok hstep ct hct
    have hbefore := hct.of_isPrefix (configs_isPrefix hstep)
    rcases step_cases hstep with
      ⟨_, _, _, -, -, -, rfl⟩ | ⟨sact, system, rfl, hanswers, hsys, rfl⟩
    · exact ih ct hbefore
    · refine (ih ct hbefore).step (himp d sact hok) ?_
      rw [← step_continues hd hbefore hanswers] at hsys
      exact hsys

end Deployment

/-! ### What the groups know of the configurations -/

/-- A command that group `g` may be asked to log: configurations are those of the
    history, and shards that are deleted come to the group or go from it. -/
def Concerns (ct : History) (g : Nat) (op : Op) : Prop :=
  op.Genuine ct ∧ ∀ configNum shards, op = .deleteShard configNum shards → ∀ s ∈ shards,
    ∃ other, Transfers ct configNum s g other ∨ Transfers ct configNum s other g

/-- Deletions are asked for by the group that gets the shards. -/
def Asks (ct : History) : Packet → Prop
  | .query _ _ => True
  | .pullRequest _ _ _ _ => True
  | .pullReply _ _ _ => True
  | .deleteRequest caller callee _ args =>
    ∀ s ∈ args.shards, Transfers ct args.configNum s callee caller
  | .deleteReply caller args => ∀ s ∈ args.shards, ∃ old, Transfers ct args.configNum s old caller

/-- What groups log and send agrees with the history. -/
structure LocalInv (ct : History) (c : ShardSystem ν) : Prop where
  sound : ∀ g, (c.groups g).Sound (machine g) (Concerns ct g)
  packets : ∀ packet ∈ c.packets, Asks ct packet
  zero : c.logs 0 = []

namespace LocalInv

variable {ct : History} {makeEnd : MakeEnd ν} {c c' : ShardSystem ν} {g : Nat}

theorem localOk (hinv : LocalInv ct c) (hg : g ≠ 0) (p : Nat) :
    LocalOk ct g ((machine g).run ((c.logs g).take p)) :=
  localOk_of_sound (hinv.sound g) (fun _ hop => hop.1) hg p

theorem causes_concerns (hinv : LocalInv ct c) {op : Op}
    (hcause : ShardSystem.Causes ct c g op) : Concerns ct g op := by
  refine ⟨hcause.genuine, fun configNum shards heq s hs => ?_⟩
  subst heq
  rcases hcause.of_deleteShard with ⟨caller, name, hmem⟩ | hmem
  · exact ⟨caller, .inl (hinv.packets _ hmem s hs)⟩
  · exact (hinv.packets _ hmem s hs).imp fun _ => .inr

theorem emits_asks (hinv : LocalInv ct c) (hg : g ≠ 0) {packet : Packet}
    (hcause : c.Emits g packet) : Asks ct packet := by
  cases hcause with
  | query => trivial
  | pull => trivial
  | pulled => trivial
  | collect i callee name shards perm =>
    intro s hs
    obtain ⟨⟨sh, hsh, hstate⟩, hprev⟩ := OwnershipInv.mem_gidShards perm hs
    have hlocal := hinv.localOk hg ((c.groups g).position i)
    rw [ShardSystem.logs, ← ((hinv.sound g).servers i).state] at hlocal
    rw [← hprev]
    exact hlocal.transfers hg hsh (.inl hstate)
  | deleted caller name args mem => exact fun s hs => ⟨g, hinv.packets _ mem s hs⟩

theorem happens [DecidableEq ν] (hinv : LocalInv ct c) (hg : g ≠ 0) {act : GroupAction ν}
    (hstep : c.Happens ct g act c') : LocalInv ct c' := by
  obtain ⟨hsound, hpackets⟩ := hstep.keeps hinv.sound hinv.packets
    (fun _ => hinv.causes_concerns) fun _ => hinv.emits_asks hg
  exact ⟨hsound, hpackets, (hstep.logs_zero hg).trans hinv.zero⟩

theorem of_reachable [DecidableEq ν] {ok : ShardSystem ν → ShardAction ν → Prop}
    (h : (shardSystem ct makeEnd).Reachable ok c) : LocalInv ct c := by
  refine h.invariant ?_ ?_
  · exact
      { sound := fun g => Service.Sound.start (machine g) _
        packets := by simp [shardSystem]
        zero := rfl }
  · intro c act c' _ hinv _ hstep
    rcases ShardSystem.step_cases hstep with ⟨_, _, clients, -, rfl⟩ | ⟨g, gact, -, hg, hhappens⟩
    · exact { hinv with }
    · exact hinv.happens hg hhappens

end LocalInv

namespace Deployment

variable [DecidableEq ν] {makeEnd : MakeEnd ν} {d : Deployment ν}
  {ok : Deployment ν → DeployAction ν → Prop} {g : Nat}

/-- The configurations made so far, and then every shard at group `x`. -/
def continued (d : Deployment ν) (x : Nat) : History where
  owner n s := if n = 0 then 0 else ((d.ctrl.configs[n]?).map fun cfg => cfg.shards s).getD x
  groups n gid :=
    if n = 0 then [] else ((d.ctrl.configs[n]?).map fun cfg => cfg.servers gid).getD []
  unassigned _ := rfl
  ungrouped _ := rfl

theorem continues_continued (hd : (deployment makeEnd).Reachable ok d) (x : Nat) :
    (d.continued x).Continues d.ctrl.configs := by
  intro n cfg hcfg
  obtain ⟨log, hlog⟩ := replays hd
  by_cases hn : n = 0
  · subst hn
    rw [hlog.configs_zero] at hcfg
    cases hcfg
    exact ⟨rfl, rfl⟩
  · constructor
    · funext s
      simp [continued, hn, hcfg]
    · funext gid
      simp [continued, hn, hcfg]

theorem localInv (hd : (deployment makeEnd).Reachable ok d) (x : Nat) :
    LocalInv (d.continued x) d.system :=
  .of_reachable (system_reachable (fun _ _ _ => trivial) hd (continues_continued hd x) :
    (shardSystem (d.continued x) makeEnd).Reachable System.anyStep d.system)

/-- A group has adopted only configurations that were made. -/
theorem num_lt (hd : (deployment makeEnd).Reachable ok d) (hg : g ≠ 0) (p : Nat) :
    ((machine g).run ((d.system.logs g).take p)).config.num < d.ctrl.configs.length := by
  by_contra hge
  have hnone := List.getElem?_eq_none_iff.mpr (Nat.le_of_not_lt hge)
  have hpos := List.length_pos_iff.mpr d.ctrl.configs_ne
  -- Beyond the configurations that were made, histories differ.
  have howner : ∀ x, ((machine g).run ((d.system.logs g).take p)).config.shards 0 = x := by
    intro x
    rw [((localInv hd x).localOk hg p).owner_eq, continued]
    dsimp only
    rw [if_neg (by omega), hnone]
    rfl
  exact absurd ((howner 1).symm.trans (howner 2)) (by decide)

end Deployment

end RaftLabs.ShardKV
