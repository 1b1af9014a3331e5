import RaftLabs.ShardKVCreation
import RaftLabs.ShardKVProgress

/-!
# Hand-overs that can come

A group waits for a shard until the group that had it has answered, and it keeps a
shard that it gave up until the new owner has asked for its deletion.  `applyConfig`
does not look at who that is.  If it is group 0, or a group that never joined, there
is nobody to ask: the group stays in its configuration for ever.  So does a group that
has to pull a shard from a group that joined without a server that can be reached.

With a controller that takes no shard back and moves shards only to groups that are
there, of all of which a server is reached, and with deletions confirmed rightly, every
group can get to the latest configuration from wherever it is.
-/

namespace RaftLabs.ShardKV

open ReplicatedService

variable {ν : Type} {makeEnd : MakeEnd ν} {g : Nat} {s : Fin NShards}

/-- Of every group that `Join` brings, a server is reached under one of its names. -/
def JoinsReached (makeEnd : MakeEnd ν) : Ctrl.Args Nat → Prop
  | .join servers => ∀ gid ∈ servers.keys, Reached makeEnd gid ((servers.lookup gid).getD [])
  | .leave _ => True
  | .move _ _ => True
  | .query _ => True

instance (makeEnd : MakeEnd ν) (args : Ctrl.Args Nat) : Decidable (JoinsReached makeEnd args) :=
  match args with
  | .join servers => inferInstanceAs (Decidable (∀ gid ∈ servers.keys, _))
  | .leave _ => isTrue trivial
  | .move _ _ => isTrue trivial
  | .query _ => isTrue trivial

/-- The condition on the steps: what the controller executes is valid, takes no shard
    back and brings only groups that can be reached, and handlers are only sent results of
    their own deletions. -/
def Steady (makeEnd : MakeEnd ν) (d : Deployment ν) : DeployAction ν → Prop
  | .control _ op => op.args.isQuery = false → d.ctrl.Fresh op →
      op.args.Valid d.ctrl.current ∧ op.args.Keeps d.ctrl.current ∧ JoinsReached makeEnd op.args
  | .system act => OwnDeletions d.system act

instance (makeEnd : MakeEnd ν) (d : Deployment ν) (act : DeployAction ν) :
    Decidable (Steady makeEnd d act) :=
  match act with
  | .control _ _ => inferInstanceAs (Decidable (_ → _))
  | .system _ => inferInstanceAs (Decidable (OwnDeletions _ _))

theorem Steady.keepsShards {d : Deployment ν} {act : DeployAction ν} (h : Steady makeEnd d act) :
    KeepsShards d act := by
  cases act with
  | control o op => exact fun hmutates hfresh => (h hmutates hfresh).2.1
  | system act => trivial

/-- What a group in this state waits for can come: the new owner of a shard that it
    gave up and the old owner of a shard that it gets are groups of the configuration. -/
structure Deployment.Expects (d : Deployment ν) (g : Nat) (st : ShardStore) : Prop where
  bePulling : ∀ s sh, st.shards s = some sh → sh.state = .bePulling →
    ∃ cfg, d.ctrl.configs[st.config.num]? = some cfg ∧ cfg.shards s = st.config.shards s ∧
      cfg.shards s ≠ 0 ∧ cfg.shards s ≠ g ∧ cfg.shards s ∈ cfg.groups
  awaited : ∀ s sh, st.shards s = some sh → sh.state = .pulling ∨ sh.state = .gcing →
    ∃ n cfg, st.config.num = n + 1 ∧ d.ctrl.configs[n]? = some cfg ∧
      cfg.shards s = st.prevConfig.shards s ∧ cfg.shards s ∈ cfg.groups

namespace Deployment

variable [DecidableEq ν] {d d' : Deployment ν} {ok : Deployment ν → DeployAction ν → Prop}

/-- What the first configuration has and every mutation keeps, all configurations have. -/
theorem forall_configs {P : Ctrl.Config NShards Nat → Prop}
    (hstart : P { num := 0, shards := fun _ => 0, groups := ∅ })
    (hnext : ∀ (d : Deployment ν) o op nc, ok d (.control o op) → op.args.isQuery = false →
      d.ctrl.Fresh op → o.Possible op.args d.ctrl.current → P d.ctrl.current →
      Ctrl.nextConfig o op.args d.ctrl.current = .ok nc → P nc)
    (hd : (deployment makeEnd).Reachable ok d) : ∀ cfg ∈ d.ctrl.configs, P cfg := by
  refine hd.invariant (P := fun d => ∀ cfg ∈ d.ctrl.configs, P cfg) ?_ ?_
  · exact List.forall_mem_singleton.mpr hstart
  · intro d act d' _ hinv hok hstep
    rcases step_cases hstep with ⟨o, op, ctrl, rfl, ho, hctrl, rfl⟩ | ⟨_, _, -, -, -, rfl⟩
    · rcases Ctrl.ShardCtrler.applyLoop_cases hctrl with
        ⟨-, rfl⟩ | ⟨-, -, ⟨-, hconfigs, -⟩ | ⟨hmutates, hfresh, -, nc, hnc, hconfigs⟩⟩
      · exact hinv
      · rw [hconfigs]
        exact hinv
      · rw [hconfigs]
        refine List.forall_mem_append.mpr ⟨hinv, List.forall_mem_singleton.mpr ?_⟩
        exact hnext d o op nc hok hmutates hfresh ho (hinv _ d.ctrl.current_mem) hnc
    · exact hinv

theorem wellFormed (hd : (deployment makeEnd).Reachable (Steady makeEnd) d) :
    ∀ cfg ∈ d.ctrl.configs, cfg.WellFormed ∧ 0 ∉ cfg.groups := by
  refine forall_configs (P := fun cfg => cfg.WellFormed ∧ 0 ∉ cfg.groups) ?_ ?_ hd
  · exact ⟨fun s => ⟨.inr rfl, iff_of_true rfl rfl⟩, Finmap.notMem_empty⟩
  · rintro d o op nc hok hmutates hfresh ho ⟨hlast, hzero⟩ hnc
    obtain ⟨hvalid, hkeeps, -⟩ := hok hmutates hfresh
    obtain ⟨nc', hnc', hnew⟩ := Ctrl.nextConfig_wellFormed ho hzero hlast
      (fun servers hargs => by
        rw [hargs] at hkeeps
        exact hkeeps.1) hvalid
    rw [hnc] at hnc'
    cases hnc'
    exact hnew

/-- Of every group of a configuration a server is reached. -/
theorem reached (hd : (deployment makeEnd).Reachable (Steady makeEnd) d) :
    ∀ cfg ∈ d.ctrl.configs, ∀ gid names, cfg.groups.lookup gid = some names →
      Reached makeEnd gid names := by
  refine forall_configs (P := fun cfg => ∀ gid names, cfg.groups.lookup gid = some names →
    Reached makeEnd gid names) ?_ ?_ hd
  · intro gid names hnames
    rw [Finmap.lookup_empty] at hnames
    cases hnames
  · intro d o op nc hok hmutates hfresh ho hlast hnc gid names hnames
    rcases Ctrl.lookup_of_nextConfig ho hnc hnames with hnames | ⟨servers, hargs, hnames⟩
    · exact hlast gid names hnames
    · have hjoins := (hok hmutates hfresh).2.2
      rw [hargs] at hjoins
      have hmem : gid ∈ servers.keys :=
        Finmap.mem_keys.mpr (Finmap.lookup_isSome.mp (hnames ▸ rfl))
      have hreached := hjoins gid hmem
      rwa [hnames] at hreached

omit [DecidableEq ν] in
/-- The configurations of a history that goes on from here. -/
theorem continued_owner {n : Nat} (hn : n ≠ 0) {cfg : Ctrl.Config NShards Nat}
    (hcfg : d.ctrl.configs[n]? = some cfg) (x : Nat) (s : Fin NShards) :
    (d.continued x).owner n s = cfg.shards s := by
  simp [continued, hn, hcfg]

/-- An owner other than 0 is a group of the configuration. -/
theorem owner_mem (hd : (deployment makeEnd).Reachable (Steady makeEnd) d) {n : Nat}
    (hn : n < d.ctrl.configs.length) (howner : (d.continued 1).owner n s ≠ 0) :
    ∃ cfg, d.ctrl.configs[n]? = some cfg ∧ cfg.shards s = (d.continued 1).owner n s ∧
      cfg.shards s ∈ cfg.groups := by
  have hcfg := List.getElem?_eq_getElem hn
  have hn0 : n ≠ 0 := by
    rintro rfl
    exact howner rfl
  have heq := continued_owner hn0 hcfg 1 s
  refine ⟨_, hcfg, heq.symm, ?_⟩
  have hwf := (wellFormed hd _ (List.mem_of_getElem? hcfg)).1 s
  exact hwf.1.resolve_right (heq ▸ howner)

theorem expects (hd : (deployment makeEnd).Reachable (Steady makeEnd) d) (hg : g ≠ 0) (p : Nat) :
    d.Expects g ((machine g).run ((d.system.logs g).take p)) := by
  have hlocal := (localInv hd 1).localOk hg p
  have hlt := num_lt hd hg p
  have hkept := (d.controller (keptInv (hd.mono fun _ _ h => h.keepsShards))).kept
  revert hlocal hlt
  generalize (machine g).run ((d.system.logs g).take p) = st
  intro hlocal hlt
  refine { bePulling := ?_, awaited := ?_ }
  · intro s sh hsh hstate
    have hfits := hlocal.fits hsh
    simp only [History.Fits, hstate] at hfits
    obtain ⟨hpos, hold, hnew⟩ := hfits
    obtain ⟨n, hn⟩ := Nat.exists_eq_succ_of_ne_zero hpos.ne'
    have hzero : (d.continued 1).owner st.config.num s ≠ 0 := by
      rw [hn] at hold ⊢
      exact hkept n s (hold ▸ hg)
    obtain ⟨cfg, hcfg, heq, hmem⟩ := owner_mem hd hlt hzero
    refine ⟨cfg, hcfg, ?_, heq ▸ hzero, heq ▸ hnew, hmem⟩
    rw [heq, hlocal.owner_eq]
  · intro s sh hsh hstate
    have htransfers := hlocal.transfers hg hsh hstate.symm
    obtain ⟨n, hn⟩ := Nat.exists_eq_succ_of_ne_zero htransfers.pos.ne'
    have hold := htransfers.old_eq
    rw [hn, Nat.succ_sub_one] at hold
    obtain ⟨cfg, hcfg, heq, hmem⟩ := owner_mem hd (n := n) (s := s) (by omega)
      (hold ▸ htransfers.old_ne)
    exact ⟨n, cfg, hn, hcfg, heq.trans hold, hmem⟩

/-- A server of an owner other than 0 is reached. -/
theorem reached_owner (hd : (deployment makeEnd).Reachable (Steady makeEnd) d) {n : Nat}
    (hn : n < d.ctrl.configs.length) (howner : (d.continued 1).owner n s ≠ 0) :
    Reached makeEnd ((d.continued 1).owner n s)
      ((d.continued 1).groups n ((d.continued 1).owner n s)) := by
  obtain ⟨cfg, hcfg, heq, hmem⟩ := owner_mem hd hn howner
  obtain ⟨names, hnames⟩ := Finmap.mem_iff.mp hmem
  have hn0 : n ≠ 0 := by
    rintro rfl
    exact howner rfl
  have hgroups : (d.continued 1).groups n (cfg.shards s) = names := by
    simp [continued, hn0, hcfg, Ctrl.Config.servers, hnames]
  rw [← heq, hgroups]
  exact reached hd cfg (List.mem_of_getElem? hcfg) _ names hnames

/-- What the groups can do while the controller does nothing. -/
theorem reaches_system (hd : (deployment makeEnd).Reachable ok d)
    (himp : ∀ (d : Deployment ν) act, OwnDeletions d.system act → ok d (.system act)) {ct : History}
    (hct : ct.Continues d.ctrl.configs) {c : ShardSystem ν}
    (h : (shardSystem ct makeEnd).Reaches (Regular d.ctrl.configs.length) d.system c) :
    (deployment makeEnd).Reaches ok d { d with system := c } := by
  induction h with
  | refl => exact .refl
  | @tail c₁ c₂ _ hstep ih =>
    obtain ⟨act, hok, hstep⟩ := hstep
    have hd₁ : (deployment makeEnd).Reachable ok { d with system := c₁ } := hd.trans ih
    obtain ⟨log, hlog⟩ := replays hd
    have hanswers : Deployment.answers { d with system := c₁ } act = true := by
      unfold answers
      split
      · next g k index =>
        split
        · next caller num hpacket =>
          have hlt := hok.2 g k index caller num rfl hpacket
          have hcfg := List.getElem?_eq_getElem hlt
          rw [decide_eq_true_eq, Ctrl.ShardCtrler.configAt,
            if_neg (Int.not_lt.mpr (Int.natCast_nonneg num)), Int.toNat_natCast, hcfg]
          exact hlog.num_eq hcfg
        · rfl
      · rfl
    refine ih.tail ⟨.system act, himp _ act hok.1, ?_⟩
    have hstep' := step_continues hd₁ hct hanswers
    rw [show ({ d with system := c₁ } : Deployment ν).system.step ct makeEnd act = some c₂
      from hstep] at hstep'
    simp [deployment, step, hanswers, ← hstep']

/-- The groups that own a shard in one of the first `N` configurations. -/
def owners (ct : History) (N : Nat) : List Nat :=
  ((List.range N).flatMap fun n => (List.finRange NShards).map (ct.owner n)).filter (· ≠ 0)

theorem mem_owners {ct : History} {N n : Nat} (hn : n < N) (hs : ct.owner n s ≠ 0) :
    ct.owner n s ∈ owners ct N := by
  simp only [owners, List.mem_filter, List.mem_flatMap, List.mem_range, List.mem_map,
    List.mem_finRange, true_and, decide_eq_true_eq]
  exact ⟨⟨n, hn, s, rfl⟩, hs⟩

/-- A group can get to the latest configuration and be settled there. -/
theorem exists_settled [Nonempty ν] (hd : (deployment makeEnd).Reachable (Steady makeEnd) d)
    (hg : g ≠ 0) :
    ∃ d', (deployment makeEnd).Reaches (Steady makeEnd) d d' ∧ d'.ctrl = d.ctrl ∧
      (d'.system.group g).settled = true ∧
      (d'.system.group g).config.num + 1 = d.ctrl.configs.length := by
  obtain ⟨i⟩ := ‹Nonempty ν›
  have hpos := List.length_pos_iff.mpr d.ctrl.configs_ne
  have hct := continues_continued hd 1
  have hc : (shardSystem (d.continued 1) makeEnd).Reachable OwnDeletions d.system :=
    system_reachable (fun _ _ h => h) hd hct
  have hkept := (d.controller (keptInv (hd.mono fun _ _ h => h.keepsShards))).kept
  have hzero : 0 ∉ g :: owners (d.continued 1) d.ctrl.configs.length := by
    simp [owners, hg.symm]
  obtain ⟨c, hreach, hcalm⟩ := exists_calm (N := d.ctrl.configs.length)
    (m := d.ctrl.configs.length - 1) hzero i hc (by omega)
    (fun n s hn hs => List.mem_cons_of_mem g (mem_owners hn hs))
    (fun n s hn hs => reached_owner hd hn hs) (fun n s _ => hkept n s)
  have hreach' := reaches_system hd (fun _ _ h => h) hct hreach
  refine ⟨_, hreach', rfl, ?_⟩
  have hlt := num_lt (hd.trans hreach') hg (c.logs g).length
  dsimp only at hlt
  rw [List.take_length] at hlt
  change (c.group g).config.num < _ at hlt
  rcases hcalm g List.mem_cons_self with hbeyond | ⟨hnum, hsettled⟩
  · omega
  · exact ⟨hsettled, by dsimp only; omega⟩

end Deployment

/-- In every run in which the controller is only asked for what is valid, takes no shard
    back and is told of groups that can be reached, and handlers are only sent results of
    their own deletions: what a group, or one of its replicas, waits for can come, and
    every group can get to the latest configuration and be settled there. -/
theorem handover_can_come [DecidableEq ν] [Nonempty ν] (makeEnd : MakeEnd ν) (d : Deployment ν)
    (hd : (deployment makeEnd).Reachable (Steady makeEnd) d) (g : Nat) (hg : g ≠ 0) :
    d.Expects g (d.system.group g) ∧
    (∀ i, d.Expects g ((d.system.groups g).servers i).state) ∧
    ∃ d', (deployment makeEnd).Reaches (Steady makeEnd) d d' ∧ d'.ctrl = d.ctrl ∧
      (d'.system.group g).settled = true ∧
      (d'.system.group g).config.num + 1 = d.ctrl.configs.length := by
  refine ⟨?_, fun i => ?_, Deployment.exists_settled hd hg⟩
  · have hexpects := Deployment.expects hd hg (d.system.logs g).length
    rwa [List.take_length] at hexpects
  · have hat := ((Deployment.localInv hd 1).sound g).servers i
    rw [hat.state]
    exact Deployment.expects hd hg _

/-! ### Waiting for ever -/

/-- The group keeps shard `s` for group 0. -/
def Stranded (st : ShardStore) (s : Fin NShards) : Prop :=
  st.config.shards s = 0 ∧ ∃ sh, st.shards s = some sh ∧ sh.state = .bePulling

theorem Stranded.not_settled {st : ShardStore} (h : Stranded st s) : st.settled = false := by
  obtain ⟨-, sh, hsh, hstate⟩ := h
  by_contra hsettled
  rw [Bool.not_eq_false, settled_iff] at hsettled
  rw [hsettled s sh hsh] at hstate
  cases hstate

/-- Nobody asks for the deletion of the shard, and without it no configuration is
    adopted. -/
theorem Stranded.apply {ct : History} {st st' : ShardStore} {op : Op} (h : Stranded st s)
    (happ : Applies g st op st') (hlocal : LocalOk ct g st) (hop : Concerns ct g op) (hg : g ≠ 0) :
    Stranded st' s ∧ st'.config = st.config := by
  have hlocal' := hlocal.apply hop.1 happ
  have hnot := h.not_settled
  obtain ⟨hzero, sh, hsh, hstate⟩ := h
  have howner : ct.owner st.config.num s = 0 := (hlocal.owner_eq s).symm.trans hzero
  have hkept : st'.config.num = st.config.num ∧
      ∃ sh, st'.shards s = some sh ∧ sh.state = .bePulling := by
    have hev := happ.evolves s
    revert hev
    generalize st'.config.num = num
    generalize st'.shards s = new
    intro hev
    cases hev with
    | same => exact ⟨rfl, sh, hsh, hstate⟩
    | wrote _ _ _ _ _ has serving =>
      rw [hsh] at has
      cases has
      rw [hstate] at serving
      cases serving
    | migrated _ _ _ settled =>
      rw [hnot] at settled
      cases settled
    | installed _ _ _ _ _ _ has pulling =>
      rw [hsh] at has
      cases has
      rw [hstate] at pulling
      cases pulling
    | confirmed _ _ _ _ has gcing =>
      rw [hsh] at has
      cases has
      rw [hstate] at gcing
      cases gcing
    | removed shards _ eq mem =>
      obtain ⟨other, htransfers | htransfers⟩ := hop.2 _ _ eq s mem
      · exact absurd (htransfers.new_eq.symm.trans howner) htransfers.new_ne
      · exact absurd (htransfers.new_eq.symm.trans howner) hg
  have hconfig : st'.config = st.config := by
    rw [hlocal'.config, hkept.1, ← hlocal.config]
  exact ⟨⟨hconfig ▸ hzero, hkept.2⟩, hconfig⟩

/-- A group that keeps a shard for group 0 stays where it is. -/
theorem Stranded.step [DecidableEq ν] {d d' : Deployment ν} {act : DeployAction ν}
    {ok : Deployment ν → DeployAction ν → Prop} (h : Stranded (d.system.group g) s) (hg : g ≠ 0)
    (hd : (deployment makeEnd).Reachable ok d) (hstep : (deployment makeEnd).step d act = some d') :
    Stranded (d'.system.group g) s ∧ (d'.system.group g).config = (d.system.group g).config := by
  rcases Deployment.step_cases hstep with
    ⟨o, op, ctrl, -, -, -, rfl⟩ | ⟨sact, system, -, hanswers, hsys, rfl⟩
  · exact ⟨h, rfl⟩
  · have hinv := Deployment.localInv hd 1
    have hlocal := hinv.localOk hg (d.system.logs g).length
    rw [List.take_length] at hlocal
    rcases ShardSystem.step_logs hsys with hlogs | ⟨k, index, op, hk, hmem, hlogs⟩
    · rw [group_eq_of_logs hlogs]
      exact ⟨h, rfl⟩
    · by_cases hgk : g = k
      · subst hgk
        have hgroup : system.group g = (ShardKV.apply g (d.system.group g) op).1 := by
          rw [ShardSystem.group, hlogs, Function.update_self]
          exact (machine g).run_snoc _ op
        rw [hgroup]
        exact h.apply (applies g _ op) hlocal ((hinv.sound g).started _ hmem) hg
      · have hgroup : system.group g = d.system.group g := by
          rw [ShardSystem.group, hlogs, Function.update_of_ne hgk]
          rfl
        rw [hgroup]
        exact ⟨h, rfl⟩

theorem Stranded.reaches [DecidableEq ν] {d d' : Deployment ν}
    {ok : Deployment ν → DeployAction ν → Prop} (h : Stranded (d.system.group g) s) (hg : g ≠ 0)
    (hd : (deployment makeEnd).Reachable ok d) (hreach : (deployment makeEnd).Reaches ok d d') :
    Stranded (d'.system.group g) s ∧ (d'.system.group g).config = (d.system.group g).config := by
  induction hreach with
  | refl => exact ⟨h, rfl⟩
  | tail hreach hstep ih =>
    obtain ⟨act, -, hstep⟩ := hstep
    obtain ⟨hstranded, hconfig⟩ := ih.1.step hg (hd.trans hreach) hstep
    exact ⟨hstranded, hconfig.trans ih.2⟩

/-- Group 1 has left and keeps shard 0 for group 0.  However the run goes on, it stays
    in configuration 2 and is never settled. -/
theorem leave_strands : ∃ d : Deployment (Fin 3),
    (deployment threeServers).Reachable System.anyStep d ∧ ¬ d.Expects 1 (d.system.group 1) ∧
      ∀ d', (deployment threeServers).Reaches System.anyStep d d' →
        (d'.system.group 1).config.num = 2 ∧ (d'.system.group 1).settled = false := by
  obtain ⟨d, hd, hcheck⟩ := (deployment threeServers).exists_reachable_of_run
    System.anyStep untilLeft
    (fun d => decide ((d.system.group 1).config.num = 2 ∧ (d.system.group 1).config.shards 0 = 0 ∧
      ((d.system.group 1).shards 0).any
        (fun (sh : Shard) => decide (sh.state = .bePulling)) = true))
    (by decide +kernel)
  obtain ⟨hnum, hzero, hshard⟩ := of_decide_eq_true hcheck
  rw [Option.any_eq_true] at hshard
  obtain ⟨sh, hsh, hstate⟩ := hshard
  have hstate := of_decide_eq_true hstate
  have hstranded : Stranded (d.system.group 1) 0 := ⟨hzero, sh, hsh, hstate⟩
  refine ⟨d, hd, fun hexpects => ?_, fun d' hreach => ?_⟩
  · obtain ⟨cfg, -, heq, hne, -⟩ := hexpects.bePulling 0 sh hsh hstate
    exact hne (heq.trans hzero)
  · obtain ⟨hstranded', hconfig⟩ := hstranded.reaches Nat.one_ne_zero hd hreach
    exact ⟨hconfig ▸ hnum, hstranded'.not_settled⟩

/-- Groups 1 and 2 join one after the other.  Group 1 has adopted both configurations
    and keeps shard 0 for group 2, which has not heard of them. -/
theorem handover_can_come_joined : ∃ d : Deployment (Fin 3),
    (deployment threeServers).Reachable (Steady threeServers) d ∧
      (d.system.group 1).settled = false ∧
      (d.system.group 2).config.num = 0 ∧ d.Expects 1 (d.system.group 1) ∧
      ∃ d', (deployment threeServers).Reaches (Steady threeServers) d d' ∧
        (d'.system.group 1).settled = true := by
  obtain ⟨d, hd, hcheck⟩ := (deployment threeServers).exists_reachable_of_run
    (Steady threeServers)
    ([.control ⟨[], [1], [1]⟩ (joins 1 1), .control ⟨[1], [2], [2, 1]⟩ (joins 2 2)] ++
      ([.group 1 (.poll 0), .group 1 (.adopt 0 1), .group 1 (.commit 0),
        .group 1 (.move (.apply 0 false)), .group 1 (.poll 0), .group 1 (.adopt 1 2),
        .group 1 (.commit 1)] : List (ShardAction (Fin 3))).map .system)
    (fun d => decide ((d.system.group 1).settled = false ∧ (d.system.group 2).config.num = 0))
    (by decide +kernel)
  obtain ⟨hsettled, hnum⟩ := of_decide_eq_true hcheck
  obtain ⟨hexpects, -, d', hreach, -, hsettled', -⟩ := handover_can_come threeServers d hd 1
    Nat.one_ne_zero
  exact ⟨d, hd, hsettled, hnum, hexpects, d', hreach, hsettled'⟩

end RaftLabs.ShardKV
