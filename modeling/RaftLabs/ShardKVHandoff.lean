import RaftLabs.ShardKVOwnership

/-!
# Exact hand-off of shards

What a group installs for a shard is what the old owner held when it adopted the
configuration, whichever replica sent it and however late it came; and the old
owner keeps its copy until the new one has committed the installation.
-/

namespace RaftLabs.ShardKV

open ReplicatedService

variable {ν : Type} {ct : Controller} {makeEnd : MakeEnd ν} {c c' : ShardSystem ν} {g : Nat}
  {s : Fin NShards}

/-- A step that changes a shard of group `g` applies a command to it. -/
theorem OwnershipInv.step_applies [DecidableEq ν] (hinv : OwnershipInv ct c) {act : ShardAction ν}
    (hstep : c.step ct makeEnd act = some c') (hne : (c'.group g).shards s ≠ (c.group g).shards s) :
    g ≠ 0 ∧ ∃ op, OpOk ct c.logs g op ∧ c'.group g = (apply g (c.group g) op).1 := by
  rcases ShardSystem.step_logs hstep with hlogs | ⟨h, index, op, hh, hmem, hlogs⟩
  · exact absurd (by rw [ShardSystem.group, ShardSystem.group, hlogs]) hne
  · by_cases hgh : g = h
    · subst hgh
      refine ⟨hh, op, (hinv.sound g).started _ hmem, ?_⟩
      rw [ShardSystem.group, hlogs, Function.update_self]
      exact (machine g).run_snoc _ op
    · refine absurd ?_ hne
      rw [ShardSystem.group, hlogs, Function.update_of_ne hgh]
      rfl

/-! ### Installation -/

/-- `data` is what the owner of `s` before configuration `num` held when its log applied
    that configuration, and `dedup` knows of all the mutations it then knew of. -/
def HandedOver (ct : Controller) (L : Nat → List Op) (num : Nat) (s : Fin NShards)
    (data : ShardData) (dedup : Nat → Option Nat) : Prop :=
  ∃ n p sh, num = n + 1 ∧ ct.owner n s ≠ 0 ∧
    Adopts (ct.owner n s) (L (ct.owner n s)) p num ∧
    ((machine (ct.owner n s)).run ((L (ct.owner n s)).take p)).shards s = some sh ∧
    data = sh.data ∧
    DedupLe ((machine (ct.owner n s)).run ((L (ct.owner n s)).take p)).dedup dedup

/-- What group `g` has when it takes the shard from `Pulling` to `GCing`. -/
theorem OwnershipInv.install_exact [DecidableEq ν] (hinv : OwnershipInv ct c)
    {act : ShardAction ν} (hstep : c.step ct makeEnd act = some c') {sh sh' : Shard}
    (hold : (c.group g).shards s = some sh) (hpulling : sh.state = .pulling)
    (hnew : (c'.group g).shards s = some sh') (hgcing : sh'.state = .gcing) :
    HandedOver ct c.logs (c.group g).config.num s sh'.data (c'.group g).dedup := by
  have hne : (c'.group g).shards s ≠ (c.group g).shards s := by
    rw [hnew, hold]
    intro heq
    cases heq
    rw [hpulling] at hgcing
    cases hgcing
  obtain ⟨hg, op, hok, happly⟩ := hinv.step_applies hstep hne
  have hev := (applies g (c.group g) op).evolves s
  rw [← happly, hnew] at hev
  generalize (c'.group g).config.num = num at hev
  generalize hsome : some sh' = new at hev
  cases hev with
  | same =>
    rw [← hnew] at hsome
    exact absurd hsome hne
  | wrote cop sh₀ eq key owns has serving =>
    cases hsome
    rw [serving] at hgcing
    cases hgcing
  | migrated config eq next settled =>
    rw [settled_iff.mp settled s sh hold] at hpulling
    cases hpulling
  | installed shards shardData dedup sh₀ eq mem has pulling =>
    cases hsome
    subst eq
    obtain ⟨n, p, hnum, hmoves, howner, hadopts, hdedup, hdata⟩ := hok s mem
    have hmerge : (c'.group g).dedup = ShardStore.mergeDedup (c.group g).dedup dedup := by
      rw [happly, dedup_installShard]
    refine ⟨n, p, ?_⟩
    rcases hdata with htaken | ⟨shA, hshA, hdata⟩
    · rw [← hnum] at htaken
      exact absurd htaken (not_taken_of_pulling has pulling)
    · rw [← hnum] at hadopts
      refine ⟨shA, hnum, hmoves.1, hadopts, hshA, ?_, ?_⟩
      · simp [hdata]
      · rw [hmerge]
        exact hdedup.trans (dedupLe_merge_right _ _)
  | confirmed shards sh₀ eq mem has gcing =>
    cases hsome
    cases hgcing
  | removed => cases hsome

/-! ### Deletion -/

/-- A copy that was given up changes only after its new owner has installed it. -/
theorem OwnershipInv.delete_installed [DecidableEq ν] (hinv : OwnershipInv ct c)
    {act : ShardAction ν} (hstep : c.step ct makeEnd act = some c') {sh : Shard}
    (hold : (c.group g).shards s = some sh) (hgiven : sh.state = .bePulling)
    (hne : (c'.group g).shards s ≠ (c.group g).shards s) :
    ct.owner (c.group g).config.num s ≠ 0 ∧
      ∃ q, Installs (ct.owner (c.group g).config.num s)
        (c.logs (ct.owner (c.group g).config.num s)) q (c.group g).config.num s := by
  obtain ⟨hg, op, hok, happly⟩ := hinv.step_applies hstep hne
  have hclash : ∀ sh₀, (c.group g).shards s = some sh₀ → sh₀.state ≠ .bePulling → False := by
    intro sh₀ hsh₀ hstate
    rw [hold] at hsh₀
    cases hsh₀
    exact hstate hgiven
  have hev := (applies g (c.group g) op).evolves s
  rw [← happly] at hev
  generalize (c'.group g).config.num = num at hev
  generalize hnew : (c'.group g).shards s = new at hev hne
  cases hev with
  | same => exact absurd rfl hne
  | wrote cop sh₀ eq key owns has serving => exact (hclash sh₀ has (by simp [serving])).elim
  | migrated config eq next settled =>
    exact (hclash sh hold (by simp [settled_iff.mp settled s sh hold])).elim
  | installed shards shardData dedup sh₀ eq mem has pulling =>
    exact (hclash sh₀ has (by simp [pulling])).elim
  | confirmed shards sh₀ eq mem has gcing => exact (hclash sh₀ has (by simp [gcing])).elim
  | removed shards sh₀ eq mem has bePulling =>
    subst eq
    have hfits := (hinv.groups.localOk g hg).fits hold
    simp only [History.Fits, hgiven] at hfits
    obtain ⟨hpos, hprev, hnext⟩ := hfits
    have hprev : ct.owner ((c.group g).config.num - 1) s = g := hprev
    have hassigned : ct.owner ((c.group g).config.num - 1) s ≠ 0 := by
      rw [hprev]
      exact hg
    have howner := ct.owner_ne_zero hassigned (Nat.sub_le _ 1)
    refine ⟨howner, exists_installs howner (hinv.genuine _) hpos rfl ?_ hassigned ?_⟩
    · rw [hprev]
      exact Ne.symm hnext
    · exact hok s mem

/-! ### Exact hand-off -/

/-- In every step of every run: a shard that goes from `Pulling` to `GCing` gets the
    data that its old owner held when it adopted the configuration, and the group
    then knows of all the mutations the old owner knew of at that moment; and the
    copy of a group that gave a shard up changes only once the new owner's log has
    the `InstallShard` entry that installed it. -/
theorem shard_handoff_exact [DecidableEq ν] (ct : Controller) (c c' : ShardSystem ν)
    (act : ShardAction ν) (hc : (shardSystem ct makeEnd).Reachable System.anyStep c)
    (hstep : (shardSystem ct makeEnd).step c act = some c') :
    (∀ g s sh sh', (c.group g).shards s = some sh → sh.state = .pulling →
      (c'.group g).shards s = some sh' → sh'.state = .gcing →
      HandedOver ct c.logs (c.group g).config.num s sh'.data (c'.group g).dedup) ∧
    ∀ g s sh, (c.group g).shards s = some sh → sh.state = .bePulling →
      (c'.group g).shards s ≠ (c.group g).shards s →
      ct.owner (c.group g).config.num s ≠ 0 ∧
        ∃ q, Installs (ct.owner (c.group g).config.num s)
          (c.logs (ct.owner (c.group g).config.num s)) q (c.group g).config.num s := by
  have hinv := OwnershipInv.of_reachable hc
  constructor
  · intro g s sh sh' hold hpulling hnew hgcing
    exact hinv.install_exact hstep hold hpulling hnew hgcing
  · intro g s sh hold hgiven hne
    exact hinv.delete_installed hstep hold hgiven hne

/-- Group 2 installs shard 0 and has the value that was appended at group 1; after that
    group 1 deletes its copy. -/
theorem shard_handoff_exact_handOff :
    (∃ (c c' : ShardSystem (Fin 3)) (sh' : Shard),
      (shardSystem handOff threeServers).Reachable System.anyStep c ∧
        (c'.group 2).shards 0 = some sh' ∧ sh'.data [0] = some [7] ∧
        HandedOver handOff c.logs 2 0 sh'.data (c'.group 2).dedup) ∧
    ∃ c c' : ShardSystem (Fin 3),
      (shardSystem handOff threeServers).Reachable System.anyStep c ∧
        ((c.group 1).shards 0).isSome = true ∧ (c'.group 1).shards 0 = none ∧
        ∃ q, Installs 2 (c.logs 2) q 2 0 := by
  constructor
  · obtain ⟨c, c', hc, hstep, hcheck⟩ := (shardSystem handOff threeServers).exists_step_of_run
      System.anyStep untilPulled (.group 2 (.commit 2))
      (fun (c c' : ShardSystem (Fin 3)) => ((c.group 2).shards 0).any fun (sh : Shard) =>
        ((c'.group 2).shards 0).any fun (sh' : Shard) =>
          decide ((c.group 2).config.num = 2 ∧ sh.state = .pulling ∧ sh'.state = .gcing ∧
            sh'.data [0] = some [7]))
      (by decide +kernel)
    simp only [Option.any_eq_true] at hcheck
    obtain ⟨sh, hold, sh', hnew, hcheck⟩ := hcheck
    obtain ⟨hnum, hpulling, hgcing, hdata⟩ := of_decide_eq_true hcheck
    have hhanded :=
      (shard_handoff_exact handOff c c' _ hc hstep).1 2 0 sh sh' hold hpulling hnew hgcing
    rw [hnum] at hhanded
    exact ⟨c, c', sh', hc, hnew, hdata, hhanded⟩
  · obtain ⟨c, c', hc, hstep, hcheck⟩ := (shardSystem handOff threeServers).exists_step_of_run
      System.anyStep (untilPulled ++ untilServed.take 6) (.group 1 (.commit 3))
      (fun (c c' : ShardSystem (Fin 3)) => ((c.group 1).shards 0).any fun (sh : Shard) =>
        decide (((c'.group 1).shards 0).isNone = true ∧ (c.group 1).config.num = 2 ∧
          sh.state = .bePulling))
      (by decide +kernel)
    simp only [Option.any_eq_true] at hcheck
    obtain ⟨sh, hold, hcheck⟩ := hcheck
    obtain ⟨hnone, hnum, hgiven⟩ := of_decide_eq_true hcheck
    have hnew := Option.isNone_iff_eq_none.mp hnone
    obtain ⟨-, q, hinstalls⟩ := (shard_handoff_exact handOff c c' _ hc hstep).2 1 0 sh hold hgiven
      (by rw [hold, hnew]; exact (Option.some_ne_none sh).symm)
    rw [hnum] at hinstalls
    exact ⟨c, c', hc, by rw [hold]; rfl, hnew, q, hinstalls⟩

end RaftLabs.ShardKV
