import RaftLabs.ShardKVLog
import RaftLabs.ShardKVSystem

/-!
# Exclusive ownership of shards

Groups go through the configurations at their own pace.  What keeps two of them
from serving one shard is a chain: whoever holds a shard at configuration `m` has
got it, directly or through others, from every earlier owner, and each of them had
adopted the configuration that took the shard away from it (`Passed`).  A copy that
was given up is kept until its new owner has taken it in.
-/

namespace RaftLabs.ShardKV

open ReplicatedService

variable {ct : Controller} {G : Nat → ShardStore} {g h n m : Nat} {s : Fin NShards}

/-! ### The chain of owners -/

/-- Configuration `n + 1` takes shard `s` away from its owner. -/
def Controller.Moves (ct : Controller) (n : Nat) (s : Fin NShards) : Prop :=
  ct.owner n s ≠ 0 ∧ ct.owner (n + 1) s ≠ ct.owner n s

theorem Controller.owner_ne_zero {k : Nat} (hk : ct.owner k s ≠ 0) (hkm : k ≤ m) :
    ct.owner m s ≠ 0 := by
  induction hkm with
  | refl => exact hk
  | step _ ih => exact ct.kept _ s ih

/-- Every owner of `s` up to configuration `m` that lost it has adopted the
    configuration that took it away. -/
def Passed (ct : Controller) (G : Nat → ShardStore) (s : Fin NShards) (m : Nat) : Prop :=
  ∀ j < m, ct.Moves j s → j + 1 ≤ (G (ct.owner j s)).config.num

/-- The group has the shard and nobody else is to give it to the group. -/
def Held (st : ShardStore) (s : Fin NShards) : Prop :=
  ∃ sh, st.shards s = some sh ∧ (sh.state = .serving ∨ sh.state = .gcing)

theorem Passed.mono {G' : Nat → ShardStore} (hp : Passed ct G s m)
    (hnum : ∀ g, (G g).config.num ≤ (G' g).config.num) : Passed ct G' s m :=
  fun j hj hmoves => (hp j hj hmoves).trans (hnum _)

/-- An owner at `k` is still the owner at `m`, or has gone beyond `k`. -/
theorem Passed.owner_or_lt {k : Nat} (hp : Passed ct G s m) (hkm : k ≤ m)
    (howner : ct.owner k s = g) (hg : g ≠ 0) :
    ct.owner m s = g ∨ k < (G g).config.num := by
  induction hkm with
  | refl => exact .inl howner
  | @step m hkm ih =>
    have hp' : Passed ct G s m := fun j hj => hp j (Nat.lt_succ_of_lt hj)
    rcases ih hp' with hm | hlt
    · by_cases hnext : ct.owner (m + 1) s = g
      · exact .inl hnext
      · have := hp m (Nat.lt_succ_self m) ⟨hm ▸ hg, hm ▸ hnext⟩
        rw [hm] at this
        exact .inr (lt_of_le_of_lt hkm this)
    · exact .inr hlt

/-! ### What holds between the groups -/

structure GroupsOk (ct : Controller) (G : Nat → ShardStore) : Prop where
  localOk : ∀ g, g ≠ 0 → LocalOk ct g (G g)
  held : ∀ g s, g ≠ 0 → Held (G g) s → Passed ct G s (G g).config.num
  past : ∀ g s j, g ≠ 0 → j < (G g).config.num → ct.owner j s = g → Passed ct G s j
  kept : ∀ n s, ct.Moves n s → n + 1 ≤ (G (ct.owner n s)).config.num →
    ¬ Taken (G (ct.owner (n + 1) s)) (n + 1) s →
    (G (ct.owner n s)).config.num = n + 1 ∧
      ∃ sh, (G (ct.owner n s)).shards s = some sh ∧ sh.state = .bePulling

namespace GroupsOk

theorem owner_of_held (hG : GroupsOk ct G) (hg : g ≠ 0) (hheld : Held (G g) s) :
    ct.owner (G g).config.num s = g := by
  obtain ⟨sh, hsh, hstate | hstate⟩ := hheld
  · exact (hG.localOk g hg).owned hsh hstate
  · have := (hG.localOk g hg).fits hsh
    simp only [History.Fits, hstate] at this
    exact this.2.1

/-- No two groups hold one shard. -/
theorem held_unique (hG : GroupsOk ct G) (hg : g ≠ 0) (hh : h ≠ 0) (hgs : Held (G g) s)
    (hhs : Held (G h) s) : g = h := by
  wlog hle : (G g).config.num ≤ (G h).config.num generalizing g h
  · exact (this hh hg hhs hgs (Nat.le_of_not_le hle)).symm
  have howner := hG.owner_of_held hg hgs
  rcases (hG.held h s hh hhs).owner_or_lt hle howner hg with heq | hlt
  · exact heq.symm.trans (hG.owner_of_held hh hhs)
  · exact absurd hlt (Nat.lt_irrefl _)

/-- While a shard that was given up has not been taken in, nobody holds it. -/
theorem not_held_of_given (hG : GroupsOk ct G) (hmoves : ct.Moves n s)
    (hadopted : n + 1 ≤ (G (ct.owner n s)).config.num)
    (hnot : ¬ Taken (G (ct.owner (n + 1) s)) (n + 1) s) (hg : g ≠ 0) : ¬ Held (G g) s := by
  intro hheld
  have howner := hG.owner_of_held hg hheld
  have hnew : ct.owner (n + 1) s ≠ 0 := ct.kept n s hmoves.1
  obtain ⟨hnum, sh, hsh, hstate⟩ := hG.kept n s hmoves hadopted hnot
  by_cases hle : n + 1 ≤ (G g).config.num
  · -- the holder has it from the new owner, who then has taken it in
    rcases (hG.held g s hg hheld).owner_or_lt hle rfl hnew with heq | hlt
    · have hgB : g = ct.owner (n + 1) s := howner.symm.trans heq
      refine hnot ?_
      rw [← hgB]
      rcases Nat.lt_or_eq_of_le hle with hlt | heq'
      · exact .inl hlt
      · refine .inr ⟨heq'.symm, fun sh' hsh' hpull => ?_⟩
        obtain ⟨sh'', hsh'', hst⟩ := hheld
        rw [hsh''] at hsh'
        cases hsh'
        rw [hpull] at hst
        simp at hst
    · exact hnot (.inl hlt)
  · -- the holder is an earlier owner, and has adopted less than it must have
    have hle' : (G g).config.num ≤ n := by omega
    have hpast := hG.past _ s n hmoves.1 (lt_of_lt_of_le (Nat.lt_succ_self n) hadopted) rfl
    rcases hpast.owner_or_lt hle' howner hg with heq | hlt
    · rw [heq] at hnum
      omega
    · exact absurd hlt (Nat.lt_irrefl _)

theorem initial (hG : ∀ g, G g = ShardStore.start) : GroupsOk ct G where
  localOk g hg := hG g ▸ LocalOk.start hg
  held g s hg hheld := by
    obtain ⟨sh, hsh, -⟩ := hheld
    rw [hG] at hsh
    cases hsh
  past g s j hg hj := by
    rw [hG] at hj
    exact absurd hj (Nat.not_lt_zero _)
  kept n s hmoves hle := by
    rw [hG] at hle
    exact absurd hle (Nat.not_succ_le_zero _)

/-! ### One command of one group -/

section Apply

variable {st' : ShardStore} {op : Op}

/-- What must be known of a command before group `g` applies it. -/
structure Admissible (ct : Controller) (G : Nat → ShardStore) (g : Nat) (op : Op) : Prop where
  genuine : op.Genuine ct
  /-- The old owner of a shard to be installed has adopted the configuration. -/
  installs : ∀ num shards shardData dedup, op = .installShard num shards shardData dedup →
    ∀ s ∈ shards, ∃ n, num = n + 1 ∧ ct.Moves n s ∧ n + 1 ≤ (G (ct.owner n s)).config.num
  /-- A shard to be deleted has been taken in by its new owner. -/
  deletes : ∀ num shards, op = .deleteShard num shards →
    ∀ s ∈ shards, Taken (G (ct.owner num s)) num s

theorem num_le_update (happ : Applies g (G g) op st') (h : Nat) :
    (G h).config.num ≤ (Function.update G g st' h).config.num := by
  by_cases hh : h = g
  · subst hh
    rw [Function.update_self]
    exact happ.num_le
  · rw [Function.update_of_ne hh]

theorem taken_update (happ : Applies g (G g) op st') (h : Nat) (htaken : Taken (G h) n s) :
    Taken (Function.update G g st' h) n s := by
  by_cases hh : h = g
  · subst hh
    rw [Function.update_self]
    exact htaken.apply happ
  · rwa [Function.update_of_ne hh]

/-- A settled group holds the shards it owns. -/
theorem held_of_settled (hG : GroupsOk ct G) (hg : g ≠ 0) (settled : (G g).settled = true)
    (howner : ct.owner (G g).config.num s = g) : Held (G g) s := by
  have hfits := (hG.localOk g hg).shards s
  cases hsh : (G g).shards s with
  | none =>
    rw [hsh] at hfits
    exact absurd howner hfits
  | some sh => exact ⟨sh, hsh, .inl (settled_iff.mp settled s sh hsh)⟩

/-- A shard that the group comes to hold has been passed on to it. -/
theorem held_apply (hG : GroupsOk ct G) (hg : g ≠ 0) (hop : Admissible ct G g op)
    (happ : Applies g (G g) op st') (hheld : Held st' s) : Passed ct G s st'.config.num := by
  obtain ⟨sh, hsh, hstate⟩ := hheld
  have hev := happ.evolves s
  rw [hsh] at hev
  revert hev
  generalize st'.config.num = num
  generalize hnew : some sh = new
  intro hev
  cases hev with
  | same => exact hG.held g s hg ⟨sh, hnew.symm, hstate⟩
  | wrote cop sh' eq key owns has serving => exact hG.held g s hg ⟨sh', has, .inl serving⟩
  | migrated config eq next settled =>
    subst eq
    have hmigrates := (hG.localOk g hg).adopted_migrates hop.genuine next settled s
    rw [← hnew] at hmigrates
    rw [next]
    generalize hold : (G g).shards s = old at hmigrates
    cases hmigrates with
    | stays _ serving old new =>
      -- the same owner before and after
      intro j hj hmoves
      rcases Nat.lt_or_eq_of_le (Nat.le_of_lt_succ hj) with hlt | rfl
      · exact hG.held g s hg ⟨sh, hold, .inl serving⟩ j hlt hmoves
      · exact absurd (new.trans old.symm) hmoves.2
    | leaves _ serving => simp at hstate
    | created old new =>
      -- nobody owned it before
      intro j hj hmoves
      exact absurd old (ct.owner_ne_zero hmoves.1 (Nat.le_of_lt_succ hj))
    | awaited => simp at hstate
  | installed shards shardData dedup sh' eq mem has pulling =>
    obtain ⟨n, hnum, hmoves, hadopted⟩ := hop.installs _ _ _ _ eq s mem
    rw [hnum]
    intro j hj hmoves'
    rcases Nat.lt_or_eq_of_le (Nat.le_of_lt_succ hj) with hlt | rfl
    · exact hG.past _ s n hmoves.1 (lt_of_lt_of_le (Nat.lt_succ_self n) hadopted) rfl j hlt hmoves'
    · exact hadopted
  | confirmed shards sh' eq mem has gcing => exact hG.held g s hg ⟨sh', has, .inr gcing⟩
  | removed => cases hnew

/-- A copy that was given up stays until it has been taken in. -/
theorem kept_apply (hG : GroupsOk ct G) (hop : Admissible ct G (ct.owner n s) op)
    (happ : Applies (ct.owner n s) (G (ct.owner n s)) op st') (hmoves : ct.Moves n s)
    (hle : n + 1 ≤ st'.config.num) (hnot : ¬ Taken (G (ct.owner (n + 1) s)) (n + 1) s) :
    st'.config.num = n + 1 ∧ ∃ sh, st'.shards s = some sh ∧ sh.state = .bePulling := by
  have hold := hG.kept n s hmoves
  have hev := happ.evolves s
  revert hev hle
  generalize st'.config.num = num
  generalize st'.shards s = new
  intro hle hev
  cases hev with
  | same => exact hold hle hnot
  | wrote cop sh eq key owns has serving =>
    obtain ⟨-, sh', hsh', hstate⟩ := hold hle hnot
    rw [has] at hsh'
    cases hsh'
    rw [serving] at hstate
    cases hstate
  | migrated config eq next settled =>
    subst eq
    have hown : n = (G (ct.owner n s)).config.num := by
      by_contra hne
      obtain ⟨-, sh, hsh, hstate⟩ := hold (by omega) hnot
      rw [settled_iff.mp settled s sh hsh] at hstate
      cases hstate
    have hmigrates := (hG.localOk _ hmoves.1).adopted_migrates hop.genuine next settled s
    rw [← hown] at hmigrates next
    refine ⟨next, ?_⟩
    revert hmigrates
    generalize (G (ct.owner n s)).shards s = old
    generalize ShardStore.migrate _ _ _ old = new
    intro hmigrates
    cases hmigrates with
    | stays _ _ _ hnew => exact absurd hnew hmoves.2
    | leaves sh => exact ⟨_, rfl, rfl⟩
    | absent hold => exact absurd rfl hold
    | created hold => exact absurd hold hmoves.1
    | awaited _ hold => exact absurd rfl hold
  | installed shards shardData dedup sh eq mem has pulling =>
    obtain ⟨-, sh', hsh', hstate⟩ := hold hle hnot
    rw [has] at hsh'
    cases hsh'
    rw [pulling] at hstate
    cases hstate
  | confirmed shards sh eq mem has gcing =>
    obtain ⟨-, sh', hsh', hstate⟩ := hold hle hnot
    rw [has] at hsh'
    cases hsh'
    rw [gcing] at hstate
    cases hstate
  | removed shards sh eq mem has bePulling =>
    obtain ⟨hnum, -⟩ := hold hle hnot
    have htaken := hop.deletes _ _ eq s mem
    rw [hnum] at htaken
    exact absurd htaken hnot

theorem apply (hG : GroupsOk ct G) (hg : g ≠ 0) (hop : Admissible ct G g op)
    (happ : Applies g (G g) op st') : GroupsOk ct (Function.update G g st') := by
  have hnum := num_le_update happ
  refine { localOk := ?_, held := ?_, past := ?_, kept := ?_ }
  · intro h hh
    by_cases hhg : h = g
    · subst hhg
      rw [Function.update_self]
      exact (hG.localOk h hh).apply hop.genuine happ
    · rw [Function.update_of_ne hhg]
      exact hG.localOk h hh
  · intro h s hh hheld
    by_cases hhg : h = g
    · subst hhg
      rw [Function.update_self] at hheld ⊢
      exact (hG.held_apply hh hop happ hheld).mono hnum
    · rw [Function.update_of_ne hhg] at hheld ⊢
      exact (hG.held h s hh hheld).mono hnum
  · intro h s j hh hj howner
    by_cases hhg : h = g
    · subst hhg
      rw [Function.update_self] at hj
      by_cases hlt : j < (G h).config.num
      · exact (hG.past h s j hh hlt howner).mono hnum
      · -- the group leaves configuration `j` now, and was settled in it
        have hsucc := happ.num_le_succ
        have hjn : j = (G h).config.num := by omega
        subst hjn
        have hsettled : (G h).settled = true := by
          cases happ with
          | adopted config next settled => exact settled
          | same => exact absurd hj hlt
          | wrote => exact absurd hj hlt
          | installed => exact absurd hj hlt
          | deleted => exact absurd hj hlt
        exact (hG.held h s hh (hG.held_of_settled hh hsettled howner)).mono hnum
    · rw [Function.update_of_ne hhg] at hj
      exact (hG.past h s j hh hj howner).mono hnum
  · intro n s hmoves hle hnot
    have hnot' : ¬ Taken (G (ct.owner (n + 1) s)) (n + 1) s :=
      fun htaken => hnot (taken_update happ _ htaken)
    by_cases hhg : ct.owner n s = g
    · subst hhg
      rw [Function.update_self] at hle ⊢
      exact hG.kept_apply hop happ hmoves hle hnot'
    · rw [Function.update_of_ne hhg] at hle ⊢
      exact hG.kept n s hmoves hle hnot'

end Apply

end GroupsOk

/-! ### Commands and packets of the system -/

section System

variable {ν : Type} {L L' : Nat → List Op}

/-- The states of the groups after their logs. -/
def states (L : Nat → List Op) (g : Nat) : ShardStore := (machine g).run (L g)

/-- What `shardPuller` of group `caller` proposes: for each shard, the old owner has
    adopted the configuration, and the data and the table are those it had at that
    moment, unless the shard has been taken in already. -/
def InstallOk (ct : Controller) (L : Nat → List Op) (caller num : Nat)
    (shards : List (Fin NShards)) (shardData : Fin NShards → Option ShardData)
    (dedup : Nat → Option Nat) : Prop :=
  ∀ s ∈ shards, ∃ n p, num = n + 1 ∧ ct.Moves n s ∧ ct.owner (n + 1) s = caller ∧
    Adopts (ct.owner n s) (L (ct.owner n s)) p (n + 1) ∧
    DedupLe ((machine (ct.owner n s)).run ((L (ct.owner n s)).take p)).dedup dedup ∧
    (Taken (states L caller) (n + 1) s ∨
      ∃ sh, ((machine (ct.owner n s)).run ((L (ct.owner n s)).take p)).shards s = some sh ∧
        shardData s = some sh.data)

/-- What is asked to be deleted has been taken in. -/
def DeleteOk (ct : Controller) (L : Nat → List Op) (num : Nat) (shards : List (Fin NShards)) :
    Prop :=
  ∀ s ∈ shards, Taken (states L (ct.owner num s)) num s

def OpOk (ct : Controller) (L : Nat → List Op) (g : Nat) : Op → Prop
  | .client _ => True
  | .config config => config = ct.config config.num
  | .installShard num shards shardData dedup => InstallOk ct L g num shards shardData dedup
  | .deleteShard num shards => DeleteOk ct L num shards
  | .empty => True

def PacketOk (ct : Controller) (L : Nat → List Op) : Packet → Prop
  | .query _ _ => True
  | .pullRequest caller callee _ args => ∀ s ∈ args.shards, ∃ n, args.configNum = n + 1 ∧
      ct.Moves n s ∧ ct.owner (n + 1) s = caller ∧ ct.owner n s = callee
  | .pullReply caller args reply =>
    InstallOk ct L caller args.configNum args.shards reply.data reply.dedup
  | .deleteRequest _ _ _ args => DeleteOk ct L args.configNum args.shards
  | .deleteReply _ args => DeleteOk ct L args.configNum args.shards

theorem InstallOk.mono {caller num : Nat} {shards : List (Fin NShards)}
    {shardData : Fin NShards → Option ShardData} {dedup : Nat → Option Nat}
    (hok : InstallOk ct L caller num shards shardData dedup) (hL : ∀ g, L g <+: L' g) :
    InstallOk ct L' caller num shards shardData dedup := by
  intro s hs
  obtain ⟨n, p, hnum, hmoves, howner, hadopts, hdedup, hdata⟩ := hok s hs
  obtain ⟨hadopts', hrun⟩ := hadopts.of_isPrefix (hL _)
  refine ⟨n, p, hnum, hmoves, howner, hadopts', ?_, ?_⟩
  · rw [hrun]
    exact hdedup
  · rw [hrun]
    exact hdata.imp (fun htaken => htaken.of_isPrefix (hL _)) id

theorem DeleteOk.mono {num : Nat} {shards : List (Fin NShards)}
    (hok : DeleteOk ct L num shards) (hL : ∀ g, L g <+: L' g) : DeleteOk ct L' num shards :=
  fun s hs => (hok s hs).of_isPrefix (hL _)

theorem OpOk.mono {op : Op} (hok : OpOk ct L g op) (hL : ∀ g, L g <+: L' g) :
    OpOk ct L' g op := by
  cases op with
  | client => trivial
  | config => exact hok
  | installShard => exact InstallOk.mono hok hL
  | deleteShard => exact DeleteOk.mono hok hL
  | empty => trivial

theorem PacketOk.mono {packet : Packet} (hok : PacketOk ct L packet) (hL : ∀ g, L g <+: L' g) :
    PacketOk ct L' packet := by
  cases packet with
  | query => trivial
  | pullRequest => exact hok
  | pullReply => exact InstallOk.mono hok hL
  | deleteRequest => exact DeleteOk.mono hok hL
  | deleteReply => exact DeleteOk.mono hok hL

theorem OpOk.genuine {op : Op} (hok : OpOk ct L g op) : op.Genuine ct := by
  intro config heq
  subst heq
  exact hok

theorem OpOk.admissible {op : Op} (hok : OpOk ct L g op) :
    GroupsOk.Admissible ct (states L) g op where
  genuine := hok.genuine
  installs num shards shardData dedup heq s hs := by
    subst heq
    obtain ⟨n, p, hnum, hmoves, -, hadopts, -⟩ := hok s hs
    exact ⟨n, hnum, hmoves, hadopts.num_le⟩
  deletes num shards heq s hs := by
    subst heq
    exact hok s hs

/-! ### What groups are asked to log -/

section Causes

variable {ct : History} {c : ShardSystem ν} {op : Op}

theorem ShardSystem.Causes.genuine (h : ShardSystem.Causes ct c g op) : op.Genuine ct := by
  intro config heq
  cases h with
  | config num =>
    cases heq
    rfl
  | _ => cases heq

/-- A deletion was asked for by another group, or is confirmed. -/
theorem ShardSystem.Causes.of_deleteShard {configNum : Nat} {shards : List (Fin NShards)}
    (h : ShardSystem.Causes ct c g (.deleteShard configNum shards)) :
    (∃ caller name, .deleteRequest caller g name ⟨configNum, shards⟩ ∈ c.packets) ∨
      .deleteReply g ⟨configNum, shards⟩ ∈ c.packets := by
  cases h with
  | delete caller name args mem => exact .inl ⟨caller, name, mem⟩
  | confirm args mem => exact .inr mem

end Causes

/-! ### The invariant of a run -/

structure OwnershipInv (ct : Controller) (c : ShardSystem ν) : Prop where
  groups : GroupsOk ct (states c.logs)
  sound : ∀ g, (c.groups g).Sound (machine g) (OpOk ct c.logs g)
  packets : ∀ packet ∈ c.packets, PacketOk ct c.logs packet
  zero : c.logs 0 = []

namespace OwnershipInv

variable {makeEnd : MakeEnd ν} {c c' : ShardSystem ν}

theorem genuine (hinv : OwnershipInv ct c) (g : Nat) : ∀ op ∈ c.logs g, op.Genuine ct :=
  fun op hop => ((hinv.sound g).logged op hop).genuine

/-- What a replica knows is what its group knew at some time. -/
theorem replica_localOk (hinv : OwnershipInv ct c) (hg : g ≠ 0) (i : ν) :
    LocalOk ct g ((c.groups g).servers i).state := by
  rw [((hinv.sound g).servers i).state]
  exact localOk_of_sound (hinv.sound g) (fun _ => OpOk.genuine) hg _

theorem mem_gidShards {st : ShardStore} {state : ShardState} {gid : Nat}
    {shards : List (Fin NShards)} (hperm : shards.Perm (st.gidShards state gid)) (hs : s ∈ shards) :
    (∃ sh, st.shards s = some sh ∧ sh.state = state) ∧ st.prevConfig.shards s = gid := by
  have hmem := hperm.mem_iff.mp hs
  simp only [ShardStore.gidShards, List.mem_filter, List.mem_finRange, true_and,
    decide_eq_true_eq] at hmem
  refine ⟨?_, hmem.2⟩
  cases hsh : st.shards s with
  | none => simp [hsh] at hmem
  | some sh => exact ⟨sh, rfl, by simpa [hsh] using hmem.1⟩

/-- A group asks for a shard that the configuration has given to it. -/
theorem pull_ok (hinv : OwnershipInv ct c) (hg : g ≠ 0) (i : ν) {callee : Nat} {name : Str}
    {shards : List (Fin NShards)}
    (hperm : shards.Perm (((c.groups g).servers i).state.gidShards .pulling callee)) :
    PacketOk ct c.logs (.pullRequest g callee name
      { configNum := ((c.groups g).servers i).state.config.num, shards := shards }) := by
  intro s hs
  have hlocal := hinv.replica_localOk hg i
  obtain ⟨⟨sh, hsh, hstate⟩, hprev⟩ := mem_gidShards hperm hs
  have hfits := hlocal.fits hsh
  simp only [History.Fits, hstate] at hfits
  obtain ⟨hpos, howner, hne, hzero⟩ := hfits
  rw [hlocal.prev_eq] at hprev
  obtain ⟨n, hn⟩ := Nat.exists_eq_succ_of_ne_zero hpos.ne'
  rw [hn] at howner hne hzero hprev
  exact ⟨n, hn, ⟨hzero, fun heq => hne (heq.symm.trans howner)⟩, howner, hprev⟩

/-- What a group sends for a shard it was asked for is what it held when it adopted
    the configuration, if the shard has not been taken in. -/
theorem pulled_ok (hinv : OwnershipInv ct c) (i : ν) {caller : Nat} {name : Str}
    {args : MigrateArgs} {reply : PullShardReply}
    (hrequest : PacketOk ct c.logs (.pullRequest caller g name args))
    (hg : g ≠ 0) (hreply : ((c.groups g).servers i).state.pullShard args = some reply) :
    PacketOk ct c.logs (.pullReply caller args reply) := by
  intro s hs
  obtain ⟨n, hnum, hmoves, howner, hcallee⟩ := hrequest s hs
  have hat := (hinv.sound g).servers i
  simp only [ShardStore.pullShard, Option.ite_none_left_eq_some, Option.some.injEq] at hreply
  obtain ⟨hready, rfl⟩ := hreply
  rw [hat.state, hnum] at hready
  rw [hat.state]
  obtain ⟨p, hp, hadopts⟩ := exists_adopts (Nat.succ_pos n) (Nat.le_of_not_lt hready)
  subst hcallee
  refine ⟨n, p, hnum, hmoves, howner, hadopts, dedup_mono _ _ hp.le, ?_⟩
  by_cases htaken : Taken (states c.logs (ct.owner (n + 1) s)) (n + 1) s
  · exact .inl (howner ▸ htaken)
  · refine .inr ?_
    obtain ⟨hat_num, sh, hsh, hstate⟩ := hinv.groups.kept n s hmoves hadopts.num_le htaken
    obtain ⟨p', hadopts', hheld, hfrozen⟩ := handover hmoves.1 (hinv.genuine _) hsh hstate
    have hpp : p' = p := by
      have heq : ((machine (ct.owner n s)).run (c.logs (ct.owner n s))).config.num = n + 1 :=
        hat_num
      rw [heq] at hadopts'
      exact hadopts'.unique hadopts
    subst hpp
    refine ⟨_, hheld, ?_⟩
    have hnow := hfrozen _ hp hat.le_length
    dsimp only [ShardSystem.logs] at hnow
    simp only [hs, if_true, hnow]

/-- A group asks for the deletion of shards that it has taken in. -/
theorem collect_ok (hinv : OwnershipInv ct c) (hg : g ≠ 0) (i : ν) {callee : Nat}
    {shards : List (Fin NShards)}
    (hperm : shards.Perm (((c.groups g).servers i).state.gidShards .gcing callee)) :
    DeleteOk ct c.logs ((c.groups g).servers i).state.config.num shards := by
  intro s hs
  obtain ⟨⟨sh, hsh, hstate⟩, -⟩ := mem_gidShards hperm hs
  have hfits := (hinv.replica_localOk hg i).fits hsh
  simp only [History.Fits, hstate] at hfits
  rw [hfits.2.1]
  have hat := (hinv.sound g).servers i
  have htaken : Taken ((machine g).run ((c.logs g).take ((c.groups g).position i)))
      ((c.groups g).servers i).state.config.num s := by
    have heq : (machine g).run ((c.logs g).take ((c.groups g).position i)) =
        ((c.groups g).servers i).state := hat.state.symm
    rw [heq]
    refine .inr ⟨rfl, fun sh' hsh' => ?_⟩
    rw [hsh] at hsh'
    cases hsh'
    simp [hstate]
  exact htaken.of_isPrefix <| List.take_prefix _ _

theorem causes_ok (hinv : OwnershipInv ct c) {op : Op} (hcause : ShardSystem.Causes ct c g op) :
    OpOk ct c.logs g op := by
  cases hcause with
  | client => trivial
  | config num => rfl
  | install args reply mem => exact hinv.packets _ mem
  | delete caller name args mem => exact hinv.packets _ mem
  | confirm args mem => exact hinv.packets _ mem
  | empty => trivial

theorem emits_ok (hinv : OwnershipInv ct c) (hg : g ≠ 0) {packet : Packet}
    (hcause : c.Emits g packet) : PacketOk ct c.logs packet := by
  cases hcause with
  | query num => trivial
  | pull i callee name shards perm => exact hinv.pull_ok hg i perm
  | pulled i caller name args reply mem eq => exact hinv.pulled_ok i (hinv.packets _ mem) hg eq
  | collect i callee name shards perm => exact hinv.collect_ok hg i perm
  | deleted caller name args mem =>
    have hrequest := hinv.packets _ mem
    exact hrequest

theorem states_committed (L : Nat → List Op) (g : Nat) (op : Op) :
    states (Function.update L g (L g ++ [op])) =
      Function.update (states L) g ((machine g).run (L g ++ [op])) := by
  funext h
  by_cases hh : h = g
  · subst hh
    simp [states]
  · simp [states, Function.update_of_ne hh]

theorem happens [DecidableEq ν] (hinv : OwnershipInv ct c) (hg : g ≠ 0)
    {act : GroupAction ν} (hstep : c.Happens ct g act c') : OwnershipInv ct c' := by
  obtain ⟨hsound, hpackets⟩ := hstep.keeps hinv.sound hinv.packets
    (fun _ => hinv.causes_ok) fun _ => hinv.emits_ok hg
  refine
    { groups := ?_
      sound := fun k => (hsound k).mono fun _ hop => hop.mono hstep.isPrefix
      packets := fun packet hpacket => (hpackets packet hpacket).mono hstep.isPrefix
      zero := (hstep.logs_zero hg).trans hinv.zero }
  rcases hstep.logs_effects with ⟨hlogs, -⟩ | ⟨index, op, hmem, hlogs, -⟩
  · rw [hlogs]
    exact hinv.groups
  · rw [hlogs, states_committed]
    have hok := (hinv.sound g).started _ hmem
    exact hinv.groups.apply hg hok.admissible (run_applies g (c.logs g) op)

theorem initial (ct : Controller) (makeEnd : MakeEnd ν) [DecidableEq ν] :
    OwnershipInv ct (shardSystem ct makeEnd).init where
  groups := GroupsOk.initial fun _ => rfl
  sound g := Service.Sound.start (machine g) _
  packets := by simp [shardSystem]
  zero := rfl

theorem of_reachable [DecidableEq ν] (h : (shardSystem ct makeEnd).Reachable System.anyStep c) :
    OwnershipInv ct c := by
  refine h.invariant (initial ct makeEnd) ?_
  intro c act c' _ hinv _ hstep
  rcases ShardSystem.step_cases hstep with ⟨_, _, clients, -, rfl⟩ | ⟨g, gact, -, hg, hhappens⟩
  · exact { hinv with }
  · exact hinv.happens hg hhappens

end OwnershipInv

/-! ### Exclusive ownership -/

/-- In every state of every run at most one group would execute a client operation
    on a given shard, however far the groups are in the configurations. -/
theorem shard_ownership_exclusive [DecidableEq ν] (ct : Controller) (c : ShardSystem ν)
    (hc : (shardSystem ct makeEnd).Reachable System.anyStep c) (s : Fin NShards) (g h : Nat)
    (hg : (c.group g).canServe g s = true) (hh : (c.group h).canServe h s = true) : g = h := by
  have hinv := OwnershipInv.of_reachable hc
  have hserves : ∀ k, (c.group k).canServe k s = true → k ≠ 0 ∧ Held (c.group k) s := by
    intro k hk
    obtain ⟨-, sh, hsh, hstate⟩ := canServe_iff.mp hk
    refine ⟨?_, sh, hsh, .inl hstate⟩
    rintro rfl
    rw [ShardSystem.group, hinv.zero] at hsh
    cases hsh
  obtain ⟨hg0, hgheld⟩ := hserves g hg
  obtain ⟨hh0, hhheld⟩ := hserves h hh
  exact hinv.groups.held_unique hg0 hh0 hgheld hhheld

end System

/-- The names of the servers of a group of three. -/
def serverNames : List Str := [[0], [1], [2]]

def threeServers : MakeEnd (Fin 3) := fun _ name => serverNames.finIdxOf? name

/-- Everything goes to group 1 at first, and shard 0 to group 2 after that. -/
def handOff : Controller where
  owner n s := if n = 0 then 0 else if n = 1 then 1 else if s = 0 then 2 else 1
  groups n gid := if n = 0 then [] else if gid = 1 ∨ 2 ≤ n ∧ gid = 2 then serverNames else []
  unassigned _ := rfl
  ungrouped _ := rfl
  kept n s _ := by
    split
    · contradiction
    · split
      · decide
      · split <;> decide

/-- Group 1 executes an `Append` whose reply is lost and adopts configuration 2; group
    2 follows and has pulled shard 0. -/
def untilPulled : List (ShardAction (Fin 3)) :=
  [.group 1 (.poll 0), .group 1 (.adopt 0 1), .group 1 (.commit 0),
    .group 1 (.move (.apply 0 false)), .invoke 0 (.append [0] [7]), .group 1 (.serve 0 0),
    .group 1 (.move (.start 0 2)), .group 1 (.commit 1), .group 1 (.move (.apply 0 false)),
    .group 1 (.poll 0), .group 1 (.adopt 1 3), .group 1 (.commit 2),
    .group 1 (.move (.apply 0 false)), .group 2 (.poll 0), .group 2 (.adopt 2 1),
    .group 2 (.commit 0), .group 2 (.move (.apply 0 false)), .group 2 (.poll 0),
    .group 2 (.adopt 3 2), .group 2 (.commit 1), .group 2 (.move (.apply 0 false)),
    .group 2 (.pull 0 1 [0] [0]), .group 1 (.answerPull 0 4), .group 2 (.install 5 3)]

/-- Group 2 installs the shard, group 1 deletes its copy and goes on to configuration
    3 while group 2 serves. -/
def untilServed : List (ShardAction (Fin 3)) :=
  [.group 2 (.commit 2), .group 2 (.move (.apply 0 false)), .group 2 (.collect 0 1 [0] [0]),
    .group 1 (.serveDelete 0 6), .group 1 (.move (.start 1 4)), .group 1 (.move (.register 1)),
    .group 1 (.commit 3), .group 1 (.move (.apply 0 false)), .group 1 (.move (.receive 1)),
    .group 1 (.move (.finish 1)), .group 1 (.answerDelete 1 6), .group 2 (.confirm 7 4),
    .group 2 (.commit 3), .group 2 (.move (.apply 0 false)), .group 1 (.poll 0),
    .group 1 (.adopt 8 5), .group 1 (.commit 4)]

theorem shard_ownership_exclusive_handOff : ∃ c : ShardSystem (Fin 3),
    (shardSystem handOff threeServers).Reachable System.anyStep c ∧
      (c.group 1).config.num = 3 ∧ (c.group 2).config.num = 2 ∧
      (c.group 2).canServe 2 0 = true ∧ ∀ g, (c.group g).canServe g 0 = true → g = 2 := by
  obtain ⟨c, hc, hcheck⟩ := (shardSystem handOff threeServers).exists_reachable_of_run
    System.anyStep (untilPulled ++ untilServed)
    (fun c => decide ((c.group 1).config.num = 3 ∧ (c.group 2).config.num = 2 ∧
      (c.group 2).canServe 2 0 = true))
    (by decide +kernel)
  obtain ⟨hone, htwo, hserves⟩ := of_decide_eq_true hcheck
  refine ⟨c, hc, hone, htwo, hserves, ?_⟩
  intro g hg
  exact shard_ownership_exclusive handOff c hc 0 g 2 hg hserves

end RaftLabs.ShardKV
