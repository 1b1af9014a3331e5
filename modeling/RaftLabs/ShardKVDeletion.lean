import RaftLabs.ShardKVOwnership

/-!
# Confirmed deletions

A group that has pulled a shard asks the old owner to delete its copy, and serves
the shard once the old owner has said `OK`.  The old owner's handler waits for the
log index that its `DeleteShard` command was accepted at, and `submit` does not ask
whether it was that command that was committed there.  If it was, the copy is gone:
the handler's replica had adopted the configuration, so the command applies.  If it
was not, the answer is `OK` all the same and nobody asks for the deletion again.

Nothing is assumed here about the history of configurations.
-/

namespace RaftLabs.ShardKV

open ReplicatedService

variable {ν : Type} {ct : History} {L : Nat → List Op} {g n : Nat} {s : Fin NShards}

/-! ### Transfers -/

/-- Configuration `n` gives shard `s` of group `old` to group `new`. -/
structure Transfers (ct : History) (n : Nat) (s : Fin NShards) (old new : Nat) : Prop where
  pos : 0 < n
  old_eq : ct.owner (n - 1) s = old
  new_eq : ct.owner n s = new
  ne : old ≠ new
  old_ne : old ≠ 0
  new_ne : new ≠ 0

theorem Transfers.unique {old new old' new' : Nat} (h : Transfers ct n s old new)
    (h' : Transfers ct n s old' new') : old' = old ∧ new' = new :=
  ⟨h'.old_eq.symm.trans h.old_eq, h'.new_eq.symm.trans h.new_eq⟩

/-- A shard that a group waits to serve comes from another group. -/
theorem LocalOk.transfers {st : ShardStore} (h : LocalOk ct g st) (hg : g ≠ 0) {sh : Shard}
    (hsh : st.shards s = some sh) (hstate : sh.state = .gcing ∨ sh.state = .pulling) :
    Transfers ct st.config.num s (st.prevConfig.shards s) g := by
  have hfits := h.fits hsh
  rw [h.prev_eq]
  rcases hstate with hstate | hstate
  · simp only [History.Fits, hstate] at hfits
    exact ⟨hfits.1, rfl, hfits.2.1, hfits.2.2.1, hfits.2.2.2, hg⟩
  · simp only [History.Fits, hstate] at hfits
    exact ⟨hfits.1, rfl, hfits.2.1, hfits.2.2.1, hfits.2.2.2, hg⟩

/-! ### The deletion itself -/

/-- The group serves shard `s` of configuration `n`, or has gone beyond it. -/
def Serves (st : ShardStore) (n : Nat) (s : Fin NShards) : Prop :=
  n < st.config.num ∨ st.config.num = n ∧ ∃ sh, st.shards s = some sh ∧ sh.state = .serving

/-- A group begins to serve a shard of another group when it applies `DeleteShard`. -/
theorem Applies.serves_before {st st' : ShardStore} {op : Op} {old : Nat}
    (happ : Applies g st op st') (hlocal : LocalOk ct g st) (hop : op.Genuine ct)
    (htransfers : Transfers ct n s old g) (h : Serves st' n s) : Serves st n s ∨
      ∃ shards, op = .deleteShard n shards ∧ s ∈ shards := by
  have hev := happ.evolves s
  unfold Serves at h
  revert h hev
  generalize st'.config.num = num
  generalize st'.shards s = new
  intro h hev
  cases hev with
  | same => exact .inl h
  | wrote cop sh eq key owns has serving =>
    exact .inl (h.imp id fun ⟨hnum, _⟩ => ⟨hnum, sh, has, serving⟩)
  | migrated config eq next settled =>
    subst eq
    rcases h with hlt | ⟨hnum, hsh⟩
    · rcases Nat.lt_or_eq_of_le (Nat.le_of_lt_succ (next ▸ hlt)) with hlt | heq
      · exact .inl (.inl hlt)
      · -- a settled group serves what it owns
        refine .inl (.inr ⟨heq.symm, ?_⟩)
        have hfits := hlocal.shards s
        cases hsh : st.shards s with
        | none =>
          rw [hsh, ← heq] at hfits
          exact absurd htransfers.new_eq hfits
        | some sh => exact ⟨sh, rfl, settled_iff.mp settled s sh hsh⟩
    · -- on adopting `n` the shard is awaited
      exfalso
      have hnum : st.config.num + 1 = n := next.symm.trans hnum
      have hprev : ct.owner st.config.num s = old := by
        rw [← htransfers.old_eq, ← hnum, Nat.add_sub_cancel]
      have hmigrates := hlocal.adopted_migrates hop next settled s
      revert hsh hmigrates
      generalize st.shards s = before
      generalize ShardStore.migrate g _ _ before = after
      rintro ⟨sh, rfl, hserving⟩ hmigrates
      cases hmigrates with
      | stays _ _ hold => exact htransfers.ne (hprev.symm.trans hold)
      | leaves => cases hserving
      | created hold => exact htransfers.old_ne (hprev.symm.trans hold)
      | awaited => cases hserving
  | installed shards shardData dedup sh eq mem has pulling =>
    refine .inl (h.imp id ?_)
    rintro ⟨-, sh', hsh', hserving⟩
    cases hsh'
    cases hserving
  | confirmed shards sh eq mem has gcing =>
    rcases h with hlt | ⟨hnum, -⟩
    · exact .inl (.inl hlt)
    · exact .inr ⟨shards, hnum ▸ eq, mem⟩
  | removed shards sh eq mem has bePulling =>
    refine .inl (h.imp id ?_)
    rintro ⟨-, sh', hsh', -⟩
    cases hsh'

/-- A group that applies `DeleteShard` in its configuration has released the shards. -/
theorem released_deleteShard {st : ShardStore} {shards : List (Fin NShards)}
    (hnum : n ≤ st.config.num) (hs : s ∈ shards) :
    Released (apply g st (.deleteShard n shards)).1 n s := by
  rcases Nat.lt_or_eq_of_le hnum with hlt | rfl
  · exact .inl (lt_of_lt_of_le hlt (applies g st _).num_le)
  · refine .inr ⟨?_, fun sh hsh => ?_⟩
    · simp [apply, ShardStore.applyDeleteShard]
    · simp only [apply, ShardStore.applyDeleteShard, ne_eq, not_true_eq_false, if_false,
        foldl_deleteOne, if_pos hs] at hsh
      cases hold : st.shards s with
      | none =>
        rw [hold] at hsh
        cases hsh
      | some sh' =>
        rw [hold, letGo] at hsh
        split at hsh
        · cases hsh
          simp
        · split at hsh
          · cases hsh
          · next hnot =>
            cases hsh
            exact hnot

/-! ### Commands, packets and handlers -/

/-- What is known of a deletion that group `g` is asked to log: the group gives the
    shard up, or it takes the shard over and the old owner has released it. -/
def Certified (ct : History) (L : Nat → List Op) (g : Nat) (op : Op) : Prop :=
  op.Genuine ct ∧ ∀ configNum shards, op = .deleteShard configNum shards → ∀ s ∈ shards,
    (∃ new, Transfers ct configNum s g new) ∨
      ∃ old, Transfers ct configNum s old g ∧ Released (states L old) configNum s

def Warranted (ct : History) (L : Nat → List Op) : Packet → Prop
  | .query _ _ => True
  | .pullRequest _ _ _ _ => True
  | .pullReply _ _ _ => True
  | .deleteRequest caller callee _ args =>
    ∀ s ∈ args.shards, Transfers ct args.configNum s callee caller
  | .deleteReply caller args => ∀ s ∈ args.shards, ∃ old,
      Transfers ct args.configNum s old caller ∧ Released (states L old) args.configNum s

/-- The configuration of a deletion has been adopted. -/
def Ready (st : ShardStore) (op : Op) : Prop :=
  ∀ configNum shards, op = .deleteShard configNum shards → configNum ≤ st.config.num

/-- The shards of a deletion have been released. -/
def Gone (st : ShardStore) (op : Op) : Prop :=
  ∀ configNum shards, op = .deleteShard configNum shards → ∀ s ∈ shards, Released st configNum s

section Mono

variable {L' : Nat → List Op} (hL : ∀ g, L g <+: L' g)
include hL

theorem Certified.mono {op : Op} (h : Certified ct L g op) : Certified ct L' g op := by
  refine ⟨h.1, fun configNum shards heq s hs => (h.2 configNum shards heq s hs).imp id ?_⟩
  rintro ⟨old, htransfers, hreleased⟩
  exact ⟨old, htransfers, hreleased.of_isPrefix (hL old)⟩

theorem Warranted.mono {packet : Packet} (h : Warranted ct L packet) : Warranted ct L' packet := by
  cases packet with
  | query => trivial
  | pullRequest => trivial
  | pullReply => trivial
  | deleteRequest => exact h
  | deleteReply caller args =>
    intro s hs
    obtain ⟨old, htransfers, hreleased⟩ := h s hs
    exact ⟨old, htransfers, hreleased.of_isPrefix (hL old)⟩

theorem Gone.mono {op : Op} (h : Gone (states L g) op) : Gone (states L' g) op :=
  fun configNum shards heq s hs => (h configNum shards heq s hs).of_isPrefix (hL g)

end Mono

/-- What holds inside a group: a handler that waits to delete is at a replica that has
    adopted the configuration, and a handler that has a result has deleted. -/
structure GroupInv (ct : History) (L : Nat → List Op) (g : Nat)
    (service : Service ν ShardStore Op Result) : Prop where
  sound : service.Sound (machine g) (Certified ct L g)
  attends : service.Attends Ready
  confirms : service.Confirms (Gone (states L g))

theorem GroupInv.mono {L L' : Nat → List Op} {service : Service ν ShardStore Op Result}
    (h : GroupInv ct L g service) (hL : ∀ k, L k <+: L' k) : GroupInv ct L' g service where
  sound := h.sound.mono fun _ hop => hop.mono hL
  attends := h.attends
  confirms := h.confirms.mono fun _ hop => hop.mono hL

structure DeletionInv (ct : History) (c : ShardSystem ν) : Prop where
  groups : ∀ g, GroupInv ct c.logs g (c.groups g)
  packets : ∀ packet ∈ c.packets, Warranted ct c.logs packet
  served : ∀ n s old new, Transfers ct n s old new → Serves (states c.logs new) n s →
    Released (states c.logs old) n s
  zero : c.logs 0 = []

/-- The arguments of a deletion. -/
def Op.deletes : Op → Option MigrateArgs
  | .deleteShard configNum shards => some { configNum := configNum, shards := shards }
  | _ => none

/-- The result that a replica is about to hand to a waiting `DeleteShard` handler is
    that of the deletion which the handler asked for. -/
def ownDeletion (c : ShardSystem ν) : ShardAction ν → Bool
  | .group g (.move (.apply i _)) =>
    match (c.groups g).log[(c.groups g).position i]?,
      ((c.groups g).servers i).waiters ((c.groups g).position i + 1) with
    | some op, some ch => ((c.groups g).handlers[ch]?).all fun hd =>
        decide (hd.op.deletes = none ∨ op.deletes = hd.op.deletes)
    | _, _ => true
  | _ => true

/-- Handlers are only sent results of the deletions that they asked for. -/
def OwnDeletions (c : ShardSystem ν) (act : ShardAction ν) : Prop := ownDeletion c act = true

instance (c : ShardSystem ν) (act : ShardAction ν) : Decidable (OwnDeletions c act) :=
  inferInstanceAs (Decidable (_ = true))

theorem OwnDeletions.deletes_eq {c : ShardSystem ν} {i : ν} {compact : Bool}
    (h : OwnDeletions c (.group g (.move (.apply i compact)))) {op : Op}
    (hop : (c.groups g).log[(c.groups g).position i]? = some op) {ch : Nat}
    (hch : ((c.groups g).servers i).waiters ((c.groups g).position i + 1) = some ch)
    {hd : Handler ν Op Result} (hhd : (c.groups g).handlers[ch]? = some hd)
    {configNum : Nat} {shards : List (Fin NShards)}
    (hdel : hd.op = .deleteShard configNum shards) : op = .deleteShard configNum shards := by
  have hall : ((c.groups g).handlers[ch]?).all (fun hd =>
      decide (hd.op.deletes = none ∨ op.deletes = hd.op.deletes)) = true := by
    simpa only [OwnDeletions, ownDeletion, hop, hch] using h
  rw [hhd, Option.all_some, decide_eq_true_eq, hdel] at hall
  rcases hall with hnone | hsame
  · cases hnone
  · cases op with
    | deleteShard configNum' shards' =>
      cases hsame
      rfl
    | client => cases hsame
    | config => cases hsame
    | installShard => cases hsame
    | empty => cases hsame

namespace DeletionInv

variable {makeEnd : MakeEnd ν} {c c' : ShardSystem ν}

theorem genuine (hinv : DeletionInv ct c) (g : Nat) : ∀ op ∈ c.logs g, op.Genuine ct :=
  fun op hop => ((hinv.groups g).sound.logged op hop).1

theorem localOk (hinv : DeletionInv ct c) (hg : g ≠ 0) : LocalOk ct g (states c.logs g) :=
  localOk_run hg (hinv.genuine g)

theorem replica_localOk (hinv : DeletionInv ct c) (hg : g ≠ 0) (i : ν) :
    LocalOk ct g ((c.groups g).servers i).state := by
  rw [((hinv.groups g).sound.servers i).state]
  exact localOk_of_sound (hinv.groups g).sound (fun _ hop => hop.1) hg _

/-- A replica is not ahead of its group. -/
theorem replica_num_le (hinv : DeletionInv ct c) (g : Nat) (i : ν) :
    ((c.groups g).servers i).state.config.num ≤ (states c.logs g).config.num := by
  rw [((hinv.groups g).sound.servers i).state]
  exact num_le_of_isPrefix g <| List.take_prefix _ _

theorem causes_certified (hinv : DeletionInv ct c) {op : Op}
    (hcause : ShardSystem.Causes ct c g op) : Certified ct c.logs g op := by
  refine ⟨hcause.genuine, fun configNum shards heq s hs => ?_⟩
  subst heq
  rcases hcause.of_deleteShard with ⟨caller, name, hmem⟩ | hmem
  · exact .inl ⟨caller, hinv.packets _ hmem s hs⟩
  · exact .inr (hinv.packets _ hmem s hs)

theorem emits_warranted (hinv : DeletionInv ct c) (hg : g ≠ 0) {packet : Packet}
    (hcause : c.Emits g packet) : Warranted ct c.logs packet := by
  cases hcause with
  | query => trivial
  | pull => trivial
  | pulled => trivial
  | collect i callee name shards perm =>
    intro s hs
    obtain ⟨⟨sh, hsh, hstate⟩, hprev⟩ := OwnershipInv.mem_gidShards perm hs
    rw [← hprev]
    exact (hinv.replica_localOk hg i).transfers hg hsh (.inl hstate)
  | deleted caller name args mem reason =>
    intro s hs
    refine ⟨g, hinv.packets _ mem s hs, ?_⟩
    rcases reason with ⟨i, hlt⟩ | ⟨hd, hhd, r, hop, hphase⟩
    · exact .inl (lt_of_lt_of_le hlt (hinv.replica_num_le g i))
    · exact (hinv.groups g).confirms hd hhd r (.inr (by rw [hphase]; rfl)) _ _ hop s hs

/-- The group that sends an `OK` has released the shards. -/
theorem released_of_reply [DecidableEq ν] (hinv : DeletionInv ct c) (hinv' : DeletionInv ct c')
    {act : GroupAction ν} (hstep : c.Happens ct g act c') {caller : Nat} {args : MigrateArgs}
    (hpackets : c'.packets = c.packets ++ [.deleteReply caller args]) :
    ∀ s ∈ args.shards, Released (states c'.logs g) args.configNum s := by
  intro s hs
  have hmem : .deleteReply caller args ∈ c'.packets := by
    rw [hpackets]
    exact List.mem_append_right _ (List.mem_singleton_self _)
  obtain ⟨old, htransfers, hreleased⟩ := hinv'.packets _ hmem s hs
  cases hstep with
  | posted packet cause =>
    have hpacket := List.singleton_inj.mp (List.append_cancel_left hpackets)
    subst hpacket
    cases cause with
    | deleted _ _ _ mem reason =>
      -- the request names the old owner of the shard
      rw [← (htransfers.unique (hinv.packets _ mem s hs)).1] at hreleased
      exact hreleased
  | nothing => simp at hpackets
  | entered => simp [ShardSystem.setGroup] at hpackets
  | proposed => simp [ShardSystem.setGroup] at hpackets
  | moved => simp [ShardSystem.setGroup] at hpackets
  | committed => simp [ShardSystem.setGroup] at hpackets
  | replied => simp at hpackets

/-- A handler is sent the result of its own deletion, which has been applied. -/
theorem gone_of_apply [DecidableEq ν] (hinv : DeletionInv ct c) {i : ν} {compact : Bool}
    {service : Service ν ShardStore Op Result}
    (hstep : (c.groups g).move (machine g) (.apply i compact) = some service)
    (hok : OwnDeletions c (.group g (.move (.apply i compact)))) {ch : Nat}
    (hch : ((c.groups g).servers i).waiters ((c.groups g).position i + 1) = some ch)
    {hd : Handler ν Op Result} (hhd : (c.groups g).handlers[ch]? = some hd) :
    Gone (states c.logs g) hd.op := by
  intro configNum shards hdel s hs
  obtain ⟨hd', hhd', hready⟩ := (hinv.groups g).attends.waiting i _ ch hch
  rw [hhd] at hhd'
  cases hhd'
  cases Service.moved hstep with
  | applied _ _ op handlers logged sent =>
    have hop := hok.deletes_eq logged hch hhd hdel
    have hreleased : Released
        (apply g ((c.groups g).servers i).state (.deleteShard configNum shards)).1 configNum s :=
      released_deleteShard (hready configNum shards hdel) hs
    have hrun : (machine g).run ((c.logs g).take ((c.groups g).position i + 1)) =
        (apply g ((c.groups g).servers i).state (.deleteShard configNum shards)).1 := by
      rw [((hinv.groups g).sound.servers i).state, ← hop]
      exact (machine g).run_take_succ logged
    rw [← hrun] at hreleased
    exact hreleased.of_isPrefix <| List.take_prefix _ _

/-- A change inside one group that leaves its log alone. -/
theorem setGroup (hinv : DeletionInv ct c) {service : Service ν ShardStore Op Result}
    (hlog : service.log = c.logs g) (hgroup : GroupInv ct c.logs g service) :
    DeletionInv ct (c.setGroup g service) := by
  have hlogs := ShardSystem.logs_setGroup hlog
  refine { groups := ?_, packets := ?_, served := ?_, zero := ?_ }
  · rw [hlogs]
    exact ShardSystem.forall_setGroup hgroup hinv.groups
  · rw [hlogs]
    exact hinv.packets
  · rw [hlogs]
    exact hinv.served
  · rw [hlogs]
    exact hinv.zero

/-- A group that comes to serve a shard has had it confirmed. -/
theorem served_committed (hinv : DeletionInv ct c) {op : Op} (hop : Certified ct c.logs g op)
    {old new : Nat} (htransfers : Transfers ct n s old new)
    (hserves : Serves (states (Function.update c.logs g (c.logs g ++ [op])) new) n s) :
    Released (states c.logs old) n s := by
  rw [OwnershipInv.states_committed] at hserves
  by_cases hnew : new = g
  · subst hnew
    rw [Function.update_self] at hserves
    rcases (run_applies new (c.logs new) op).serves_before (hinv.localOk htransfers.new_ne) hop.1
      htransfers hserves with hbefore | ⟨shards, hdel, hs⟩
    · exact hinv.served n s old new htransfers hbefore
    · rcases hop.2 n shards hdel s hs with ⟨other, hother⟩ | ⟨old', hold', hreleased⟩
      · exact absurd (htransfers.unique hother).1.symm htransfers.ne
      · rw [(htransfers.unique hold').1] at hreleased
        exact hreleased
  · rw [Function.update_of_ne hnew] at hserves
    exact hinv.served n s old new htransfers hserves

theorem committed (hinv : DeletionInv ct c) (hg : g ≠ 0) {index : Nat} {op : Op}
    (hmem : (index, op) ∈ (c.groups g).started) :
    DeletionInv ct (c.setGroup g { c.groups g with log := c.logs g ++ [op] }) := by
  have hop := (hinv.groups g).sound.started _ hmem
  have hmono := ShardSystem.isPrefix_committed c.logs g op
  refine { groups := ?_, packets := ?_, served := ?_, zero := ?_ }
  · rw [ShardSystem.logs_committed]
    have hmonos := fun k => (hinv.groups k).mono hmono
    exact ShardSystem.forall_setGroup { (hmonos g) with
      sound := (hmonos g).sound.grow hmem
      attends := { (hmonos g).attends with } } hmonos
  · rw [ShardSystem.logs_committed]
    exact fun packet hpacket => (hinv.packets packet hpacket).mono hmono
  · rw [ShardSystem.logs_committed]
    intro n s old new htransfers hserves
    exact (hinv.served_committed hop htransfers hserves).of_isPrefix (hmono old)
  · rw [ShardSystem.logs_committed, Function.update_of_ne hg.symm]
    exact hinv.zero

theorem happens [DecidableEq ν] (hinv : DeletionInv ct c) (hg : g ≠ 0) {act : GroupAction ν}
    (hok : OwnDeletions c (.group g act)) (hstep : c.Happens ct g act c') :
    DeletionInv ct c' := by
  have hgroup := hinv.groups g
  cases hstep with
  | nothing => exact hinv
  | entered i op cause ready =>
    refine hinv.setGroup rfl
      { sound := hgroup.sound.enter (hinv.causes_certified cause) i
        attends := hgroup.attends.enter fun configNum shards heq => (ready _ _ heq).ge
        confirms := hgroup.confirms.enter i op }
  | proposed index op cause =>
    exact hinv.setGroup rfl
      { sound := hgroup.sound.propose (hinv.causes_certified cause) index
        attends := { hgroup.attends with }
        confirms := hgroup.confirms }
  | moved m service eq =>
    obtain ⟨hlog, hsound⟩ := hgroup.sound.move eq
    refine hinv.setGroup hlog
      { sound := hsound
        attends := hgroup.attends.move hgroup.sound ?_ eq
        confirms := hgroup.confirms.move eq ?_ }
    · intro st op op' hready configNum shards heq
      exact (hready configNum shards heq).trans (applies g st op').num_le
    · intro i compact ch hd hm hch hhd
      subst hm
      exact hinv.gone_of_apply eq hok hch hhd
  | committed index op mem => exact { hinv.committed hg mem with }
  | posted packet cause =>
    refine { hinv with packets := List.forall_mem_append.mpr ⟨hinv.packets, ?_⟩ }
    exact List.forall_mem_singleton.mpr (hinv.emits_warranted hg cause)
  | replied => exact { hinv with }

theorem initial (ct : History) (makeEnd : MakeEnd ν) [DecidableEq ν] :
    DeletionInv ct (shardSystem ct makeEnd).init where
  groups g :=
    { sound := Service.Sound.start (machine g) _
      attends := Service.Attends.start _ (machine g)
      confirms := by simp [Service.Confirms, shardSystem, Service.start] }
  packets := by simp [shardSystem]
  served n s old new htransfers hserves := by
    rcases hserves with hlt | ⟨-, sh, hsh, -⟩
    · exact absurd hlt (Nat.not_lt_zero _)
    · cases hsh
  zero := rfl

theorem of_reachable [DecidableEq ν] (h : (shardSystem ct makeEnd).Reachable OwnDeletions c) :
    DeletionInv ct c := by
  refine h.invariant (initial ct makeEnd) ?_
  intro c act c' _ hinv hok hstep
  rcases ShardSystem.step_cases hstep with
    ⟨_, _, clients, -, rfl⟩ | ⟨g, gact, rfl, hg, hhappens⟩
  · exact { hinv with }
  · exact hinv.happens hg hok hhappens

end DeletionInv

/-! ### Confirmed deletions -/

/-- In every run in which handlers are only sent results of the deletions they asked
    for: when group `g` answers a `DeleteShard` request with `OK`, it has released the
    shards; and when a group takes a shard from `GCing` to `Serving`, the old owner
    does not keep it for that configuration any more. -/
theorem deletion_confirmed [DecidableEq ν] (ct : History) (c c' : ShardSystem ν)
    (act : ShardAction ν) (hc : (shardSystem ct makeEnd).Reachable OwnDeletions c)
    (hok : OwnDeletions c act) (hstep : (shardSystem ct makeEnd).step c act = some c') :
    (∀ g gact caller args, act = .group g gact →
      c'.packets = c.packets ++ [.deleteReply caller args] →
      ∃ p ≤ (c'.logs g).length, ∀ s ∈ args.shards,
        Released ((machine g).run ((c'.logs g).take p)) args.configNum s) ∧
    ∀ g s sh sh', (c.group g).shards s = some sh → sh.state = .gcing →
      (c'.group g).shards s = some sh' → sh'.state = .serving →
      ∀ old, (c.group g).prevConfig.shards s = old →
        ¬ ((c'.group old).config.num = (c.group g).config.num ∧
          ∃ kept, (c'.group old).shards s = some kept ∧ kept.state = .bePulling) := by
  have hinv := DeletionInv.of_reachable hc
  have hinv' := DeletionInv.of_reachable (hc.step hok hstep)
  constructor
  · intro g gact caller args hact hpackets
    rcases ShardSystem.step_cases hstep with
      ⟨_, _, _, -, rfl⟩ | ⟨g', gact', rfl, -, hhappens⟩
    · simp at hpackets
    · cases hact
      refine ⟨(c'.logs g).length, Nat.le_refl _, ?_⟩
      rw [List.take_length]
      exact hinv.released_of_reply hinv' hhappens hpackets
  · intro g s sh sh' hold hgcing hnew hserving old hprev hkept
    have hg : g ≠ 0 := by
      rintro rfl
      rw [ShardSystem.group, hinv.zero] at hold
      cases hold
    have htransfers := (hinv.localOk hg).transfers hg hold (.inl hgcing)
    have hnum : (states c.logs g).config.num ≤ (states c'.logs g).config.num :=
      num_le_of_isPrefix g (ShardSystem.step_isPrefix hstep g)
    have hserves : Serves (states c'.logs g) (states c.logs g).config.num s := by
      rcases Nat.lt_or_eq_of_le hnum with hlt | heq
      · exact .inl hlt
      · exact .inr ⟨heq.symm, sh', hnew, hserving⟩
    obtain ⟨hsame, kept, hkept, hstate⟩ := hkept
    subst hprev
    rcases hinv'.served _ _ _ _ htransfers hserves with hlt | ⟨-, hnot⟩
    · exact absurd hsame hlt.ne'
    · exact hnot kept hkept hstate

/-- Group 2 has shard 0 confirmed and serves it; group 1 has deleted its copy. -/
theorem deletion_confirmed_handOff : ∃ c c' : ShardSystem (Fin 3),
    (shardSystem handOff threeServers).Reachable OwnDeletions c ∧
      (shardSystem handOff threeServers).step c (.group 2 (.commit 3)) = some c' ∧
      (c'.group 2).canServe 2 0 = true ∧ (c.group 2).config.num = 2 ∧
      ¬ ((c'.group 1).config.num = 2 ∧
        ∃ kept, (c'.group 1).shards 0 = some kept ∧ kept.state = .bePulling) := by
  obtain ⟨c, c', hc, hstep, hcheck⟩ := (shardSystem handOff threeServers).exists_step_of_run
    OwnDeletions (untilPulled ++ untilServed.take 12) (.group 2 (.commit 3))
    (fun (c c' : ShardSystem (Fin 3)) => ((c.group 2).shards 0).any (fun (sh : Shard) =>
        decide (sh.state = .gcing)) &&
      decide ((c'.group 2).canServe 2 0 = true ∧ (c.group 2).config.num = 2 ∧
        (c.group 2).prevConfig.shards 0 = 1))
    (by decide +kernel)
  rw [Bool.and_eq_true, decide_eq_true_eq] at hcheck
  obtain ⟨hgcing, hserves, hnum, hprev⟩ := hcheck
  obtain ⟨-, sh', hsh', hserving⟩ := canServe_iff.mp hserves
  cases hold : (c.group 2).shards 0 with
  | none => simp [hold] at hgcing
  | some sh =>
    rw [hold] at hgcing
    have hok : OwnDeletions c (.group 2 (.commit 3)) := rfl
    have hgone := (deletion_confirmed handOff c c' _ hc hok hstep).2 2 0 sh sh' hold
      (of_decide_eq_true hgcing) hsh' hserving 1 hprev
    rw [hnum] at hgone
    exact ⟨c, c', hc, hstep, hserves, hnum, hgone⟩

/-- Group 2 installs shard 0 and asks for its deletion.  The command of group 1's
    handler is accepted at index 4, but after a change of leader an `Empty` entry is
    committed there, and the handler answers `OK`. -/
def untilFalseOk : List (ShardAction (Fin 3)) :=
  [.group 2 (.commit 2), .group 2 (.move (.apply 0 false)), .group 2 (.collect 0 1 [0] [0]),
    .group 1 (.serveDelete 0 6), .group 1 (.move (.start 1 4)), .group 1 (.move (.register 1)),
    .group 1 (.noop 4), .group 1 (.commit 4), .group 1 (.move (.apply 0 false)),
    .group 1 (.move (.receive 1)), .group 1 (.move (.finish 1)), .group 1 (.answerDelete 1 6),
    .group 2 (.confirm 7 4)]

/-- The reply that tells group 2 that shard 0 is deleted. -/
def Packet.confirmsZero : Packet → Bool
  | .deleteReply caller args => decide (caller = 2 ∧ args = ⟨2, [0]⟩)
  | _ => false

/-- The deletion was confirmed, but no prefix of group 1's log has it; group 2 serves the
    shard, and group 1 keeps it for the same configuration. -/
theorem deletion_falsely_confirmed : ∃ c c' : ShardSystem (Fin 3),
    (shardSystem handOff threeServers).Reachable System.anyStep c ∧
      (shardSystem handOff threeServers).step c (.group 2 (.commit 3)) = some c' ∧
      Packet.deleteReply 2 { configNum := 2, shards := [0] } ∈ c.packets ∧
      (∀ p, ¬ Released ((machine 1).run ((c.logs 1).take p)) 2 0) ∧
      (c.group 2).canServe 2 0 = false ∧ (c'.group 2).canServe 2 0 = true ∧
      (c'.group 2).config.num = 2 ∧ (c'.group 1).config.num = 2 ∧
      ∃ kept, (c'.group 1).shards 0 = some kept ∧ kept.state = .bePulling := by
  obtain ⟨c, c', hc, hstep, hcheck⟩ := (shardSystem handOff threeServers).exists_step_of_run
    System.anyStep (untilPulled ++ untilFalseOk) (.group 2 (.commit 3))
    (fun (c c' : ShardSystem (Fin 3)) =>
      c.packets.any Packet.confirmsZero &&
      ((c.group 1).shards 0).any (fun (sh : Shard) => decide (sh.state = .bePulling)) &&
      ((c'.group 1).shards 0).any (fun (sh : Shard) => decide (sh.state = .bePulling)) &&
      decide ((c.group 1).config.num = 2 ∧ (c.group 2).canServe 2 0 = false ∧
        (c'.group 2).canServe 2 0 = true ∧ (c'.group 2).config.num = 2 ∧
        (c'.group 1).config.num = 2))
    (by decide +kernel)
  simp only [Bool.and_eq_true, decide_eq_true_eq, List.any_eq_true, Option.any_eq_true] at hcheck
  obtain ⟨⟨⟨⟨packet, hmem, hpacket⟩, sh, hsh, hstate⟩, kept, hkept, hstate'⟩, hnum, hrest⟩ := hcheck
  refine ⟨c, c', hc, hstep, ?_, ?_, hrest.1, hrest.2.1, hrest.2.2.1, hrest.2.2.2, kept, hkept,
    hstate'⟩
  · unfold Packet.confirmsZero at hpacket
    split at hpacket
    · next caller args =>
      obtain ⟨rfl, rfl⟩ := of_decide_eq_true hpacket
      exact hmem
    · cases hpacket
  · intro p hreleased
    have hbefore := hreleased.of_isPrefix <| List.take_prefix _ _
    rcases hbefore with hlt | ⟨-, hnot⟩
    · exact absurd hnum hlt.ne'
    · exact hnot sh hsh hstate

end RaftLabs.ShardKV
