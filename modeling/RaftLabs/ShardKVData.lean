import RaftLabs.ShardKVOwnership

/-!
# Data and tables follow the shards

The effects of client commands, in the order of their commitment, make one map.
Wherever a shard is held, or has been given up and not been taken in yet, the copy
agrees with that map on the keys of the shard, and the table of that group knows of
every mutation of those keys.  So a mutation that has taken effect at one group is a
duplicate at every later owner.
-/

namespace RaftLabs.ShardKV

open Linearizability ReplicatedService

abbrev Effects := List (Effect (Nat × Nat) Query (Option Str))

variable {ct : Controller} {L : Nat → List Op} {effects : Effects} {g n : Nat}
  {s : Fin NShards} {st : ShardStore} {op : Op}

/-! ### One client command -/

/-- What a client command does: to the state, as a result, and as an effect. -/
inductive ClientCase (gid : Nat) (st : ShardStore) (op : ClientOp) :
    ShardStore → Result → Effects → Prop where
  | refused (res : Result) (err : res.err = .wrongGroup)
      (cannot : st.canServe gid (key2shard op.key) = false) : ClientCase gid st op st res []
  | read (sh : Shard) (res : Result) (err : res.err ≠ .wrongGroup)
      (owns : st.config.shards (key2shard op.key) = gid)
      (has : st.shards (key2shard op.key) = some sh) (serving : sh.state = .serving)
      (get : op.type = .get) (value : res.value = (sh.data op.key).getD []) :
      ClientCase gid st op st res [st.effect op]
  | duplicate (res : Result) (err : res.err ≠ .wrongGroup) (mutates : op.type ≠ .get)
      (dup : st.duplicate op = true) : ClientCase gid st op st res []
  | wrote (sh : Shard) (res : Result) (err : res.err ≠ .wrongGroup)
      (owns : st.config.shards (key2shard op.key) = gid)
      (has : st.shards (key2shard op.key) = some sh) (serving : sh.state = .serving)
      (mutates : op.type ≠ .get) (fresh : st.duplicate op = false) :
      ClientCase gid st op
        { st with
          shards := Function.update st.shards (key2shard op.key)
            (some { sh with data := ShardStore.write sh.data op })
          dedup := Function.update st.dedup op.clientId (some op.seq) }
        res [st.effect op]

theorem clientCase (gid : Nat) (st : ShardStore) (op : ClientOp) :
    ClientCase gid st op (st.applyClientOp gid op).1 (st.applyClientOp gid op).2
      (st.effects gid (.client op)) := by
  cases hcan : st.canServe gid (key2shard op.key) with
  | false =>
    have heffects : st.effects gid (.client op) = [] := by simp [ShardStore.effects, hcan]
    rw [heffects]
    have hnot := mt canServe_iff.mpr (Bool.eq_false_iff.mp hcan)
    unfold ShardStore.applyClientOp
    by_cases howns : st.config.shards (key2shard op.key) = gid
    · cases has : st.shards (key2shard op.key) with
      | none =>
        simp only [howns, ne_eq, not_true_eq_false, if_false, has]
        exact .refused _ rfl hcan
      | some sh =>
        have hserving : sh.state ≠ .serving := fun h => hnot ⟨howns, sh, has, h⟩
        simp only [howns, ne_eq, not_true_eq_false, if_false, has, hserving, not_false_eq_true,
          if_true]
        exact .refused _ rfl hcan
    · simp only [ne_eq, howns, not_false_eq_true, if_true]
      exact .refused _ rfl hcan
  | true =>
    obtain ⟨howns, sh, has, hserving⟩ := canServe_iff.mp hcan
    have hnot : ¬ sh.state ≠ .serving := not_not.mpr hserving
    simp only [ShardStore.applyClientOp, howns, ne_eq, not_true_eq_false, if_false, has]
    rw [if_neg hnot]
    by_cases hget : op.type = .get
    · have heffects : st.effects gid (.client op) = [st.effect op] := by
        simp [ShardStore.effects, hcan, hget]
      rw [heffects]
      simp only [hget, if_true]
      cases hdata : sh.data op.key with
      | none => exact .read sh _ (by simp) howns has hserving hget (by simp [hdata])
      | some v => exact .read sh _ (by simp) howns has hserving hget (by simp [hdata])
    · simp only [hget, if_false]
      cases hdup : st.duplicate op with
      | true =>
        have heffects : st.effects gid (.client op) = [] := by
          simp [ShardStore.effects, hget, hdup]
        rw [heffects]
        exact .duplicate _ (by simp) hget hdup
      | false =>
        have heffects : st.effects gid (.client op) = [st.effect op] := by
          simp [ShardStore.effects, hcan, hdup]
        rw [heffects]
        exact .wrote sh _ (by simp) howns has hserving hget hdup

/-- Writing to a shard does to the map what the call says. -/
theorem write_getD (data : ShardData) (op : ClientOp) :
    (fun key => (ShardStore.write data op key).getD []) =
      MapSpec.next (fun key => (data key).getD []) op.query := by
  funext key
  unfold ShardStore.write KV.Op.query
  cases op.type with
  | get => rfl
  | put =>
    simp only [MapSpec.next, Function.update_apply]
    split <;> rfl
  | append =>
    simp only [MapSpec.next, Function.update_apply]
    split <;> rfl

/-! ### Copies and tables -/

/-- The effect is a mutation of a key of the shard. -/
def Touches (e : Effect (Nat × Nat) Query (Option Str)) (s : Fin NShards) : Prop :=
  e.query.isGet = false ∧ key2shard e.query.key = s

/-- The map that the effects make. -/
def content (effects : Effects) : Str → Str := after MapSpec.object MapSpec.object.init effects

/-- The copy has what the map has for the keys of the shard. -/
def Agrees (effects : Effects) (s : Fin NShards) (data : ShardData) : Prop :=
  ∀ key, key2shard key = s → (data key).getD [] = content effects key

/-- The table knows of all mutations of the shard. -/
def Complete (effects : Effects) (s : Fin NShards) (dedup : Nat → Option Nat) : Prop :=
  ∀ e ∈ effects, Touches e s → ∃ last, dedup e.id.1 = some last ∧ e.id.2 ≤ last

/-- What the table says is backed by a mutation of the client, this one or a later
    one. -/
def Backed (effects : Effects) (dedup : Nat → Option Nat) : Prop :=
  ∀ c last, dedup c = some last →
    ∃ e ∈ effects, e.id.1 = c ∧ last ≤ e.id.2 ∧ e.query.isGet = false

theorem Complete.mono {d d' : Nat → Option Nat} (h : Complete effects s d) (hle : DedupLe d d') :
    Complete effects s d' := by
  intro e he htouch
  exact hle.known (h e he htouch)

theorem Backed.of_le {d d' : Nat → Option Nat} (h : Backed effects d') (hle : DedupLe d d') :
    Backed effects d := by
  intro c last hlast
  obtain ⟨last', hlast', hle'⟩ := hle c last hlast
  obtain ⟨e, he, hc, hseq, hmut⟩ := h c last' hlast'
  exact ⟨e, he, hc, hle'.trans hseq, hmut⟩

theorem Backed.append {d : Nat → Option Nat} (h : Backed effects d) (more : Effects) :
    Backed (effects ++ more) d := by
  intro c last hlast
  obtain ⟨e, he, hrest⟩ := h c last hlast
  exact ⟨e, List.mem_append_left _ he, hrest⟩

theorem Backed.merge {d d' : Nat → Option Nat} (h : Backed effects d) (h' : Backed effects d') :
    Backed effects (ShardStore.mergeDedup d d') := by
  intro c last hlast
  rcases mergeDedup_cases hlast with hlast | hlast
  · exact h c last hlast
  · exact h' c last hlast

/-- A mutation enters the table when it takes effect. -/
theorem Backed.record {d : Nat → Option Nat} {e : Effect (Nat × Nat) Query (Option Str)}
    (h : Backed effects d) (hmut : e.query.isGet = false) :
    Backed (effects ++ [e]) (Function.update d e.id.1 (some e.id.2)) := by
  intro c last hlast
  by_cases hc : c = e.id.1
  · subst hc
    cases (Function.update_self ..).symm.trans hlast
    exact ⟨e, by simp, rfl, le_rfl, hmut⟩
  · exact h.append _ c last ((Function.update_of_ne hc ..).symm.trans hlast)

theorem content_snoc (effects : Effects) (e : Effect (Nat × Nat) Query (Option Str)) :
    content (effects ++ [e]) = MapSpec.next (content effects) e.query := by
  simp [content, after, MapSpec.object]

/-- A key that no mutation names has no value. -/
theorem content_untouched (hnone : ∀ e ∈ effects, ¬ Touches e s) {key : Str}
    (hkey : key2shard key = s) : content effects key = [] := by
  induction effects using List.reverseRecOn with
  | nil => rfl
  | append_singleton effects e ih =>
    have hrest := ih fun x hx => hnone x (List.mem_append_left _ hx)
    have hlast : ¬ Touches e s := hnone e (by simp)
    rw [content_snoc]
    cases hget : e.query.isGet with
    | true =>
      rw [MapSpec.next_of_isGet hget]
      exact hrest
    | false =>
      rw [MapSpec.next_of_ne]
      · exact hrest
      · rintro rfl
        exact hlast ⟨hget, hkey⟩

/-- An effect that does not touch the shard leaves copies and tables of it right. -/
theorem Agrees.snoc {data : ShardData} {e : Effect (Nat × Nat) Query (Option Str)}
    (h : Agrees effects s data) (hnot : ¬ Touches e s) : Agrees (effects ++ [e]) s data := by
  intro key hkey
  rw [content_snoc, h key hkey]
  cases hget : e.query.isGet with
  | true => rw [MapSpec.next_of_isGet hget]
  | false =>
    rw [MapSpec.next_of_ne]
    rintro rfl
    exact hnot ⟨hget, hkey⟩

theorem Complete.snoc {d : Nat → Option Nat} {e : Effect (Nat × Nat) Query (Option Str)}
    (h : Complete effects s d) (hnot : ¬ Touches e s) : Complete (effects ++ [e]) s d := by
  intro x hx htouch
  rcases List.mem_append.mp hx with hx | hx
  · exact h x hx htouch
  · cases List.mem_singleton.mp hx
    exact absurd htouch hnot

/-- A write changes the shard as it changes the map. -/
theorem Agrees.write {data : ShardData} {e : Effect (Nat × Nat) Query (Option Str)}
    {cop : ClientOp} (h : Agrees effects s data) (heq : e.query = cop.query) :
    Agrees (effects ++ [e]) s (ShardStore.write data cop) := by
  intro key hkey
  rw [content_snoc, heq]
  refine (congrFun (write_getD data cop) key).trans ?_
  exact MapSpec.next_congr (h key hkey) cop.query

theorem Complete.record {d : Nat → Option Nat} {e : Effect (Nat × Nat) Query (Option Str)}
    (h : Complete effects s d) (hlast : d e.id.1 = some e.id.2) :
    Complete (effects ++ [e]) s d := by
  intro x hx htouch
  rcases List.mem_append.mp hx with hx | hx
  · exact h x hx htouch
  · cases List.mem_singleton.mp hx
    exact ⟨_, hlast, le_rfl⟩

/-! ### The invariant -/

/-- Copies and tables are right where a shard is held (`held`) and where it was given
    up and not taken in yet (`given`, at the position that adopted the configuration).
    A shard was touched only after it had an owner that went on to serve it. -/
structure DataInv (ct : Controller) (L : Nat → List Op) (effects : Effects) : Prop where
  held : ∀ g s sh, g ≠ 0 → (states L g).shards s = some sh →
    (sh.state = .serving ∨ sh.state = .gcing) →
    Agrees effects s sh.data ∧ Complete effects s (states L g).dedup
  given : ∀ n s p sh, ct.Moves n s → Adopts (ct.owner n s) (L (ct.owner n s)) p (n + 1) →
    ¬ Taken (states L (ct.owner (n + 1) s)) (n + 1) s →
    ((machine (ct.owner n s)).run ((L (ct.owner n s)).take p)).shards s = some sh →
    Agrees effects s sh.data ∧
      Complete effects s ((machine (ct.owner n s)).run ((L (ct.owner n s)).take p)).dedup
  touched : ∀ s e, e ∈ effects → Touches e s → ∃ m, ct.owner m s ≠ 0 ∧
    Passed ct (states L) s m ∧ m ≤ (states L (ct.owner m s)).config.num
  backed : ∀ g, Backed effects (states L g).dedup

namespace DataInv

theorem initial (ct : Controller) : DataInv ct (fun _ => []) [] where
  held g s sh hg hsh := by cases hsh
  given n s p sh hmoves hadopts := absurd hadopts.lt_length (Nat.not_lt_zero _)
  touched s e he := by cases he
  backed g c last hlast := by cases hlast

/-- A shard that no group has owned so far has not been touched. -/
theorem untouched_of_unassigned (h : DataInv ct L effects)
    (hold : ct.owner (states L g).config.num s = 0)
    (hnew : ct.owner ((states L g).config.num + 1) s = g) (hg : g ≠ 0) :
    ∀ e ∈ effects, ¬ Touches e s := by
  intro e he htouch
  obtain ⟨m, hm, hpassed, hle⟩ := h.touched s e he htouch
  have hlt : (states L g).config.num < m := by
    by_contra hge
    exact ct.owner_ne_zero hm (Nat.le_of_not_lt hge) hold
  rcases hpassed.owner_or_lt hlt hnew hg with heq | hlt'
  · rw [heq] at hle
    omega
  · omega

/-- What a group holds after a command that writes nothing. -/
theorem held_quiet (h : DataInv ct L effects) (hG : GroupsOk ct (states L)) (hg : g ≠ 0)
    (hok : OpOk ct L g op) {sh : Shard}
    (hclient : ∀ cop, op = .client cop → (apply g (states L g) op).1 = states L g)
    (hsh : (apply g (states L g) op).1.shards s = some sh)
    (hstate : sh.state = .serving ∨ sh.state = .gcing) :
    Agrees effects s sh.data ∧ Complete effects s (apply g (states L g) op).1.dedup := by
  have happ := applies g (states L g) op
  have hgrow : ∀ sh', (states L g).shards s = some sh' →
      (sh'.state = .serving ∨ sh'.state = .gcing) → Agrees effects s sh'.data ∧
        Complete effects s (apply g (states L g) op).1.dedup := by
    intro sh' hsh' hstate'
    obtain ⟨hagrees, hcomplete⟩ := h.held g s sh' hg hsh' hstate'
    exact ⟨hagrees, hcomplete.mono happ.dedup_le⟩
  have hev := happ.evolves s
  rw [hsh] at hev
  generalize (apply g (states L g) op).1.config.num = num at hev
  generalize hnew : some sh = new at hev
  cases hev with
  | same => exact hgrow sh hnew.symm hstate
  | wrote cop sh' eq key owns has serving =>
    rw [hclient cop eq] at hsh
    exact hgrow sh hsh hstate
  | migrated config eq next settled =>
    subst eq
    have hmigrates := (hG.localOk g hg).adopted_migrates hok.genuine next settled s
    rw [← hnew] at hmigrates
    generalize hold : (states L g).shards s = old at hmigrates
    cases hmigrates with
    | stays _ serving => exact hgrow sh hold (.inl serving)
    | leaves => simp at hstate
    | created old new =>
      have hnone := h.untouched_of_unassigned old new hg
      refine ⟨?_, fun e he htouch => absurd htouch (hnone e he)⟩
      intro key hkey
      rw [content_untouched hnone hkey]
      rfl
    | awaited => simp at hstate
  | installed shards shardData dedup sh' eq mem has pulling =>
    subst eq
    cases hnew
    obtain ⟨n, p, hnum, hmoves, howner, hadopts, hdedup, hdata⟩ := hok s mem
    have hnot : ¬ Taken (states L g) (n + 1) s := hnum ▸ not_taken_of_pulling has pulling
    obtain ⟨shA, hshA, hdata⟩ := hdata.resolve_left hnot
    obtain ⟨hagrees, hcomplete⟩ := h.given n s p shA hmoves hadopts (howner ▸ hnot) hshA
    constructor
    · simpa [hdata] using hagrees
    · rw [dedup_installShard]
      exact hcomplete.mono (hdedup.trans (dedupLe_merge_right _ _))
  | confirmed shards sh' eq mem has gcing =>
    cases hnew
    exact hgrow sh' has (.inr gcing)
  | removed => cases hnew

/-! ### One more command in one log -/

/-- Where a configuration has been adopted after one more command: where it was
    before, or at that command, by a settled group. -/
theorem adopts_committed {k p : Nat}
    (hadopts : Adopts k (Function.update L g (L g ++ [op]) k) p (n + 1)) :
    Adopts k (L k) p (n + 1) ∧ (machine k).run ((Function.update L g (L g ++ [op]) k).take p) =
        (machine k).run ((L k).take p) ∨
      k = g ∧ (states L g).settled = true ∧
        (states L g).config.num ≠ (apply g (states L g) op).1.config.num ∧
        (machine k).run ((Function.update L g (L g ++ [op]) k).take p) = states L g := by
  by_cases hk : k = g
  · subst hk
    rw [Function.update_self] at hadopts ⊢
    rcases hadopts.of_snoc with hold | ⟨rfl, hbefore, hafter⟩
    · exact .inl ⟨hold, (machine k).run_take_append hold.lt_length.le _⟩
    · rw [(machine k).run_snoc] at hafter
      have hne : (states L k).config.num ≠ (apply k (states L k) op).1.config.num := by
        intro heq
        have := heq.trans hafter
        have : (states L k).config.num + 1 = n + 1 := hbefore
        omega
      refine .inr ⟨rfl, ?_, hne, by rw [List.take_left]; rfl⟩
      -- only a settled group goes on to another configuration
      have happ := applies k (states L k) op
      generalize (apply k (states L k) op).1 = st' at happ hne
      cases happ with
      | adopted config next settled => exact settled
      | same => exact absurd rfl hne
      | wrote => exact absurd rfl hne
      | installed => exact absurd rfl hne
      | deleted => exact absurd rfl hne
  · rw [Function.update_of_ne hk] at hadopts ⊢
    exact .inl ⟨hadopts, rfl⟩

theorem states_commit (L : Nat → List Op) (g : Nat) (op : Op) :
    states (Function.update L g (L g ++ [op])) =
      Function.update (states L) g (apply g (states L g) op).1 := by
  rw [OwnershipInv.states_committed, (machine g).run_snoc]
  rfl

theorem not_taken_of_commit {k : Nat}
    (hnot : ¬ Taken (states (Function.update L g (L g ++ [op])) k) n s) :
    ¬ Taken (states L k) n s := by
  intro htaken
  refine hnot ?_
  rw [states_commit]
  exact GroupsOk.taken_update (applies g (states L g) op) k htaken

theorem num_le_commit (L : Nat → List Op) (g : Nat) (op : Op) (k : Nat) :
    (states L k).config.num ≤ (states (Function.update L g (L g ++ [op])) k).config.num := by
  rw [states_commit]
  exact GroupsOk.num_le_update (applies g (states L g) op) k

theorem touched_commit (h : DataInv ct L effects) (g : Nat) (op : Op) (s : Fin NShards)
    (e : Effect (Nat × Nat) Query (Option Str)) (he : e ∈ effects) (htouch : Touches e s) :
    ∃ m, ct.owner m s ≠ 0 ∧ Passed ct (states (Function.update L g (L g ++ [op]))) s m ∧
      m ≤ (states (Function.update L g (L g ++ [op])) (ct.owner m s)).config.num := by
  have hnum := num_le_commit L g op
  obtain ⟨m, hm, hpassed, hle⟩ := h.touched s e he htouch
  exact ⟨m, hm, hpassed.mono hnum, hle.trans (hnum _)⟩

/-- A command that writes nothing for a client. -/
theorem quiet (h : DataInv ct L effects) (hG : GroupsOk ct (states L)) (hg : g ≠ 0)
    (hok : OpOk ct L g op)
    (hbacked : ∀ num shards shardData dedup, op = .installShard num shards shardData dedup →
      Backed effects dedup)
    (hclient : ∀ cop, op = .client cop → (apply g (states L g) op).1 = states L g) :
    DataInv ct (Function.update L g (L g ++ [op])) effects := by
  refine { held := ?_, given := ?_, touched := h.touched_commit g op, backed := ?_ }
  · intro k s sh hk hsh hstate
    rw [states_commit] at hsh ⊢
    by_cases hkg : k = g
    · subst hkg
      rw [Function.update_self] at hsh ⊢
      exact h.held_quiet hG hk hok hclient hsh hstate
    · rw [Function.update_of_ne hkg] at hsh ⊢
      exact h.held k s sh hk hsh hstate
  · intro n s p sh hmoves hadopts hnot hsh
    rcases adopts_committed hadopts with ⟨hadopts, hrun⟩ | ⟨-, settled, -, hrun⟩
    · rw [hrun] at hsh ⊢
      exact h.given n s p sh hmoves hadopts (not_taken_of_commit hnot) hsh
    · rw [hrun] at hsh ⊢
      exact h.held g s sh hg hsh (.inl (settled_iff.mp settled s sh hsh))
  · intro k
    rw [states_commit]
    by_cases hkg : k = g
    · subst hkg
      rw [Function.update_self]
      have happ := applies k (states L k) op
      generalize (apply k (states L k) op).1 = st' at happ hclient
      cases happ with
      | same => exact h.backed k
      | wrote cop =>
        rw [hclient cop rfl]
        exact h.backed k
      | adopted => exact h.backed k
      | installed shards shardData dedup => exact (h.backed k).merge (hbacked _ _ _ _ rfl)
      | deleted => exact h.backed k
    · rw [Function.update_of_ne hkg]
      exact h.backed k

/-- A `Get` has an effect but changes nothing. -/
theorem observe (h : DataInv ct L effects) {e : Effect (Nat × Nat) Query (Option Str)}
    (hget : e.query.isGet = true) : DataInv ct L (effects ++ [e]) := by
  have hnot : ∀ s, ¬ Touches e s := by
    rintro s ⟨hmut, -⟩
    rw [hget] at hmut
    cases hmut
  refine { held := ?_, given := ?_, touched := ?_, backed := fun g => (h.backed g).append _ }
  · intro g s sh hg hsh hstate
    obtain ⟨hagrees, hcomplete⟩ := h.held g s sh hg hsh hstate
    exact ⟨hagrees.snoc (hnot s), hcomplete.snoc (hnot s)⟩
  · intro n s p sh hmoves hadopts htaken hsh
    obtain ⟨hagrees, hcomplete⟩ := h.given n s p sh hmoves hadopts htaken hsh
    exact ⟨hagrees.snoc (hnot s), hcomplete.snoc (hnot s)⟩
  · intro s x hx htouch
    rcases List.mem_append.mp hx with hx | hx
    · exact h.touched s x hx htouch
    · cases List.mem_singleton.mp hx
      exact absurd htouch (hnot s)

/-- The answer of an effect is that of the map. -/
theorem effect_answer (h : DataInv ct L effects) (hg : g ≠ 0) {cop : ClientOp} {sh : Shard}
    (has : (states L g).shards (key2shard cop.key) = some sh) (serving : sh.state = .serving) :
    ((states L g).effect cop).answer = MapSpec.answer (content effects) cop.query := by
  simp only [ShardStore.effect, has, Option.bind_some]
  refine MapSpec.answer_congr ?_
  rw [cop.key_query]
  exact (h.held g _ sh hg has (.inl serving)).1 cop.key rfl

/-- A mutation of a shard that the group serves. -/
theorem wrote (h : DataInv ct L effects) (hG : GroupsOk ct (states L)) (hg : g ≠ 0)
    {cop : ClientOp} {sh : Shard}
    (has : (states L g).shards (key2shard cop.key) = some sh) (serving : sh.state = .serving)
    (mutates : cop.type ≠ .get)
    (happ : (apply g (states L g) (.client cop)).1 =
      { states L g with
        shards := Function.update (states L g).shards (key2shard cop.key)
          (some { sh with data := ShardStore.write sh.data cop })
        dedup := Function.update (states L g).dedup cop.clientId (some cop.seq) }) :
    DataInv ct (Function.update L g (L g ++ [.client cop]))
      (effects ++ [(states L g).effect cop]) := by
  have hheld : Held (states L g) (key2shard cop.key) := ⟨sh, has, .inl serving⟩
  have hmut : cop.query.isGet = false := by simpa [cop.isGet_query] using mutates
  have hother : ∀ s, s ≠ key2shard cop.key → ¬ Touches ((states L g).effect cop) s := by
    rintro s hs ⟨-, hkey⟩
    exact hs (hkey.symm.trans (congrArg key2shard cop.key_query))
  have hdedup := (applies g (states L g) (.client cop)).dedup_le
  refine { held := ?_, given := ?_, touched := ?_, backed := ?_ }
  · intro k s sh' hk hsh hstate
    rw [states_commit] at hsh ⊢
    by_cases hkg : k = g
    · subst hkg
      rw [Function.update_self] at hsh ⊢
      by_cases hs : s = key2shard cop.key
      · subst hs
        obtain ⟨hagrees, hcomplete⟩ := h.held k _ sh hk has (.inl serving)
        rw [happ] at hsh
        cases (Function.update_self ..).symm.trans hsh
        refine ⟨hagrees.write rfl, (hcomplete.mono hdedup).record ?_⟩
        rw [happ]
        exact Function.update_self ..
      · have hold : (states L k).shards s = some sh' := by
          rw [happ] at hsh
          exact (Function.update_of_ne hs ..).symm.trans hsh
        obtain ⟨hagrees, hcomplete⟩ := h.held k s sh' hk hold hstate
        exact ⟨hagrees.snoc (hother s hs), (hcomplete.mono hdedup).snoc (hother s hs)⟩
    · rw [Function.update_of_ne hkg] at hsh ⊢
      have hs : s ≠ key2shard cop.key := by
        rintro rfl
        exact hkg (hG.held_unique hk hg ⟨sh', hsh, hstate⟩ hheld)
      obtain ⟨hagrees, hcomplete⟩ := h.held k s sh' hk hsh hstate
      exact ⟨hagrees.snoc (hother s hs), hcomplete.snoc (hother s hs)⟩
  · intro n s p sh' hmoves hadopts hnot hsh
    rcases adopts_committed hadopts with ⟨hadopts, hrun⟩ | ⟨-, -, hne, -⟩
    · have hnot := not_taken_of_commit hnot
      rw [hrun] at hsh ⊢
      have hs : s ≠ key2shard cop.key := by
        rintro rfl
        exact hG.not_held_of_given hmoves hadopts.num_le hnot hg hheld
      obtain ⟨hagrees, hcomplete⟩ := h.given n s p sh' hmoves hadopts hnot hsh
      exact ⟨hagrees.snoc (hother s hs), hcomplete.snoc (hother s hs)⟩
    · rw [happ] at hne
      exact absurd rfl hne
  · intro s e he htouch
    rcases List.mem_append.mp he with he | he
    · exact h.touched_commit g _ s e he htouch
    · cases List.mem_singleton.mp he
      have hs : s = key2shard cop.key := by
        by_contra hs
        exact hother s hs htouch
      subst hs
      have howner := hG.owner_of_held hg hheld
      refine ⟨(states L g).config.num, ?_, (hG.held g _ hg hheld).mono (num_le_commit L g _), ?_⟩
      · rw [howner]
        exact hg
      · rw [howner]
        exact num_le_commit L g _ g
  · intro k
    rw [states_commit]
    by_cases hkg : k = g
    · subst hkg
      rw [Function.update_self, happ]
      exact (h.backed k).record (e := (states L k).effect cop) hmut
    · rw [Function.update_of_ne hkg]
      exact (h.backed k).append _

/-- Any command that may come to stand in the log of a group. -/
theorem commit (h : DataInv ct L effects) (hG : GroupsOk ct (states L)) (hg : g ≠ 0)
    (hok : OpOk ct L g op)
    (hbacked : ∀ num shards shardData dedup, op = .installShard num shards shardData dedup →
      Backed effects dedup) :
    DataInv ct (Function.update L g (L g ++ [op])) (effects ++ (states L g).effects g op) := by
  cases op with
  | client cop =>
    have hcase := clientCase g (states L g) cop
    have happ : (apply g (states L g) (.client cop)).1 = ((states L g).applyClientOp g cop).1 := rfl
    generalize ((states L g).applyClientOp g cop).1 = st' at hcase happ
    generalize (states L g).effects g (.client cop) = more at hcase ⊢
    have hquiet : st' = states L g →
        DataInv ct (Function.update L g (L g ++ [.client cop])) effects :=
      fun hst => h.quiet hG hg hok hbacked fun _ _ => happ.trans hst
    cases hcase with
    | refused =>
      rw [List.append_nil]
      exact hquiet rfl
    | read sh res err owns has serving get =>
      exact (hquiet rfl).observe (by simp [ShardStore.effect, cop.isGet_query, get])
    | duplicate =>
      rw [List.append_nil]
      exact hquiet rfl
    | wrote sh res err owns has serving mutates fresh =>
      exact h.wrote hG hg has serving mutates happ
  | config => simpa [ShardStore.effects] using h.quiet hG hg hok hbacked (by simp)
  | installShard => simpa [ShardStore.effects] using h.quiet hG hg hok hbacked (by simp)
  | deleteShard => simpa [ShardStore.effects] using h.quiet hG hg hok hbacked (by simp)
  | empty => simpa [ShardStore.effects] using h.quiet hG hg hok hbacked (by simp)

end DataInv

end RaftLabs.ShardKV
