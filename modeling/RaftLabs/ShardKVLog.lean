import RaftLabs.ShardKVServerSpec

/-!
# The log of a group

Facts about the log of one group that need no other group: where it adopted a
configuration, that a shard it gave up stays as it was until it is deleted, and
that a shard it has to pull is served only after an `InstallShard` entry.
-/

namespace RaftLabs.ShardKV

open ReplicatedService

variable {ct : History} {gid n p q : Nat} {log : List Op} {s : Fin NShards}

theorem run_applies (gid : Nat) (log : List Op) (op : Op) :
    Applies gid ((machine gid).run log) op ((machine gid).run (log ++ [op])) := by
  rw [(machine gid).run_snoc]
  exact applies gid _ op

theorem localOk_run (hgid : gid ≠ 0) (hlog : ∀ op ∈ log, op.Genuine ct) :
    LocalOk ct gid ((machine gid).run log) := by
  induction log using List.reverseRecOn with
  | nil => exact LocalOk.start hgid
  | append_singleton log op ih =>
    have hop : op.Genuine ct := hlog op (by simp)
    exact (ih fun x hx => hlog x (List.mem_append_left _ hx)).apply hop (run_applies gid log op)

/-- What a group knew at any position of its log, and so what a replica knows. -/
theorem localOk_of_sound {ν : Type} {service : Service ν ShardStore Op Result} {P : Op → Prop}
    (h : service.Sound (machine gid) P) (hP : ∀ op, P op → op.Genuine ct) (hgid : gid ≠ 0)
    (p : Nat) : LocalOk ct gid ((machine gid).run (service.log.take p)) :=
  localOk_run hgid fun op hop => hP op (h.logged op (List.mem_of_mem_take hop))

theorem num_mono (gid : Nat) (log : List Op) (h : p ≤ q) :
    ((machine gid).run (log.take p)).config.num ≤ ((machine gid).run (log.take q)).config.num :=
  (machine gid).run_relation (fun st st' => st.config.num ≤ st'.config.num)
    (fun _ => le_rfl) (fun _ _ _ => le_trans) (fun st op => (applies gid st op).num_le) log h

theorem num_le_of_isPrefix (gid : Nat) {log' : List Op} (h : log <+: log') :
    ((machine gid).run log).config.num ≤ ((machine gid).run log').config.num := by
  obtain ⟨more, rfl⟩ := h
  have hmono := num_mono gid (log ++ more) (show log.length ≤ (log ++ more).length by simp)
  rwa [List.take_left, List.take_length] at hmono

theorem dedup_mono (gid : Nat) (log : List Op) (h : p ≤ q) :
    DedupLe ((machine gid).run (log.take p)).dedup ((machine gid).run (log.take q)).dedup :=
  (machine gid).run_relation (fun st st' => DedupLe st.dedup st'.dedup)
    (fun _ => DedupLe.refl _) (fun _ _ _ => DedupLe.trans)
    (fun st op => (applies gid st op).dedup_le) log h

/-! ### States that a shard does not come back to -/

/-- The group has adopted configuration `n` and does not have shard `s` of that
    configuration in `state` any more. -/
def Rid (state : ShardState) (st : ShardStore) (n : Nat) (s : Fin NShards) : Prop :=
  n < st.config.num ∨ st.config.num = n ∧ ∀ sh, st.shards s = some sh → sh.state ≠ state

section Rid

variable {state : ShardState} {st st' : ShardStore} {op : Op}

/-- A shard comes to be pulled or given up only when a configuration is adopted. -/
theorem Rid.apply (h : Rid state st n s) (hserving : state ≠ .serving) (hgcing : state ≠ .gcing)
    (happ : Applies gid st op st') : Rid state st' n s := by
  rcases h with hlt | ⟨hnum, hsh⟩
  · exact .inl (lt_of_lt_of_le hlt happ.num_le)
  · have hev := happ.evolves s
    unfold Rid
    revert hev
    generalize st'.config.num = num
    generalize st'.shards s = new
    intro hev
    cases hev with
    | same => exact .inr ⟨hnum, hsh⟩
    | wrote cop sh eq key owns has serving =>
      refine .inr ⟨hnum, fun sh' hsh' => ?_⟩
      cases hsh'
      exact hsh sh has
    | migrated config eq next settled => exact .inl (by omega)
    | installed shards shardData dedup sh eq mem has pulling =>
      refine .inr ⟨hnum, fun sh' hsh' => ?_⟩
      cases hsh'
      exact hgcing.symm
    | confirmed shards sh eq mem has gcing =>
      refine .inr ⟨hnum, fun sh' hsh' => ?_⟩
      cases hsh'
      exact hserving.symm
    | removed => exact .inr ⟨hnum, fun sh' hsh' => by cases hsh'⟩

theorem Rid.of_isPrefix {log' : List Op} (h : Rid state ((machine gid).run log) n s)
    (hserving : state ≠ .serving) (hgcing : state ≠ .gcing) (hlog : log <+: log') :
    Rid state ((machine gid).run log') n s := by
  exact (machine gid).run_of_isPrefix
    (fun st op h => Rid.apply h hserving hgcing (applies gid st op)) hlog h

end Rid

/-- The group has adopted configuration `n` and does not wait for shard `s` of that
    configuration any more. -/
def Taken (st : ShardStore) (n : Nat) (s : Fin NShards) : Prop := Rid .pulling st n s

theorem not_taken_of_pulling {st : ShardStore} {sh : Shard} (has : st.shards s = some sh)
    (pulling : sh.state = .pulling) : ¬ Taken st st.config.num s := by
  rintro (hlt | ⟨-, hnot⟩)
  · exact absurd hlt (Nat.lt_irrefl _)
  · exact hnot sh has pulling

theorem Taken.apply {st st' : ShardStore} {op : Op} (h : Taken st n s)
    (happ : Applies gid st op st') : Taken st' n s :=
  Rid.apply h (by decide) (by decide) happ

theorem Taken.of_isPrefix {log' : List Op} (h : Taken ((machine gid).run log) n s)
    (hlog : log <+: log') : Taken ((machine gid).run log') n s :=
  Rid.of_isPrefix h (by decide) (by decide) hlog

/-- The group has adopted configuration `n` and does not keep shard `s` for its new
    owner in that configuration any more. -/
def Released (st : ShardStore) (n : Nat) (s : Fin NShards) : Prop := Rid .bePulling st n s

theorem Released.of_isPrefix {log' : List Op} (h : Released ((machine gid).run log) n s)
    (hlog : log <+: log') : Released ((machine gid).run log') n s :=
  Rid.of_isPrefix h (by decide) (by decide) hlog

/-! ### Adoption of a configuration -/

/-- The entry at position `p` takes the group to configuration `n`. -/
def Adopts (gid : Nat) (log : List Op) (p n : Nat) : Prop :=
  ((machine gid).run (log.take p)).config.num + 1 = n ∧
    ((machine gid).run (log.take (p + 1))).config.num = n

namespace Adopts

theorem lt_length (h : Adopts gid log p n) : p < log.length := by
  by_contra hle
  have hle := Nat.le_of_not_lt hle
  obtain ⟨hbefore, hafter⟩ := h
  rw [List.take_of_length_le hle] at hbefore
  rw [List.take_of_length_le (Nat.le_succ_of_le hle)] at hafter
  omega

theorem append (h : Adopts gid log p n) (more : List Op) : Adopts gid (log ++ more) p n := by
  have hlt := h.lt_length
  unfold Adopts
  rw [(machine gid).run_take_append hlt.le, (machine gid).run_take_append hlt]
  exact h

theorem num_le (h : Adopts gid log p n) : n ≤ ((machine gid).run log).config.num := by
  have hle : p + 1 ≤ log.length := h.lt_length
  have := num_mono gid log hle
  rwa [List.take_length, h.2] at this

theorem of_isPrefix {log' : List Op} (h : Adopts gid log p n) (hlog : log <+: log') :
    Adopts gid log' p n ∧
      (machine gid).run (log'.take p) = (machine gid).run (log.take p) := by
  obtain ⟨more, rfl⟩ := hlog
  exact ⟨h.append more, (machine gid).run_take_append h.lt_length.le more⟩

theorem of_snoc {op : Op} (h : Adopts gid (log ++ [op]) p n) : Adopts gid log p n ∨
    p = log.length ∧ ((machine gid).run log).config.num + 1 = n ∧
      ((machine gid).run (log ++ [op])).config.num = n := by
  have hlt := h.lt_length
  rw [List.length_append, List.length_singleton] at hlt
  rcases Nat.lt_or_eq_of_le (Nat.le_of_lt_succ hlt) with hlt | rfl
  · unfold Adopts at h
    rw [(machine gid).run_take_append hlt.le, (machine gid).run_take_append hlt] at h
    exact .inl h
  · obtain ⟨hbefore, hafter⟩ := h
    rw [List.take_left] at hbefore
    rw [List.take_of_length_le (by simp)] at hafter
    exact .inr ⟨rfl, hbefore, hafter⟩

theorem not_lt (h : Adopts gid log p n) (h' : Adopts gid log q n) : ¬ p < q := by
  intro hlt
  have hle : p + 1 ≤ q := hlt
  have := num_mono gid log hle
  have := h.2
  have := h'.1
  omega

theorem unique (h : Adopts gid log p n) (h' : Adopts gid log q n) : p = q :=
  Nat.le_antisymm (Nat.le_of_not_lt (h'.not_lt h)) (Nat.le_of_not_lt (h.not_lt h'))

end Adopts

/-- A group that stands at `n` or beyond has adopted `n`. -/
theorem exists_adopts (hn : 0 < n) (hq : n ≤ ((machine gid).run (log.take q)).config.num) :
    ∃ p < q, Adopts gid log p n := by
  induction q with
  | zero => exact absurd (lt_of_lt_of_le hn hq) (Nat.lt_irrefl 0)
  | succ q ih =>
    by_cases hle : n ≤ ((machine gid).run (log.take q)).config.num
    · obtain ⟨p, hp, hadopts⟩ := ih hle
      exact ⟨p, Nat.lt_succ_of_lt hp, hadopts⟩
    · refine ⟨q, Nat.lt_succ_self q, ?_⟩
      cases hop : log[q]? with
      | none =>
        have hlen := List.getElem?_eq_none_iff.mp hop
        rw [List.take_of_length_le (Nat.le_succ_of_le hlen)] at hq
        rw [List.take_of_length_le hlen] at hle
        exact absurd hq hle
      | some op =>
        have hstep := (applies gid ((machine gid).run (log.take q)) op).num_le_succ
        have hrun : (machine gid).run (log.take (q + 1)) =
            (apply gid ((machine gid).run (log.take q)) op).1 := (machine gid).run_take_succ hop
        rw [← hrun] at hstep
        constructor <;> omega

/-! ### A shard that was given up -/

/-- A shard comes to be given up only when a configuration is adopted, and nothing
    changes its data after that. -/
theorem Applies.bePulling_before {st st' : ShardStore} {op : Op} {sh : Shard}
    (happ : Applies gid st op st') (hlocal : LocalOk ct gid st) (hop : op.Genuine ct)
    (hsh : st'.shards s = some sh) (hstate : sh.state = .bePulling) :
    st'.config.num = st.config.num ∧ st.shards s = some sh ∨
      st.config.num + 1 = st'.config.num ∧
        st.shards s = some { sh with state := .serving } := by
  have hev := happ.evolves s
  rw [hsh] at hev
  revert hev
  generalize st'.config.num = num
  generalize hnew : some sh = new
  intro hev
  cases hev with
  | same => exact .inl ⟨rfl, rfl⟩
  | wrote cop sh' eq key owns has serving =>
    cases hnew
    rw [serving] at hstate
    cases hstate
  | migrated config eq next settled =>
    subst eq
    refine .inr ⟨next.symm, ?_⟩
    have hmigrates := hlocal.adopted_migrates hop next settled s
    rw [← hnew] at hmigrates
    revert hmigrates
    generalize st.shards s = old
    intro hmigrates
    cases hmigrates with
    | stays sh hserving => rw [hserving] at hstate; cases hstate
    | leaves sh hserving => simp [← hserving]
    | created => cases hstate
    | awaited => cases hstate
  | installed => cases hnew; cases hstate
  | confirmed => cases hnew; cases hstate
  | removed => cases hnew

/-- What a group holds of a shard it gave up is what it held when it adopted the
    configuration, now and at every position in between. -/
theorem handover (hgid : gid ≠ 0) (hlog : ∀ op ∈ log, op.Genuine ct) {sh : Shard}
    (hsh : ((machine gid).run log).shards s = some sh) (hstate : sh.state = .bePulling) :
    ∃ p, Adopts gid log p ((machine gid).run log).config.num ∧
      ((machine gid).run (log.take p)).shards s = some { sh with state := .serving } ∧
      ∀ q, p < q → q ≤ log.length → ((machine gid).run (log.take q)).shards s = some sh := by
  induction log using List.reverseRecOn with
  | nil => cases hsh
  | append_singleton log op ih =>
    have hlog' : ∀ x ∈ log, x.Genuine ct := fun x hx => hlog x (List.mem_append_left _ hx)
    rcases (run_applies gid log op).bePulling_before (localOk_run hgid hlog')
      (hlog op (by simp)) hsh hstate with ⟨hnum, hold⟩ | ⟨hnum, hold⟩
    · obtain ⟨p, hadopts, hdata, hfrozen⟩ := ih hlog' hold
      have hlt := hadopts.lt_length
      refine ⟨p, ?_, ?_, ?_⟩
      · rw [hnum]
        exact hadopts.append _
      · rw [(machine gid).run_take_append hlt.le]
        exact hdata
      · intro q hpq hq
        by_cases hlen : q ≤ log.length
        · rw [(machine gid).run_take_append hlen]
          exact hfrozen q hpq hlen
        · rw [List.take_of_length_le]
          · exact hsh
          · rw [List.length_append, List.length_singleton]
            omega
    · refine ⟨log.length, ⟨?_, ?_⟩, ?_, ?_⟩
      · rw [List.take_left]
        exact hnum
      · rw [List.take_of_length_le (by simp)]
      · rw [List.take_left]
        exact hold
      · intro q hlt _
        rw [List.take_of_length_le]
        · exact hsh
        · rw [List.length_append, List.length_singleton]
          omega

/-! ### A shard that has to be pulled -/

/-- The `InstallShard` entry at position `q` takes shard `s` of configuration `n` from
    `Pulling` to `GCing`. -/
def Installs (gid : Nat) (log : List Op) (q n : Nat) (s : Fin NShards) : Prop :=
  (∃ shards shardData dedup, log[q]? = some (.installShard n shards shardData dedup)) ∧
    ((machine gid).run (log.take q)).config.num = n ∧
    (∃ sh, ((machine gid).run (log.take q)).shards s = some sh ∧ sh.state = .pulling) ∧
    ∃ sh, ((machine gid).run (log.take (q + 1))).shards s = some sh ∧ sh.state = .gcing

theorem Installs.append (h : Installs gid log q n s) (more : List Op) :
    Installs gid (log ++ more) q n s := by
  obtain ⟨⟨shards, shardData, dedup, hop⟩, hrest⟩ := h
  have hlt := (List.getElem?_eq_some_iff.mp hop).1
  refine ⟨⟨shards, shardData, dedup, ?_⟩, ?_⟩
  · rw [List.getElem?_append_left hlt]
    exact hop
  · rw [(machine gid).run_take_append hlt.le, (machine gid).run_take_append hlt]
    exact hrest

/-- What makes a shard taken is the entry that installs it. -/
theorem Applies.taken_before {st st' : ShardStore} {op : Op} (happ : Applies gid st op st')
    (hlocal : LocalOk ct gid st) (hop : op.Genuine ct) (hown : ct.owner n s = gid)
    (hprev : ct.owner (n - 1) s ≠ gid) (hassigned : ct.owner (n - 1) s ≠ 0)
    (h : Taken st' n s) : Taken st n s ∨
      (∃ shards shardData dedup, op = .installShard n shards shardData dedup) ∧
        st.config.num = n ∧ (∃ sh, st.shards s = some sh ∧ sh.state = .pulling) ∧
        ∃ sh, st'.shards s = some sh ∧ sh.state = .gcing := by
  have hev := happ.evolves s
  unfold Taken Rid at h
  revert h hev
  generalize st'.config.num = num
  generalize st'.shards s = new
  intro h hev
  cases hev with
  | same => exact .inl h
  | wrote cop sh eq key owns has serving =>
    refine .inl (h.imp id fun ⟨hnum, _⟩ => ⟨hnum, fun sh' hsh' => ?_⟩)
    rw [has] at hsh'
    cases hsh'
    simp [serving]
  | migrated config eq next settled =>
    subst eq
    refine .inl ?_
    rcases h with hlt | ⟨hnum, hsh⟩
    · rcases Nat.lt_or_eq_of_le (Nat.le_of_lt_succ (next ▸ hlt)) with hlt | heq
      · exact .inl hlt
      · -- settled at `n`: nothing is pulled
        refine .inr ⟨heq.symm, fun sh hsh => ?_⟩
        rw [settled_iff.mp settled s sh hsh]
        simp
    · -- on adopting `n` the shard is awaited
      exfalso
      have hnum : st.config.num + 1 = n := next.symm.trans hnum
      subst hnum
      rw [Nat.add_sub_cancel] at hprev hassigned
      have hmigrates := hlocal.adopted_migrates hop next settled s
      revert hsh hmigrates
      generalize st.shards s = old
      generalize ShardStore.migrate gid _ _ old = new
      intro hsh hmigrates
      cases hmigrates with
      | stays _ _ hold => exact hprev hold
      | leaves _ _ hold => exact hprev hold
      | absent _ hnew => exact hnew hown
      | created hold => exact hassigned hold
      | awaited => exact hsh _ rfl rfl
  | installed shards shardData dedup sh eq mem has pulling =>
    rcases h with hlt | ⟨hnum, -⟩
    · exact .inl (.inl hlt)
    · exact .inr ⟨⟨shards, shardData, dedup, hnum ▸ eq⟩, hnum, ⟨sh, has, pulling⟩, _, rfl, rfl⟩
  | confirmed shards sh eq mem has gcing =>
    refine .inl (h.imp id fun ⟨hnum, _⟩ => ⟨hnum, fun sh' hsh' => ?_⟩)
    rw [has] at hsh'
    cases hsh'
    simp [gcing]
  | removed shards sh eq mem has bePulling =>
    refine .inl (h.imp id fun ⟨hnum, _⟩ => ⟨hnum, fun sh' hsh' => ?_⟩)
    rw [has] at hsh'
    cases hsh'
    simp [bePulling]

theorem exists_installs (hgid : gid ≠ 0) (hlog : ∀ op ∈ log, op.Genuine ct) (hn : 0 < n)
    (hown : ct.owner n s = gid) (hprev : ct.owner (n - 1) s ≠ gid)
    (hassigned : ct.owner (n - 1) s ≠ 0) (h : Taken ((machine gid).run log) n s) :
    ∃ q, Installs gid log q n s := by
  induction log using List.reverseRecOn with
  | nil =>
    rcases h with hlt | ⟨hnum, -⟩
    · exact absurd hlt (Nat.not_lt_zero _)
    · exact absurd hnum hn.ne
  | append_singleton log op ih =>
    have hlog' : ∀ x ∈ log, x.Genuine ct := fun x hx => hlog x (List.mem_append_left _ hx)
    rcases (run_applies gid log op).taken_before (localOk_run hgid hlog') (hlog op (by simp))
      hown hprev hassigned h with hold | ⟨⟨shards, shardData, dedup, hop⟩, hrest⟩
    · obtain ⟨q, hq⟩ := ih hlog' hold
      exact ⟨q, hq.append _⟩
    · refine ⟨log.length, ⟨shards, shardData, dedup, ?_⟩, ?_⟩
      · rw [List.getElem?_concat_length, hop]
      · rw [List.take_left, List.take_of_length_le (by simp)]
        exact hrest

end RaftLabs.ShardKV
