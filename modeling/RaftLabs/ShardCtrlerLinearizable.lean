import RaftLabs.ShardCtrlerService

/-!
# The shard controller is linearizable

Mutations take effect in the order of the log, duplicates excepted.  A `Query` is
answered from a state that is at least as new as its own place in the log and no
newer than the log is when it reads.  So it takes effect where it reads and not
where it is logged: after each command, every `Query` logged so far may be answered
from the state that the command leaves, and the trace holds all these answers.
-/

namespace RaftLabs.Linearizability

variable {ι Q R : Type}

/-- Observations may be added to a trace as often as one likes. -/
theorem MutationsOnce.append_readonly {readonly : Q → Prop} {effects more : List (Effect ι Q R)}
    (h : MutationsOnce readonly effects) (hmore : ∀ e ∈ more, readonly e.query) :
    MutationsOnce readonly (effects ++ more) := by
  induction more using List.reverseRecOn with
  | nil => rwa [List.append_nil]
  | append_singleton more e ih =>
    rw [← List.append_assoc]
    refine (ih fun e he => hmore e (List.mem_append_left _ he)).snoc fun hmut => ?_
    exact absurd (hmore e (List.mem_append_right _ (List.mem_singleton_self e))) hmut

end RaftLabs.Linearizability

namespace RaftLabs.Ctrl

open Linearizability ReplicatedService

variable {N : Nat} {γ : Type}

/-! ### One command -/

/-- The configurations of a replica. -/
def ShardCtrler.view (sc : ShardCtrler N γ) : Configs N γ where
  configs := sc.configs
  configs_ne := sc.configs_ne

theorem answer_query (sc : ShardCtrler N γ) (num : Int) :
    sc.view.answer (.query num) = some (sc.configAt num) := rfl

theorem view_congr {sc sc' : ShardCtrler N γ} (h : sc'.configs = sc.configs) :
    sc'.view = sc.view := by
  simp only [ShardCtrler.view, h]

theorem mem_carriedOut {sc : ShardCtrler N γ} {op : Op γ}
    {e : Effect (Nat × Nat) (Args γ) (Option (Config N γ))} : e ∈ op.carriedOut sc ↔
      (op.args.isQuery = false ∧ sc.Fresh op) ∧
        e = { id := op.id, query := op.args, answer := none } := by
  unfold Op.carriedOut
  split
  · next hcond => simp [hcond]
  · next hcond => simp [hcond]

theorem mem_observed {sc : ShardCtrler N γ} {op : Op γ}
    {e : Effect (Nat × Nat) (Args γ) (Option (Config N γ))} : e ∈ op.observed sc ↔
      ∃ num, op.args = .query num ∧
        e = { id := op.id, query := op.args, answer := some (sc.configAt num) } := by
  unfold Op.observed
  cases op.args <;> simp

/-! ### Whose commands they are -/

/-- The command is the request of a call that was made. -/
def Requested (cl : Clients (Args γ) (Option (Config N γ))) (op : Op γ) : Prop :=
  cl.Asked op.id op.args ∧ op = Op.request op.id.1 op.id.2 op.args

theorem Requested.of_mem {cl : Clients (Args γ) (Option (Config N γ))} {t c seq : Nat}
    {args : Args γ} (h : (t, .invoke (c, seq) args) ∈ cl.history) :
    Requested cl (Op.request c seq args) :=
  ⟨⟨t, h⟩, rfl⟩

/-- The identity of a call decides its request. -/
theorem Requested.eq_of_id {cl : Clients (Args γ) (Option (Config N γ))}
    {effects : List (Effect (Nat × Nat) (Args γ) (Option (Config N γ)))} {op op' : Op γ}
    (hop : Requested cl op) (h : Explained cl effects) (hop' : Requested cl op')
    (hid : op.id = op'.id) : op = op' := by
  have hargs := h.same_query _ _ _ hop.1 (hid ▸ hop'.1)
  rw [hop.2, hop'.2, hid, hargs]

theorem Requested.fields {cl : Clients (Args γ) (Option (Config N γ))} {op : Op γ}
    (h : Requested cl op) : op.clientId = op.id.1 ∧ op.seq = op.id.2 :=
  ⟨congrArg Op.clientId h.2, congrArg Op.seq h.2⟩

/-! ### The state machine -/

variable [LinearOrder γ]

theorem enumerates_sortedKeys (m : Groups γ) : Enumerates (sortedKeys m) m := by
  unfold Enumerates sortedKeys
  induction m.keys.val using Quotient.inductionOn with
  | _ l => exact Multiset.coe_eq_coe.mpr (List.perm_insertionSort _ l)

variable [Zero γ]

theorem sortedOrders_possible (args : Args γ) (last : Config N γ) :
    (sortedOrders args last).Possible args last := by
  refine ⟨enumerates_sortedKeys _, ?_, ?_⟩
  · rintro servers rfl
    exact enumerates_sortedKeys _
  · -- `prepare` does not range over the new groups.
    cases args <;> exact enumerates_sortedKeys _

/-- With such arguments a new configuration can be made. -/
theorem nextConfig_callable {o : MapOrders γ} {args : Args γ} {last : Config N γ}
    (ho : o.Possible args last) (h0 : (0 : γ) ∉ last.groups) (hargs : args.Callable N) :
    ∃ nc, nextConfig o args last = .ok nc ∧ (0 : γ) ∉ nc.groups := by
  have hjoin : ∀ servers, args = .join servers → (0 : γ) ∉ servers := by
    rintro servers rfl
    exact hargs
  have hprep := ho.zero_notMem_prepare h0 hjoin
  obtain ⟨c', hc', hgroups, -⟩ := rebalance_wellFormed ho.2.2 hprep
  unfold nextConfig
  cases args with
  | join servers => exact ⟨c', hc', hgroups ▸ hprep⟩
  | leave gids => exact ⟨c', hc', hgroups ▸ hprep⟩
  | move shard gid =>
    have hrange : 0 ≤ shard ∧ shard < N := hargs
    dsimp only
    rw [dif_pos hrange]
    exact ⟨_, rfl, hprep⟩
  | query num => exact ⟨_, rfl, hprep⟩

theorem run_snoc (log : List (Op γ)) (op : Op γ) {sc : ShardCtrler N γ}
    (h : machine.run log = .ok sc) : machine.run (log ++ [op]) =
      sc.applyLoop (sortedOrders op.args sc.current) (sc.lastApplied + 1) op := by
  rw [machine.run_snoc, h]
  rfl

/-- No replica panics or hangs. -/
theorem exists_run {log : List (Op γ)} (h : ∀ op ∈ log, op.args.Callable N) :
    ∃ sc : ShardCtrler N γ, machine.run log = .ok sc ∧ (0 : γ) ∉ sc.current.groups := by
  induction log using List.reverseRecOn with
  | nil => exact ⟨.start, rfl, Finmap.notMem_empty⟩
  | append_singleton log op ih =>
    obtain ⟨sc, hsc, h0⟩ := ih fun op hop => h op (List.mem_append_left _ hop)
    have ho := sortedOrders_possible op.args sc.current
    obtain ⟨nc, hnc, hnc0⟩ := nextConfig_callable ho h0
      (h op (List.mem_append_right _ (List.mem_singleton_self op)))
    obtain ⟨sc', hsc'⟩ := ShardCtrler.applyLoop_ok (fun _ => hnc) (sc.lastApplied + 1)
    refine ⟨sc', by rw [run_snoc log op hsc, hsc'], ?_⟩
    rcases ShardCtrler.applyLoop_cases hsc' with
      ⟨-, rfl⟩ | ⟨-, -, ⟨-, hconfigs, -⟩ | ⟨-, -, -, nc', hnc', hconfigs⟩⟩
    · exact h0
    · rwa [ShardCtrler.current_congr hconfigs]
    · rw [hnc] at hnc'
      cases hnc'
      rwa [ShardCtrler.current_of_append hconfigs]

/-- A replica that has applied `k` commands in turn. -/
theorem replays_of_run {log : List (Op γ)} {k : Nat} (hk : k ≤ log.length)
    {sc : ShardCtrler N γ} (h : machine.run (log.take k) = .ok sc) : Replays log k sc := by
  induction k generalizing sc with
  | zero =>
    cases h
    exact .start
  | succ k ih =>
    obtain ⟨op, hop⟩ : ∃ op, log[k]? = some op :=
      ⟨_, List.getElem?_eq_getElem (Nat.lt_of_succ_le hk)⟩
    rw [machine.run_take_succ hop] at h
    cases hprev : (machine.run (log.take k) : Except Fault (ShardCtrler N γ)) with
    | error e =>
      rw [hprev] at h
      cases h
    | ok sc₀ =>
      rw [hprev] at h
      have hreplays := ih (Nat.le_of_succ_le hk) hprev
      refine hreplays.next hop (sortedOrders_possible _ _) ?_
      rw [← hreplays.lastApplied_eq]
      exact h

/-! ### The effects of a log -/

theorem effects_snoc (log : List (Op γ)) (op : Op γ) :
    effects N (log ++ [op]) = effects N log ++ stepEffects log op := by
  have hfst : ∀ ops : List (Op γ), (ops.foldl (fun x op => (x.1 ++ [op], x.2 ++ stepEffects x.1 op))
      (([], []) : List (Op γ) × List (Effect (Nat × Nat) (Args γ) (Option (Config N γ))))).1 =
        ops := by
    intro ops
    induction ops using List.reverseRecOn with
    | nil => rfl
    | append_singleton ops op ih => rw [List.foldl_append, List.foldl_cons, List.foldl_nil, ih]
  rw [effects, List.foldl_append, List.foldl_cons, List.foldl_nil, hfst]
  rfl

theorem effects_isPrefix (log more : List (Op γ)) :
    effects N log <+: effects N (log ++ more) := by
  induction more using List.reverseRecOn with
  | nil => rw [List.append_nil]
  | append_singleton more op ih =>
    rw [← List.append_assoc, effects_snoc]
    exact ih.trans (List.prefix_append _ _)

theorem stepEffects_eq {log : List (Op γ)} {op : Op γ} {sc sc' : ShardCtrler N γ}
    (h : machine.run log = .ok sc) (h' : machine.run (log ++ [op]) = .ok sc') :
    stepEffects log op = op.carriedOut sc ++ (log ++ [op]).flatMap (Op.observed sc') := by
  rw [stepEffects, h, h']

/-- Every effect is one of a command in the log; mutations answer nothing. -/
theorem mem_effects {log : List (Op γ)} {e : Effect (Nat × Nat) (Args γ) (Option (Config N γ))}
    (h : e ∈ effects N log) : (∃ op ∈ log, e.id = op.id ∧ e.query = op.args) ∧
      (e.query.isQuery = false → e.answer = none) := by
  induction log using List.reverseRecOn with
  | nil => cases h
  | append_singleton log op ih =>
    rw [effects_snoc] at h
    rcases List.mem_append.mp h with h | h
    · obtain ⟨⟨op', hop', hrest⟩, hanswer⟩ := ih h
      exact ⟨⟨op', List.mem_append_left _ hop', hrest⟩, hanswer⟩
    · unfold stepEffects at h
      split at h
      · rcases List.mem_append.mp h with h | h
        · obtain ⟨-, rfl⟩ := mem_carriedOut.mp h
          exact ⟨⟨op, List.mem_append_right _ (List.mem_singleton_self op), rfl, rfl⟩, fun _ => rfl⟩
        · obtain ⟨op', hop', h⟩ := List.mem_flatMap.mp h
          obtain ⟨num, hargs, rfl⟩ := mem_observed.mp h
          refine ⟨⟨op', hop', rfl, rfl⟩, fun hmut => ?_⟩
          dsimp only at hmut
          rw [hargs] at hmut
          cases hmut
      · cases h

/-- What the answers of `Query`s do not change. -/
theorem legal_observed (sc : ShardCtrler N γ) (ops : List (Op γ)) :
    Legal (Configs.object N γ) sc.view (ops.flatMap (Op.observed sc)) ∧
      after (Configs.object N γ) sc.view (ops.flatMap (Op.observed sc)) = sc.view := by
  induction ops with
  | nil => exact ⟨trivial, rfl⟩
  | cons op ops ih =>
    rw [List.flatMap_cons, legal_append, after_append]
    have hop : Legal (Configs.object N γ) sc.view (op.observed sc) ∧
        after (Configs.object N γ) sc.view (op.observed sc) = sc.view := by
      unfold Op.observed
      cases hargs : op.args with
      | query num => exact ⟨⟨(answer_query sc num).symm, trivial⟩, rfl⟩
      | join servers => exact ⟨trivial, rfl⟩
      | leave gids => exact ⟨trivial, rfl⟩
      | move shard gid => exact ⟨trivial, rfl⟩
    rw [hop.2]
    exact ⟨⟨hop.1, ih.1⟩, ih.2⟩

/-- A command does to the configurations what it should. -/
theorem legal_carriedOut {sc sc' : ShardCtrler N γ} {op : Op γ}
    (h : sc.applyLoop (sortedOrders op.args sc.current) (sc.lastApplied + 1) op = .ok sc') :
    Legal (Configs.object N γ) sc.view (op.carriedOut sc) ∧
      after (Configs.object N γ) sc.view (op.carriedOut sc) = sc'.view := by
  rcases ShardCtrler.applyLoop_cases h with
    ⟨hle, -⟩ | ⟨-, -, ⟨hskip, hconfigs, -⟩ | ⟨hq, hfresh, -, nc, hnc, hconfigs⟩⟩
  · omega
  · have hnone : op.carriedOut sc = [] := by
      rw [Op.carriedOut, if_neg]
      rintro ⟨hq, hfresh⟩
      rcases hskip with hskip | hskip
      · rw [hq] at hskip
        cases hskip
      · exact hskip hfresh
    rw [hnone]
    exact ⟨trivial, (view_congr hconfigs).symm⟩
  · rw [Op.carriedOut, if_pos ⟨hq, hfresh⟩]
    refine ⟨⟨?_, trivial⟩, ?_⟩
    · dsimp only [Configs.object]
      unfold Configs.answer
      cases hargs : op.args with
      | query num =>
        rw [hargs] at hq
        cases hq
      | join servers => rfl
      | leave gids => rfl
      | move shard gid => rfl
    · have hnext : sc.view.next op.args = sc.view.add nc := by
        have hlatest : sc.view.latest = sc.current := rfl
        rw [Configs.next, hq, if_neg Bool.false_ne_true, hlatest, hnc]
      have hview : sc'.view = sc.view.add nc := by
        simp only [ShardCtrler.view, Configs.add, hconfigs]
      exact hnext.trans hview.symm

theorem legal_effects {log : List (Op γ)} (h : ∀ op ∈ log, op.args.Callable N)
    {sc : ShardCtrler N γ} (hrun : machine.run log = .ok sc) :
    Legal (Configs.object N γ) (Configs.object N γ).init (effects N log) ∧
      after (Configs.object N γ) (Configs.object N γ).init (effects N log) = sc.view := by
  induction log using List.reverseRecOn generalizing sc with
  | nil =>
    cases hrun
    exact ⟨trivial, rfl⟩
  | append_singleton log op ih =>
    have hlog : ∀ op ∈ log, op.args.Callable N := fun op hop => h op (List.mem_append_left _ hop)
    obtain ⟨sc₀, hsc₀, -⟩ := exists_run hlog
    obtain ⟨hlegal, hafter⟩ := ih hlog hsc₀
    obtain ⟨hcarried, hnext⟩ := legal_carriedOut ((run_snoc log op hsc₀).symm.trans hrun)
    obtain ⟨hobserved, hsame⟩ := legal_observed sc (log ++ [op])
    rw [effects_snoc, stepEffects_eq hsc₀ hrun, legal_append, legal_append, after_append,
      after_append, hafter, hnext]
    exact ⟨⟨hlegal, hcarried, hobserved⟩, hsame⟩

/-! ### A log of requests -/

section Log

variable {cl : Clients (Args γ) (Option (Config N γ))} {log : List (Op γ)}

/-- A mutation in the log has taken effect, or a later one of its client has. -/
theorem exists_carriedOut (hlog : ∀ op ∈ log, Requested cl op)
    (hcallable : ∀ op ∈ log, op.args.Callable N) {op : Op γ} (hop : op ∈ log)
    (hmut : op.args.isQuery = false) :
    ∃ e ∈ effects N log, e.id.1 = op.id.1 ∧ op.id.2 ≤ e.id.2 := by
  induction log using List.reverseRecOn generalizing op with
  | nil => cases hop
  | append_singleton log last ih =>
    have hlog' : ∀ op ∈ log, Requested cl op := fun op hop => hlog op (List.mem_append_left _ hop)
    have hcallable' : ∀ op ∈ log, op.args.Callable N :=
      fun op hop => hcallable op (List.mem_append_left _ hop)
    rw [effects_snoc]
    rcases List.mem_append.mp hop with hop | hlast
    · obtain ⟨e, he, hrest⟩ := ih hlog' hcallable' hop hmut
      exact ⟨e, List.mem_append_left _ he, hrest⟩
    · obtain rfl : op = last := List.mem_singleton.mp hlast
      obtain ⟨sc, hsc, -⟩ := exists_run hcallable'
      obtain ⟨sc', hsc', -⟩ := exists_run hcallable
      by_cases hfresh : sc.Fresh op
      · refine ⟨{ id := op.id, query := op.args, answer := none }, ?_, rfl, Nat.le_refl _⟩
        rw [stepEffects_eq hsc hsc']
        have hcarried := mem_carriedOut.mpr ⟨⟨hmut, hfresh⟩, rfl⟩
        exact List.mem_append_right _ (List.mem_append_left _ hcarried)
      · -- the table knows a mutation of the client that is no older
        simp only [ShardCtrler.Fresh, not_forall, not_lt] at hfresh
        obtain ⟨seq, hseq, hle⟩ := hfresh
        have hreplays := replays_of_run (Nat.le_refl log.length) (by rwa [List.take_length])
        obtain ⟨p, op', -, hop', hmut', hclient, rfl⟩ :=
          (hreplays.dedup_spec op.clientId).1 seq hseq
        obtain ⟨e, he, heclient, hele⟩ := ih hlog' hcallable' (List.mem_of_getElem? hop') hmut'
        refine ⟨e, List.mem_append_left _ he, ?_, ?_⟩
        · rw [heclient, Op.id, Op.id, hclient]
        · exact (Int.toNat_le_toNat hle).trans hele

/-- No mutation occurs twice among the effects. -/
theorem effects_once (hlog : ∀ op ∈ log, Requested cl op)
    (hcallable : ∀ op ∈ log, op.args.Callable N) :
    MutationsOnce (fun args : Args γ => args.isQuery = true) (effects N log) := by
  induction log using List.reverseRecOn with
  | nil => intro p p' e e' hp; cases hp
  | append_singleton log op ih =>
    have hlog' : ∀ op ∈ log, Requested cl op := fun op hop => hlog op (List.mem_append_left _ hop)
    have hcallable' : ∀ op ∈ log, op.args.Callable N :=
      fun op hop => hcallable op (List.mem_append_left _ hop)
    obtain ⟨sc, hsc, -⟩ := exists_run hcallable'
    obtain ⟨sc', hsc', -⟩ := exists_run hcallable
    rw [effects_snoc, stepEffects_eq hsc hsc', ← List.append_assoc]
    refine MutationsOnce.append_readonly ?_ ?_
    · by_cases hnew : op.args.isQuery = false ∧ sc.Fresh op
      · rw [Op.carriedOut, if_pos hnew]
        refine (ih hlog' hcallable').snoc fun _ e he hid => ?_
        -- an earlier mutation with this identity would make the command stale
        by_contra hmut
        obtain ⟨op', hop', hid', hargs'⟩ := (mem_effects he).1
        obtain ⟨p, hp⟩ := List.mem_iff_getElem?.mp hop'
        have hreplays := replays_of_run (Nat.le_refl log.length) (by rwa [List.take_length])
        obtain ⟨hclient, hseq⟩ := (hlog' op' hop').fields
        obtain ⟨hclient', hseq'⟩ :=
          (hlog op (List.mem_append_right _ (List.mem_singleton_self op))).fields
        have hsame : op'.id = op.id := hid'.symm.trans hid
        have hlt := (hreplays.fresh_iff op).mp hnew.2 p op' (List.getElem?_eq_some_iff.mp hp).1 hp
          (hargs' ▸ Bool.eq_false_iff.mpr hmut) (by rw [hclient, hclient', hsame])
        rw [hseq, hseq', hsame] at hlt
        exact lt_irrefl _ hlt
      · rw [Op.carriedOut, if_neg hnew, List.append_nil]
        exact ih hlog' hcallable'
    · intro e he
      obtain ⟨op', -, he⟩ := List.mem_flatMap.mp he
      obtain ⟨num, hargs, rfl⟩ := mem_observed.mp he
      dsimp only
      rw [hargs]
      rfl

/-- A `Query` in the part of the log that a replica has applied may be answered from
    the replica's state. -/
theorem observed_mem_effects (hcallable : ∀ op ∈ log, op.args.Callable N) {k : Nat} {op : Op γ}
    (hop : op ∈ log.take k) {sc : ShardCtrler N γ} (hsc : machine.run (log.take k) = .ok sc) :
    ∀ e ∈ op.observed sc, e ∈ effects N log := by
  intro e he
  have hprefix := effects_isPrefix (N := N) (log.take k) (log.drop k)
  rw [List.take_append_drop] at hprefix
  refine hprefix.subset ?_
  have hcallable' : ∀ op ∈ log.take k, op.args.Callable N :=
    fun op hop => hcallable op (List.mem_of_mem_take hop)
  generalize log.take k = done at hop hsc hcallable'
  rcases List.eq_nil_or_concat done with rfl | ⟨done, last, rfl⟩
  · cases hop
  · rw [List.concat_eq_append] at hop hsc hcallable' ⊢
    obtain ⟨sc₀, hsc₀, -⟩ := exists_run fun op hop => hcallable' op (List.mem_append_left _ hop)
    rw [effects_snoc, stepEffects_eq hsc₀ hsc]
    refine List.mem_append_right _ (List.mem_append_right _ ?_)
    exact List.mem_flatMap.mpr ⟨op, hop, he⟩

end Log

/-! ### The invariant of a run -/

/-- A reply with which a clerk returns: a mutation is logged, and a `Query` has been
    answered from a state that it may be answered from. -/
def ReplyOk (N : Nat) (log : List (Op γ)) (op : Op γ) (reply : Reply N γ) : Prop :=
  op ∈ log ∧ (op.args.isQuery = false → reply.config = none) ∧
    (op.args.isQuery = true → ∃ e ∈ effects N log, e.id = op.id ∧ e.answer = reply.config)

theorem ReplyOk.grow {log : List (Op γ)} {op : Op γ} {reply : Reply N γ}
    (h : ReplyOk N log op reply) (more : List (Op γ)) : ReplyOk N (log ++ more) op reply := by
  refine ⟨List.mem_append_left _ h.1, h.2.1, fun hq => ?_⟩
  obtain ⟨e, he, hrest⟩ := h.2.2 hq
  exact ⟨e, (effects_isPrefix log more).subset he, hrest⟩

structure CtrlInv {ν : Type} (s : CtrlService ν N γ) : Prop where
  callable : ∀ i args, s.clients.Asked i args → args.Callable N
  sound : s.servers.service.Sound machine (Requested s.clients)
  current : s.servers.Current machine
  explained : Explained s.clients (effects N s.servers.service.log)
  replies : ∀ x ∈ s.replies, Requested s.clients x.1 ∧
    (x.2.wrongLeader = false → ReplyOk N s.servers.service.log x.1 x.2)

namespace CtrlInv

variable {ν : Type} {s s' : CtrlService ν N γ}

theorem log_callable (h : CtrlInv s) : ∀ op ∈ s.servers.service.log, op.args.Callable N :=
  fun op hop => h.callable _ _ (h.sound.logged op hop).1

/-- What a handler sends. -/
theorem handled (h : CtrlInv s) {k : Nat} {op : Op γ} {out : Outcome (Op γ)}
    {sc : ShardCtrler N γ} (hlook : s.servers.look k = some (op, out, .ok sc)) :
    (handle op (submit op out) sc).wrongLeader = false →
      ReplyOk N s.servers.service.log op (handle op (submit op out) sc) := by
  intro haccept
  have hsubmit : submit op out = true := by
    by_contra hnot
    rw [Bool.not_eq_true] at hnot
    simp [handle, hnot] at haccept
  cases out with
  | notLeader => cases hsubmit
  | timeout => cases hsubmit
  | result applied =>
    obtain ⟨hclient, hseq⟩ := of_decide_eq_true hsubmit
    obtain ⟨i, op', hop, ⟨p, hp, hresult⟩, hstate, -⟩ := h.current.look h.sound hlook
    obtain rfl : applied = op' := hresult
    -- the command that was applied is the handler's own
    have hmem := List.mem_of_getElem? hp
    have hid : applied.id = op.id := Prod.ext (congrArg Int.toNat hclient) (congrArg Int.toNat hseq)
    obtain rfl : applied = op := (h.sound.logged _ (List.mem_of_mem_take hmem)).eq_of_id
      h.explained hop hid
    refine ⟨List.mem_of_mem_take hmem, fun hmut => ?_, fun hq => ?_⟩
    · rw [handle, if_pos hsubmit]
      dsimp only
      cases hargs : applied.args with
      | query num =>
        rw [hargs] at hmut
        cases hmut
      | join servers => rfl
      | leave gids => rfl
      | move shard gid => rfl
    · have hobserved := observed_mem_effects h.log_callable hmem hstate.symm
      rw [handle, if_pos hsubmit]
      cases hargs : applied.args with
      | query num =>
        refine ⟨{ id := applied.id, query := applied.args, answer := some (sc.configAt num) },
          hobserved _ (mem_observed.mpr ⟨num, hargs, rfl⟩), rfl, ?_⟩
        simp
      | join servers =>
        rw [hargs] at hq
        cases hq
      | leave gids =>
        rw [hargs] at hq
        cases hq
      | move shard gid =>
        rw [hargs] at hq
        cases hq

/-- When a clerk takes a reply, its call has had an effect with this answer. -/
theorem answered (h : CtrlInv s) {op : Op γ} {reply : Reply N γ} (hop : Requested s.clients op)
    (hreply : ReplyOk N s.servers.service.log op reply)
    (hseq : (s.clients.sessions op.id.1).seq = op.id.2) :
    ∃ e ∈ effects N s.servers.service.log, e.id = op.id ∧ e.answer = reply.config := by
  obtain ⟨hmem, hmutation, hquery⟩ := hreply
  cases hq : op.args.isQuery with
  | true => exact hquery hq
  | false =>
    obtain ⟨e, he, hclient, hle⟩ := exists_carriedOut h.sound.logged h.log_callable hmem hq
    -- the client has made no later call
    have hid : e.id = op.id := h.explained.id_eq he hclient hle hseq
    have hargs : e.query = op.args :=
      h.explained.same_query _ _ _ (hid ▸ h.explained.asked e he) hop.1
    refine ⟨e, he, hid, ?_⟩
    rw [hmutation hq]
    exact (mem_effects he).2 (hargs ▸ hq)

/-- The clients change, and every call that was made still was. -/
theorem set_clients (h : CtrlInv s) {clients : Clients (Args γ) (Option (Config N γ))}
    (hasked : ∀ i args, s.clients.Asked i args → clients.Asked i args)
    (hcallable : ∀ i args, clients.Asked i args → args.Callable N)
    (hexplained : Explained clients (effects N s.servers.service.log)) :
    CtrlInv { s with clients := clients } where
  callable := hcallable
  sound := h.sound.mono fun _ hop => ⟨hasked _ _ hop.1, hop.2⟩
  current := h.current
  explained := hexplained
  replies x hx := ⟨⟨hasked _ _ (h.replies x hx).1.1, (h.replies x hx).1.2⟩, (h.replies x hx).2⟩

theorem invoke (h : CtrlInv s) {c : Nat} {args : Args γ} (hcallable : args.Callable N)
    {clients : Clients (Args γ) (Option (Config N γ))}
    (hinvoke : s.clients.invoke (effects N s.servers.service.log).length c args = some clients) :
    CtrlInv { s with clients := clients } := by
  refine h.set_clients (fun i args hasked => hasked.invoke hinvoke) ?_ (h.explained.invoke hinvoke)
  intro i args' hasked
  rcases (Clients.asked_invoke hinvoke i args').mp hasked with hasked | ⟨-, rfl⟩
  · exact h.callable i args' hasked
  · exact hcallable

/-- The log grows by a command that was accepted. -/
theorem commit (h : CtrlInv s) {x : Nat × Op γ} (hx : x ∈ s.servers.service.started) :
    CtrlInv { s with servers := { s.servers with
      service := { s.servers.service with log := s.servers.service.log ++ [x.2] } } } := by
  have hsound := h.sound.grow hx
  refine
    { callable := h.callable
      sound := hsound
      current := h.current.grow h.sound x.2
      explained := ?_
      replies := fun y hy => ⟨(h.replies y hy).1, fun ha => ((h.replies y hy).2 ha).grow _⟩ }
  dsimp only
  rw [effects_snoc]
  refine h.explained.grow fun e he => ?_
  have hmem : e ∈ effects N (s.servers.service.log ++ [x.2]) := by
    rw [effects_snoc]
    exact List.mem_append_right _ he
  obtain ⟨op, hop, hid, hargs⟩ := (mem_effects hmem).1
  rw [hid, hargs]
  exact (hsound.logged op hop).1

/-- A handler sends its reply. -/
theorem answer (h : CtrlInv s) {k : Nat} {op : Op γ} {out : Outcome (Op γ)} {sc : ShardCtrler N γ}
    (hlook : s.servers.look k = some (op, out, .ok sc)) :
    CtrlInv { s with
      servers := s.servers.answered k
      replies := s.replies ++ [(op, handle op (submit op out) sc)] } := by
  have hop : Requested s.clients op := by
    simp only [Reading.look, Option.bind_eq_bind, Option.bind_eq_some_iff] at hlook
    obtain ⟨hd, hget, hlook⟩ := hlook
    split at hlook
    · simp only [Option.ite_none_right_eq_some, Option.some.injEq, Prod.mk.injEq] at hlook
      exact hlook.2.1 ▸ (h.sound.handlers hd (List.mem_of_getElem? hget)).op
    · cases hlook
  refine { h with current := h.current.answered k, replies := fun x hx => ?_ }
  rcases List.mem_append.mp hx with hx | hx
  · exact h.replies x hx
  · cases List.mem_singleton.mp hx
    exact ⟨hop, h.handled hlook⟩

/-- A clerk takes a reply. -/
theorem respond (h : CtrlInv s) {op : Op γ} {reply : Reply N γ} (hmem : (op, reply) ∈ s.replies)
    (haccept : reply.wrongLeader = false) {clients : Clients (Args γ) (Option (Config N γ))}
    (hrespond : s.clients.respond (effects N s.servers.service.log).length
      op.clientId.toNat op.seq.toNat reply.config = some clients) :
    CtrlInv { s with clients := clients } := by
  obtain ⟨hop, hreply⟩ := h.replies _ hmem
  have hseq := (Clients.respond_eq_some hrespond).2.1
  have heffect := h.answered hop (hreply haccept) hseq
  refine h.set_clients (fun i args hasked => hasked.respond hrespond) ?_
    (h.explained.respond hrespond heffect)
  intro i args hasked
  exact h.callable i args ((Clients.asked_respond hrespond i args).mp hasked)

variable [DecidableEq ν]

theorem initial (ν : Type) [DecidableEq ν] : CtrlInv (ctrlService ν N γ).init where
  callable i args h := by
    obtain ⟨t, ht⟩ := h
    cases ht
  sound := .start machine _
  current := .start machine
  explained := .start
  replies x hx := by cases hx

/-- A server makes a move, which leaves the log alone. -/
theorem move (h : CtrlInv s) {m : Move ν}
    {servers : Reading ν (Except Fault (ShardCtrler N γ)) (Op γ) (Op γ)}
    (hmove : s.servers.move machine m = some servers) :
    CtrlInv { s with servers := servers } := by
  obtain ⟨hlog, hsound⟩ := h.sound.move (Reading.move_eq_some hmove).1
  refine
    { callable := h.callable
      sound := hsound
      current := h.current.move h.sound hmove
      explained := ?_
      replies := ?_ }
  · dsimp only
    rw [hlog]
    exact h.explained
  · dsimp only
    rw [hlog]
    exact h.replies

theorem step (h : CtrlInv s) {act : CtrlAction ν γ} (hvalid : validCalls s act)
    (hstep : s.step act = some s') : CtrlInv s' := by
  cases act with
  | invoke c args =>
    simp only [CtrlService.step, Option.bind_eq_bind, Option.bind_eq_some_iff,
      Option.some.injEq] at hstep
    obtain ⟨clients, hinvoke, rfl⟩ := hstep
    exact h.invoke hvalid hinvoke
  | enter i k =>
    simp only [CtrlService.step] at hstep
    split at hstep
    · next t c seq args hget =>
      cases hstep
      have hop := Requested.of_mem (List.mem_of_getElem? hget)
      exact { h with sound := h.sound.enter hop i, current := h.current.enter i _ }
    · cases hstep
  | commit k =>
    simp only [CtrlService.step, Option.bind_eq_bind, Option.bind_eq_some_iff,
      Option.some.injEq] at hstep
    obtain ⟨service, hcommit, rfl⟩ := hstep
    obtain ⟨x, hx, rfl⟩ := Service.commit_eq_some hcommit
    exact h.commit hx
  | move m =>
    simp only [CtrlService.step] at hstep
    split at hstep
    · cases hstep
    · simp only [Option.bind_eq_bind, Option.bind_eq_some_iff, Option.some.injEq] at hstep
      obtain ⟨servers, hmove, rfl⟩ := hstep
      exact h.move hmove
  | answer k =>
    simp only [CtrlService.step, Option.bind_eq_bind, Option.bind_eq_some_iff] at hstep
    obtain ⟨⟨op, out, state⟩, hlook, hstep⟩ := hstep
    dsimp only at hstep
    split at hstep
    · cases hstep
    · cases hstep
      exact h.answer hlook
  | reply k =>
    simp only [CtrlService.step, Option.bind_eq_bind, Option.bind_eq_some_iff] at hstep
    obtain ⟨⟨op, reply⟩, hget, hstep⟩ := hstep
    dsimp only at hstep
    split at hstep
    · cases hstep
    · next haccept =>
      simp only [Option.bind_eq_some_iff, Option.some.injEq] at hstep
      obtain ⟨clients, hrespond, rfl⟩ := hstep
      exact h.respond (List.mem_of_getElem? hget) (Bool.eq_false_iff.mpr haccept) hrespond

theorem of_reachable (h : (ctrlService ν N γ).Reachable validCalls s) : CtrlInv s := by
  refine h.invariant (initial ν) ?_
  intro s act s' _ hinv hvalid hstep
  exact hinv.step hvalid hstep

end CtrlInv

/-! ### Linearizability -/

/-- In every run in which no clerk asks for a `Join` of group 0 or a `Move` of a shard that
    does not exist, the calls of the clerks are linearizable for the list of
    configurations, although a `Query` reads after its command was applied.  No replica
    panics or hangs, and each is what the log makes of it. -/
theorem shardctrler_linearizable {ν : Type} [DecidableEq ν] (s : CtrlService ν N γ)
    (h : (ctrlService ν N γ).Reachable validCalls s) :
    WellFormed s.clients.calls ∧
    Linearizable (Configs.object N γ) s.clients.calls ∧
    ∀ i, ∃ sc, (s.servers.service.servers i).state = .ok sc ∧
      Replays s.servers.service.log (s.servers.service.position i) sc := by
  have hinv := CtrlInv.of_reachable h
  refine ⟨hinv.explained.wellFormed, ?_, fun i => ?_⟩
  · obtain ⟨sc, hsc, -⟩ := exists_run hinv.log_callable
    refine hinv.explained.linearizable (fun args => args.isQuery = true)
      (legal_effects hinv.log_callable hsc).1 (effects_once hinv.sound.logged hinv.log_callable) ?_
    intro args hq st
    dsimp only [Configs.object]
    rw [Configs.next, if_pos hq]
  · have hat := hinv.sound.servers i
    obtain ⟨sc, hsc, -⟩ := exists_run (N := N) fun op hop =>
      hinv.log_callable op (List.mem_of_mem_take (i := s.servers.service.position i) hop)
    exact ⟨sc, hat.state.trans hsc, replays_of_run hat.le_length hsc⟩

/-- A `Query` returns configuration number `num`. -/
def answersNum (num : Nat) : Event (Nat × Nat) (Args γ) (Option (Config N γ)) → Bool
  | .respond _ (some cfg) => cfg.num = num
  | .respond _ none => false
  | .invoke _ _ => false

/-- Two clerks talk to server `i`: a `Query` for the latest configuration is logged
    before a `Join`, and is answered with what the `Join` made. -/
def queryAfterJoin (i : Fin 2) : List (CtrlAction (Fin 2) Int) :=
  [.invoke 0 (.query (-1)), .enter i 0, .move (.start 0 1), .move (.register 0),
    .invoke 1 (.join (Finmap.singleton 3 [[]])), .enter i 1, .move (.start 1 2),
    .move (.register 1), .commit 0, .commit 1, .move (.apply i false), .move (.receive 0),
    .move (.finish 0), .move (.apply i false), .answer 0, .reply 0, .move (.receive 1),
    .move (.finish 1), .answer 1, .reply 1]

theorem shardctrler_linearizable_queryAfterJoin : ∃ s : CtrlService (Fin 2) 2 Int,
    (ctrlService (Fin 2) 2 Int).Reachable validCalls s ∧ s.clients.calls.length = 4 ∧
      (s.servers.service.log.map fun op => op.args.isQuery) = [true, false] ∧
      s.clients.calls.any (answersNum 1) = true ∧
      Linearizable (Configs.object 2 Int) s.clients.calls := by
  obtain ⟨s, hs, hcheck⟩ := (ctrlService (Fin 2) 2 Int).exists_reachable_of_run validCalls
    (queryAfterJoin 0) (fun s => decide (s.clients.calls.length = 4 ∧
      (s.servers.service.log.map fun op => op.args.isQuery) = [true, false] ∧
      s.clients.calls.any (answersNum 1) = true)) (by decide +kernel)
  obtain ⟨hcalls, hlog, hread⟩ := of_decide_eq_true hcheck
  exact ⟨s, hs, hcalls, hlog, hread, (shardctrler_linearizable s hs).2.1⟩

end RaftLabs.Ctrl
