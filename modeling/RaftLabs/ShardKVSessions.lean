import RaftLabs.ShardKVData

/-!
# Clerks and tables

What holds of the calls of clerks, the effects of their commands and the tables of
the groups under any history of configurations.  Whatever a table says is backed by
an effect of the client, in the tables of groups and in those on their way.  A reply
that a clerk accepts carries the identity of its call, and has an effect behind it:
that of the command itself or, for a duplicate, the one that the table stands for.
-/

namespace RaftLabs.ShardKV

open Linearizability ReplicatedService

variable {L : Nat → List Op} {effects : Effects} {g k p : Nat} {op op' : Op}
  {st : ShardStore} {cop : ClientOp} {cl : Clients Query (Option Str)}

/-! ### Entries of the logs -/

/-- Position `p` of the log of group `g` holds `op`, and `st` is the state before it. -/
def Entry (L : Nat → List Op) (g p : Nat) (op : Op) (st : ShardStore) : Prop :=
  (L g)[p]? = some op ∧ (machine g).run ((L g).take p) = st

theorem Entry.of_isPrefix {L' : Nat → List Op} (h : Entry L g p op st) (hL : L g <+: L' g) :
    Entry L' g p op st := by
  obtain ⟨hp, hst⟩ := h
  have hlt := (List.getElem?_eq_some_iff.mp hp).1
  obtain ⟨more, hmore⟩ := hL
  unfold Entry
  rw [← hmore, List.getElem?_append_left hlt, (machine g).run_take_append hlt.le]
  exact ⟨hp, hst⟩

theorem Entry.committed (h : Entry L k p op' st) (g : Nat) (op : Op) :
    Entry (Function.update L g (L g ++ [op])) k p op' st :=
  h.of_isPrefix (ShardSystem.isPrefix_committed L g op k)

theorem Entry.last (L : Nat → List Op) (g : Nat) (op : Op) :
    Entry (Function.update L g (L g ++ [op])) g (L g).length op (states L g) := by
  unfold Entry
  rw [Function.update_self, List.getElem?_concat_length, List.take_left]
  exact ⟨rfl, rfl⟩

theorem Entry.of_committed (h : Entry (Function.update L g (L g ++ [op])) k p op' st) :
    Entry L k p op' st ∨ k = g ∧ p = (L g).length ∧ op' = op ∧ st = states L g := by
  obtain ⟨hp, rfl⟩ := h
  by_cases hk : k = g
  · subst hk
    rw [Function.update_self] at hp ⊢
    rcases (machine k).entry_snoc hp with ⟨hp, hrun⟩ | ⟨hlast, hop, hrun⟩
    · exact .inl ⟨hp, hrun.symm⟩
    · exact .inr ⟨rfl, hlast, hop, hrun⟩
  · rw [Function.update_of_ne hk] at hp ⊢
    exact .inl ⟨hp, rfl⟩

/-- The mutation at position `p` of the log of group `g` takes effect. -/
def TakesEffect (L : Nat → List Op) (g p : Nat) (op : ClientOp) : Prop :=
  ∃ st, Entry L g p (.client op) st ∧ op.type ≠ .get ∧
    st.canServe g (key2shard op.key) = true ∧ st.duplicate op = false

/-! ### Results and effects of a command -/

/-- The result of a client command carries its identity. -/
theorem applyClientOp_id (gid : Nat) (st : ShardStore) (op : ClientOp) :
    (st.applyClientOp gid op).2.clientId = op.clientId ∧
      (st.applyClientOp gid op).2.seq = op.seq := by
  simp only [ShardStore.applyClientOp]
  split
  · exact ⟨rfl, rfl⟩
  · split
    · exact ⟨rfl, rfl⟩
    · split
      · exact ⟨rfl, rfl⟩
      · split
        · split <;> exact ⟨rfl, rfl⟩
        · split <;> exact ⟨rfl, rfl⟩

theorem effects_cases (gid : Nat) (st : ShardStore) (op : Op) : st.effects gid op = [] ∨
    ∃ cop, op = .client cop ∧ st.canServe gid (key2shard cop.key) = true ∧
      (cop.type = .get ∨ st.duplicate cop = false) ∧ st.effects gid op = [st.effect cop] := by
  cases op with
  | client cop =>
    simp only [ShardStore.effects]
    split
    · next h => exact .inr ⟨cop, rfl, h.1, h.2, rfl⟩
    · exact .inl rfl
  | config => exact .inl rfl
  | installShard => exact .inl rfl
  | deleteShard => exact .inl rfl
  | empty => exact .inl rfl

/-- Behind a result other than `ErrWrongGroup` there is an effect: of the command
    itself, or of the same or a later mutation of the client. -/
def Answered (effects : Effects) (op : ClientOp) (res : Result) : Prop :=
  res.err ≠ .wrongGroup → ∃ e ∈ effects, e.id.1 = op.clientId ∧ op.seq ≤ e.id.2 ∧
    (op.type = .get → e.id = op.id ∧ e.answer = some res.value)

theorem Answered.append {res : Result} (h : Answered effects cop res) (more : Effects) :
    Answered (effects ++ more) cop res := by
  intro herr
  obtain ⟨e, he, hrest⟩ := h herr
  exact ⟨e, List.mem_append_left _ he, hrest⟩

theorem Backed.answered (h : Backed effects st.dedup) (gid : Nat) (cop : ClientOp) :
    Answered (effects ++ st.effects gid (.client cop)) cop (st.applyClientOp gid cop).2 := by
  have hcase := clientCase gid st cop
  generalize (st.applyClientOp gid cop).1 = st' at hcase
  generalize (st.applyClientOp gid cop).2 = res at hcase ⊢
  generalize st.effects gid (.client cop) = more at hcase ⊢
  intro herr
  cases hcase with
  | refused _ err => exact absurd err herr
  | read sh _ err owns has serving get value =>
    refine ⟨st.effect cop, by simp, rfl, le_rfl, fun _ => ⟨rfl, ?_⟩⟩
    simp only [ShardStore.effect, has, Option.bind_some, KV.Op.query, get, MapSpec.answer, value]
  | duplicate _ err mutates dup =>
    obtain ⟨last, hlast, hle⟩ := duplicate_iff.mp dup
    obtain ⟨e, he, hclient, hseq, -⟩ := h _ _ hlast
    exact ⟨e, List.mem_append_left _ he, hclient, hle.trans hseq, fun get => absurd get mutates⟩
  | wrote sh _ err owns has serving mutates =>
    exact ⟨st.effect cop, by simp, rfl, le_rfl, fun get => absurd get mutates⟩

/-- Where a mutation takes effect after one more command. -/
theorem TakesEffect.of_committed (h : TakesEffect (Function.update L g (L g ++ [op])) k p cop) :
    TakesEffect L k p cop ∨ k = g ∧ p = (L g).length ∧ op = .client cop ∧ cop.type ≠ .get ∧
      (states L g).canServe g (key2shard cop.key) = true ∧
      (states L g).duplicate cop = false := by
  obtain ⟨st, hentry, hrest⟩ := h
  rcases hentry.of_committed with hentry | ⟨rfl, hp, hop, rfl⟩
  · exact .inl ⟨st, hentry, hrest⟩
  · exact .inr ⟨rfl, hp, hop.symm, hrest⟩

/-! ### What is known of commands and packets -/

/-- What is known of a command: it is the request of a call, or its table is backed. -/
def Known (cl : Clients Query (Option Str)) (effects : Effects) : Op → Prop
  | .client op => KV.Requested cl op
  | .installShard _ _ _ dedup => Backed effects dedup
  | _ => True

/-- The identity of an effect decides its query. -/
theorem Known.query_eq (h : Known cl effects (.client cop)) (hcl : Explained cl effects)
    {e : Effect (Nat × Nat) Query (Option Str)} (he : e ∈ effects) (hid : e.id = cop.id) :
    e.query = cop.query :=
  hcl.same_query _ _ _ (hid ▸ hcl.asked e he) h.1

/-- What `submit` returns to a clerk, if it is neither `ErrWrongLeader` nor
    `ErrTimeout`, is the result that arrived, and has the identity of the command. -/
theorem submit_result {out : Outcome Result}
    (hleader : (submit (.client cop) out).err ≠ .wrongLeader)
    (htime : (submit (.client cop) out).err ≠ .timeout) :
    ∃ r, out = .result r ∧ submit (.client cop) out = r ∧ r.clientId = cop.clientId ∧
      r.seq = cop.seq := by
  cases out with
  | notLeader => exact absurd rfl hleader
  | timeout => exact absurd rfl htime
  | result r =>
    by_cases hid : r.clientId ≠ cop.clientId ∨ r.seq ≠ cop.seq
    · exact absurd (by simp only [submit, if_pos hid]) hleader
    · refine ⟨r, rfl, by simp only [submit, if_neg hid], ?_⟩
      simpa only [not_or, not_not] using hid

theorem accepts_of_refusal (type : OpType) : accepts type .wrongLeader = false ∧
    accepts type .timeout = false ∧ accepts type .wrongGroup = false := by
  cases type <;> exact ⟨rfl, rfl, rfl⟩

/-- A table that is on its way is backed. -/
def Conveys (effects : Effects) : Packet → Prop
  | .pullReply _ _ reply => Backed effects reply.dedup
  | _ => True

theorem Known.append (h : Known cl effects op) (more : Effects) :
    Known cl (effects ++ more) op := by
  cases op with
  | client => exact h
  | installShard => exact Backed.append h more
  | config => trivial
  | deleteShard => trivial
  | empty => trivial

theorem Conveys.append {packet : Packet} (h : Conveys effects packet) (more : Effects) :
    Conveys (effects ++ more) packet := by
  cases packet with
  | pullReply => exact Backed.append h more
  | query => trivial
  | pullRequest => trivial
  | deleteRequest => trivial
  | deleteReply => trivial

theorem Known.of_clients {cl' : Clients Query (Option Str)} (h : Known cl effects op)
    (hasked : ∀ i q, cl.Asked i q → cl'.Asked i q) : Known cl' effects op := by
  cases op with
  | client => exact ⟨hasked _ _ h.1, h.2⟩
  | installShard => exact h
  | config => trivial
  | deleteShard => trivial
  | empty => trivial

/-- What one command does to the table. -/
theorem Backed.commit (h : Backed effects st.dedup) (gid : Nat) (hknown : Known cl effects op) :
    Backed (effects ++ st.effects gid op) (apply gid st op).1.dedup := by
  cases op with
  | client cop =>
    have hcase := clientCase gid st cop
    change Backed _ (st.applyClientOp gid cop).1.dedup
    generalize (st.applyClientOp gid cop).1 = st' at hcase ⊢
    generalize st.effects gid (.client cop) = more at hcase ⊢
    cases hcase with
    | refused => exact h.append _
    | read => exact h.append _
    | duplicate => exact h.append _
    | wrote sh res err owns has serving mutates =>
      exact h.record (e := st.effect cop) (by
        simpa [ShardStore.effect, cop.isGet_query] using mutates)
  | installShard configNum shards shardData dedup =>
    simp only [apply, ShardStore.effects, ShardStore.applyInstallShard, List.append_nil]
    split
    · exact h
    · exact h.merge hknown
  | config newConfig =>
    simp only [apply, ShardStore.effects, ShardStore.applyConfig, List.append_nil]
    split
    · exact h
    · split <;> exact h
  | deleteShard configNum shards =>
    simp only [apply, ShardStore.effects, ShardStore.applyDeleteShard, List.append_nil]
    split <;> exact h
  | empty => exact h.append _

/-- If every mutation among the effects takes effect in a log, so it is after one
    more command. -/
theorem origin_committed
    (h : ∀ e ∈ effects, e.query.isGet = false →
      ∃ g p cop, TakesEffect L g p cop ∧ cop.id = e.id ∧ cop.query = e.query)
    (g : Nat) (op : Op) {e : Effect (Nat × Nat) Query (Option Str)}
    (he : e ∈ effects ++ (states L g).effects g op) (hmut : e.query.isGet = false) :
    ∃ k p cop, TakesEffect (Function.update L g (L g ++ [op])) k p cop ∧ cop.id = e.id ∧
      cop.query = e.query := by
  rcases List.mem_append.mp he with he | he
  · obtain ⟨k, p, cop, ⟨st, hentry, htakes⟩, hrest⟩ := h e he hmut
    exact ⟨k, p, cop, ⟨st, hentry.committed g op, htakes⟩, hrest⟩
  · rcases effects_cases g (states L g) op with hnone | ⟨cop, rfl, hcan, hfresh, hone⟩
    · rw [hnone] at he
      cases he
    · rw [hone] at he
      cases List.mem_singleton.mp he
      have mutates : cop.type ≠ .get := by simpa [ShardStore.effect, cop.isGet_query] using hmut
      exact ⟨g, (L g).length, cop, ⟨states L g, Entry.last L g _, mutates, hcan,
        hfresh.resolve_left mutates⟩, rfl, rfl⟩

/-! ### The invariant -/

structure SessionInv {ν : Type} (c : ShardSystem ν) : Prop where
  backed : ∀ g, Backed c.effects (states c.logs g).dedup
  answered : ∀ g p cop st, Entry c.logs g p (.client cop) st →
    Answered c.effects cop (st.applyClientOp g cop).2
  origin : ∀ e ∈ c.effects, e.query.isGet = false →
    ∃ g p cop, TakesEffect c.logs g p cop ∧ cop.id = e.id ∧ cop.query = e.query
  silent : ∀ e ∈ c.effects, e.query.isGet = false → e.answer = none
  explained : Explained c.clients c.effects
  served : Served c.clients c.effects
  sound : ∀ g, (c.groups g).Sound (machine g) (Known c.clients c.effects)
  packets : ∀ packet ∈ c.packets, Conveys c.effects packet

namespace SessionInv

variable {ν : Type} {ct : History} {makeEnd : MakeEnd ν} {c c' : ShardSystem ν}

/-- The result that a handler has for its own command is that of an entry. -/
theorem own_entry (h : SessionInv c) {hd : Handler ν Op Result} {r : Result}
    (hmem : hd ∈ (c.groups g).handlers) (hop : hd.op = .client cop)
    (hphase : hd.phase = .returned (.result r)) (hclient : r.clientId = cop.clientId)
    (hseq : r.seq = cop.seq) :
    ∃ p st, Entry c.logs g p (.client cop) st ∧ r = (st.applyClientOp g cop).2 := by
  have hhd := (h.sound g).handlers hd hmem
  have hreq : KV.Requested c.clients cop := by
    have := hhd.op
    rwa [hop] at this
  obtain ⟨op, p, hp, hr⟩ := hhd.result r (by rw [hphase]; rfl)
  have hknown := (h.sound g).logged op (List.mem_of_getElem? hp)
  -- only client commands have a number other than 0
  have hnum : r.seq ≠ 0 := by
    rw [hseq]
    exact Nat.ne_of_gt (h.explained.asked_seq _ _ hreq.1).1
  cases op with
  | client cop' =>
    have hr : r = (((machine g).run ((c.logs g).take p)).applyClientOp g cop').2 := hr
    obtain ⟨hclient', hseq'⟩ := applyClientOp_id g ((machine g).run ((c.logs g).take p)) cop'
    rw [← hr] at hclient' hseq'
    have heq : cop' = cop := by
      refine KV.Requested.eq_of_id hknown h.explained hreq ?_
      exact Prod.ext (hclient'.symm.trans hclient) (hseq'.symm.trans hseq)
    subst heq
    exact ⟨p, _, ⟨hp, rfl⟩, hr⟩
  | config => exact absurd (congrArg Result.seq hr) hnum
  | installShard => exact absurd (congrArg Result.seq hr) hnum
  | deleteShard => exact absurd (congrArg Result.seq hr) hnum
  | empty => exact absurd (congrArg Result.seq hr) hnum

/-- When the clerk takes a reply, its call has had an effect with this answer. -/
theorem replied (h : SessionInv c) {hd : Handler ν Op Result} {out : Outcome Result}
    (hmem : hd ∈ (c.groups g).handlers) (hphase : hd.phase = .returned out)
    (hop : hd.op = .client cop) (haccept : accepts cop.type (submit (.client cop) out).err = true)
    (hseq : (c.clients.sessions cop.clientId).seq = cop.seq) :
    ∃ e ∈ c.effects, e.id = (cop.clientId, cop.seq) ∧
      e.answer = returns cop.type (submit (.client cop) out) := by
  obtain ⟨hleader, htime, hgroup⟩ := accepts_of_refusal cop.type
  have hne : ∀ err, accepts cop.type err = false → (submit (.client cop) out).err ≠ err := by
    rintro err hrefused heq
    rw [heq, hrefused] at haccept
    cases haccept
  obtain ⟨r, rfl, hsubmit, hclient, hnum⟩ := submit_result (hne _ hleader) (hne _ htime)
  have hgroup := hne _ hgroup
  rw [hsubmit] at hgroup ⊢
  obtain ⟨p, st, hentry, rfl⟩ := h.own_entry hmem hop hphase hclient hnum
  obtain ⟨e, he, heclient, hle, hget⟩ := h.answered g p cop st hentry hgroup
  have hid : e.id = cop.id := h.explained.id_eq he heclient hle hseq
  refine ⟨e, he, hid, ?_⟩
  -- a mutation answers nothing
  have hmut : cop.query.isGet = false → e.answer = none := by
    intro hmut
    have hknown := (h.sound g).logged _ (List.mem_of_getElem? hentry.1)
    have hquery : e.query = cop.query := hknown.query_eq h.explained he hid
    exact h.silent e he (hquery ▸ hmut)
  cases htype : cop.type with
  | get => exact (hget htype).2
  | put => exact hmut (by simp [cop.isGet_query, htype])
  | append => exact hmut (by simp [cop.isGet_query, htype])

theorem causes_known (h : SessionInv c) (hcause : ShardSystem.Causes ct c g op) :
    Known c.clients c.effects op := by
  cases hcause with
  | client t client seq q mem => exact KV.Requested.of_mem mem
  | config num => trivial
  | install args reply mem => exact h.packets _ mem
  | delete => trivial
  | confirm args mem => trivial
  | empty => trivial

/-- The table that a replica sends was its group's at some time. -/
theorem emits_conveys (h : SessionInv c) {packet : Packet} (hcause : c.Emits g packet) :
    Conveys c.effects packet := by
  cases hcause with
  | pulled i caller name args reply mem eq =>
    have hat := (h.sound g).servers i
    simp only [ShardStore.pullShard, Option.ite_none_left_eq_some, Option.some.injEq] at eq
    obtain ⟨-, rfl⟩ := eq
    have hle := dedup_mono g (c.groups g).log hat.le_length
    rw [List.take_length, ← hat.state] at hle
    exact (h.backed g).of_le hle
  | query => trivial
  | pull => trivial
  | collect => trivial
  | deleted => trivial

/-- A change that leaves logs, effects and clerks alone. -/
theorem setGroup (h : SessionInv c) {service : Service ν ShardStore Op Result}
    (hlog : service.log = c.logs g)
    (hsound : service.Sound (machine g) (Known c.clients c.effects)) :
    SessionInv (c.setGroup g service) where
  backed := by
    rw [ShardSystem.logs_setGroup hlog]
    exact h.backed
  answered := by
    rw [ShardSystem.logs_setGroup hlog]
    exact h.answered
  origin := by
    rw [ShardSystem.logs_setGroup hlog]
    exact h.origin
  silent := h.silent
  explained := h.explained
  served := h.served
  sound := ShardSystem.forall_setGroup hsound h.sound
  packets := h.packets

theorem committed (h : SessionInv c) {index : Nat} (hmem : (index, op) ∈ (c.groups g).started) :
    SessionInv
      { c.setGroup g { c.groups g with log := (c.groups g).log ++ [op] } with
        effects := c.effects ++ (c.group g).effects g op } := by
  have hknown := (h.sound g).started _ hmem
  have hlogs := ShardSystem.logs_committed c g op
  refine { backed := ?_, answered := ?_, origin := ?_, silent := ?_, explained := ?_,
           served := h.served.grow _, sound := ?_, packets := ?_ }
  · change ∀ k, Backed _ (states (c.setGroup g
      { c.groups g with log := c.logs g ++ [op] }).logs k).dedup
    rw [hlogs, DataInv.states_commit]
    intro k
    by_cases hk : k = g
    · subst hk
      rw [Function.update_self]
      exact (h.backed k).commit k hknown
    · rw [Function.update_of_ne hk]
      exact (h.backed k).append _
  · change ∀ k p cop st, Entry (c.setGroup g
      { c.groups g with log := c.logs g ++ [op] }).logs k p (.client cop) st → _
    rw [hlogs]
    intro k p cop st hentry
    rcases hentry.of_committed with hentry | ⟨rfl, -, rfl, rfl⟩
    · exact (h.answered k p cop st hentry).append _
    · exact (h.backed k).answered k cop
  · change ∀ e ∈ c.effects ++ (states c.logs g).effects g op, e.query.isGet = false →
      ∃ k p cop, TakesEffect (c.setGroup g
        { c.groups g with log := c.logs g ++ [op] }).logs k p cop ∧ _
    rw [hlogs]
    exact fun e he hmut => origin_committed h.origin g op he hmut
  · intro e he hmut
    rcases List.mem_append.mp he with he | he
    · exact h.silent e he hmut
    · rcases effects_cases g (c.group g) op with hnone | ⟨cop, rfl, hcan, -, hone⟩
      · rw [hnone] at he
        cases he
      · rw [hone] at he
        cases List.mem_singleton.mp he
        obtain ⟨-, sh, has, -⟩ := canServe_iff.mp hcan
        simp only [ShardStore.effect, has, Option.bind_some]
        exact MapSpec.answer_of_not_isGet hmut _
  · refine h.explained.grow ?_
    intro e he
    rcases effects_cases g (c.group g) op with hnone | ⟨cop, rfl, -, -, hone⟩
    · rw [hnone] at he
      cases he
    · rw [hone] at he
      cases List.mem_singleton.mp he
      exact hknown.1
  · exact ShardSystem.forall_setGroup (((h.sound g).grow hmem).mono fun x hx => hx.append _)
      fun k => (h.sound k).mono fun x hx => hx.append _
  · exact fun packet hpacket => (h.packets packet hpacket).append _

theorem happens [DecidableEq ν] (h : SessionInv c) {act : GroupAction ν}
    (hstep : c.Happens ct g act c') : SessionInv c' := by
  cases hstep with
  | nothing => exact h
  | entered i op cause => exact h.setGroup rfl ((h.sound g).enter (h.causes_known cause) i)
  | proposed index op cause =>
    exact h.setGroup rfl ((h.sound g).propose (h.causes_known cause) index)
  | moved m service eq =>
    obtain ⟨hlog, hsound⟩ := (h.sound g).move eq
    exact h.setGroup hlog hsound
  | committed index op mem => exact h.committed mem
  | posted packet cause =>
    refine { h with packets := List.forall_mem_append.mpr ⟨h.packets, ?_⟩ }
    exact List.forall_mem_singleton.mpr (h.emits_conveys cause)
  | replied hd out op clients mem phase eq accepted respond =>
    have hseq := (Clients.respond_eq_some respond).2.1
    have heffect := h.replied mem phase eq accepted hseq
    exact
      { h with
        explained := h.explained.respond respond heffect
        served := h.served.respond respond (heffect.imp fun _ he => ⟨he.1, he.2.1⟩)
        sound := fun k => (h.sound k).mono fun x hx =>
          hx.of_clients fun i q hasked => hasked.respond respond }

theorem initial (ct : History) (makeEnd : MakeEnd ν) [DecidableEq ν] :
    SessionInv (shardSystem ct makeEnd).init where
  backed g c last hlast := by cases hlast
  answered g p cop st h := by simp [Entry, shardSystem, ShardSystem.logs, Service.start] at h
  origin e he := by cases he
  silent e he := by cases he
  explained := Explained.start
  served := Served.start
  sound g := Service.Sound.start (machine g) _
  packets := by simp [shardSystem]

theorem of_reachable [DecidableEq ν] {ok : ShardSystem ν → ShardAction ν → Prop}
    (h : (shardSystem ct makeEnd).Reachable ok c) : SessionInv c := by
  refine h.invariant (initial ct makeEnd) ?_
  intro c act c' _ hinv _ hstep
  rcases ShardSystem.step_cases hstep with
    ⟨_, _, clients, hinvoke, rfl⟩ | ⟨g, gact, -, hg, hhappens⟩
  · exact
      { hinv with
        explained := hinv.explained.invoke hinvoke
        served := hinv.served.invoke hinvoke
        sound := fun k => (hinv.sound k).mono fun x hx =>
          hx.of_clients fun i q hasked => hasked.invoke hinvoke }
  · exact hinv.happens hhappens

end SessionInv

end RaftLabs.ShardKV
