import RaftLabs.KVService

/-!
# The key/value service is linearizable

The commands of the agreed log take effect in the order of the log, duplicates
excepted.  A mutation that has taken effect stands in `dedup` from then on, and
whatever stands in `dedup` has taken effect; so the effects of a log are a legal
trace in which no mutation occurs twice.  A reply that a clerk accepts carries
the identity of its call, hence comes from an occurrence of its command in the
log.
-/

namespace RaftLabs.KV

open Linearizability ReplicatedService

/-! ### One command -/

namespace Store

variable {st : Store} {op : Op}

theorem duplicate_eq_some {last : LastReply} :
    st.duplicate op = some last ↔
      st.dedup op.clientId = some last ∧ op.seq ≤ last.seq ∧ op.type ≠ .get := by
  simp [duplicate, Option.filter_eq_some_iff]

theorem applyOp_duplicate {last : LastReply} (h : st.duplicate op = some last) :
    st.applyOp op =
      (st, { err := last.err, value := last.value, clientId := op.clientId, seq := op.seq }) := by
  simp only [applyOp, h]

theorem applyOp_fresh (h : st.duplicate op = none) : st.applyOp op = st.execute op := by
  simp only [applyOp, h]

theorem view_execute : (st.execute op).1.view = MapSpec.next st.view op.query := by
  cases htype : op.type with
  | get =>
    have hst : (st.execute op).1 = st := by
      simp only [execute, htype]
      split <;> rfl
    rw [hst, Op.query, htype]
    rfl
  | put =>
    funext key
    simp only [execute, htype, view, Op.query, MapSpec.next, Function.update_apply]
    split <;> rfl
  | append =>
    funext key
    simp only [execute, htype, view, Op.query, MapSpec.next, Function.update_apply]
    split <;> rfl

theorem dedup_execute : (st.execute op).1.dedup =
    if op.type = .get then st.dedup
    else Function.update st.dedup op.clientId
      (some { seq := op.seq, value := [], err := .ok }) := by
  cases htype : op.type with
  | get =>
    simp only [execute, htype]
    split <;> rfl
  | put => simp [execute, htype]
  | append => simp [execute, htype]

/-- The result carries the identity of the command, and the value that a `Get`
    reads. -/
theorem applyOp_result (st : Store) (op : Op) : (st.applyOp op).2.clientId = op.clientId ∧
    (st.applyOp op).2.seq = op.seq ∧
    (op.type = .get → (st.applyOp op).2.value = st.view op.key) := by
  cases hdup : st.duplicate op with
  | some last =>
    rw [applyOp_duplicate hdup]
    exact ⟨rfl, rfl, fun hget => absurd hget (duplicate_eq_some.mp hdup).2.2⟩
  | none =>
    rw [applyOp_fresh hdup]
    cases htype : op.type with
    | get =>
      simp only [execute, htype]
      split
      · next v hv => simp [view, hv]
      · next hv => simp [view, hv]
    | put => simp [execute, htype]
    | append => simp [execute, htype]

theorem effects_fresh (h : st.duplicate op = none) : st.effects op = [st.effect op] := by
  simp only [effects, h]

theorem mem_effects {e : Effect (Nat × Nat) Query (Option Str)} :
    e ∈ st.effects op ↔ st.duplicate op = none ∧ e = st.effect op := by
  unfold effects
  cases st.duplicate op <;> simp

/-- The effects of a command are what it does to the map. -/
theorem legal_effects (st : Store) (op : Op) : Legal MapSpec.object st.view (st.effects op) ∧
    after MapSpec.object st.view (st.effects op) = (st.applyOp op).1.view := by
  cases hdup : st.duplicate op with
  | some last =>
    rw [applyOp_duplicate hdup]
    simp [effects, hdup, Legal, after]
  | none =>
    rw [effects_fresh hdup, applyOp_fresh hdup, view_execute]
    exact ⟨⟨rfl, trivial⟩, rfl⟩

end Store

/-! ### The effects of a log -/

theorem run_snoc (log : List Op) (op : Op) :
    machine.run (log ++ [op]) = ((machine.run log).applyOp op).1 :=
  machine.run_snoc log op

theorem effects_snoc (log : List Op) (op : Op) :
    effects (log ++ [op]) = effects log ++ (machine.run log).effects op :=
  machine.collect_snoc _ log op

theorem mem_effects {log : List Op} {e : Effect (Nat × Nat) Query (Option Str)} :
    e ∈ effects log ↔ ∃ (p : Nat) (op : Op), log[p]? = some op ∧
      e ∈ (machine.run (log.take p)).effects op :=
  machine.mem_collect

theorem legal_effects (log : List Op) : Legal MapSpec.object MapSpec.object.init (effects log) ∧
    after MapSpec.object MapSpec.object.init (effects log) = (machine.run log).view := by
  induction log using List.reverseRecOn with
  | nil => exact ⟨trivial, rfl⟩
  | append_singleton log op ih =>
    obtain ⟨hlegal, hafter⟩ := ih
    obtain ⟨hlegal', hafter'⟩ := Store.legal_effects (machine.run log) op
    rw [effects_snoc, legal_append, after_append, hafter, run_snoc]
    exact ⟨⟨hlegal, hlegal'⟩, hafter'⟩

/-- A mutation that has taken effect is in the table. -/
theorem dedup_complete (log : List Op) : ∀ e ∈ effects log, e.query.isGet = false →
    ∃ last, (machine.run log).dedup e.id.1 = some last ∧ e.id.2 ≤ last.seq := by
  induction log using List.reverseRecOn with
  | nil => simp [effects, Machine.collect]
  | append_singleton log op ih =>
    intro e he hmut
    rw [run_snoc]
    rw [effects_snoc, List.mem_append] at he
    cases hdup : (machine.run log).duplicate op with
    | some last =>
      rw [Store.applyOp_duplicate hdup]
      rcases he with he | he
      · exact ih e he hmut
      · exact absurd (Store.mem_effects.mp he).1 (by simp [hdup])
    | none =>
      rw [Store.applyOp_fresh hdup, Store.dedup_execute]
      rcases he with he | he
      · obtain ⟨last, hlast, hle⟩ := ih e he hmut
        split
        · exact ⟨last, hlast, hle⟩
        · next hput =>
          by_cases hc : e.id.1 = op.clientId
          · -- the table moves on, since the command was no duplicate
            rw [hc, Function.update_self]
            refine ⟨_, rfl, Nat.le_trans hle ?_⟩
            by_contra hlt
            rw [hc] at hlast
            have := Store.duplicate_eq_some.mpr ⟨hlast, Nat.le_of_not_le hlt, hput⟩
            rw [hdup] at this
            cases this
          · rw [Function.update_of_ne hc]
            exact ⟨last, hlast, hle⟩
      · obtain ⟨-, rfl⟩ := Store.mem_effects.mp he
        have hput : op.type ≠ .get := by
          simpa [Store.effect, Op.isGet_query] using hmut
        rw [if_neg hput]
        exact ⟨_, Function.update_self .., Nat.le_refl _⟩

/-- What stands in the table has taken effect, and was answered `OK`. -/
theorem dedup_sound (log : List Op) : ∀ c last, (machine.run log).dedup c = some last →
    last.err = .ok ∧ ∃ e ∈ effects log, e.id = (c, last.seq) ∧ e.query.isGet = false := by
  induction log using List.reverseRecOn with
  | nil =>
    intro c last h
    cases h
  | append_singleton log op ih =>
    intro c last hlast
    rw [run_snoc] at hlast
    have hold : (machine.run log).dedup c = some last → last.err = .ok ∧
        ∃ e ∈ effects (log ++ [op]), e.id = (c, last.seq) ∧ e.query.isGet = false := by
      intro h
      obtain ⟨hok, e, he, hrest⟩ := ih c last h
      refine ⟨hok, e, ?_, hrest⟩
      rw [effects_snoc]
      exact List.mem_append_left _ he
    cases hdup : (machine.run log).duplicate op with
    | some dup =>
      rw [Store.applyOp_duplicate hdup] at hlast
      exact hold hlast
    | none =>
      rw [Store.applyOp_fresh hdup, Store.dedup_execute] at hlast
      split at hlast
      · exact hold hlast
      · next hput =>
        by_cases hc : c = op.clientId
        · subst hc
          rw [Function.update_self] at hlast
          cases hlast
          refine ⟨rfl, (machine.run log).effect op, ?_, rfl, ?_⟩
          · rw [effects_snoc, Store.effects_fresh hdup]
            exact List.mem_append_right _ (List.mem_singleton.mpr rfl)
          · simp [Store.effect, Op.isGet_query, hput]
        · rw [Function.update_of_ne hc] at hlast
          exact hold hlast

/-- The command at position `p` is a mutation that takes effect. -/
def TakesEffect (log : List Op) (p : Nat) (op : Op) : Prop :=
  log[p]? = some op ∧ op.type ≠ .get ∧ (machine.run (log.take p)).duplicate op = none

theorem TakesEffect.lt_once {log : List Op} {p p' : Nat} {op op' : Op}
    (h : TakesEffect log p op) (h' : TakesEffect log p' op') (hid : op.id = op'.id) :
    ¬ p < p' := by
  intro hlt
  obtain ⟨hp, hput, hfresh⟩ := h
  obtain ⟨-, hput', hfresh'⟩ := h'
  have he : (machine.run (log.take p)).effect op ∈ effects (log.take p') := by
    refine mem_effects.mpr ⟨p, op, ?_, Store.mem_effects.mpr ⟨?_, ?_⟩⟩
    · rw [List.getElem?_take_of_lt hlt]
      exact hp
    · rw [List.take_take, Nat.min_eq_left (Nat.le_of_lt hlt)]
      exact hfresh
    · rw [List.take_take, Nat.min_eq_left (Nat.le_of_lt hlt)]
  obtain ⟨last, hlast, hle⟩ := dedup_complete _ _ he (by simp [Store.effect, Op.isGet_query, hput])
  dsimp only [Store.effect] at hlast hle
  rw [hid] at hlast hle
  have := Store.duplicate_eq_some.mpr ⟨hlast, hle, hput'⟩
  rw [hfresh'] at this
  cases this

theorem TakesEffect.once {log : List Op} {p p' : Nat} {op op' : Op}
    (h : TakesEffect log p op) (h' : TakesEffect log p' op') (hid : op.id = op'.id) : p = p' :=
  Nat.le_antisymm (Nat.le_of_not_lt (h'.lt_once h hid.symm)) (Nat.le_of_not_lt (h.lt_once h' hid))

/-- No mutation occurs twice among the effects. -/
theorem effects_once (log : List Op) :
    MutationsOnce (fun q : Query => q.isGet = true) (effects log) := by
  induction log using List.reverseRecOn with
  | nil => simp [effects, Machine.collect, MutationsOnce]
  | append_singleton log op ih =>
    rw [effects_snoc]
    cases hdup : (machine.run log).duplicate op with
    | some last => simpa [Store.effects, hdup] using ih
    | none =>
      rw [Store.effects_fresh hdup]
      refine ih.snoc ?_
      intro hmut e he hid
      -- a mutation that is among the earlier effects would be a duplicate
      by_contra hmut'
      obtain ⟨last, hlast, hle⟩ := dedup_complete log e he (Bool.eq_false_iff.mpr hmut')
      rw [hid] at hlast hle
      have hput : op.type ≠ .get := by simpa [Store.effect, Op.isGet_query] using hmut
      have := Store.duplicate_eq_some.mpr ⟨hlast, hle, hput⟩
      rw [hdup] at this
      cases this

/-- Behind every result there is an effect: of the command itself, or of a later
    mutation of the same client. -/
theorem yields_effect {log : List Op} {op : Op} {r : Result} (h : machine.Yields log op r) :
    r.clientId = op.clientId ∧ r.seq = op.seq ∧
      ∃ e ∈ effects log, e.id.1 = op.clientId ∧ op.seq ≤ e.id.2 ∧
        (op.type = .get → e.id = op.id ∧ e.answer = some r.value) := by
  obtain ⟨p, hp, rfl⟩ := h
  obtain ⟨hclient, hseq, hvalue⟩ := Store.applyOp_result (machine.run (log.take p)) op
  refine ⟨hclient, hseq, ?_⟩
  cases hdup : (machine.run (log.take p)).duplicate op with
  | none =>
    have he : (machine.run (log.take p)).effect op ∈ effects log :=
      mem_effects.mpr ⟨p, op, hp, Store.mem_effects.mpr ⟨hdup, rfl⟩⟩
    refine ⟨_, he, rfl, Nat.le_refl _, fun hget => ⟨rfl, ?_⟩⟩
    simp only [Store.effect, Op.query, hget, MapSpec.answer]
    exact congrArg some (hvalue hget).symm
  | some last =>
    obtain ⟨hlast, hle, hput⟩ := Store.duplicate_eq_some.mp hdup
    obtain ⟨-, e, he, hid, -⟩ := dedup_sound _ _ _ hlast
    refine ⟨e, ?_, ?_, ?_, fun hget => absurd hget hput⟩
    · -- the effects of a prefix of the log are effects of the log
      obtain ⟨p', op', hp', he'⟩ := mem_effects.mp he
      have hlt : p' < p := by
        have := (List.getElem?_eq_some_iff.mp hp').1
        rw [List.length_take] at this
        omega
      rw [List.getElem?_take_of_lt hlt] at hp'
      rw [List.take_take, Nat.min_eq_left (Nat.le_of_lt hlt)] at he'
      exact mem_effects.mpr ⟨p', op', hp', he'⟩
    · rw [hid]
    · rw [hid]
      exact hle

/-! ### The invariant of a run -/

/-- A reply that a clerk accepts is the result that the handler received, and
    carries the identity of its command. -/
theorem waitFor_accepts {op : Op} {out : Outcome Result}
    (h : accepts op.type (waitFor op out).err = true) :
    ∃ r, out = .result r ∧ waitFor op out = r ∧ r.clientId = op.clientId ∧ r.seq = op.seq := by
  have hwrong : accepts op.type .wrongLeader = false := by cases op.type <;> rfl
  have htime : accepts op.type .timeout = false := by cases op.type <;> rfl
  cases out with
  | notLeader => exact absurd h (by simp [waitFor, hwrong])
  | timeout => exact absurd h (by simp [waitFor, htime])
  | result r =>
    by_cases hid : r.clientId ≠ op.clientId ∨ r.seq ≠ op.seq
    · exact absurd h (by simp [waitFor, if_pos hid, hwrong])
    · simp only [not_or, not_not] at hid
      exact ⟨r, rfl, by simp [waitFor, hid], hid⟩

structure ServiceInv {ν : Type} (s : KVService ν) : Prop where
  sound : s.service.Sound machine (Requested s.clients)
  explained : Explained s.clients (effects s.service.log)

namespace ServiceInv

variable {ν : Type} {s s' : KVService ν}

/-- An effect of a call that is a mutation answers nothing. -/
theorem mutation_answer (h : ServiceInv s) {e : Effect (Nat × Nat) Query (Option Str)} {op : Op}
    (he : e ∈ effects s.service.log) (hid : e.id = op.id) (hasked : s.clients.Asked op.id op.query)
    (hmut : op.query.isGet = false) : e.answer = none := by
  have hquery : e.query = op.query :=
    h.explained.same_query _ _ _ (hid ▸ h.explained.asked e he) hasked
  obtain ⟨m, hanswer⟩ := (legal_effects s.service.log).1.exists_answer he
  rw [hanswer, hquery]
  exact MapSpec.answer_of_not_isGet hmut m

/-- When the clerk takes a reply, its call has had an effect with this answer. -/
theorem answered (h : ServiceInv s) {hd : Handler ν Op Result} {out : Outcome Result}
    (hmem : hd ∈ s.service.handlers) (hphase : hd.phase = .returned out)
    (haccept : accepts hd.op.type (waitFor hd.op out).err = true)
    (hseq : (s.clients.sessions hd.op.clientId).seq = hd.op.seq) :
    ∃ e ∈ effects s.service.log, e.id = (hd.op.clientId, hd.op.seq) ∧
      e.answer = returns hd.op.type (waitFor hd.op out) := by
  obtain ⟨r, rfl, hr, hclient, hnum⟩ := waitFor_accepts haccept
  have hhd := h.sound.handlers hd hmem
  obtain ⟨op, hyields⟩ := hhd.result r (by rw [hphase]; rfl)
  obtain ⟨hclient', hnum', e, he, heclient, hle, hget⟩ := yields_effect hyields
  -- the result is that of the handler's own command
  have hop : op = hd.op := by
    obtain ⟨p, hp, -⟩ := hyields
    refine (h.sound.logged op (List.mem_of_getElem? hp)).eq_of_id h.explained hhd.op ?_
    exact Prod.ext (hclient'.symm.trans hclient) (hnum'.symm.trans hnum)
  subst hop
  -- the client has made no later call
  have hid : e.id = hd.op.id := h.explained.id_eq he heclient hle hseq
  refine ⟨e, he, hid, ?_⟩
  rw [hr]
  cases htype : hd.op.type with
  | get => exact (hget htype).2
  | put => exact h.mutation_answer he hid hhd.op.1 (by simp [Op.isGet_query, htype])
  | append => exact h.mutation_answer he hid hhd.op.1 (by simp [Op.isGet_query, htype])

theorem initial (ν : Type) [DecidableEq ν] : ServiceInv (kvService ν).init where
  sound := Service.Sound.start machine _
  explained := Explained.start

theorem step [DecidableEq ν] (h : ServiceInv s) {act : ServiceAction ν}
    (hstep : s.step act = some s') : ServiceInv s' := by
  cases act with
  | invoke c q =>
    simp only [KVService.step, Option.bind_eq_bind, Option.bind_eq_some_iff,
      Option.some.injEq] at hstep
    obtain ⟨clients, hinvoke, rfl⟩ := hstep
    exact
      { sound := h.sound.mono fun op hop => ⟨hop.1.invoke hinvoke, hop.2⟩
        explained := h.explained.invoke hinvoke }
  | enter i k =>
    simp only [KVService.step] at hstep
    split at hstep
    · next t c seq q hget =>
      cases hstep
      have hop := Requested.of_mem (List.mem_of_getElem? hget)
      exact { sound := h.sound.enter hop i, explained := h.explained }
    · cases hstep
  | commit k =>
    simp only [KVService.step, Option.bind_eq_bind, Option.bind_eq_some_iff,
      Option.some.injEq] at hstep
    obtain ⟨service, hcommit, rfl⟩ := hstep
    refine { sound := h.sound.commit hcommit, explained := ?_ }
    obtain ⟨x, hx, rfl⟩ := Service.commit_eq_some hcommit
    rw [effects_snoc]
    refine h.explained.grow ?_
    intro e he
    obtain ⟨-, rfl⟩ := Store.mem_effects.mp he
    exact (h.sound.started x hx).1
  | move m =>
    simp only [KVService.step, Option.bind_eq_bind, Option.bind_eq_some_iff,
      Option.some.injEq] at hstep
    obtain ⟨service, hmove, rfl⟩ := hstep
    obtain ⟨hlog, hsound⟩ := h.sound.move hmove
    refine { sound := hsound, explained := ?_ }
    dsimp only
    rw [hlog]
    exact h.explained
  | reply k =>
    simp only [KVService.step, Option.bind_eq_bind, Option.bind_eq_some_iff] at hstep
    obtain ⟨hd, hget, hstep⟩ := hstep
    split at hstep
    · next out hphase =>
      simp only [Option.ite_none_right_eq_some, Option.bind_eq_some_iff,
        Option.some.injEq] at hstep
      obtain ⟨haccept, clients, hrespond, rfl⟩ := hstep
      have hseq := (Clients.respond_eq_some hrespond).2.1
      exact
        { sound := h.sound.mono fun op hop => ⟨hop.1.respond hrespond, hop.2⟩
          explained := h.explained.respond hrespond
            (h.answered (List.mem_of_getElem? hget) hphase haccept hseq) }
    · cases hstep

theorem of_reachable [DecidableEq ν] (h : (kvService ν).Reachable System.anyStep s) :
    ServiceInv s := by
  refine h.invariant (initial ν) ?_
  intro s act s' _ hinv _ hstep
  exact hinv.step hstep

end ServiceInv

/-! ### Linearizability -/

/-- In every run the calls of the clerks are linearizable for the map.  The store
    of every server is the fold of a prefix of one log; in that log a mutation
    takes effect at most once, and one that has returned has taken effect. -/
theorem kvraft_linearizable {ν : Type} [DecidableEq ν] (s : KVService ν)
    (h : (kvService ν).Reachable System.anyStep s) :
    WellFormed s.clients.calls ∧
    Linearizable MapSpec.object s.clients.calls ∧
    (∀ i, (s.service.servers i).state =
      machine.run (s.service.log.take (s.service.position i))) ∧
    (∀ p p' op op', TakesEffect s.service.log p op → TakesEffect s.service.log p' op' →
      op.id = op'.id → p = p') ∧
    (∀ i q r, .invoke i q ∈ s.clients.calls → .respond i r ∈ s.clients.calls →
      q.isGet = false →
      ∃ p op, TakesEffect s.service.log p op ∧ op.id = i ∧ op.query = q) := by
  have hinv := ServiceInv.of_reachable h
  refine ⟨hinv.explained.wellFormed, ?_, fun i => (hinv.sound.servers i).state,
    fun p p' op op' hp hp' => hp.once hp', ?_⟩
  · exact hinv.explained.linearizable (fun q => q.isGet = true) (legal_effects s.service.log).1
      (effects_once s.service.log) (fun q hq m => MapSpec.next_of_isGet hq m)
  · intro i q r hcall hreturn hmut
    obtain ⟨⟨t, _⟩, hcall, rfl⟩ := List.mem_map.mp hcall
    obtain ⟨⟨t', _⟩, hreturn, rfl⟩ := List.mem_map.mp hreturn
    obtain ⟨k, e, -, hk, rfl, -⟩ := hinv.explained.before_respond t' i r hreturn
    have he := List.mem_of_getElem? hk
    have hquery := hinv.explained.same_query _ _ _ (hinv.explained.asked e he) ⟨t, hcall⟩
    obtain ⟨p, op, hp, hop⟩ := mem_effects.mp he
    obtain ⟨hfresh, rfl⟩ := Store.mem_effects.mp hop
    refine ⟨p, op, ⟨hp, ?_, hfresh⟩, rfl, hquery⟩
    rw [← hquery] at hmut
    simpa [Store.effect, Op.isGet_query] using hmut

/-- An `Append` is logged for two servers, the first of which stops waiting; the
    `Get` that follows runs at that server after it was started again. -/
def retryAppend : List (ServiceAction (Fin 2)) :=
  [.invoke 0 (.append [1] [7]), .enter 0 0, .enter 1 0, .move (.start 0 1), .move (.start 1 2),
    .move (.register 0), .move (.expire 0), .move (.finish 0), .commit 0, .commit 1,
    .move (.register 1), .move (.apply 1 true), .move (.apply 1 false), .move (.receive 1),
    .move (.finish 1), .reply 1, .move (.restart 0 1),
    .invoke 0 (.get [1]), .enter 0 2, .move (.start 2 3), .move (.register 2), .commit 2,
    .move (.apply 0 false), .move (.apply 0 false), .move (.receive 2), .move (.finish 2),
    .reply 2]

theorem kvraft_linearizable_retryAppend : ∃ s : KVService (Fin 2),
    (kvService (Fin 2)).Reachable System.anyStep s ∧
      s.clients.calls = [.invoke (0, 1) (.append [1] [7]), .respond (0, 1) none,
        .invoke (0, 2) (.get [1]), .respond (0, 2) (some [7])] ∧
      s.service.log.length = 3 ∧ Linearizable MapSpec.object s.clients.calls := by
  obtain ⟨s, hs, hcheck⟩ := (kvService (Fin 2)).exists_reachable_of_run System.anyStep retryAppend
    (fun s => decide (s.clients.calls = [.invoke (0, 1) (.append [1] [7]), .respond (0, 1) none,
      .invoke (0, 2) (.get [1]), .respond (0, 2) (some [7])] ∧ s.service.log.length = 3))
    (by decide +kernel)
  obtain ⟨hcalls, hlog⟩ := of_decide_eq_true hcheck
  exact ⟨s, hs, hcalls, hlog, (kvraft_linearizable s hs).2.1⟩

end RaftLabs.KV
