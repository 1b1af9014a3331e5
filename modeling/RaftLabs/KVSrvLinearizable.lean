import RaftLabs.KVSrv

/-!
# The single key/value server is linearizable

The effects of the requests that the server executed form a legal trace in which
no mutation occurs twice: the table of latest mutations knows of every one that
has taken effect, and what it holds is a number and the answer that was given
under it.  A clerk numbers its mutations in the order of its calls, so a request
that meets a larger number belongs to a call that is over; one that meets its
own number is answered as the first copy was.
-/

namespace RaftLabs.KVSrv

open Linearizability ReplicatedService

/-! ### One request -/

namespace KVServer

variable {kv : KVServer} {r : Request}

theorem duplicate_eq_some {args : PutAppendArgs} {last : LastOp} :
    kv.duplicate args = some last ↔ kv.dedup args.clientId = some last ∧ args.seq ≤ last.seq := by
  simp [duplicate, Option.filter_eq_some_iff]

theorem duplicateOf_eq_some {last : LastOp} :
    kv.duplicateOf r = some last ↔
      r.query.isGet = false ∧ kv.dedup r.call.1 = some last ∧ r.seq ≤ last.seq := by
  unfold duplicateOf
  cases r.query with
  | get key => simp [Query.isGet]
  | put key value => simp [duplicate_eq_some, Request.args, Query.isGet]
  | append key value => simp [duplicate_eq_some, Request.args, Query.isGet]

/-- A duplicate changes nothing and is answered from the table. -/
theorem handle_duplicate {last : LastOp} (h : kv.duplicateOf r = some last) :
    (kv.handle r).1 = kv ∧ returns r.query (kv.handle r).2 = returns r.query last.reply := by
  unfold duplicateOf at h
  unfold handle
  cases hq : r.query with
  | get key => simp [hq] at h
  | put key value =>
    simp only [hq] at h
    simp only [put, h, returns, and_self]
  | append key value =>
    simp only [hq] at h
    simp only [append, h, returns, and_self]

/-- A request that is no duplicate does what the map says, and a mutation is
    recorded with its answer. -/
theorem handle_fresh (h : kv.duplicateOf r = none) :
    (kv.handle r).1.data = MapSpec.next kv.data r.query ∧
      returns r.query (kv.handle r).2 = fetchAppend.answer kv.data r.query ∧
      ∃ reply, returns r.query reply = fetchAppend.answer kv.data r.query ∧
        (kv.handle r).1.dedup =
          if r.query.isGet then kv.dedup
          else Function.update kv.dedup r.call.1 (some { seq := r.seq, reply := reply }) := by
  unfold duplicateOf at h
  unfold handle
  cases hq : r.query with
  | get key => exact ⟨rfl, rfl, kv.data key, rfl, rfl⟩
  | put key value =>
    simp only [hq] at h
    simp only [put, h]
    exact ⟨rfl, rfl, [], rfl, rfl⟩
  | append key value =>
    simp only [hq] at h
    simp only [append, h]
    exact ⟨rfl, rfl, kv.data key, rfl, rfl⟩

theorem effects_fresh (h : kv.duplicateOf r = none) : kv.effects r = [kv.effect r] := by
  simp only [effects, h]

theorem effects_duplicate {last : LastOp} (h : kv.duplicateOf r = some last) :
    kv.effects r = [] := by
  simp only [effects, h]

/-- The effects of a request are what it does to the map. -/
theorem legal_effects (kv : KVServer) (r : Request) :
    Legal fetchAppend kv.data (kv.effects r) ∧
      after fetchAppend kv.data (kv.effects r) = (kv.handle r).1.data := by
  cases hdup : kv.duplicateOf r with
  | some last =>
    rw [effects_duplicate hdup, (handle_duplicate hdup).1]
    exact ⟨trivial, rfl⟩
  | none =>
    rw [effects_fresh hdup, (handle_fresh hdup).1]
    exact ⟨⟨rfl, trivial⟩, rfl⟩

end KVServer

/-! ### All requests that were executed -/

theorem run_snoc (executed : List Request) (r : Request) :
    machine.run (executed ++ [r]) = ((machine.run executed).handle r).1 :=
  machine.run_snoc executed r

theorem effects_snoc (executed : List Request) (r : Request) :
    effects (executed ++ [r]) = effects executed ++ (machine.run executed).effects r :=
  machine.collect_snoc _ executed r

theorem legal_effects (executed : List Request) :
    Legal fetchAppend fetchAppend.init (effects executed) ∧
      after fetchAppend fetchAppend.init (effects executed) = (machine.run executed).data := by
  induction executed using List.reverseRecOn with
  | nil => exact ⟨trivial, rfl⟩
  | append_singleton executed r ih =>
    obtain ⟨hlegal, hafter⟩ := ih
    obtain ⟨hlegal', hafter'⟩ := KVServer.legal_effects (machine.run executed) r
    rw [effects_snoc, legal_append, after_append, hafter, run_snoc]
    exact ⟨⟨hlegal, hlegal'⟩, hafter'⟩

/-- Every effect is that of a request that was executed; if it is a mutation the
    table has its number or a later one. -/
theorem effect_recorded (executed : List Request) : ∀ e ∈ effects executed,
    ∃ r ∈ executed, r.call = e.id ∧ r.query = e.query ∧ (e.query.isGet = false →
      ∃ last, (machine.run executed).dedup r.call.1 = some last ∧ r.seq ≤ last.seq) := by
  induction executed using List.reverseRecOn with
  | nil => simp [effects, Machine.collect]
  | append_singleton executed r ih =>
    intro e he
    rw [effects_snoc, List.mem_append] at he
    rw [run_snoc]
    cases hdup : (machine.run executed).duplicateOf r with
    | some last =>
      rw [KVServer.effects_duplicate hdup] at he
      obtain ⟨r₀, hr₀, hrest⟩ := ih e (he.resolve_right List.not_mem_nil)
      rw [(KVServer.handle_duplicate hdup).1]
      exact ⟨r₀, List.mem_append_left _ hr₀, hrest⟩
    | none =>
      obtain ⟨-, -, reply, -, hdedup⟩ := KVServer.handle_fresh hdup
      rw [KVServer.effects_fresh hdup] at he
      rcases he with he | he
      · obtain ⟨r₀, hr₀, hcall, hquery, hlast⟩ := ih e he
        refine ⟨r₀, List.mem_append_left _ hr₀, hcall, hquery, ?_⟩
        intro hmut
        obtain ⟨last, hlast, hle⟩ := hlast hmut
        rw [hdedup]
        split
        · exact ⟨last, hlast, hle⟩
        · rename_i hput
          by_cases hc : r₀.call.1 = r.call.1
          · -- the table moves on, since the request was no duplicate
            rw [hc, Function.update_self]
            refine ⟨_, rfl, Nat.le_trans hle ?_⟩
            by_contra hlt
            rw [hc] at hlast
            have hcon := KVServer.duplicateOf_eq_some.mpr
              ⟨Bool.eq_false_iff.mpr hput, hlast, Nat.le_of_not_le hlt⟩
            rw [hdup] at hcon
            cases hcon
          · rw [Function.update_of_ne hc]
            exact ⟨last, hlast, hle⟩
      · obtain rfl := List.mem_singleton.mp he
        refine ⟨r, List.mem_append_right _ (List.mem_singleton.mpr rfl), rfl, rfl, ?_⟩
        intro hmut
        have hput : r.query.isGet = false := hmut
        rw [hdedup, hput, if_neg Bool.false_ne_true, Function.update_self]
        exact ⟨_, rfl, Nat.le_refl _⟩

/-- What stands in the table is the number and the answer of a mutation that has
    taken effect. -/
theorem dedup_sound (executed : List Request) : ∀ c last,
    (machine.run executed).dedup c = some last →
    ∃ r ∈ executed, r.call.1 = c ∧ r.seq = last.seq ∧ r.query.isGet = false ∧
      ∃ e ∈ effects executed, e.id = r.call ∧ e.query = r.query ∧
        e.answer = returns r.query last.reply := by
  induction executed using List.reverseRecOn with
  | nil =>
    intro c last h
    cases h
  | append_singleton executed r ih =>
    intro c last hlast
    rw [run_snoc] at hlast
    have hold : (machine.run executed).dedup c = some last →
        ∃ r' ∈ executed ++ [r], r'.call.1 = c ∧ r'.seq = last.seq ∧ r'.query.isGet = false ∧
          ∃ e ∈ effects (executed ++ [r]), e.id = r'.call ∧ e.query = r'.query ∧
            e.answer = returns r'.query last.reply := by
      intro h
      obtain ⟨r', hr', hc, hseq, hmut, e, he, hrest⟩ := ih c last h
      refine ⟨r', List.mem_append_left _ hr', hc, hseq, hmut, e, ?_, hrest⟩
      rw [effects_snoc]
      exact List.mem_append_left _ he
    cases hdup : (machine.run executed).duplicateOf r with
    | some dup =>
      rw [(KVServer.handle_duplicate hdup).1] at hlast
      exact hold hlast
    | none =>
      obtain ⟨-, -, reply, hreply, hdedup⟩ := KVServer.handle_fresh hdup
      rw [hdedup] at hlast
      split at hlast
      · exact hold hlast
      · rename_i hput
        by_cases hc : c = r.call.1
        · subst hc
          rw [Function.update_self] at hlast
          cases hlast
          refine ⟨r, List.mem_append_right _ (List.mem_singleton.mpr rfl), rfl, rfl,
            Bool.eq_false_iff.mpr hput, (machine.run executed).effect r, ?_, rfl, rfl,
            hreply.symm⟩
          rw [effects_snoc, KVServer.effects_fresh hdup]
          exact List.mem_append_right _ (List.mem_singleton.mpr rfl)
        · rw [Function.update_of_ne hc] at hlast
          exact hold hlast

/-- The mutations of one clerk are numbered in the order of its calls. -/
def Ordered (rs : List Request) : Prop :=
  ∀ r ∈ rs, ∀ r' ∈ rs, r.query.isGet = false → r'.query.isGet = false →
    r.call.1 = r'.call.1 → (r.seq < r'.seq ↔ r.call.2 < r'.call.2)

theorem Ordered.seq_eq {rs : List Request} (h : Ordered rs) {r r' : Request} (hr : r ∈ rs)
    (hr' : r' ∈ rs) (hmut : r.query.isGet = false) (hmut' : r'.query.isGet = false)
    (hcall : r.call = r'.call) : r.seq = r'.seq := by
  have hlt := h r hr r' hr' hmut hmut' (by rw [hcall])
  have hgt := h r' hr' r hr hmut' hmut (by rw [hcall])
  rw [hcall] at hlt hgt
  omega

theorem Ordered.call_eq {rs : List Request} (h : Ordered rs) {r r' : Request} (hr : r ∈ rs)
    (hr' : r' ∈ rs) (hmut : r.query.isGet = false) (hmut' : r'.query.isGet = false)
    (hclient : r.call.1 = r'.call.1) (hseq : r.seq = r'.seq) : r.call = r'.call := by
  have hlt := h r hr r' hr' hmut hmut' hclient
  have hgt := h r' hr' r hr hmut' hmut hclient.symm
  exact Prod.ext hclient (by omega)

theorem Ordered.of_subset {rs rs' : List Request} (h : Ordered rs) (hsub : ∀ r ∈ rs', r ∈ rs) :
    Ordered rs' :=
  fun r hr r' hr' => h r (hsub r hr) r' (hsub r' hr')

/-- No mutation occurs twice among the effects. -/
theorem effects_once {executed : List Request} (h : Ordered executed) :
    MutationsOnce (fun q : Query => q.isGet = true) (effects executed) := by
  induction executed using List.reverseRecOn with
  | nil => simp [effects, Machine.collect, MutationsOnce]
  | append_singleton executed r ih =>
    have ih' := ih (h.of_subset fun _ hr => List.mem_append_left _ hr)
    rw [effects_snoc]
    cases hdup : (machine.run executed).duplicateOf r with
    | some last =>
      rw [KVServer.effects_duplicate hdup, List.append_nil]
      exact ih'
    | none =>
      rw [KVServer.effects_fresh hdup]
      refine ih'.snoc ?_
      intro hmut e he hid
      -- a mutation that is among the earlier effects would be a duplicate
      by_contra hmut'
      have hmut : r.query.isGet = false := Bool.eq_false_iff.mpr hmut
      have hmut' : e.query.isGet = false := Bool.eq_false_iff.mpr hmut'
      obtain ⟨r₀, hr₀, hcall, hquery, hlast⟩ := effect_recorded executed e he
      obtain ⟨last, hlast, hle⟩ := hlast hmut'
      have hsame : r₀.call = r.call := hcall.trans hid
      have hseq := h.seq_eq (List.mem_append_left _ hr₀)
        (List.mem_append_right _ (List.mem_singleton.mpr rfl)) (hquery ▸ hmut') hmut hsame
      rw [hsame] at hlast
      have hcon := KVServer.duplicateOf_eq_some.mpr ⟨hmut, hlast, hseq ▸ hle⟩
      rw [hdup] at hcon
      cases hcon

/-- Behind every reply there is an effect of the call with this answer, unless the
    clerk has gone on to a later call. -/
theorem reply_effect {executed : List Request} {r : Request} (h : Ordered (executed ++ [r]))
    (hsame : ∀ r' ∈ executed, r'.call = r.call → r'.query = r.query) :
    (∃ e ∈ effects (executed ++ [r]), e.id = r.call ∧
        e.answer = returns r.query ((machine.run executed).handle r).2) ∨
      ∃ r' ∈ executed, r'.call.1 = r.call.1 ∧ r.call.2 < r'.call.2 := by
  rw [effects_snoc]
  cases hdup : (machine.run executed).duplicateOf r with
  | none =>
    refine .inl ⟨(machine.run executed).effect r, ?_, rfl, (KVServer.handle_fresh hdup).2.1.symm⟩
    rw [KVServer.effects_fresh hdup]
    exact List.mem_append_right _ (List.mem_singleton.mpr rfl)
  | some last =>
    obtain ⟨hmut, hlast, hle⟩ := KVServer.duplicateOf_eq_some.mp hdup
    obtain ⟨r', hr', hclient, hseq, hmut', e, he, hid, hquery, hanswer⟩ :=
      dedup_sound executed _ _ hlast
    have hr'mem : r' ∈ executed ++ [r] := List.mem_append_left _ hr'
    have hrmem : r ∈ executed ++ [r] := List.mem_append_right _ (List.mem_singleton.mpr rfl)
    rcases Nat.eq_or_lt_of_le (hseq ▸ hle) with heq | hlt
    · -- an exact retry: the table still has its answer
      have hcall := h.call_eq hrmem hr'mem hmut hmut' hclient.symm heq
      refine .inl ⟨e, List.mem_append_left _ he, hid.trans hcall.symm, ?_⟩
      rw [hanswer, hsame r' hr' hcall.symm]
      exact (KVServer.handle_duplicate hdup).2.symm
    · exact .inr ⟨r', hr', hclient, (h r hrmem r' hr'mem hmut hmut' hclient.symm).mp hlt⟩

/-! ### The invariant of a run -/

structure SrvInv (s : SrvSystem) : Prop where
  server : s.server = machine.run s.executed
  executed : ∀ r ∈ s.executed, r ∈ s.requests
  requested : ∀ r ∈ s.requests, s.clients.Asked r.call r.query
  numbered : ∀ r ∈ s.requests, r.query.isGet = false → r.seq ≤ s.seqs r.call.1
  ordered : Ordered s.requests
  explained : Explained s.clients (effects s.executed)
  replied : ∀ call value, (call, value) ∈ s.replies →
    call.2 < (s.clients.sessions call.1).seq ∨ ∃ q, s.clients.Asked call q ∧
      ∃ e ∈ effects s.executed, e.id = call ∧ e.answer = returns q value

namespace SrvInv

variable {s s' : SrvSystem}

theorem initial : SrvInv kvsrv.init where
  server := rfl
  executed := by rintro r ⟨⟩
  requested := by rintro r ⟨⟩
  numbered := by rintro r ⟨⟩
  ordered := by rintro r ⟨⟩
  explained := Explained.start
  replied := by rintro call value ⟨⟩

/-- The request of a new call has the largest call number and, if it is a
    mutation, the largest sequence number of its clerk. -/
theorem invoke (h : SrvInv s) {c : Nat} {q : Query} {clients : Clients Query (Option Str)}
    (hinvoke : s.clients.invoke (effects s.executed).length c q = some clients) {seq : Nat}
    (hseq : seq = if q.isGet then s.seqs c else s.seqs c + 1) :
    SrvInv { s with
      clients := clients
      seqs := Function.update s.seqs c seq
      requests := s.requests ++
        [{ call := (c, (clients.sessions c).seq), seq := seq, query := q }] } := by
  obtain ⟨-, hsessions, hhistory⟩ := Clients.invoke_eq_some hinvoke
  have hnew : (clients.sessions c).seq = (s.clients.sessions c).seq + 1 := by
    rw [hsessions, Function.update_self]
  have hcounter : s.seqs c ≤ seq := by
    rw [hseq]
    split
    · exact Nat.le_refl _
    · exact Nat.le_succ _
  constructor
  case server => exact h.server
  case executed => exact fun r hr => List.mem_append_left _ (h.executed r hr)
  case requested =>
    intro r hr
    rcases List.mem_append.mp hr with hr | hr
    · exact (h.requested r hr).invoke hinvoke
    · obtain rfl := List.mem_singleton.mp hr
      refine ⟨(effects s.executed).length, ?_⟩
      dsimp only
      rw [hhistory, hnew]
      exact List.mem_append_right _ (List.mem_singleton.mpr rfl)
  case numbered =>
    intro r hr hmut
    rcases List.mem_append.mp hr with hr | hr
    · have hle := h.numbered r hr hmut
      dsimp only
      rw [Function.update_apply]
      split
      · next hc => exact Nat.le_trans (hc ▸ hle) hcounter
      · exact hle
    · obtain rfl := List.mem_singleton.mp hr
      simp
  case ordered =>
    -- an earlier mutation of the clerk has a smaller call number and a smaller seq
    have hearlier : q.isGet = false → ∀ r ∈ s.requests, r.query.isGet = false → r.call.1 = c →
        r.seq < seq ∧ r.call.2 < (clients.sessions c).seq := by
      intro hq r hr hmut hc
      have hle := h.numbered r hr hmut
      have hasked := (h.explained.asked_seq _ _ (h.requested r hr)).2
      rw [hc] at hle hasked
      rw [hseq, hq, hnew, if_neg Bool.false_ne_true]
      omega
    intro r hr r' hr' hmut hmut' hclient
    rcases List.mem_append.mp hr with hr | hr
    · rcases List.mem_append.mp hr' with hr' | hr'
      · exact h.ordered r hr r' hr' hmut hmut' hclient
      · obtain rfl := List.mem_singleton.mp hr'
        have hlt := hearlier hmut' r hr hmut hclient
        exact ⟨fun _ => hlt.2, fun _ => hlt.1⟩
    · obtain rfl := List.mem_singleton.mp hr
      rcases List.mem_append.mp hr' with hr' | hr'
      · have hlt := hearlier hmut r' hr' hmut' hclient.symm
        dsimp only
        omega
      · obtain rfl := List.mem_singleton.mp hr'
        simp
  case explained => exact h.explained.invoke hinvoke
  case replied =>
    intro call value hreply
    rcases h.replied call value hreply with hlt | ⟨p, hasked, he⟩
    · exact .inl (Nat.lt_of_lt_of_le hlt (Clients.seq_le_of_invoke hinvoke _))
    · exact .inr ⟨p, hasked.invoke hinvoke, he⟩

theorem execute (h : SrvInv s) {r : Request} (hr : r ∈ s.requests) :
    SrvInv { s with
      server := (s.server.handle r).1
      executed := s.executed ++ [r]
      replies := s.replies ++ [(r.call, (s.server.handle r).2)] } := by
  have hexecuted : ∀ x ∈ s.executed ++ [r], x ∈ s.requests := by
    intro x hx
    rcases List.mem_append.mp hx with hx | hx
    · exact h.executed x hx
    · obtain rfl := List.mem_singleton.mp hx
      exact hr
  have heffects : ∀ e ∈ effects s.executed, e ∈ effects (s.executed ++ [r]) := by
    intro e he
    rw [effects_snoc]
    exact List.mem_append_left _ he
  constructor
  case server =>
    dsimp only
    rw [run_snoc, h.server]
  case executed => exact hexecuted
  case requested => exact h.requested
  case numbered => exact h.numbered
  case ordered => exact h.ordered
  case explained =>
    dsimp only
    rw [effects_snoc]
    refine h.explained.grow ?_
    intro e he
    cases hdup : (machine.run s.executed).duplicateOf r with
    | some last =>
      rw [KVServer.effects_duplicate hdup] at he
      cases he
    | none =>
      rw [KVServer.effects_fresh hdup] at he
      obtain rfl := List.mem_singleton.mp he
      exact h.requested r hr
  case replied =>
    intro call value hreply
    rcases List.mem_append.mp hreply with hreply | hreply
    · rcases h.replied call value hreply with hlt | ⟨q, hasked, e, he, hrest⟩
      · exact .inl hlt
      · exact .inr ⟨q, hasked, e, heffects e he, hrest⟩
    · obtain ⟨rfl, rfl⟩ := Prod.mk.inj (List.mem_singleton.mp hreply)
      have hsame : ∀ r' ∈ s.executed, r'.call = r.call → r'.query = r.query := by
        intro r' hr' hcall
        exact h.explained.same_query _ _ _
          (hcall ▸ h.requested r' (h.executed r' hr')) (h.requested r hr)
      rcases reply_effect (h.ordered.of_subset hexecuted) hsame with he | ⟨r', hr', hc, hlt⟩
      · rw [← h.server] at he
        exact .inr ⟨r.query, h.requested r hr, he⟩
      · have hasked := (h.explained.asked_seq _ _ (h.requested r' (h.executed r' hr'))).2
        rw [hc] at hasked
        exact .inl (Nat.lt_of_lt_of_le hlt hasked)

theorem reply (h : SrvInv s) {call : Nat × Nat} {value : Str} {q : Query}
    {clients : Clients Query (Option Str)} (hreply : (call, value) ∈ s.replies)
    (hcall : (s.clients.sessions call.1).call = some q)
    (hrespond : s.clients.respond (effects s.executed).length call.1 call.2 (returns q value) =
      some clients) : SrvInv { s with clients := clients } := by
  have hseq := (Clients.respond_eq_some hrespond).2.1
  have heffect : ∃ e ∈ effects s.executed, e.id = (call.1, call.2) ∧
      e.answer = returns q value := by
    rcases h.replied call value hreply with hlt | ⟨p, hasked, he⟩
    · -- the clerk listens for its latest call only
      omega
    · have hcurrent := h.explained.asked_call _ _ hcall
      rw [hseq] at hcurrent
      rw [← h.explained.same_query _ _ _ hasked hcurrent]
      exact he
  constructor
  case server => exact h.server
  case executed => exact h.executed
  case requested => exact fun r hr => (h.requested r hr).respond hrespond
  case numbered => exact h.numbered
  case ordered => exact h.ordered
  case explained => exact h.explained.respond hrespond heffect
  case replied =>
    intro other v hother
    dsimp only
    rw [Clients.seq_eq_of_respond hrespond]
    rcases h.replied other v hother with hlt | ⟨p, hasked, he⟩
    · exact .inl hlt
    · exact .inr ⟨p, hasked.respond hrespond, he⟩

theorem step (h : SrvInv s) {act : Action} (hstep : s.step act = some s') : SrvInv s' := by
  cases act with
  | invoke c q =>
    simp only [SrvSystem.step, Option.bind_eq_bind, Option.bind_eq_some_iff,
      Option.some.injEq] at hstep
    obtain ⟨clients, hinvoke, rfl⟩ := hstep
    exact h.invoke hinvoke rfl
  | execute k =>
    simp only [SrvSystem.step, Option.bind_eq_bind, Option.bind_eq_some_iff,
      Option.some.injEq] at hstep
    obtain ⟨r, hr, rfl⟩ := hstep
    exact h.execute (List.mem_of_getElem? hr)
  | reply k =>
    simp only [SrvSystem.step, Option.bind_eq_bind, Option.bind_eq_some_iff,
      Option.some.injEq] at hstep
    obtain ⟨⟨call, value⟩, hreply, q, hcall, clients, hrespond, rfl⟩ := hstep
    exact h.reply (List.mem_of_getElem? hreply) hcall hrespond

theorem of_reachable (h : kvsrv.Reachable System.anyStep s) : SrvInv s := by
  refine h.invariant initial ?_
  intro s act s' _ hinv _ hstep
  exact hinv.step hstep

end SrvInv

/-! ### Linearizability -/

/-- The request executed at position `p` is a mutation that takes effect. -/
def TakesEffect (executed : List Request) (p : Nat) (r : Request) : Prop :=
  executed[p]? = some r ∧ r.query.isGet = false ∧
    (machine.run (executed.take p)).duplicateOf r = none

theorem mem_effects {executed : List Request} {e : Effect (Nat × Nat) Query (Option Str)} :
    e ∈ effects executed ↔ ∃ (p : Nat) (r : Request), executed[p]? = some r ∧
      e ∈ (machine.run (executed.take p)).effects r :=
  machine.mem_collect

theorem TakesEffect.not_lt {executed : List Request} (h : Ordered executed) {p p' : Nat}
    {r r' : Request} (hp : TakesEffect executed p r) (hp' : TakesEffect executed p' r')
    (hcall : r.call = r'.call) : ¬ p < p' := by
  intro hlt
  obtain ⟨hr, hmut, hfresh⟩ := hp
  obtain ⟨hr', hmut', hfresh'⟩ := hp'
  have he : (machine.run (executed.take p)).effect r ∈ effects (executed.take p') := by
    refine mem_effects.mpr ⟨p, r, ?_, ?_⟩
    · rw [List.getElem?_take_of_lt hlt]
      exact hr
    · rw [List.take_take, Nat.min_eq_left (Nat.le_of_lt hlt), KVServer.effects_fresh hfresh]
      exact List.mem_singleton.mpr rfl
  obtain ⟨r₀, hr₀, hcall₀, hquery₀, hlast⟩ := effect_recorded _ _ he
  obtain ⟨last, hlast, hle⟩ := hlast hmut
  have hsame : r₀.call = r'.call := hcall₀.trans hcall
  have hmut₀ : r₀.query.isGet = false := by
    rw [hquery₀]
    exact hmut
  have hseq := h.seq_eq (List.mem_of_mem_take hr₀) (List.mem_of_getElem? hr') hmut₀ hmut' hsame
  rw [hsame] at hlast
  have hcon := KVServer.duplicateOf_eq_some.mpr ⟨hmut', hlast, hseq ▸ hle⟩
  rw [hfresh'] at hcon
  cases hcon

/-- In every run the calls of the clerks are linearizable for the map in which
    `Append` answers the old value.  The server's state is the fold of the
    requests it executed, in which a mutation takes effect at most once, and one
    that has returned has taken effect. -/
theorem kvsrv_linearizable (s : SrvSystem) (h : kvsrv.Reachable System.anyStep s) :
    WellFormed s.clients.calls ∧
    Linearizable fetchAppend s.clients.calls ∧
    s.server = machine.run s.executed ∧
    (∀ p p' r r', TakesEffect s.executed p r → TakesEffect s.executed p' r' →
      r.call = r'.call → p = p') ∧
    (∀ i q a, .invoke i q ∈ s.clients.calls → .respond i a ∈ s.clients.calls →
      q.isGet = false →
      ∃ p r, TakesEffect s.executed p r ∧ r.call = i ∧ r.query = q ∧
        fetchAppend.answer (machine.run (s.executed.take p)).data q = a) := by
  have hinv := SrvInv.of_reachable h
  have hordered : Ordered s.executed := hinv.ordered.of_subset hinv.executed
  refine ⟨hinv.explained.wellFormed, ?_, hinv.server, ?_, ?_⟩
  · exact hinv.explained.linearizable (fun q => q.isGet = true) (legal_effects s.executed).1
      (effects_once hordered) (fun q hq m => MapSpec.next_of_isGet hq m)
  · intro p p' r r' hp hp' hcall
    exact Nat.le_antisymm (Nat.le_of_not_lt (hp'.not_lt hordered hp hcall.symm))
      (Nat.le_of_not_lt (hp.not_lt hordered hp' hcall))
  · intro i q a hcall hreturn hmut
    obtain ⟨⟨t, _⟩, hcall, rfl⟩ := List.mem_map.mp hcall
    obtain ⟨⟨t', _⟩, hreturn, rfl⟩ := List.mem_map.mp hreturn
    obtain ⟨k, e, -, hk, rfl, rfl⟩ := hinv.explained.before_respond t' i a hreturn
    have he := List.mem_of_getElem? hk
    have hquery := hinv.explained.same_query _ _ _ (hinv.explained.asked e he) ⟨t, hcall⟩
    obtain ⟨p, r, hp, hr⟩ := mem_effects.mp he
    cases hdup : (machine.run (s.executed.take p)).duplicateOf r with
    | some last =>
      rw [KVServer.effects_duplicate hdup] at hr
      cases hr
    | none =>
      rw [KVServer.effects_fresh hdup] at hr
      obtain rfl := List.mem_singleton.mp hr
      subst hquery
      exact ⟨p, r, ⟨hp, hmut, hdup⟩, rfl, rfl, rfl⟩

/-- Two clerks append to one key.  The first copy of clerk 0's request is executed
    and its reply lost, the second is executed after clerk 1's and answered from
    the table, and a third arrives after clerk 0 has gone on. -/
def retryAppend : List Action :=
  [.invoke 0 (.append [1] [7]), .execute 0, .invoke 1 (.append [1] [8]), .execute 1, .reply 1,
    .execute 0, .reply 2, .invoke 0 (.put [2] [9]), .execute 2, .execute 0, .reply 3,
    .invoke 1 (.get [1]), .execute 3, .reply 5]

theorem kvsrv_linearizable_retryAppend : ∃ s : SrvSystem, kvsrv.Reachable System.anyStep s ∧
    s.clients.calls = [.invoke (0, 1) (.append [1] [7]), .invoke (1, 1) (.append [1] [8]),
      .respond (1, 1) (some [7]), .respond (0, 1) (some []), .invoke (0, 2) (.put [2] [9]),
      .respond (0, 2) none, .invoke (1, 2) (.get [1]), .respond (1, 2) (some [7, 8])] ∧
    Linearizable fetchAppend s.clients.calls := by
  obtain ⟨s, hs, hcheck⟩ := kvsrv.exists_reachable_of_run System.anyStep retryAppend
    (fun s => decide (s.clients.calls =
      [.invoke (0, 1) (.append [1] [7]), .invoke (1, 1) (.append [1] [8]),
        .respond (1, 1) (some [7]), .respond (0, 1) (some []), .invoke (0, 2) (.put [2] [9]),
        .respond (0, 2) none, .invoke (1, 2) (.get [1]), .respond (1, 2) (some [7, 8])]))
    (by decide +kernel)
  exact ⟨s, hs, of_decide_eq_true hcheck, (kvsrv_linearizable s hs).2.1⟩

end RaftLabs.KVSrv
