import RaftLabs.ShardKVSessions

/-!
# The sharded store is linearizable

One request may stand in the logs of several groups.  It takes effect where its
shard is served and the table does not know it yet; by then every earlier effect
has come along with the shard, so this happens once.
-/

namespace RaftLabs.ShardKV

open Linearizability ReplicatedService

variable {ct : Controller} {L : Nat → List Op} {effects : Effects} {g k p : Nat} {op op' : Op}
  {st : ShardStore} {cop : ClientOp} {cl : Clients Query (Option Str)}

/-- A mutation that a group carries out has not been carried out before. -/
theorem DataInv.not_repeated (h : DataInv ct L effects) (hg : g ≠ 0)
    (hcan : (states L g).canServe g (key2shard cop.key) = true) (mutates : cop.type ≠ .get)
    (fresh : (states L g).duplicate cop = false) {e : Effect (Nat × Nat) Query (Option Str)}
    (he : e ∈ effects) (hid : e.id = cop.id) (hquery : e.query = cop.query) : False := by
  obtain ⟨-, sh, has, serving⟩ := canServe_iff.mp hcan
  have htouch : Touches e (key2shard cop.key) := by
    constructor
    · simpa [hquery, cop.isGet_query] using mutates
    · rw [hquery, cop.key_query]
  obtain ⟨last, hlast, hle⟩ := (h.held g _ sh hg has (.inl serving)).2 e he htouch
  rw [hid] at hlast hle
  have := duplicate_iff.mpr ⟨last, hlast, hle⟩
  rw [fresh] at this
  cases this

/-! ### Effects and logs -/

structure EffectsInv (L : Nat → List Op) (effects : Effects) : Prop where
  legal : Legal MapSpec.object MapSpec.object.init effects
  once : MutationsOnce (fun q : Query => q.isGet = true) effects
  took : ∀ g p cop, TakesEffect L g p cop →
    ∃ e ∈ effects, e.id = cop.id ∧ e.query = cop.query
  unique : ∀ g g' p p' cop cop', TakesEffect L g p cop → TakesEffect L g' p' cop' →
    cop.id = cop'.id → g = g' ∧ p = p'

namespace EffectsInv

theorem initial : EffectsInv (fun _ => []) [] where
  legal := trivial
  once := by simp [MutationsOnce]
  took g p cop h := by simp [TakesEffect, Entry] at h
  unique g g' p p' cop cop' h := by simp [TakesEffect, Entry] at h

section Commit

variable (h : EffectsInv L effects) (hdata : DataInv ct L effects) (hcl : Explained cl effects)
  (hg : g ≠ 0) (hknown : Known cl effects op)

include hdata hg in
theorem legal_commit (h : EffectsInv L effects) : Legal MapSpec.object MapSpec.object.init
    (effects ++ (states L g).effects g op) := by
  rcases effects_cases g (states L g) op with hnone | ⟨cop, -, hcan, -, hone⟩
  · rw [hnone, List.append_nil]
    exact h.legal
  · obtain ⟨-, sh, has, serving⟩ := canServe_iff.mp hcan
    rw [hone]
    exact (legal_append _ _ _).mpr ⟨h.legal, hdata.effect_answer hg has serving, trivial⟩

include hdata hcl hg hknown in
theorem once_commit (h : EffectsInv L effects) :
    MutationsOnce (fun q : Query => q.isGet = true)
      (effects ++ (states L g).effects g op) := by
  rcases effects_cases g (states L g) op with hnone | ⟨cop, rfl, hcan, hfresh, hone⟩
  · rw [hnone, List.append_nil]
    exact h.once
  · rw [hone]
    refine h.once.snoc ?_
    intro hmut e he hid
    have mutates : cop.type ≠ .get := by simpa [ShardStore.effect, cop.isGet_query] using hmut
    have hquery := hknown.query_eq hcl he hid
    exact (hdata.not_repeated hg hcan mutates (hfresh.resolve_left mutates) he hid hquery).elim

include hdata hcl hg hknown in
/-- A mutation does not take effect a second time, at this group or another. -/
theorem unique_commit (h : EffectsInv L effects) {g' p' : Nat} {cop' : ClientOp}
    (hold : TakesEffect L g' p' cop') (hop : op = .client cop) (mutates : cop.type ≠ .get)
    (hcan : (states L g).canServe g (key2shard cop.key) = true)
    (fresh : (states L g).duplicate cop = false) (hid : cop'.id = cop.id) : False := by
  subst hop
  obtain ⟨e, he, heid, -⟩ := h.took g' p' cop' hold
  have hquery := hknown.query_eq hcl he (heid.trans hid)
  exact hdata.not_repeated hg hcan mutates fresh he (heid.trans hid) hquery

include h hdata hcl hg hknown in
theorem commit : EffectsInv (Function.update L g (L g ++ [op]))
    (effects ++ (states L g).effects g op) where
  legal := h.legal_commit hdata hg
  once := h.once_commit hdata hcl hg hknown
  took k p cop htakes := by
    rcases htakes.of_committed with hold | ⟨rfl, -, rfl, mutates, hcan, fresh⟩
    · obtain ⟨e, he, hrest⟩ := h.took k p cop hold
      exact ⟨e, List.mem_append_left _ he, hrest⟩
    · refine ⟨(states L k).effect cop, List.mem_append_right _ ?_, rfl, rfl⟩
      simp [ShardStore.effects, hcan, fresh]
  unique k k' p p' cop cop' htakes htakes' hid := by
    rcases htakes.of_committed with hold | ⟨rfl, rfl, hop, mutates, hcan, fresh⟩
    · rcases htakes'.of_committed with hold' | ⟨rfl, rfl, hop, mutates, hcan, fresh⟩
      · exact h.unique k k' p p' cop cop' hold hold' hid
      · exact (h.unique_commit hdata hcl hg hknown hold hop mutates hcan fresh hid).elim
    · rcases htakes'.of_committed with hold' | ⟨rfl, rfl, -⟩
      · exact (h.unique_commit hdata hcl hg hknown hold' hop mutates hcan fresh hid.symm).elim
      · exact ⟨rfl, rfl⟩

end Commit

end EffectsInv

/-! ### The invariant of a run -/

structure LinearInv {ν : Type} (ct : Controller) (c : ShardSystem ν) : Prop extends
    SessionInv c where
  own : OwnershipInv ct c
  data : DataInv ct c.logs c.effects
  effects : EffectsInv c.logs c.effects

namespace LinearInv

variable {ν : Type} {makeEnd : MakeEnd ν} {c c' : ShardSystem ν}

/-- Where a step commits a command, data and effects go on as they should. -/
theorem data_effects [DecidableEq ν] (h : LinearInv ct c) (hg : g ≠ 0) {act : GroupAction ν}
    (hstep : c.Happens ct g act c') :
    DataInv ct c'.logs c'.effects ∧ EffectsInv c'.logs c'.effects := by
  rcases hstep.logs_effects with ⟨hlogs, heffects⟩ | ⟨index, op, hmem, hlogs, heffects⟩
  · rw [hlogs, heffects]
    exact ⟨h.data, h.effects⟩
  · have hok := (h.own.sound g).started _ hmem
    have hknown := (h.sound g).started _ hmem
    rw [hlogs, heffects]
    constructor
    · exact h.data.commit h.own.groups hg hok (by rintro _ _ _ _ rfl; exact hknown)
    · exact h.effects.commit h.data h.explained hg hknown

theorem initial (ct : Controller) (makeEnd : MakeEnd ν) [DecidableEq ν] :
    LinearInv ct (shardSystem ct makeEnd).init where
  toSessionInv := SessionInv.initial ct makeEnd
  own := OwnershipInv.initial ct makeEnd
  data := DataInv.initial ct
  effects := EffectsInv.initial

theorem of_reachable [DecidableEq ν] (h : (shardSystem ct makeEnd).Reachable System.anyStep c) :
    LinearInv ct c := by
  refine h.invariant (initial ct makeEnd) ?_
  intro c act c' hc hinv hok hstep
  have hsessions := SessionInv.of_reachable (hc.step hok hstep)
  rcases ShardSystem.step_cases hstep with ⟨_, _, _, -, rfl⟩ | ⟨g, gact, -, hg, hhappens⟩
  · exact
      { hsessions with
        own := { hinv.own with }
        data := hinv.data
        effects := hinv.effects }
  · obtain ⟨hdata, heffects⟩ := hinv.data_effects hg hhappens
    exact
      { hsessions with
        own := hinv.own.happens hg hhappens
        data := hdata
        effects := heffects }

end LinearInv

/-! ### Linearizability -/

/-- A command that is answered `ErrWrongGroup` changes nothing and has no effect. -/
theorem applyClientOp_wrongGroup {gid : Nat}
    (h : (st.applyClientOp gid cop).2.err = .wrongGroup) :
    (st.applyClientOp gid cop).1 = st ∧ st.effects gid (.client cop) = [] := by
  have hcase := clientCase gid st cop
  generalize (st.applyClientOp gid cop).1 = st' at hcase ⊢
  generalize (st.applyClientOp gid cop).2 = res at hcase h
  generalize st.effects gid (.client cop) = more at hcase ⊢
  cases hcase with
  | refused => exact ⟨rfl, rfl⟩
  | read _ _ err => exact absurd h err
  | duplicate _ err => exact absurd h err
  | wrote _ _ err => exact absurd h err

/-- Nor does a command that does not take effect change anything. -/
theorem Entry.unchanged (h : Entry L g p (.client cop) st) (hnot : ¬ TakesEffect L g p cop) :
    (st.applyClientOp g cop).1 = st := by
  have hcase := clientCase g st cop
  generalize (st.applyClientOp g cop).1 = st' at hcase ⊢
  generalize st.effects g (.client cop) = more at hcase
  cases hcase with
  | refused => rfl
  | read => rfl
  | duplicate => rfl
  | wrote sh _ _ owns has serving mutates fresh =>
    exact absurd ⟨st, h, mutates, canServe_iff.mpr ⟨owns, sh, has, serving⟩, fresh⟩ hnot

/-- In every run, the calls of the clerks are linearizable for one map.  The store of
    every replica is the fold of a prefix of the log of its group.  In all logs
    together a mutation takes effect at most once, a command that does not take effect
    leaves the store as it is, and a mutation that has returned has taken effect.  A
    handler that was answered `ErrWrongGroup` has this from an entry of its command
    that did nothing; a request that was refused at once left no trace. -/
theorem shardkv_linearizable {ν : Type} [DecidableEq ν] {makeEnd : MakeEnd ν} (ct : Controller)
    (c : ShardSystem ν)
    (hc : (shardSystem ct makeEnd).Reachable System.anyStep c) :
    WellFormed c.clients.calls ∧
    Linearizable MapSpec.object c.clients.calls ∧
    (∀ g i, ((c.groups g).servers i).state =
      (machine g).run ((c.logs g).take ((c.groups g).position i))) ∧
    (∀ g g' p p' op op', TakesEffect c.logs g p op → TakesEffect c.logs g' p' op' →
      op.id = op'.id → g = g' ∧ p = p') ∧
    (∀ g p op st, Entry c.logs g p (.client op) st → ¬ TakesEffect c.logs g p op →
      (apply g st (.client op)).1 = st) ∧
    (∀ i q r, .invoke i q ∈ c.clients.calls → .respond i r ∈ c.clients.calls →
      q.isGet = false → ∃ g p op, TakesEffect c.logs g p op ∧ op.id = i ∧ op.query = q) ∧
    (∀ g hd out op, hd ∈ (c.groups g).handlers → hd.phase = .returned out →
      hd.op = .client op → (submit hd.op out).err = .wrongGroup →
      ∃ p st, Entry c.logs g p hd.op st ∧ (apply g st hd.op).1 = st ∧ st.effects g hd.op = []) ∧
    (∀ g i k t client seq q, g ≠ 0 → c.clients.history[k]? = some (t, .invoke (client, seq) q) →
      ((c.groups g).servers i).state.canServe g
        (key2shard (KV.Op.request client seq q).key) = false →
      (shardSystem ct makeEnd).step c (.group g (.serve i k)) = some c) := by
  have hinv := LinearInv.of_reachable hc
  refine ⟨hinv.explained.wellFormed, ?_, fun g i => ((hinv.own.sound g).servers i).state,
    hinv.effects.unique, fun g p op st hentry hnot => hentry.unchanged hnot, ?_, ?_, ?_⟩
  · exact hinv.explained.linearizable (fun q => q.isGet = true) hinv.effects.legal
      hinv.effects.once (fun q hq m => MapSpec.next_of_isGet hq m)
  · intro i q r hcall hreturn hmut
    obtain ⟨⟨t, _⟩, hcall, rfl⟩ := List.mem_map.mp hcall
    obtain ⟨⟨t', _⟩, hreturn, rfl⟩ := List.mem_map.mp hreturn
    obtain ⟨_, e, -, he, rfl, -⟩ := hinv.explained.before_respond t' i r hreturn
    have he := List.mem_of_getElem? he
    have hquery := hinv.explained.same_query _ _ _ (hinv.explained.asked e he) ⟨t, hcall⟩
    obtain ⟨g, p, op, htakes, hid, hop⟩ := hinv.origin e he (hquery ▸ hmut)
    exact ⟨g, p, op, htakes, hid, hop.trans hquery⟩
  · intro g hd out op hmem hphase hop herr
    rw [hop] at herr ⊢
    obtain ⟨r, rfl, hsubmit, hclient, hseq⟩ :=
      submit_result (by rw [herr]; decide) (by rw [herr]; decide)
    obtain ⟨p, st, hentry, rfl⟩ :=
      (SessionInv.of_reachable hc).own_entry hmem hop hphase hclient hseq
    rw [hsubmit] at herr
    exact ⟨p, st, hentry, applyClientOp_wrongGroup herr⟩
  · intro g i k t client seq q hg hget hcannot
    simp only [shardSystem, ShardSystem.step, if_neg hg, ShardSystem.groupStep, hget, hcannot,
      Bool.false_eq_true, if_false]

/-- The clerk retries its `Append` at group 2, which has it for a duplicate, and reads
    the key there. -/
def untilRead : List (ShardAction (Fin 3)) :=
  [.group 2 (.serve 0 0), .group 2 (.move (.start 0 5)), .group 2 (.move (.register 0)),
    .group 2 (.commit 4), .group 2 (.move (.apply 0 false)), .group 2 (.move (.receive 0)),
    .group 2 (.move (.finish 0)), .group 2 (.reply 0), .invoke 0 (.get [0]),
    .group 2 (.serve 0 2), .group 2 (.move (.start 1 6)), .group 2 (.move (.register 1)),
    .group 2 (.commit 5), .group 2 (.move (.apply 0 false)), .group 2 (.move (.receive 1)),
    .group 2 (.move (.finish 1)), .group 2 (.reply 1)]

theorem shardkv_linearizable_handOff : ∃ c : ShardSystem (Fin 3),
    (shardSystem handOff threeServers).Reachable System.anyStep c ∧
      c.clients.calls = [.invoke (0, 1) (.append [0] [7]), .respond (0, 1) none,
        .invoke (0, 2) (.get [0]), .respond (0, 2) (some [7])] ∧
      (c.logs 1).length = 5 ∧ (c.logs 2).length = 6 ∧ c.effects.length = 2 ∧
      Linearizable MapSpec.object c.clients.calls := by
  obtain ⟨c, hc, hcheck⟩ := (shardSystem handOff threeServers).exists_reachable_of_run
    System.anyStep (untilPulled ++ untilServed ++ untilRead)
    (fun c => decide (c.clients.calls = [.invoke (0, 1) (.append [0] [7]), .respond (0, 1) none,
        .invoke (0, 2) (.get [0]), .respond (0, 2) (some [7])] ∧
      (c.logs 1).length = 5 ∧ (c.logs 2).length = 6 ∧ c.effects.length = 2))
    (by decide +kernel)
  obtain ⟨hcalls, hone, htwo, heffects⟩ := of_decide_eq_true hcheck
  exact ⟨c, hc, hcalls, hone, htwo, heffects, (shardkv_linearizable handOff c hc).2.1⟩

end RaftLabs.ShardKV
