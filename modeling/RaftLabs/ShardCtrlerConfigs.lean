import RaftLabs.ShardCtrlerSpec
import RaftLabs.TransitionSystem

/-!
# The configurations that a log makes

A replica that is handed an agreed log ends with a list of configurations that
the log determines: handing out a command again changes nothing, and no mutation
depends on the order of a range.  So configuration `n` is the same for everyone.

`Clerks` is the other end: clients that make one call at a time, repeat it until
it is answered, and number their calls.  Their requests may be logged late and
more than once.  Then each mutation makes one configuration.

Last, which operations keep every configuration well formed.  `rebalance` repairs
whatever it is given, but `Move` writes its arguments unchecked.
-/

namespace RaftLabs.Ctrl

variable {N : Nat} {γ : Type}

/-! ### Clerks -/

theorem mem_take_iff {α : Type} {l : List α} {k : Nat} {a : α} :
    a ∈ l.take k ↔ ∃ p < k, l[p]? = some a := by
  rw [List.mem_iff_getElem?]
  refine exists_congr fun p => ?_
  rw [List.getElem?_take]
  split
  · next hp => simp [hp]
  · next hp => simp [hp]

/-- The entries of client `c` are those of a clerk that makes one call at a time:
    an entry is known by its number, and before a call is logged the calls with
    smaller numbers are. -/
structure OneCallAtATime (c : Int) (log : List (Op γ)) : Prop where
  same_call : ∀ op ∈ log, ∀ op' ∈ log, op.clientId = c → op'.clientId = c →
    op.seq = op'.seq → op = op'
  answered : ∀ (i j : Nat) (op op' : Op γ), log[i]? = some op → log[j]? = some op' →
    op.clientId = c → op'.clientId = c → op.seq < op'.seq → ∃ i' < j, log[i']? = some op

/-- The clerks' latest calls, the requests that they sent and the agreed log. -/
structure Clerks (γ : Type) where
  calls : Int → Option (Op γ)
  sent : List (Op γ)
  log : List (Op γ)

inductive Clerks.Action (γ : Type) where
  /-- A clerk begins a call; its previous one was answered from a log index. -/
  | call (clientId : Int) (args : Args γ) (index : Nat)
  /-- A request that was sent is logged. -/
  | logged (i : Nat)

/-- `nextSeq` numbers the calls from 1.  A call returns when `submit` finds the
    call's client and number in the command that was applied at its index. -/
def Clerks.step (s : Clerks γ) : Clerks.Action γ → Option (Clerks γ)
  | .call clientId args index =>
    let newCall := fun seq =>
      let op : Op γ := { args := args, clientId := clientId, seq := seq }
      { s with calls := Function.update s.calls clientId (some op), sent := s.sent ++ [op] }
    match s.calls clientId with
    | none => some (newCall 1)
    | some op =>
      match s.log[index]? with
      | none => none
      | some applied =>
        if applied.clientId = op.clientId ∧ applied.seq = op.seq then some (newCall (op.seq + 1))
        else none
  | .logged i => s.sent[i]?.map fun op => { s with log := s.log ++ [op] }

def clerkSystem (γ : Type) : System (Clerks γ) (Clerks.Action γ) where
  init := { calls := fun _ => none, sent := [], log := [] }
  step := Clerks.step

namespace Clerks

/-- What the clerks keep: a call is logged only after it was made, and made only
    after the one before it was logged. -/
structure CallsInTurn (s : Clerks γ) : Prop where
  call : ∀ c op, s.calls c = some op → op.clientId = c ∧ op ∈ s.sent
  latest : ∀ op ∈ s.sent, ∃ cur, s.calls op.clientId = some cur ∧ op.seq ≤ cur.seq
  unique : ∀ op ∈ s.sent, ∀ op' ∈ s.sent, op.clientId = op'.clientId → op.seq = op'.seq → op = op'
  logged : ∀ op ∈ s.log, op ∈ s.sent
  previous : ∀ op ∈ s.sent, ∀ cur, s.calls op.clientId = some cur → op.seq < cur.seq → op ∈ s.log
  earlier : ∀ (j : Nat) (op' : Op γ), s.log[j]? = some op' → ∀ op ∈ s.sent,
    op.clientId = op'.clientId → op.seq < op'.seq → op ∈ s.log.take j

theorem step_call {s t : Clerks γ} {c : Int} {args : Args γ} {index : Nat}
    (h : s.step (.call c args index) = some t) : ∃ op : Op γ, op.clientId = c ∧
      t = { s with calls := Function.update s.calls c (some op), sent := s.sent ++ [op] } ∧
      (s.calls c = none ∨ ∃ cur applied, s.calls c = some cur ∧ op.seq = cur.seq + 1 ∧
        applied ∈ s.log ∧ applied.clientId = cur.clientId ∧ applied.seq = cur.seq) := by
  unfold step at h
  dsimp only at h
  split at h
  · next hnone =>
    cases h
    exact ⟨_, rfl, rfl, .inl hnone⟩
  · next cur hcur =>
    split at h
    · cases h
    · next applied happlied =>
      split at h
      · next hsame =>
        cases h
        exact ⟨_, rfl, rfl, .inr ⟨cur, applied, hcur, rfl, List.mem_of_getElem? happlied, hsame⟩⟩
      · cases h

theorem CallsInTurn.call_step {s t : Clerks γ} {c : Int} {args : Args γ} {index : Nat}
    (hs : CallsInTurn s) (h : s.step (.call c args index) = some t) : CallsInTurn t := by
  obtain ⟨new, rfl, rfl, hprev⟩ := step_call h
  -- The new number is above those of all calls of the client so far, which are logged.
  have hbelow : ∀ op ∈ s.sent, op.clientId = new.clientId → op.seq < new.seq ∧ op ∈ s.log := by
    intro op hop hc
    obtain ⟨cur, hcur, hle⟩ := hs.latest op hop
    rw [hc] at hcur
    rcases hprev with hnone | ⟨cur', applied, hcur', hseq, happlied, hac, has⟩
    · rw [hnone] at hcur
      cases hcur
    · rw [hcur'] at hcur
      cases hcur
      refine ⟨by omega, ?_⟩
      rcases lt_or_eq_of_le hle with hlt | heq
      · exact hs.previous op hop _ (hc ▸ hcur') hlt
      · have hcc := (hs.call _ _ hcur').1
        rw [hs.unique op hop applied (hs.logged _ happlied) (by rw [hc, hac, hcc])
          (heq.trans has.symm)]
        exact happlied
  constructor
  case call =>
    intro d op hop
    dsimp only at hop ⊢
    by_cases hd : d = new.clientId
    · subst hd
      rw [Function.update_self] at hop
      cases hop
      exact ⟨rfl, List.mem_append_right _ (List.mem_singleton_self _)⟩
    · rw [Function.update_of_ne hd] at hop
      exact ⟨(hs.call d op hop).1, List.mem_append_left _ (hs.call d op hop).2⟩
  case latest =>
    intro op hop
    dsimp only
    by_cases hc : op.clientId = new.clientId
    · refine ⟨new, by rw [hc, Function.update_self], ?_⟩
      rcases List.mem_append.mp hop with hop | hop
      · exact (hbelow op hop hc).1.le
      · rw [List.mem_singleton.mp hop]
    · rcases List.mem_append.mp hop with hop | hop
      · rw [Function.update_of_ne hc]
        exact hs.latest op hop
      · exact absurd (congrArg Op.clientId (List.mem_singleton.mp hop)) hc
  case unique =>
    intro op hop op' hop' hc hseq
    rcases List.mem_append.mp hop with hop | hop <;> rcases List.mem_append.mp hop' with hop' | hop'
    · exact hs.unique op hop op' hop' hc hseq
    · cases List.mem_singleton.mp hop'
      exact absurd hseq (hbelow op hop hc).1.ne
    · cases List.mem_singleton.mp hop
      exact absurd hseq.symm (hbelow op' hop' hc.symm).1.ne
    · rw [List.mem_singleton.mp hop, List.mem_singleton.mp hop']
  case logged =>
    intro op hop
    exact List.mem_append_left _ (hs.logged op hop)
  case previous =>
    intro op hop cur hcur hlt
    rcases List.mem_append.mp hop with hop | hop
    · by_cases hc : op.clientId = new.clientId
      · exact (hbelow op hop hc).2
      · dsimp only at hcur
        rw [Function.update_of_ne hc] at hcur
        exact hs.previous op hop cur hcur hlt
    · cases List.mem_singleton.mp hop
      dsimp only at hcur
      rw [Function.update_self] at hcur
      cases hcur
      exact absurd hlt (lt_irrefl _)
  case earlier =>
    intro j op' hop' op hop hc hlt
    rcases List.mem_append.mp hop with hop | hop
    · exact hs.earlier j op' hop' op hop hc hlt
    · cases List.mem_singleton.mp hop
      have := (hbelow op' (hs.logged _ (List.mem_of_getElem? hop')) hc.symm).1
      omega

theorem CallsInTurn.logged_step {s t : Clerks γ} {i : Nat} (hs : CallsInTurn s)
    (h : s.step (.logged i) = some t) : CallsInTurn t := by
  obtain ⟨new, hnew, rfl⟩ := Option.map_eq_some_iff.mp h
  have hsent := List.mem_of_getElem? hnew
  refine { hs with logged := ?_, previous := ?_, earlier := ?_ }
  · intro op hop
    rcases List.mem_append.mp hop with hop | hop
    · exact hs.logged op hop
    · rw [List.mem_singleton.mp hop]
      exact hsent
  · intro op hop cur hcur hlt
    exact List.mem_append_left _ (hs.previous op hop cur hcur hlt)
  · intro j op' hop' op hop hc hlt
    dsimp only at hop' ⊢
    by_cases hj : j < s.log.length
    · rw [List.getElem?_append_left hj] at hop'
      rw [List.take_append_of_le_length hj.le]
      exact hs.earlier j op' hop' op hop hc hlt
    · have hlen := (List.getElem?_eq_some_iff.mp hop').1
      rw [List.length_append, List.length_singleton] at hlen
      have hjeq : j = s.log.length := by omega
      subst hjeq
      rw [List.getElem?_concat_length, Option.some.injEq] at hop'
      subst hop'
      rw [List.take_left]
      obtain ⟨cur, hcur, hle⟩ := hs.latest _ hsent
      exact hs.previous op hop cur (hc ▸ hcur) (lt_of_lt_of_le hlt hle)

/-- The log of any run of clerks shows one call at a time of each. -/
theorem oneCallAtATime {s : Clerks γ} (hs : (clerkSystem γ).Reachable System.anyStep s) (c : Int) :
    OneCallAtATime c s.log := by
  have hok : CallsInTurn s := by
    refine hs.invariant ?_ ?_
    · constructor <;> simp [clerkSystem]
    · intro s a t _ ih _ hstep
      cases a with
      | call c args index => exact ih.call_step hstep
      | logged i => exact ih.logged_step hstep
  constructor
  case same_call =>
    intro op hop op' hop' hc hc' hseq
    exact hok.unique op (hok.logged op hop) op' (hok.logged op' hop') (hc.trans hc'.symm) hseq
  case answered =>
    intro i j op op' hi hj hc hc' hlt
    have hmem := hok.earlier j op' hj op (hok.logged op (List.mem_of_getElem? hi))
      (hc.trans hc'.symm) hlt
    exact mem_take_iff.mp hmem

end Clerks

/-! ### One command -/

theorem ShardCtrler.getElem?_current (sc : ShardCtrler N γ) :
    sc.configs[sc.configs.length - 1]? = some sc.current := by
  rw [current, List.getLast_eq_getElem]
  exact List.getElem?_eq_getElem _

theorem ShardCtrler.current_congr {sc sc' : ShardCtrler N γ} (h : sc'.configs = sc.configs) :
    sc'.current = sc.current := by
  simp only [current, h]

theorem ShardCtrler.current_of_append {sc sc' : ShardCtrler N γ} {nc : Config N γ}
    (h : sc'.configs = sc.configs ++ [nc]) : sc'.current = nc := by
  simp only [current, h, List.getLast_append_singleton]

/-- What one turn of the loop does. -/
theorem ShardCtrler.current_mem (sc : ShardCtrler N γ) : sc.current ∈ sc.configs :=
  List.getLast_mem sc.configs_ne

variable [LinearOrder γ] [Zero γ]

namespace ShardCtrler

theorem applyLoop_cases {o : MapOrders γ} {sc sc' : ShardCtrler N γ} {index : Nat} {op : Op γ}
    (h : sc.applyLoop o index op = .ok sc') :
    index ≤ sc.lastApplied ∧ sc' = sc ∨
    sc.lastApplied < index ∧ sc'.lastApplied = index ∧
      ((op.args.isQuery ∨ ¬ sc.Fresh op) ∧ sc'.configs = sc.configs ∧ sc'.dedup = sc.dedup ∨
        op.args.isQuery = false ∧ sc.Fresh op ∧
          sc'.dedup = Function.update sc.dedup op.clientId (some op.seq) ∧
          ∃ nc, nextConfig o op.args sc.current = .ok nc ∧ sc'.configs = sc.configs ++ [nc]) := by
  unfold applyLoop at h
  split at h
  · next hle =>
    cases h
    exact .inl ⟨hle, rfl⟩
  · next hlt =>
    refine .inr ⟨Nat.lt_of_not_le hlt, ?_⟩
    dsimp only at h
    split at h
    · next hq =>
      cases h
      exact ⟨rfl, .inl ⟨.inl hq, rfl, rfl⟩⟩
    · next hq =>
      split at h
      · next hfresh =>
        unfold applyMutation at h
        cases hnc : nextConfig o op.args sc.current with
        | error e =>
          change (nextConfig o op.args sc.current >>= _) >>= _ = _ at h
          rw [hnc] at h
          cases h
        | ok nc =>
          change (nextConfig o op.args sc.current >>= _) >>= _ = _ at h
          rw [hnc] at h
          cases h
          exact ⟨rfl, .inr ⟨Bool.eq_false_iff.mpr hq, hfresh, rfl, nc, rfl, rfl⟩⟩
      · next hfresh =>
        cases h
        exact ⟨rfl, .inl ⟨.inr hfresh, rfl, rfl⟩⟩

/-- The order of the ranges plays no part. -/
theorem applyLoop_eq {o o' : MapOrders γ} {sc : ShardCtrler N γ} {op : Op γ}
    (h : o.Possible op.args sc.current) (h' : o'.Possible op.args sc.current) (index : Nat) :
    sc.applyLoop o index op = sc.applyLoop o' index op := by
  have hmut : ({ sc with lastApplied := index } : ShardCtrler N γ).applyMutation o op =
      ({ sc with lastApplied := index } : ShardCtrler N γ).applyMutation o' op := by
    unfold applyMutation
    change (nextConfig o op.args sc.current >>= _) = (nextConfig o' op.args sc.current >>= _)
    rw [h.nextConfig_eq h']
  unfold applyLoop
  dsimp only
  rw [hmut]

end ShardCtrler

/-! ### A log -/

namespace Replays

variable {log : List (Op γ)} {k k' : Nat} {sc sc' : ShardCtrler N γ}

theorem lastApplied_eq (h : Replays log k sc) : sc.lastApplied = k := by
  induction h with
  | start => rfl
  | next _ _ _ hstep ih =>
    rcases ShardCtrler.applyLoop_cases hstep with ⟨hle, -⟩ | ⟨-, heq, -⟩
    · omega
    · exact heq
  | again _ hi _ hstep ih =>
    rcases ShardCtrler.applyLoop_cases hstep with ⟨-, rfl⟩ | ⟨hlt, -⟩
    · exact ih
    · omega

/-- A command that was applied before changes nothing. -/
theorem applyLoop_again (h : Replays log k sc) {i : Nat} (hi : i < k) {op : Op γ}
    {o : MapOrders γ} (hstep : sc.applyLoop o (i + 1) op = .ok sc') : sc' = sc := by
  have hlast := h.lastApplied_eq
  rcases ShardCtrler.applyLoop_cases hstep with ⟨-, heq⟩ | ⟨hlt, -⟩
  · exact heq
  · omega

theorem eq_start (h : Replays log 0 sc) : sc = .start := by
  generalize hk : 0 = k at h
  induction h with
  | start => rfl
  | next _ _ _ _ _ => cases hk
  | again _ hi _ _ _ =>
    subst hk
    cases hi

/-- How a replica came past command `k`. -/
theorem succ_cases (h : Replays log (k + 1) sc') : ∃ (sc : ShardCtrler N γ) (op : Op γ)
    (o : MapOrders γ), Replays log k sc ∧ log[k]? = some op ∧ o.Possible op.args sc.current ∧
      sc.applyLoop o (k + 1) op = .ok sc' := by
  generalize hk : k + 1 = k' at h
  induction h with
  | start => cases hk
  | next hprev hop ho hstep _ =>
    cases hk
    exact ⟨_, _, _, hprev, hop, ho, hstep⟩
  | again hprev hi _ hstep ih =>
    cases hprev.applyLoop_again hi hstep
    exact ih hk

/-- The log determines the state of every replica. -/
theorem deterministic (h : Replays log k sc) (h' : Replays log k sc') : sc = sc' := by
  induction k generalizing sc sc' with
  | zero => rw [h.eq_start, h'.eq_start]
  | succ k ih =>
    obtain ⟨d, op, o, hprev, hop, ho, hstep⟩ := h.succ_cases
    obtain ⟨d', op', o', hprev', hop', ho', hstep'⟩ := h'.succ_cases
    cases ih hprev hprev'
    rw [hop] at hop'
    cases hop'
    rw [ShardCtrler.applyLoop_eq ho ho', hstep'] at hstep
    exact (Except.ok.inj hstep).symm

/-- A replica that is at `k'` was at every earlier position. -/
theorem exists_of_le (h : Replays log k' sc') (hk : k ≤ k') :
    ∃ sc : ShardCtrler N γ, Replays log k sc ∧ sc.configs <+: sc'.configs := by
  induction hk generalizing sc' with
  | refl => exact ⟨sc', h, List.prefix_rfl⟩
  | step _ ih =>
    obtain ⟨d, op, o, hprev, -, -, hstep⟩ := h.succ_cases
    obtain ⟨sc, hsc, hle⟩ := ih hprev
    refine ⟨sc, hsc, hle.trans ?_⟩
    rcases ShardCtrler.applyLoop_cases hstep with
      ⟨-, rfl⟩ | ⟨-, -, ⟨-, hconfigs, -⟩ | ⟨-, -, -, nc, -, hconfigs⟩⟩
    · exact List.prefix_rfl
    · rw [hconfigs]
    · rw [hconfigs]
      exact List.prefix_append _ _

/-- Configurations are only ever added. -/
theorem configs_mono (h : Replays log k sc) (h' : Replays log k' sc') (hk : k ≤ k') :
    sc.configs <+: sc'.configs := by
  obtain ⟨d, hd, hle⟩ := h'.exists_of_le hk
  exact h.deterministic hd ▸ hle

/-- Every configuration stands at its number. -/
theorem num_eq (h : Replays log k sc) {i : Nat} {cfg : Config N γ}
    (hi : sc.configs[i]? = some cfg) : cfg.num = i := by
  induction h generalizing i cfg with
  | start =>
    obtain ⟨hlt, rfl⟩ := List.getElem?_eq_some_iff.mp hi
    have hzero : i = 0 := Nat.lt_one_iff.mp hlt
    subst hzero
    rfl
  | @next k sc sc' op o _ _ _ hstep ih =>
    rcases ShardCtrler.applyLoop_cases hstep with
      ⟨-, rfl⟩ | ⟨-, -, ⟨-, hconfigs, -⟩ | ⟨-, -, -, nc, hnc, hconfigs⟩⟩
    · exact ih hi
    · rw [hconfigs] at hi
      exact ih hi
    · rw [hconfigs] at hi
      by_cases hlt : i < sc.configs.length
      · rw [List.getElem?_append_left hlt] at hi
        exact ih hi
      · have hlen := (List.getElem?_eq_some_iff.mp hi).1
        rw [List.length_append, List.length_singleton] at hlen
        have hieq : i = sc.configs.length := by omega
        subst hieq
        rw [List.getElem?_concat_length, Option.some.injEq] at hi
        subst hi
        have hpos := List.length_pos_iff.mpr sc.configs_ne
        rw [(nextConfig_fields hnc).1, ih sc.getElem?_current]
        omega
  | again hprev hi' _ hstep ih =>
    cases hprev.applyLoop_again hi' hstep
    exact ih hi

/-- An answer with the number that was asked for is that configuration. -/
theorem configAt_eq (h : Replays log k sc) {n : Nat} (hn : (sc.configAt n).num = n) :
    sc.configs[n]? = some (sc.configAt n) := by
  have hat : sc.configAt n = (sc.configs[n]?).getD sc.current := by
    rw [ShardCtrler.configAt, if_neg (Int.not_lt.mpr (Int.natCast_nonneg n)), Int.toNat_natCast]
  rw [hat] at hn ⊢
  cases hcfg : sc.configs[n]? with
  | some cfg => rfl
  | none =>
    -- the latest configuration has a smaller number
    rw [hcfg, Option.getD_none, h.num_eq sc.getElem?_current] at hn
    have hle := List.getElem?_eq_none_iff.mp hcfg
    have hpos := List.length_pos_iff.mpr sc.configs_ne
    omega

/-- Configuration 0 is the one that `StartServer` makes. -/
theorem configs_zero (h : Replays log k sc) :
    sc.configs[0]? = some { num := 0, shards := fun _ => 0, groups := ∅ } := by
  obtain ⟨d, hd, more, hmore⟩ := h.exists_of_le (Nat.zero_le k)
  rw [hd.eq_start] at hmore
  rw [← hmore]
  rfl

/-- A log that grows does not change what was made of it. -/
theorem append (h : Replays log k sc) (more : List (Op γ)) : Replays (log ++ more) k sc := by
  have hget : ∀ {i : Nat} {op : Op γ}, log[i]? = some op → (log ++ more)[i]? = some op := by
    intro i op hop
    rw [List.getElem?_append_left (List.getElem?_eq_some_iff.mp hop).1]
    exact hop
  induction h with
  | start => exact .start
  | next _ hop ho hstep ih => exact ih.next (hget hop) ho hstep
  | again _ hi hop hstep ih => exact ih.again hi (hget hop) hstep

end Replays

/-! ### Evaluating a replica -/

instance (o : MapOrders γ) (args : Args γ) :
    Decidable (∀ servers, args = .join servers → Enumerates o.servers servers) :=
  match args with
  | .join servers => decidable_of_iff (Enumerates o.servers servers) (by simp)
  | .leave _ => isTrue (by simp)
  | .move _ _ => isTrue (by simp)
  | .query _ => isTrue (by simp)

instance (o : MapOrders γ) (args : Args γ) (last : Config N γ) :
    Decidable (o.Possible args last) :=
  inferInstanceAs (Decidable (_ ∧ _ ∧ _))

/-- Hand a replica the commands of the log from number `k` on, with the order of
    its ranges at each. -/
def replay (log : List (Op γ)) (k : Nat) (sc : ShardCtrler N γ) :
    List (MapOrders γ) → Option (ShardCtrler N γ)
  | [] => some sc
  | o :: orders =>
    match log[k]? with
    | none => none
    | some op =>
      if o.Possible op.args sc.current then
        match sc.applyLoop o (k + 1) op with
        | .ok sc' => replay log (k + 1) sc' orders
        | .error _ => none
      else none

theorem Replays.replay {log : List (Op γ)} {orders : List (MapOrders γ)} {k : Nat}
    {sc sc' : ShardCtrler N γ} (h : Replays log k sc)
    (hrun : Ctrl.replay log k sc orders = some sc') : Replays log (k + orders.length) sc' := by
  induction orders generalizing k sc with
  | nil =>
    cases hrun
    exact h
  | cons o orders ih =>
    unfold Ctrl.replay at hrun
    split at hrun
    · cases hrun
    · next op hop =>
      split at hrun
      · next ho =>
        split at hrun
        · next d hstep =>
          rw [List.length_cons, Nat.add_comm orders.length, ← Nat.add_assoc]
          exact ih (h.next hop ho hstep) hrun
        · cases hrun
      · cases hrun

/-- A check on the end of an evaluated replay. -/
theorem exists_replays_of_replay (log : List (Op γ)) (orders : List (MapOrders γ))
    (P : ShardCtrler N γ → Bool) (h : (replay log 0 .start orders).any P = true) :
    ∃ sc : ShardCtrler N γ, Replays log orders.length sc ∧ P sc = true := by
  cases hrun : replay log 0 (.start : ShardCtrler N γ) orders with
  | none => simp [hrun] at h
  | some sc =>
    rw [hrun] at h
    have hsc := Replays.start.replay hrun
    rw [Nat.zero_add] at hsc
    exact ⟨sc, hsc, h⟩

/-! ### The duplicate table -/

namespace Replays

variable {log : List (Op γ)} {k : Nat} {sc : ShardCtrler N γ}

/-- The number recorded for a client is the highest of its mutations. -/
theorem dedup_spec (h : Replays log k sc) (c : Int) :
    (∀ last, sc.dedup c = some last → ∃ (p : Nat) (op : Op γ), p < k ∧ log[p]? = some op ∧
      op.args.isQuery = false ∧ op.clientId = c ∧ op.seq = last) ∧
    ∀ (p : Nat) (op : Op γ), p < k → log[p]? = some op → op.args.isQuery = false →
      op.clientId = c → ∃ last, sc.dedup c = some last ∧ op.seq ≤ last := by
  induction h with
  | start =>
    refine ⟨fun last hlast => ?_, fun p op hp => ?_⟩
    · cases hlast
    · cases hp
  | @next k sc sc' op o hprev hop _ hstep ih =>
    obtain ⟨ihmax, ihle⟩ := ih
    have hlast := hprev.lastApplied_eq
    rcases ShardCtrler.applyLoop_cases hstep with
      ⟨hle, -⟩ | ⟨-, -, ⟨hskip, -, hdedup⟩ | ⟨hq, hfresh, hdedup, -⟩⟩
    · omega
    · -- A query, or a mutation with a number that is not new.
      rw [hdedup]
      refine ⟨fun last hl => ?_, fun p op' hp hop' hq' hc' => ?_⟩
      · obtain ⟨p, op', hp, hrest⟩ := ihmax last hl
        exact ⟨p, op', Nat.lt_succ_of_lt hp, hrest⟩
      · rcases Nat.lt_succ_iff_lt_or_eq.mp hp with hp | rfl
        · exact ihle p op' hp hop' hq' hc'
        · rw [hop] at hop'
          cases hop'
          have hold : ¬ sc.Fresh op := hskip.resolve_left (by simp [hq'])
          simp only [ShardCtrler.Fresh, not_forall, not_lt] at hold
          obtain ⟨last, hl, hle⟩ := hold
          exact ⟨last, hc' ▸ hl, hle⟩
    · rw [hdedup]
      by_cases hc : c = op.clientId
      · subst hc
        rw [Function.update_self]
        refine ⟨fun last hl => ?_, fun p op' hp hop' hq' hc' => ?_⟩
        · cases hl
          exact ⟨k, op, Nat.lt_succ_self k, hop, hq, rfl, rfl⟩
        · refine ⟨op.seq, rfl, ?_⟩
          rcases Nat.lt_succ_iff_lt_or_eq.mp hp with hp | rfl
          · obtain ⟨last, hl, hle⟩ := ihle p op' hp hop' hq' hc'
            exact hle.trans (hfresh last hl).le
          · rw [hop] at hop'
            cases hop'
            exact le_refl _
      · rw [Function.update_of_ne hc]
        refine ⟨fun last hl => ?_, fun p op' hp hop' hq' hc' => ?_⟩
        · obtain ⟨p, op', hp, hrest⟩ := ihmax last hl
          exact ⟨p, op', Nat.lt_succ_of_lt hp, hrest⟩
        · rcases Nat.lt_succ_iff_lt_or_eq.mp hp with hp | rfl
          · exact ihle p op' hp hop' hq' hc'
          · rw [hop] at hop'
            cases hop'
            exact absurd hc'.symm hc
  | again hprev hi _ hstep ih =>
    cases hprev.applyLoop_again hi hstep
    exact ih

/-- A command is fresh if every mutation of its client before it has a smaller
    number. -/
theorem fresh_iff (h : Replays log k sc) (op : Op γ) :
    sc.Fresh op ↔ ∀ (p : Nat) (op' : Op γ), p < k → log[p]? = some op' →
      op'.args.isQuery = false → op'.clientId = op.clientId → op'.seq < op.seq := by
  obtain ⟨hmax, hle⟩ := h.dedup_spec op.clientId
  constructor
  · intro hfresh p op' hp hop' hq hc
    obtain ⟨last, hlast, hseq⟩ := hle p op' hp hop' hq hc
    exact lt_of_le_of_lt hseq (hfresh last hlast)
  · intro hall last hlast
    obtain ⟨p, op', hp, hop', hq, hc, rfl⟩ := hmax last hlast
    exact hall p op' hp hop' hq hc

end Replays

/-! ### Mutations of the clerks -/

/-- Command `p` of the log adds a configuration. -/
def Adds (N : Nat) (log : List (Op γ)) (p : Nat) : Prop :=
  ∃ (sc sc' : ShardCtrler N γ) (nc : Config N γ), Replays log p sc ∧ Replays log (p + 1) sc' ∧
    sc'.configs = sc.configs ++ [nc]

theorem Replays.adds_iff {log : List (Op γ)} {k p : Nat} {sc' : ShardCtrler N γ}
    (h : Replays log k sc') (hp : p < k) {op : Op γ} (hop : log[p]? = some op) :
    Adds N log p ↔ op.args.isQuery = false ∧ ∀ (q : Nat) (op' : Op γ), q < p →
      log[q]? = some op' → op'.args.isQuery = false → op'.clientId = op.clientId →
      op'.seq < op.seq := by
  obtain ⟨d', hd', -⟩ := h.exists_of_le (Nat.succ_le_of_lt hp)
  obtain ⟨d, op', o, hd, hop', -, hstep⟩ := hd'.succ_cases
  rw [hop] at hop'
  cases hop'
  rw [← hd.fresh_iff]
  have hlast := hd.lastApplied_eq
  constructor
  · rintro ⟨sc, sc', nc, hsc, hsc', hadd⟩
    cases hd.deterministic hsc
    cases hd'.deterministic hsc'
    rcases ShardCtrler.applyLoop_cases hstep with
      ⟨hle, -⟩ | ⟨-, -, ⟨-, hsame, -⟩ | ⟨hq, hfresh, -⟩⟩
    · omega
    · rw [hsame] at hadd
      have hlen := congrArg List.length hadd
      simp at hlen
    · exact ⟨hq, hfresh⟩
  · rintro ⟨hq, hfresh⟩
    rcases ShardCtrler.applyLoop_cases hstep with
      ⟨hle, -⟩ | ⟨-, -, ⟨hskip, -⟩ | ⟨-, -, -, nc, -, hadd⟩⟩
    · omega
    · rcases hskip with hskip | hskip
      · rw [hq] at hskip
        cases hskip
      · exact absurd hfresh hskip
    · exact ⟨d, d', nc, hd, hd', hadd⟩

/-- A mutation of a clerk adds a configuration where it is first logged, and
    nowhere else. -/
theorem Replays.adds_once {log : List (Op γ)} {k : Nat} {sc : ShardCtrler N γ}
    (h : Replays log k sc) {op : Op γ} (hop : op ∈ log.take k) (hq : op.args.isQuery = false)
    (hclerk : OneCallAtATime op.clientId log) :
    ∃! p, Adds N log p ∧ ∃ op', log[p]? = some op' ∧ op'.clientId = op.clientId ∧
      op'.seq = op.seq := by
  classical
  obtain ⟨p₀, hp₀, hop₀⟩ := mem_take_iff.mp hop
  have hlogged : ∃ p : Nat, log[p]? = some op := ⟨p₀, hop₀⟩
  have hfirst := Nat.find_spec hlogged
  have hlt : Nat.find hlogged < k := lt_of_le_of_lt (Nat.find_min' hlogged hop₀) hp₀
  refine ⟨Nat.find hlogged, ⟨?_, op, hfirst, rfl, rfl⟩, ?_⟩
  · refine (h.adds_iff hlt hfirst).mpr ⟨hq, fun q op' hqp hop' _ hc => ?_⟩
    -- The same call or a later one would have had this call before it.
    rcases lt_trichotomy op'.seq op.seq with hseq | hseq | hseq
    · exact hseq
    · have heq := hclerk.same_call op' (List.mem_of_getElem? hop') op
        (List.mem_of_getElem? hfirst) hc rfl hseq
      exact absurd (heq ▸ hop') (Nat.find_min hlogged hqp)
    · obtain ⟨i, hi, hop⟩ := hclerk.answered _ _ op op' hfirst hop' rfl hc hseq
      exact absurd hop (Nat.find_min hlogged (hi.trans hqp))
  · rintro p ⟨hadds, op', hop', hc, hseq⟩
    have heq := hclerk.same_call op' (List.mem_of_getElem? hop') op
      (List.mem_of_getElem? hfirst) hc rfl hseq
    subst heq
    by_contra hne
    have hbefore : Nat.find hlogged < p :=
      lt_of_le_of_ne (Nat.find_min' hlogged hop') (Ne.symm hne)
    obtain ⟨-, sc', -, -, hsc', -⟩ := id hadds
    have hall := ((hsc'.adds_iff (Nat.lt_succ_self p) hop').mp hadds).2
    exact lt_irrefl _ (hall _ op' hbefore hfirst hq rfl)

/-- Configuration `n` is the same for everyone and for ever, and every mutation of
    a clerk makes one. -/
theorem configs_agree (log : List (Op γ)) {k k' : Nat} {sc sc' : ShardCtrler N γ}
    (h : Replays log k sc) (h' : Replays log k' sc') :
    (sc.configs <+: sc'.configs ∨ sc'.configs <+: sc.configs) ∧
    (k ≤ k' → sc.configs <+: sc'.configs) ∧
    (∀ (i : Nat) (cfg : Config N γ), sc.configs[i]? = some cfg → cfg.num = i) ∧
    ∀ op ∈ log.take k, op.args.isQuery = false → OneCallAtATime op.clientId log →
      ∃! p, Adds N log p ∧ ∃ op', log[p]? = some op' ∧ op'.clientId = op.clientId ∧
        op'.seq = op.seq := by
  refine ⟨?_, h.configs_mono h', fun i cfg => h.num_eq, fun op hop hq => h.adds_once hop hq⟩
  rcases Nat.le_total k k' with hk | hk
  · exact .inl (h.configs_mono h' hk)
  · exact .inr (h'.configs_mono h hk)

/-- A `Join` of group 3 that is logged twice, and a `Move` after it. -/
def joinTwice : List (Op Int) :=
  let join : Op Int := { args := .join (Finmap.singleton 3 [[]]), clientId := 7, seq := 1 }
  [join, join, { args := .move 1 3, clientId := 7, seq := 2 }]

theorem configs_agree_joinTwice : ∃ sc sc' : ShardCtrler 2 Int,
    Replays joinTwice 1 sc ∧ Replays joinTwice 3 sc' ∧ sc.configs <+: sc'.configs ∧
      ∃! p, Adds 2 joinTwice p ∧ ∃ op', joinTwice[p]? = some op' ∧ op'.clientId = 7 ∧
        op'.seq = 1 := by
  have hrun : (clerkSystem Int).run System.anyStep (clerkSystem Int).init
      [.call 7 (.join (Finmap.singleton 3 [[]])) 0, .logged 0, .logged 0,
        .call 7 (.move 1 3) 0, .logged 1] = some { calls := _, sent := _, log := joinTwice } := rfl
  have hclerk : OneCallAtATime 7 joinTwice := Clerks.oneCallAtATime (System.reaches_of_run hrun) 7
  obtain ⟨sc, hsc, -⟩ := exists_replays_of_replay (N := 2) joinTwice [⟨[], [3], [3]⟩]
    (fun _ => true) (by decide +kernel)
  obtain ⟨sc', hsc', -⟩ := exists_replays_of_replay (N := 2) joinTwice
    [⟨[], [3], [3]⟩, ⟨[3], [3], [3]⟩, ⟨[3], [], [3]⟩] (fun _ => true) (by decide +kernel)
  obtain ⟨-, hle, -, honce⟩ := configs_agree joinTwice hsc hsc'
  exact ⟨sc, sc', hsc, hsc', hle (by decide), honce _ List.mem_cons_self rfl hclerk⟩

/-! ### Well-formed configurations -/

/-- A replica gets on with a command if a new configuration can be made. -/
theorem ShardCtrler.applyLoop_ok {o : MapOrders γ} {sc : ShardCtrler N γ} {op : Op γ}
    {nc : Config N γ} (h : sc.Fresh op → nextConfig o op.args sc.current = .ok nc)
    (index : Nat) : ∃ sc', sc.applyLoop o index op = .ok sc' := by
  unfold applyLoop
  dsimp only
  split
  · exact ⟨_, rfl⟩
  · split
    · exact ⟨_, rfl⟩
    · split
      · next hfresh =>
        unfold applyMutation
        change ∃ sc', (nextConfig o op.args sc.current >>= _) >>= _ = _
        rw [h hfresh]
        exact ⟨_, rfl⟩
      · exact ⟨_, rfl⟩

/-- No `Join` names the invalid group. -/
def JoinsNonZero (ops : List (Op γ)) : Prop :=
  ∀ op ∈ ops, ∀ servers, op.args = .join servers → (0 : γ) ∉ servers

/-- Every `Move` that comes to be executed is valid. -/
def MovesValid (N : Nat) (ops : List (Op γ)) : Prop :=
  ∀ (k : Nat) (sc : ShardCtrler N γ) (op : Op γ), Replays ops k sc → ops[k]? = some op →
    sc.Fresh op → op.args.Valid sc.current

/-- No operation makes a replica panic or hang, and all configurations are well
    formed. -/
def Safe (N : Nat) (ops : List (Op γ)) : Prop :=
  ∀ (k : Nat) (sc : ShardCtrler N γ), Replays ops k sc →
    (∀ cfg ∈ sc.configs, cfg.WellFormed) ∧
    ∀ (op : Op γ) (o : MapOrders γ), ops[k]? = some op → o.Possible op.args sc.current →
      ∃ sc', sc.applyLoop o (k + 1) op = .ok sc'

theorem Replays.wellFormed {ops : List (Op γ)} (hjoin : JoinsNonZero ops)
    (hmove : MovesValid N ops) {k : Nat} {sc : ShardCtrler N γ} (h : Replays ops k sc) :
    ∀ cfg ∈ sc.configs, cfg.WellFormed ∧ (0 : γ) ∉ cfg.groups := by
  induction h with
  | start =>
    intro cfg hcfg
    cases List.mem_singleton.mp hcfg
    exact ⟨fun s => by simp, Finmap.notMem_empty⟩
  | @next k sc sc' op o hprev hop ho hstep ih =>
    rcases ShardCtrler.applyLoop_cases hstep with
      ⟨-, rfl⟩ | ⟨-, -, ⟨-, hconfigs, -⟩ | ⟨-, hfresh, -, nc, hnc, hconfigs⟩⟩
    · exact ih
    · rw [hconfigs]
      exact ih
    · obtain ⟨hwf, h0⟩ := ih _ sc.current_mem
      obtain ⟨nc', hnc', hgood⟩ := nextConfig_wellFormed ho h0 hwf
        (hjoin op (List.mem_of_getElem? hop)) (hmove k sc op hprev hop hfresh)
      rw [hnc] at hnc'
      cases hnc'
      rw [hconfigs]
      intro cfg hcfg
      rcases List.mem_append.mp hcfg with hcfg | hcfg
      · exact ih cfg hcfg
      · cases List.mem_singleton.mp hcfg
        exact hgood
  | again hprev hi _ hstep ih =>
    cases hprev.applyLoop_again hi hstep
    exact ih

/-- The configurations are well formed, and nothing panics, exactly if every
    `Move` names a shard and a group that exist when it is executed. -/
theorem safe_iff_movesValid (ops : List (Op γ)) (hjoin : JoinsNonZero ops) :
    Safe N ops ↔ MovesValid N ops := by
  constructor
  · intro hsafe k sc op hsc hop hfresh
    cases hargs : op.args with
    | join servers => trivial
    | leave gids => trivial
    | query num => trivial
    | move shard gid =>
      rw [← hargs]
      have hq : op.args.isQuery = false := by rw [hargs]; rfl
      obtain ⟨o, ho⟩ := exists_possible op.args sc.current
      obtain ⟨sc', hstep⟩ := (hsafe k sc hsc).2 op o hop ho
      have hlast := hsc.lastApplied_eq
      rcases ShardCtrler.applyLoop_cases hstep with
        ⟨hle, -⟩ | ⟨-, -, ⟨hskip, -⟩ | ⟨-, -, -, nc, hnc, hconfigs⟩⟩
      · omega
      · rcases hskip with hskip | hskip
        · rw [hq] at hskip
          cases hskip
        · exact absurd hfresh hskip
      · refine valid_of_nextConfig ho hnc ((hsafe (k + 1) sc' (hsc.next hop ho hstep)).1 nc ?_)
        rw [hconfigs]
        exact List.mem_append_right _ (List.mem_singleton_self nc)
  · intro hmove k sc hsc
    have hwf := hsc.wellFormed hjoin hmove
    refine ⟨fun cfg hcfg => (hwf cfg hcfg).1, fun op o hop ho => ?_⟩
    by_cases hfresh : sc.Fresh op
    · obtain ⟨hcur, h0⟩ := hwf _ sc.current_mem
      obtain ⟨nc, hnc, -⟩ := nextConfig_wellFormed ho h0 hcur
        (hjoin op (List.mem_of_getElem? hop)) (hmove k sc op hsc hop hfresh)
      exact ShardCtrler.applyLoop_ok (fun _ => hnc) (k + 1)
    · have hskip : sc.Fresh op → nextConfig o op.args sc.current = .ok sc.current :=
        fun h => absurd h hfresh
      exact ShardCtrler.applyLoop_ok hskip (k + 1)

/-- A `Join` of group 3, then a `Move`. -/
def joinMove (shard gid : Int) : List (Op Int) :=
  [{ args := .join (Finmap.singleton 3 [[]]), clientId := 7, seq := 1 },
    { args := .move shard gid, clientId := 7, seq := 2 }]

theorem joinsNonZero_joinMove (shard gid : Int) : JoinsNonZero (joinMove shard gid) := by
  intro op hop servers hargs
  simp only [joinMove, List.mem_cons, List.not_mem_nil, or_false] at hop
  rcases hop with rfl | rfl
  · cases hargs
    decide
  · cases hargs

/-- Group 9 never joined, and there is no shard 10. -/
theorem joinMove_not_safe :
    JoinsNonZero (joinMove 0 9) ∧ ¬ Safe NShards (joinMove 0 9) ∧
      JoinsNonZero (joinMove 10 3) ∧ ¬ Safe NShards (joinMove 10 3) := by
  refine ⟨joinsNonZero_joinMove 0 9, fun hsafe => ?_, joinsNonZero_joinMove 10 3, fun hsafe => ?_⟩
  · obtain ⟨sc, hsc, hbad⟩ := exists_replays_of_replay (N := NShards) (joinMove 0 9)
      [⟨[], [3], [3]⟩, ⟨[3], [], [3]⟩] (fun sc => ¬ ∀ cfg ∈ sc.configs, cfg.WellFormed)
      (by decide +kernel)
    exact of_decide_eq_true hbad (hsafe _ sc hsc).1
  · obtain ⟨sc, hsc, hbad⟩ := exists_replays_of_replay (N := NShards) (joinMove 10 3)
      [⟨[], [3], [3]⟩] (fun sc => decide (MapOrders.Possible ⟨[3], [], [3]⟩
        (.move 10 3) sc.current) && (sc.applyLoop ⟨[3], [], [3]⟩ 2
          { args := .move 10 3, clientId := 7, seq := 2 }).toOption.isNone) (by decide +kernel)
    rw [Bool.and_eq_true, decide_eq_true_eq] at hbad
    obtain ⟨sc', hsc'⟩ := (hsafe 1 sc hsc).2 _ _ rfl hbad.1
    have hnone := hbad.2
    rw [hsc'] at hnone
    cases hnone

/-- With valid arguments all is well. -/
theorem safe_iff_movesValid_joinMove :
    JoinsNonZero (joinMove 0 3) ∧ Safe NShards (joinMove 0 3) := by
  refine ⟨joinsNonZero_joinMove 0 3,
    (safe_iff_movesValid _ (joinsNonZero_joinMove 0 3)).mpr fun k sc op hsc hop _ => ?_⟩
  obtain ⟨d, hd, hin⟩ := exists_replays_of_replay (N := NShards) (joinMove 0 3)
    [⟨[], [3], [3]⟩] (fun d => (3 : Int) ∈ d.current.groups) (by decide +kernel)
  match k with
  | 0 =>
    cases hop
    trivial
  | 1 =>
    cases hop
    cases hsc.deterministic hd
    exact ⟨by decide, .inl (of_decide_eq_true hin)⟩

end RaftLabs.Ctrl
