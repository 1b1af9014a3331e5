import RaftLabs.KVRaftRefinement

/-!
# `kvraft` on top of Raft is linearizable, as long as nothing is overtaken

What the refinement says to a client.  As long as no command overtakes a snapshot
on its way to a server, the calls of the clerks are linearizable, and the log that
explains them is what Raft has handed to the servers.  Without that, a `Put` that
was acknowledged can be lost: a server that has dropped a late snapshot becomes
leader and answers a later `Get` from a store that never saw the `Put`.
-/

namespace RaftLabs.KV

open Linearizability ReplicatedService

variable {n : Nat}

/-! ### Linearizability -/

/-- A mutation that has returned has taken effect. -/
theorem ServiceInv.takesEffect {ν : Type} {t : KVService ν} (h : ServiceInv t)
    {i : Nat × Nat} {q : Query} {r : Option Str} (hcall : .invoke i q ∈ t.clients.calls)
    (hreturn : .respond i r ∈ t.clients.calls) (hmut : q.isGet = false) :
    ∃ p op, TakesEffect t.service.log p op ∧ op.id = i ∧ op.query = q := by
  obtain ⟨⟨stamp, _⟩, hcall, rfl⟩ := List.mem_map.mp hcall
  obtain ⟨⟨stamp', _⟩, hreturn, rfl⟩ := List.mem_map.mp hreturn
  obtain ⟨k, e, -, hk, rfl, -⟩ := h.explained.before_respond stamp' i r hreturn
  have he := List.mem_of_getElem? hk
  have hquery := h.explained.same_query _ _ _ (h.explained.asked e he) ⟨stamp, hcall⟩
  obtain ⟨p, op, hp, hop⟩ := mem_effects.mp he
  obtain ⟨hfresh, rfl⟩ := Store.mem_effects.mp hop
  refine ⟨p, op, ⟨hp, ?_, hfresh⟩, rfl, hquery⟩
  rw [← hquery] at hmut
  simpa [Store.effect, Op.isGet_query] using hmut

/-- In every run of clerks, servers and Raft in which no command overtakes a snapshot, and no
    snapshot is accepted while its server starts, the calls of the clerks are
    linearizable.  There is one log, every entry of which Raft has
    handed to a server at its index; every server that runs is the fold of a prefix of it,
    and a mutation that has returned takes effect at one place of it and no other. -/
theorem kvRaft_linearizable (s : KVRaft n) (hs : (kvRaft n).Reachable InOrder s) :
    WellFormed s.clients.calls ∧ Linearizable MapSpec.object s.clients.calls ∧
    ∃ log : List Op,
      (∀ (p : Nat) op, log[p]? = some op →
        ∃ i, (i, ApplyMsg.command op (p + 1)) ∈ s.cluster.raft.emitted) ∧
      (∀ i, (s.cluster.replicas i).loop ≠ .starting →
        (s.cluster.replicas i).reached ≤ log.length ∧
        (s.cluster.replicas i).kv.state =
          machine.run (log.take (s.cluster.replicas i).reached)) ∧
      ∀ i q r, .invoke i q ∈ s.clients.calls → .respond i r ∈ s.clients.calls →
        q.isGet = false →
        ∃ p op, TakesEffect log p op ∧ op.id = i ∧ op.query = q ∧
          ∀ p' op', TakesEffect log p' op' → op'.id = i → p' = p := by
  obtain ⟨t, ht, h⟩ := exists_implements hs
  have hinv := ServiceInv.of_reachable ht
  rw [← h.clients.calls]
  refine ⟨hinv.explained.wellFormed, ?_, t.service.log, h.carries.logged, ?_, ?_⟩
  · exact hinv.explained.linearizable (fun q => q.isGet = true) (legal_effects t.service.log).1
      (effects_once t.service.log) (fun q hq m => MapSpec.next_of_isGet hq m)
  · intro i hrunning
    obtain ⟨hsv, hp⟩ := (h.carries.servers i).eq_of_running hrunning
    have hat := hinv.sound.servers i
    rw [hsv, hp] at hat
    exact ⟨hat.le_length, hat.state⟩
  · intro i q r hcall hreturn hmut
    obtain ⟨p, op, hp, rfl, hquery⟩ := hinv.takesEffect hcall hreturn hmut
    exact ⟨p, op, hp, rfl, hquery, fun p' op' hp' hid => hp'.once hp hid⟩

/-- Server 0 acknowledges `Put(0, 1)`, compacts it and sends the snapshot to server 2.  A
    second command, which server 2 learns of before it is handed the snapshot, is
    committed. -/
def twoPuts : List (KVRaftAction 3) :=
  [.invoke 1 (.put [0] [1]), .cluster (.restore 0), .cluster (.restore 1), .cluster (.restore 2),
    .cluster (.raft (.electionTimeout 0)), .cluster (.raft (.deliver 0)),
    .cluster (.raft (.deliver 2)), .enter 0 0, .start 0, .register 0,
    .cluster (.raft (.replicate 0 1)), .cluster (.raft (.deliver 3)),
    .cluster (.raft (.deliver 4)), .cluster (.raft (.apply 0)), .cluster (.raft (.sendCommand 0)),
    .cluster (.process 0 true), .cluster (.compact 0), .receive 0, .finish 0, .reply 0,
    .cluster (.raft (.replicate 0 2)), .cluster (.raft (.deliver 5)),
    .invoke 2 (.put [1] [1]), .enter 0 2, .start 1, .cluster (.raft (.replicate 0 2)),
    .cluster (.raft (.deliver 6)), .cluster (.raft (.deliver 7)),
    .cluster (.raft (.replicate 0 1)), .cluster (.raft (.deliver 8)),
    .cluster (.raft (.deliver 9)), .cluster (.raft (.replicate 0 2)),
    .cluster (.raft (.deliver 10)), .cluster (.raft (.apply 2))]

/-- Server 2 is elected and answers a `Get`. -/
def readAtTwo : List (KVRaftAction 3) :=
  [.cluster (.raft (.electionTimeout 2)), .cluster (.raft (.deliver 14)),
    .cluster (.raft (.deliver 15)), .invoke 3 (.get [0]), .enter 2 3, .start 2, .register 2,
    .cluster (.raft (.replicate 2 1)), .cluster (.raft (.deliver 16)),
    .cluster (.raft (.deliver 17)), .cluster (.raft (.apply 2)),
    .cluster (.raft (.sendCommand 2)), .cluster (.process 2 false), .receive 2, .finish 2,
    .reply 2]

/-- Server 2 is handed the snapshot and then the command. -/
def snapshotFirst : List (KVRaftAction 3) :=
  twoPuts ++ ([.cluster (.raft (.sendSnapshot 2 0)), .cluster (.process 2 false),
    .cluster (.raft (.sendCommand 2)), .cluster (.process 2 false)] : List (KVRaftAction 3)) ++
    readAtTwo

theorem kvRaft_linearizable_snapshotFirst : ∃ s : KVRaft 3, (kvRaft 3).Reachable InOrder s ∧
    s.clients.calls = [.invoke (1, 1) (.put [0] [1]), .respond (1, 1) none,
      .invoke (2, 1) (.put [1] [1]), .invoke (3, 1) (.get [0]),
      .respond (3, 1) (some [1])] ∧
    Linearizable MapSpec.object s.clients.calls := by
  obtain ⟨s, hs, hcheck⟩ := (kvRaft 3).exists_reachable_of_run InOrder snapshotFirst
    (fun s => decide (s.clients.calls = [.invoke (1, 1) (.put [0] [1]), .respond (1, 1) none,
      .invoke (2, 1) (.put [1] [1]), .invoke (3, 1) (.get [0]),
      .respond (3, 1) (some [1])]))
    (by decide +kernel)
  exact ⟨s, hs, of_decide_eq_true hcheck, (kvRaft_linearizable s hs).2.1⟩

/-! ### A `Put` that is lost -/

/-- A key keeps a value that all writes to it write. -/
theorem after_eq_of_puts {ι : Type} {key value : Str}
    {es : List (Effect ι Query (Option Str))}
    (hputs : ∀ e ∈ es, e.query.key = key → e.query.isGet = false → e.query = .put key value)
    {m : Str → Str} (hm : m key = value) : after MapSpec.object m es key = value := by
  induction es generalizing m with
  | nil => exact hm
  | cons e es ih =>
    refine ih (fun f hf => hputs f (List.mem_cons_of_mem _ hf)) ?_
    change MapSpec.next m e.query key = value
    by_cases hkey : e.query.key = key
    · cases hget : e.query.isGet with
      | true =>
        rw [MapSpec.next_of_isGet hget]
        exact hm
      | false =>
        rw [hputs e (List.mem_cons_self ..) hkey hget]
        exact Function.update_self ..
    · rw [MapSpec.next_of_ne (Ne.symm hkey)]
      exact hm

/-- A history is not linearizable if a `Get` that was called after the only `Put` to its key
    had returned answers something else. -/
theorem not_linearizable_of_lost {ι : Type} {history : List (Event ι Query (Option Str))}
    (i j : ι) (key value read : Str) {r : Option Str}
    (hputs : ∀ x q, .invoke x q ∈ history → q.key = key → q.isGet = false →
      q = .put key value)
    (hput : ∀ q, .invoke i q ∈ history → q = .put key value)
    (hget : ∀ q, .invoke j q ∈ history → q = .get key)
    (hreturn : .respond i r ∈ history) (hread : .respond j (some read) ∈ history)
    (hbefore : Precedes history i j) (hne : read ≠ value) :
    ¬ Linearizable MapSpec.object history := by
  rintro ⟨order, -, hinvoked, hanswered, hlegal, hreal⟩
  obtain ⟨e, he, rfl, -⟩ := hanswered i r hreturn
  obtain ⟨f, hf, rfl, hanswer⟩ := hanswered j _ hread
  obtain ⟨a, ha⟩ := List.mem_iff_getElem?.mp he
  obtain ⟨b, hb⟩ := List.mem_iff_getElem?.mp hf
  have hlt := hreal a b e f ha hb hbefore
  -- the order is cut at the `Put` and, after it, at the `Get`
  obtain ⟨xs, ys, zs, rfl⟩ : ∃ xs ys zs, order = xs ++ e :: (ys ++ f :: zs) := by
    obtain ⟨hb', rfl⟩ := List.getElem?_eq_some_iff.mp hb
    obtain ⟨ha', rfl⟩ := List.getElem?_eq_some_iff.mp ha
    refine ⟨order.take a, (order.drop (a + 1)).take (b - (a + 1)), order.drop (b + 1), ?_⟩
    have hmid : (order.drop (a + 1)).drop (b - (a + 1)) = order[b] :: order.drop (b + 1) := by
      rw [List.drop_drop, Nat.add_sub_cancel' hlt, List.drop_eq_getElem_cons hb']
    rw [← hmid, List.take_append_drop, ← List.drop_eq_getElem_cons ha', List.take_append_drop]
  rw [legal_append] at hlegal
  obtain ⟨-, -, hlegal⟩ := hlegal
  rw [legal_append] at hlegal
  obtain ⟨-, hlast, -⟩ := hlegal
  have hkept : after MapSpec.object (MapSpec.object.next
      (after MapSpec.object MapSpec.object.init xs) e.query) ys key = value := by
    refine after_eq_of_puts (fun x hx => hputs x.id x.query (hinvoked x (by simp [hx]))) ?_
    rw [hput e.query (hinvoked e he)]
    exact Function.update_self ..
  rw [hget f.query (hinvoked f hf), hanswer] at hlast
  exact hne ((Option.some.inj hlast).trans hkept)

/-- Server 2 is handed the command and then the snapshot. -/
def commandFirst : List (KVRaftAction 3) :=
  twoPuts ++ ([.cluster (.raft (.sendCommand 2)), .cluster (.process 2 false),
    .cluster (.raft (.sendSnapshot 2 0)), .cluster (.process 2 false)] : List (KVRaftAction 3)) ++
    readAtTwo

/-- When a command overtakes a snapshot the clerks can see it: a run in which a `Put` is
    acknowledged and a `Get` of the same key that is called later finds nothing, so that the
    calls are not linearizable. -/
theorem kvRaft_loses_put : ∃ s : KVRaft 3, (kvRaft 3).Reachable System.anyStep s ∧
    s.clients.calls = [.invoke (1, 1) (.put [0] [1]), .respond (1, 1) none,
      .invoke (2, 1) (.put [1] [1]), .invoke (3, 1) (.get [0]), .respond (3, 1) (some [])] ∧
    ¬ Linearizable MapSpec.object s.clients.calls := by
  obtain ⟨s, hs, hcheck⟩ := (kvRaft 3).exists_reachable_of_run System.anyStep commandFirst
    (fun s => decide (s.clients.calls = [.invoke (1, 1) (.put [0] [1]), .respond (1, 1) none,
      .invoke (2, 1) (.put [1] [1]), .invoke (3, 1) (.get [0]), .respond (3, 1) (some [])]))
    (by decide +kernel)
  have hcalls := of_decide_eq_true hcheck
  refine ⟨s, hs, hcalls, ?_⟩
  rw [hcalls]
  refine not_linearizable_of_lost (1, 1) (3, 1) [0] [1] [] (r := none) ?_ ?_ ?_ (by simp)
    (by simp) ?_ (by simp)
  · intro x q hq hkey hmut
    simp only [List.mem_cons, Event.invoke.injEq, reduceCtorEq, List.not_mem_nil, or_false,
      false_or] at hq
    rcases hq with ⟨-, rfl⟩ | ⟨-, rfl⟩ | ⟨-, rfl⟩
    · rfl
    · exact absurd hkey (by decide)
    · cases hmut
  · intro q hq
    simpa using hq
  · intro q hq
    simpa using hq
  · exact ⟨[.invoke (1, 1) (.put [0] [1]), .respond (1, 1) none],
      [.invoke (2, 1) (.put [1] [1]), .invoke (3, 1) (.get [0]), .respond (3, 1) (some [])],
      none, .get [0], rfl, by simp, by simp⟩

end RaftLabs.KV
