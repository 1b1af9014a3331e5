import RaftLabs.RaftBounds

/-!
# Rejections that come late

A leader keeps two indices for a peer.  `matchIndex` is what the peer has
acknowledged, `nextIndex` where the next request starts.  `replicateTo` compares a
success or an answered snapshot with `matchIndex` before it moves the two; the branch
for a rejection sets `nextIndex` without such a comparison.

Several requests to one peer can be under way at once, so a rejection may come
after a later request was acknowledged.  It then takes `nextIndex` back below what
the peer holds, and the leader sends that again, or a whole snapshot the peer has.
The order of the two indices holds as long as rejections are taken only from peers
that have acknowledged nothing yet in the leader's term.
-/

namespace RaftLabs

variable {n : Nat} {C D : Type}

/-- The leader and the peer of a rejection that the step makes the leader act on. -/
def Cluster.rejection? (c : Cluster n C D) : Action n C D → Option (Fin n × Fin n)
  | .deliver k =>
    match c.packets[k]? with
    | some (.appendReply l s args reply) =>
      if (c.servers l).rf.role = .leader ∧ (c.servers l).rf.currentTerm = args.term ∧
          reply.term ≤ args.term ∧ reply.success = false then some (l, s)
      else none
    | _ => none
  | _ => none

/-- A rejection is acted on only if its peer has acknowledged nothing in this term. -/
def RejectsFirst (c : Cluster n C D) (act : Action n C D) : Prop :=
  ∀ p ∈ c.rejection? act, (c.servers p.1).rf.matchIndex p.2 = 0

instance (c : Cluster n C D) (act : Action n C D) : Decidable (RejectsFirst c act) :=
  inferInstanceAs (Decidable (∀ p ∈ c.rejection? act, (c.servers p.1).rf.matchIndex p.2 = 0))

theorem RejectsFirst.matchIndex_eq {c : Cluster n C D} {k : Nat} {l s : Fin n}
    {args : AppendEntriesArgs n C} {reply : AppendEntriesReply}
    (h : RejectsFirst c (.deliver k)) (hpacket : c.packets[k]? = some (.appendReply l s args reply))
    (hrole : (c.servers l).rf.role = .leader) (hterm : (c.servers l).rf.currentTerm = args.term)
    (hle : reply.term ≤ args.term) (hno : reply.success = false) :
    (c.servers l).rf.matchIndex s = 0 := by
  refine h (l, s) ?_
  simp only [Cluster.rejection?, hpacket]
  rw [if_pos ⟨hrole, hterm, hle, hno⟩]
  rfl

variable [Inhabited C] [Inhabited D] {c : Cluster n C D}

theorem matchIndex_lt_nextIndex (hc : (cluster n C D).Reachable RejectsFirst c) :
    ∀ l, (c.servers l).rf.role = .leader → ∀ s,
      (c.servers l).rf.matchIndex s + 1 ≤ (c.servers l).rf.nextIndex s := by
  refine hc.invariant (P := fun c => ∀ l, (c.servers l).rf.role = .leader → ∀ s,
      (c.servers l).rf.matchIndex s + 1 ≤ (c.servers l).rf.nextIndex s) ?_ ?_
  · intro l hrole
    cases hrole
  intro c act c' hc ih hfirst hst l hrole' s
  obtain ⟨a, ha⟩ := exists_refines hc
  -- both indices of one peer set together, those of the others as before
  have hset : (c.servers l).rf.role = .leader → ∀ t v,
      (c'.servers l).rf.nextIndex = Function.update (c.servers l).rf.nextIndex t (v + 1) →
      (c'.servers l).rf.matchIndex = Function.update (c.servers l).rf.matchIndex t v →
      (c'.servers l).rf.matchIndex s + 1 ≤ (c'.servers l).rf.nextIndex s := by
    intro hrole t v hnext hmatch
    rw [hnext, hmatch, Function.update_apply, Function.update_apply]
    split
    · exact le_rfl
    · exact ih l hrole s
  cases ha.leading hst hrole' with
  | kept _ _ hrole _ hnext hmatch =>
    rw [hnext, hmatch]
    exact ih l hrole s
  | elected _ _ hnext hmatch =>
    rw [hnext, hmatch]
    exact Nat.add_le_add_right (Nat.zero_le _) 1
  | acknowledged k t args reply _ _ hrole _ _ _ _ hnext hmatch =>
    exact hset hrole t _ hnext hmatch
  | installed k t args reply _ _ hrole _ _ _ hnext hmatch =>
    exact hset hrole t _ hnext hmatch
  | rejected k t args reply _ hpacket hrole hargs hle hno hrun =>
    have hzero := hfirst.matchIndex_eq hpacket hrole hargs hle hno
    obtain ⟨v, hpos, -, hst'⟩ := exists_backup hc (List.mem_of_getElem? hpacket) hno hle
      hrole hargs
    have heq := Option.some.inj (hrun.symm.trans hst')
    have hnext : (c'.servers l).rf.nextIndex =
        Function.update (c.servers l).rf.nextIndex t v := by rw [heq]
    have hmatch : (c'.servers l).rf.matchIndex = (c.servers l).rf.matchIndex := by rw [heq]
    rw [hnext, hmatch, Function.update_apply]
    split
    · rename_i hs
      rw [hs, hzero]
      exact hpos
    · exact ih l hrole s

/-- While rejections come before acknowledgements, the next request to a peer starts
    above what the peer has acknowledged: neither entries nor a snapshot it has
    acknowledged are sent again. -/
theorem acknowledged_not_resent (hc : (cluster n C D).Reachable RejectsFirst c) {l : Fin n}
    (hrole : (c.servers l).rf.role = .leader) (s : Fin n) :
    (c.servers l).rf.matchIndex s + 1 ≤ (c.servers l).rf.nextIndex s ∧
    (∀ args, (c.servers l).rf.replicateTo s (c.servers l).rf.currentTerm =
        some (some (.appendEntries args)) →
      (c.servers l).rf.matchIndex s ≤ args.prevLogIndex) ∧
    ∀ args, (c.servers l).rf.replicateTo s (c.servers l).rf.currentTerm =
        some (some (.installSnapshot args)) →
      (c.servers l).rf.matchIndex s < args.lastIncludedIndex := by
  have hlt := matchIndex_lt_nextIndex hc l hrole s
  obtain ⟨a, ha⟩ := exists_refines hc
  refine ⟨hlt, ?_, ?_⟩
  · intro args hsend
    obtain h | ⟨-, -, h⟩ | ⟨-, -, -, h⟩ := (ha.servers l).wf.replicateTo_cases hsend
    · cases h
    · cases h
    · cases h
      exact Nat.le_sub_of_add_le hlt
  · intro args hsend
    obtain h | ⟨-, hnext, h⟩ | ⟨-, -, -, h⟩ := (ha.servers l).wf.replicateTo_cases hsend
    · cases h
    · cases h
      exact Nat.lt_of_succ_le (hlt.trans hnext)
    · cases h

/-- Server 1 follows server 0 in term 1 and leads term 2, with two requests to
    server 2 under way at once.  Server 2 has an empty log and rejects both; the
    first rejection is taken, the next request is acknowledged up to index 3. -/
def twoRejections : List (Action 3 Nat Nat) :=
  [.electionTimeout 0, .deliver 0, .deliver 2, .start 0 7, .start 0 8, .replicate 0 1, .deliver 3,
    .electionTimeout 1, .deliver 5, .deliver 7, .replicate 1 2, .replicate 1 2, .deliver 8,
    .deliver 9, .deliver 10, .start 1 9, .replicate 1 2, .deliver 12, .deliver 13]

theorem acknowledged_not_resent_twoRejections :
    ∃ c : Cluster 3 Nat Nat, (cluster 3 Nat Nat).Reachable RejectsFirst c ∧
      (c.servers 1).rf.role = .leader ∧ (c.servers 1).rf.matchIndex 2 = 3 ∧
      4 ≤ (c.servers 1).rf.nextIndex 2 := by
  obtain ⟨c, hc, hP⟩ := (cluster 3 Nat Nat).exists_reachable_of_run RejectsFirst twoRejections
    (fun c => decide ((c.servers 1).rf.role = .leader ∧ (c.servers 1).rf.matchIndex 2 = 3))
    (by decide +kernel)
  simp only [decide_eq_true_eq] at hP
  obtain ⟨hrole, hmatch⟩ := hP
  have hlt := (acknowledged_not_resent hc hrole 2).1
  rw [hmatch] at hlt
  exact ⟨c, hc, hrole, hmatch, hlt⟩

/-- Leader 1 is about to send server 2 three entries that it has acknowledged. -/
def resendsEntries (c : Cluster 3 Nat Nat) : Bool :=
  match (c.servers 1).rf.replicateTo 2 (c.servers 1).rf.currentTerm with
  | some (some (.appendEntries args)) =>
    decide ((c.servers 1).rf.role = .leader ∧ (c.servers 1).rf.matchIndex 2 = 3 ∧
      (c.servers 1).rf.nextIndex 2 = 1 ∧ args.prevLogIndex = 0 ∧ args.entries.length = 3)
  | _ => false

/-- It is about to send a snapshot of the three entries. -/
def resendsSnapshot (c : Cluster 3 Nat Nat) : Bool :=
  match (c.servers 1).rf.replicateTo 2 (c.servers 1).rf.currentTerm with
  | some (some (.installSnapshot args)) =>
    decide ((c.servers 1).rf.role = .leader ∧ (c.servers 1).rf.matchIndex 2 = 3 ∧
      (c.servers 1).rf.nextIndex 2 = 1 ∧ args.lastIncludedIndex = 3)
  | _ => false

/-- The second rejection comes after the acknowledgement and sets the next index to
    1.  All three entries are sent again; if the leader has compacted its log in
    between, a whole snapshot is, which ends where the acknowledgement does. -/
theorem late_rejection_resends :
    (∃ (c : Cluster 3 Nat Nat) (args : AppendEntriesArgs 3 Nat),
      (cluster 3 Nat Nat).Reachable System.anyStep c ∧ (c.servers 1).rf.role = .leader ∧
      (c.servers 1).rf.matchIndex 2 = 3 ∧ (c.servers 1).rf.nextIndex 2 = 1 ∧
      (c.servers 1).rf.replicateTo 2 (c.servers 1).rf.currentTerm =
        some (some (.appendEntries args)) ∧
      args.prevLogIndex = 0 ∧ args.entries.length = 3) ∧
    ∃ (c : Cluster 3 Nat Nat) (args : InstallSnapshotArgs 3 Nat Nat),
      (cluster 3 Nat Nat).Reachable System.anyStep c ∧ (c.servers 1).rf.role = .leader ∧
      (c.servers 1).rf.matchIndex 2 = 3 ∧ (c.servers 1).rf.nextIndex 2 = 1 ∧
      (c.servers 1).rf.replicateTo 2 (c.servers 1).rf.currentTerm =
        some (some (.installSnapshot args)) ∧
      args.lastIncludedIndex = 3 := by
  constructor
  · obtain ⟨c, hc, hP⟩ := (cluster 3 Nat Nat).exists_reachable_of_run System.anyStep
      (twoRejections ++ ([.deliver 11] : List (Action 3 Nat Nat)))
      resendsEntries (by decide +kernel)
    unfold resendsEntries at hP
    split at hP
    · rename_i args hsend
      simp only [decide_eq_true_eq] at hP
      obtain ⟨hrole, hmatch, hnext, hprev, hlen⟩ := hP
      exact ⟨c, args, hc, hrole, hmatch, hnext, hsend, hprev, hlen⟩
    · cases hP
  · obtain ⟨c, hc, hP⟩ := (cluster 3 Nat Nat).exists_reachable_of_run System.anyStep
      (twoRejections ++ ([.apply 1, .sendCommand 1, .apply 1, .sendCommand 1, .apply 1,
        .sendCommand 1, .snapshot 1 3 99, .deliver 11] : List (Action 3 Nat Nat)))
      resendsSnapshot (by decide +kernel)
    unfold resendsSnapshot at hP
    split at hP
    · rename_i args hsend
      simp only [decide_eq_true_eq] at hP
      obtain ⟨hrole, hmatch, hnext, hlast⟩ := hP
      exact ⟨c, args, hc, hrole, hmatch, hnext, hsend, hlast⟩
    · cases hP

end RaftLabs
