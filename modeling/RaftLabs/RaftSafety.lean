import RaftLabs.RaftRefinement

/-!
# Safety of a Raft cluster

The safety theorems of Raft, for the cluster as the code runs it: with
compaction, snapshots that overtake entries, late and repeated packets and
crashes at any point.  All of them are read off the protocol state that matches
the cluster.  Where a statement relates two moments of a run, the first cluster
is reachable and the second is reached from it.
-/

namespace RaftLabs

open ReplicatedLog (majorities lastTerm Extends CommittedBy Sound getElem?_of_isPrefix)

variable {n : Nat} {C D : Type}

/-- The entry at absolute index `idx`: in the log, or covered by the snapshot. -/
def Raft.holds (rf : Raft n C D) (idx : Nat) : Option (LogEntry C) :=
  if rf.lastIncludedIndex < idx then rf.entryAt idx
  else if 0 < idx then rf.persister.snapshot.covers[idx - 1]? else none

theorem Raft.Wf.holds_eq {rf : Raft n C D} (h : rf.Wf) (k : Nat) :
    rf.holds (k + 1) = rf.logical[k]? := by
  unfold Raft.holds
  split
  · rename_i hlt
    exact h.entryAt_eq (Nat.le_of_lt_succ hlt)
  · rename_i hge
    have hlt : k < rf.persister.snapshot.covers.length := by
      rw [h.covers_length]
      omega
    simp [Raft.logical, List.getElem?_append_left hlt]

/-! ### What a matching protocol state says about the servers -/

section Matched

variable {c c' : Cluster n C D} {a a' : Abs n C}

theorem Committed.agree (hinv : AbsInv a) {X Y : List (LogEntry C)} (hX : Committed a X)
    (hY : Committed a Y) {k : Nat} {x y : LogEntry C} (hx : X[k]? = some x)
    (hy : Y[k]? = some y) : x = y := by
  obtain ⟨U, hU⟩ := hX
  obtain ⟨V, hV⟩ := hY
  rcases hinv.committed_comparable hU hV with hpre | hpre
  · have heq := (getElem?_of_isPrefix hpre hx).symm.trans hy
    exact Option.some.inj heq
  · have heq := hx.symm.trans (getElem?_of_isPrefix hpre hy)
    exact Option.some.inj heq

variable [Inhabited C]

theorem Refines.commitIndex_le (h : Refines c a) (i : Fin n) :
    (c.servers i).rf.commitIndex ≤ (c.servers i).rf.logical.length := by
  have hle := (h.inv.commit_ok i).1
  rw [(h.servers i).peer] at hle
  exact hle

theorem Refines.committedBy (h : Refines c a) (i : Fin n) :
    CommittedBy LogEntry.term (majorities (Fin n)) a (c.servers i).rf.currentTerm
      ((c.servers i).rf.logical.take (c.servers i).rf.commitIndex) := by
  have hcomm := (h.inv.commit_ok i).2
  rw [(h.servers i).peer] at hcomm
  exact hcomm

theorem Refines.sound (h : Refines c a) (i : Fin n) :
    Sound LogEntry.term a (c.servers i).rf.logical := by
  have hlog := (h.inv.log_entries i).1
  rw [(h.servers i).peer] at hlog
  exact hlog

/-- The log of a leader is the leader's log of its term. -/
theorem Refines.leaderLog_eq (h : Refines c a) {l : Fin n}
    (hrole : (c.servers l).rf.role = .leader) :
    a.leaderLog (c.servers l).rf.currentTerm = (c.servers l).rf.logical := by
  have hpeer := (h.servers l).peer
  have hlead := (h.inv.leads l (by rw [hpeer]; exact hrole)).2
  rw [hpeer] at hlead
  exact hlead

/-- A leader's log only grows while it leads its term. -/
theorem Refines.leader_isPrefix (h : Refines c a) (h' : Refines c' a') (hext : Extends a a')
    {l : Fin n} (hrole : (c.servers l).rf.role = .leader)
    (hrole' : (c'.servers l).rf.role = .leader)
    (hterm : (c'.servers l).rf.currentTerm = (c.servers l).rf.currentTerm) :
    (c.servers l).rf.logical <+: (c'.servers l).rf.logical := by
  rw [← h.leaderLog_eq hrole, ← h'.leaderLog_eq hrole', hterm]
  exact hext.leaderLog_le _

/-- The entry at an index a server has committed. -/
theorem Refines.committed_entry (h : Refines c a) {i : Fin n} {k : Nat}
    (hk : k < (c.servers i).rf.commitIndex) :
    ∃ e, (c.servers i).rf.holds (k + 1) = some e ∧
      ((c.servers i).rf.logical.take (c.servers i).rf.commitIndex)[k]? = some e := by
  have hget := List.getElem?_eq_getElem (hk.trans_le (h.commitIndex_le i))
  refine ⟨_, ?_, (List.getElem?_take_of_lt hk).trans hget⟩
  rw [(h.servers i).wf.holds_eq]
  exact hget

/-- A log that starts with what a server has committed holds every entry of it. -/
theorem Refines.holds_of_isPrefix (h : Refines c a) (h' : Refines c' a') {l v : Fin n}
    (hpre : (c.servers l).rf.logical.take (c.servers l).rf.commitIndex <+: (a'.peer v).log)
    (k : Nat) (hpos : 0 < k) (hk : k ≤ (c.servers l).rf.commitIndex) :
    ∃ e, (c.servers l).rf.holds k = some e ∧ (c'.servers v).rf.holds k = some e := by
  obtain ⟨k, rfl⟩ : ∃ m, k = m + 1 := ⟨k - 1, by omega⟩
  obtain ⟨e, hholds, he⟩ := h.committed_entry hk
  refine ⟨e, hholds, ?_⟩
  rw [(h'.servers v).peer] at hpre
  rw [(h'.servers v).wf.holds_eq]
  exact getElem?_of_isPrefix hpre he

/-- At any later moment at which it is still in the term, a server agrees with the
    leader's log of that term as far as it has acknowledged it. -/
theorem Refines.acked_take (h : Refines c a) (h' : Refines c' a') (hext : Extends a a')
    {s : Fin n} {m : Nat} (hack : a.ack s (c'.servers s).rf.currentTerm m) :
    m ≤ (c'.servers s).rf.logical.length ∧ (c'.servers s).rf.logical.take m =
      (a.leaderLog (c'.servers s).rf.currentTerm).take m := by
  have hpeer := (h'.servers s).peer
  have hm := (h.inv.ack_ok _ _ _ hack).2
  have hold := h'.inv.ack_isPrefix (hext.ack_mono _ _ _ hack) (by rw [hpeer])
  rw [hpeer, ← ReplicatedLog.take_eq_of_isPrefix (hext.leaderLog_le _) hm] at hold
  have hlen : ((a.leaderLog (c'.servers s).rf.currentTerm).take m).length = m := by
    rw [List.length_take, min_eq_left hm]
  refine ⟨hlen ▸ hold.length_le, ?_⟩
  rw [← ReplicatedLog.take_eq_of_isPrefix hold hlen.ge, List.take_take, min_self]

/-- Terms along the window, the dummy slot included. -/
theorem Refines.window_terms (h : Refines c a) (i : Fin n) :
    (c.servers i).rf.log.Pairwise (fun e f => e.term ≤ f.term) ∧
      ∀ e ∈ (c.servers i).rf.log, e.term ≤ (c.servers i).rf.currentTerm := by
  have hwf := (h.servers i).wf
  have hpair : (c.servers i).rf.logical.Pairwise (fun e f => e.term ≤ f.term) := by
    rw [List.pairwise_iff_getElem]
    intro j k hj hk hjk
    exact h.inv.sound_term_le (h.sound i) hjk.le (List.getElem?_eq_getElem hj)
      (List.getElem?_eq_getElem hk)
  have hbound : ∀ e ∈ (c.servers i).rf.logical, e.term ≤ (c.servers i).rf.currentTerm := by
    have hle := (h.inv.log_entries i).2
    rw [(h.servers i).peer] at hle
    exact hle
  obtain ⟨d, ds, hlog, hd⟩ := hwf.slot0
  have hlogical : (c.servers i).rf.logical =
      (c.servers i).rf.persister.snapshot.covers ++ ds := by
    rw [Raft.logical, hlog]
    rfl
  rw [hlogical] at hpair hbound
  -- the dummy has the term of the last covered entry, or 0
  have hdummy : d.term = 0 ∨
      ∃ e ∈ (c.servers i).rf.persister.snapshot.covers, e.term = d.term := by
    rw [hd, ← hwf.covers_term]
    cases hlast : (c.servers i).rf.persister.snapshot.covers.getLast? with
    | none => exact .inl (by simp [lastTerm, hlast])
    | some e => exact .inr ⟨e, List.mem_of_getLast? hlast, by simp [lastTerm, hlast]⟩
  rw [hlog]
  rw [List.pairwise_append] at hpair
  constructor
  · refine List.Pairwise.cons ?_ hpair.2.1
    intro f hf
    rcases hdummy with hzero | ⟨e, he, heq⟩
    · omega
    · rw [← heq]
      exact hpair.2.2 e he f hf
  · intro e he
    rcases List.mem_cons.mp he with rfl | he
    · rcases hdummy with hzero | ⟨f, hf, heq⟩
      · omega
      · rw [← heq]
        exact hbound f (List.mem_append_left _ hf)
    · exact hbound e (List.mem_append_right _ he)

end Matched

/-! ### State machine safety -/

/-- Server 0 of three is elected and commits the command 7 with the help of
    server 1. -/
def commitSeven : List (Action 3 Nat Nat) :=
  [.electionTimeout 0, .deliver 0, .deliver 2, .start 0 7, .replicate 0 1, .deliver 3, .deliver 4]

/-- Then its service takes a snapshot. -/
def compactSeven : List (Action 3 Nat Nat) :=
  commitSeven ++ ([.apply 0, .sendCommand 0, .snapshot 0 1 99] : List (Action 3 Nat Nat))

section Safety

variable [Inhabited C] [Inhabited D] {c c' : Cluster n C D}

/-- Command messages for one index carry one command, whichever server or
    incarnation of a server sends them.  Servers that have committed an index
    hold the same entry there, and the snapshot of a server stands for an entry
    it has committed, with the term it gives. -/
theorem state_machine_safety (hc : (cluster n C D).Reachable System.anyStep c)
    (hrun : (cluster n C D).Reaches System.anyStep c c') :
    (∀ i j k x y, (i, ApplyMsg.command x k) ∈ c.emitted →
      (j, ApplyMsg.command y k) ∈ c'.emitted → x = y) ∧
    (∀ i j k, 0 < k → k ≤ (c.servers i).rf.commitIndex → k ≤ (c'.servers j).rf.commitIndex →
      ∃ e, (c.servers i).rf.holds k = some e ∧ (c'.servers j).rf.holds k = some e) ∧
    ∀ i, (c.servers i).rf.lastIncludedIndex ≤ (c.servers i).rf.commitIndex ∧
      (0 < (c.servers i).rf.lastIncludedIndex →
        ∃ e, (c.servers i).rf.holds (c.servers i).rf.lastIncludedIndex = some e ∧
          e.term = (c.servers i).rf.lastIncludedTerm) := by
  obtain ⟨a, ha⟩ := exists_refines hc
  obtain ⟨a', hsteps, ha'⟩ := ha.run hrun
  obtain ⟨hext, hinv'⟩ := ha.inv.steps hsteps
  refine ⟨?_, ?_, ?_⟩
  · intro i j k x y hx hy
    obtain ⟨X, e, hX, -, he, rfl⟩ := ha.emitted _ hx
    obtain ⟨Y, f, hY, -, hf, rfl⟩ := ha'.emitted _ hy
    rw [(hX.mono hext).agree hinv' hY he hf]
  · intro i j k hk hi hj
    obtain ⟨k, rfl⟩ : ∃ m, k = m + 1 := ⟨k - 1, by omega⟩
    obtain ⟨e, hholds, he⟩ := ha.committed_entry hi
    obtain ⟨f, hholds', hf⟩ := ha'.committed_entry hj
    have hcomm : Committed a' _ := ⟨_, (ha.committedBy i).mono hext le_rfl⟩
    rw [hcomm.agree hinv' ⟨_, ha'.committedBy j⟩ he hf] at hholds
    exact ⟨f, hholds, hholds'⟩
  · intro i
    have hok := ha.servers i
    refine ⟨hok.included.trans hok.applied, ?_⟩
    intro hpos
    obtain ⟨k, hk⟩ : ∃ m, (c.servers i).rf.lastIncludedIndex = m + 1 :=
      ⟨(c.servers i).rf.lastIncludedIndex - 1, by omega⟩
    have hlt : k < (c.servers i).rf.logical.length := by
      have := hok.wf.le_length
      omega
    have hget := List.getElem?_eq_getElem hlt
    refine ⟨_, by rw [hk, hok.wf.holds_eq, hget], ?_⟩
    rw [← termOf_succ hget, ← hk, ← hok.wf.covers_term, ← hok.wf.take_logical]
    rfl

/-- Two servers send the command, and the first has compacted it. -/
theorem state_machine_safety_commitSeven :
    ∃ c c' : Cluster 3 Nat Nat, (cluster 3 Nat Nat).Reachable System.anyStep c ∧
      (cluster 3 Nat Nat).Reaches System.anyStep c c' ∧
      (0, ApplyMsg.command 7 1) ∈ c.emitted ∧ (1, ApplyMsg.command 7 1) ∈ c'.emitted ∧
      (c.servers 0).rf.lastIncludedIndex = 1 ∧
      (∀ i y, (i, ApplyMsg.command y 1) ∈ c'.emitted → 7 = y) ∧
      ∃ e, (c.servers 0).rf.holds 1 = some e ∧ (c'.servers 1).rf.holds 1 = some e := by
  obtain ⟨c, c', hc, hrun, hP, hQ⟩ := (cluster 3 Nat Nat).exists_reaches_of_run
    System.anyStep compactSeven [.replicate 0 1, .deliver 5, .apply 1, .sendCommand 1]
    (fun c => decide ((0, ApplyMsg.command 7 1) ∈ c.emitted ∧
      (c.servers 0).rf.lastIncludedIndex = 1 ∧ (c.servers 0).rf.commitIndex = 1))
    (fun c => decide ((1, ApplyMsg.command 7 1) ∈ c.emitted ∧
      (c.servers 1).rf.commitIndex = 1))
    (by decide +kernel)
  simp only [decide_eq_true_eq] at hP hQ
  obtain ⟨hmsg, hincl, hcommit⟩ := hP
  obtain ⟨hmsg', hcommit'⟩ := hQ
  obtain ⟨hcommands, hentries, -⟩ := state_machine_safety hc hrun
  refine ⟨c, c', hc, hrun, hmsg, hmsg', hincl, ?_, ?_⟩
  · exact fun i y hy => hcommands 0 i 1 7 y hmsg hy
  · exact hentries 0 1 1 Nat.one_pos hcommit.ge hcommit'.ge

/-! ### Leader completeness -/

/-- What a server has committed is held by every leader of a later term and by
    one and the same majority at every later moment. -/
theorem leader_completeness (hc : (cluster n C D).Reachable System.anyStep c) (l : Fin n) :
    (∀ c', (cluster n C D).Reaches System.anyStep c c' → ∀ l',
      (c'.servers l').rf.role = .leader →
      (c.servers l).rf.currentTerm < (c'.servers l').rf.currentTerm →
      ∀ k, 0 < k → k ≤ (c.servers l).rf.commitIndex →
        ∃ e, (c.servers l).rf.holds k = some e ∧ (c'.servers l').rf.holds k = some e) ∧
    ∃ Q : Finset (Fin n), n < 2 * Q.card ∧
      ∀ c', (cluster n C D).Reaches System.anyStep c c' → ∀ v ∈ Q,
        ∀ k, 0 < k → k ≤ (c.servers l).rf.commitIndex →
          ∃ e, (c.servers l).rf.holds k = some e ∧ (c'.servers v).rf.holds k = some e := by
  obtain ⟨a, ha⟩ := exists_refines hc
  have hcomm := ha.committedBy l
  constructor
  · intro c' hrun l' hrole hlt
    obtain ⟨a', hsteps, ha'⟩ := ha.run hrun
    obtain ⟨hext, hinv'⟩ := ha.inv.steps hsteps
    apply ha.holds_of_isPrefix ha'
    have hpeer := (ha'.servers l').peer
    have hlead := hinv'.leads l' (by rw [hpeer]; exact hrole)
    rw [← hlead.2]
    refine hinv'.committed_isPrefix (hcomm.mono hext le_rfl) ?_ (by rw [hlead.1]; simp)
    rw [hpeer]
    exact hlt.le
  · by_cases hne : (c.servers l).rf.logical.take (c.servers l).rf.commitIndex = []
    · -- nothing is committed yet
      refine ⟨Finset.univ, ?_, ?_⟩
      · have := l.pos
        simp
        omega
      · intro c' hrun v _
        obtain ⟨a', -, ha'⟩ := ha.run hrun
        apply ha.holds_of_isPrefix ha'
        rw [hne]
        exact List.nil_prefix
    · obtain ⟨Q, hQ, hlogs⟩ := ReplicatedLog.Inv.committed_quorum hcomm hne
      refine ⟨Q, by simpa [majorities] using hQ, ?_⟩
      intro c' hrun v hv
      obtain ⟨a', hsteps, ha'⟩ := ha.run hrun
      obtain ⟨hext, hinv'⟩ := ha.inv.steps hsteps
      apply ha.holds_of_isPrefix ha'
      exact hlogs a' hext hinv' v hv

/-- A leader of term 2 that was elected after the commit. -/
theorem leader_completeness_commitSeven :
    ∃ c c' : Cluster 3 Nat Nat, (cluster 3 Nat Nat).Reachable System.anyStep c ∧
      (cluster 3 Nat Nat).Reaches System.anyStep c c' ∧
      (c.servers 0).rf.commitIndex = 1 ∧ (c'.servers 1).rf.role = .leader ∧
      (c'.servers 1).rf.currentTerm = 2 ∧
      ∃ e, (c.servers 0).rf.holds 1 = some e ∧ (c'.servers 1).rf.holds 1 = some e := by
  obtain ⟨c, c', hc, hrun, hP, hQ⟩ := (cluster 3 Nat Nat).exists_reaches_of_run
    System.anyStep commitSeven [.electionTimeout 1, .deliver 6, .deliver 7]
    (fun c => decide ((c.servers 0).rf.commitIndex = 1 ∧ (c.servers 0).rf.currentTerm = 1))
    (fun c => decide ((c.servers 1).rf.role = .leader ∧ (c.servers 1).rf.currentTerm = 2))
    (by decide +kernel)
  simp only [decide_eq_true_eq] at hP hQ
  refine ⟨c, c', hc, hrun, hP.1, hQ.1, hQ.2, ?_⟩
  have hlater : (c.servers 0).rf.currentTerm < (c'.servers 1).rf.currentTerm := by
    rw [hP.2, hQ.2]
    decide
  exact (leader_completeness hc 0).1 c' hrun 1 hQ.1 hlater 1 Nat.one_pos hP.1.ge

/-! ### Election safety -/

/-- One leader a term, terms that only grow, and a vote that is kept within its
    term, at any two moments of a run. -/
theorem election_safety (hc : (cluster n C D).Reachable System.anyStep c)
    (hrun : (cluster n C D).Reaches System.anyStep c c') :
    (∀ i j, (c.servers i).rf.role = .leader → (c'.servers j).rf.role = .leader →
      (c.servers i).rf.currentTerm = (c'.servers j).rf.currentTerm → i = j) ∧
    (∀ i, (c.servers i).rf.currentTerm ≤ (c'.servers i).rf.currentTerm) ∧
    ∀ i candidate, (c.servers i).rf.currentTerm = (c'.servers i).rf.currentTerm →
      (c.servers i).rf.votedFor = some candidate →
      (c'.servers i).rf.votedFor = some candidate := by
  obtain ⟨a, ha⟩ := exists_refines hc
  obtain ⟨a', hsteps, ha'⟩ := ha.run hrun
  obtain ⟨hext, hinv'⟩ := ha.inv.steps hsteps
  refine ⟨?_, ?_, ?_⟩
  · intro i j hi hj hterm
    have hpi := (ha.servers i).peer
    have hpj := (ha'.servers j).peer
    have hlead := (ha.inv.leads i (by rw [hpi]; exact hi)).1
    have hlead' := (hinv'.leads j (by rw [hpj]; exact hj)).1
    rw [hpi] at hlead
    rw [hpj] at hlead'
    dsimp only at hlead hlead'
    rw [← hterm, hext.leader_some _ _ hlead] at hlead'
    exact Option.some.inj hlead'
  · intro i
    have hle := hext.term_le i
    rw [(ha.servers i).peer, (ha'.servers i).peer] at hle
    exact hle
  · intro i candidate hterm hvote
    have hballot := hext.ballot_some i (c.servers i).rf.currentTerm candidate
      ((ha.servers i).vote.trans hvote)
    rw [hterm, (ha'.servers i).vote] at hballot
    exact hballot

/-- After a restart the first leader still holds its own vote of term 1, and no
    other server can lead that term. -/
theorem election_safety_commitSeven :
    ∃ c c' : Cluster 3 Nat Nat, (cluster 3 Nat Nat).Reachable System.anyStep c ∧
      (cluster 3 Nat Nat).Reaches System.anyStep c c' ∧
      (c.servers 0).rf.role = .leader ∧ (c'.servers 0).rf.role = .follower ∧
      (c'.servers 0).rf.votedFor = some 0 ∧
      ∀ j, (c'.servers j).rf.role = .leader → (c'.servers j).rf.currentTerm = 1 → 0 = j := by
  obtain ⟨c, c', hc, hrun, hP, hQ⟩ := (cluster 3 Nat Nat).exists_reaches_of_run
    System.anyStep commitSeven [.restart 0]
    (fun c => decide ((c.servers 0).rf.role = .leader ∧ (c.servers 0).rf.currentTerm = 1 ∧
      (c.servers 0).rf.votedFor = some 0))
    (fun c => decide ((c.servers 0).rf.role = .follower ∧ (c.servers 0).rf.currentTerm = 1))
    (by decide +kernel)
  simp only [decide_eq_true_eq] at hP hQ
  obtain ⟨hrole, hterm, hvote⟩ := hP
  obtain ⟨hone, -, hkept⟩ := election_safety hc hrun
  refine ⟨c, c', hc, hrun, hrole, hQ.1, ?_, ?_⟩
  · exact hkept 0 0 (hterm.trans hQ.2.symm) hvote
  · exact fun j hj hj' => hone 0 j hrole hj (hterm.trans hj'.symm)

/-! ### Log matching -/

/-- Two servers with the same term at an index hold the same entries up to it,
    as far as both still have them; terms never decrease along a log, the dummy
    slot included, and never exceed the server's own. -/
theorem log_matching (hc : (cluster n C D).Reachable System.anyStep c) :
    (∀ i j idx,
      (c.servers i).rf.lastIncludedIndex ≤ idx → (c.servers j).rf.lastIncludedIndex ≤ idx →
      idx ≤ (c.servers i).rf.lastLogIndex → idx ≤ (c.servers j).rf.lastLogIndex →
      (c.servers i).rf.termAt idx = (c.servers j).rf.termAt idx →
      ∀ k ≤ idx, (c.servers i).rf.lastIncludedIndex < k →
        (c.servers j).rf.lastIncludedIndex < k →
        ∃ e, (c.servers i).rf.entryAt k = some e ∧ (c.servers j).rf.entryAt k = some e) ∧
    ∀ i, (c.servers i).rf.log.Pairwise (fun e f => e.term ≤ f.term) ∧
      ∀ e ∈ (c.servers i).rf.log, e.term ≤ (c.servers i).rf.currentTerm := by
  obtain ⟨a, ha⟩ := exists_refines hc
  refine ⟨?_, ha.window_terms⟩
  intro i j idx hi hj hi' hj' hterm k hk hki hkj
  have hwfi := (ha.servers i).wf
  have hwfj := (ha.servers j).wf
  rw [hwfi.lastLogIndex_eq] at hi'
  rw [hwfj.lastLogIndex_eq] at hj'
  rw [hwfi.termAt_eq hi hi', hwfj.termAt_eq hj hj', Option.some.injEq] at hterm
  have htake := take_eq_of_termOf (ha.sound i) (ha.sound j) hi' hj' hterm
  obtain ⟨k, rfl⟩ : ∃ m, k = m + 1 := ⟨k - 1, by omega⟩
  have hget : (c.servers i).rf.logical[k]? = (c.servers j).rf.logical[k]? := by
    rw [← List.getElem?_take_of_lt hk, htake, List.getElem?_take_of_lt hk]
  have hlt : k < (c.servers i).rf.logical.length := by omega
  have hsome := List.getElem?_eq_getElem hlt
  refine ⟨_, (hwfi.entryAt_eq (Nat.le_of_lt_succ hki)).trans hsome, ?_⟩
  rw [hwfj.entryAt_eq (Nat.le_of_lt_succ hkj), ← hget]
  exact hsome

/-- The leader and the follower that took its entry. -/
theorem log_matching_commitSeven :
    ∃ c : Cluster 3 Nat Nat, (cluster 3 Nat Nat).Reachable System.anyStep c ∧
      (c.servers 0).rf.termAt 1 = some 1 ∧ (c.servers 1).rf.termAt 1 = some 1 ∧
      ∃ e, (c.servers 0).rf.entryAt 1 = some e ∧ (c.servers 1).rf.entryAt 1 = some e := by
  obtain ⟨c, hc, hP⟩ := (cluster 3 Nat Nat).exists_reachable_of_run System.anyStep commitSeven
    (fun c => decide ((c.servers 0).rf.termAt 1 = some 1 ∧ (c.servers 1).rf.termAt 1 = some 1 ∧
      (c.servers 0).rf.lastIncludedIndex = 0 ∧ (c.servers 1).rf.lastIncludedIndex = 0 ∧
      (c.servers 0).rf.lastLogIndex = 1 ∧ (c.servers 1).rf.lastLogIndex = 1))
    (by decide +kernel)
  simp only [decide_eq_true_eq] at hP
  obtain ⟨hterm, hterm', hincl, hincl', hlast, hlast'⟩ := hP
  refine ⟨c, hc, hterm, hterm', ?_⟩
  exact (log_matching hc).1 0 1 1 (by omega) (by omega) hlast.ge hlast'.ge
    (hterm.trans hterm'.symm) 1 le_rfl (by omega) (by omega)

/-! ### Acknowledgements -/

/-- A leader's match index for `s` lies within its log, and `s` agrees with it up
    to there at every moment at which it is in the leader's term.  Whatever
    request of that term `s` handles later, it keeps what it has acknowledged to
    an `AppendEntries` or an `InstallSnapshot`. -/
theorem matchIndex_never_overclaims (hc : (cluster n C D).Reachable System.anyStep c)
    (hrun : (cluster n C D).Reaches System.anyStep c c') :
    (∀ l s, (c.servers l).rf.role = .leader →
      (c.servers l).rf.matchIndex s ≤ (c.servers l).rf.lastLogIndex ∧
      ((c'.servers s).rf.currentTerm = (c.servers l).rf.currentTerm →
        (c.servers l).rf.matchIndex s ≤ (c'.servers s).rf.lastLogIndex ∧
        (c'.servers s).rf.logical.take ((c.servers l).rf.matchIndex s) =
          (c.servers l).rf.logical.take ((c.servers l).rf.matchIndex s))) ∧
    ∀ l s m,
      ((∃ args reply, Packet.appendReply l s args reply ∈ c.packets ∧ reply.success = true ∧
          args.term = (c.servers s).rf.currentTerm ∧
          m = args.prevLogIndex + args.entries.length) ∨
        ∃ args reply, Packet.snapshotReply l s args reply ∈ c.packets ∧
          reply.term ≤ args.term ∧ args.term = (c.servers s).rf.currentTerm ∧
          m = args.lastIncludedIndex) →
      (c'.servers s).rf.currentTerm = (c.servers s).rf.currentTerm →
      m ≤ (c'.servers s).rf.lastLogIndex ∧
        (c'.servers s).rf.logical.take m = (c.servers s).rf.logical.take m := by
  obtain ⟨a, ha⟩ := exists_refines hc
  obtain ⟨a', hsteps, ha'⟩ := ha.run hrun
  obtain ⟨hext, -⟩ := ha.inv.steps hsteps
  constructor
  · intro l s hrole
    have hlog := ha.leaderLog_eq hrole
    rcases (ha.servers l).matched hrole s with hzero | hack
    · simp [hzero]
    · rw [(ha.servers l).wf.lastLogIndex_eq, (ha'.servers s).wf.lastLogIndex_eq, ← hlog]
      refine ⟨(ha.inv.ack_ok _ _ _ hack).2, ?_⟩
      intro hterm
      rw [← hterm] at hack ⊢
      exact ha.acked_take ha' hext hack
  · intro l s m hacked hterm
    have hack : a.ack s (c.servers s).rf.currentTerm m := by
      rcases hacked with ⟨args, reply, hp, hok, hT, rfl⟩ | ⟨args, reply, hp, hle, hT, rfl⟩
      · rw [← hT]
        exact ha.packets _ hp hok
      · rw [← hT]
        exact ha.packets _ hp hle
    rw [(ha'.servers s).wf.lastLogIndex_eq, (ha.acked_take ha (Extends.refl a) hack).2, ← hterm]
    rw [← hterm] at hack
    exact ha.acked_take ha' hext hack

/-- The follower that has acknowledged the entry crashes and comes back in the
    same term. -/
theorem matchIndex_never_overclaims_commitSeven :
    ∃ c c' : Cluster 3 Nat Nat, (cluster 3 Nat Nat).Reachable System.anyStep c ∧
      (cluster 3 Nat Nat).Reaches System.anyStep c c' ∧
      (c.servers 0).rf.role = .leader ∧ (c.servers 0).rf.matchIndex 1 = 1 ∧
      (c'.servers 1).rf.logical.take 1 = (c.servers 0).rf.logical.take 1 := by
  obtain ⟨c, c', hc, hrun, hP, hQ⟩ := (cluster 3 Nat Nat).exists_reaches_of_run
    System.anyStep commitSeven [.restart 1]
    (fun c => decide ((c.servers 0).rf.role = .leader ∧ (c.servers 0).rf.matchIndex 1 = 1 ∧
      (c.servers 0).rf.currentTerm = 1))
    (fun c => decide ((c.servers 1).rf.currentTerm = 1))
    (by decide +kernel)
  simp only [decide_eq_true_eq] at hP hQ
  obtain ⟨hrole, hmatch, hterm⟩ := hP
  have hagree := ((matchIndex_never_overclaims hc hrun).1 0 1 hrole).2 (hQ.trans hterm.symm)
  rw [hmatch] at hagree
  exact ⟨c, c', hc, hrun, hrole, hmatch, hagree.2⟩

end Safety

end RaftLabs
