import RaftLabs.RaftBounds

/-!
# Fast backup makes progress

A leader that a follower has rejected sets its next index for the follower to a
smaller value, or to the end of the follower's snapshot.  It never skips entries
the two have in common, unless it has compacted them itself and will send its
snapshot.  So a leader and a follower whose logs stay as they are come to an end
after finitely many rejections: the follower accepts or is sent a snapshot.
-/

namespace RaftLabs

open ReplicatedLog (Extends)

variable {n : Nat} {C D : Type}

/-- Two servers hold the same entries up to index `m`. -/
def Agree (rf rf' : Raft n C D) (m : Nat) : Prop :=
  m ≤ rf.lastLogIndex ∧ m ≤ rf'.lastLogIndex ∧
    ∀ k, 0 < k → k ≤ m → rf.holds k = rf'.holds k

theorem Agree.take_eq {rf rf' : Raft n C D} (h : rf.Wf) (h' : rf'.Wf) {m : Nat}
    (hagree : Agree rf rf' m) :
    m ≤ rf.logical.length ∧ m ≤ rf'.logical.length ∧
      rf.logical.take m = rf'.logical.take m := by
  obtain ⟨hle, hle', hsame⟩ := hagree
  rw [h.lastLogIndex_eq] at hle
  rw [h'.lastLogIndex_eq] at hle'
  refine ⟨hle, hle', List.ext_getElem? ?_⟩
  intro k
  rcases Nat.lt_or_ge k m with hlt | hge
  · rw [List.getElem?_take_of_lt hlt, List.getElem?_take_of_lt hlt, ← h.holds_eq, ← h'.holds_eq]
    exact hsame (k + 1) (Nat.succ_pos k) hlt
  · rw [List.getElem?_take_eq_none hge, List.getElem?_take_eq_none hge]

variable [Inhabited C]

/-! ### Rounds -/

/-- The leader sends a request, the follower handles it and the leader takes the
    reply. -/
def backupRound (c : Cluster n C D) (l s : Fin n) : List (Action n C D) :=
  [.replicate l s, .deliver c.packets.length, .deliver (c.packets.length + 1)]

variable [Inhabited D]

/-- After `k` rounds that end in a rejection the follower accepts what the leader
    sends, or the leader sends a snapshot. -/
inductive BacksUp (l s : Fin n) : Nat → Cluster n C D → Prop where
  | snapshot (c : Cluster n C D) (args : InstallSnapshotArgs n C D)
      (hsend : (c.servers l).rf.replicateTo s (c.servers l).rf.currentTerm =
        some (some (.installSnapshot args))) : BacksUp l s 0 c
  | accepted (c : Cluster n C D) (args : AppendEntriesArgs n C) (rf : Raft n C D)
      (reply : AppendEntriesReply) (hsend : Sends c l s args)
      (hst : (c.servers s).rf.appendEntries args = some (rf, reply))
      (hok : reply.success = true) : BacksUp l s 0 c
  | rejected (k : Nat) (c c' : Cluster n C D) (args : AppendEntriesArgs n C) (rf : Raft n C D)
      (reply : AppendEntriesReply) (hsend : Sends c l s args)
      (hst : (c.servers s).rf.appendEntries args = some (rf, reply))
      (hno : reply.success = false)
      (hround : (cluster n C D).run System.anyStep c (backupRound c l s) = some c')
      (hrest : BacksUp l s k c') : BacksUp l s (k + 1) c

section Rounds

variable {c : Cluster n C D} {l s : Fin n}

omit [Inhabited D] in
theorem Sends.step {args : AppendEntriesArgs n C} (hsend : Sends c l s args) (hne : s ≠ l) :
    c.step (.replicate l s) = some (c.post [.appendRequest l s args]) := by
  unfold Sends at hsend
  simp only [Cluster.step, if_neg hne, hsend, Option.bind_eq_bind, Option.bind_some]

omit [Inhabited D] in
theorem step_appendRequest {k : Nat} {args : AppendEntriesArgs n C} {rf : Raft n C D}
    {reply : AppendEntriesReply} (hp : c.packets[k]? = some (.appendRequest l s args))
    (hst : (c.servers s).rf.appendEntries args = some (rf, reply)) :
    c.step (.deliver k) = some ((c.setServer s { c.servers s with rf := rf }).post
      [.appendReply l s args reply]) := by
  simp only [Cluster.step, hp, Option.bind_some, Cluster.deliver, hst, Option.bind_eq_bind]

omit [Inhabited D] in
theorem step_appendReply {k : Nat} {args : AppendEntriesArgs n C} {rf : Raft n C D}
    {reply : AppendEntriesReply} (hp : c.packets[k]? = some (.appendReply l s args reply))
    (hst : (c.servers l).rf.handleAppendReply s args reply = some rf) :
    c.step (.deliver k) = some (c.setServer l { c.servers l with rf := rf }) := by
  simp only [Cluster.step, hp, Option.bind_some, Cluster.deliver, hst, Option.bind_eq_bind]

theorem run_backupRound {c₁ c₂ c₃ : Cluster n C D} (h₁ : c.step (.replicate l s) = some c₁)
    (h₂ : c₁.step (.deliver c.packets.length) = some c₂)
    (h₃ : c₂.step (.deliver (c.packets.length + 1)) = some c₃) :
    (cluster n C D).run System.anyStep c (backupRound c l s) = some c₃ := by
  simp [System.run, backupRound, System.anyStep, cluster, h₁, h₂, h₃]

/-- A leader has something to send. -/
theorem exists_request (hc : (cluster n C D).Reachable System.anyStep c)
    (hrole : (c.servers l).rf.role = .leader) (s : Fin n) :
    (∃ args, (c.servers l).rf.replicateTo s (c.servers l).rf.currentTerm =
      some (some (.installSnapshot args))) ∨ ∃ args, Sends c l s args := by
  obtain ⟨r, hr⟩ := Option.isSome_iff_exists.mp ((noPanic hc l).replicateTo s
    (c.servers l).rf.currentTerm)
  match r, hr with
  | none, hr =>
    exfalso
    unfold Raft.replicateTo at hr
    rw [if_neg (by simp [hrole])] at hr
    dsimp only at hr
    split at hr
    · cases hr
    · simp only [Option.bind_eq_bind, Option.bind_eq_some_iff] at hr
      obtain ⟨t, -, hr⟩ := hr
      cases hr
  | some (.installSnapshot args), hr => exact .inl ⟨args, hr⟩
  | some (.appendEntries args), hr => exact .inr ⟨args, hr⟩

/-- A follower accepts what follows its snapshot. -/
theorem backsUp_of_included (hc : (cluster n C D).Reachable System.anyStep c)
    (hrole : (c.servers l).rf.role = .leader)
    (hle : (c.servers s).rf.currentTerm ≤ (c.servers l).rf.currentTerm)
    (hnext : (c.servers l).rf.nextIndex s = (c.servers s).rf.lastIncludedIndex + 1) :
    BacksUp l s 0 c := by
  rcases exists_request hc hrole s with ⟨args, hsend⟩ | ⟨args, hsend⟩
  · exact .snapshot c args hsend
  obtain ⟨⟨rf, reply⟩, hst⟩ :=
    Option.isSome_iff_exists.mp ((noPanic hc s).appendEntries args)
  cases hok : reply.success with
  | true => exact .accepted c args rf reply hsend hst hok
  | false =>
    exfalso
    obtain ⟨a, ha⟩ := exists_refines hc
    have hwf := (ha.servers s).wf
    obtain ⟨-, hterm, -, -, hprevTerm, hprev⟩ := ha.sends hsend
    have hidx : args.prevLogIndex = (c.servers s).rf.lastIncludedIndex := by omega
    -- the leader holds what the snapshot covers, so the terms at its end agree
    have hlead := (ha.inv.leads l (by rw [(ha.servers l).peer]; exact hrole)).1
    have hpre := ha.included_isPrefix hle (by rw [(ha.servers l).peer] at hlead; simp [hlead])
    rw [ha.leaderLog_eq hrole] at hpre
    have htake := ReplicatedLog.take_eq_of_isPrefix hpre
      (List.length_take_of_le hwf.le_length).ge
    rw [List.take_take, min_self] at htake
    rcases hwf.appendEntries_conflict hst hok with ⟨hlt, -⟩ | ⟨-, -, hconf⟩
    · omega
    · rw [hprevTerm, hidx] at hconf
      generalize reply.conflictTerm = ct, reply.conflictIndex = ci at hconf
      cases hconf with
      | behind hlt => exact lt_irrefl _ hlt
      | missing _ hlt => exact absurd hwf.le_length (Nat.not_le.mpr hlt)
      | clash _ _ _ hclash _ _ => exact hclash (termOf_congr htake le_rfl)

/-- What a rejected round leaves behind: the logs are as they were, the follower
    is in the leader's term, and the leader has backed up. -/
theorem exists_round (hc : (cluster n C D).Reachable System.anyStep c) (hne : s ≠ l)
    (hle : (c.servers s).rf.currentTerm ≤ (c.servers l).rf.currentTerm)
    {args : AppendEntriesArgs n C} (hsend : Sends c l s args) {rf : Raft n C D}
    {reply : AppendEntriesReply}
    (hst : (c.servers s).rf.appendEntries args = some (rf, reply))
    (hno : reply.success = false) :
    ∃ c' v, (cluster n C D).run System.anyStep c (backupRound c l s) = some c' ∧
      (c'.servers l).rf = { (c.servers l).rf with
        nextIndex := Function.update (c.servers l).rf.nextIndex s v } ∧
      (c'.servers s).rf = (c.servers s).rf.followLeader args.term ∧
      (args.prevLogIndex < (c.servers s).rf.lastIncludedIndex →
        v = (c.servers s).rf.lastIncludedIndex + 1) ∧
      ((c.servers s).rf.lastIncludedIndex ≤ args.prevLogIndex → v ≤ args.prevLogIndex) := by
  obtain ⟨a, ha⟩ := exists_refines hc
  obtain ⟨hrole, hterm, -⟩ := ha.sends hsend
  obtain ⟨rfl, hreply⟩ : rf = (c.servers s).rf.followLeader args.term ∧ reply.term = args.term := by
    have hwf := (ha.servers s).wf
    constructor
    · rcases hwf.appendEntries_cases hst with ⟨hlt, -, -⟩ | ⟨-, hrf, -⟩ | ⟨-, hok, -⟩
      · omega
      · exact hrf
      · rw [hno] at hok
        cases hok
    · rcases hwf.appendEntries_conflict hst hno with ⟨hlt, -⟩ | ⟨-, hreply, -⟩
      · omega
      · exact hreply
  -- the states in which the follower and the leader take the packets of the round
  let c₁ := c.post [.appendRequest l s args]
  let c₂ := (c₁.setServer s { c.servers s with
    rf := (c.servers s).rf.followLeader args.term }).post [.appendReply l s args reply]
  have hstep₁ : c.step (.replicate l s) = some c₁ := hsend.step hne
  have hstep₂ : c₁.step (.deliver c.packets.length) = some c₂ :=
    step_appendRequest (by simp [c₁, Cluster.post]) hst
  obtain ⟨a₁, -, ha₁⟩ := ha.step hstep₁
  obtain ⟨a₂, hsteps₂, ha₂⟩ := ha₁.step hstep₂
  have hl : c₂.servers l = c.servers l := by
    simp [c₂, c₁, Cluster.post, Cluster.setServer, hne.symm]
  have hans : Answers c₁ l s args reply := ⟨by simp [c₁, Cluster.post], _, hst⟩
  obtain ⟨-, v, hback, hbehind, hbefore⟩ := ha₁.backup ha₂ (ha₁.inv.steps hsteps₂).1 hans hno
    hreply.le (by rw [hl]; exact hrole) (by rw [hl]; exact hterm)
  have hstep₃ := step_appendReply (k := c.packets.length + 1) (c := c₂)
    (by simp [c₂, c₁, Cluster.post, Cluster.setServer]) hback
  refine ⟨_, v, run_backupRound hstep₁ hstep₂ hstep₃, ?_, ?_, fun hlt => (hbehind hlt).1,
    fun hge => (hbefore hge).2.1⟩
  · simp [Cluster.setServer, hl]
  · simp [c₂, c₁, Cluster.setServer, Cluster.post, hne]

/-- The rejections come to an end; there are no more of them than the next index
    the leader starts from. -/
theorem exists_backsUp (hc : (cluster n C D).Reachable System.anyStep c) (hne : s ≠ l)
    (hrole : (c.servers l).rf.role = .leader)
    (hle : (c.servers s).rf.currentTerm ≤ (c.servers l).rf.currentTerm) :
    ∃ k, k ≤ (c.servers l).rf.nextIndex s ∧ BacksUp l s k c := by
  -- induction on the next index, which every rejection but the last one lowers
  induction hnext : (c.servers l).rf.nextIndex s using Nat.strong_induction_on generalizing c with
  | _ next ih =>
    rcases exists_request hc hrole s with ⟨args, hsend⟩ | ⟨args, hsend⟩
    · exact ⟨0, Nat.zero_le _, .snapshot c args hsend⟩
    obtain ⟨⟨rf, reply⟩, hst⟩ :=
      Option.isSome_iff_exists.mp ((noPanic hc s).appendEntries args)
    cases hok : reply.success with
    | true => exact ⟨0, Nat.zero_le _, .accepted c args rf reply hsend hst hok⟩
    | false =>
      obtain ⟨a, ha⟩ := exists_refines hc
      obtain ⟨-, hterm, -, -, -, hprev⟩ := ha.sends hsend
      obtain ⟨c', v, hround, hl, hs, hbehind, hbefore⟩ := exists_round hc hne hle hsend hst hok
      have hc' : (cluster n C D).Reachable System.anyStep c' :=
        hc.trans (System.reaches_of_run hround)
      have hrole' : (c'.servers l).rf.role = .leader := by rw [hl]; exact hrole
      have hle' : (c'.servers s).rf.currentTerm ≤ (c'.servers l).rf.currentTerm := by
        rw [hs, hl, Raft.followLeader_currentTerm (hterm ▸ hle)]
        exact hterm.ge
      have hnext' : (c'.servers l).rf.nextIndex s = v := by
        rw [hl]
        simp
      rcases Nat.lt_or_ge args.prevLogIndex (c.servers s).rf.lastIncludedIndex with hlt | hge
      · have hlast : BacksUp l s 0 c' := by
          refine backsUp_of_included hc' hrole' hle' ?_
          rw [hnext', hbehind hlt, hs, Raft.followLeader_lastIncludedIndex]
        exact ⟨1, by omega, .rejected 0 c c' args rf reply hsend hst hok hround hlast⟩
      · have hv := hbefore hge
        obtain ⟨k, hk, hrest⟩ := ih v (by omega) hc' hrole' hle' hnext'
        exact ⟨k + 1, by omega, .rejected k c c' args rf reply hsend hst hok hround hrest⟩

end Rounds

/-! ### Progress -/

section Progress

variable {c : Cluster n C D}

/-- A leader that takes a rejection of a request that followed index `p` backs up
    to an index `v`.  With `p` inside the snapshot of the follower, `v` is the
    index behind the snapshot and lies within the leader's log or right behind
    it.  Otherwise `v` is at most `p`, and the logs agree at most up to `v - 1`
    unless the leader's snapshot covers `v`; the follower's log is the one it had
    at the moment it gave the reply.  A leader and a follower that has not left
    its term behind reach acceptance or a snapshot after finitely many rejected
    rounds. -/
theorem fast_backup (hc : (cluster n C D).Reachable System.anyStep c) {l s : Fin n}
    (hne : s ≠ l) (hrole : (c.servers l).rf.role = .leader) :
    (∀ args reply, Packet.appendReply l s args reply ∈ c.packets → reply.success = false →
      (c.servers l).rf.currentTerm = args.term → reply.term ≤ args.term →
      (∃ c₀, (cluster n C D).Reachable System.anyStep c₀ ∧
        (cluster n C D).Reaches System.anyStep c₀ c ∧ Answers c₀ l s args reply) ∧
      ∀ c₀, (cluster n C D).Reachable System.anyStep c₀ →
        (cluster n C D).Reaches System.anyStep c₀ c → Answers c₀ l s args reply →
        ∃ v, (c.servers l).rf.handleAppendReply s args reply =
            some { (c.servers l).rf with
              nextIndex := Function.update (c.servers l).rf.nextIndex s v } ∧
          ((c₀.servers s).rf.lastIncludedIndex ≤ args.prevLogIndex →
            1 ≤ v ∧ v ≤ args.prevLogIndex ∧
            ∀ m, Agree (c.servers l).rf (c₀.servers s).rf m →
              m ≤ v - 1 ∨ v ≤ (c.servers l).rf.lastIncludedIndex) ∧
          (args.prevLogIndex < (c₀.servers s).rf.lastIncludedIndex →
            v = (c₀.servers s).rf.lastIncludedIndex + 1 ∧
            v ≤ (c.servers l).rf.lastLogIndex + 1)) ∧
    ((c.servers s).rf.currentTerm ≤ (c.servers l).rf.currentTerm →
      ∃ k, k ≤ (c.servers l).rf.nextIndex s ∧ BacksUp l s k c) := by
  refine ⟨?_, exists_backsUp hc hne hrole⟩
  intro args reply hp hno hterm hreply
  refine ⟨reply_origin hc hp, ?_⟩
  intro c₀ hc₀ hrun hans
  obtain ⟨a₀, ha₀⟩ := exists_refines hc₀
  obtain ⟨a, hsteps, ha⟩ := ha₀.run hrun
  obtain ⟨-, v, hst, hbehind, hbefore⟩ := ha₀.backup ha (ha₀.inv.steps hsteps).1 hans hno
    hreply hrole hterm
  refine ⟨v, hst, ?_, ?_⟩
  · intro hge
    obtain ⟨hpos, hv, -, hagree⟩ := hbefore hge
    refine ⟨hpos, hv, ?_⟩
    intro m hm
    obtain ⟨hmX, hmY, htake⟩ := hm.take_eq (ha.servers l).wf (ha₀.servers s).wf
    exact hagree m hmX hmY htake
  · intro hlt
    obtain ⟨hv, hlen⟩ := hbehind hlt
    rw [(ha.servers l).wf.lastLogIndex_eq, hv]
    exact ⟨rfl, Nat.succ_le_succ hlen⟩

/-- Server 0 of three takes a command in term 1, server 1 takes two in term 2 and
    crashes before it has sent them; it is elected again in term 3.  Its first
    request follows index 2, which server 0 does not have. -/
def divergent : List (Action 3 Nat Nat) :=
  [.electionTimeout 0, .deliver 0, .deliver 2, .start 0 7, .electionTimeout 1, .deliver 4,
    .deliver 5, .start 1 8, .start 1 9, .restart 1, .electionTimeout 1, .deliver 7, .deliver 8,
    .replicate 1 0, .deliver 9]

/-- Server 0 has rejected the request that follows index 2. -/
def rejectedAtTwo (c : Cluster 3 Nat Nat) : Bool :=
  match (c.packets[10]? : Option (Packet 3 Nat Nat)) with
  | some (.appendReply 1 0 args reply) =>
    decide ((c.servers 1).rf.role = .leader ∧ (c.servers 1).rf.currentTerm = args.term ∧
      (c.servers 0).rf.currentTerm = args.term ∧ (c.servers 1).rf.nextIndex 0 = 3 ∧
      reply.success = false ∧ reply.term = args.term ∧ args.prevLogIndex = 2)
  | _ => false

/-- The rejection is in flight; server 0 is in the leader's term. -/
theorem fast_backup_divergent :
    ∃ (c : Cluster 3 Nat Nat) (args : AppendEntriesArgs 3 Nat) (reply : AppendEntriesReply),
      (cluster 3 Nat Nat).Reachable System.anyStep c ∧ (c.servers 1).rf.role = .leader ∧
      Packet.appendReply 1 0 args reply ∈ c.packets ∧ reply.success = false ∧
      args.prevLogIndex = 2 ∧
      (∃ (c₀ : Cluster 3 Nat Nat) (v : Nat), Answers c₀ 1 0 args reply ∧
        (c.servers 1).rf.handleAppendReply 0 args reply = some { (c.servers 1).rf with
          nextIndex := Function.update (c.servers 1).rf.nextIndex 0 v } ∧
        ((c₀.servers 0).rf.lastIncludedIndex ≤ 2 → 1 ≤ v ∧ v ≤ 2)) ∧
      ∃ k, k ≤ 3 ∧ BacksUp 1 0 k c := by
  obtain ⟨c, hc, hP⟩ := (cluster 3 Nat Nat).exists_reachable_of_run System.anyStep divergent
    rejectedAtTwo (by decide +kernel)
  unfold rejectedAtTwo at hP
  split at hP
  · rename_i args reply hpacket
    simp only [decide_eq_true_eq] at hP
    obtain ⟨hrole, hterm, hfollower, hnext, hno, hreply, hprev⟩ := hP
    have hp := List.mem_of_getElem? hpacket
    obtain ⟨hback, hend⟩ := fast_backup hc (l := 1) (s := 0) (by decide) hrole
    obtain ⟨⟨c₀, hc₀, hrun, hans⟩, hall⟩ := hback args reply hp hno hterm hreply.le
    obtain ⟨v, hst, hbefore, -⟩ := hall c₀ hc₀ hrun hans
    rw [hprev] at hbefore
    rw [hterm, hfollower, hnext] at hend
    refine ⟨c, args, reply, hc, hrole, hp, hno, hprev, ⟨c₀, v, hans, hst, ?_⟩, hend le_rfl⟩
    exact fun hincl => ⟨(hbefore hincl).1, (hbefore hincl).2.1⟩
  · cases hP

end Progress

end RaftLabs
