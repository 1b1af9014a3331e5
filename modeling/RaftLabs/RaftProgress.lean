import RaftLabs.RaftElection
import RaftLabs.RaftBackup
import RaftLabs.RaftCommitRule

/-!
# A cluster can always make progress

Whatever has happened to a cluster of at least two servers, it can go on without
a crash to a state in which every server has handed a given new command to its
service.  A leader of the highest term is elected and takes the command.  It
serves one peer after the other: it backs up as far as it has to, sends its
snapshot if that is what it comes to, and is then granted its request.  Once all
peers hold the command it commits it, and serving them again lets them know.

A cluster of one server, in contrast, never gets anywhere: the only server looks
at its votes when a peer has answered, and it has no peers.
-/

namespace RaftLabs

open ReplicatedLog (lastTerm)

variable {n : Nat} {C D : Type}

/-! ### What the handlers do for a leader of the highest term -/

namespace Raft

variable {rf rf' : Raft n C D}

/-- A leader that has learned nothing but how far its peers are. -/
structure StillLeads (rf rf' : Raft n C D) : Prop where
  role : rf'.role = rf.role
  currentTerm : rf'.currentTerm = rf.currentTerm
  logical : rf'.logical = rf.logical
  lastApplied : rf'.lastApplied = rf.lastApplied
  lastIncludedIndex : rf'.lastIncludedIndex = rf.lastIncludedIndex
  matchIndex : ∀ j, rf.matchIndex j ≤ rf'.matchIndex j

theorem le_update {f : Fin n → Nat} {s : Fin n} {m : Nat} (hle : f s ≤ m) (j : Fin n) :
    f j ≤ Function.update f s m j := by
  by_cases hj : j = s
  · rw [hj, Function.update_self]
    exact hle
  · rw [Function.update_of_ne hj]

theorem Wf.stillLeads_handleAppendReply (h : rf.Wf) {server : Fin n}
    {args : AppendEntriesArgs n C} {reply : AppendEntriesReply}
    (hle : reply.term ≤ rf.currentTerm)
    (hst : rf.handleAppendReply server args reply = some rf') : StillLeads rf rf' := by
  have hadvance : ∀ {rf₁ : Raft n C D}, rf₁.Wf → rf₁.advanceCommit = some rf' →
      StillLeads rf rf₁ → StillLeads rf rf' := by
    intro rf₁ hwf hadv hstill
    rcases hwf.advanceCommit_cases hadv with rfl | ⟨k, e, -, -, -, -, rfl⟩
    · exact hstill
    · exact ⟨hstill.role, hstill.currentTerm, hstill.logical, hstill.lastApplied,
        hstill.lastIncludedIndex, hstill.matchIndex⟩
  rcases handleAppendReply_cases hst with rfl | ⟨hlt, -⟩ | ⟨-, -, -, -, next, rfl⟩ |
    ⟨-, -, -, hadv⟩
  · exact ⟨rfl, rfl, rfl, rfl, rfl, fun _ => le_rfl⟩
  · omega
  · exact ⟨rfl, rfl, rfl, rfl, rfl, fun _ => le_rfl⟩
  · split at hadv
    · rename_i hlt
      exact hadvance (h.setPeers _ _) hadv ⟨rfl, rfl, rfl, rfl, rfl, le_update hlt.le⟩
    · exact hadvance h hadv ⟨rfl, rfl, rfl, rfl, rfl, fun _ => le_rfl⟩

/-- An index that a majority holds is committed if its entry is of the current term. -/
theorem Wf.le_advanceCommit (h : rf.Wf) {k : Nat} (hk : k ≤ rf.logical.length)
    (hterm : termOf rf.logical k = rf.currentTerm) (hmaj : n / 2 < rf.replicaCount k)
    (hst : rf.advanceCommit = some rf') : k ≤ rf'.commitIndex := by
  unfold advanceCommit at hst
  rw [← h.lastLogIndex_eq] at hk
  generalize rf.lastLogIndex = i at hst hk
  induction i with
  | zero => omega
  | succ i ih =>
    unfold advanceCommitFrom at hst
    split at hst
    · simp only [Option.bind_eq_bind, Option.bind_eq_some_iff] at hst
      obtain ⟨t, ht, hst⟩ := hst
      obtain ⟨-, -, rfl⟩ := h.termAt_some ht
      -- the loop goes past an index only if it is not `k`
      have hnext : k ≠ i + 1 → k ≤ i := by omega
      split at hst
      · rename_i hother
        exact ih hst (hnext fun heq => hother (heq ▸ hterm))
      · split at hst
        · obtain rfl := Option.some.inj hst
          exact hk
        · rename_i hfew
          exact ih hst (hnext fun heq => hfew (heq ▸ hmaj))
    · obtain rfl := Option.some.inj hst
      omega

/-- An index that every peer holds is held by a majority. -/
theorem majority_of_all {k : Nat} (hall : ∀ j, j ≠ rf.me → k ≤ rf.matchIndex j) :
    n / 2 < rf.replicaCount k := by
  have hfilter : (Finset.univ.filter fun peer => peer ≠ rf.me ∧ k ≤ rf.matchIndex peer) =
      Finset.univ.erase rf.me := by
    ext j
    simp only [Finset.mem_filter, Finset.mem_univ, true_and, Finset.mem_erase, and_true]
    exact ⟨fun hj => hj.1, fun hj => ⟨hj, hall j hj⟩⟩
  have hpos : 0 < n := Nat.lt_of_le_of_lt (Nat.zero_le _) rf.me.isLt
  rw [replicaCount, hfilter, Finset.card_erase_of_mem (Finset.mem_univ _), Finset.card_univ,
    Fintype.card_fin]
  omega

theorem appendChecked_reply {args : AppendEntriesArgs n C} {ci : Option Nat}
    {reply : AppendEntriesReply} (hst : rf.appendChecked args ci = some (rf', reply)) :
    reply.term = rf'.currentTerm := by
  unfold appendChecked at hst
  split at hst
  · obtain ⟨rfl, rfl⟩ := Prod.mk.inj (Option.some.inj hst)
    rfl
  · simp only [Option.bind_eq_bind, Option.bind_eq_some_iff] at hst
    obtain ⟨t, -, hst⟩ := hst
    split at hst
    · simp only [Option.bind_eq_some_iff] at hst
      obtain ⟨first, -, hst⟩ := hst
      obtain ⟨rfl, rfl⟩ := Prod.mk.inj (Option.some.inj hst)
      rfl
    · simp only [Option.bind_eq_some_iff] at hst
      obtain ⟨rf₁, -, hst⟩ := hst
      obtain ⟨rfl, rfl⟩ := Prod.mk.inj (Option.some.inj hst)
      rfl

/-- The reply carries the term the server is in afterwards. -/
theorem appendEntries_reply {args : AppendEntriesArgs n C} {reply : AppendEntriesReply}
    (hst : rf.appendEntries args = some (rf', reply)) : reply.term = rf'.currentTerm := by
  unfold appendEntries at hst
  split at hst
  · obtain ⟨rfl, rfl⟩ := Prod.mk.inj (Option.some.inj hst)
    rfl
  · dsimp only at hst
    split at hst
    · split at hst
      · obtain ⟨rfl, rfl⟩ := Prod.mk.inj (Option.some.inj hst)
        rfl
      · exact appendChecked_reply hst
    · exact appendChecked_reply hst

/-- A server that has not left the term behind is in it afterwards, and has applied
    nothing. -/
theorem Wf.appendEntries_joins (h : rf.Wf) {args : AppendEntriesArgs n C}
    {reply : AppendEntriesReply} (hle : rf.currentTerm ≤ args.term)
    (hst : rf.appendEntries args = some (rf', reply)) :
    rf'.currentTerm = args.term ∧ rf'.lastApplied = rf.lastApplied := by
  rcases h.appendEntries_cases hst with ⟨hlt, -, -⟩ | ⟨-, rfl, -⟩ |
    ⟨-, -, p, es, l, -, -, -, rfl⟩
  · omega
  · exact ⟨followLeader_currentTerm hle, followLeader_lastApplied rf args.term⟩
  · refine ⟨?_, (sameService_accepted rf args l).lastApplied⟩
    have hterm := followLeader_currentTerm hle
    unfold accepted
    dsimp only
    split
    · exact hterm
    · exact hterm

/-- A request is granted if the logs agree where it starts and it ends beyond the
    snapshot of the server. -/
theorem Wf.appendEntries_accepts (h : rf.Wf) {args : AppendEntriesArgs n C}
    (hle : rf.currentTerm ≤ args.term)
    (hlen : args.prevLogIndex ≤ rf.logical.length)
    (hterm : termOf rf.logical args.prevLogIndex = args.prevLogTerm)
    (hend : rf.lastIncludedIndex < args.prevLogIndex + args.entries.length) :
    ∃ rf' reply, rf.appendEntries args = some (rf', reply) ∧ reply.success = true := by
  have hchecked : ∀ (args' : AppendEntriesArgs n C) (ci : Option Nat),
      rf.lastIncludedIndex ≤ args'.prevLogIndex → args'.prevLogIndex ≤ rf.logical.length →
      termOf rf.logical args'.prevLogIndex = args'.prevLogTerm →
      ∃ rf' reply, (rf.followLeader args.term).appendChecked args' ci = some (rf', reply) ∧
        reply.success = true := by
    intro args' ci hp hlen' hterm'
    rw [← followLeader_lastIncludedIndex rf args.term] at hp
    rw [← followLeader_logical rf args.term] at hlen' hterm'
    obtain ⟨l, reply, -, -, hok, heq⟩ :=
      (h.followLeader args.term).appendChecked_accepts ci hp hlen' hterm'
    exact ⟨_, reply, heq, hok⟩
  unfold appendEntries
  rw [if_neg (Nat.not_lt.mpr hle)]
  dsimp only
  rw [followLeader_lastIncludedIndex, followLeader_lastIncludedTerm]
  split
  · -- the request starts inside the snapshot
    rw [if_neg (Nat.not_le.mpr hend)]
    exact hchecked _ _ le_rfl h.le_length (by rw [termOf, h.take_logical, h.covers_term])
  · rename_i hout
    exact hchecked args none (Nat.le_of_not_lt hout) hlen hterm

/-- The same for a snapshot. -/
theorem Wf.installSnapshot_joins [Inhabited C] (h : rf.Wf) {args : InstallSnapshotArgs n C D}
    {reply : InstallSnapshotReply} {msg : Option (ApplyMsg C D)}
    (hle : rf.currentTerm ≤ args.term)
    (hst : rf.installSnapshot args = some (rf', reply, msg)) :
    reply.term = args.term ∧ rf'.currentTerm = args.term ∧
      rf'.lastApplied ≤ max rf.lastApplied args.lastIncludedIndex := by
  have hterm := followLeader_currentTerm hle
  have hreply : reply.term = (rf.followLeader args.term).currentTerm := by
    unfold installSnapshot at hst
    rw [if_neg (Nat.not_lt.mpr hle)] at hst
    dsimp only at hst
    split at hst
    · simp only [Option.some.injEq, Prod.mk.injEq] at hst
      rw [← hst.2.1]
    · simp only [Option.bind_eq_bind, Option.bind_eq_some_iff, Option.some.injEq,
        Prod.mk.injEq] at hst
      obtain ⟨newLog, -, -, hrep, -⟩ := hst
      rw [← hrep]
      rfl
  refine ⟨hreply.trans hterm, ?_⟩
  rcases h.installSnapshot_cases hst with ⟨hlt, -⟩ | ⟨-, -, rfl, -⟩ | ⟨-, -, -, tail, -, rfl⟩
  · omega
  · rw [followLeader_lastApplied]
    exact ⟨hterm, Nat.le_max_left _ _⟩
  · exact ⟨hterm, le_rfl⟩

end Raft

variable [Inhabited C] [Inhabited D]

/-! ### Serving one peer -/

/-- Server `l` leads in the highest term `T` with the log `L`, which ends with an entry
    of that term; nobody has applied this entry. -/
structure Rules (c : Cluster n C D) (l : Fin n) (T : Nat) (L : List (LogEntry C)) : Prop where
  reachable : (cluster n C D).Reachable System.anyStep c
  role : (c.servers l).rf.role = .leader
  term : (c.servers l).rf.currentTerm = T
  log : (c.servers l).rf.logical = L
  newest : termOf L L.length = T
  highest : ∀ j, (c.servers j).rf.currentTerm ≤ T
  unapplied : ∀ j, (c.servers j).rf.lastApplied < L.length

/-- A run without crashes in which `l` does not forget what its peers hold. -/
structure Onward (l : Fin n) (c c' : Cluster n C D) : Prop where
  run : (cluster n C D).Reaches noCrash c c'
  matchIndex : ∀ j, (c.servers l).rf.matchIndex j ≤ (c'.servers l).rf.matchIndex j

/-- Peer `s` has caught up: the leader knows that `s` holds its log, has told it how far it
    had committed, and has committed everything itself if all peers hold it. -/
structure CaughtUp (l s : Fin n) (L : List (LogEntry C)) (c c' : Cluster n C D) : Prop where
  matched : L.length ≤ (c'.servers l).rf.matchIndex s
  told : (c.servers l).rf.commitIndex ≤ (c'.servers s).rf.commitIndex
  commits : (∀ j, j ≠ l → L.length ≤ (c'.servers l).rf.matchIndex j) →
    L.length ≤ (c'.servers l).rf.commitIndex

section Serving

variable {c c' c'' : Cluster n C D} {l s : Fin n} {T : Nat} {L : List (LogEntry C)}

theorem Onward.trans (h : Onward l c c') (h' : Onward l c' c'') : Onward l c c'' :=
  ⟨h.run.trans h'.run, fun j => (h.matchIndex j).trans (h'.matchIndex j)⟩

/-- Without crashes no index of a server moves back. -/
theorem forward_of_noCrash (hc : (cluster n C D).Reachable System.anyStep c)
    (hrun : (cluster n C D).Reaches noCrash c c') (i : Fin n) :
    Raft.Forward (c.servers i).rf (c'.servers i).rf := by
  refine forward_of_reaches hc (Relation.ReflTransGen.mono ?_ _ _ hrun)
  rintro a b ⟨act, hact, hst⟩
  refine ⟨act, fun hcrash => ?_, hst⟩
  rw [show a.crashed? act = none from hact] at hcrash
  cases hcrash

/-- What an exchange between `l` and `s` leaves in place. -/
theorem Rules.exchange (h : Rules c l T L) (hrun : (cluster n C D).Reaches noCrash c c')
    (hl : Raft.StillLeads (c.servers l).rf (c'.servers l).rf)
    (hterm : (c'.servers s).rf.currentTerm ≤ T)
    (hunapplied : (c'.servers s).rf.lastApplied < L.length)
    (hothers : ∀ j, j ≠ l → j ≠ s → (c'.servers j).rf = (c.servers j).rf) :
    Onward l c c' ∧ Rules c' l T L := by
  refine ⟨⟨hrun, hl.matchIndex⟩, reachable_of_noCrash h.reachable hrun, hl.role.trans h.role,
    hl.currentTerm.trans h.term, hl.logical.trans h.log, h.newest, fun j => ?_, fun j => ?_⟩
  · by_cases hjs : j = s
    · exact hjs ▸ hterm
    · by_cases hjl : j = l
      · rw [hjl, hl.currentTerm]
        exact h.term.le
      · rw [hothers j hjl hjs]
        exact h.highest j
  · by_cases hjs : j = s
    · exact hjs ▸ hunapplied
    · by_cases hjl : j = l
      · rw [hjl, hl.lastApplied]
        exact h.unapplied l
      · rw [hothers j hjl hjs]
        exact h.unapplied j

/-- A round in which the peer answers a request, whatever the answer. -/
theorem Rules.round (h : Rules c l T L) (hne : s ≠ l) {args : AppendEntriesArgs n C}
    (hsend : Sends c l s args) {rf : Raft n C D} {reply : AppendEntriesReply}
    (hst : (c.servers s).rf.appendEntries args = some (rf, reply)) :
    ∃ c' rf', (cluster n C D).run System.anyStep c (backupRound c l s) = some c' ∧
      (c.servers l).rf.handleAppendReply s args reply = some rf' ∧
      (c'.servers l).rf = rf' ∧ (c'.servers s).rf = rf ∧
      reply.term = T ∧ Onward l c c' ∧ Rules c' l T L := by
  obtain ⟨a, ha⟩ := exists_refines h.reachable
  obtain ⟨-, hterm, -⟩ := ha.sends hsend
  rw [h.term] at hterm
  have hwf := (ha.servers s).wf
  obtain ⟨hjoin, happlied⟩ := hwf.appendEntries_joins (hterm ▸ h.highest s) hst
  have hreply : reply.term = T := by
    rw [Raft.appendEntries_reply hst, hjoin, hterm]
  obtain ⟨rf', hback⟩ := Option.isSome_iff_exists.mp
    ((noPanic h.reachable l).handleAppendReply s args reply)
  let c₁ := c.post [.appendRequest l s args]
  let c₂ := (c₁.setServer s { c.servers s with rf := rf }).post [.appendReply l s args reply]
  let c₃ := c₂.setServer l { c.servers l with rf := rf' }
  have hl : c₂.servers l = c.servers l := by
    simp [c₂, c₁, Cluster.post, Cluster.setServer, hne.symm]
  have hstep₁ : c.step (.replicate l s) = some c₁ := hsend.step hne
  have hstep₂ : c₁.step (.deliver c.packets.length) = some c₂ :=
    step_appendRequest (by simp [c₁, Cluster.post]) hst
  have hstep₃ : c₂.step (.deliver (c.packets.length + 1)) = some c₃ := by
    have hpacket : c₂.packets[c.packets.length + 1]? = some (.appendReply l s args reply) := by
      simp [c₂, c₁, Cluster.post, Cluster.setServer]
    rw [step_appendReply hpacket (by rw [hl]; exact hback), hl]
  have hrun : (cluster n C D).Reaches noCrash c c₃ :=
    (reaches_single hstep₁ rfl).trans
      ((reaches_single hstep₂ rfl).trans (reaches_single hstep₃ rfl))
  have hleader : (c₃.servers l).rf = rf' := by simp [c₃, Cluster.setServer]
  have hpeer : (c₃.servers s).rf = rf := by
    simp [c₃, c₂, c₁, Cluster.setServer, Cluster.post, hne]
  refine ⟨c₃, rf', run_backupRound hstep₁ hstep₂ hstep₃, hback, hleader, hpeer, hreply,
    h.exchange (s := s) hrun ?_ ?_ ?_ ?_⟩
  · rw [hleader]
    exact (ha.servers l).wf.stillLeads_handleAppendReply (by rw [h.term, hreply]) hback
  · rw [hpeer, hjoin, hterm]
  · rw [hpeer, happlied]
    exact h.unapplied s
  · intro j hjl hjs
    simp [c₃, c₂, c₁, Cluster.setServer, Cluster.post, hjl, hjs]

/-- A peer that grants a request has caught up. -/
theorem Rules.accepted (h : Rules c l T L) (hne : s ≠ l) {args : AppendEntriesArgs n C}
    (hsend : Sends c l s args) {rf : Raft n C D} {reply : AppendEntriesReply}
    (hst : (c.servers s).rf.appendEntries args = some (rf, reply)) (hok : reply.success = true) :
    ∃ c', Onward l c c' ∧ Rules c' l T L ∧ CaughtUp l s L c c' := by
  obtain ⟨c', rf', -, hback, hleader, hpeer, hreply, honward, hrules⟩ := h.round hne hsend hst
  obtain ⟨a, ha⟩ := exists_refines h.reachable
  obtain ⟨hrole, hterm, hprev, hentries, -, -⟩ := ha.sends hsend
  rw [h.log] at hprev hentries
  have hlast := request_end_eq hprev hentries
  refine ⟨c', honward, hrules, ?_⟩
  -- the leader takes the end of its log for the match index and looks what it can commit
  unfold Raft.handleAppendReply at hback
  rw [if_neg (by simp [hrole, hterm]), if_neg (by rw [h.term, hreply]; exact Nat.lt_irrefl T),
    if_pos hok, hlast] at hback
  dsimp only at hback
  generalize hrf₁ : (if (c.servers l).rf.matchIndex s < L.length then
    { (c.servers l).rf with
      matchIndex := Function.update (c.servers l).rf.matchIndex s L.length
      nextIndex := Function.update (c.servers l).rf.nextIndex s (L.length + 1) }
    else (c.servers l).rf) = rf₁ at hback
  have hok₁ := ha.servers l
  have hfacts : rf₁.Wf ∧ rf₁.me = l ∧ rf₁.logical = L ∧ rf₁.currentTerm = T ∧
      L.length ≤ rf₁.matchIndex s := by
    rw [← hrf₁]
    split
    · exact ⟨hok₁.wf.setPeers _ _, hok₁.me, h.log, h.term, by simp⟩
    · exact ⟨hok₁.wf, hok₁.me, h.log, h.term, by omega⟩
  obtain ⟨hwf, hme, hlog, hcur, hmatch⟩ := hfacts
  have hsame : rf'.matchIndex = rf₁.matchIndex := by
    rcases hwf.advanceCommit_cases hback with rfl | ⟨k, e, -, -, -, -, rfl⟩ <;> rfl
  constructor
  case matched =>
    rw [hleader, hsame]
    exact hmatch
  case told =>
    obtain ⟨a₁, -, ha₁⟩ := ha.step (hsend.step hne)
    have hposted : AppendOk a₁ args := ha₁.packets (.appendRequest l s args)
      (List.mem_append_right _ (List.mem_singleton.mpr rfl))
    obtain ⟨F, -, -, -, -, -, hcommit⟩ := (ha₁.servers s).accepts ha₁.inv hposted hst hok
    have hsent : args.leaderCommit = (c.servers l).rf.commitIndex := by
      rcases hok₁.wf.replicateTo_cases hsend with hnone | ⟨-, -, hsnap⟩ | ⟨-, -, -, hargs⟩
      · cases hnone
      · cases hsnap
      · rw [Request.appendEntries.inj (Option.some.inj hargs)]
    rw [hpeer, hcommit, hsent]
    exact Nat.le_max_right _ _
  case commits =>
    intro hall
    rw [hleader, hsame] at hall
    rw [hleader]
    exact hwf.le_advanceCommit (by rw [hlog]) (by rw [hlog, hcur]; exact h.newest)
      (Raft.majority_of_all (by rw [hme]; exact hall)) hback

/-- A peer that is sent a snapshot installs it, hands it to its service if it is new,
    and answers. -/
theorem exists_snapshotReply {args : InstallSnapshotArgs n C D}
    (hp : Packet.snapshotRequest l s args ∈ c.packets) {rf : Raft n C D}
    {reply : InstallSnapshotReply} {msg : Option (ApplyMsg C D)}
    (hst : (c.servers s).rf.installSnapshot args = some (rf, reply, msg)) :
    ∃ c', (cluster n C D).Reaches noCrash c c' ∧ (c'.servers s).rf = rf ∧
      (∀ j, j ≠ s → c'.servers j = c.servers j) ∧
      Packet.snapshotReply l s args reply ∈ c'.packets := by
  obtain ⟨k, hk⟩ := List.mem_iff_getElem?.mp hp
  cases msg with
  | none =>
    let c₁ := (c.setServer s { c.servers s with rf := rf }).post [.snapshotReply l s args reply]
    have hstep : c.step (.deliver k) = some c₁ := by
      simp only [Cluster.step, hk, Option.bind_some, Cluster.deliver, hst, Option.bind_eq_bind]
      rfl
    refine ⟨c₁, reaches_single hstep rfl, ?_, fun j hj => ?_, ?_⟩
    · simp [c₁, Cluster.setServer, Cluster.post]
    · simp [c₁, Cluster.setServer, Cluster.post, hj]
    · exact List.mem_append_right _ (List.mem_singleton.mpr rfl)
  | some msg =>
    let waiting : SnapshotSend n C D :=
      { msg := msg, caller := l, args := args, reply := reply }
    let sends := (c.servers s).snapshotSends
    let sv : Server n C D := { c.servers s with rf := rf, snapshotSends := sends ++ [waiting] }
    let c₁ := c.setServer s sv
    let c₂ := ((c₁.setServer s { sv with
      snapshotSends := sv.snapshotSends.eraseIdx sends.length
      sent := sv.sent ++ [msg] }).emit s msg).post [.snapshotReply l s args reply]
    have hstep₁ : c.step (.deliver k) = some c₁ := by
      simp only [Cluster.step, hk, Option.bind_some, Cluster.deliver, hst, Option.bind_eq_bind]
      rfl
    have hself : c₁.servers s = sv := by simp [c₁, Cluster.setServer]
    have hwaiting : sv.snapshotSends[sends.length]? = some waiting := by simp [sv]
    have hstep₂ : c₁.step (.sendSnapshot s sends.length) = some c₂ := by
      simp only [Cluster.step, hself, hwaiting, Option.bind_eq_bind, Option.bind_some]
      rfl
    refine ⟨c₂, (reaches_single hstep₁ rfl).trans (reaches_single hstep₂ rfl), ?_,
      fun j hj => ?_, ?_⟩
    · simp [c₂, sv, Cluster.setServer, Cluster.post, Cluster.emit]
    · simp [c₂, c₁, Cluster.setServer, Cluster.post, Cluster.emit, hj]
    · exact List.mem_append_right _ (List.mem_singleton.mpr rfl)

/-- After a snapshot the next request follows the last index that the peer is known
    to hold. -/
theorem Rules.snapshot (h : Rules c l T L) (hne : s ≠ l) {args : InstallSnapshotArgs n C D}
    (hsend : (c.servers l).rf.replicateTo s (c.servers l).rf.currentTerm =
      some (some (.installSnapshot args))) :
    ∃ c', Onward l c c' ∧ Rules c' l T L ∧ (c'.servers s).rf.currentTerm = T ∧
      (c'.servers l).rf.nextIndex s = (c'.servers l).rf.matchIndex s + 1 ∧
      (c'.servers l).rf.lastIncludedIndex ≤ (c'.servers l).rf.matchIndex s := by
  obtain ⟨a, ha⟩ := exists_refines h.reachable
  have hargs : args.term = T ∧ args.lastIncludedIndex = (c.servers l).rf.lastIncludedIndex := by
    rcases (ha.servers l).wf.replicateTo_cases hsend with hnone | ⟨-, -, hsnap⟩ | ⟨-, -, -, happ⟩
    · cases hnone
    · rw [Request.installSnapshot.inj (Option.some.inj hsnap)]
      exact ⟨h.term, rfl⟩
    · cases happ
  obtain ⟨hterm, hincluded⟩ := hargs
  let c₁ := c.post [.snapshotRequest l s args]
  have hstep₁ : c.step (.replicate l s) = some c₁ := by
    simp only [Cluster.step, if_neg hne, hsend, Option.bind_eq_bind, Option.bind_some]
    rfl
  obtain ⟨⟨rf, reply, msg⟩, hst⟩ := (ha.servers s).wf.installSnapshot_total args
  obtain ⟨hreply, hjoin, happlied⟩ :=
    (ha.servers s).wf.installSnapshot_joins (by rw [hterm]; exact h.highest s) hst
  obtain ⟨c₂, hrun₂, hs₂, hothers₂, hp₂⟩ := exists_snapshotReply (c := c₁) (l := l)
    (List.mem_append_right _ (List.mem_singleton.mpr rfl)) hst
  have hl₂ : c₂.servers l = c.servers l := hothers₂ l hne.symm
  obtain ⟨k, hk⟩ := List.mem_iff_getElem?.mp hp₂
  let rf' := (c.servers l).rf.handleSnapshotReply s args reply
  let c₃ := c₂.setServer l { c.servers l with rf := rf' }
  have hstep₃ : c₂.step (.deliver k) = some c₃ := by
    simp only [Cluster.step, hk, Option.bind_some, Cluster.deliver, hl₂]
    rfl
  have hrun : (cluster n C D).Reaches noCrash c c₃ :=
    (reaches_single hstep₁ rfl).trans (hrun₂.trans (reaches_single hstep₃ rfl))
  have hrf' : rf' = { (c.servers l).rf with
      matchIndex := Function.update (c.servers l).rf.matchIndex s
        (max ((c.servers l).rf.matchIndex s) args.lastIncludedIndex)
      nextIndex := Function.update (c.servers l).rf.nextIndex s
        (max ((c.servers l).rf.matchIndex s) args.lastIncludedIndex + 1) } := by
    simp only [rf', Raft.handleSnapshotReply]
    rw [if_neg (by simp [h.role, h.term, hterm]), if_neg (by rw [h.term, hreply, hterm]; omega)]
  have hleader : (c₃.servers l).rf = rf' := by simp [c₃, Cluster.setServer]
  have hpeer : (c₃.servers s).rf = rf := by simp [c₃, Cluster.setServer, hne, hs₂]
  have hshort : (c.servers l).rf.lastIncludedIndex < L.length :=
    (ha.servers l).included.trans_lt (h.unapplied l)
  obtain ⟨honward, hrules⟩ := h.exchange (s := s) hrun
    (by
      rw [hleader, hrf']
      exact ⟨rfl, rfl, rfl, rfl, rfl, Raft.le_update (Nat.le_max_left _ _)⟩)
    (by rw [hpeer, hjoin, hterm])
    (by
      rw [hpeer]
      exact happlied.trans_lt (max_lt (h.unapplied s) (hincluded ▸ hshort)))
    (by
      intro j hjl hjs
      simp only [c₃, Cluster.setServer, Function.update_of_ne hjl, hothers₂ j hjs]
      rfl)
  refine ⟨c₃, honward, hrules, by rw [hpeer, hjoin, hterm], ?_, ?_⟩
  · rw [hleader, hrf']
    simp
  · rw [hleader, hrf']
    simp [hincluded]

/-- A request that follows what the peer is known to hold is granted. -/
theorem Rules.grants (h : Rules c l T L) (hterm : (c.servers s).rf.currentTerm = T)
    (hnext : (c.servers l).rf.nextIndex s = (c.servers l).rf.matchIndex s + 1)
    (hincl : (c.servers l).rf.lastIncludedIndex ≤ (c.servers l).rf.matchIndex s) :
    ∃ args rf reply, Sends c l s args ∧
      (c.servers s).rf.appendEntries args = some (rf, reply) ∧ reply.success = true := by
  obtain ⟨a, ha⟩ := exists_refines h.reachable
  rcases exists_request h.reachable h.role s with ⟨args, hsnap⟩ | ⟨args, hsend⟩
  · exfalso
    rcases (ha.servers l).wf.replicateTo_cases hsnap with hnone | ⟨-, hle, -⟩ | ⟨-, -, -, happ⟩
    · cases hnone
    · omega
    · cases happ
  obtain ⟨-, hargs, hprev, hentries, hprevTerm, hsucc⟩ := ha.sends hsend
  rw [h.log] at hprev hentries hprevTerm
  have hm : args.prevLogIndex = (c.servers l).rf.matchIndex s := by omega
  -- what the peer has acknowledged in this term it still holds
  have hagree : args.prevLogIndex ≤ (c.servers s).rf.logical.length ∧
      (c.servers s).rf.logical.take args.prevLogIndex = L.take args.prevLogIndex := by
    rw [hm]
    rcases (ha.servers l).matched h.role s with hzero | hack
    · rw [hzero]
      exact ⟨Nat.zero_le _, rfl⟩
    · have htake := ha.acked_take ha (.refl a) (s := s) (by rw [hterm, ← h.term]; exact hack)
      rw [hterm, ← h.term, ha.leaderLog_eq h.role, h.log] at htake
      exact htake
  have hincluded : (c.servers s).rf.lastIncludedIndex <
      args.prevLogIndex + args.entries.length := by
    rw [request_end_eq hprev hentries]
    exact (ha.servers s).included.trans_lt (h.unapplied s)
  obtain ⟨rf, reply, hst, hok⟩ := (ha.servers s).wf.appendEntries_accepts
    (by rw [← hargs, h.term]; exact h.highest s) hagree.1
    (by rw [hprevTerm]; exact termOf_congr hagree.2 le_rfl) hincluded
  exact ⟨args, rf, reply, hsend, hst, hok⟩

theorem CaughtUp.of_onward (h : Rules c l T L) (hrun : Onward l c c') (hs : CaughtUp l s L c' c'') :
    CaughtUp l s L c c'' :=
  ⟨hs.matched, (forward_of_noCrash h.reachable hrun.run l).commitIndex.trans hs.told, hs.commits⟩

/-- However often it has to back up, the leader comes to serve the peer. -/
theorem BacksUp.caughtUp {k : Nat} (hback : BacksUp l s k c) (h : Rules c l T L) (hne : s ≠ l) :
    ∃ c', Onward l c c' ∧ Rules c' l T L ∧ CaughtUp l s L c c' := by
  induction hback with
  | snapshot c args hsend =>
    obtain ⟨c₁, hrun₁, h₁, hterm, hnext, hincl⟩ := h.snapshot hne hsend
    obtain ⟨args', rf, reply, hsend', hst, hok⟩ := h₁.grants hterm hnext hincl
    obtain ⟨c', hrun, h', hcaught⟩ := h₁.accepted hne hsend' hst hok
    exact ⟨c', hrun₁.trans hrun, h', hcaught.of_onward h hrun₁⟩
  | accepted c args rf reply hsend hst hok => exact h.accepted hne hsend hst hok
  | rejected k c c₁ args rf reply hsend hst hno hround hrest ih =>
    obtain ⟨c₂, rf', hround', -, -, -, -, hrun₁, h₁⟩ := h.round hne hsend hst
    obtain rfl : c₁ = c₂ := Option.some.inj (hround.symm.trans hround')
    obtain ⟨c', hrun, h', hcaught⟩ := ih h₁
    exact ⟨c', hrun₁.trans hrun, h', hcaught.of_onward h hrun₁⟩

theorem Rules.exists_caughtUp (h : Rules c l T L) (hne : s ≠ l) :
    ∃ c', Onward l c c' ∧ Rules c' l T L ∧ CaughtUp l s L c c' := by
  obtain ⟨k, -, hback⟩ := exists_backsUp h.reachable hne h.role (by rw [h.term]; exact h.highest s)
  exact hback.caughtUp h hne

/-! ### Serving all of them -/

/-- What can be reached for each peer and stays can be reached for all of them. -/
theorem Rules.exists_forall (h : Rules c l T L) {P : Fin n → Cluster n C D → Prop}
    (hkept : ∀ j t u, Rules t l T L → Onward l t u → P j t → P j u)
    (hcan : ∀ s, s ≠ l → ∀ t, Onward l c t → Rules t l T L →
      ∃ u, Onward l t u ∧ Rules u l T L ∧ P s u) :
    ∃ c', Onward l c c' ∧ Rules c' l T L ∧ ∀ j, j ≠ l → P j c' := by
  suffices hsome : ∀ S : Finset (Fin n), ∃ c', Onward l c c' ∧ Rules c' l T L ∧
      ∀ j ∈ S, j ≠ l → P j c' by
    obtain ⟨c', hrun, h', hall⟩ := hsome Finset.univ
    exact ⟨c', hrun, h', fun j => hall j (Finset.mem_univ j)⟩
  intro S
  induction S using Finset.induction_on with
  | empty => exact ⟨c, ⟨.refl, fun _ => le_rfl⟩, h, by simp⟩
  | insert s S _ ih =>
    obtain ⟨t, hrun, ht, hall⟩ := ih
    by_cases hs : s = l
    · refine ⟨t, hrun, ht, fun j hj hjl => ?_⟩
      rcases Finset.mem_insert.mp hj with rfl | hj
      · exact absurd hs hjl
      · exact hall j hj hjl
    · obtain ⟨u, hrun', hu, hP⟩ := hcan s hs t hrun ht
      refine ⟨u, hrun.trans hrun', hu, fun j hj hjl => ?_⟩
      rcases Finset.mem_insert.mp hj with rfl | hj
      · exact hP
      · exact hkept j t u ht hrun' (hall j hj hjl)

/-- All servers can come to know that the whole log is committed. -/
theorem Rules.exists_committed (hn : 2 ≤ n) (h : Rules c l T L) :
    ∃ c', (cluster n C D).Reaches noCrash c c' ∧ Rules c' l T L ∧
      ∀ j, L.length ≤ (c'.servers j).rf.commitIndex := by
  -- first all peers get the log
  obtain ⟨c₁, hrun₁, h₁, hmatched⟩ := h.exists_forall
    (P := fun j t => L.length ≤ (t.servers l).rf.matchIndex j)
    (fun j t u _ hrun hj => hj.trans (hrun.matchIndex j))
    (fun s hs t _ ht => by
      obtain ⟨u, hrun, hu, hcaught⟩ := ht.exists_caughtUp hs
      exact ⟨u, hrun, hu, hcaught.matched⟩)
  -- the next answer lets the leader commit it
  obtain ⟨s, hs⟩ : ∃ s : Fin n, s ≠ l := by
    have : Nontrivial (Fin n) := Fin.nontrivial_iff_two_le.mpr hn
    exact exists_ne l
  obtain ⟨c₂, hrun₂, h₂, hcaught⟩ := h₁.exists_caughtUp hs
  have hleader : L.length ≤ (c₂.servers l).rf.commitIndex :=
    hcaught.commits fun j hj => (hmatched j hj).trans (hrun₂.matchIndex j)
  -- then it tells the peers
  obtain ⟨c₃, hrun₃, h₃, htold⟩ := h₂.exists_forall
    (P := fun j t => L.length ≤ (t.servers j).rf.commitIndex)
    (fun j t u ht hrun hj =>
      hj.trans (forward_of_noCrash ht.reachable hrun.run j).commitIndex)
    (fun s hs t hrun ht => by
      obtain ⟨u, hrun', hu, hcaught⟩ := ht.exists_caughtUp hs
      have hcommit := (forward_of_noCrash h₂.reachable hrun.run l).commitIndex
      exact ⟨u, hrun', hu, hleader.trans (hcommit.trans hcaught.told)⟩)
  refine ⟨c₃, hrun₁.run.trans (hrun₂.run.trans hrun₃.run), h₃, fun j => ?_⟩
  by_cases hj : j = l
  · rw [hj]
    exact hleader.trans (forward_of_noCrash h₂.reachable hrun₃.run l).commitIndex
  · exact htold j hj

end Serving

/-! ### Delivery -/

section Delivery

variable {c : Cluster n C D} {i : Fin n}

omit [Inhabited C] [Inhabited D] in
theorem Raft.Wf.applier_advances {rf : Raft n C D} (h : rf.Wf)
    (hlt : rf.lastApplied < rf.commitIndex) (hincl : rf.lastIncludedIndex ≤ rf.lastApplied)
    {e : LogEntry C} (he : rf.logical[rf.lastApplied]? = some e) :
    rf.applier = some ({ rf with lastApplied := rf.lastApplied + 1 },
      some (.command e.command (rf.lastApplied + 1))) := by
  have hentry : ({ rf with lastApplied := rf.lastApplied + 1 } : Raft n C D).entryAt
      (rf.lastApplied + 1) = some e := (h.entryAt_eq hincl).trans he
  unfold Raft.applier
  rw [if_pos ⟨hlt, hincl⟩]
  dsimp only
  rw [if_neg (by omega), hentry]
  rfl

/-- The applier completes the send it is waiting in. -/
theorem exists_flushed (c : Cluster n C D) (i : Fin n) :
    ∃ c', (cluster n C D).Reaches noCrash c c' ∧ (c'.servers i).applierSend = none ∧
      (c'.servers i).rf = (c.servers i).rf ∧ (∀ j, j ≠ i → c'.servers j = c.servers j) ∧
      c.emitted ⊆ c'.emitted ∧
      ∀ msg, (c.servers i).applierSend = some msg → (i, msg) ∈ c'.emitted := by
  cases hsend : (c.servers i).applierSend with
  | none => exact ⟨c, .refl, hsend, rfl, fun _ _ => rfl, fun _ hm => hm, nofun⟩
  | some msg =>
    let sv := c.servers i
    let c' := (c.setServer i { sv with applierSend := none, sent := sv.sent ++ [msg] }).emit i msg
    have hstep : c.step (.sendCommand i) = some c' := by
      simp only [Cluster.step, hsend, Option.bind_eq_bind, Option.bind_some]
      rfl
    refine ⟨c', reaches_single hstep rfl, ?_, ?_, fun j hj => ?_, ?_, ?_⟩
    · simp [c', Cluster.setServer, Cluster.emit]
    · simp [c', sv, Cluster.setServer, Cluster.emit]
    · simp [c', Cluster.setServer, Cluster.emit, hj]
    · exact fun m hm => List.mem_append_left _ hm
    · rintro m hm
      obtain rfl := Option.some.inj hm
      exact List.mem_append_right _ (List.mem_singleton.mpr rfl)

/-- The applier takes the next committed entry and sends it. -/
theorem exists_applied (hc : (cluster n C D).Reachable System.anyStep c)
    (hlt : (c.servers i).rf.lastApplied < (c.servers i).rf.commitIndex) {e : LogEntry C}
    (he : (c.servers i).rf.logical[(c.servers i).rf.lastApplied]? = some e) :
    ∃ c', (cluster n C D).Reaches noCrash c c' ∧
      (c'.servers i).rf =
        { (c.servers i).rf with lastApplied := (c.servers i).rf.lastApplied + 1 } ∧
      (i, ApplyMsg.command e.command ((c.servers i).rf.lastApplied + 1)) ∈ c'.emitted ∧
      (∀ j, j ≠ i → c'.servers j = c.servers j) ∧ c.emitted ⊆ c'.emitted := by
  obtain ⟨a, ha⟩ := exists_refines hc
  obtain ⟨c₁, hrun₁, hfree, hrf, hothers₁, hemitted₁, -⟩ := exists_flushed c i
  have hadv := (ha.servers i).wf.applier_advances hlt (ha.servers i).included he
  generalize ({ (c.servers i).rf with
    lastApplied := (c.servers i).rf.lastApplied + 1 } : Raft n C D) = rf at hadv ⊢
  let msg : ApplyMsg C D := .command e.command ((c.servers i).rf.lastApplied + 1)
  let c₂ := c₁.setServer i { c₁.servers i with rf := rf, applierSend := some msg }
  have hstep₂ : c₁.step (.apply i) = some c₂ := by
    simp only [Cluster.step, hfree, hrf, hadv, Option.bind_eq_bind, Option.bind_some]
    rfl
  have hself : c₂.servers i = { c₁.servers i with rf := rf, applierSend := some msg } := by
    simp [c₂, Cluster.setServer]
  obtain ⟨c₃, hrun₃, -, hrf₃, hothers₃, hemitted₃, hsent⟩ := exists_flushed c₂ i
  refine ⟨c₃, hrun₁.trans ((reaches_single hstep₂ rfl).trans hrun₃), ?_, ?_, fun j hj => ?_,
    fun m hm => hemitted₃ (hemitted₁ hm)⟩
  · rw [hrf₃, hself]
  · exact hsent msg (by rw [hself])
  · rw [hothers₃ j hj, ← hothers₁ j hj]
    simp [c₂, Cluster.setServer, hj]

/-- A committed entry that has not been applied can be handed to the service. -/
theorem exists_delivered (hc : (cluster n C D).Reachable System.anyStep c) {k : Nat}
    {e : LogEntry C} (happlied : (c.servers i).rf.lastApplied ≤ k)
    (hcommit : k < (c.servers i).rf.commitIndex) (he : (c.servers i).rf.logical[k]? = some e) :
    ∃ c', (cluster n C D).Reaches noCrash c c' ∧
      (i, ApplyMsg.command e.command (k + 1)) ∈ c'.emitted ∧
      (∀ j, j ≠ i → c'.servers j = c.servers j) ∧ c.emitted ⊆ c'.emitted := by
  -- induction on how many entries are to be applied before it
  induction hleft : k - (c.servers i).rf.lastApplied generalizing c with
  | zero =>
    obtain rfl : (c.servers i).rf.lastApplied = k := by omega
    obtain ⟨c', hrun, -, hsent, hrest⟩ := exists_applied hc hcommit he
    exact ⟨c', hrun, hsent, hrest⟩
  | succ left ih =>
    obtain ⟨a, ha⟩ := exists_refines hc
    have hlt : (c.servers i).rf.lastApplied < (c.servers i).rf.commitIndex := by omega
    obtain ⟨c₁, hrun₁, hrf, -, hothers₁, hemitted₁⟩ := exists_applied hc hlt
      (List.getElem?_eq_getElem (hlt.trans_le (ha.commitIndex_le i)))
    obtain ⟨c', hrun, hsent, hothers, hemitted⟩ := ih (reachable_of_noCrash hc hrun₁)
      (by rw [hrf]; dsimp only; omega) (by rw [hrf]; exact hcommit) (by rw [hrf]; exact he)
      (by rw [hrf]; dsimp only; omega)
    exact ⟨c', hrun₁.trans hrun, hsent, fun j hj => (hothers j hj).trans (hothers₁ j hj),
      fun m hm => hemitted (hemitted₁ hm)⟩

/-- So can one that all servers have committed, everywhere. -/
theorem exists_delivered_all (hc : (cluster n C D).Reachable System.anyStep c) {k : Nat}
    {e : LogEntry C} (happlied : ∀ i, (c.servers i).rf.lastApplied ≤ k)
    (hcommit : ∀ i, k < (c.servers i).rf.commitIndex)
    (he : ∀ i, (c.servers i).rf.logical[k]? = some e) :
    ∃ c', (cluster n C D).Reaches noCrash c c' ∧
      ∀ i, (i, ApplyMsg.command e.command (k + 1)) ∈ c'.emitted := by
  suffices hsome : ∀ S : Finset (Fin n), ∃ c', (cluster n C D).Reaches noCrash c c' ∧
      (∀ i ∈ S, (i, ApplyMsg.command e.command (k + 1)) ∈ c'.emitted) ∧
      ∀ i, i ∉ S → c'.servers i = c.servers i by
    obtain ⟨c', hrun, hall, -⟩ := hsome Finset.univ
    exact ⟨c', hrun, fun i => hall i (Finset.mem_univ i)⟩
  intro S
  induction S using Finset.induction_on with
  | empty => exact ⟨c, .refl, by simp, fun _ _ => rfl⟩
  | insert i S hi ih =>
    obtain ⟨t, hrun, hall, hothers⟩ := ih
    obtain ⟨c', hrun', hsent, hothers', hemitted⟩ := exists_delivered (i := i) (k := k) (e := e)
      (reachable_of_noCrash hc hrun) (by rw [hothers i hi]; exact happlied i)
      (by rw [hothers i hi]; exact hcommit i) (by rw [hothers i hi]; exact he i)
    refine ⟨c', hrun.trans hrun', fun j hj => ?_, fun j hj => ?_⟩
    · rcases Finset.mem_insert.mp hj with rfl | hj
      · exact hsent
      · exact hemitted (hall j hj)
    · rw [Finset.mem_insert, not_or] at hj
      rw [hothers' j hj.1, hothers j hj.2]

end Delivery

/-! ### Progress -/

section Progress

variable {c : Cluster n C D} {a : Abs n C} {l : Fin n}

omit [Inhabited D] in
/-- What is committed is a prefix of the log of a leader of the highest term. -/
theorem Leads.committed_isPrefix (h : Leads c l) (ha : Refines c a) {X : List (LogEntry C)}
    (hX : Committed a X) : X <+: (c.servers l).rf.logical := by
  have hlead := (ha.inv.leads l (by rw [(ha.servers l).peer]; exact h.role)).1
  rw [(ha.servers l).peer] at hlead
  rw [← ha.leaderLog_eq h.role]
  obtain ⟨U, rfl | ⟨T, k, -, hchosen, hpre⟩⟩ := hX
  · exact List.nil_prefix
  · -- a member of the quorum was in the term in which the prefix was chosen
    obtain ⟨Q, hQ, hacked⟩ := hchosen.2
    obtain ⟨v, hv, -⟩ := (ReplicatedLog.majorities (Fin n)).meet Q Q hQ hQ
    obtain ⟨m, -, hack⟩ := hacked v hv
    have hle := (ha.inv.ack_ok v T m hack).1
    rw [(ha.servers v).peer] at hle
    exact ha.inv.committed_isPrefix (.inr ⟨T, k, hle.trans (h.highest v), hchosen, hpre⟩) le_rfl
      (by simp [hlead])

omit [Inhabited D] in
/-- Every index that has been handed to a service lies within that log. -/
theorem Leads.index_le (h : Leads c l) (ha : Refines c a) {msg : ApplyMsg C D}
    (hmsg : MsgOk a msg) : msg.index ≤ (c.servers l).rf.logical.length := by
  cases msg with
  | command command index =>
    obtain ⟨X, e, hX, hpos, he, -⟩ := hmsg
    have hlen := (h.committed_isPrefix ha hX).length_le
    have hlt := (List.getElem?_eq_some_iff.mp he).1
    simp only [ApplyMsg.index]
    omega
  | snapshot data term index =>
    obtain ⟨hX, hlen, -⟩ := hmsg
    simp only [ApplyMsg.index, ← hlen]
    exact (h.committed_isPrefix ha hX).length_le

omit [Inhabited D] in
theorem Leads.commitIndex_le (h : Leads c l) (ha : Refines c a) (i : Fin n) :
    (c.servers i).rf.commitIndex ≤ (c.servers l).rf.logical.length := by
  have hpre := h.committed_isPrefix ha ⟨_, ha.committedBy i⟩
  have hlen := hpre.length_le
  rw [List.length_take_of_le (ha.commitIndex_le i)] at hlen
  exact hlen

/-- A leader of the highest term takes a command. -/
theorem Leads.exists_rules (h : Leads c l) (hc : (cluster n C D).Reachable System.anyStep c)
    (command : C) : ∃ c', (cluster n C D).Reaches noCrash c c' ∧
      Rules c' l (c.servers l).rf.currentTerm ((c.servers l).rf.logical ++
        [{ term := (c.servers l).rf.currentTerm, command := command }]) := by
  obtain ⟨a, ha⟩ := exists_refines hc
  let rf := ((c.servers l).rf.start command).1
  let c' := c.setServer l { c.servers l with rf := rf }
  have hstep : c.step (.start l command) = some c' := rfl
  have hrf : rf = { (c.servers l).rf with
      log := (c.servers l).rf.log ++
        [({ term := (c.servers l).rf.currentTerm, command := command } : LogEntry C)]
      }.persist := by
    rcases (c.servers l).rf.start_cases command with ⟨hno, -⟩ | ⟨-, heq⟩
    · exact absurd h.role hno
    · exact heq
  have hlog := ((ha.servers l).wf.logical_append
    { term := (c.servers l).rf.currentTerm, command := command }).2
  have hself : (c'.servers l).rf = rf := by simp [c', Cluster.setServer]
  have hothers : ∀ j, j ≠ l → c'.servers j = c.servers j := by
    intro j hj
    simp [c', Cluster.setServer, hj]
  have hrun := reaches_single hstep rfl
  refine ⟨c', hrun, reachable_of_noCrash hc hrun, ?_, ?_, ?_, ?_, fun j => ?_, fun j => ?_⟩
  · rw [hself, hrf]
    exact h.role
  · rw [hself, hrf]
    rfl
  · rw [hself, hrf]
    exact hlog
  · rw [termOf_length]
    simp [lastTerm]
  · by_cases hj : j = l
    · rw [hj, hself, hrf]
      exact le_rfl
    · rw [hothers j hj]
      exact h.highest j
  · have happlied : (c'.servers j).rf.lastApplied = (c.servers j).rf.lastApplied := by
      by_cases hj : j = l
      · rw [hj, hself, hrf]
        rfl
      · rw [hothers j hj]
    rw [happlied, List.length_append]
    exact Nat.lt_succ_of_le ((ha.servers j).applied.trans (h.commitIndex_le ha j))

/-- A server that has committed as much as the leader's log holds it. -/
theorem Rules.entry {T : Nat} {L : List (LogEntry C)} (h : Rules c l T L) {i : Fin n}
    (hcommit : L.length ≤ (c.servers i).rf.commitIndex) {k : Nat} {e : LogEntry C}
    (he : L[k]? = some e) : (c.servers i).rf.logical[k]? = some e := by
  obtain ⟨a, ha⟩ := exists_refines h.reachable
  have hleads : Leads c l := ⟨h.role, fun j => by rw [h.term]; exact h.highest j⟩
  have hpre := hleads.committed_isPrefix ha ⟨_, ha.committedBy i⟩
  rw [h.log] at hpre
  have heq := hpre.eq_of_length_le (by
    rw [List.length_take_of_le (ha.commitIndex_le i)]
    exact hcommit)
  rw [← heq] at he
  exact ReplicatedLog.getElem?_of_isPrefix (List.take_prefix _ _) he

/-- From every state that a cluster of at least two servers can get into, whatever
    was lost, repeated or restarted before, a given command can come to be handed
    to every service, at an index beyond everything that was handed out so far and
    without another crash. -/
theorem command_deliverable (hn : 2 ≤ n) (hc : (cluster n C D).Reachable System.anyStep c)
    (command : C) :
    ∃ c' k, (cluster n C D).Reaches noCrash c c' ∧ (∀ m ∈ c.emitted, m.2.index < k) ∧
      ∀ i, (i, ApplyMsg.command command k) ∈ c'.emitted := by
  obtain ⟨c₁, l, hrun₁, hleads⟩ := exists_leads hn hc
  have hc₁ := reachable_of_noCrash hc hrun₁
  obtain ⟨a, ha⟩ := exists_refines hc
  obtain ⟨a₁, hsteps, ha₁⟩ := ha.run hrun₁
  have hext := (ha.inv.steps hsteps).1
  obtain ⟨c₂, hrun₂, h₂⟩ := hleads.exists_rules hc₁ command
  obtain ⟨c₃, hrun₃, h₃, hcommit⟩ := h₂.exists_committed hn
  generalize hL : (c₁.servers l).rf.logical = L at *
  rw [List.length_append, List.length_singleton] at hcommit
  obtain ⟨c₄, hrun₄, hsent⟩ := exists_delivered_all h₃.reachable (k := L.length)
    (fun i => by
      have := h₃.unapplied i
      rw [List.length_append, List.length_singleton] at this
      omega)
    hcommit
    (fun i => h₃.entry (by simpa using hcommit i) (List.getElem?_concat_length))
  refine ⟨c₄, L.length + 1, hrun₁.trans (hrun₂.trans (hrun₃.trans hrun₄)), fun m hm => ?_, hsent⟩
  have hle := hleads.index_le ha₁ ((ha.emitted m hm).mono hext)
  rw [hL] at hle
  exact Nat.lt_succ_of_le hle

/-- Server 0 has compacted the command 7 and restarts; nobody leads. -/
theorem command_deliverable_compacted :
    ∃ c : Cluster 3 Nat Nat, (cluster 3 Nat Nat).Reachable System.anyStep c ∧
      (∀ i, (c.servers i).rf.role ≠ .leader) ∧ (c.servers 0).rf.lastIncludedIndex = 1 ∧
      (0, ApplyMsg.command 7 1) ∈ c.emitted ∧
      ∃ c' k, (cluster 3 Nat Nat).Reaches noCrash c c' ∧ 1 < k ∧
        ∀ i, (i, ApplyMsg.command 8 k) ∈ c'.emitted := by
  obtain ⟨c, hc, hP⟩ := (cluster 3 Nat Nat).exists_reachable_of_run System.anyStep
    (compactSeven ++ [.restart 0])
    (fun c => decide ((∀ i, (c.servers i).rf.role ≠ .leader) ∧
      (c.servers 0).rf.lastIncludedIndex = 1 ∧ (0, ApplyMsg.command 7 1) ∈ c.emitted))
    (by decide +kernel)
  simp only [decide_eq_true_eq] at hP
  obtain ⟨hrole, hincl, hmsg⟩ := hP
  obtain ⟨c', k, hrun, hnew, hsent⟩ := command_deliverable (by decide) hc 8
  exact ⟨c, hc, hrole, hincl, hmsg, c', k, hrun, hnew _ hmsg, hsent⟩

/-! ### A cluster of one -/

/-- A server that has got nowhere. -/
structure Server.Idle (sv : Server n C D) : Prop where
  role : sv.rf.role ≠ .leader
  commitIndex : sv.rf.commitIndex = 0
  applierSend : sv.applierSend = none
  snapshotSends : sv.snapshotSends = []
  sent : sv.sent = []

/-- A cluster in which nothing is in flight either. -/
structure Cluster.Idle (c : Cluster n C D) : Prop where
  servers : ∀ i, (c.servers i).Idle
  packets : c.packets = []
  emitted : c.emitted = []

omit [Inhabited C] [Inhabited D] in
theorem Cluster.Idle.set (h : c.Idle) (i : Fin n) {sv : Server n C D} (hsv : sv.Idle) :
    (c.setServer i sv).Idle := by
  refine ⟨fun j => ?_, h.packets, h.emitted⟩
  by_cases hj : j = i
  · rw [hj]
    simpa [Cluster.setServer] using hsv
  · simpa [Cluster.setServer, hj] using h.servers j

/-- With no peer to ask, no step gets the server anywhere. -/
theorem Cluster.Idle.step {c c' : Cluster 1 C D} (h : c.Idle)
    (hc : (cluster 1 C D).Reachable System.anyStep c) {act : Action 1 C D}
    (hst : c.step act = some c') : c'.Idle := by
  obtain ⟨a, ha⟩ := exists_refines hc
  cases act with
  | electionTimeout i =>
    have hsv := h.servers i
    have hpeers : (List.finRange 1).filter (· ≠ i) = [] := by
      rw [List.filter_eq_nil_iff]
      intro j _
      simpa using Subsingleton.elim j i
    simp only [Cluster.step, if_neg hsv.role, (ha.servers i).wf.startElection_eq,
      Option.bind_eq_bind, Option.bind_some, Option.some.injEq, hpeers, List.map_nil] at hst
    rw [← hst, show ∀ t : Cluster 1 C D, t.post [] = t from fun t => by simp [Cluster.post]]
    refine h.set i ⟨?_, hsv.commitIndex, hsv.applierSend, hsv.snapshotSends, hsv.sent⟩
    intro hrole
    cases hrole
  | start i command =>
    have hsv := h.servers i
    rcases (c.servers i).rf.start_cases command with ⟨-, heq⟩ | ⟨hlead, -⟩
    · simp only [Cluster.step, heq, Option.some.injEq] at hst
      rw [← hst]
      exact h.set i hsv
    · exact absurd hlead hsv.role
  | replicate i server =>
    rw [Cluster.step, if_pos (Subsingleton.elim server i)] at hst
    cases hst
  | deliver k => simp [Cluster.step, h.packets] at hst
  | apply i =>
    have hsv := h.servers i
    simp only [Cluster.step, hsv.applierSend, Option.isSome_none, Bool.false_eq_true, if_false,
      Option.bind_eq_bind, Option.bind_eq_some_iff, Option.some.injEq] at hst
    obtain ⟨⟨rf, msg⟩, happlier, rfl⟩ := hst
    rcases (ha.servers i).wf.applier_cases happlier with ⟨rfl, rfl⟩ | ⟨hlt, -⟩
    · exact h.set i ⟨hsv.role, hsv.commitIndex, rfl, hsv.snapshotSends, hsv.sent⟩
    · rw [hsv.commitIndex] at hlt
      exact absurd hlt (Nat.not_lt_zero _)
  | sendCommand i => simp [Cluster.step, (h.servers i).applierSend] at hst
  | sendSnapshot i k => simp [Cluster.step, (h.servers i).snapshotSends] at hst
  | snapshot i index data => simp [Cluster.step, (h.servers i).sent] at hst
  | restart i =>
    have hok := ha.servers i
    have hincl : (c.servers i).rf.lastIncludedIndex = 0 := by
      have hle := hok.included.trans hok.applied
      rw [(h.servers i).commitIndex] at hle
      exact Nat.le_zero.mp hle
    have hmake := hok.persisted.make_eq
    rw [hok.me] at hmake
    simp only [Cluster.step, Option.some.injEq] at hst
    rw [← hst]
    refine h.set i ⟨?_, ?_, rfl, rfl, rfl⟩
    · rw [Server.boot, hmake]
      intro hrole
      cases hrole
    · rw [Server.boot, hmake]
      exact hincl
  | crashInHandler k => simp [Cluster.step, h.packets] at hst

/-- The only server of a cluster never leads, whatever happens: it refuses every
    command, commits nothing and hands nothing to its service. -/
theorem single_server_idle {c : Cluster 1 C D}
    (hc : (cluster 1 C D).Reachable System.anyStep c) (i : Fin 1) :
    (c.servers i).rf.role ≠ .leader ∧ (c.servers i).rf.commitIndex = 0 ∧ c.emitted = [] ∧
      ∀ command, (c.servers i).rf.start command =
        ((c.servers i).rf, none, (c.servers i).rf.currentTerm, false) := by
  have hidle : c.Idle := by
    refine hc.invariant ⟨fun j => ?_, rfl, rfl⟩ fun s act t hs hidle _ hst => hidle.step hs hst
    refine ⟨?_, rfl, rfl, rfl, rfl⟩
    intro hrole
    cases hrole
  refine ⟨(hidle.servers i).role, (hidle.servers i).commitIndex, hidle.emitted, fun command => ?_⟩
  unfold Raft.start
  rw [if_pos (hidle.servers i).role]

/-- After two election timeouts the server is a candidate in term 2. -/
theorem single_server_idle_candidate :
    ∃ c : Cluster 1 Nat Nat, (cluster 1 Nat Nat).Reachable System.anyStep c ∧
      (c.servers 0).rf.role = .candidate ∧ (c.servers 0).rf.currentTerm = 2 ∧
      (c.servers 0).rf.commitIndex = 0 ∧
      (c.servers 0).rf.start 7 = ((c.servers 0).rf, none, 2, false) := by
  obtain ⟨c, hc, hP⟩ := (cluster 1 Nat Nat).exists_reachable_of_run System.anyStep
    [.electionTimeout 0, .electionTimeout 0]
    (fun c => decide ((c.servers 0).rf.role = .candidate ∧ (c.servers 0).rf.currentTerm = 2))
    (by decide +kernel)
  simp only [decide_eq_true_eq] at hP
  obtain ⟨hrole, hterm⟩ := hP
  obtain ⟨-, hcommit, -, hstart⟩ := single_server_idle hc 0
  exact ⟨c, hc, hrole, hterm, hcommit, by rw [hstart 7, hterm]⟩

end Progress

end RaftLabs
