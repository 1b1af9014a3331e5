import RaftLabs.RaftCommitRule
import RaftLabs.RaftOutlet
import RaftLabs.RaftRejection

/-!
# Index bounds

Every index a server keeps stays inside its log, and no handler reads or slices
the log out of range.  Within one incarnation the snapshot, the applied and the
commit index only move forward.

For a leader the bound on `nextIndex` is not a matter of one server: the index
that a rejection asks for may come from a follower whose snapshot is ahead of the
leader's, and lies within the leader's log because a snapshot only covers
committed entries.
-/

namespace RaftLabs

open ReplicatedLog (Extends)

variable {n : Nat} {C D : Type}

/-! ### Handlers that do not panic -/

namespace Raft

variable {rf : Raft n C D}

theorem Wf.termAt_isSome_iff (h : rf.Wf) {idx : Nat} :
    (rf.termAt idx).isSome ↔ rf.lastIncludedIndex ≤ idx ∧ idx ≤ rf.lastLogIndex := by
  rw [h.lastLogIndex_eq]
  constructor
  · intro hsome
    obtain ⟨t, ht⟩ := Option.isSome_iff_exists.mp hsome
    obtain ⟨hlo, hhi, -⟩ := h.termAt_some ht
    exact ⟨hlo, hhi⟩
  · rintro ⟨hlo, hhi⟩
    rw [h.termAt_eq hlo hhi]
    rfl

/-- An index whose term can be read is in range for the slices of the log before
    and after it. -/
theorem Wf.slice_le (h : rf.Wf) {idx : Nat} (hsome : (rf.termAt idx).isSome) :
    rf.lastIncludedIndex ≤ idx ∧ idx - rf.lastIncludedIndex + 1 ≤ rf.log.length := by
  obtain ⟨hlo, hhi⟩ := h.termAt_isSome_iff.mp hsome
  obtain ⟨e, es, hlog, -⟩ := h.slot0
  simp only [lastLogIndex, hlog, List.length_cons] at hhi ⊢
  omega

theorem Wf.requestVote_total (h : rf.Wf) (args : RequestVoteArgs n) :
    (rf.requestVote args).isSome := by
  unfold requestVote
  split
  · rfl
  · obtain ⟨b, hb, -⟩ := (h.observeTerm args.term).candidateUpToDate_eq
      args.lastLogIndex args.lastLogTerm
    simp only [hb, Option.bind_eq_bind, Option.bind_some]
    split
    · rfl
    · rfl

theorem Wf.replicateTo_total (h : rf.Wf) {server : Fin n} {term : Nat}
    (hnext : rf.role = .leader → rf.nextIndex server ≤ rf.lastLogIndex + 1) :
    (rf.replicateTo server term).isSome := by
  unfold replicateTo
  split
  · rfl
  · rename_i hlead
    simp only [ne_eq, not_or, not_not] at hlead
    dsimp only
    split
    · rfl
    · rename_i hgt
      have hnext' := hnext hlead.1
      rw [h.lastLogIndex_eq] at hnext'
      rw [h.termAt_eq (by omega) (by omega)]
      rfl

/-- The room `replicateTo` allocates is what the slice it copies needs. -/
theorem Wf.replicateTo_suffix (h : rf.Wf) {server : Fin n} {term : Nat}
    {args : AppendEntriesArgs n C}
    (hst : rf.replicateTo server term = some (some (.appendEntries args))) :
    rf.lastIncludedIndex ≤ args.prevLogIndex ∧ args.prevLogIndex ≤ rf.lastLogIndex ∧
      args.prevLogIndex - rf.lastIncludedIndex + 1 ≤ rf.log.length ∧
      args.entries.length = rf.lastLogIndex - args.prevLogIndex := by
  by_cases hterm : rf.currentTerm = term
  · subst hterm
    rcases h.replicateTo_cases hst with hnone | ⟨-, -, hsnap⟩ | ⟨-, hnext, hprev, hargs⟩
    · cases hnone
    · cases hsnap
    · obtain rfl := Request.appendEntries.inj (Option.some.inj hargs)
      have hlo : rf.lastIncludedIndex ≤ rf.nextIndex server - 1 := Nat.le_sub_one_of_lt hnext
      rw [← h.lastLogIndex_eq] at hprev
      refine ⟨hlo, hprev, (h.slice_le (h.termAt_isSome_iff.mpr ⟨hlo, hprev⟩)).2, ?_⟩
      rw [List.length_drop, h.lastLogIndex_eq]
  · unfold replicateTo at hst
    rw [if_pos (.inr hterm)] at hst
    cases hst

theorem Wf.appendChecked_total (h : rf.Wf) {args : AppendEntriesArgs n C} {ci : Option Nat}
    (hp : rf.lastIncludedIndex ≤ args.prevLogIndex) : (rf.appendChecked args ci).isSome := by
  by_cases hok : args.prevLogIndex ≤ rf.logical.length ∧
      termOf rf.logical args.prevLogIndex = args.prevLogTerm
  · obtain ⟨l, reply, -, -, -, heq⟩ := h.appendChecked_accepts ci hp hok.1 hok.2
    rw [heq]
    rfl
  · obtain ⟨reply, heq, -⟩ := h.appendChecked_rejects ci hp hok
    rw [heq]
    rfl

theorem Wf.appendEntries_total (h : rf.Wf) (args : AppendEntriesArgs n C) :
    (rf.appendEntries args).isSome := by
  have hwf := h.followLeader args.term
  unfold appendEntries
  split
  · rfl
  · dsimp only
    split
    · split
      · rfl
      · exact hwf.appendChecked_total le_rfl
    · rename_i hout
      exact hwf.appendChecked_total (Nat.le_of_not_lt hout)

theorem Wf.advanceCommit_total (h : rf.Wf) (hincl : rf.lastIncludedIndex ≤ rf.commitIndex) :
    rf.advanceCommit.isSome := by
  have hall : ∀ i, i ≤ rf.logical.length → (rf.advanceCommitFrom i).isSome := by
    intro i hi
    induction i with
    | zero => rfl
    | succ i ih =>
      have hrest := ih (Nat.le_of_succ_le hi)
      unfold advanceCommitFrom
      split
      · rename_i hlt
        rw [h.termAt_eq (hincl.trans hlt.le) hi]
        simp only [Option.bind_eq_bind, Option.bind_some]
        split
        · exact hrest
        · split
          · rfl
          · exact hrest
      · rfl
  exact hall _ h.lastLogIndex_eq.le

theorem Wf.backupIndex_total (h : rf.Wf) (server : Fin n) (reply : AppendEntriesReply) :
    ∃ next, rf.backupIndex server reply = some next := by
  unfold backupIndex
  cases reply.conflictTerm with
  | none =>
    cases reply.conflictIndex with
    | none => exact ⟨_, rfl⟩
    | some i => exact ⟨_, rfl⟩
  | some conflictTerm =>
    rcases h.lastOfTerm_spec conflictTerm h.lastLogIndex_eq.le with ⟨hnone, -⟩ |
      ⟨last, hsome, -⟩
    · exact ⟨reply.conflictIndex.getD 0, by simp [hnone]⟩
    · exact ⟨last + 1, by simp [hsome]⟩

theorem Wf.handleAppendReply_total (h : rf.Wf) (hincl : rf.lastIncludedIndex ≤ rf.commitIndex)
    (server : Fin n) (args : AppendEntriesArgs n C) (reply : AppendEntriesReply) :
    (rf.handleAppendReply server args reply).isSome := by
  unfold handleAppendReply
  split
  · rfl
  split
  · rfl
  split
  · dsimp only
    split
    · exact (h.setPeers _ _).advanceCommit_total hincl
    · exact h.advanceCommit_total hincl
  · obtain ⟨next, hnext⟩ := h.backupIndex_total server reply
    rw [hnext]
    rfl

theorem Wf.applier_total (h : rf.Wf) (hcommit : rf.commitIndex ≤ rf.logical.length) :
    rf.applier.isSome := by
  unfold applier
  split
  · rename_i hgo
    dsimp only
    rw [if_neg (by omega)]
    have hget := List.getElem?_eq_getElem (hgo.1.trans_le hcommit)
    have hentry : ({ rf with lastApplied := rf.lastApplied + 1 } : Raft n C D).entryAt
        (rf.lastApplied + 1) = some _ := (h.entryAt_eq hgo.2).trans hget
    rw [hentry]
    rfl
  · rfl

/-! ### Indices that only move forward -/

/-- The snapshot, the applied and the commit index have not moved back. -/
structure Forward (rf rf' : Raft n C D) : Prop where
  lastIncludedIndex : rf.lastIncludedIndex ≤ rf'.lastIncludedIndex
  lastApplied : rf.lastApplied ≤ rf'.lastApplied
  commitIndex : rf.commitIndex ≤ rf'.commitIndex

theorem Forward.refl (rf : Raft n C D) : Forward rf rf := ⟨le_rfl, le_rfl, le_rfl⟩

theorem Forward.trans {rf₁ rf₂ rf₃ : Raft n C D} (h : Forward rf₁ rf₂) (h' : Forward rf₂ rf₃) :
    Forward rf₁ rf₃ :=
  ⟨h.lastIncludedIndex.trans h'.lastIncludedIndex, h.lastApplied.trans h'.lastApplied,
    h.commitIndex.trans h'.commitIndex⟩

/-- A handler that leaves alone what the service sees need only keep the commit
    index. -/
theorem SameService.forward {rf' : Raft n C D} (h : SameService rf rf')
    (hcommit : rf.commitIndex ≤ rf'.commitIndex) : Forward rf rf' :=
  ⟨h.lastIncludedIndex.ge, h.lastApplied.ge, hcommit⟩

theorem forward_observeTerm (rf : Raft n C D) (T : Nat) : Forward rf (rf.observeTerm T) :=
  (sameService_observeTerm rf T).forward (by simp)

theorem forward_followLeader (rf : Raft n C D) (T : Nat) : Forward rf (rf.followLeader T) :=
  (sameService_followLeader rf T).forward (by simp)

theorem Wf.forward_advanceCommit (h : rf.Wf) {rf' : Raft n C D}
    (hst : rf.advanceCommit = some rf') : Forward rf rf' := by
  refine (h.sameService_advanceCommit hst).forward ?_
  rcases h.advanceCommit_cases hst with rfl | ⟨k, e, hk, -, -, -, rfl⟩
  · exact le_rfl
  · exact Nat.le_succ_of_le hk

theorem Wf.forward_handleAppendReply (h : rf.Wf) {server : Fin n}
    {args : AppendEntriesArgs n C} {reply : AppendEntriesReply} {rf' : Raft n C D}
    (hst : rf.handleAppendReply server args reply = some rf') : Forward rf rf' := by
  rcases handleAppendReply_cases hst with rfl | ⟨-, rfl⟩ | ⟨-, -, -, -, next, rfl⟩ |
    ⟨-, -, -, hadv⟩
  · exact .refl _
  · exact ⟨le_rfl, le_rfl, le_rfl⟩
  · exact ⟨le_rfl, le_rfl, le_rfl⟩
  · split at hadv
    · obtain ⟨h1, h2, h3⟩ := (h.setPeers _ _).forward_advanceCommit hadv
      exact ⟨h1, h2, h3⟩
    · exact h.forward_advanceCommit hadv

end Raft

variable [Inhabited C]

section Steps

variable {c c' : Cluster n C D} {a a' : Abs n C} {act : Action n C D} {i : Fin n}
  {rf : Raft n C D} {ps : List (Packet n C D)}

/-- No section but a restart moves an index of its server back. -/
theorem Refines.forward_handled (h : Refines c a) (hrun : Handled c act i rf ps)
    (hlive : c.crashed? act ≠ some i) : Raft.Forward (c.servers i).rf rf := by
  have hwf := (h.servers i).wf
  cases hrun with
  | idle => exact .refl _
  | startElection _ _ args _ hrun =>
    rw [hwf.startElection_eq] at hrun
    obtain ⟨rfl, -⟩ := Prod.mk.inj (Option.some.inj hrun)
    exact ⟨le_rfl, le_rfl, le_rfl⟩
  | start _ command =>
    rcases (c.servers i).rf.start_cases command with ⟨-, heq⟩ | ⟨-, heq⟩
    · rw [heq]
      exact .refl _
    · rw [heq]
      exact ⟨le_rfl, le_rfl, le_rfl⟩
  | sendAppend => exact .refl _
  | sendSnapshot => exact .refl _
  | requestVote _ _ _ args _ _ _ hrun =>
    rcases hwf.requestVote_cases hrun with ⟨-, rfl, -⟩ | ⟨-, rfl, -⟩ | ⟨-, -, -, rfl⟩
    · exact .refl _
    · exact Raft.forward_observeTerm _ _
    · obtain ⟨h1, h2, h3⟩ := Raft.forward_observeTerm (c.servers i).rf args.term
      exact ⟨h1, h2, h3⟩
  | voteReply _ _ _ _ reply _ hterm hrole =>
    rw [← hterm]
    rcases (c.servers i).rf.handleVoteReply_cases (c.servers i).votes reply hrole with heq |
      ⟨-, heq⟩ | ⟨-, heq⟩ | ⟨-, -, heq⟩
    all_goals
      rw [heq]
      exact ⟨le_rfl, le_rfl, le_rfl⟩
  | appendEntries _ _ _ args _ _ hpacket hrun =>
    rcases hwf.appendEntries_cases hrun with ⟨-, rfl, -⟩ | ⟨-, rfl, -⟩ |
      ⟨-, hok, _, _, l, -, -, -, hacc⟩
    · exact .refl _
    · exact Raft.forward_followLeader _ _
    · -- the new log reaches the leader's commit index
      obtain ⟨-, -, -, -, -, -, hcommit⟩ := (h.servers i).accepts h.inv
        (h.packets _ (List.mem_of_getElem? hpacket)) hrun hok
      refine Raft.SameService.forward ?_ (hcommit ▸ le_max_left _ _)
      rw [hacc]
      exact Raft.sameService_accepted _ _ _
  | appendReply _ _ _ _ _ _ _ hrun => exact hwf.forward_handleAppendReply hrun
  | installSnapshot _ _ _ args _ _ _ _ _ hrun =>
    rcases hwf.installSnapshot_cases hrun with ⟨-, rfl, -, -⟩ | ⟨-, -, rfl, -⟩ |
      ⟨-, hnew, -, tail, -, rfl⟩
    · exact .refl _
    · exact Raft.forward_followLeader _ _
    · exact ⟨hnew.le, le_max_left _ _, le_max_left _ _⟩
  | snapshotReply _ _ callee args reply _ =>
    rcases (c.servers i).rf.handleSnapshotReply_cases callee args reply with heq | ⟨-, heq⟩ |
      ⟨-, -, -, heq⟩
    all_goals
      rw [heq]
      exact ⟨le_rfl, le_rfl, le_rfl⟩
  | applier _ _ msg hrun =>
    rcases hwf.applier_cases hrun with ⟨rfl, -⟩ | ⟨-, -, e, -, rfl, -⟩
    · exact .refl _
    · exact ⟨le_rfl, Nat.le_succ _, le_rfl⟩
  | answerSnapshot => exact .refl _
  | snapshot _ index data _ _ hrun =>
    rcases hwf.snapshot_cases hrun with rfl | ⟨hlt, -, -, -, -, rfl⟩
    · exact .refl _
    · exact ⟨hlt.le, le_rfl, le_rfl⟩
  | restart => exact absurd rfl hlive
  | crashInHandler k _ term hpacket _ =>
    refine absurd ?_ hlive
    simp [Cluster.crashed?, hpacket]

theorem Refines.forward (h : Refines c a) (hst : c.step act = some c') (i : Fin n)
    (hlive : c.crashed? act ≠ some i) :
    Raft.Forward (c.servers i).rf (c'.servers i).rf := by
  obtain ⟨j, rf, ps, hrun, hafter⟩ := Cluster.step_handled hst
  by_cases hj : i = j
  · subst hj
    rw [hafter.self]
    exact h.forward_handled hrun hlive
  · rw [hafter.others i hj]
    exact .refl _

/-! ### What a leader keeps for its peers -/

/-- How server `i` came to be the leader that it is after an action: it led the
    term before and the action did not touch what it keeps for its peers, it has
    just been elected, or it has taken a reply. -/
inductive Leading (c : Cluster n C D) (i : Fin n) : Action n C D → Raft n C D → Prop where
  | kept (act : Action n C D) (rf : Raft n C D)
      (hrole : (c.servers i).rf.role = .leader)
      (hterm : rf.currentTerm = (c.servers i).rf.currentTerm)
      (hnext : rf.nextIndex = (c.servers i).rf.nextIndex)
      (hmatch : rf.matchIndex = (c.servers i).rf.matchIndex) : Leading c i act rf
  | elected (act : Action n C D) (rf : Raft n C D)
      (hnext : rf.nextIndex = fun _ => rf.lastLogIndex + 1)
      (hmatch : rf.matchIndex = fun _ => 0) : Leading c i act rf
  | acknowledged (k : Nat) (s : Fin n) (args : AppendEntriesArgs n C)
      (reply : AppendEntriesReply) (rf : Raft n C D)
      (hpacket : c.packets[k]? = some (.appendReply i s args reply))
      (hrole : (c.servers i).rf.role = .leader)
      (hterm : rf.currentTerm = (c.servers i).rf.currentTerm)
      (hargs : (c.servers i).rf.currentTerm = args.term) (hok : reply.success = true)
      (hnew : (c.servers i).rf.matchIndex s < args.prevLogIndex + args.entries.length)
      (hnext : rf.nextIndex = Function.update (c.servers i).rf.nextIndex s
        (args.prevLogIndex + args.entries.length + 1))
      (hmatch : rf.matchIndex = Function.update (c.servers i).rf.matchIndex s
        (args.prevLogIndex + args.entries.length)) : Leading c i (.deliver k) rf
  | rejected (k : Nat) (s : Fin n) (args : AppendEntriesArgs n C)
      (reply : AppendEntriesReply) (rf : Raft n C D)
      (hpacket : c.packets[k]? = some (.appendReply i s args reply))
      (hrole : (c.servers i).rf.role = .leader)
      (hargs : (c.servers i).rf.currentTerm = args.term) (hle : reply.term ≤ args.term)
      (hno : reply.success = false)
      (hrun : (c.servers i).rf.handleAppendReply s args reply = some rf) :
      Leading c i (.deliver k) rf
  | installed (k : Nat) (s : Fin n) (args : InstallSnapshotArgs n C D)
      (reply : InstallSnapshotReply) (rf : Raft n C D)
      (hpacket : c.packets[k]? = some (.snapshotReply i s args reply))
      (hrole : (c.servers i).rf.role = .leader)
      (hterm : rf.currentTerm = (c.servers i).rf.currentTerm)
      (hargs : (c.servers i).rf.currentTerm = args.term) (hle : reply.term ≤ args.term)
      (hnext : rf.nextIndex = Function.update (c.servers i).rf.nextIndex s
        (max ((c.servers i).rf.matchIndex s) args.lastIncludedIndex + 1))
      (hmatch : rf.matchIndex = Function.update (c.servers i).rf.matchIndex s
        (max ((c.servers i).rf.matchIndex s) args.lastIncludedIndex)) :
      Leading c i (.deliver k) rf

omit [Inhabited C] in
theorem leading_refl (act : Action n C D) (hrole : (c.servers i).rf.role = .leader) :
    Leading c i act (c.servers i).rf :=
  .kept act _ hrole rfl rfl rfl

omit [Inhabited C] in
/-- A leader that has not noticed a later term is as it was. -/
theorem observeTerm_leader {rf : Raft n C D} {T : Nat}
    (hrole : (rf.observeTerm T).role = .leader) : rf.observeTerm T = rf := by
  unfold Raft.observeTerm at hrole ⊢
  split at hrole
  · cases hrole
  · rename_i hge
    rw [if_neg hge]

theorem make_role (i : Fin n) (persister : Persister n C D) :
    (Raft.make i persister).role = .follower := by
  unfold Raft.make Raft.readPersist
  split <;> rfl

omit [Inhabited C] in
theorem accepted_role (rf : Raft n C D) (args : AppendEntriesArgs n C) (l : List (LogEntry C)) :
    (rf.accepted args l).role = .follower := by
  unfold Raft.accepted
  dsimp only
  split <;> rfl

theorem Refines.leading_handled (h : Refines c a) (hrun : Handled c act i rf ps)
    (hlead : rf.role = .leader) : Leading c i act rf := by
  have hwf := (h.servers i).wf
  cases hrun with
  | idle => exact leading_refl _ hlead
  | startElection _ _ args _ hrun =>
    rw [hwf.startElection_eq] at hrun
    obtain ⟨rfl, -⟩ := Prod.mk.inj (Option.some.inj hrun)
    cases hlead
  | start _ command =>
    rcases (c.servers i).rf.start_cases command with ⟨-, heq⟩ | ⟨hrole, heq⟩
    · rw [heq] at hlead ⊢
      exact leading_refl _ hlead
    · rw [heq]
      exact .kept _ _ hrole rfl rfl rfl
  | sendAppend => exact leading_refl _ hlead
  | sendSnapshot => exact leading_refl _ hlead
  | requestVote _ _ _ args _ _ _ hrun =>
    rcases hwf.requestVote_cases hrun with ⟨-, rfl, -⟩ | ⟨-, rfl, -⟩ | ⟨-, -, -, rfl⟩
    · exact leading_refl _ hlead
    · have hsame := observeTerm_leader hlead
      rw [hsame] at hlead ⊢
      exact leading_refl _ hlead
    · have hsame : (c.servers i).rf.observeTerm args.term = (c.servers i).rf :=
        observeTerm_leader hlead
      rw [hsame] at hlead ⊢
      exact .kept _ _ hlead rfl rfl rfl
  | voteReply _ _ _ _ reply _ hterm hrole =>
    rw [← hterm] at hlead ⊢
    rcases (c.servers i).rf.handleVoteReply_cases (c.servers i).votes reply hrole with heq |
      ⟨-, heq⟩ | ⟨-, heq⟩ | ⟨-, -, heq⟩
    · rw [heq, hrole] at hlead
      cases hlead
    · rw [heq] at hlead
      cases hlead
    · rw [heq, hrole] at hlead
      cases hlead
    · rw [heq]
      exact .elected _ _ rfl rfl
  | appendEntries _ _ _ args _ _ hpacket hrun =>
    rcases hwf.appendEntries_cases hrun with ⟨-, rfl, -⟩ | ⟨-, rfl, -⟩ |
      ⟨-, -, _, _, l, -, -, -, rfl⟩
    · exact leading_refl _ hlead
    · cases hlead
    · rw [accepted_role] at hlead
      cases hlead
  | appendReply k _ s args reply _ hpacket hrun =>
    rcases Raft.handleAppendReply_cases hrun with rfl | ⟨-, rfl⟩ |
      ⟨hrole, hargs, hle, hno, -⟩ | ⟨hrole, hargs, hok, hadv⟩
    · exact leading_refl _ hlead
    · cases hlead
    · exact .rejected k s args reply rf hpacket hrole hargs hle hno hrun
    · split at hadv
      · rename_i hnew
        rcases (hwf.setPeers _ _).advanceCommit_cases hadv with rfl | ⟨_, _, -, -, -, -, rfl⟩
        · exact .acknowledged k s args reply _ hpacket hrole rfl hargs hok hnew rfl rfl
        · exact .acknowledged k s args reply _ hpacket hrole rfl hargs hok hnew rfl rfl
      · rcases hwf.advanceCommit_cases hadv with rfl | ⟨_, _, -, -, -, -, rfl⟩
        · exact leading_refl _ hrole
        · exact .kept _ _ hrole rfl rfl rfl
  | installSnapshot _ _ _ args _ _ _ _ _ hrun =>
    rcases hwf.installSnapshot_cases hrun with ⟨-, rfl, -, -⟩ | ⟨-, -, rfl, -⟩ |
      ⟨-, hnew, -, tail, -, rfl⟩
    · exact leading_refl _ hlead
    · cases hlead
    · cases hlead
  | snapshotReply k _ s args reply hpacket =>
    rcases (c.servers i).rf.handleSnapshotReply_cases s args reply with heq | ⟨-, heq⟩ |
      ⟨hrole, hargs, hle, heq⟩
    · rw [heq] at hlead ⊢
      exact leading_refl _ hlead
    · rw [heq] at hlead
      cases hlead
    · rw [heq]
      exact .installed k s args reply _ hpacket hrole rfl hargs hle rfl rfl
  | applier _ _ msg hrun =>
    rcases hwf.applier_cases hrun with ⟨rfl, -⟩ | ⟨-, -, e, -, rfl, -⟩
    · exact leading_refl _ hlead
    · exact .kept _ _ hlead rfl rfl rfl
  | answerSnapshot => exact leading_refl _ hlead
  | snapshot _ index data _ _ hrun =>
    rcases hwf.snapshot_cases hrun with rfl | ⟨-, -, -, -, -, rfl⟩
    · exact leading_refl _ hlead
    · exact .kept _ _ hlead rfl rfl rfl
  | restart =>
    rw [make_role] at hlead
    cases hlead
  | crashInHandler =>
    rw [make_role] at hlead
    cases hlead

theorem Refines.leading (h : Refines c a) (hst : c.step act = some c') {i : Fin n}
    (hlead : (c'.servers i).rf.role = .leader) : Leading c i act (c'.servers i).rf := by
  obtain ⟨j, rf, ps, hrun, hafter⟩ := Cluster.step_handled hst
  by_cases hj : i = j
  · subst hj
    rw [hafter.self] at hlead ⊢
    exact h.leading_handled hrun hlead
  · rw [hafter.others i hj] at hlead ⊢
    exact leading_refl _ hlead

/-- What a peer acknowledged in the leader's term lies within the leader's log. -/
theorem Refines.ack_le (h : Refines c a) (hrole : (c.servers i).rf.role = .leader) {p : Fin n}
    {m : Nat} (hack : a.ack p (c.servers i).rf.currentTerm m) :
    m ≤ (c.servers i).rf.lastLogIndex := by
  rw [(h.servers i).wf.lastLogIndex_eq, ← h.leaderLog_eq hrole]
  exact (h.inv.ack_ok _ _ _ hack).2

theorem Refines.matchIndex_le (h : Refines c a) (hrole : (c.servers i).rf.role = .leader)
    (p : Fin n) : (c.servers i).rf.matchIndex p ≤ (c.servers i).rf.lastLogIndex := by
  rcases (h.servers i).matched hrole p with hzero | hack
  · omega
  · exact h.ack_le hrole hack

/-- The log of a leader does not get shorter while it leads. -/
theorem Refines.lastLogIndex_le (h : Refines c a) (h' : Refines c' a') (hext : Extends a a')
    (hrole : (c.servers i).rf.role = .leader) (hrole' : (c'.servers i).rf.role = .leader)
    (hterm : (c'.servers i).rf.currentTerm = (c.servers i).rf.currentTerm) :
    (c.servers i).rf.lastLogIndex ≤ (c'.servers i).rf.lastLogIndex := by
  rw [(h.servers i).wf.lastLogIndex_eq, (h'.servers i).wf.lastLogIndex_eq]
  exact (h.leader_isPrefix h' hext hrole hrole' hterm).length_le

end Steps

section Runs

variable [Inhabited D] {c c' : Cluster n C D} {ok : Cluster n C D → Action n C D → Prop}

/-- What the leader of the term does with a rejection in flight, whenever the
    follower gave it. -/
theorem exists_backup (hc : (cluster n C D).Reachable ok c) {l s : Fin n}
    {args : AppendEntriesArgs n C} {reply : AppendEntriesReply}
    (hp : Packet.appendReply l s args reply ∈ c.packets) (hno : reply.success = false)
    (hle : reply.term ≤ args.term) (hrole : (c.servers l).rf.role = .leader)
    (hterm : (c.servers l).rf.currentTerm = args.term) :
    ∃ v, 1 ≤ v ∧ v ≤ (c.servers l).rf.lastLogIndex + 1 ∧
      (c.servers l).rf.handleAppendReply s args reply = some { (c.servers l).rf with
        nextIndex := Function.update (c.servers l).rf.nextIndex s v } := by
  obtain ⟨c₀, hc₀, hrun, hans⟩ := reply_origin hc hp
  obtain ⟨a₀, ha₀⟩ := exists_refines hc₀
  obtain ⟨a, hsteps, ha⟩ := ha₀.run hrun
  obtain ⟨hext, -⟩ := ha₀.inv.steps hsteps
  obtain ⟨-, v, hst, hbehind, hback⟩ := ha₀.backup ha hext hans hno hle hrole hterm
  rw [(ha.servers l).wf.lastLogIndex_eq]
  rcases Nat.lt_or_ge args.prevLogIndex (c₀.servers s).rf.lastIncludedIndex with hlt | hge
  · obtain ⟨rfl, hlen⟩ := hbehind hlt
    exact ⟨_, Nat.le_add_left 1 _, Nat.succ_le_succ hlen, hst⟩
  · obtain ⟨hpos, hv, hlen, -⟩ := hback hge
    exact ⟨v, hpos, (hv.trans hlen).trans (Nat.le_succ _), hst⟩

/-- The next index of every peer lies within the leader's log or right behind
    it. -/
theorem nextIndex_bounds (hc : (cluster n C D).Reachable ok c) :
    ∀ i, (c.servers i).rf.role = .leader → ∀ p,
      1 ≤ (c.servers i).rf.nextIndex p ∧
      (c.servers i).rf.nextIndex p ≤ (c.servers i).rf.lastLogIndex + 1 := by
  refine hc.invariant (P := fun c => ∀ i, (c.servers i).rf.role = .leader → ∀ p,
      1 ≤ (c.servers i).rf.nextIndex p ∧
      (c.servers i).rf.nextIndex p ≤ (c.servers i).rf.lastLogIndex + 1) ?_ ?_
  · intro i hrole
    cases hrole
  intro c act c' hc ih _ hst i hrole' p
  obtain ⟨a, ha⟩ := exists_refines hc
  obtain ⟨a', hsteps, ha'⟩ := ha.step hst
  have hext := (ha.inv.steps hsteps).1
  have hgrow := fun hrole hterm => ha.lastLogIndex_le ha' hext (i := i) hrole hrole' hterm
  -- a value for one peer that lies within the old log, the others as before
  have hset : (c.servers i).rf.role = .leader →
      (c'.servers i).rf.currentTerm = (c.servers i).rf.currentTerm → ∀ s v,
      v ≤ (c.servers i).rf.lastLogIndex →
      (c'.servers i).rf.nextIndex = Function.update (c.servers i).rf.nextIndex s (v + 1) →
      1 ≤ (c'.servers i).rf.nextIndex p ∧
        (c'.servers i).rf.nextIndex p ≤ (c'.servers i).rf.lastLogIndex + 1 := by
    intro hrole hterm s v hv hnext
    have hlen := hgrow hrole hterm
    rw [hnext, Function.update_apply]
    split
    · omega
    · have := ih i hrole p
      omega
  cases ha.leading hst hrole' with
  | kept _ _ hrole hterm hnext _ =>
    have hlen := hgrow hrole hterm
    have hold := ih i hrole p
    rw [hnext]
    omega
  | elected _ _ hnext _ =>
    rw [hnext]
    exact ⟨Nat.le_add_left 1 _, le_rfl⟩
  | acknowledged k s args reply _ hpacket hrole hterm hargs hok hnew hnext _ =>
    refine hset hrole hterm s _ (ha.ack_le hrole (p := s) ?_) hnext
    rw [hargs]
    exact ha.packets _ (List.mem_of_getElem? hpacket) hok
  | rejected k s args reply _ hpacket hrole hargs hle hno hrun =>
    obtain ⟨v, hpos, hv, hst'⟩ := exists_backup hc (List.mem_of_getElem? hpacket) hno hle
      hrole hargs
    have heq := Option.some.inj (hrun.symm.trans hst')
    refine hset hrole (by rw [heq]) s (v - 1) (by omega) ?_
    rw [heq, Nat.sub_add_cancel hpos]
  | installed k s args reply _ hpacket hrole hterm hargs hle hnext _ =>
    refine hset hrole hterm s _ (max_le (ha.matchIndex_le hrole s) (ha.ack_le hrole (p := s) ?_))
      hnext
    rw [hargs]
    exact ha.packets _ (List.mem_of_getElem? hpacket) hle

/-! ### No access is out of range -/

/-- The indices of a server lie within its log, in order; so do those a leader
    keeps for its peers. -/
structure InBounds (rf : Raft n C D) : Prop where
  slot0 : rf.log[0]?.map LogEntry.term = some rf.lastIncludedTerm
  included : rf.lastIncludedIndex ≤ rf.lastApplied
  applied : rf.lastApplied ≤ rf.commitIndex
  committed : rf.commitIndex ≤ rf.lastLogIndex
  next : rf.role = .leader → ∀ peer,
    1 ≤ rf.nextIndex peer ∧ rf.nextIndex peer ≤ rf.lastLogIndex + 1
  matched : rf.role = .leader → ∀ peer, rf.matchIndex peer ≤ rf.lastLogIndex

/-- No handler runs into an index that is out of range, whatever request or reply
    it is given.  The last two fields are about slices.  `replicateTo` allocates
    room for `lastLogIndex() - prevIndex` entries and copies the log from
    `prevIndex - lastIncludedIndex + 1` on.  Every other slice of the log is taken
    at an index whose term the same section has just read. -/
structure NoPanic (rf : Raft n C D) : Prop where
  hasCurrentTermLog : (rf.termAt rf.lastLogIndex).isSome
  startElection : rf.startElection.isSome
  requestVote : ∀ args, (rf.requestVote args).isSome
  appendEntries : ∀ args, (rf.appendEntries args).isSome
  installSnapshot : ∀ args, (rf.installSnapshot args).isSome
  replicateTo : ∀ server term, (rf.replicateTo server term).isSome
  handleAppendReply : ∀ server args reply, (rf.handleAppendReply server args reply).isSome
  applier : rf.applier.isSome
  snapshot : ∀ index data, (rf.snapshot index data).isSome
  suffix : ∀ server term args, rf.replicateTo server term = some (some (.appendEntries args)) →
    rf.lastIncludedIndex ≤ args.prevLogIndex ∧ args.prevLogIndex ≤ rf.lastLogIndex ∧
    args.prevLogIndex - rf.lastIncludedIndex + 1 ≤ rf.log.length ∧
    args.entries.length = rf.lastLogIndex - args.prevLogIndex
  slices : ∀ idx, (rf.termAt idx).isSome →
    rf.lastIncludedIndex ≤ idx ∧ idx - rf.lastIncludedIndex + 1 ≤ rf.log.length

theorem inBounds (hc : (cluster n C D).Reachable ok c) (i : Fin n) :
    InBounds (c.servers i).rf := by
  obtain ⟨a, ha⟩ := exists_refines hc
  have hok := ha.servers i
  constructor
  case slot0 =>
    obtain ⟨e, es, hlog, hterm⟩ := hok.wf.slot0
    rw [hlog]
    exact congrArg some hterm
  case included => exact hok.included
  case applied => exact hok.applied
  case committed =>
    rw [hok.wf.lastLogIndex_eq]
    exact ha.commitIndex_le i
  case next => exact nextIndex_bounds hc i
  case matched => exact fun hrole peer => ha.matchIndex_le hrole peer

theorem noPanic (hc : (cluster n C D).Reachable ok c) (i : Fin n) :
    NoPanic (c.servers i).rf := by
  obtain ⟨a, ha⟩ := exists_refines hc
  have hwf := (ha.servers i).wf
  have hbounds := inBounds hc i
  constructor
  case hasCurrentTermLog =>
    refine hwf.termAt_isSome_iff.mpr ⟨?_, le_rfl⟩
    rw [hwf.lastLogIndex_eq]
    exact hwf.le_length
  case startElection =>
    rw [hwf.startElection_eq]
    rfl
  case requestVote => exact hwf.requestVote_total
  case appendEntries => exact hwf.appendEntries_total
  case installSnapshot =>
    intro args
    obtain ⟨r, hr⟩ := hwf.installSnapshot_total args
    rw [hr]
    rfl
  case replicateTo =>
    exact fun server term => hwf.replicateTo_total fun hrole => (hbounds.next hrole server).2
  case handleAppendReply =>
    exact hwf.handleAppendReply_total (hbounds.included.trans hbounds.applied)
  case applier => exact hwf.applier_total (ha.commitIndex_le i)
  case snapshot =>
    intro index data
    obtain ⟨rf, hrf⟩ := hwf.snapshot_total (ha.commitIndex_le i) index data
    rw [hrf]
    rfl
  case suffix => exact fun server term args hst => hwf.replicateTo_suffix hst
  case slices => exact fun idx hsome => hwf.slice_le hsome

/-- Along a run in which server `i` does not crash, its indices only move
    forward. -/
theorem forward_of_reaches (hc : (cluster n C D).Reachable System.anyStep c) {i : Fin n}
    (hrun : (cluster n C D).Reaches (fun c act => c.crashed? act ≠ some i) c c') :
    Raft.Forward (c.servers i).rf (c'.servers i).rf := by
  have hboth : (cluster n C D).Reachable System.anyStep c' ∧
      Raft.Forward (c.servers i).rf (c'.servers i).rf := by
    induction hrun with
    | refl => exact ⟨hc, .refl _⟩
    | tail _ hlast ih =>
      obtain ⟨act, hlive, hst⟩ := hlast
      obtain ⟨a, ha⟩ := exists_refines ih.1
      exact ⟨ih.1.step trivial hst, ih.2.trans (ha.forward hst i hlive)⟩
  exact hboth.2

/-- Every server of every reachable cluster has its indices in order and within
    its log, its handlers do not read or slice the log out of range, and until it
    crashes the snapshot, the applied and the commit index only grow. -/
theorem log_accesses_in_range (hc : (cluster n C D).Reachable System.anyStep c) (i : Fin n) :
    InBounds (c.servers i).rf ∧ NoPanic (c.servers i).rf ∧
    ∀ c', (cluster n C D).Reaches (fun c act => c.crashed? act ≠ some i) c c' →
      (c.servers i).rf.lastIncludedIndex ≤ (c'.servers i).rf.lastIncludedIndex ∧
      (c.servers i).rf.lastApplied ≤ (c'.servers i).rf.lastApplied ∧
      (c.servers i).rf.commitIndex ≤ (c'.servers i).rf.commitIndex := by
  refine ⟨inBounds hc i, noPanic hc i, ?_⟩
  intro c' hrun
  obtain ⟨hincl, happlied, hcommit⟩ := forward_of_reaches hc hrun
  exact ⟨hincl, happlied, hcommit⟩

/-- A leader that has compacted its whole log, and the same leader two entries
    later. -/
theorem log_accesses_in_range_compacted :
    ∃ c c' : Cluster 3 Nat Nat, (cluster 3 Nat Nat).Reachable System.anyStep c ∧
      (c.servers 0).rf.role = .leader ∧ (c.servers 0).rf.lastIncludedIndex = 1 ∧
      (c.servers 0).rf.nextIndex 2 = 1 ∧ (c'.servers 0).rf.lastLogIndex = 3 ∧
      InBounds (c.servers 0).rf ∧ NoPanic (c.servers 0).rf ∧
      (c.servers 0).rf.commitIndex ≤ (c'.servers 0).rf.commitIndex := by
  obtain ⟨c, c', hc, hrun, hP, hQ⟩ := (cluster 3 Nat Nat).exists_reaches_of_run
    (fun c act => c.crashed? act ≠ some 0)
    compactSeven [.start 0 8, .start 0 9]
    (fun c => decide ((c.servers 0).rf.role = .leader ∧ (c.servers 0).rf.lastIncludedIndex = 1 ∧
      (c.servers 0).rf.nextIndex 2 = 1))
    (fun c => decide ((c.servers 0).rf.lastLogIndex = 3)) (by decide +kernel)
  simp only [decide_eq_true_eq] at hP hQ
  have hany : (cluster 3 Nat Nat).Reachable System.anyStep c :=
    System.Reachable.mono (fun _ _ _ => trivial) hc
  obtain ⟨hbounds, hpanic, hforward⟩ := log_accesses_in_range hany 0
  exact ⟨c, c', hany, hP.1, hP.2.1, hP.2.2, hQ, hbounds, hpanic, (hforward c' hrun).2.2⟩

end Runs

end RaftLabs
