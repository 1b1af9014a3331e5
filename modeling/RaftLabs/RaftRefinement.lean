import RaftLabs.RaftCluster
import RaftLabs.RaftServerSpec
import RaftLabs.ReplicatedLogSafety

/-!
# The cluster refines the replicated log

Every state of a cluster is matched by a state of the abstract protocol in which
a peer holds the logical log of its server.  A packet in flight is matched by
the history that justifies it: a vote request by a bid, a granted vote by a
ballot, entries and snapshots by an offer, a success by an acknowledgement.
Since the history is never retracted, a late packet is as good as a fresh one.

A step of the cluster is answered by a few protocol steps of the server that
takes it.  The compacted cases of `AppendEntries` and `InstallSnapshot` are
acceptances of a whole prefix; that they are is where the committed prefix of
the receiver is needed.
-/

namespace RaftLabs

open ReplicatedLog (majorities lastTerm Extends CommittedBy Sound Absorbs Acked)

variable {n : Nat} {C D : Type}

/-- The states of the abstract protocol for `n` servers. -/
abbrev Abs (n : Nat) (C : Type) := ReplicatedLog.State (Fin n) (LogEntry C)

abbrev AbsInv (a : Abs n C) : Prop := ReplicatedLog.Inv LogEntry.term (majorities (Fin n)) a

abbrev AbsSteps (a a' : Abs n C) : Prop :=
  ReplicatedLog.Steps LogEntry.term (majorities (Fin n)) a a'

/-- `X` is committed, in whatever term. -/
def Committed (a : Abs n C) (X : List (LogEntry C)) : Prop :=
  ∃ U, CommittedBy LogEntry.term (majorities (Fin n)) a U X

/-- A command message is about a committed entry, a snapshot message about a
    committed prefix. -/
def MsgOk (a : Abs n C) : ApplyMsg C D → Prop
  | .command command commandIndex =>
    ∃ X e, Committed a X ∧ 0 < commandIndex ∧ X[commandIndex - 1]? = some e ∧
      e.command = command
  | .snapshot snapshot snapshotTerm snapshotIndex =>
    Committed a snapshot.covers ∧ snapshot.covers.length = snapshotIndex ∧
      lastTerm LogEntry.term snapshot.covers = snapshotTerm

/-- The entries of a request are the end of an offered prefix. -/
def AppendOk (a : Abs n C) (args : AppendEntriesArgs n C) : Prop :=
  ∃ F, a.offer args.term F args.leaderCommit ∧ args.prevLogIndex ≤ F.length ∧
    args.entries = F.drop args.prevLogIndex ∧ args.prevLogTerm = termOf F args.prevLogIndex

/-- A snapshot stands for an offered prefix that is committed as a whole. -/
def SnapshotOk (a : Abs n C) (args : InstallSnapshotArgs n C D) : Prop :=
  a.offer args.term args.data.covers args.lastIncludedIndex ∧
    args.data.covers.length = args.lastIncludedIndex ∧
    args.lastIncludedTerm = lastTerm LogEntry.term args.data.covers

/-- What a packet says is backed by the history. -/
def PacketOk (a : Abs n C) : Packet n C D → Prop
  | .voteRequest caller _ args =>
    args.candidateId = caller ∧ ∃ B, a.bid caller args.term = some B ∧
      args.lastLogIndex = B.length ∧ args.lastLogTerm = lastTerm LogEntry.term B
  | .voteReply caller callee args reply =>
    reply.voteGranted = true → a.ballot callee args.term = some caller
  | .appendRequest _ _ args => AppendOk a args
  | .appendReply _ callee args reply =>
    reply.success = true → a.ack callee args.term (args.prevLogIndex + args.entries.length)
  | .snapshotRequest _ _ args => SnapshotOk a args
  | .snapshotReply _ callee args reply =>
    reply.term ≤ args.term → a.ack callee args.term args.lastIncludedIndex

/-- What a server that has applied up to `applied` is about to send, and what it
    has sent. -/
structure SendsOk (a : Abs n C) (i : Fin n) (applied : Nat)
    (applierSend : Option (ApplyMsg C D)) (snapshotSends : List (SnapshotSend n C D))
    (sent : List (ApplyMsg C D)) : Prop where
  sending : ∀ msg, applierSend = some msg → MsgOk a msg ∧ msg.index ≤ applied
  waiting : ∀ w ∈ snapshotSends, MsgOk a w.msg ∧ w.msg.index ≤ applied ∧
    PacketOk a (.snapshotReply w.caller i w.args w.reply : Packet n C D)
  sent_le : ∀ msg ∈ sent, msg.index ≤ applied

/-- A server and its peer agree, and what the server counts and is about to send
    is backed by the history. -/
structure ServerOk [Inhabited C] (a : Abs n C) (i : Fin n) (sv : Server n C D) : Prop where
  me : sv.rf.me = i
  wf : sv.rf.Wf
  persisted : sv.rf.Persisted
  peer : a.peer i =
    { term := sv.rf.currentTerm, role := sv.rf.role, log := sv.rf.logical,
      commit := sv.rf.commitIndex }
  vote : a.ballot i sv.rf.currentTerm = sv.rf.votedFor
  included : sv.rf.lastIncludedIndex ≤ sv.rf.lastApplied
  applied : sv.rf.lastApplied ≤ sv.rf.commitIndex
  matched : sv.rf.role = .leader → ∀ p,
    sv.rf.matchIndex p = 0 ∨ a.ack p sv.rf.currentTerm (sv.rf.matchIndex p)
  counted : sv.rf.role = .candidate → ∃ V : Finset (Fin n), V.card = sv.votes ∧
    Disjoint V sv.asking ∧ ∀ v ∈ V, a.ballot v sv.rf.currentTerm = some i
  own : sv.rf.role = .leader → ∀ k e, sv.rf.logical[k]? = some e →
    e.term = sv.rf.currentTerm → Acked a i sv.rf.currentTerm k
  sends : SendsOk a i sv.rf.lastApplied sv.applierSend sv.snapshotSends sv.sent

/-- The refinement relation. -/
structure Refines [Inhabited C] (c : Cluster n C D) (a : Abs n C) : Prop where
  inv : AbsInv a
  servers : ∀ i, ServerOk a i (c.servers i)
  packets : ∀ p ∈ c.packets, PacketOk a p
  emitted : ∀ m ∈ c.emitted, MsgOk a m.2

/-! ### History is never retracted -/

section Mono

variable {a a' : Abs n C}

theorem Committed.mono (hext : Extends a a') {X : List (LogEntry C)} (h : Committed a X) :
    Committed a' X := by
  obtain ⟨U, hU⟩ := h
  exact ⟨U, hU.mono hext le_rfl⟩

theorem MsgOk.mono (hext : Extends a a') {msg : ApplyMsg C D} (h : MsgOk a msg) :
    MsgOk a' msg := by
  cases msg with
  | command command commandIndex =>
    obtain ⟨X, e, hX, hrest⟩ := h
    exact ⟨X, e, hX.mono hext, hrest⟩
  | snapshot snapshot snapshotTerm snapshotIndex => exact ⟨h.1.mono hext, h.2⟩

theorem PacketOk.mono (hext : Extends a a') {p : Packet n C D} (h : PacketOk a p) :
    PacketOk a' p := by
  cases p with
  | voteRequest caller callee args =>
    obtain ⟨hid, B, hB, hlast⟩ := h
    exact ⟨hid, B, hext.bid_some _ _ _ hB, hlast⟩
  | voteReply caller callee args reply => exact fun hg => hext.ballot_some _ _ _ (h hg)
  | appendRequest caller callee args =>
    obtain ⟨F, hF, hrest⟩ := h
    exact ⟨F, hext.offer_mono _ _ _ hF, hrest⟩
  | appendReply caller callee args reply => exact fun hs => hext.ack_mono _ _ _ (h hs)
  | snapshotRequest caller callee args => exact ⟨hext.offer_mono _ _ _ h.1, h.2⟩
  | snapshotReply caller callee args reply => exact fun hs => hext.ack_mono _ _ _ (h hs)

theorem SendsOk.mono (hext : Extends a a') {i : Fin n} {applied applied' : Nat}
    (hle : applied ≤ applied') {applierSend : Option (ApplyMsg C D)}
    {snapshotSends : List (SnapshotSend n C D)} {sent : List (ApplyMsg C D)}
    (h : SendsOk a i applied applierSend snapshotSends sent) :
    SendsOk a' i applied' applierSend snapshotSends sent where
  sending msg hmsg := ⟨(h.sending msg hmsg).1.mono hext, (h.sending msg hmsg).2.trans hle⟩
  waiting w hw :=
    ⟨(h.waiting w hw).1.mono hext, (h.waiting w hw).2.1.trans hle,
      (h.waiting w hw).2.2.mono hext⟩
  sent_le msg hmsg := (h.sent_le msg hmsg).trans hle

theorem ServerOk.mono [Inhabited C] {i : Fin n} {sv : Server n C D} (h : ServerOk a i sv)
    (hext : Extends a a') (hpeer : a'.peer i = a.peer i) (hballot : a'.ballot i = a.ballot i) :
    ServerOk a' i sv where
  me := h.me
  wf := h.wf
  persisted := h.persisted
  peer := by rw [hpeer, h.peer]
  vote := by rw [hballot, h.vote]
  included := h.included
  applied := h.applied
  matched hrole p := (h.matched hrole p).imp_right (hext.ack_mono _ _ _)
  counted hrole := by
    obtain ⟨V, hcard, hdisj, hvotes⟩ := h.counted hrole
    exact ⟨V, hcard, hdisj, fun v hv => hext.ballot_some _ _ _ (hvotes v hv)⟩
  own hrole k e he hT := (h.own hrole k e he hT).mono hext
  sends := h.sends.mono hext le_rfl

end Mono

variable [Inhabited C]

/-- The frame rule: the protocol steps of server `i` leave the other servers
    alone, so only the server, the new packets and the new messages are left to
    be matched. -/
theorem Refines.update {c : Cluster n C D} {a a' : Abs n C} (h : Refines c a) {i : Fin n}
    (hsteps : AbsSteps a a')
    (hothers : ∀ j, j ≠ i → a'.peer j = a.peer j ∧ a'.ballot j = a.ballot j)
    {sv : Server n C D} (hsv : ServerOk a' i sv) {ps : List (Packet n C D)}
    (hps : ∀ p ∈ ps, PacketOk a' p) {ms : List (Fin n × ApplyMsg C D)}
    (hms : ∀ m ∈ ms, MsgOk a' m.2) :
    Refines
      { servers := Function.update c.servers i sv, packets := c.packets ++ ps,
        emitted := c.emitted ++ ms } a' := by
  obtain ⟨hext, hinv⟩ := h.inv.steps hsteps
  refine ⟨hinv, ?_, ?_, ?_⟩
  · intro j
    by_cases hj : j = i
    · subst hj
      simpa using hsv
    · simp only [ne_eq, hj, not_false_eq_true, Function.update_of_ne]
      exact (h.servers j).mono hext (hothers j hj).1 (hothers j hj).2
  · intro p hp
    rcases List.mem_append.mp hp with hp | hp
    · exact (h.packets p hp).mono hext
    · exact hps p hp
  · intro m hm
    rcases List.mem_append.mp hm with hm | hm
    · exact (h.emitted m hm).mono hext
    · exact hms m hm

/-- The answer to a step of server `i`: some protocol steps after which the new
    server, packets and messages are matched. -/
def Answer (a : Abs n C) (i : Fin n) (sv : Server n C D) (ps : List (Packet n C D))
    (ms : List (Fin n × ApplyMsg C D)) : Prop :=
  ∃ a', AbsSteps a a' ∧ (∀ j, j ≠ i → a'.peer j = a.peer j ∧ a'.ballot j = a.ballot j) ∧
    ServerOk a' i sv ∧ (∀ p ∈ ps, PacketOk a' p) ∧ ∀ m ∈ ms, MsgOk a' m.2

theorem Refines.answer {c : Cluster n C D} {a : Abs n C} (h : Refines c a) {i : Fin n}
    {sv : Server n C D} {ps : List (Packet n C D)} {ms : List (Fin n × ApplyMsg C D)}
    (hans : Answer a i sv ps ms) :
    ∃ a', AbsSteps a a' ∧ Refines
      { servers := Function.update c.servers i sv, packets := c.packets ++ ps,
        emitted := c.emitted ++ ms } a' := by
  obtain ⟨a', hsteps, hothers, hsv, hps, hms⟩ := hans
  exact ⟨a', hsteps, h.update hsteps hothers hsv hps hms⟩

section Answers

variable {a : Abs n C} {i : Fin n} {sv : Server n C D}

omit [Inhabited C] in
theorem setPeer_others (a : Abs n C) (i : Fin n) (p : ReplicatedLog.Peer (LogEntry C)) (j : Fin n)
    (hj : j ≠ i) : (a.setPeer i p).peer j = a.peer j ∧ (a.setPeer i p).ballot j = a.ballot j := by
  simp [ReplicatedLog.State.setPeer, hj]

/-- A step that the protocol does not notice. -/
theorem Answer.silent {sv' : Server n C D} (hsv : ServerOk a i sv')
    {ps : List (Packet n C D)} (hps : ∀ p ∈ ps, PacketOk a p)
    {ms : List (Fin n × ApplyMsg C D)} (hms : ∀ m ∈ ms, MsgOk a m.2) :
    Answer a i sv' ps ms :=
  ⟨a, .refl, fun _ _ => ⟨rfl, rfl⟩, hsv, hps, hms⟩

/-- A server that becomes follower of a term that is not older than its own. -/
theorem ServerOk.toFollower (h : ServerOk a i sv) (hinv : AbsInv a) (rf' : Raft n C D)
    (hle : sv.rf.currentTerm ≤ rf'.currentTerm) (hme : rf'.me = sv.rf.me) (hwf : rf'.Wf)
    (hper : rf'.Persisted)
    (hvote : rf'.votedFor =
      if sv.rf.currentTerm < rf'.currentTerm then none else sv.rf.votedFor)
    (hrole : rf'.role = .follower) (hlog : rf'.logical = sv.rf.logical)
    (hcommit : rf'.commitIndex = sv.rf.commitIndex)
    (hincl : rf'.lastIncludedIndex = sv.rf.lastIncludedIndex)
    (happl : rf'.lastApplied = sv.rf.lastApplied) :
    ∃ a', AbsSteps a a' ∧ a' = a.setPeer i
        { a.peer i with term := rf'.currentTerm, role := .follower } ∧
      ServerOk a' i { sv with rf := rf' } := by
  have hterm : (a.peer i).term = sv.rf.currentTerm := by rw [h.peer]
  have hsteps : AbsSteps a (a.setPeer i
      { a.peer i with term := rf'.currentTerm, role := .follower }) := by
    rcases Nat.eq_or_lt_of_le hle with heq | hlt
    · rw [← heq, ← hterm]
      exact .single (.retire a i (a.peer i).commit le_rfl)
    · exact .single (.adopt a i rf'.currentTerm (hterm ▸ hlt))
  have hext := (hinv.steps hsteps).1
  refine ⟨_, hsteps, rfl, ?_⟩
  constructor
  case me => exact hme.trans h.me
  case wf => exact hwf
  case persisted => exact hper
  case peer => simp [ReplicatedLog.State.setPeer, h.peer, hrole, hlog, hcommit]
  case vote =>
    rw [hvote]
    change a.ballot i rf'.currentTerm = _
    split
    · -- nobody has voted in a term it has not reached
      rename_i hlt
      cases hb : a.ballot i rf'.currentTerm with
      | none => rfl
      | some c =>
        have := hinv.ballot_term i _ c hb
        omega
    · rename_i hge
      rw [show rf'.currentTerm = sv.rf.currentTerm by omega]
      exact h.vote
  case included =>
    change rf'.lastIncludedIndex ≤ rf'.lastApplied
    rw [hincl, happl]
    exact h.included
  case applied =>
    change rf'.lastApplied ≤ rf'.commitIndex
    rw [happl, hcommit]
    exact h.applied
  case matched => intro hr; rw [hrole] at hr; cases hr
  case counted => intro hr; rw [hrole] at hr; cases hr
  case own => intro hr; rw [hrole] at hr; cases hr
  case sends => exact h.sends.mono hext happl.ge

theorem ServerOk.followLeader (h : ServerOk a i sv) (hinv : AbsInv a) {T : Nat}
    (hle : sv.rf.currentTerm ≤ T) :
    ∃ a', AbsSteps a a' ∧ a' = a.setPeer i { a.peer i with term := T, role := .follower } ∧
      ServerOk a' i { sv with rf := sv.rf.followLeader T } := by
  have hterm := Raft.followLeader_currentTerm hle
  have hvote : (sv.rf.followLeader T).votedFor =
      if sv.rf.currentTerm < (sv.rf.followLeader T).currentTerm then none
      else sv.rf.votedFor := by
    rw [hterm]
    unfold Raft.followLeader Raft.observeTerm
    split <;> rfl
  have hans := h.toFollower hinv (sv.rf.followLeader T) (by rw [hterm]; exact hle)
    (by simp) (h.wf.followLeader T) (h.persisted.followLeader T) hvote rfl (by simp) (by simp)
    (by simp) (by simp)
  rw [hterm] at hans
  exact hans

theorem ServerOk.becomeFollower (h : ServerOk a i sv) (hinv : AbsInv a) {T : Nat}
    (hlt : sv.rf.currentTerm < T) :
    ∃ a', AbsSteps a a' ∧ a' = a.setPeer i { a.peer i with term := T, role := .follower } ∧
      ServerOk a' i { sv with rf := sv.rf.becomeFollower T } :=
  h.toFollower hinv (sv.rf.becomeFollower T) hlt.le rfl
    ⟨h.wf.slot0, h.wf.covers_length, h.wf.covers_term⟩ (.inl rfl) (if_pos hlt).symm rfl rfl rfl
    rfl rfl

/-- Stepping down on the term of a reply. -/
theorem ServerOk.answer_becomeFollower (h : ServerOk a i sv) (hinv : AbsInv a) {T : Nat}
    (hlt : sv.rf.currentTerm < T) :
    Answer a i { sv with rf := sv.rf.becomeFollower T } [] [] := by
  obtain ⟨a', hsteps, rfl, hsv⟩ := h.becomeFollower hinv hlt
  exact ⟨_, hsteps, setPeer_others a i _, hsv, by simp, by simp⟩

/-! ### Elections -/

theorem ServerOk.electionTimeout (h : ServerOk a i sv) (hinv : AbsInv a)
    {rf' : Raft n C D} {args : RequestVoteArgs n}
    (hst : sv.rf.startElection = some (rf', args)) :
    Answer a i { sv with rf := rf', votes := 1, asking := Finset.univ.erase i }
      (((List.finRange n).filter (· ≠ i)).map fun peer => .voteRequest i peer args) [] := by
  rw [h.wf.startElection_eq] at hst
  obtain ⟨rfl, rfl⟩ := Prod.mk.inj (Option.some.inj hst)
  have hsteps : AbsSteps a _ := .single (.stand a i)
  have hext := (hinv.steps hsteps).1
  refine ⟨_, hsteps, ?_, ?_, ?_, by simp⟩
  · intro j hj
    simp [ReplicatedLog.State.setPeer, ReplicatedLog.State.setBallot,
      ReplicatedLog.State.setBid, hj]
  · constructor
    case me => exact h.me
    case wf => exact ⟨h.wf.slot0, h.wf.covers_length, h.wf.covers_term⟩
    case persisted => exact .inl rfl
    case peer =>
      simp [ReplicatedLog.State.setPeer, ReplicatedLog.State.setBallot,
        ReplicatedLog.State.setBid, h.peer]
      exact ⟨rfl, rfl, rfl, rfl⟩
    case vote =>
      simp [ReplicatedLog.State.setPeer, ReplicatedLog.State.setBallot,
        ReplicatedLog.State.setBid, h.peer, Raft.persist, Raft.save, h.me]
    case included => exact h.included
    case applied => exact h.applied
    case matched => intro hr; cases hr
    case counted =>
      -- the candidate has counted its own vote
      intro _
      refine ⟨{i}, by simp, by simp, ?_⟩
      simp [ReplicatedLog.State.setPeer, ReplicatedLog.State.setBallot,
        ReplicatedLog.State.setBid, h.peer, Raft.persist, Raft.save]
    case own => intro hr; cases hr
    case sends => exact h.sends.mono hext le_rfl
  · intro p hp
    obtain ⟨peer, -, rfl⟩ := List.mem_map.mp hp
    refine ⟨h.me, sv.rf.logical, ?_, rfl, rfl⟩
    simp [ReplicatedLog.State.setPeer, ReplicatedLog.State.setBallot,
      ReplicatedLog.State.setBid, h.peer]

theorem ServerOk.observeTerm (h : ServerOk a i sv) (hinv : AbsInv a) {T : Nat}
    (hle : sv.rf.currentTerm ≤ T) :
    ∃ a', AbsSteps a a' ∧
      (∀ j, j ≠ i → a'.peer j = a.peer j ∧ a'.ballot j = a.ballot j) ∧
      ServerOk a' i { sv with rf := sv.rf.observeTerm T } := by
  rcases Nat.eq_or_lt_of_le hle with heq | hlt
  · have hsame : sv.rf.observeTerm T = sv.rf := by
      unfold Raft.observeTerm
      rw [if_neg (by omega)]
    rw [hsame]
    exact ⟨a, .refl, fun _ _ => ⟨rfl, rfl⟩, h⟩
  · have hstep : sv.rf.observeTerm T = sv.rf.becomeFollower T := by
      unfold Raft.observeTerm
      rw [if_pos hlt]
    rw [hstep]
    obtain ⟨a', hsteps, rfl, hsv⟩ := h.becomeFollower hinv hlt
    exact ⟨_, hsteps, setPeer_others a i _, hsv⟩

theorem ServerOk.requestVote (h : ServerOk a i sv) (hinv : AbsInv a) {caller : Fin n}
    {args : RequestVoteArgs n} (hargs : PacketOk a (.voteRequest caller i args : Packet n C D))
    {rf' : Raft n C D} {reply : RequestVoteReply}
    (hst : sv.rf.requestVote args = some (rf', reply)) :
    Answer a i { sv with rf := rf' } [.voteReply caller i args reply] [] := by
  rcases h.wf.requestVote_cases hst with ⟨-, rfl, hno⟩ | ⟨hle, rfl, hno⟩ |
    ⟨hle, hfree, hup, rfl⟩
  · refine Answer.silent h ?_ (by simp)
    simp [PacketOk, hno]
  · obtain ⟨a', hsteps, hothers, hsv⟩ := h.observeTerm hinv hle
    refine ⟨a', hsteps, hothers, hsv, ?_, by simp⟩
    simp [PacketOk, hno]
  · obtain ⟨a₁, hsteps₁, hothers₁, hsv₁⟩ := h.observeTerm hinv hle
    obtain ⟨hext₁, hinv₁⟩ := hinv.steps hsteps₁
    obtain ⟨hid, B, hB, hlen, hlast⟩ := hargs
    have hterm : (a₁.peer i).term = args.term := by
      rw [hsv₁.peer]
      exact Raft.observeTerm_currentTerm hle
    have hlog : (a₁.peer i).log = sv.rf.logical := by
      rw [hsv₁.peer]
      simp
    have hvote : a₁.ballot i args.term = (sv.rf.observeTerm args.term).votedFor := by
      have := hsv₁.vote
      simp only [Raft.observeTerm_currentTerm hle] at this
      exact this
    have hsteps₂ : AbsSteps a₁ (a₁.setBallot i (a₁.peer i).term caller) := by
      refine .single (.grant a₁ i caller B ?_ ?_ ?_)
      · rw [hterm]
        exact hext₁.bid_some _ _ _ hB
      · rw [hterm, hvote, ← hid]
        exact hfree
      · rw [ReplicatedLog.UpToDate, hlog, ← hlen, ← hlast]
        exact hup
    obtain ⟨hext₂, -⟩ := hinv₁.steps hsteps₂
    rw [hterm] at hsteps₂ hext₂
    have hnew : (a₁.setBallot i args.term caller).ballot i args.term = some caller := by
      simp [ReplicatedLog.State.setBallot]
    have hrfT : (sv.rf.observeTerm args.term).currentTerm = args.term :=
      Raft.observeTerm_currentTerm hle
    refine ⟨_, hsteps₁.trans hsteps₂, ?_, ?_, ?_, by simp⟩
    · intro j hj
      simpa [ReplicatedLog.State.setBallot, hj] using hothers₁ j hj
    · constructor
      case me => exact hsv₁.me
      case wf => exact ⟨hsv₁.wf.slot0, hsv₁.wf.covers_length, hsv₁.wf.covers_term⟩
      case persisted => exact .inl rfl
      case peer => exact hsv₁.peer
      case vote =>
        change (a₁.setBallot i args.term caller).ballot i
          (sv.rf.observeTerm args.term).currentTerm = some args.candidateId
        rw [hrfT, hnew, hid]
      case included => exact hsv₁.included
      case applied => exact hsv₁.applied
      case matched => exact hsv₁.matched
      case counted =>
        intro hrole
        obtain ⟨V, hcard, hdisj, hvotes⟩ := hsv₁.counted hrole
        exact ⟨V, hcard, hdisj, fun v hv => hext₂.ballot_some _ _ _ (hvotes v hv)⟩
      case own => exact fun hrole k e he hT => (hsv₁.own hrole k e he hT).mono hext₂
      case sends => exact hsv₁.sends.mono hext₂ le_rfl
    · intro p hp
      obtain rfl := List.mem_singleton.mp hp
      exact fun _ => hnew

/-- A set that holds more than `n / 2` servers is a quorum. -/
theorem isQuorum_of_card {V : Finset (Fin n)} (h : n / 2 < V.card) :
    (majorities (Fin n)).IsQuorum V := by
  simp only [majorities, Fintype.card_fin]
  omega

theorem ServerOk.voteReply (h : ServerOk a i sv) (hinv : AbsInv a) {callee : Fin n}
    {args : RequestVoteArgs n} {reply : RequestVoteReply}
    (hreply : PacketOk a (.voteReply i callee args reply : Packet n C D))
    (hterm : sv.rf.currentTerm = args.term) (hrole : sv.rf.role = .candidate)
    (hask : callee ∈ sv.asking) :
    Answer a i
      { sv with
        rf := (sv.rf.handleVoteReply args.term sv.votes reply).1
        votes := (sv.rf.handleVoteReply args.term sv.votes reply).2
        asking := sv.asking.erase callee } [] [] := by
  obtain ⟨V, hcard, hdisj, hvotes⟩ := h.counted hrole
  have hdisj' : Disjoint V (sv.asking.erase callee) :=
    hdisj.mono_right (Finset.erase_subset _ _)
  have hfresh : callee ∉ V := fun hV => Finset.disjoint_left.mp hdisj hV hask
  -- the callee's vote is counted once: it leaves `asking` with it
  have hinsert : reply.voteGranted = true →
      (insert callee V).card = sv.votes + 1 ∧ Disjoint (insert callee V) (sv.asking.erase callee) ∧
      ∀ v ∈ insert callee V, a.ballot v sv.rf.currentTerm = some i := by
    intro hgrant
    refine ⟨by rw [Finset.card_insert_of_notMem hfresh, hcard], ?_, ?_⟩
    · rw [Finset.disjoint_insert_left]
      exact ⟨Finset.notMem_erase _ _, hdisj'⟩
    · intro v hv
      rcases Finset.mem_insert.mp hv with rfl | hv
      · rw [hterm]
        exact hreply hgrant
      · exact hvotes v hv
  rw [← hterm]
  rcases sv.rf.handleVoteReply_cases sv.votes reply hrole with heq | ⟨hlt, heq⟩ |
    ⟨hgrant, heq⟩ | ⟨hgrant, hmaj, heq⟩
  · rw [heq]
    refine Answer.silent ?_ (by simp) (by simp)
    exact { h with counted := fun _ => ⟨V, hcard, hdisj', hvotes⟩ }
  · rw [heq]
    obtain ⟨a', hsteps, rfl, hsv⟩ := h.becomeFollower hinv hlt
    refine ⟨_, hsteps, setPeer_others a i _, ?_, by simp, by simp⟩
    exact { hsv with counted := fun hr => by cases hr }
  · rw [heq]
    refine Answer.silent ?_ (by simp) (by simp)
    exact { h with counted := fun _ => ⟨_, hinsert hgrant⟩ }
  · rw [heq]
    obtain ⟨hcard', -, hvotes'⟩ := hinsert hgrant
    have hpeer : (a.peer i).role = .candidate := by rw [h.peer]; exact hrole
    have hpterm : (a.peer i).term = sv.rf.currentTerm := by rw [h.peer]
    have hsteps : AbsSteps a _ := .single (.win a i (insert callee V) hpeer
      (isQuorum_of_card (by rw [hcard']; exact hmaj)) (by rw [hpterm]; exact hvotes'))
    have hext := (hinv.steps hsteps).1
    refine ⟨_, hsteps, ?_, ?_, by simp, by simp⟩
    · intro j hj
      simp [ReplicatedLog.State.setPeer, ReplicatedLog.State.setLeader,
        ReplicatedLog.State.setLeaderLog, hj]
    · constructor
      case me => exact h.me
      case wf => exact ⟨h.wf.slot0, h.wf.covers_length, h.wf.covers_term⟩
      case persisted => exact h.persisted
      case peer =>
        simp [ReplicatedLog.State.setPeer, ReplicatedLog.State.setLeader,
          ReplicatedLog.State.setLeaderLog, h.peer]
        rfl
      case vote => exact h.vote
      case included => exact h.included
      case applied => exact h.applied
      case matched => exact fun _ p => .inl rfl
      case counted => intro hr; cases hr
      case own =>
        -- a candidate's log has no entry of the term it stands in
        intro _ k e he hT
        have hlog : (a.peer i).log = sv.rf.logical := by rw [h.peer]
        have hbid := hinv.bid_candidate i hpeer
        have hlt := (hinv.bid_entries i _ _ hbid).2 e (hlog ▸ List.mem_of_getElem? he)
        rw [hpterm] at hlt
        exact absurd hT hlt.ne
      case sends => exact h.sends.mono hext le_rfl

/-! ### Replication -/

theorem ServerOk.start (h : ServerOk a i sv) (hinv : AbsInv a) (command : C) :
    Answer a i { sv with rf := (sv.rf.start command).1 } [] [] := by
  rcases sv.rf.start_cases command with ⟨-, heq⟩ | ⟨hrole, heq⟩
  · rw [heq]
    exact Answer.silent h (by simp) (by simp)
  · rw [heq]
    obtain ⟨hwf, hlogical⟩ := h.wf.logical_append ⟨sv.rf.currentTerm, command⟩
    have hpterm : (a.peer i).term = sv.rf.currentTerm := by rw [h.peer]
    have hsteps : AbsSteps a _ := .single (.propose a i ⟨sv.rf.currentTerm, command⟩
      (by rw [h.peer]; exact hrole) hpterm.symm)
    have hext := (hinv.steps hsteps).1
    refine ⟨_, hsteps, ?_, ?_, by simp, by simp⟩
    · intro j hj
      simp [ReplicatedLog.State.setPeer, ReplicatedLog.State.setLeaderLog,
        ReplicatedLog.State.addAck, hj]
    · constructor
      case me => exact h.me
      case wf => exact hwf.persist
      case persisted => exact .inl rfl
      case peer =>
        simp only [ReplicatedLog.State.setPeer, ReplicatedLog.State.setLeaderLog,
          ReplicatedLog.State.addAck, h.peer, Function.update_self, Raft.logical_persist, hlogical]
        rfl
      case vote => exact h.vote
      case included => exact h.included
      case applied => exact h.applied
      case matched => exact fun hr p => (h.matched hr p).imp_right (hext.ack_mono _ _ _)
      case counted =>
        intro hr
        have hlead : sv.rf.role = .candidate := hr
        rw [hrole] at hlead
        cases hlead
      case own =>
        intro _ k e he hT
        rw [Raft.logical_persist, hlogical] at he
        rcases Nat.lt_or_ge k sv.rf.logical.length with hlt | hge
        · rw [List.getElem?_append_left hlt] at he
          exact (h.own hrole k e he hT).mono hext
        · -- the leader acknowledges what it appends
          have hk := (List.getElem?_eq_some_iff.mp he).1
          simp only [List.length_append, List.length_singleton] at hk
          refine ⟨sv.rf.logical.length + 1, hk, .inr ⟨rfl, hpterm.symm, ?_⟩⟩
          rw [h.peer]
      case sends => exact h.sends.mono hext le_rfl

/-- A leader may put a prefix of its log on the wire, with a commit bound it has
    reached. -/
theorem ServerOk.offer (h : ServerOk a i sv) (hinv : AbsInv a) (hrole : sv.rf.role = .leader)
    {F : List (LogEntry C)} {c : Nat} (hF : F <+: sv.rf.logical) (hc : c ≤ F.length)
    (hcommit : c ≤ sv.rf.commitIndex) {p : Packet n C D}
    (hp : ∀ a' : Abs n C, a'.offer sv.rf.currentTerm F c → PacketOk a' p) :
    Answer a i sv [p] [] := by
  have hpterm : (a.peer i).term = sv.rf.currentTerm := by rw [h.peer]
  have hsteps : AbsSteps a _ := .single (.offer a i F c (by rw [h.peer]; exact hrole)
    (by rw [h.peer]; exact hF) hc (by rw [h.peer]; exact hcommit))
  have hext := (hinv.steps hsteps).1
  refine ⟨_, hsteps, fun _ _ => ⟨rfl, rfl⟩, h.mono hext rfl rfl, ?_, by simp⟩
  intro q hq
  obtain rfl := List.mem_singleton.mp hq
  exact hp _ (.inr ⟨hpterm.symm, rfl, rfl⟩)

theorem ServerOk.replicateAppend (h : ServerOk a i sv) (hinv : AbsInv a)
    (hrole : sv.rf.role = .leader) {server : Fin n} {prev : Nat}
    (hprev : prev ≤ sv.rf.logical.length) :
    Answer a i sv
      [.appendRequest i server
        { term := sv.rf.currentTerm, leaderId := sv.rf.me, prevLogIndex := prev,
          prevLogTerm := termOf sv.rf.logical prev, entries := sv.rf.logical.drop prev,
          leaderCommit := sv.rf.commitIndex }] [] := by
  have hlen : sv.rf.commitIndex ≤ sv.rf.logical.length := by
    have hok := (hinv.commit_ok i).1
    rw [h.peer] at hok
    exact hok
  refine h.offer hinv hrole List.prefix_rfl hlen le_rfl ?_
  intro a' hoffer
  exact ⟨sv.rf.logical, hoffer, hprev, rfl, rfl⟩

theorem ServerOk.replicateSnapshot (h : ServerOk a i sv) (hinv : AbsInv a)
    (hrole : sv.rf.role = .leader) {server : Fin n} :
    Answer a i sv
      [.snapshotRequest i server
        { term := sv.rf.currentTerm, leaderId := sv.rf.me,
          lastIncludedIndex := sv.rf.lastIncludedIndex,
          lastIncludedTerm := sv.rf.lastIncludedTerm,
          data := sv.rf.persister.snapshot }] [] := by
  have hpre : sv.rf.persister.snapshot.covers <+: sv.rf.logical := List.prefix_append _ _
  refine h.offer hinv hrole hpre h.wf.covers_length.ge (h.included.trans h.applied) ?_
  intro a' hoffer
  exact ⟨hoffer, h.wf.covers_length, h.wf.covers_term.symm⟩

/-- A match index that an acknowledgement stands behind. -/
theorem ServerOk.setMatch (h : ServerOk a i sv) {server : Fin n} {m : Nat}
    {next : Fin n → Nat} (hm : m = 0 ∨ a.ack server sv.rf.currentTerm m) :
    ServerOk a i { sv with rf := { sv.rf with
      matchIndex := Function.update sv.rf.matchIndex server m, nextIndex := next } } where
  me := h.me
  wf := ⟨h.wf.slot0, h.wf.covers_length, h.wf.covers_term⟩
  persisted := h.persisted
  peer := h.peer
  vote := h.vote
  included := h.included
  applied := h.applied
  matched := by
    intro hr p
    by_cases hp : p = server
    · subst hp
      simpa using hm
    · simpa [hp] using h.matched hr p
  counted := h.counted
  own := h.own
  sends := h.sends

theorem ServerOk.advanceCommit (h : ServerOk a i sv) (hinv : AbsInv a)
    (hrole : sv.rf.role = .leader) {rf' : Raft n C D} (hst : sv.rf.advanceCommit = some rf') :
    Answer a i { sv with rf := rf' } [] [] := by
  rcases h.wf.advanceCommit_cases hst with rfl | ⟨k, e, hk, he, hT, hmaj, rfl⟩
  · exact Answer.silent h (by simp) (by simp)
  let held := Finset.univ.filter fun peer => peer ≠ sv.rf.me ∧ k + 1 ≤ sv.rf.matchIndex peer
  have hQ : (majorities (Fin n)).IsQuorum (insert i held) := by
    refine isQuorum_of_card ?_
    rw [Finset.card_insert_of_notMem (by simp [held, h.me]), Nat.add_comm]
    exact hmaj
  have hacks : ∀ v ∈ insert i held, Acked a v sv.rf.currentTerm k := by
    intro v hv
    rcases Finset.mem_insert.mp hv with rfl | hv
    · exact h.own hrole k e he hT
    · obtain ⟨-, hle⟩ := (Finset.mem_filter.mp hv).2
      rcases h.matched hrole v with hzero | hack
      · omega
      · exact ⟨_, hle, hack⟩
  have hsteps : AbsSteps a _ := .single (.commit a i k e (insert i held)
    (by rw [h.peer]; exact hrole) (by rw [h.peer]; exact hk) (by rw [h.peer]; exact he)
    (by rw [h.peer]; exact hT) hQ (by rw [h.peer]; exact hacks))
  have hext := (hinv.steps hsteps).1
  refine ⟨_, hsteps, setPeer_others a i _, ?_, by simp, by simp⟩
  constructor
  case me => exact h.me
  case wf => exact ⟨h.wf.slot0, h.wf.covers_length, h.wf.covers_term⟩
  case persisted => exact h.persisted
  case peer =>
    simp only [ReplicatedLog.State.setPeer, h.peer, Function.update_self]
    rfl
  case vote => exact h.vote
  case included => exact h.included
  case applied => exact h.applied.trans (Nat.le_succ_of_le hk)
  case matched => exact h.matched
  case counted => exact h.counted
  case own => exact h.own
  case sends => exact h.sends.mono hext le_rfl

theorem ServerOk.appendReply (h : ServerOk a i sv) (hinv : AbsInv a) {callee : Fin n}
    {args : AppendEntriesArgs n C} {reply : AppendEntriesReply}
    (hreply : PacketOk a (.appendReply i callee args reply : Packet n C D)) {rf' : Raft n C D}
    (hst : sv.rf.handleAppendReply callee args reply = some rf') :
    Answer a i { sv with rf := rf' } [] [] := by
  rcases Raft.handleAppendReply_cases hst with rfl | ⟨hlt, rfl⟩ | ⟨hrole, -, -, -, next, rfl⟩ |
    ⟨hrole, hterm, hok, hadv⟩
  · exact Answer.silent h (by simp) (by simp)
  · exact h.answer_becomeFollower hinv hlt
  · refine Answer.silent ?_ (by simp) (by simp)
    exact ⟨h.me, ⟨h.wf.slot0, h.wf.covers_length, h.wf.covers_term⟩, h.persisted, h.peer,
      h.vote, h.included, h.applied, h.matched, h.counted, h.own, h.sends⟩
  · split at hadv
    · have hack : a.ack callee sv.rf.currentTerm (args.prevLogIndex + args.entries.length) := by
        rw [hterm]
        exact hreply hok
      exact (h.setMatch (.inr hack)).advanceCommit hinv hrole hadv
    · exact h.advanceCommit hinv hrole hadv

theorem ServerOk.snapshotReply (h : ServerOk a i sv) (hinv : AbsInv a) {callee : Fin n}
    {args : InstallSnapshotArgs n C D} {reply : InstallSnapshotReply}
    (hreply : PacketOk a (.snapshotReply i callee args reply : Packet n C D)) :
    Answer a i { sv with rf := sv.rf.handleSnapshotReply callee args reply } [] [] := by
  rcases sv.rf.handleSnapshotReply_cases callee args reply with heq | ⟨hlt, heq⟩ |
    ⟨hrole, hterm, hle, heq⟩
  · rw [heq]
    exact Answer.silent h (by simp) (by simp)
  · rw [heq]
    exact h.answer_becomeFollower hinv hlt
  · rw [heq]
    refine Answer.silent (h.setMatch ?_) (by simp) (by simp)
    rcases max_choice (sv.rf.matchIndex callee) args.lastIncludedIndex with hmax | hmax
    · rw [hmax]
      exact h.matched hrole callee
    · rw [hmax, hterm]
      exact .inr (hreply hle)

/-! ### Acceptance -/

/-- A follower that takes over an offered prefix acknowledges it. -/
theorem ServerOk.accept (h : ServerOk a i sv) (hinv : AbsInv a) {F : List (LogEntry C)} {c : Nat}
    (hoffer : a.offer sv.rf.currentTerm F c) (rf' : Raft n C D)
    (habs : Absorbs sv.rf.logical F rf'.logical) (hme : rf'.me = sv.rf.me) (hwf : rf'.Wf)
    (hper : rf'.Persisted) (hterm : rf'.currentTerm = sv.rf.currentTerm)
    (hvote : rf'.votedFor = sv.rf.votedFor) (hrole : rf'.role = .follower)
    (hcommit : rf'.commitIndex = max sv.rf.commitIndex c)
    (hincl : rf'.lastIncludedIndex ≤ rf'.lastApplied)
    (happl : rf'.lastApplied ≤ rf'.commitIndex)
    (hmono : sv.rf.lastApplied ≤ rf'.lastApplied) :
    ∃ a', AbsSteps a a' ∧
      (∀ j, j ≠ i → a'.peer j = a.peer j ∧ a'.ballot j = a.ballot j) ∧
      ServerOk a' i { sv with rf := rf' } ∧ a'.ack i sv.rf.currentTerm F.length := by
  have hpterm : (a.peer i).term = sv.rf.currentTerm := by rw [h.peer]
  have hsteps : AbsSteps a _ := .single (.accept a i F c rf'.logical
    (by rw [hpterm]; exact hoffer) (by rw [h.peer]; exact habs))
  have hext := (hinv.steps hsteps).1
  refine ⟨_, hsteps, ?_, ?_, .inr ⟨rfl, hpterm.symm, rfl⟩⟩
  · intro j hj
    simp [ReplicatedLog.State.setPeer, ReplicatedLog.State.addAck, hj]
  · constructor
    case me => exact hme.trans h.me
    case wf => exact hwf
    case persisted => exact hper
    case peer =>
      simp [ReplicatedLog.State.setPeer, ReplicatedLog.State.addAck, h.peer, hterm, hrole,
        hcommit]
    case vote =>
      change a.ballot i rf'.currentTerm = rf'.votedFor
      rw [hterm, hvote]
      exact h.vote
    case included => exact hincl
    case applied => exact happl
    case matched => intro hr; rw [hrole] at hr; cases hr
    case counted => intro hr; rw [hrole] at hr; cases hr
    case own => intro hr; rw [hrole] at hr; cases hr
    case sends => exact h.sends.mono hext hmono

omit [Inhabited C] in
/-- Sound logs whose terms agree at an index agree up to it. -/
theorem take_eq_of_termOf {X F : List (LogEntry C)} (hX : Sound LogEntry.term a X)
    (hF : Sound LogEntry.term a F) {p : Nat} (hpX : p ≤ X.length) (hpF : p ≤ F.length)
    (hterm : termOf X p = termOf F p) : X.take p = F.take p := by
  cases p with
  | zero => simp
  | succ k =>
    have hx : X[k]? = some X[k] := List.getElem?_eq_getElem hpX
    have hf : F[k]? = some F[k] := List.getElem?_eq_getElem hpF
    rw [termOf_succ hx, termOf_succ hf] at hterm
    exact hX.matching hF hx hf hterm

/-- What a leader of this term or a later one offers beyond the snapshot starts
    with what the snapshot covers. -/
theorem ServerOk.take_included (h : ServerOk a i sv) (hinv : AbsInv a) {T c : Nat}
    {F : List (LogEntry C)} (hle : sv.rf.currentTerm ≤ T) (hoffer : a.offer T F c)
    (hlen : sv.rf.lastIncludedIndex ≤ F.length) :
    sv.rf.logical.take sv.rf.lastIncludedIndex = F.take sv.rf.lastIncludedIndex := by
  obtain ⟨hlead, hF, -, -⟩ := hinv.offer_ok T F c hoffer
  have hcomm := (hinv.commit_ok i).2
  rw [h.peer] at hcomm
  have hshort : sv.rf.logical.take sv.rf.lastIncludedIndex <+:
      sv.rf.logical.take sv.rf.commitIndex :=
    List.take_prefix_take_left (h.included.trans h.applied)
  have hown := hinv.committed_isPrefix (hcomm.of_isPrefix hshort) hle hlead
  have htake : sv.rf.logical.take sv.rf.lastIncludedIndex <+: F := by
    refine List.prefix_of_prefix_length_le hown hF ?_
    rw [List.length_take]
    omega
  have hfull : (sv.rf.logical.take sv.rf.lastIncludedIndex).length =
      sv.rf.lastIncludedIndex := by
    rw [List.length_take]
    exact min_eq_left h.wf.le_length
  rw [← ReplicatedLog.take_eq_of_isPrefix htake hfull.ge, List.take_take, min_self]

/-- The splice of an accepted request is an acceptance of the offer behind it. -/
theorem ServerOk.spliceAt_offer (h : ServerOk a i sv) (hinv : AbsInv a) {T c : Nat}
    {F : List (LogEntry C)} (hle : sv.rf.currentTerm ≤ T) (hoffer : a.offer T F c)
    {prev p : Nat} {es : List (LogEntry C)} (hprev : prev ≤ F.length)
    (hcase :
      (sv.rf.lastIncludedIndex ≤ prev ∧ p = prev ∧ es = F.drop prev ∧
        p ≤ sv.rf.logical.length ∧ termOf sv.rf.logical p = termOf F prev) ∨
      (prev < sv.rf.lastIncludedIndex ∧
        sv.rf.lastIncludedIndex < prev + (F.drop prev).length ∧ p = sv.rf.lastIncludedIndex ∧
        es = (F.drop prev).drop (sv.rf.lastIncludedIndex - prev))) :
    Absorbs sv.rf.logical F (spliceAt sv.rf.logical p es) := by
  have hX : Sound LogEntry.term a sv.rf.logical := by
    have hlog := (hinv.log_entries i).1
    rw [h.peer] at hlog
    exact hlog
  have hF : Sound LogEntry.term a F :=
    (hinv.leaderLog_entries T).1.of_isPrefix (hinv.offer_ok T F c hoffer).2.1
  have hmatch : ∀ (k : Nat) x y, sv.rf.logical[k]? = some x → F[k]? = some y →
      x.term = y.term → sv.rf.logical.take (k + 1) = F.take (k + 1) :=
    fun k x y hx hy hxy => hX.matching hF hx hy hxy
  rcases hcase with ⟨-, rfl, rfl, hp, hterm⟩ | ⟨hlt, hbeyond, rfl, rfl⟩
  · exact spliceAt_absorbs hp (take_eq_of_termOf hX hF hp hprev hterm) hmatch
  · rw [List.length_drop] at hbeyond
    have hsum : prev + (sv.rf.lastIncludedIndex - prev) = sv.rf.lastIncludedIndex := by omega
    rw [List.drop_drop, hsum]
    exact spliceAt_absorbs h.wf.le_length
      (h.take_included hinv hle hoffer (by omega)) hmatch

theorem ServerOk.appendRequest (h : ServerOk a i sv) (hinv : AbsInv a) {caller : Fin n}
    {args : AppendEntriesArgs n C} (hargs : AppendOk a args) {rf' : Raft n C D}
    {reply : AppendEntriesReply} (hst : sv.rf.appendEntries args = some (rf', reply)) :
    Answer a i { sv with rf := rf' } [.appendReply caller i args reply] [] := by
  rcases h.wf.appendEntries_cases hst with ⟨-, rfl, hno⟩ | ⟨hle, rfl, hno⟩ |
    ⟨hle, -, p, es, l, hcase, hwf, hlogical, rfl⟩
  · refine Answer.silent h ?_ (by simp)
    simp [PacketOk, hno]
  · obtain ⟨a', hsteps, rfl, hsv⟩ := h.followLeader hinv hle
    refine ⟨_, hsteps, setPeer_others a i _, hsv, ?_, by simp⟩
    simp [PacketOk, hno]
  · obtain ⟨F, hoffer, hprev, hentries, hprevTerm⟩ := hargs
    obtain ⟨-, -, hc, -⟩ := hinv.offer_ok _ _ _ hoffer
    rw [hentries, hprevTerm] at hcase
    have habs := h.spliceAt_offer hinv hle hoffer hprev hcase
    rw [← hlogical] at habs
    have heq := Raft.accepted_eq hwf (hc.trans (habs.isPrefix.length_le))
    obtain ⟨a₁, hsteps₁, hothers₁, hsv₁⟩ := h.followLeader hinv hle
    obtain ⟨hext₁, hinv₁⟩ := hinv.steps hsteps₁
    have hterm : (sv.rf.followLeader args.term).currentTerm = args.term :=
      Raft.followLeader_currentTerm hle
    have hcommit : (sv.rf.accepted args l).commitIndex =
        max sv.rf.commitIndex args.leaderCommit := by rw [heq]
    have happlied : (sv.rf.accepted args l).lastApplied = sv.rf.lastApplied := by
      rw [heq]
      exact Raft.followLeader_lastApplied _ _
    have hincl : (sv.rf.accepted args l).lastIncludedIndex = sv.rf.lastIncludedIndex := by
      rw [heq]
      exact Raft.followLeader_lastIncludedIndex _ _
    obtain ⟨a₂, hsteps₂, hothers₂, hsv₂, hack⟩ := hsv₁.accept hinv₁
      (hterm ▸ hext₁.offer_mono _ _ _ hoffer) (sv.rf.accepted args l)
      (by rw [Raft.followLeader_logical]; exact habs) (by rw [heq]; rfl) hwf
      (by rw [heq]; exact .inl rfl) (by rw [heq]; rfl) (by rw [heq]; rfl) (by rw [heq]; rfl)
      (by rw [hcommit, Raft.followLeader_commitIndex])
      (by rw [hincl, happlied]; exact h.included)
      (by rw [happlied, hcommit]; exact h.applied.trans (le_max_left _ _))
      (by rw [happlied, Raft.followLeader_lastApplied])
    refine ⟨a₂, hsteps₁.trans hsteps₂, ?_, hsv₂, ?_, by simp⟩
    · intro j hj
      rw [(hothers₂ j hj).1, (hothers₂ j hj).2, hothers₁]
      exact setPeer_others a i _ j hj
    · intro q hq
      obtain rfl := List.mem_singleton.mp hq
      intro _
      have hsum : args.prevLogIndex + args.entries.length = F.length := by
        rw [hentries, List.length_drop]
        omega
      rw [hsum, ← hterm]
      exact hack

/-- What a leader of this term or a later one offers within the snapshot is held
    already. -/
theorem ServerOk.isPrefix_of_le_included (h : ServerOk a i sv) (hinv : AbsInv a) {T c : Nat}
    {F : List (LogEntry C)} (hle : sv.rf.currentTerm ≤ T) (hoffer : a.offer T F c)
    (hlen : F.length ≤ sv.rf.lastIncludedIndex) : F <+: sv.rf.logical := by
  obtain ⟨hlead, hF, -, -⟩ := hinv.offer_ok _ _ _ hoffer
  obtain ⟨hcl, hcomm⟩ := hinv.commit_ok i
  rw [h.peer] at hcl hcomm
  have hown := hinv.committed_isPrefix hcomm hle hlead
  have hcov : F <+: sv.rf.logical.take sv.rf.commitIndex := by
    refine List.prefix_of_prefix_length_le hF hown ?_
    rw [List.length_take, min_eq_left hcl]
    exact hlen.trans (h.included.trans h.applied)
  exact hcov.trans <| List.take_prefix _ _

/-- A snapshot that is already covered is acknowledged without any change. -/
theorem ServerOk.snapshot_isPrefix (h : ServerOk a i sv) (hinv : AbsInv a)
    {args : InstallSnapshotArgs n C D} (hargs : SnapshotOk a args)
    (hle : sv.rf.currentTerm ≤ args.term)
    (hold : args.lastIncludedIndex ≤ sv.rf.lastIncludedIndex) :
    args.data.covers <+: sv.rf.logical := by
  exact h.isPrefix_of_le_included hinv hle hargs.1 (hargs.2.1.le.trans hold)

/-- What `InstallSnapshot` leaves of the log makes it an acceptance of what the
    snapshot covers. -/
theorem ServerOk.install_absorbs (h : ServerOk a i sv) (hinv : AbsInv a)
    {args : InstallSnapshotArgs n C D} (hargs : SnapshotOk a args)
    {tail : List (LogEntry C)}
    (hcase :
      (args.lastIncludedIndex < sv.rf.logical.length ∧
        termOf sv.rf.logical args.lastIncludedIndex = args.lastIncludedTerm ∧
        tail = sv.rf.logical.drop args.lastIncludedIndex) ∨
      (¬ (args.lastIncludedIndex < sv.rf.logical.length ∧
        termOf sv.rf.logical args.lastIncludedIndex = args.lastIncludedTerm) ∧ tail = [])) :
    Absorbs sv.rf.logical args.data.covers (args.data.covers ++ tail) := by
  obtain ⟨hoffer, hlen, hlast⟩ := hargs
  have hX : Sound LogEntry.term a sv.rf.logical := by
    have hlog := (hinv.log_entries i).1
    rw [h.peer] at hlog
    exact hlog
  have hF : Sound LogEntry.term a args.data.covers :=
    (hinv.leaderLog_entries _).1.of_isPrefix (hinv.offer_ok _ _ _ hoffer).2.1
  have hlast' : args.lastIncludedTerm = termOf args.data.covers args.lastIncludedIndex := by
    rw [hlast, ← hlen, termOf_length]
  rcases hcase with ⟨hlt, hterm, rfl⟩ | ⟨hno, rfl⟩
  · have htake := take_eq_of_termOf hX hF hlt.le hlen.ge (hterm.trans hlast')
    rw [List.take_of_length_le hlen.le] at htake
    rw [← htake]
    exact .inl ⟨ List.take_prefix _ _, List.take_append_drop _ _⟩
  · rw [List.append_nil]
    by_cases hpre : args.data.covers <+: sv.rf.logical
    · -- the log could only have kept what lies beyond its end
      refine .inl ⟨hpre, hpre.eq_of_length_le ?_⟩
      by_contra hlong
      refine hno ⟨by omega, ?_⟩
      rw [hlast', termOf_eq_of_isPrefix hpre hlen.ge]
    · exact .inr ⟨hpre, rfl⟩

theorem ServerOk.snapshotRequest (h : ServerOk a i sv) (hinv : AbsInv a) {caller : Fin n}
    {args : InstallSnapshotArgs n C D} (hargs : SnapshotOk a args) {rf' : Raft n C D}
    {reply : InstallSnapshotReply} {msg : Option (ApplyMsg C D)}
    (hst : sv.rf.installSnapshot args = some (rf', reply, msg)) :
    (msg = none ∧
      Answer a i { sv with rf := rf' } [.snapshotReply caller i args reply] []) ∨
    ∃ m, msg = some m ∧ Answer a i
      { sv with
        rf := rf'
        snapshotSends := sv.snapshotSends ++ [⟨m, caller, args, reply⟩] } [] [] := by
  rcases h.wf.installSnapshot_cases hst with ⟨-, rfl, hlt, rfl⟩ | ⟨hle, hold, rfl, rfl⟩ |
    ⟨hle, hnew, rfl, tail, hcase, rfl⟩
  · refine .inl ⟨rfl, Answer.silent h ?_ (by simp)⟩
    intro q hq
    obtain rfl := List.mem_singleton.mp hq
    intro hcon
    omega
  all_goals
    obtain ⟨a₁, hsteps₁, hothers₁, hsv₁⟩ := h.followLeader hinv hle
    obtain ⟨hext₁, hinv₁⟩ := hinv.steps hsteps₁
    have hterm : (sv.rf.followLeader args.term).currentTerm = args.term :=
      Raft.followLeader_currentTerm hle
    have hoffer₁ : a₁.offer (sv.rf.followLeader args.term).currentTerm args.data.covers
        args.lastIncludedIndex := by
      rw [hterm]
      exact hext₁.offer_mono _ _ _ hargs.1
  · have hcommit : args.lastIncludedIndex ≤ sv.rf.commitIndex :=
      hold.trans (h.included.trans h.applied)
    obtain ⟨a₂, hsteps₂, hothers₂, hsv₂, hack⟩ := hsv₁.accept hinv₁ hoffer₁
      (sv.rf.followLeader args.term)
      (.inl ⟨by simpa using h.snapshot_isPrefix hinv hargs hle hold, rfl⟩) rfl hsv₁.wf
      hsv₁.persisted rfl rfl rfl (by simpa using hcommit) hsv₁.included hsv₁.applied le_rfl
    refine .inl ⟨rfl, a₂, hsteps₁.trans hsteps₂, ?_, hsv₂, ?_, by simp⟩
    · intro j hj
      rw [(hothers₂ j hj).1, (hothers₂ j hj).2, hothers₁]
      exact setPeer_others a i _ j hj
    · intro q hq
      obtain rfl := List.mem_singleton.mp hq
      intro _
      rw [← hargs.2.1, ← hterm]
      exact hack
  · have habs := h.install_absorbs hinv hargs hcase
    obtain ⟨a₂, hsteps₂, hothers₂, hsv₂, hack⟩ := hsv₁.accept hinv₁ hoffer₁
      (({ sv.rf.followLeader args.term with
          log := Raft.dummy args.lastIncludedTerm :: tail
          lastIncludedIndex := args.lastIncludedIndex
          lastIncludedTerm := args.lastIncludedTerm
          commitIndex := max sv.rf.commitIndex args.lastIncludedIndex
          lastApplied := max sv.rf.lastApplied args.lastIncludedIndex } :
            Raft n C D).save args.data)
      (by simpa [Raft.logical, Raft.save] using habs) rfl
      ⟨⟨_, _, rfl, rfl⟩, hargs.2.1, hargs.2.2.symm⟩ (.inl rfl) rfl rfl rfl (by simp [Raft.save])
      (le_max_right _ _) (max_le_max h.applied le_rfl) (by simp [Raft.save])
    refine .inr ⟨_, rfl, a₂, hsteps₁.trans hsteps₂, ?_, ?_, by simp, by simp⟩
    · intro j hj
      rw [(hothers₂ j hj).1, (hothers₂ j hj).2, hothers₁]
      exact setPeer_others a i _ j hj
    · refine { hsv₂ with sends := ⟨hsv₂.sends.sending, ?_, hsv₂.sends.sent_le⟩ }
      intro w hw
      rcases List.mem_append.mp hw with hw | hw
      · exact hsv₂.sends.waiting w hw
      · obtain rfl := List.mem_singleton.mp hw
        have hext₂ := (hinv₁.steps hsteps₂).1
        have hcomm := (hinv.offer_ok _ _ _ hargs.1).2.2.2
        rw [List.take_of_length_le hargs.2.1.le] at hcomm
        refine ⟨⟨⟨_, hcomm.mono (hext₁.trans hext₂) le_rfl⟩, hargs.2.1, hargs.2.2.symm⟩,
          le_max_right _ _, ?_⟩
        intro _
        change a₂.ack i args.term args.lastIncludedIndex
        rw [← hargs.2.1, ← hterm]
        exact hack

/-! ### Delivery, compaction and restart -/

theorem ServerOk.apply (h : ServerOk a i sv) (hinv : AbsInv a) {rf' : Raft n C D}
    {msg : Option (ApplyMsg C D)} (hst : sv.rf.applier = some (rf', msg)) :
    Answer a i { sv with rf := rf', applierSend := msg } [] [] := by
  rcases h.wf.applier_cases hst with ⟨rfl, rfl⟩ | ⟨hlt, hincl, e, he, rfl, rfl⟩
  · refine Answer.silent ?_ (by simp) (by simp)
    exact { h with sends := ⟨by simp, h.sends.waiting, h.sends.sent_le⟩ }
  · have hle : sv.rf.lastApplied ≤ sv.rf.lastApplied + 1 := Nat.le_succ _
    have hsends := h.sends.mono (Extends.refl a) hle
    refine Answer.silent ?_ (by simp) (by simp)
    refine ⟨h.me, ⟨h.wf.slot0, h.wf.covers_length, h.wf.covers_term⟩, h.persisted, h.peer,
      h.vote, h.included.trans hle, hlt, h.matched, h.counted, h.own, ?_, hsends.waiting,
      hsends.sent_le⟩
    intro m hm
    obtain rfl := Option.some.inj hm
    have hcomm := (hinv.commit_ok i).2
    rw [h.peer] at hcomm
    refine ⟨⟨_, e, ⟨_, hcomm⟩, Nat.succ_pos _, ?_, rfl⟩, le_rfl⟩
    rw [Nat.add_sub_cancel, List.getElem?_take_of_lt hlt]
    exact he

theorem ServerOk.sendCommand (h : ServerOk a i sv) {msg : ApplyMsg C D}
    (hmsg : sv.applierSend = some msg) :
    Answer a i { sv with applierSend := none, sent := sv.sent ++ [msg] } [] [(i, msg)] := by
  obtain ⟨hok, hle⟩ := h.sends.sending msg hmsg
  refine Answer.silent ?_ (by simp) (by simpa using hok)
  refine { h with sends := ⟨by simp, h.sends.waiting, ?_⟩ }
  intro m hm
  rcases List.mem_append.mp hm with hm | hm
  · exact h.sends.sent_le m hm
  · obtain rfl := List.mem_singleton.mp hm
    exact hle

theorem ServerOk.sendSnapshot (h : ServerOk a i sv) {k : Nat} {w : SnapshotSend n C D}
    (hw : sv.snapshotSends[k]? = some w) :
    Answer a i
      { sv with snapshotSends := sv.snapshotSends.eraseIdx k, sent := sv.sent ++ [w.msg] }
      [.snapshotReply w.caller i w.args w.reply] [(i, w.msg)] := by
  obtain ⟨hok, hle, hreply⟩ := h.sends.waiting w (List.mem_of_getElem? hw)
  refine Answer.silent ?_ (by simpa using hreply) (by simpa using hok)
  refine { h with sends := ⟨h.sends.sending, ?_, ?_⟩ }
  · exact fun v hv => h.sends.waiting v (List.mem_of_mem_eraseIdx hv)
  · intro m hm
    rcases List.mem_append.mp hm with hm | hm
    · exact h.sends.sent_le m hm
    · obtain rfl := List.mem_singleton.mp hm
      exact hle

theorem ServerOk.snapshot (h : ServerOk a i sv) {index : Nat} {data : D}
    (hsent : index ∈ sv.sent.map ApplyMsg.index) {rf' : Raft n C D}
    (hst : sv.rf.snapshot index data = some rf') : Answer a i { sv with rf := rf' } [] [] := by
  obtain ⟨m, hm, rfl⟩ := List.mem_map.mp hsent
  refine Answer.silent ?_ (by simp) (by simp)
  rcases h.wf.snapshot_cases hst with rfl | ⟨-, -, -, hwf, hlogical, rfl⟩
  · exact h
  · constructor
    case me => exact h.me
    case wf => exact hwf
    case persisted => exact .inl rfl
    case peer =>
      rw [hlogical]
      exact h.peer
    case vote => exact h.vote
    case included => exact h.sends.sent_le m hm
    case applied => exact h.applied
    case matched => exact h.matched
    case counted => exact h.counted
    case own =>
      rw [hlogical]
      exact h.own
    case sends => exact h.sends

/-- What `Make` restores is enough to go on as a follower of the same term. -/
theorem ServerOk.restart (h : ServerOk a i sv) :
    Answer a i (Server.boot i sv.rf.persister) [] [] := by
  have hmake := h.persisted.make_eq
  rw [h.me] at hmake
  have hsteps : AbsSteps a _ := .single (.retire a i sv.rf.lastIncludedIndex
    (by rw [h.peer]; exact h.included.trans h.applied))
  refine ⟨_, hsteps, setPeer_others a i _, ?_, by simp, by simp⟩
  unfold Server.boot
  rw [hmake]
  constructor
  case me => rfl
  case wf => exact ⟨h.wf.slot0, h.wf.covers_length, h.wf.covers_term⟩
  case persisted => exact h.persisted
  case peer =>
    simp only [ReplicatedLog.State.setPeer, h.peer, Function.update_self]
    rfl
  case vote => exact h.vote
  case included => exact le_rfl
  case applied => exact le_rfl
  case matched => intro hr; cases hr
  case counted => intro hr; cases hr
  case own => intro hr; cases hr
  case sends => exact ⟨by simp, by simp, by simp⟩

theorem ServerOk.crashInHandler (h : ServerOk a i sv) (hinv : AbsInv a) {T : Nat}
    (hlt : sv.rf.currentTerm < T) :
    Answer a i (Server.boot i (sv.rf.becomeFollower T).persister) [] [] := by
  obtain ⟨a₁, hsteps₁, hothers₁, hsv₁⟩ := h.becomeFollower hinv hlt
  obtain ⟨a₂, hsteps₂, hothers₂, hsv₂, hps, hms⟩ := hsv₁.restart
  refine ⟨a₂, hsteps₁.trans hsteps₂, ?_, hsv₂, hps, hms⟩
  intro j hj
  rw [(hothers₂ j hj).1, (hothers₂ j hj).2, hothers₁]
  exact setPeer_others a i _ j hj

end Answers

/-! ### Steps and runs -/

theorem Refines.deliver {c c' : Cluster n C D} {a : Abs n C} (h : Refines c a)
    {p : Packet n C D} (hp : p ∈ c.packets) (hst : c.deliver p = some c') :
    ∃ a', AbsSteps a a' ∧ Refines c' a' := by
  have hok := h.packets p hp
  cases p with
  | voteRequest caller callee args =>
    simp only [Cluster.deliver, Option.bind_eq_bind, Option.bind_eq_some_iff] at hst
    obtain ⟨⟨rf, reply⟩, hrv, hst⟩ := hst
    obtain rfl := Option.some.inj hst
    simpa [Cluster.setServer, Cluster.post] using
      h.answer ((h.servers callee).requestVote h.inv hok hrv)
  | voteReply caller callee args reply =>
    simp only [Cluster.deliver] at hst
    split at hst
    · obtain rfl := Option.some.inj hst
      exact ⟨a, .refl, h⟩
    · rename_i hcur
      simp only [ne_eq, not_or, not_not] at hcur
      split at hst
      · rename_i hask
        obtain rfl := Option.some.inj hst
        simpa [Cluster.setServer] using
          h.answer ((h.servers caller).voteReply h.inv hok hcur.1 hcur.2 hask)
      · cases hst
  | appendRequest caller callee args =>
    simp only [Cluster.deliver, Option.bind_eq_bind, Option.bind_eq_some_iff] at hst
    obtain ⟨⟨rf, reply⟩, hae, hst⟩ := hst
    obtain rfl := Option.some.inj hst
    simpa [Cluster.setServer, Cluster.post] using
      h.answer ((h.servers callee).appendRequest h.inv hok hae)
  | appendReply caller callee args reply =>
    simp only [Cluster.deliver, Option.bind_eq_bind, Option.bind_eq_some_iff] at hst
    obtain ⟨rf, har, hst⟩ := hst
    obtain rfl := Option.some.inj hst
    simpa [Cluster.setServer] using
      h.answer ((h.servers caller).appendReply h.inv hok har)
  | snapshotRequest caller callee args =>
    simp only [Cluster.deliver, Option.bind_eq_bind, Option.bind_eq_some_iff] at hst
    obtain ⟨⟨rf, reply, msg⟩, his, hst⟩ := hst
    rcases (h.servers callee).snapshotRequest h.inv hok his with ⟨rfl, hans⟩ |
      ⟨m, rfl, hans⟩
    · obtain rfl := Option.some.inj hst
      simpa [Cluster.setServer, Cluster.post] using h.answer hans
    · obtain rfl := Option.some.inj hst
      simpa [Cluster.setServer] using h.answer hans
  | snapshotReply caller callee args reply =>
    obtain rfl := Option.some.inj hst
    simpa [Cluster.setServer] using
      h.answer ((h.servers caller).snapshotReply h.inv hok)

/-- Every step of the cluster is answered by protocol steps. -/
theorem Refines.step {c c' : Cluster n C D} {a : Abs n C} (h : Refines c a)
    {act : Action n C D} (hst : c.step act = some c') :
    ∃ a', AbsSteps a a' ∧ Refines c' a' := by
  cases act with
  | electionTimeout i =>
    simp only [Cluster.step] at hst
    split at hst
    · cases hst
    · simp only [Option.bind_eq_bind, Option.bind_eq_some_iff] at hst
      obtain ⟨⟨rf, args⟩, hse, hst⟩ := hst
      obtain rfl := Option.some.inj hst
      simpa [Cluster.setServer, Cluster.post] using
        h.answer ((h.servers i).electionTimeout h.inv hse)
  | start i command =>
    obtain rfl := Option.some.inj hst
    simpa [Cluster.setServer] using h.answer ((h.servers i).start h.inv command)
  | replicate i server =>
    simp only [Cluster.step] at hst
    split at hst
    · cases hst
    · simp only [Option.bind_eq_bind, Option.bind_eq_some_iff] at hst
      obtain ⟨r, hrt, hst⟩ := hst
      rcases (h.servers i).wf.replicateTo_cases hrt with rfl | ⟨hrole, -, rfl⟩ |
        ⟨hrole, -, hprev, rfl⟩
      · obtain rfl := Option.some.inj hst
        exact ⟨a, .refl, h⟩
      · obtain rfl := Option.some.inj hst
        simpa [Cluster.post, Function.update_eq_self] using
          h.answer ((h.servers i).replicateSnapshot h.inv hrole)
      · obtain rfl := Option.some.inj hst
        simpa [Cluster.post, Function.update_eq_self] using
          h.answer ((h.servers i).replicateAppend h.inv hrole hprev)
  | deliver k =>
    simp only [Cluster.step, Option.bind_eq_some_iff] at hst
    obtain ⟨p, hp, hst⟩ := hst
    exact h.deliver (List.mem_of_getElem? hp) hst
  | apply i =>
    simp only [Cluster.step] at hst
    split at hst
    · cases hst
    · simp only [Option.bind_eq_bind, Option.bind_eq_some_iff] at hst
      obtain ⟨⟨rf, msg⟩, hap, hst⟩ := hst
      obtain rfl := Option.some.inj hst
      simpa [Cluster.setServer] using h.answer ((h.servers i).apply h.inv hap)
  | sendCommand i =>
    simp only [Cluster.step, Option.bind_eq_bind, Option.bind_eq_some_iff] at hst
    obtain ⟨msg, hmsg, hst⟩ := hst
    obtain rfl := Option.some.inj hst
    simpa [Cluster.setServer, Cluster.emit] using h.answer ((h.servers i).sendCommand hmsg)
  | sendSnapshot i k =>
    simp only [Cluster.step, Option.bind_eq_bind, Option.bind_eq_some_iff] at hst
    obtain ⟨w, hw, hst⟩ := hst
    obtain rfl := Option.some.inj hst
    simpa [Cluster.setServer, Cluster.emit, Cluster.post] using
      h.answer ((h.servers i).sendSnapshot hw)
  | snapshot i index data =>
    simp only [Cluster.step] at hst
    split at hst
    · rename_i hsent
      simp only [Option.bind_eq_bind, Option.bind_eq_some_iff] at hst
      obtain ⟨rf, hsn, hst⟩ := hst
      obtain rfl := Option.some.inj hst
      simpa [Cluster.setServer] using h.answer ((h.servers i).snapshot hsent hsn)
    · cases hst
  | restart i =>
    obtain rfl := Option.some.inj hst
    simpa [Cluster.setServer] using h.answer (h.servers i).restart
  | crashInHandler k =>
    simp only [Cluster.step, Option.bind_eq_bind, Option.bind_eq_some_iff] at hst
    obtain ⟨⟨i, T⟩, -, hst⟩ := hst
    split at hst
    · rename_i hlt
      obtain rfl := Option.some.inj hst
      simpa [Cluster.setServer] using h.answer ((h.servers i).crashInHandler h.inv hlt)
    · cases hst

variable [Inhabited D]

theorem Refines.initial : Refines (cluster n C D).init ReplicatedLog.State.initial where
  inv := ReplicatedLog.Inv.initial
  servers i := by
    constructor
    case me => rfl
    case wf => exact ⟨⟨_, _, rfl, rfl⟩, rfl, rfl⟩
    case persisted => exact .inr ⟨rfl, rfl, rfl, rfl, rfl, rfl⟩
    case peer => rfl
    case vote => rfl
    case included => exact le_rfl
    case applied => exact le_rfl
    case matched => intro hr; cases hr
    case counted => intro hr; cases hr
    case own => intro hr; cases hr
    case sends => exact ⟨by rintro msg ⟨⟩, by rintro w ⟨⟩, by rintro msg ⟨⟩⟩
  packets := by rintro p ⟨⟩
  emitted := by rintro m ⟨⟩

/-- A run of the cluster is matched by a run of the protocol. -/
theorem Refines.run {ok : Cluster n C D → Action n C D → Prop} {c c' : Cluster n C D}
    {a : Abs n C} (h : Refines c a) (hrun : (cluster n C D).Reaches ok c c') :
    ∃ a', AbsSteps a a' ∧ Refines c' a' :=
  hrun.simulation (fun _ _ _ _ hR _ hst => hR.step hst) h

/-- Every reachable cluster is matched by a protocol state that meets the
    protocol's invariant. -/
theorem exists_refines {ok : Cluster n C D → Action n C D → Prop} {c : Cluster n C D}
    (h : (cluster n C D).Reachable ok c) : ∃ a, Refines c a := by
  obtain ⟨a, -, ha⟩ := Refines.initial.run h
  exact ⟨a, ha⟩

end RaftLabs
