import RaftLabs.RaftSafety
import RaftLabs.RaftOutlet

/-!
# Where log entries come from

Entries enter the logs of a cluster through `Start` only.  Whatever is true of an
index and a command when a leader appends the command there is true of every entry
of every log, of the entries and snapshots on the wire, and hence of everything
that is ever committed.
-/

namespace RaftLabs

variable {n : Nat} {C D : Type}

/-- The entries of a list that follows index `start` have the property. -/
def ListHas (P : Nat → C → Prop) (start : Nat) (X : List (LogEntry C)) : Prop :=
  ∀ (k : Nat) e, X[k]? = some e → P (start + k + 1) e.command

section Lists

variable {P : Nat → C → Prop} {start : Nat} {X Y : List (LogEntry C)}

theorem ListHas.append (hX : ListHas P start X) (hY : ListHas P (start + X.length) Y) :
    ListHas P start (X ++ Y) := by
  intro k e he
  rcases Nat.lt_or_ge k X.length with hlt | hge
  · rw [List.getElem?_append_left hlt] at he
    exact hX k e he
  · rw [List.getElem?_append_right hge] at he
    have hP := hY _ e he
    rwa [Nat.add_assoc start, Nat.add_sub_cancel' hge] at hP

theorem ListHas.take (h : ListHas P start X) (m : Nat) : ListHas P start (X.take m) :=
  fun k e he => h k e (ReplicatedLog.getElem?_of_isPrefix (List.take_prefix m X) he)

theorem ListHas.drop (h : ListHas P start X) (m : Nat) : ListHas P (start + m) (X.drop m) := by
  intro k e he
  rw [List.getElem?_drop] at he
  have hP := h _ e he
  rwa [← Nat.add_assoc] at hP

/-- Entries that are spliced in after the first `p` belong there. -/
theorem ListHas.spliceAt {p : Nat} (hX : ListHas P 0 X) (hp : p ≤ X.length)
    (hY : ListHas P p Y) : ListHas P 0 (spliceAt X p Y) := by
  -- induction on the entries, along the recursion of `spliceAt`
  induction Y generalizing p with
  | nil => exact hX
  | cons y Y ih =>
    have htail : ListHas P (p + 1) Y := by
      intro k e he
      have hP := hY (k + 1) e (by rw [List.getElem?_cons_succ]; exact he)
      rwa [show p + (k + 1) + 1 = p + 1 + k + 1 by omega] at hP
    unfold RaftLabs.spliceAt
    split
    · rename_i x hx
      have hlt := (List.getElem?_eq_some_iff.mp hx).1
      split
      · exact ih hlt htail
      · refine (hX.take p).append ?_
        rw [Nat.zero_add, List.length_take_of_le hp]
        exact hY
    · rename_i hnone
      have hlen : X.length = p := hp.antisymm' (List.getElem?_eq_none_iff.mp hnone)
      refine hX.append ?_
      rw [Nat.zero_add, hlen]
      exact hY

end Lists

/-- A step that hands over a message crashes nobody. -/
theorem Cluster.crashed?_of_handed? {c : Cluster n C D} {act : Action n C D}
    {x : Fin n × ApplyMsg C D} (h : c.handed? act = some x) : c.crashed? act = none := by
  cases act with
  | sendCommand => rfl
  | sendSnapshot => rfl
  | _ => cases h

/-- `Start` returns the index at which the leader has put the command. -/
theorem Raft.Wf.start_index {rf : Raft n C D} (h : rf.Wf) (hrole : rf.role = .leader)
    (command : C) : (rf.start command).2.1 = some (rf.logical.length + 1) := by
  obtain ⟨hwf, hlogical⟩ := h.logical_append { term := rf.currentTerm, command := command }
  have hlast := hwf.lastLogIndex_eq
  rw [hlogical, List.length_append, List.length_singleton] at hlast
  simp only [Raft.start, hrole, ne_eq, not_true_eq_false, if_false]
  exact congrArg some hlast

theorem SnapshotsHave.mono {P Q : Snapshot C D → Prop} {c : Cluster n C D}
    (h : SnapshotsHave P c) (hPQ : ∀ sn, P sn → Q sn) : SnapshotsHave Q c where
  saved i := hPQ _ (h.saved i)
  posted caller callee args hp := hPQ _ (h.posted caller callee args hp)
  waiting i w hw := by
    obtain ⟨sn, term, index, hmsg, hsn⟩ := h.waiting i w hw
    exact ⟨sn, term, index, hmsg, hPQ sn hsn⟩

section Sections

variable {P : Nat → C → Prop} {rf rf' : Raft n C D}

/-- `Start` appends one entry. -/
theorem Raft.Wf.start_has (h : rf.Wf) (hlog : ListHas P 0 rf.logical) {command : C}
    (hnew : rf.role = .leader → P (rf.logical.length + 1) command) :
    ListHas P 0 (rf.start command).1.logical := by
  rcases rf.start_cases command with ⟨-, heq⟩ | ⟨hrole, heq⟩
  · rw [heq]
    exact hlog
  · rw [heq]
    have happend := (h.logical_append { term := rf.currentTerm, command := command }).2
    refine Eq.mpr (congrArg (ListHas P 0) happend) (hlog.append ?_)
    intro k e he
    obtain ⟨rfl, rfl⟩ : k = 0 ∧
        ({ term := rf.currentTerm, command := command } : LogEntry C) = e := by
      simpa [List.getElem?_singleton] using he
    rw [Nat.zero_add]
    exact hnew hrole

/-- `AppendEntries` splices in what it was sent. -/
theorem Raft.Wf.appendEntries_has (h : rf.Wf) (hlog : ListHas P 0 rf.logical)
    {args : AppendEntriesArgs n C} (hsent : ListHas P args.prevLogIndex args.entries)
    {reply : AppendEntriesReply} (hrun : rf.appendEntries args = some (rf', reply)) :
    ListHas P 0 rf'.logical := by
  rcases h.appendEntries_cases hrun with ⟨-, rfl, -⟩ | ⟨-, rfl, -⟩ |
    ⟨-, -, p, es, l, hcase, -, hlogical, rfl⟩
  · exact hlog
  · rw [Raft.followLeader_logical]
    exact hlog
  · rw [hlogical]
    rcases hcase with ⟨-, rfl, rfl, hp, -⟩ | ⟨hlt, -, rfl, rfl⟩
    · exact hlog.spliceAt hp hsent
    · refine hlog.spliceAt h.le_length ?_
      have hdrop := hsent.drop (rf.lastIncludedIndex - args.prevLogIndex)
      rwa [Nat.add_sub_cancel' hlt.le] at hdrop

end Sections

/-- Every entry has the property: those of the logs, those that are sent, and those
    that snapshots on the wire stand for. -/
structure EntriesHave (P : Nat → C → Prop) (c : Cluster n C D) : Prop where
  logged : ∀ i, ListHas P 0 (c.servers i).rf.logical
  posted : ∀ caller callee args, Packet.appendRequest caller callee args ∈ c.packets →
    ListHas P args.prevLogIndex args.entries
  covered : ∀ caller callee args, Packet.snapshotRequest caller callee args ∈ c.packets →
    ListHas P 0 args.data.covers

theorem EntriesHave.mono {P Q : Nat → C → Prop} {c : Cluster n C D} (h : EntriesHave P c)
    (hPQ : ∀ k x, P k x → Q k x) :
    EntriesHave Q c where
  logged i k e he := hPQ _ _ (h.logged i k e he)
  posted caller callee args hp k e he := hPQ _ _ (h.posted caller callee args hp k e he)
  covered caller callee args hp k e he := hPQ _ _ (h.covered caller callee args hp k e he)

variable [Inhabited C]

/-- What a step sends on a channel is recorded, and nothing else is. -/
theorem Cluster.emitted_step {c c' : Cluster n C D} {act : Action n C D}
    (hst : c.step act = some c') : c'.emitted = c.emitted ++ (c.handed? act).toList := by
  cases act with
  | sendCommand i =>
    simp only [Cluster.step, Option.bind_eq_bind, Option.bind_eq_some_iff] at hst
    obtain ⟨msg, hmsg, hst⟩ := hst
    obtain rfl := Option.some.inj hst
    simp [Cluster.handed?, hmsg, Cluster.emit, Cluster.setServer]
  | sendSnapshot i k =>
    simp only [Cluster.step, Option.bind_eq_bind, Option.bind_eq_some_iff] at hst
    obtain ⟨waiting, hwaiting, hst⟩ := hst
    obtain rfl := Option.some.inj hst
    simp [Cluster.handed?, hwaiting, Cluster.emit, Cluster.post, Cluster.setServer]
  | deliver k =>
    simp only [Cluster.step, Option.bind_eq_some_iff] at hst
    obtain ⟨p, -, hst⟩ := hst
    refine Eq.trans ?_ (List.append_nil _).symm
    cases p with
    | voteReply =>
      simp only [Cluster.deliver] at hst
      split at hst
      · obtain rfl := Option.some.inj hst
        rfl
      · split at hst
        · obtain rfl := Option.some.inj hst
          rfl
        · cases hst
    | snapshotRequest =>
      simp only [Cluster.deliver, Option.bind_eq_bind, Option.bind_eq_some_iff] at hst
      obtain ⟨⟨rf, reply, msg⟩, -, hst⟩ := hst
      cases msg with
      | none =>
        obtain rfl := Option.some.inj hst
        rfl
      | some msg =>
        obtain rfl := Option.some.inj hst
        rfl
    | snapshotReply =>
      obtain rfl := Option.some.inj hst
      rfl
    | _ =>
      simp only [Cluster.deliver, Option.bind_eq_bind, Option.bind_eq_some_iff] at hst
      obtain ⟨_, -, hst⟩ := hst
      obtain rfl := Option.some.inj hst
      rfl
  | electionTimeout i =>
    simp only [Cluster.step, Option.bind_eq_bind, Option.ite_none_left_eq_some,
      Option.bind_eq_some_iff] at hst
    obtain ⟨-, _, -, hst⟩ := hst
    obtain rfl := Option.some.inj hst
    exact (List.append_nil _).symm
  | replicate i server =>
    simp only [Cluster.step, Option.bind_eq_bind, Option.ite_none_left_eq_some,
      Option.bind_eq_some_iff] at hst
    obtain ⟨-, _, -, hst⟩ := hst
    split at hst
    all_goals
      obtain rfl := Option.some.inj hst
      exact (List.append_nil _).symm
  | apply i =>
    simp only [Cluster.step, Option.bind_eq_bind, Option.ite_none_left_eq_some,
      Option.bind_eq_some_iff] at hst
    obtain ⟨-, _, -, hst⟩ := hst
    obtain rfl := Option.some.inj hst
    exact (List.append_nil _).symm
  | snapshot i index data =>
    simp only [Cluster.step, Option.bind_eq_bind, Option.ite_none_right_eq_some,
      Option.bind_eq_some_iff] at hst
    obtain ⟨-, _, -, hst⟩ := hst
    obtain rfl := Option.some.inj hst
    exact (List.append_nil _).symm
  | crashInHandler k =>
    simp only [Cluster.step, Option.bind_eq_bind, Option.bind_eq_some_iff,
      Option.ite_none_right_eq_some] at hst
    obtain ⟨_, -, -, hst⟩ := hst
    obtain rfl := Option.some.inj hst
    exact (List.append_nil _).symm
  | _ =>
    obtain rfl := Option.some.inj hst
    exact (List.append_nil _).symm

/-- Messages for one index carry one command. -/
theorem Refines.command_unique {c : Cluster n C D} {a : Abs n C} (h : Refines c a) {i j : Fin n}
    {x y : C} {k : Nat} (hx : (i, ApplyMsg.command x k) ∈ c.emitted)
    (hy : (j, ApplyMsg.command y k) ∈ c.emitted) : x = y := by
  obtain ⟨X, e, hX, -, he, rfl⟩ := h.emitted _ hx
  obtain ⟨Y, f, hY, -, hf, rfl⟩ := h.emitted _ hy
  rw [hX.agree h.inv hY he hf]

/-- `InstallSnapshot` puts what the snapshot stands for in the place of a log, or of the
    beginning of one. -/
theorem Raft.Wf.installSnapshot_has {P : Nat → C → Prop} {rf rf' : Raft n C D} (h : rf.Wf)
    (hlog : ListHas P 0 rf.logical)
    {args : InstallSnapshotArgs n C D} (hcovers : ListHas P 0 args.data.covers)
    (hlen : args.data.covers.length = args.lastIncludedIndex) {reply : InstallSnapshotReply}
    {msg : Option (ApplyMsg C D)} (hrun : rf.installSnapshot args = some (rf', reply, msg)) :
    ListHas P 0 rf'.logical := by
  rcases h.installSnapshot_cases hrun with ⟨-, rfl, -, -⟩ | ⟨-, -, rfl, -⟩ |
    ⟨-, -, -, tail, htail, rfl⟩
  · exact hlog
  · rw [Raft.followLeader_logical]
    exact hlog
  · refine hcovers.append ?_
    rw [Nat.zero_add, hlen]
    rcases htail with ⟨-, -, rfl⟩ | ⟨-, rfl⟩
    · have hdrop := hlog.drop args.lastIncludedIndex
      rwa [Nat.zero_add] at hdrop
    · intro k e he
      change ([] : List (LogEntry C))[k]? = some e at he
      cases he

namespace EntriesHave

variable {P : Nat → C → Prop} {c c' : Cluster n C D} {a : Abs n C} {act : Action n C D}

theorem initial [Inhabited D] : EntriesHave P (cluster n C D).init where
  logged i k e he := by
    change ([] : List (LogEntry C))[k]? = some e at he
    cases he
  posted caller callee args hp := by cases hp
  covered caller callee args hp := by cases hp

/-- The section that a step runs leaves a log whose entries have the property. -/
theorem handled (hP : EntriesHave P c) (h : Refines c a) {i : Fin n} {rf : Raft n C D}
    {ps : List (Packet n C D)} (hrun : Handled c act i rf ps)
    (hnew : ∀ j command, act = .start j command → (c.servers j).rf.role = .leader →
      P ((c.servers j).rf.logical.length + 1) command) :
    ListHas P 0 rf.logical := by
  have hwf := (h.servers i).wf
  have hlog := hP.logged i
  cases hrun with
  | idle => exact hlog
  | startElection _ _ args _ hrun =>
    rw [hwf.startElection_eq] at hrun
    obtain ⟨rfl, -⟩ := Prod.mk.inj (Option.some.inj hrun)
    exact hlog
  | start _ command => exact hwf.start_has hlog (hnew i command rfl)
  | sendAppend => exact hlog
  | sendSnapshot => exact hlog
  | requestVote _ _ _ args _ _ _ hrun =>
    rcases hwf.requestVote_cases hrun with ⟨-, rfl, -⟩ | ⟨-, rfl, -⟩ | ⟨-, -, -, rfl⟩
    · exact hlog
    · rw [Raft.observeTerm_logical]
      exact hlog
    · have heq := Raft.observeTerm_logical (c.servers i).rf args.term
      exact Eq.mpr (congrArg (ListHas P 0) heq) hlog
  | voteReply _ _ _ _ reply _ hterm hrole =>
    rw [← hterm]
    rcases (c.servers i).rf.handleVoteReply_cases (c.servers i).votes reply hrole with heq |
      ⟨-, heq⟩ | ⟨-, heq⟩ | ⟨-, -, heq⟩
    all_goals
      rw [heq]
      exact hlog
  | appendEntries _ caller _ args _ _ hpacket hrun =>
    exact hwf.appendEntries_has hlog (hP.posted caller i args (List.mem_of_getElem? hpacket)) hrun
  | appendReply _ _ _ _ _ _ _ hrun =>
    rw [hwf.handleAppendReply_logical hrun]
    exact hlog
  | installSnapshot _ caller _ args _ _ _ _ hpacket hrun =>
    have hmem := List.mem_of_getElem? hpacket
    exact hwf.installSnapshot_has hlog (hP.covered caller i args hmem) (h.packets _ hmem).2.1 hrun
  | snapshotReply _ _ callee args reply _ =>
    rcases (c.servers i).rf.handleSnapshotReply_cases callee args reply with heq | ⟨-, heq⟩ |
      ⟨-, -, -, heq⟩
    all_goals
      rw [heq]
      exact hlog
  | applier _ _ msg hrun =>
    rcases hwf.applier_cases hrun with ⟨rfl, -⟩ | ⟨-, -, e, -, rfl, -⟩
    · exact hlog
    · exact hlog
  | answerSnapshot => exact hlog
  | snapshot _ index data _ _ hrun =>
    rcases hwf.snapshot_cases hrun with rfl | ⟨-, -, -, -, heq, rfl⟩
    · exact hlog
    · rw [heq]
      exact hlog
  | restart =>
    have hmake := (h.servers i).persisted.make_eq
    rw [(h.servers i).me] at hmake
    rw [hmake]
    exact hlog
  | crashInHandler _ _ term _ hlt =>
    obtain ⟨a', -, -, hsv⟩ := (h.servers i).becomeFollower h.inv hlt
    have hmake := hsv.persisted.make_eq
    have hme : ((c.servers i).rf.becomeFollower term).me = i := hsv.me
    dsimp only at hmake
    rw [hme] at hmake
    rw [hmake]
    exact hlog

/-- The property is kept by a step that appends nothing without it. -/
theorem step (hP : EntriesHave P c) (h : Refines c a) (hst : c.step act = some c')
    (hnew : ∀ j command, act = .start j command → (c.servers j).rf.role = .leader →
      P ((c.servers j).rf.logical.length + 1) command) : EntriesHave P c' where
  logged := by
    intro j
    obtain ⟨i, rf, ps, hrun, hafter⟩ := Cluster.step_handled hst
    by_cases hj : j = i
    · rw [hj, hafter.self]
      exact hP.handled h hrun hnew
    · rw [hafter.others j hj]
      exact hP.logged j
  posted := by
    intro caller callee args hp
    rcases sends_of_step hst hp with hold | hsend
    · exact hP.posted caller callee args hold
    · rcases (h.servers caller).wf.replicateTo_cases hsend with hnone | ⟨-, -, hsnap⟩ |
        ⟨-, -, -, hargs⟩
      · cases hnone
      · cases hsnap
      · rw [Request.appendEntries.inj (Option.some.inj hargs)]
        have hdrop := (hP.logged caller).drop ((c.servers caller).rf.nextIndex callee - 1)
        rwa [Nat.zero_add] at hdrop
  covered := by
    intro caller callee args hp
    rcases h.snapshotRequest_mem hst hp with hold | heq
    · exact hP.covered caller callee args hold
    · rw [heq, ← (h.servers caller).wf.take_logical]
      exact (hP.logged caller).take _

/-- What is committed was logged, so it has the property. -/
theorem committed (hP : EntriesHave P c) (h : Refines c a) {X : List (LogEntry C)}
    (hX : Committed a X) : ListHas P 0 X := by
  obtain ⟨U, hX⟩ := hX
  by_cases hne : X = []
  · rw [hne]
    intro k e he
    simp at he
  · obtain ⟨Q, hQ, hheld⟩ := ReplicatedLog.Inv.committed_quorum hX hne
    obtain ⟨v, hv, -⟩ := (ReplicatedLog.majorities (Fin n)).meet Q Q hQ hQ
    have hpre := hheld a (.refl a) h.inv v hv
    rw [(h.servers v).peer] at hpre
    exact fun k e he => hP.logged v k e (ReplicatedLog.getElem?_of_isPrefix hpre he)

/-- So does what is handed to a service. -/
theorem emitted (hP : EntriesHave P c) (h : Refines c a) {i : Fin n} {x : C} {k : Nat}
    (hsent : (i, ApplyMsg.command x k) ∈ c.emitted) : P k x := by
  obtain ⟨X, e, hX, hk, he, rfl⟩ := h.emitted _ hsent
  have hhas := hP.committed h hX _ e he
  rwa [Nat.zero_add, Nat.sub_add_cancel hk] at hhas

end EntriesHave

end RaftLabs
