import RaftLabs.RaftCluster

/-!
# What one step of a cluster runs

Every action runs one locked section on one server and posts a few packets; the
`Raft` of the other servers stays as it is.  `Handled` lists the sections with
the equation of the handler that was run, and statements about the log, the
indices or the packets are proved by going through the list.

A request or a reply that is in flight was posted at some earlier moment of the
run, by the handler that makes such packets.
-/

namespace RaftLabs

variable {n : Nat} {C D : Type} [Inhabited C]

/-! ### One step -/

/-- An action runs a section on server `i` that leaves `rf` and posts `ps`. -/
inductive Handled (c : Cluster n C D) :
    Action n C D → Fin n → Raft n C D → List (Packet n C D) → Prop where
  /-- Nothing but the channels of `i` is touched, or the section returns at once. -/
  | idle (act : Action n C D) (i : Fin n) : Handled c act i (c.servers i).rf []
  | startElection (i : Fin n) (rf : Raft n C D) (args : RequestVoteArgs n)
      (hrole : (c.servers i).rf.role ≠ .leader)
      (hrun : (c.servers i).rf.startElection = some (rf, args)) :
      Handled c (.electionTimeout i) i rf
        (((List.finRange n).filter (· ≠ i)).map fun peer => .voteRequest i peer args)
  | start (i : Fin n) (command : C) :
      Handled c (.start i command) i ((c.servers i).rf.start command).1 []
  | sendAppend (i server : Fin n) (args : AppendEntriesArgs n C) (hne : server ≠ i)
      (hrun : (c.servers i).rf.replicateTo server (c.servers i).rf.currentTerm =
        some (some (.appendEntries args))) :
      Handled c (.replicate i server) i (c.servers i).rf [.appendRequest i server args]
  | sendSnapshot (i server : Fin n) (args : InstallSnapshotArgs n C D) (hne : server ≠ i)
      (hrun : (c.servers i).rf.replicateTo server (c.servers i).rf.currentTerm =
        some (some (.installSnapshot args))) :
      Handled c (.replicate i server) i (c.servers i).rf [.snapshotRequest i server args]
  | requestVote (k : Nat) (caller callee : Fin n) (args : RequestVoteArgs n)
      (rf : Raft n C D) (reply : RequestVoteReply)
      (hpacket : c.packets[k]? = some (.voteRequest caller callee args))
      (hrun : (c.servers callee).rf.requestVote args = some (rf, reply)) :
      Handled c (.deliver k) callee rf [.voteReply caller callee args reply]
  | voteReply (k : Nat) (caller callee : Fin n) (args : RequestVoteArgs n)
      (reply : RequestVoteReply)
      (hpacket : c.packets[k]? = some (.voteReply caller callee args reply))
      (hterm : (c.servers caller).rf.currentTerm = args.term)
      (hrole : (c.servers caller).rf.role = .candidate) :
      Handled c (.deliver k) caller
        ((c.servers caller).rf.handleVoteReply args.term (c.servers caller).votes reply).1 []
  | appendEntries (k : Nat) (caller callee : Fin n) (args : AppendEntriesArgs n C)
      (rf : Raft n C D) (reply : AppendEntriesReply)
      (hpacket : c.packets[k]? = some (.appendRequest caller callee args))
      (hrun : (c.servers callee).rf.appendEntries args = some (rf, reply)) :
      Handled c (.deliver k) callee rf [.appendReply caller callee args reply]
  | appendReply (k : Nat) (caller callee : Fin n) (args : AppendEntriesArgs n C)
      (reply : AppendEntriesReply) (rf : Raft n C D)
      (hpacket : c.packets[k]? = some (.appendReply caller callee args reply))
      (hrun : (c.servers caller).rf.handleAppendReply callee args reply = some rf) :
      Handled c (.deliver k) caller rf []
  | installSnapshot (k : Nat) (caller callee : Fin n) (args : InstallSnapshotArgs n C D)
      (rf : Raft n C D) (reply : InstallSnapshotReply) (msg : Option (ApplyMsg C D))
      (ps : List (Packet n C D))
      (hpacket : c.packets[k]? = some (.snapshotRequest caller callee args))
      (hrun : (c.servers callee).rf.installSnapshot args = some (rf, reply, msg))
      (hps : ps = [] ∨ ps = [.snapshotReply caller callee args reply]) :
      Handled c (.deliver k) callee rf ps
  | snapshotReply (k : Nat) (caller callee : Fin n) (args : InstallSnapshotArgs n C D)
      (reply : InstallSnapshotReply)
      (hpacket : c.packets[k]? = some (.snapshotReply caller callee args reply)) :
      Handled c (.deliver k) caller
        ((c.servers caller).rf.handleSnapshotReply callee args reply) []
  | applier (i : Fin n) (rf : Raft n C D) (msg : Option (ApplyMsg C D))
      (hrun : (c.servers i).rf.applier = some (rf, msg)) : Handled c (.apply i) i rf []
  | answerSnapshot (i : Fin n) (k : Nat) (waiting : SnapshotSend n C D) :
      Handled c (.sendSnapshot i k) i (c.servers i).rf
        [.snapshotReply waiting.caller i waiting.args waiting.reply]
  | snapshot (i : Fin n) (index : Nat) (data : D) (rf : Raft n C D)
      (hsent : index ∈ (c.servers i).sent.map ApplyMsg.index)
      (hrun : (c.servers i).rf.snapshot index data = some rf) :
      Handled c (.snapshot i index data) i rf []
  | restart (i : Fin n) :
      Handled c (.restart i) i (Raft.make i (c.servers i).rf.persister) []
  | crashInHandler (k : Nat) (i : Fin n) (term : Nat)
      (hpacket : c.packets[k]?.bind Packet.request? = some (i, term))
      (hterm : (c.servers i).rf.currentTerm < term) :
      Handled c (.crashInHandler k) i
        (Raft.make i ((c.servers i).rf.becomeFollower term).persister) []

/-- `c'` is `c` after a section on server `i` that left `rf` and posted `ps`. -/
structure After (c : Cluster n C D) (i : Fin n) (rf : Raft n C D) (ps : List (Packet n C D))
    (c' : Cluster n C D) : Prop where
  self : (c'.servers i).rf = rf
  others : ∀ j, j ≠ i → (c'.servers j).rf = (c.servers j).rf
  packets : c'.packets = c.packets ++ ps

section Step

variable {c c' : Cluster n C D}

omit [Inhabited C] in
theorem After.of_update {i : Fin n} {sv : Server n C D} {rf : Raft n C D}
    {ps : List (Packet n C D)} (hservers : c'.servers = Function.update c.servers i sv)
    (hrf : sv.rf = rf) (hpackets : c'.packets = c.packets ++ ps) : After c i rf ps c' where
  self := by rw [hservers, Function.update_self, hrf]
  others j hj := by rw [hservers, Function.update_of_ne hj]
  packets := hpackets

omit [Inhabited C] in
/-- A section that posts nothing. -/
theorem After.of_set {i : Fin n} {sv : Server n C D} {rf : Raft n C D}
    (hservers : c'.servers = Function.update c.servers i sv) (hrf : sv.rf = rf)
    (hpackets : c'.packets = c.packets) : After c i rf [] c' :=
  .of_update hservers hrf (by rw [hpackets, List.append_nil])

omit [Inhabited C] in
theorem After.refl (i : Fin n) : After c i (c.servers i).rf [] c :=
  ⟨rfl, fun _ _ => rfl, (List.append_nil _).symm⟩

theorem Cluster.deliver_handled {k : Nat} {p : Packet n C D} (hp : c.packets[k]? = some p)
    (hst : c.deliver p = some c') :
    ∃ i rf ps, Handled c (.deliver k) i rf ps ∧ After c i rf ps c' := by
  cases p with
  | voteRequest caller callee args =>
    simp only [Cluster.deliver, Option.bind_eq_bind, Option.bind_eq_some_iff] at hst
    obtain ⟨⟨rf, reply⟩, hrun, hst⟩ := hst
    obtain rfl := Option.some.inj hst
    exact ⟨_, _, _, .requestVote k _ _ _ _ _ hp hrun, .of_update rfl rfl rfl⟩
  | voteReply caller callee args reply =>
    simp only [Cluster.deliver] at hst
    split at hst
    · obtain rfl := Option.some.inj hst
      exact ⟨_, _, _, .idle _ caller, .refl _⟩
    · rename_i hcur
      simp only [ne_eq, not_or, not_not] at hcur
      split at hst
      · obtain rfl := Option.some.inj hst
        exact ⟨_, _, _, .voteReply k _ _ _ _ hp hcur.1 hcur.2, .of_set rfl rfl rfl⟩
      · cases hst
  | appendRequest caller callee args =>
    simp only [Cluster.deliver, Option.bind_eq_bind, Option.bind_eq_some_iff] at hst
    obtain ⟨⟨rf, reply⟩, hrun, hst⟩ := hst
    obtain rfl := Option.some.inj hst
    exact ⟨_, _, _, .appendEntries k _ _ _ _ _ hp hrun, .of_update rfl rfl rfl⟩
  | appendReply caller callee args reply =>
    simp only [Cluster.deliver, Option.bind_eq_bind, Option.bind_eq_some_iff] at hst
    obtain ⟨rf, hrun, hst⟩ := hst
    obtain rfl := Option.some.inj hst
    exact ⟨_, _, _, .appendReply k _ _ _ _ _ hp hrun, .of_set rfl rfl rfl⟩
  | snapshotRequest caller callee args =>
    simp only [Cluster.deliver, Option.bind_eq_bind, Option.bind_eq_some_iff] at hst
    obtain ⟨⟨rf, reply, msg⟩, hrun, hst⟩ := hst
    cases msg with
    | none =>
      obtain rfl := Option.some.inj hst
      exact ⟨_, _, _, .installSnapshot k _ _ _ _ _ _ _ hp hrun (.inr rfl),
        .of_update rfl rfl rfl⟩
    | some msg =>
      obtain rfl := Option.some.inj hst
      exact ⟨_, _, _, .installSnapshot k _ _ _ _ _ _ _ hp hrun (.inl rfl), .of_set rfl rfl rfl⟩
  | snapshotReply caller callee args reply =>
    obtain rfl := Option.some.inj hst
    exact ⟨_, _, _, .snapshotReply k _ _ _ _ hp, .of_set rfl rfl rfl⟩

/-- Every step runs one of the listed sections. -/
theorem Cluster.step_handled {act : Action n C D} (hst : c.step act = some c') :
    ∃ i rf ps, Handled c act i rf ps ∧ After c i rf ps c' := by
  cases act with
  | electionTimeout i =>
    simp only [Cluster.step] at hst
    split at hst
    · cases hst
    · rename_i hrole
      simp only [Option.bind_eq_bind, Option.bind_eq_some_iff] at hst
      obtain ⟨⟨rf, args⟩, hrun, hst⟩ := hst
      obtain rfl := Option.some.inj hst
      exact ⟨_, _, _, .startElection i _ _ hrole hrun, .of_update rfl rfl rfl⟩
  | start i command =>
    obtain rfl := Option.some.inj hst
    exact ⟨_, _, _, .start i command, .of_set rfl rfl rfl⟩
  | replicate i server =>
    simp only [Cluster.step] at hst
    split at hst
    · cases hst
    · rename_i hne
      simp only [Option.bind_eq_bind, Option.bind_eq_some_iff] at hst
      obtain ⟨r, hrun, hst⟩ := hst
      match r, hrun, hst with
      | none, hrun, hst =>
        obtain rfl := Option.some.inj hst
        exact ⟨_, _, _, .idle _ i, .refl i⟩
      | some (.appendEntries args), hrun, hst =>
        obtain rfl := Option.some.inj hst
        exact ⟨_, _, _, .sendAppend i server args hne hrun, rfl, fun _ _ => rfl, rfl⟩
      | some (.installSnapshot args), hrun, hst =>
        obtain rfl := Option.some.inj hst
        exact ⟨_, _, _, .sendSnapshot i server args hne hrun, rfl, fun _ _ => rfl, rfl⟩
  | deliver k =>
    simp only [Cluster.step, Option.bind_eq_some_iff] at hst
    obtain ⟨p, hp, hst⟩ := hst
    exact Cluster.deliver_handled hp hst
  | apply i =>
    simp only [Cluster.step] at hst
    split at hst
    · cases hst
    · simp only [Option.bind_eq_bind, Option.bind_eq_some_iff] at hst
      obtain ⟨⟨rf, msg⟩, hrun, hst⟩ := hst
      obtain rfl := Option.some.inj hst
      exact ⟨_, _, _, .applier i _ _ hrun, .of_set rfl rfl rfl⟩
  | sendCommand i =>
    simp only [Cluster.step, Option.bind_eq_bind, Option.bind_eq_some_iff] at hst
    obtain ⟨msg, -, hst⟩ := hst
    obtain rfl := Option.some.inj hst
    exact ⟨_, _, _, .idle _ i, .of_set rfl rfl rfl⟩
  | sendSnapshot i k =>
    simp only [Cluster.step, Option.bind_eq_bind, Option.bind_eq_some_iff] at hst
    obtain ⟨waiting, -, hst⟩ := hst
    obtain rfl := Option.some.inj hst
    exact ⟨_, _, _, .answerSnapshot i k waiting, .of_update rfl rfl rfl⟩
  | snapshot i index data =>
    simp only [Cluster.step] at hst
    split at hst
    · rename_i hsent
      simp only [Option.bind_eq_bind, Option.bind_eq_some_iff] at hst
      obtain ⟨rf, hrun, hst⟩ := hst
      obtain rfl := Option.some.inj hst
      exact ⟨_, _, _, .snapshot i index data rf hsent hrun, .of_set rfl rfl rfl⟩
    · cases hst
  | restart i =>
    obtain rfl := Option.some.inj hst
    exact ⟨_, _, _, .restart i, .of_set rfl rfl rfl⟩
  | crashInHandler k =>
    simp only [Cluster.step, Option.bind_eq_bind, Option.bind_eq_some_iff] at hst
    obtain ⟨⟨i, term⟩, hp, hst⟩ := hst
    split at hst
    · rename_i hlt
      obtain rfl := Option.some.inj hst
      exact ⟨_, _, _, .crashInHandler k i term (Option.bind_eq_some_iff.mpr hp) hlt,
        .of_set rfl rfl rfl⟩
    · cases hst

end Step

/-! ### Where packets come from -/

section Origin

variable {c c' : Cluster n C D} {act : Action n C D} {caller callee : Fin n}
  {args : AppendEntriesArgs n C} {reply : AppendEntriesReply}

/-- In `c` the caller is about to send this request to the callee. -/
def Sends (c : Cluster n C D) (caller callee : Fin n) (args : AppendEntriesArgs n C) : Prop :=
  (c.servers caller).rf.replicateTo callee (c.servers caller).rf.currentTerm =
    some (some (.appendEntries args))

/-- In `c` the request is in flight and the callee would answer it with this
    reply. -/
def Answers (c : Cluster n C D) (caller callee : Fin n) (args : AppendEntriesArgs n C)
    (reply : AppendEntriesReply) : Prop :=
  Packet.appendRequest caller callee args ∈ c.packets ∧
    ∃ rf, (c.servers callee).rf.appendEntries args = some (rf, reply)

/-- A packet that is new was posted by the section that the step has run. -/
theorem Cluster.step_posted (hst : c.step act = some c') {p : Packet n C D}
    (hp : p ∈ c'.packets) :
    p ∈ c.packets ∨ ∃ i rf ps, Handled c act i rf ps ∧ p ∈ ps := by
  obtain ⟨i, rf, ps, hrun, hafter⟩ := Cluster.step_handled hst
  rw [hafter.packets] at hp
  exact (List.mem_append.mp hp).imp_right fun hnew => ⟨i, rf, ps, hrun, hnew⟩

theorem sends_of_step (hst : c.step act = some c')
    (hp : Packet.appendRequest caller callee args ∈ c'.packets) :
    Packet.appendRequest caller callee args ∈ c.packets ∨ Sends c caller callee args := by
  rcases Cluster.step_posted hst hp with hold | ⟨i, rf, ps, hrun, hnew⟩
  · exact .inl hold
  · right
    cases hrun with
    | sendAppend _ server args' hne hrun =>
      obtain ⟨rfl, rfl, rfl⟩ := Packet.appendRequest.inj (List.mem_singleton.mp hnew)
      exact hrun
    | installSnapshot _ _ _ _ _ _ _ _ _ _ hps =>
      rcases hps with rfl | rfl <;> simp at hnew
    | _ => simp at hnew

theorem answers_of_step (hst : c.step act = some c')
    (hp : Packet.appendReply caller callee args reply ∈ c'.packets) :
    Packet.appendReply caller callee args reply ∈ c.packets ∨
      Answers c caller callee args reply := by
  rcases Cluster.step_posted hst hp with hold | ⟨i, rf, ps, hrun, hnew⟩
  · exact .inl hold
  · right
    cases hrun with
    | appendEntries k _ _ args' _ reply' hpacket hrun =>
      obtain ⟨rfl, rfl, rfl, rfl⟩ := Packet.appendReply.inj (List.mem_singleton.mp hnew)
      exact ⟨List.mem_of_getElem? hpacket, rf, hrun⟩
    | installSnapshot _ _ _ _ _ _ _ _ _ _ hps =>
      rcases hps with rfl | rfl <;> simp at hnew
    | _ => simp at hnew

variable [Inhabited D] {ok : Cluster n C D → Action n C D → Prop}

/-- What is true of a packet in flight was made true by the step that posted it. -/
theorem exists_origin {p : Packet n C D} {P : Cluster n C D → Prop}
    (hpost : ∀ c c' act, c.step act = some c' → p ∈ c'.packets → p ∈ c.packets ∨ P c)
    (hc : (cluster n C D).Reachable ok c) (hp : p ∈ c.packets) :
    ∃ c₀, (cluster n C D).Reachable ok c₀ ∧ (cluster n C D).Reaches ok c₀ c ∧ P c₀ := by
  revert hp
  refine hc.invariant (P := fun c => p ∈ c.packets → ∃ c₀, (cluster n C D).Reachable ok c₀ ∧
    (cluster n C D).Reaches ok c₀ c ∧ P c₀) (fun h => by cases h) ?_
  intro c act c' hc ih hok hst hp
  rcases hpost c c' act hst hp with hold | hnew
  · obtain ⟨c₀, hc₀, hrun, hP⟩ := ih hold
    exact ⟨c₀, hc₀, hrun.tail ⟨act, hok, hst⟩, hP⟩
  · exact ⟨c, hc, .single ⟨act, hok, hst⟩, hnew⟩

/-- A request in flight was sent by its caller at some earlier moment. -/
theorem request_origin (hc : (cluster n C D).Reachable ok c)
    (hp : Packet.appendRequest caller callee args ∈ c.packets) :
    ∃ c₀, (cluster n C D).Reachable ok c₀ ∧ (cluster n C D).Reaches ok c₀ c ∧
      Sends c₀ caller callee args :=
  exists_origin (fun _ _ _ hst h => sends_of_step hst h) hc hp

/-- A reply in flight was given by its callee at some earlier moment. -/
theorem reply_origin (hc : (cluster n C D).Reachable ok c)
    (hp : Packet.appendReply caller callee args reply ∈ c.packets) :
    ∃ c₀, (cluster n C D).Reachable ok c₀ ∧ (cluster n C D).Reaches ok c₀ c ∧
      Answers c₀ caller callee args reply :=
  exists_origin (fun _ _ _ hst h => answers_of_step hst h) hc hp

end Origin

end RaftLabs
