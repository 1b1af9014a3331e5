import RaftLabs.RaftRefinement
import RaftLabs.RaftSteps

/-!
# What a step does to the service side of a server

Most handlers do not touch what the service can see of a server: how far it has
applied, the snapshot it has saved, and the messages it has sent or is about to
send.  The few that do are listed once, as the moves of an `Outlet`; statements
about delivery and about the state of the service are proved from the list.
-/

namespace RaftLabs

variable {n : Nat} {C D : Type}

/-! ### Outlets and their moves -/

/-- The part of a server that has to do with delivery and compaction. -/
structure Outlet (n : Nat) (C D : Type) where
  lastApplied : Nat
  lastIncludedIndex : Nat
  snapshot : Snapshot C D
  applierSend : Option (ApplyMsg C D)
  snapshotSends : List (SnapshotSend n C D)
  base : Nat
  sent : List (ApplyMsg C D)

def Server.outlet (sv : Server n C D) : Outlet n C D where
  lastApplied := sv.rf.lastApplied
  lastIncludedIndex := sv.rf.lastIncludedIndex
  snapshot := sv.rf.persister.snapshot
  applierSend := sv.applierSend
  snapshotSends := sv.snapshotSends
  base := sv.base
  sent := sv.sent

/-- The messages that wait to be sent. -/
def Outlet.pending (o : Outlet n C D) : List (ApplyMsg C D) :=
  o.applierSend.toList ++ o.snapshotSends.map SnapshotSend.msg

/-- The server that crashes and is started again by an action. -/
def Cluster.crashed? (c : Cluster n C D) : Action n C D → Option (Fin n)
  | .restart i => some i
  | .crashInHandler k => (c.packets[k]?.bind Packet.request?).map Prod.fst
  | _ => none

/-- The message an action hands to the service of a server. -/
def Cluster.handed? (c : Cluster n C D) : Action n C D → Option (Fin n × ApplyMsg C D)
  | .sendCommand i => (c.servers i).applierSend.map fun msg => (i, msg)
  | .sendSnapshot i k => (c.servers i).snapshotSends[k]?.map fun waiting => (i, waiting.msg)
  | _ => none

/-- The service of server `i` notices the action. -/
def Cluster.concerns (c : Cluster n C D) (act : Action n C D) (i : Fin n) : Prop :=
  c.crashed? act = some i ∨ ∃ msg, c.handed? act = some (i, msg)

/-- All that an action can do to the delivery of server `i`. -/
inductive Moves (c : Cluster n C D) (i : Fin n) : Action n C D → Outlet n C D → Prop where
  | quiet (act : Action n C D) (hother : ¬ c.concerns act i) :
      Moves c i act (c.servers i).outlet
  | applied (e : LogEntry C) (hfree : (c.servers i).applierSend = none)
      (hlt : (c.servers i).rf.lastApplied < (c.servers i).rf.commitIndex)
      (he : (c.servers i).rf.logical[(c.servers i).rf.lastApplied]? = some e) :
      Moves c i (.apply i)
        { (c.servers i).outlet with
          lastApplied := (c.servers i).rf.lastApplied + 1
          applierSend := some (.command e.command ((c.servers i).rf.lastApplied + 1)) }
  | installed (k : Nat) (caller : Fin n) (args : InstallSnapshotArgs n C D)
      (reply : InstallSnapshotReply)
      (hpacket : c.packets[k]? = some (.snapshotRequest caller i args))
      (hterm : (c.servers i).rf.currentTerm ≤ args.term)
      (hnew : (c.servers i).rf.lastIncludedIndex < args.lastIncludedIndex) :
      Moves c i (.deliver k)
        { (c.servers i).outlet with
          lastApplied := max (c.servers i).rf.lastApplied args.lastIncludedIndex
          lastIncludedIndex := args.lastIncludedIndex
          snapshot := args.data
          snapshotSends := (c.servers i).snapshotSends ++
            [⟨.snapshot args.data args.lastIncludedTerm args.lastIncludedIndex, caller, args,
              reply⟩] }
  | sentCommand (msg : ApplyMsg C D) (hmsg : (c.servers i).applierSend = some msg) :
      Moves c i (.sendCommand i)
        { (c.servers i).outlet with
          applierSend := none
          sent := (c.servers i).sent ++ [msg] }
  | sentSnapshot (k : Nat) (waiting : SnapshotSend n C D)
      (hwaiting : (c.servers i).snapshotSends[k]? = some waiting) :
      Moves c i (.sendSnapshot i k)
        { (c.servers i).outlet with
          snapshotSends := (c.servers i).snapshotSends.eraseIdx k
          sent := (c.servers i).sent ++ [waiting.msg] }
  | compacted (index : Nat) (data : D)
      (hnew : (c.servers i).rf.lastIncludedIndex < index)
      (hcommit : index ≤ (c.servers i).rf.commitIndex) :
      Moves c i (.snapshot i index data)
        { (c.servers i).outlet with
          lastIncludedIndex := index
          snapshot := { data := data, covers := (c.servers i).rf.logical.take index } }
  | restarted (act : Action n C D) (hcrash : c.crashed? act = some i) :
      Moves c i act
        { (c.servers i).outlet with
          lastApplied := (c.servers i).rf.lastIncludedIndex
          applierSend := none
          snapshotSends := []
          base := (c.servers i).rf.lastIncludedIndex
          sent := [] }

section Moves

variable {c c' : Cluster n C D} {a : Abs n C} {act : Action n C D} {i : Fin n}

theorem not_concerns (hcrash : c.crashed? act = none) (hhanded : c.handed? act = none)
    (j : Fin n) : ¬ c.concerns act j := by
  simp [Cluster.concerns, hcrash, hhanded]

/-- A step of server `i` is a quiet one for the others. -/
theorem moves_update {sv : Server n C D} (hi : Moves c i act sv.outlet)
    (hother : ∀ j, j ≠ i → ¬ c.concerns act j) (j : Fin n) :
    Moves c j act (Function.update c.servers i sv j).outlet := by
  by_cases hj : j = i
  · subst hj
    simpa using hi
  · simpa [hj] using Moves.quiet act (hother j hj)

/-- A handler that leaves alone what the service sees. -/
theorem moves_quiet {rf : Raft n C D} (hservice : Raft.SameService (c.servers i).rf rf)
    {votes : Nat} {asking : Finset (Fin n)} (hother : ∀ j, ¬ c.concerns act j) (j : Fin n) :
    Moves c j act (Function.update c.servers i
      { c.servers i with rf := rf, votes := votes, asking := asking } j).outlet := by
  refine moves_update ?_ (fun j _ => hother j) j
  have heq : Server.outlet { c.servers i with rf := rf, votes := votes, asking := asking } =
      (c.servers i).outlet := by
    simp [Server.outlet, hservice.lastApplied, hservice.lastIncludedIndex, hservice.snapshot]
  rw [heq]
  exact .quiet act (hother i)

variable [Inhabited C]

theorem Refines.boot_outlet (h : Refines c a) (i : Fin n) :
    (Server.boot i (c.servers i).rf.persister).outlet =
      { (c.servers i).outlet with
        lastApplied := (c.servers i).rf.lastIncludedIndex
        applierSend := none
        snapshotSends := []
        base := (c.servers i).rf.lastIncludedIndex
        sent := [] } := by
  have hmake := (h.servers i).persisted.make_eq
  rw [(h.servers i).me] at hmake
  simp [Server.boot, Server.outlet, hmake]

/-- What `Make` finds after a handler has only moved to a later term differs in
    term and vote. -/
theorem Refines.boot_follower_outlet (h : Refines c a) (i : Fin n) {T : Nat}
    (hlt : (c.servers i).rf.currentTerm < T) :
    (Server.boot i ((c.servers i).rf.becomeFollower T).persister).outlet =
      { (c.servers i).outlet with
        lastApplied := (c.servers i).rf.lastIncludedIndex
        applierSend := none
        snapshotSends := []
        base := (c.servers i).rf.lastIncludedIndex
        sent := [] } := by
  obtain ⟨a', -, -, hsv⟩ := (h.servers i).becomeFollower h.inv hlt
  have hmake := hsv.persisted.make_eq
  have hme : ((c.servers i).rf.becomeFollower T).me = i := hsv.me
  dsimp only at hmake
  rw [hme] at hmake
  simp only [Server.boot, Server.outlet, hmake]
  rfl

theorem Refines.deliver_moves (h : Refines c a) {k : Nat} {p : Packet n C D}
    (hp : c.packets[k]? = some p) (hst : c.deliver p = some c') (j : Fin n) :
    Moves c j (.deliver k) (c'.servers j).outlet := by
  cases p with
  | voteRequest caller callee args =>
    simp only [Cluster.deliver, Option.bind_eq_bind, Option.bind_eq_some_iff] at hst
    obtain ⟨⟨rf, reply⟩, hrv, hst⟩ := hst
    obtain rfl := Option.some.inj hst
    refine moves_quiet ?_ (not_concerns rfl rfl) j
    rcases (h.servers callee).wf.requestVote_cases hrv with ⟨-, rfl, -⟩ | ⟨-, rfl, -⟩ |
      ⟨-, -, -, rfl⟩
    · exact .refl _
    · exact Raft.sameService_observeTerm _ _
    · obtain ⟨h1, h2, h3⟩ := Raft.sameService_observeTerm (c.servers callee).rf args.term
      exact ⟨h1, h2, h3⟩
  | voteReply caller callee args reply =>
    simp only [Cluster.deliver] at hst
    split at hst
    · obtain rfl := Option.some.inj hst
      exact .quiet _ (not_concerns rfl rfl _)
    · rename_i hcur
      simp only [ne_eq, not_or, not_not] at hcur
      split at hst
      · obtain rfl := Option.some.inj hst
        refine moves_quiet ?_ (not_concerns rfl rfl) j
        rw [← hcur.1]
        rcases (c.servers caller).rf.handleVoteReply_cases (c.servers caller).votes reply hcur.2
          with heq | ⟨-, heq⟩ | ⟨-, heq⟩ | ⟨-, -, heq⟩
        all_goals
          rw [heq]
          exact ⟨rfl, rfl, rfl⟩
      · cases hst
  | appendRequest caller callee args =>
    simp only [Cluster.deliver, Option.bind_eq_bind, Option.bind_eq_some_iff] at hst
    obtain ⟨⟨rf, reply⟩, hae, hst⟩ := hst
    obtain rfl := Option.some.inj hst
    refine moves_quiet ?_ (not_concerns rfl rfl) j
    rcases (h.servers callee).wf.appendEntries_cases hae with ⟨-, rfl, -⟩ | ⟨-, rfl, -⟩ |
      ⟨-, -, _, _, l, -, -, -, rfl⟩
    · exact .refl _
    · exact Raft.sameService_followLeader _ _
    · exact Raft.sameService_accepted _ _ _
  | appendReply caller callee args reply =>
    simp only [Cluster.deliver, Option.bind_eq_bind, Option.bind_eq_some_iff] at hst
    obtain ⟨rf, har, hst⟩ := hst
    obtain rfl := Option.some.inj hst
    exact moves_quiet ((h.servers caller).wf.sameService_handleAppendReply har)
      (not_concerns rfl rfl) j
  | snapshotRequest caller callee args =>
    simp only [Cluster.deliver, Option.bind_eq_bind, Option.bind_eq_some_iff] at hst
    obtain ⟨⟨rf, reply, msg⟩, his, hst⟩ := hst
    rcases (h.servers callee).wf.installSnapshot_cases his with ⟨-, rfl, -, rfl⟩ |
      ⟨-, -, rfl, rfl⟩ | ⟨hterm, hnew, rfl, tail, -, rfl⟩
    · obtain rfl := Option.some.inj hst
      exact moves_quiet (.refl _) (not_concerns rfl rfl) j
    · obtain rfl := Option.some.inj hst
      exact moves_quiet (Raft.sameService_followLeader _ _) (not_concerns rfl rfl) j
    · obtain rfl := Option.some.inj hst
      exact moves_update (.installed k caller args reply hp hterm hnew)
        (fun j _ => not_concerns rfl rfl j) j
  | snapshotReply caller callee args reply =>
    obtain rfl := Option.some.inj hst
    refine moves_quiet ?_ (not_concerns rfl rfl) j
    rcases (c.servers caller).rf.handleSnapshotReply_cases callee args reply with heq |
      ⟨-, heq⟩ | ⟨-, -, -, heq⟩
    all_goals
      rw [heq]
      exact ⟨rfl, rfl, rfl⟩

/-- Every step of the cluster is one of the moves for every server. -/
theorem Refines.moves (h : Refines c a) (hst : c.step act = some c') (j : Fin n) :
    Moves c j act (c'.servers j).outlet := by
  cases act with
  | electionTimeout i =>
    simp only [Cluster.step, (h.servers i).wf.startElection_eq] at hst
    split at hst
    · cases hst
    · obtain rfl := Option.some.inj hst
      refine moves_quiet ?_ (not_concerns rfl rfl) j
      exact ⟨rfl, rfl, rfl⟩
  | start i command =>
    obtain rfl := Option.some.inj hst
    refine moves_quiet ?_ (not_concerns rfl rfl) j
    rcases (c.servers i).rf.start_cases command with ⟨-, heq⟩ | ⟨-, heq⟩
    all_goals
      rw [heq]
      exact ⟨rfl, rfl, rfl⟩
  | replicate i server =>
    have hservers : c'.servers = c.servers := by
      simp only [Cluster.step] at hst
      split at hst
      · cases hst
      · simp only [Option.bind_eq_bind, Option.bind_eq_some_iff] at hst
        obtain ⟨r, -, hst⟩ := hst
        split at hst
        all_goals
          obtain rfl := Option.some.inj hst
          rfl
    rw [hservers]
    exact .quiet _ (not_concerns rfl rfl _)
  | deliver k =>
    simp only [Cluster.step, Option.bind_eq_some_iff] at hst
    obtain ⟨p, hp, hst⟩ := hst
    exact h.deliver_moves hp hst j
  | apply i =>
    simp only [Cluster.step] at hst
    split at hst
    · cases hst
    · rename_i hfree
      have hnone : (c.servers i).applierSend = none := by simpa using hfree
      simp only [Option.bind_eq_bind, Option.bind_eq_some_iff] at hst
      obtain ⟨⟨rf, msg⟩, hap, hst⟩ := hst
      obtain rfl := Option.some.inj hst
      refine moves_update ?_ (fun j _ => not_concerns rfl rfl j) j
      rcases (h.servers i).wf.applier_cases hap with ⟨rfl, rfl⟩ | ⟨hlt, -, e, he, rfl, rfl⟩
      · have heq : Server.outlet { c.servers i with applierSend := none } =
            (c.servers i).outlet := by
          simp [Server.outlet, hnone]
        dsimp only
        rw [heq]
        exact .quiet _ (not_concerns rfl rfl _)
      · exact .applied e hnone hlt he
  | sendCommand i =>
    simp only [Cluster.step, Option.bind_eq_bind, Option.bind_eq_some_iff] at hst
    obtain ⟨msg, hmsg, hst⟩ := hst
    obtain rfl := Option.some.inj hst
    refine moves_update (.sentCommand msg hmsg) ?_ j
    intro j hj
    simp [Cluster.concerns, Cluster.crashed?, Cluster.handed?, hmsg, hj.symm]
  | sendSnapshot i k =>
    simp only [Cluster.step, Option.bind_eq_bind, Option.bind_eq_some_iff] at hst
    obtain ⟨waiting, hwaiting, hst⟩ := hst
    obtain rfl := Option.some.inj hst
    refine moves_update (.sentSnapshot k waiting hwaiting) ?_ j
    intro j hj
    simp [Cluster.concerns, Cluster.crashed?, Cluster.handed?, hwaiting, hj.symm]
  | snapshot i index data =>
    simp only [Cluster.step] at hst
    split at hst
    · simp only [Option.bind_eq_bind, Option.bind_eq_some_iff] at hst
      obtain ⟨rf, hsn, hst⟩ := hst
      obtain rfl := Option.some.inj hst
      rcases (h.servers i).wf.snapshot_cases hsn with rfl | ⟨hnew, hcommit, -, -, -, rfl⟩
      · exact moves_quiet (.refl _) (not_concerns rfl rfl) j
      · exact moves_update (.compacted index data hnew hcommit)
          (fun j _ => not_concerns rfl rfl j) j
    · cases hst
  | restart i =>
    obtain rfl := Option.some.inj hst
    refine moves_update ?_ ?_ j
    · rw [h.boot_outlet]
      exact .restarted _ rfl
    · intro j hj
      simp [Cluster.concerns, Cluster.crashed?, Cluster.handed?, hj.symm]
  | crashInHandler k =>
    simp only [Cluster.step, Option.bind_eq_bind, Option.bind_eq_some_iff] at hst
    obtain ⟨⟨i, T⟩, hreq, hst⟩ := hst
    have hcrashed : c.crashed? (.crashInHandler k) = some i := by
      simp [Cluster.crashed?, Option.bind_eq_some_iff.mpr hreq]
    split at hst
    · rename_i hlt
      obtain rfl := Option.some.inj hst
      refine moves_update ?_ ?_ j
      · rw [h.boot_follower_outlet i hlt]
        exact .restarted _ hcrashed
      · intro j hj
        simp [Cluster.concerns, hcrashed, Cluster.handed?, hj.symm]
    · cases hst

/-! ### Snapshots travel unchanged -/

/-- A snapshot on the wire was put there by a server that had saved it. -/
theorem Refines.snapshotRequest_mem (h : Refines c a) (hst : c.step act = some c')
    {caller callee : Fin n} {args : InstallSnapshotArgs n C D}
    (hp : Packet.snapshotRequest caller callee args ∈ c'.packets) :
    Packet.snapshotRequest caller callee args ∈ c.packets ∨
      args.data = (c.servers caller).rf.persister.snapshot := by
  rcases Cluster.step_posted hst hp with hold | ⟨i, rf, ps, hrun, hnew⟩
  · exact .inl hold
  · right
    cases hrun with
    | sendSnapshot _ server args' _ hrun =>
      obtain ⟨rfl, rfl, rfl⟩ := Packet.snapshotRequest.inj (List.mem_singleton.mp hnew)
      rcases (h.servers caller).wf.replicateTo_cases hrun with hnone | ⟨-, -, hsnap⟩ |
        ⟨-, -, -, happend⟩
      · cases hnone
      · obtain rfl := Request.installSnapshot.inj (Option.some.inj hsnap)
        rfl
      · cases happend
    | installSnapshot _ _ _ _ _ _ _ _ _ _ hps =>
      rcases hps with rfl | rfl <;> simp at hnew
    | _ => simp at hnew

/-- Every snapshot has the property: those that are saved, those on the wire and
    those on their way to a service. -/
structure SnapshotsHave (property : Snapshot C D → Prop) (c : Cluster n C D) : Prop where
  saved : ∀ i, property (c.servers i).rf.persister.snapshot
  posted : ∀ caller callee args,
    Packet.snapshotRequest caller callee args ∈ c.packets → property args.data
  waiting : ∀ i, ∀ w ∈ (c.servers i).snapshotSends,
    ∃ sn term index, w.msg = .snapshot sn term index ∧ property sn

/-- A property of snapshots holds throughout a run if it holds of those the
    service makes. -/
theorem SnapshotsHave.step {property : Snapshot C D → Prop} (hs : SnapshotsHave property c)
    (h : Refines c a) (hst : c.step act = some c')
    (hnew : ∀ i index data, act = .snapshot i index data →
      index ≤ (c.servers i).rf.commitIndex →
      property { data := data, covers := (c.servers i).rf.logical.take index }) :
    SnapshotsHave property c' where
  saved i := by
    have hm := h.moves hst i
    change property (c'.servers i).outlet.snapshot
    generalize (c'.servers i).outlet = o at hm ⊢
    cases hm with
    | installed k caller args reply hpacket =>
      exact hs.posted caller i args (List.mem_of_getElem? hpacket)
    | compacted index data _ hcommit => exact hnew i index data rfl hcommit
    | _ => exact hs.saved i
  posted caller callee args hp := by
    rcases h.snapshotRequest_mem hst hp with hp | heq
    · exact hs.posted caller callee args hp
    · rw [heq]
      exact hs.saved caller
  waiting i := by
    have hm := h.moves hst i
    change ∀ w ∈ (c'.servers i).outlet.snapshotSends, _
    generalize (c'.servers i).outlet = o at hm ⊢
    cases hm with
    | installed k caller args reply hpacket =>
      intro w hw
      rcases List.mem_append.mp hw with hw | hw
      · exact hs.waiting i w hw
      · obtain rfl := List.mem_singleton.mp hw
        exact ⟨_, _, _, rfl, hs.posted caller i args (List.mem_of_getElem? hpacket)⟩
    | sentSnapshot k waiting hwaiting =>
      exact fun w hw => hs.waiting i w (List.mem_of_mem_eraseIdx hw)
    | restarted => exact fun w hw => by cases hw
    | _ => exact hs.waiting i

end Moves

end RaftLabs
