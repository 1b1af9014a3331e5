import RaftLabs.KVRaft
import RaftLabs.KVLinearizable
import RaftLabs.RaftEntries

/-!
# `kvraft` on top of Raft is the service on top of the contract

As long as no command overtakes a snapshot on its way to a server, every run of the
clerks and servers on top of the Raft cluster is a run of the clerks and servers on
top of an agreed log.  The agreed log is what the loops of the servers have been
handed; an entry comes to stand in it when the first loop handles it.  So the
calls of the clerks are linearizable.  When a command does overtake a snapshot they
need not be: a `Put` that was acknowledged can be lost for good.
-/

namespace RaftLabs.KV

open Linearizability ReplicatedService

/-! ### The relation -/

variable {n : Nat}

/-- The server that a replica is, or will be when it has read the saved snapshot. -/
def Replica.ready (r : Replica) (data : Option Store) : KVServer :=
  match r.loop with
  | .starting => r.kv.readSnapshot data
  | _ => r.kv

theorem Replica.ready_eq {r : Replica} (h : r.loop ≠ .starting) (data : Option Store) :
    r.ready data = r.kv := by
  unfold Replica.ready
  split
  · contradiction
  · rfl

/-- What a replica is at the level of the contract: a server and its position in the log. -/
structure Presents (c : Cluster n Op (Option Store)) (r : Replica) (i : Fin n)
    (sv : KVServer) (p : Nat) : Prop where
  server : sv = r.ready (c.servers i).rf.persister.snapshot.data
  position : p = r.standing (c.servers i).base

/-- A replica that runs does not depend on what Raft has saved. -/
theorem Presents.of_running {c : Cluster n Op (Option Store)} {r : Replica} {i : Fin n}
    (h : r.loop ≠ .starting) : Presents c r i r.kv r.reached where
  server := (r.ready_eq h _).symm
  position := (ReplicaOk.standing_eq h).symm

theorem Presents.eq_of_running {c : Cluster n Op (Option Store)} {r : Replica} {i : Fin n}
    {sv : KVServer} {p : Nat} (hp : Presents c r i sv p) (h : r.loop ≠ .starting) :
    sv = r.kv ∧ p = r.reached :=
  ⟨hp.server.trans (r.ready_eq h _), hp.position.trans (ReplicaOk.standing_eq h)⟩

/-- The servers on top of Raft carry a service.  Its log consists of commands that have
    been handed to loops; what is in the logs of Raft was accepted by `Start`, and every
    snapshot there is was taken. -/
structure Carries (c : KVCluster n) (t : Service (Fin n) Store Op Result) : Prop where
  servers : ∀ i, Presents c.raft (c.replicas i) i (t.servers i) (t.position i)
  logged : ∀ (p : Nat) op, t.log[p]? = some op →
    ∃ i, (i, ApplyMsg.command op (p + 1)) ∈ c.raft.emitted
  entries : EntriesHave (fun index op => (index, op) ∈ t.started) c.raft
  snapshots : SnapshotsHave (fun sn => (sn.covers.length, sn.data) ∈ t.snapshots) c.raft
  received : ∀ i msg, (c.replicas i).loop = .received msg →
    (i, msg) ∈ c.raft.emitted ∧
      ∀ sn term index, msg = .snapshot sn term index → (index, sn.data) ∈ t.snapshots
  compacting : ∀ i k, (c.replicas i).loop = .compacting k →
    (k, some (c.replicas i).kv.state) ∈ t.snapshots

/-- The service that the whole implements. -/
structure Implements (s : KVRaft n) (t : KVService (Fin n)) : Prop where
  clients : SameCalls s.clients t.clients
  handlers : t.service.handlers = s.handlers
  carries : Carries s.cluster t.service

/-! ### The servers on their own -/

/-- Every step of the whole is a step of the servers or leaves them alone. -/
theorem KVRaft.Does.cluster {s s' : KVRaft n} {act : KVRaftAction n} (h : s.Does act s') :
    s'.cluster = s.cluster ∨
      ∃ kact, s.cluster.step kact = some s'.cluster ∧ (InOrder s act → InTurn s.cluster kact) := by
  cases h with
  | invoked => exact .inl rfl
  | entered => exact .inl rfl
  | started h hd cluster get phase hst => exact .inr ⟨_, hst, fun _ => rfl⟩
  | registered h index hd cluster get phase hst => exact .inr ⟨_, hst, fun _ => rfl⟩
  | received => exact .inl rfl
  | expired => exact .inl rfl
  | finished h index out hd cluster get phase hst => exact .inr ⟨_, hst, fun _ => rfl⟩
  | replied => exact .inl rfl
  | processed i oversized cluster handlers hst => exact .inr ⟨_, hst, fun hturn => hturn⟩
  | crashed act i cluster hst => exact .inr ⟨_, hst, fun hturn => hturn⟩
  | ran act cluster hnot hst => exact .inr ⟨_, hst, fun hturn => hturn⟩
  | restored i cluster hst => exact .inr ⟨_, hst, fun hturn => hturn⟩
  | compacted i cluster hst => exact .inr ⟨_, hst, fun hturn => hturn⟩

theorem cluster_reachable {s : KVRaft n} (hs : (kvRaft n).Reachable InOrder s) :
    (kvCluster n).Reachable InTurn s.cluster := by
  have hinit : (kvCluster n).Reachable InTurn (kvRaft n).init.cluster := .refl
  refine System.Reachable.invariant (P := fun s => (kvCluster n).Reachable InTurn s.cluster)
    hinit ?_ hs
  intro s act s' _ ih hturn hst
  rcases (KVRaft.does_of_step hst).cluster with heq | ⟨kact, hstep, hin⟩
  · rw [heq]
    exact ih
  · exact ih.step (hin hturn) hstep

/-! ### Steps of the servers -/

namespace Carries

variable {c c' : KVCluster n} {t t' : Service (Fin n) Store Op Result} {a : Abs n Op}

/-- Nothing is lost when more commands are accepted or more snapshots are taken. -/
theorem mono (h : Carries c t) (hservers : t'.servers = t.servers)
    (hposition : t'.position = t.position) (hlog : t'.log = t.log)
    (hstarted : t.started ⊆ t'.started) (hsnapshots : t.snapshots ⊆ t'.snapshots) :
    Carries c t' where
  servers i := by
    rw [hservers, hposition]
    exact h.servers i
  logged := by
    rw [hlog]
    exact h.logged
  entries := h.entries.mono fun _ _ hmem => hstarted hmem
  snapshots := h.snapshots.mono fun _ hmem => hsnapshots hmem
  received i msg hmsg := by
    obtain ⟨hsent, hsn⟩ := h.received i msg hmsg
    exact ⟨hsent, fun sn term index heq => hsnapshots (hsn sn term index heq)⟩
  compacting i k hk := hsnapshots (h.compacting i k hk)

/-- A step of replica `i` and of the server it is at the level of the contract. -/
theorem set (h : Carries c t) {i : Fin n} {r : Replica}
    (hservers : ∀ j, j ≠ i → t'.servers j = t.servers j)
    (hposition : ∀ j, j ≠ i → t'.position j = t.position j) (hlog : t'.log = t.log)
    (hstarted : t'.started = t.started) (hsnapshots : t.snapshots ⊆ t'.snapshots)
    (hr : Presents c.raft r i (t'.servers i) (t'.position i))
    (hreceived : ∀ msg, r.loop = .received msg → (c.replicas i).loop = .received msg)
    (hcompacting : ∀ k, r.loop = .compacting k → (k, some r.kv.state) ∈ t'.snapshots) :
    Carries (c.setReplica i r) t' where
  servers j := by
    by_cases hj : j = i
    · subst hj
      simpa [KVCluster.setReplica] using hr
    · rw [hservers j hj, hposition j hj]
      simpa [KVCluster.setReplica, hj] using h.servers j
  logged := by
    rw [hlog]
    exact h.logged
  entries := by
    rw [hstarted]
    exact h.entries
  snapshots := h.snapshots.mono fun _ hmem => hsnapshots hmem
  received j msg hmsg := by
    have hold : (c.replicas j).loop = .received msg := by
      by_cases hj : j = i
      · subst hj
        exact hreceived msg (by simpa [KVCluster.setReplica] using hmsg)
      · simpa [KVCluster.setReplica, hj] using hmsg
    obtain ⟨hsent, hsn⟩ := h.received j msg hold
    exact ⟨hsent, fun sn term index heq => hsnapshots (hsn sn term index heq)⟩
  compacting j k hk := by
    by_cases hj : j = i
    · subst hj
      simp only [KVCluster.setReplica, Function.update_self] at hk ⊢
      exact hcompacting k hk
    · simp only [KVCluster.setReplica, Function.update_of_ne hj] at hk ⊢
      exact hsnapshots (h.compacting j k hk)

/-! Steps of Raft. -/

/-- A replica whose server does not crash stays what it is: it may be handed a message,
    and what Raft saves for it does not change before it has been read. -/
theorem presents_raft (href : Refines c.raft a) {act : Action n Op (Option Store)}
    (hst : c.step (.raft act) = some c') (hturn : InTurn c (.raft act)) {j : Fin n}
    (hcrash : c.raft.crashed? act ≠ some j) {sv : KVServer} {p : Nat}
    (h : Presents c.raft (c.replicas j) j sv p) : Presents c'.raft (c'.replicas j) j sv p := by
  obtain ⟨hraft, hnot, hreplicas⟩ := KVCluster.step_raft hst
  rcases hreplicas j with ⟨hother, heq⟩ | ⟨msg, -, hidle, heq⟩ | ⟨-, hcrashed, -⟩
  · rw [heq]
    by_cases hrunning : (c.replicas j).loop ≠ .starting
    · obtain ⟨rfl, rfl⟩ := h.eq_of_running hrunning
      exact .of_running hrunning
    · rw [not_not] at hrunning
      have hkept : (c'.raft.servers j).outlet.snapshot = (c.raft.servers j).outlet.snapshot ∧
          (c'.raft.servers j).outlet.base = (c.raft.servers j).outlet.base := by
        have hm := href.moves hraft j
        generalize (c'.raft.servers j).outlet = o at hm ⊢
        cases hm with
        | installed k caller args reply hpacket hterm hnew =>
          simp only [InTurn, inTurn, hpacket, hrunning, Bool.or_eq_true,
            decide_eq_true_eq] at hturn
          omega
        | compacted index data => exact absurd rfl (hnot j index data)
        | restarted _ hcrashed => exact absurd hcrashed hcrash
        | _ => exact ⟨rfl, rfl⟩
      obtain ⟨hsnapshot, hbase⟩ := hkept
      simp only [Server.outlet] at hsnapshot hbase
      constructor
      · rw [hsnapshot]
        exact h.server
      · rw [hbase]
        exact h.position
  · obtain ⟨rfl, rfl⟩ := h.eq_of_running (by simp [hidle])
    rw [heq]
    exact .of_running (by simp)
  · exact absurd hcrashed hcrash

/-- A replica whose server crashes will be what the saved snapshot says. -/
theorem presents_crashed (href : Refines c.raft a) {act : Action n Op (Option Store)}
    (hst : c.step (.raft act) = some c') {j : Fin n} (hcrash : c.raft.crashed? act = some j) :
    Presents c'.raft (c'.replicas j) j
      (KVServer.new.readSnapshot (c.raft.servers j).rf.persister.snapshot.data)
      (c.raft.servers j).rf.lastIncludedIndex := by
  obtain ⟨hraft, -, hreplicas⟩ := KVCluster.step_raft hst
  have hstart : c'.replicas j = Replica.start := by
    rcases hreplicas j with ⟨hother, -⟩ | ⟨msg, hhanded, -, -⟩ | ⟨-, -, heq⟩
    · exact absurd (.inl hcrash) hother
    · rw [Cluster.crashed?_of_handed? hhanded] at hcrash
      cases hcrash
    · exact heq
  have hkept : (c'.raft.servers j).outlet.snapshot = (c.raft.servers j).outlet.snapshot ∧
      (c'.raft.servers j).outlet.base = (c.raft.servers j).rf.lastIncludedIndex := by
    have hm := href.moves hraft j
    generalize (c'.raft.servers j).outlet = o at hm ⊢
    cases hm with
    | quiet _ hother => exact absurd (.inl hcrash) hother
    | restarted => exact ⟨rfl, rfl⟩
    | _ => cases hcrash
  obtain ⟨hsnapshot, hbase⟩ := hkept
  simp only [Server.outlet] at hsnapshot hbase
  rw [hstart]
  constructor
  · rw [hsnapshot]
    rfl
  · rw [← hbase]
    rfl

/-- A snapshot that is handed over was taken. -/
theorem handed (h : Carries c t) (href : Refines c.raft a)
    (hok : ∀ i, ReplicaOk a (c.raft.servers i).outlet (c.replicas i))
    {act : Action n Op (Option Store)} {i : Fin n} {sn : Snapshot Op (Option Store)}
    {term index : Nat} (hhanded : c.raft.handed? act = some (i, .snapshot sn term index)) :
    (index, sn.data) ∈ t.snapshots := by
  cases act with
  | sendCommand j =>
    obtain ⟨msg, hmsg, heq⟩ := Option.map_eq_some_iff.mp hhanded
    obtain ⟨rfl, rfl⟩ := Prod.mk.inj heq
    obtain ⟨op, k, hcommand, -⟩ := (hok j).command _ hmsg
    cases hcommand
  | sendSnapshot j k =>
    obtain ⟨w, hw, heq⟩ := Option.map_eq_some_iff.mp hhanded
    obtain ⟨rfl, hmsg⟩ := Prod.mk.inj heq
    have hmem := List.mem_of_getElem? hw
    obtain ⟨hcovers, -⟩ := (href.servers j).sends.waiting w hmem
    obtain ⟨sn', term', index', hmsg', hsn⟩ := h.snapshots.waiting j w hmem
    rw [hmsg] at hmsg' hcovers
    obtain ⟨rfl, rfl, rfl⟩ := ApplyMsg.snapshot.inj hmsg'
    rw [← hcovers.2.1]
    exact hsn
  | _ => cases hhanded

/-- What a step of Raft keeps, apart from the servers.  Only `Start` adds entries, and it
    must have been noted that the command was accepted. -/
theorem raft (h : Carries c t) (href : Refines c.raft a)
    (hok : ∀ i, ReplicaOk a (c.raft.servers i).outlet (c.replicas i))
    {act : Action n Op (Option Store)} (hst : c.step (.raft act) = some c')
    (hlog : t'.log = t.log) (hstarted : t.started ⊆ t'.started)
    (hsnapshots : t'.snapshots = t.snapshots)
    (hnew : ∀ j op, act = .start j op → (c.raft.servers j).rf.role = .leader →
      ((c.raft.servers j).rf.logical.length + 1, op) ∈ t'.started)
    (hservers : ∀ j, Presents c'.raft (c'.replicas j) j (t'.servers j) (t'.position j)) :
    Carries c' t' := by
  obtain ⟨hraft, hnot, hreplicas⟩ := KVCluster.step_raft hst
  have hemitted := Cluster.emitted_step hraft
  have hold : ∀ {m}, m ∈ c.raft.emitted → m ∈ c'.raft.emitted := by
    intro m hm
    rw [hemitted]
    exact List.mem_append_left _ hm
  constructor
  case servers => exact hservers
  case logged =>
    intro p op hop
    rw [hlog] at hop
    obtain ⟨i, hi⟩ := h.logged p op hop
    exact ⟨i, hold hi⟩
  case entries =>
    exact (h.entries.mono fun _ _ hmem => hstarted hmem).step href hraft hnew
  case snapshots =>
    rw [hsnapshots]
    exact h.snapshots.step href hraft fun i index data heq => absurd heq (hnot i index data)
  case received =>
    intro j msg hmsg
    rw [hsnapshots]
    rcases hreplicas j with ⟨-, heq⟩ | ⟨msg', hhanded, -, heq⟩ | ⟨-, -, heq⟩
    · rw [heq] at hmsg
      obtain ⟨hsent, hsn⟩ := h.received j msg hmsg
      exact ⟨hold hsent, hsn⟩
    · rw [heq] at hmsg
      obtain rfl := Loop.received.inj hmsg
      constructor
      · rw [hemitted, hhanded]
        simp
      · rintro sn term index rfl
        exact h.handed href hok hhanded
    · rw [heq] at hmsg
      cases hmsg
  case compacting =>
    intro j k hk
    rw [hsnapshots]
    rcases hreplicas j with ⟨-, heq⟩ | ⟨msg, -, -, heq⟩ | ⟨-, -, heq⟩
    · rw [heq] at hk ⊢
      exact h.compacting j k hk
    · rw [heq] at hk
      cases hk
    · rw [heq] at hk
      cases hk

/-! Steps of the loops. -/

/-- A command that was handed over stands at its index in the log of the service, or is
    not in the log yet. -/
theorem entry (h : Carries c t) (href : Refines c.raft a) {i : Fin n} {op : Op} {p : Nat}
    (hsent : (i, ApplyMsg.command op (p + 1)) ∈ c.raft.emitted) (hp : p < t.log.length) :
    t.log[p]? = some op := by
  have hget := List.getElem?_eq_getElem hp
  obtain ⟨j, hj⟩ := h.logged p _ hget
  rw [hget, href.command_unique hj hsent]

/-- The first loop that handles a command puts it into the log of the service. -/
theorem commit (h : Carries c t) {i : Fin n} {op : Op}
    (hsent : (i, ApplyMsg.command op (t.log.length + 1)) ∈ c.raft.emitted) :
    Carries c { t with log := t.log ++ [op] } :=
  { h with
    logged := by
      intro p op' hop
      rcases machine.entry_snoc hop with ⟨hop, -⟩ | ⟨rfl, rfl, -⟩
      · exact h.logged p op' hop
      · exact ⟨i, hsent⟩ }

/-- `Snapshot` saves what the replica had noted as taken. -/
theorem compact (h : Carries c t) (href : Refines c.raft a)
    {i : Fin n} (hst : c.step (.compact i) = some c') : Carries c' t := by
  simp only [KVCluster.step] at hst
  split at hst
  · rename_i k hloop
    simp only [Option.bind_eq_bind, Option.bind_eq_some_iff] at hst
    obtain ⟨raft, hraft, hst⟩ := hst
    obtain rfl := Option.some.inj hst
    have hemitted : raft.emitted = c.raft.emitted :=
      (Cluster.emitted_step hraft).trans (List.append_nil _)
    have hbase : ∀ j, (raft.servers j).base = (c.raft.servers j).base ∧
        (j ≠ i → (raft.servers j).rf.persister.snapshot =
          (c.raft.servers j).rf.persister.snapshot) := by
      intro j
      have hm := href.moves hraft j
      change (raft.servers j).outlet.base = _ ∧
        (j ≠ i → (raft.servers j).outlet.snapshot = _)
      generalize (raft.servers j).outlet = o at hm ⊢
      cases hm with
      | quiet => exact ⟨rfl, fun _ => rfl⟩
      | compacted => exact ⟨rfl, fun hne => absurd rfl hne⟩
      | restarted _ hcrash => cases hcrash
    constructor
    case servers =>
      intro j
      by_cases hj : j = i
      · subst hj
        obtain ⟨hsv, hp⟩ := (h.servers j).eq_of_running (by simp [hloop])
        simp only [Function.update_self]
        rw [hsv, hp]
        exact .of_running (by simp)
      · simp only [Function.update_of_ne hj]
        constructor
        · rw [(hbase j).2 hj]
          exact (h.servers j).server
        · rw [(hbase j).1]
          exact (h.servers j).position
    case logged =>
      dsimp only
      rw [hemitted]
      exact h.logged
    case entries => exact h.entries.step href hraft fun j op heq => by cases heq
    case snapshots =>
      refine h.snapshots.step href hraft ?_
      intro j index data heq hcommit
      obtain ⟨rfl, rfl, rfl⟩ := Action.snapshot.inj heq
      dsimp only
      rw [List.length_take, min_eq_left (hcommit.trans (href.commitIndex_le i))]
      exact h.compacting i k hloop
    case received =>
      intro j msg hmsg
      dsimp only at hmsg ⊢
      rw [hemitted]
      by_cases hj : j = i
      · subst hj
        simp at hmsg
      · rw [Function.update_of_ne hj] at hmsg
        exact h.received j msg hmsg
    case compacting =>
      intro j k' hk
      dsimp only at hk ⊢
      by_cases hj : j = i
      · subst hj
        simp at hk
      · rw [Function.update_of_ne hj] at hk ⊢
        exact h.compacting j k' hk
  · cases hst

/-- Reading the saved snapshot makes the replica what it was taken to be. -/
theorem restore (h : Carries c t)
    (hok : ∀ i, ReplicaOk a (c.raft.servers i).outlet (c.replicas i)) {i : Fin n}
    (hst : c.step (.restore i) = some c') : Carries c' t := by
  simp only [KVCluster.step] at hst
  split at hst
  · rename_i hstart
    obtain rfl := Option.some.inj hst
    have hbase : (c.raft.servers i).rf.lastIncludedIndex = (c.raft.servers i).base :=
      ((hok i).starting hstart).2.2
    have hserver := (h.servers i).server
    have hposition := (h.servers i).position
    simp only [Replica.ready, Replica.standing, hstart] at hserver hposition
    refine h.set (fun _ _ => rfl) (fun _ _ => rfl) rfl rfl (List.Subset.refl _) ?_ ?_ ?_
    · rw [hserver, hposition, ← hbase]
      exact .of_running (by simp)
    · intro msg hmsg
      cases hmsg
    · intro k hk
      cases hk
  · cases hst

/-- A request enters or removes a channel, before or after the snapshot is read. -/
theorem wait (h : Carries c t) (i : Fin n) (f : KVServer → KVServer)
    (hread : ∀ kv data, KVServer.readSnapshot (f kv) data = f (kv.readSnapshot data))
    (hstate : ∀ kv, (f kv).state = kv.state) (handlers : List (Handler (Fin n) Op Result)) :
    Carries (c.setReplica i { c.replicas i with kv := f (c.replicas i).kv })
      { t with
        servers := Function.update t.servers i (f (t.servers i))
        handlers := handlers } := by
  refine h.set (fun j hj => Function.update_of_ne hj _ _) (fun _ _ => rfl) rfl rfl
    (List.Subset.refl _) ?_ (fun msg hmsg => hmsg) ?_
  · dsimp only
    rw [Function.update_self]
    refine ⟨?_, (h.servers i).position⟩
    rw [(h.servers i).server]
    unfold Replica.ready
    cases (c.replicas i).loop with
    | starting => exact (hread _ _).symm
    | _ => rfl
  · intro k hk
    dsimp only
    rw [hstate]
    exact h.compacting i k hk

end Carries

/-- What the loop does with the message it has received. -/
theorem KVCluster.process_cases {r r' : Replica} {oversized : Bool}
    (hst : KVCluster.process r oversized = some r') :
    (r.loop ≠ .starting ∧ r.notice = none ∧ r' = { r with loop := .idle }) ∨
    (∃ op k, r.loop = .received (.command op k) ∧ ¬ k ≤ r.kv.lastApplied ∧
      r.notice = (r.kv.applyCommand op k).2 ∧
      r' = { kv := (r.kv.applyCommand op k).1
             loop := if oversized then .compacting k else .idle
             reached := max r.reached k }) ∨
    (∃ sn term k, r.loop = .received (.snapshot sn term k) ∧ ¬ k ≤ r.kv.lastApplied ∧
      r.notice = none ∧
      r' = { kv := r.kv.applySnapshot sn.data k, loop := .idle, reached := max r.reached k }) := by
  unfold KVCluster.process at hst
  split at hst
  · rename_i op k hloop
    split at hst
    · rename_i hold
      refine .inl ⟨by simp [hloop], ?_, (Option.some.inj hst).symm⟩
      simp [Replica.notice, hloop, KVServer.applyCommand, Server.applyCommand, hold]
    · rename_i hnew
      exact .inr (.inl ⟨op, k, hloop, hnew, by simp [Replica.notice, hloop],
        (Option.some.inj hst).symm⟩)
  · rename_i sn term k hloop
    have hnotice : r.notice = none := by simp [Replica.notice, hloop]
    split at hst
    · exact .inl ⟨by simp [hloop], hnotice, (Option.some.inj hst).symm⟩
    · rename_i hnew
      exact .inr (.inr ⟨sn, term, k, hloop, hnew, hnotice, (Option.some.inj hst).symm⟩)
  · cases hst

/-! ### Steps of the whole -/

section Reachable

variable {t : KVService (Fin n)} {service : Service (Fin n) Store Op Result}

theorem reachable_move (ht : (kvService (Fin n)).Reachable System.anyStep t) {m : Move (Fin n)}
    (hmove : t.service.move machine m = some service) :
    (kvService (Fin n)).Reachable System.anyStep { t with service := service } := by
  refine ht.step (a := .move m) trivial ?_
  simp [kvService, KVService.step, hmove]

theorem reachable_commit (ht : (kvService (Fin n)).Reachable System.anyStep t) {op : Op}
    (hop : (t.service.log.length + 1, op) ∈ t.service.started) :
    (kvService (Fin n)).Reachable System.anyStep
      { t with service := { t.service with log := t.service.log ++ [op] } } := by
  obtain ⟨k, hk⟩ := List.mem_iff_getElem?.mp hop
  refine ht.step (a := .commit k) trivial ?_
  simp [kvService, KVService.step, Service.commit, hk]

end Reachable

namespace Implements

variable {s s' : KVRaft n} {t : KVService (Fin n)} {a : Abs n Op}

/-- A command in the hands of a loop stands in the log of the service, at the latest when
    the loop handles it. -/
theorem exists_logged (h : Implements s t)
    (ht : (kvService (Fin n)).Reachable System.anyStep t) (href : Refines s.cluster.raft a)
    {i : Fin n} {op : Op}
    (hsent : (i, ApplyMsg.command op (t.service.position i + 1)) ∈ s.cluster.raft.emitted) :
    ∃ t', (kvService (Fin n)).Reachable System.anyStep t' ∧ Implements s t' ∧
      t'.service.position = t.service.position ∧
      t'.service.log[t.service.position i]? = some op := by
  have hle := ((ServiceInv.of_reachable ht).sound.servers i).le_length
  rcases Nat.lt_or_ge (t.service.position i) t.service.log.length with hlt | hge
  · exact ⟨t, ht, h, rfl, h.carries.entry href hsent hlt⟩
  · have hp : t.service.position i = t.service.log.length := Nat.le_antisymm hle hge
    rw [hp] at hsent
    refine ⟨_, reachable_commit ht (h.carries.entries.emitted href hsent),
      { h with carries := h.carries.commit hsent }, rfl, ?_⟩
    rw [hp]
    exact List.getElem?_concat_length

/-- The loop applies a command, and so does the service. -/
theorem process_command (h : Implements s t)
    (ht : (kvService (Fin n)).Reachable System.anyStep t) (href : Refines s.cluster.raft a)
    {i : Fin n} (hok : ReplicaOk a (s.cluster.raft.servers i).outlet (s.cluster.replicas i))
    {op : Op} {k : Nat} {oversized : Bool} {handlers : List (Handler (Fin n) Op Result)}
    (hloop : (s.cluster.replicas i).loop = .received (.command op k))
    (hnew : ¬ k ≤ (s.cluster.replicas i).kv.lastApplied)
    (hsend : Service.send s.handlers ((s.cluster.replicas i).kv.applyCommand op k).2 =
      some handlers) :
    ∃ t', (kvService (Fin n)).Reachable System.anyStep t' ∧
      Implements { s with
        cluster := s.cluster.setReplica i
          { kv := ((s.cluster.replicas i).kv.applyCommand op k).1
            loop := if oversized then .compacting k else .idle
            reached := max (s.cluster.replicas i).reached k }
        handlers := handlers } t' := by
  have hrunning : (s.cluster.replicas i).loop ≠ .starting := by simp [hloop]
  obtain ⟨-, hbase, -, hk⟩ := hok.received _ hloop
  dsimp only [ApplyMsg.index] at hbase hk
  -- nothing lies between the replica and the command
  obtain rfl : k = (s.cluster.replicas i).reached + 1 := by
    rcases hok.restored with heq | heq <;> omega
  obtain ⟨-, hp⟩ := (h.carries.servers i).eq_of_running hrunning
  obtain ⟨hsent, -⟩ := h.carries.received i _ hloop
  rw [← hp] at hsent
  obtain ⟨t, ht, h, hposition, hlogged⟩ := h.exists_logged ht href hsent
  rw [← hposition] at hlogged
  obtain ⟨hsv, hp⟩ := (h.carries.servers i).eq_of_running hrunning
  have hmove : t.service.move machine (.apply i oversized) = some
      { t.service with
        servers := Function.update t.service.servers i
          ((s.cluster.replicas i).kv.applyCommand op ((s.cluster.replicas i).reached + 1)).1
        position := Function.update t.service.position i ((s.cluster.replicas i).reached + 1)
        snapshots := if oversized then t.service.snapshots ++
            [((s.cluster.replicas i).reached + 1, some ((s.cluster.replicas i).kv.applyCommand op
              ((s.cluster.replicas i).reached + 1)).1.state)]
          else t.service.snapshots
        handlers := handlers } := by
    rw [KVServer.applyCommand, ← hp, ← hsv, ← h.handlers] at hsend
    simp only [Service.move, hlogged, Option.bind_eq_bind, Option.bind_some, hsend]
    rw [hsv, hp]
    rfl
  refine ⟨_, reachable_move ht hmove, h.clients, rfl, ?_⟩
  rw [max_eq_right (Nat.le_succ _)]
  refine h.carries.set (fun j hj => Function.update_of_ne hj _ _)
    (fun j hj => Function.update_of_ne hj _ _) rfl rfl ?_ ?_ ?_ ?_
  · dsimp only
    split
    · exact List.subset_append_left _ _
    · exact List.Subset.refl _
  · dsimp only
    rw [Function.update_self, Function.update_self]
    exact .of_running (by cases oversized <;> simp)
  · intro msg hmsg
    cases oversized <;> cases hmsg
  · intro k hk
    cases oversized with
    | false => cases hk
    | true =>
      obtain rfl := Loop.compacting.inj hk
      simp

/-- The loop restores a snapshot, and the service installs it. -/
theorem process_snapshot (h : Implements s t)
    (ht : (kvService (Fin n)).Reachable System.anyStep t) {i : Fin n}
    (hok : ReplicaOk a (s.cluster.raft.servers i).outlet (s.cluster.replicas i))
    {sn : Snapshot Op (Option Store)} {term k : Nat}
    (hloop : (s.cluster.replicas i).loop = .received (.snapshot sn term k))
    (hnew : ¬ k ≤ (s.cluster.replicas i).kv.lastApplied) :
    ∃ t', (kvService (Fin n)).Reachable System.anyStep t' ∧
      Implements { s with
        cluster := s.cluster.setReplica i
          { kv := (s.cluster.replicas i).kv.applySnapshot sn.data k
            loop := .idle
            reached := max (s.cluster.replicas i).reached k } } t' := by
  have hrunning : (s.cluster.replicas i).loop ≠ .starting := by simp [hloop]
  obtain ⟨-, hbase, -, -⟩ := hok.received _ hloop
  dsimp only [ApplyMsg.index] at hbase
  have hlt : (s.cluster.replicas i).reached < k := by
    rcases hok.restored with heq | heq <;> omega
  obtain ⟨hsv, hp⟩ := (h.carries.servers i).eq_of_running hrunning
  obtain ⟨m, hm⟩ := List.mem_iff_getElem?.mp ((h.carries.received i _ hloop).2 sn term k rfl)
  have hmove : t.service.move machine (.install i m) = some
      { t.service with
        servers := Function.update t.service.servers i
          ((s.cluster.replicas i).kv.applySnapshot sn.data k)
        position := Function.update t.service.position i k } := by
    simp only [Service.move, hm, Option.bind_eq_bind, Option.bind_some]
    rw [if_pos (hp ▸ hlt), hsv]
    rfl
  refine ⟨_, reachable_move ht hmove, h.clients, h.handlers, ?_⟩
  rw [max_eq_right hlt.le]
  refine h.carries.set (fun j hj => Function.update_of_ne hj _ _)
    (fun j hj => Function.update_of_ne hj _ _) rfl rfl (List.Subset.refl _) ?_ ?_ ?_
  · dsimp only
    rw [Function.update_self, Function.update_self]
    exact .of_running (by simp)
  · intro msg hmsg
    cases hmsg
  · intro k hk
    cases hk

/-- The loop handles its message: the service applies the entry, or installs the snapshot,
    or does nothing. -/
theorem process (h : Implements s t) (ht : (kvService (Fin n)).Reachable System.anyStep t)
    (href : Refines s.cluster.raft a)
    (hok : ∀ i, ReplicaOk a (s.cluster.raft.servers i).outlet (s.cluster.replicas i))
    {i : Fin n} {oversized : Bool} {cluster : KVCluster n}
    {handlers : List (Handler (Fin n) Op Result)}
    (hst : s.cluster.step (.process i oversized) = some cluster)
    (hsend : Service.send s.handlers (s.cluster.replicas i).notice = some handlers) :
    ∃ t', (kvService (Fin n)).Reachable System.anyStep t' ∧
      Implements { s with cluster := cluster, handlers := handlers } t' := by
  simp only [KVCluster.step, Option.bind_eq_bind, Option.bind_eq_some_iff,
    Option.some.injEq] at hst
  obtain ⟨r, hr, rfl⟩ := hst
  rcases KVCluster.process_cases hr with ⟨hrunning, hnotice, rfl⟩ |
    ⟨op, k, hloop, hnew, hnotice, rfl⟩ | ⟨sn, term, k, hloop, hnew, hnotice, rfl⟩
  · obtain ⟨hsv, hp⟩ := (h.carries.servers i).eq_of_running hrunning
    rw [hnotice] at hsend
    obtain rfl := Option.some.inj hsend
    refine ⟨t, ht, h.clients, h.handlers, ?_⟩
    refine h.carries.set (fun _ _ => rfl) (fun _ _ => rfl) rfl rfl (List.Subset.refl _) ?_ ?_ ?_
    · rw [hsv, hp]
      exact .of_running (by simp)
    · intro msg hmsg
      cases hmsg
    · intro k hk
      cases hk
  · exact h.process_command ht href (hok i) hloop hnew (hnotice ▸ hsend)
  · rw [hnotice] at hsend
    obtain rfl := Option.some.inj hsend
    exact h.process_snapshot ht (hok i) hloop hnew

/-- `waitFor` calls `Start`: the command is accepted at the end of the log of a leader, or
    refused. -/
theorem start (h : Implements s t) (ht : (kvService (Fin n)).Reachable System.anyStep t)
    (href : Refines s.cluster.raft a)
    (hok : ∀ i, ReplicaOk a (s.cluster.raft.servers i).outlet (s.cluster.replicas i))
    {k : Nat} {hd : Handler (Fin n) Op Result} {cluster : KVCluster n}
    (hget : s.handlers[k]? = some hd) (hphase : hd.phase = .entered)
    (hst : s.cluster.step (.raft (.start hd.server hd.op)) = some cluster) :
    ∃ t', (kvService (Fin n)).Reachable System.anyStep t' ∧
      Implements { s with
        cluster := cluster
        handlers := s.handlers.set k { hd with
          phase := afterStart ((s.cluster.raft.servers hd.server).rf.start hd.op).2.1 } } t' := by
  have hservers : ∀ j, Presents cluster.raft (cluster.replicas j) j (t.service.servers j)
      (t.service.position j) := fun j =>
    Carries.presents_raft href hst rfl (fun hcrash => by cases hcrash) (h.carries.servers j)
  rw [← h.handlers] at hget
  by_cases hrole : (s.cluster.raft.servers hd.server).rf.role = .leader
  · have hindex := (href.servers hd.server).wf.start_index hrole hd.op
    have hmove : t.service.move machine
        (.start k ((s.cluster.raft.servers hd.server).rf.logical.length + 1)) = some
        { t.service with
          handlers := t.service.handlers.set k { hd with
            phase := .proposed ((s.cluster.raft.servers hd.server).rf.logical.length + 1) }
          started := t.service.started ++
            [((s.cluster.raft.servers hd.server).rf.logical.length + 1, hd.op)] } := by
      simp only [Service.move, hget, Option.bind_eq_bind, Option.bind_some, hphase]
    refine ⟨_, reachable_move ht hmove, h.clients, ?_, ?_⟩
    · dsimp only
      rw [hindex, h.handlers]
      rfl
    · refine h.carries.raft href hok hst rfl (List.subset_append_left _ _) rfl ?_ hservers
      intro j op heq _
      obtain ⟨rfl, rfl⟩ := Action.start.inj heq
      simp
  · have hindex : ((s.cluster.raft.servers hd.server).rf.start hd.op).2.1 = none := by
      simp [Raft.start, hrole]
    have hmove : t.service.move machine (.refuse k) = some
        { t.service with
          handlers := t.service.handlers.set k { hd with phase := .returned .notLeader } } := by
      simp only [Service.move, hget, Option.bind_eq_bind, Option.bind_some, hphase]
    refine ⟨_, reachable_move ht hmove, h.clients, ?_, ?_⟩
    · dsimp only
      rw [hindex, h.handlers]
      rfl
    · refine h.carries.raft href hok hst rfl (List.Subset.refl _) rfl ?_ hservers
      intro j op heq hleader
      obtain ⟨rfl, rfl⟩ := Action.start.inj heq
      exact absurd hleader hrole

/-- A server that crashes is started again from the snapshot it has saved. -/
theorem crash (h : Implements s t) (ht : (kvService (Fin n)).Reachable System.anyStep t)
    (href : Refines s.cluster.raft a)
    (hok : ∀ i, ReplicaOk a (s.cluster.raft.servers i).outlet (s.cluster.replicas i))
    {act : Action n Op (Option Store)} {i : Fin n} {cluster : KVCluster n}
    (hturn : InTurn s.cluster (.raft act)) (hst : s.cluster.step (.raft act) = some cluster)
    (hcrash : s.cluster.raft.crashed? act = some i) :
    ∃ t', (kvService (Fin n)).Reachable System.anyStep t' ∧
      Implements
        { s with cluster := cluster, handlers := s.handlers.map (Service.stop i) } t' := by
  have hsaved := h.carries.snapshots.saved i
  rw [(href.servers i).wf.covers_length] at hsaved
  obtain ⟨m, hm⟩ := List.mem_iff_getElem?.mp hsaved
  have hmove : t.service.move machine (.restart i m) = some
      { t.service with
        servers := Function.update t.service.servers i (KVServer.new.readSnapshot
          (s.cluster.raft.servers i).rf.persister.snapshot.data)
        position := Function.update t.service.position i
          (s.cluster.raft.servers i).rf.lastIncludedIndex
        handlers := s.handlers.map (Service.stop i) } := by
    rw [← h.handlers]
    simp only [Service.move, hm, Option.bind_eq_bind, Option.bind_some]
    rfl
  refine ⟨_, reachable_move ht hmove, h.clients, rfl, ?_⟩
  refine h.carries.raft href hok hst rfl (List.Subset.refl _) rfl ?_ ?_
  · rintro j op rfl
    cases hcrash
  · intro j
    by_cases hj : j = i
    · subst hj
      dsimp only
      rw [Function.update_self, Function.update_self]
      exact Carries.presents_crashed href hst hcrash
    · dsimp only
      rw [Function.update_of_ne hj, Function.update_of_ne hj]
      refine Carries.presents_raft href hst hturn ?_ (h.carries.servers j)
      rw [hcrash]
      exact fun heq => hj (Option.some.inj heq).symm

/-- Every step of the whole is matched by steps of the service. -/
theorem step (h : Implements s t) (hs : (kvRaft n).Reachable InOrder s)
    (ht : (kvService (Fin n)).Reachable System.anyStep t) {act : KVRaftAction n}
    (hturn : InOrder s act) (hst : s.step act = some s') :
    ∃ t', (kvService (Fin n)).Reachable System.anyStep t' ∧ Implements s' t' := by
  obtain ⟨a, href, -, hok⟩ := KVInv.of_reachable (cluster_reachable hs)
  cases KVRaft.does_of_step hst with
  | invoked c q clients hinvoke =>
    obtain ⟨clients', hinvoke', hsame⟩ := h.clients.invoke hinvoke
      (effects t.service.log).length
    refine ⟨{ t with clients := clients' }, ht.step (a := .invoke c q) trivial ?_,
      hsame, h.handlers, h.carries⟩
    simp [kvService, KVService.step, hinvoke']
  | entered i k stamp c seq q hk =>
    obtain ⟨stamp', hk'⟩ := h.clients.event hk
    refine ⟨{ t with service := t.service.enter i (Op.request c seq q) },
      ht.step (a := .enter i k) trivial ?_, h.clients, ?_,
      h.carries.mono rfl rfl rfl (List.Subset.refl _) (List.Subset.refl _)⟩
    · simp only [kvService, KVService.step, hk']
    · simp only [Service.enter, h.handlers]
  | started k hd cluster hget hphase hcluster => exact h.start ht href hok hget hphase hcluster
  | registered k index hd cluster hget hphase hcluster =>
    obtain rfl := Option.some.inj hcluster
    have hmove : t.service.move machine (.register k) = some
        { t.service with
          handlers := s.handlers.set k { hd with phase := .waiting index }
          servers := Function.update t.service.servers hd.server
            ((t.service.servers hd.server).addWaiter index k) } := by
      simp only [Service.move, h.handlers, hget, Option.bind_eq_bind, Option.bind_some, hphase]
    refine ⟨_, reachable_move ht hmove, h.clients, rfl, ?_⟩
    exact h.carries.wait hd.server (fun kv => kv.addWaiter index k)
      (fun kv data => by cases data <;> rfl) (fun _ => rfl) _
  | received k index hd r hget hphase hinbox =>
    have hmove : t.service.move machine (.receive k) = some
        { t.service with
          handlers := s.handlers.set k
            { hd with phase := .leaving index (.result r), inbox := none } } := by
      simp only [Service.move, h.handlers, hget, Option.bind_eq_bind, Option.bind_some, hphase,
        hinbox]
    exact ⟨_, reachable_move ht hmove, h.clients, rfl,
      h.carries.mono rfl rfl rfl (List.Subset.refl _) (List.Subset.refl _)⟩
  | expired k index hd hget hphase =>
    have hmove : t.service.move machine (.expire k) = some
        { t.service with
          handlers := s.handlers.set k { hd with phase := .leaving index .timeout } } := by
      simp only [Service.move, h.handlers, hget, Option.bind_eq_bind, Option.bind_some, hphase]
    exact ⟨_, reachable_move ht hmove, h.clients, rfl,
      h.carries.mono rfl rfl rfl (List.Subset.refl _) (List.Subset.refl _)⟩
  | finished k index out hd cluster hget hphase hcluster =>
    obtain rfl := Option.some.inj hcluster
    have hmove : t.service.move machine (.finish k) = some
        { t.service with
          handlers := s.handlers.set k { hd with phase := .returned out }
          servers := Function.update t.service.servers hd.server
            ((t.service.servers hd.server).deleteWaiter index) } := by
      simp only [Service.move, h.handlers, hget, Option.bind_eq_bind, Option.bind_some, hphase]
    refine ⟨_, reachable_move ht hmove, h.clients, rfl, ?_⟩
    exact h.carries.wait hd.server (fun kv => kv.deleteWaiter index)
      (fun kv data => by cases data <;> rfl) (fun _ => rfl) _
  | replied k out hd clients hget hphase haccepts hrespond =>
    obtain ⟨clients', hrespond', hsame⟩ := h.clients.respond hrespond
      (effects t.service.log).length
    refine ⟨{ t with clients := clients' }, ht.step (a := .reply k) trivial ?_,
      hsame, h.handlers, h.carries⟩
    simp only [kvService, KVService.step, h.handlers, hget, Option.bind_eq_bind,
      Option.bind_some, hphase, haccepts, if_true, hrespond']
  | processed i oversized cluster handlers hcluster hsend =>
    exact h.process ht href hok hcluster hsend
  | crashed act i cluster hcluster hcrash => exact h.crash ht href hok hturn hcluster hcrash
  | ran act cluster hnot hcluster hcrash =>
    refine ⟨t, ht, h.clients, h.handlers, ?_⟩
    refine h.carries.raft href hok hcluster rfl (List.Subset.refl _) rfl ?_ ?_
    · exact fun j op heq => absurd heq (hnot j op)
    · intro j
      refine Carries.presents_raft href hcluster hturn ?_ (h.carries.servers j)
      rw [hcrash]
      exact fun heq => by cases heq
  | restored i cluster hcluster =>
    exact ⟨t, ht, h.clients, h.handlers, h.carries.restore hok hcluster⟩
  | compacted i cluster hcluster =>
    exact ⟨t, ht, h.clients, h.handlers, h.carries.compact href hcluster⟩

/-- All servers have just been started, with nothing saved. -/
theorem initial : Implements (kvRaft n).init (kvService (Fin n)).init where
  clients := ⟨rfl, rfl⟩
  handlers := rfl
  carries :=
    { servers := fun i => ⟨rfl, rfl⟩
      logged := by
        intro p op hop
        cases hop
      entries := .initial
      snapshots :=
        { saved := fun i => List.mem_singleton.mpr rfl
          posted := by
            intro caller callee args hp
            cases hp
          waiting := by
            intro i w hw
            cases hw }
      received := by
        intro i msg hmsg
        cases hmsg
      compacting := by
        intro i k hk
        cases hk }

end Implements

/-- Every run of the whole in which no command overtakes a snapshot is a run of the service
    on top of an agreed log. -/
theorem exists_implements {s : KVRaft n} (hs : (kvRaft n).Reachable InOrder s) :
    ∃ t, (kvService (Fin n)).Reachable System.anyStep t ∧ Implements s t := by
  refine hs.invariant (P := fun s => ∃ t, (kvService (Fin n)).Reachable System.anyStep t ∧
    Implements s t) ⟨_, Relation.ReflTransGen.refl, .initial⟩ ?_
  intro s act s' hreach ih hturn hst
  obtain ⟨t, ht, h⟩ := ih
  exact h.step hreach ht hturn hst

end RaftLabs.KV
