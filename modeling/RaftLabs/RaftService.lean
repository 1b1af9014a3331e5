import RaftLabs.RaftEntries
import RaftLabs.RaftDelivery
import RaftLabs.ReplicatedService

/-!
# A service that never compacts, on top of Raft

Servers that apply what Raft hands them to a deterministic state machine, and the
requests that wait for their command.  None of the servers calls `Snapshot`, so Raft
has no snapshots to send, every server is handed the log from the first entry on,
and each entry in turn.  Every run is therefore one of the service on top of the
contract, with nothing assumed of the order of messages.
-/

namespace RaftLabs.ReplicatedService

variable {n : Nat} {S O R D : Type}

/-! ### The composed system -/

structure RaftService (n : Nat) (S O R D : Type) where
  raft : Cluster n O D
  servers : Fin n → Server S
  /-- The message that the loop of a server has received and not handled. -/
  received : Fin n → Option (ApplyMsg O D)
  handlers : List (Handler (Fin n) O R)

inductive RaftServiceAction (n : Nat) (O D : Type) where
  /-- Handler `h` calls `Start`. -/
  | start (h : Nat)
  | register (h : Nat)
  | receive (h : Nat)
  | expire (h : Nat)
  | finish (h : Nat)
  /-- The loop of server `i` handles the message it has received. -/
  | process (i : Fin n)
  /-- A step of Raft, which may hand over a message or crash a server. -/
  | raft (act : Action n O D)

namespace RaftService

def enter (s : RaftService n S O R D) (i : Fin n) (op : O) : RaftService n S O R D :=
  { s with handlers := s.handlers ++ [{ server := i, op := op, phase := .entered, inbox := none }] }

/-- Where a handler is after `Start` has returned. -/
def afterStart : Option Nat → Phase R
  | some index => .proposed index
  | none => .returned .notLeader

/-- Server `i` has crashed and is started again, with nothing but the log of Raft. -/
def crash (M : Machine S O R) (s : RaftService n S O R D) (raft : Cluster n O D) (i : Fin n) :
    RaftService n S O R D where
  raft := raft
  servers := Function.update s.servers i (Server.new M)
  received := Function.update s.received i none
  handlers := s.handlers.map (Service.stop i)

variable [Inhabited O]

def stepRaft (M : Machine S O R) (s : RaftService n S O R D) :
    Action n O D → Option (RaftService n S O R D)
  | .start _ _ => none
  | .snapshot _ _ _ => none
  | act => do
    let raft ← s.raft.step act
    match s.raft.handed? act, s.raft.crashed? act with
    | some (i, msg), _ =>
      match s.received i with
      | none => some { s with
          raft := raft
          received := Function.update s.received i (some msg) }
      | some _ => none
    | none, some i => some (s.crash M raft i)
    | none, none => some { s with raft := raft }

def step (M : Machine S O R) (s : RaftService n S O R D) :
    RaftServiceAction n O D → Option (RaftService n S O R D)
  | .start h => do
    let hd ← s.handlers[h]?
    match hd.phase with
    | .entered => do
      let raft ← s.raft.step (.start hd.server hd.op)
      let index := ((s.raft.servers hd.server).rf.start hd.op).2.1
      some { s with
        raft := raft
        handlers := s.handlers.set h { hd with phase := afterStart index } }
    | _ => none
  | .register h => do
    let hd ← s.handlers[h]?
    match hd.phase with
    | .proposed index => some { s with
        handlers := s.handlers.set h { hd with phase := .waiting index }
        servers := Function.update s.servers hd.server
          ((s.servers hd.server).addWaiter index h) }
    | _ => none
  | .receive h => do
    let hd ← s.handlers[h]?
    match hd.phase, hd.inbox with
    | .waiting index, some r => some { s with
        handlers := s.handlers.set h
          { hd with phase := .leaving index (.result r), inbox := none } }
    | _, _ => none
  | .expire h => do
    let hd ← s.handlers[h]?
    match hd.phase with
    | .waiting index => some { s with
        handlers := s.handlers.set h { hd with phase := .leaving index .timeout } }
    | _ => none
  | .finish h => do
    let hd ← s.handlers[h]?
    match hd.phase with
    | .leaving index out => some { s with
        handlers := s.handlers.set h { hd with phase := .returned out }
        servers := Function.update s.servers hd.server
          ((s.servers hd.server).deleteWaiter index) }
    | _ => none
  | .process i =>
    match s.received i with
    | some (.command op commandIndex) => do
      let (sv, out) := (s.servers i).applyCommand M op commandIndex
      let handlers ← Service.send s.handlers out
      some { s with
        servers := Function.update s.servers i sv
        received := Function.update s.received i none
        handlers := handlers }
    -- the loop goes on to the next message
    | some (.snapshot _ _ _) => some { s with received := Function.update s.received i none }
    | none => none
  | .raft act => s.stepRaft M act

/-- The move of the service on top of the contract that an action amounts to, if to any. -/
def move? (s : RaftService n S O R D) : RaftServiceAction n O D → Option (Move (Fin n))
  | .start h => s.handlers[h]?.map fun hd =>
    match ((s.raft.servers hd.server).rf.start hd.op).2.1 with
    | some index => .start h index
    | none => .refuse h
  | .register h => some (.register h)
  | .receive h => some (.receive h)
  | .expire h => some (.expire h)
  | .finish h => some (.finish h)
  | .process i => some (.apply i false)
  | .raft act => (s.raft.crashed? act).map fun i => .restart i 0

/-- All servers have just been started. -/
def init (M : Machine S O R) [Inhabited D] : RaftService n S O R D where
  raft := (cluster n O D).init
  servers _ := Server.new M
  received _ := none
  handlers := []

end RaftService

/-! ### Delivery without snapshots -/

/-- A server that has applied up to `applied` and holds `received` is to be handed the
    commands up to what Raft counts as applied, one after the other. -/
structure Delivers (o : Outlet n O D) (applied : Nat) (received : Option (ApplyMsg O D)) :
    Prop where
  included : o.lastIncludedIndex = 0
  snapshots : o.snapshotSends = []
  queue : position applied (received.toList ++ o.applierSend.toList) = some o.lastApplied
  commands : ∀ msg ∈ received.toList ++ o.applierSend.toList, ∃ op k, msg = .command op k

namespace Delivers

variable {o : Outlet n O D} {applied : Nat} {received : Option (ApplyMsg O D)}

/-- The message in hand is the next command. -/
theorem next {msg : ApplyMsg O D} (h : Delivers o applied (some msg)) :
    ∃ op, msg = .command op (applied + 1) := by
  obtain ⟨op, k, rfl⟩ := h.commands msg (by simp)
  have hqueue := h.queue
  simp only [Option.toList_some, List.singleton_append, position_cons,
    Option.bind_eq_some_iff] at hqueue
  obtain ⟨p, hadvance, -⟩ := hqueue
  simp only [advance, Option.ite_none_right_eq_some] at hadvance
  exact ⟨op, by rw [hadvance.1]⟩

theorem processed {op : O} (h : Delivers o applied (some (.command op (applied + 1)))) :
    Delivers o (applied + 1) none where
  included := h.included
  snapshots := h.snapshots
  queue := by
    have hqueue := h.queue
    rw [Option.toList_some, List.singleton_append, position_cons] at hqueue
    simpa [advance] using hqueue
  commands msg hmsg := h.commands msg (by simp at hmsg ⊢; exact .inr hmsg)

/-- The applier takes the next entry. -/
theorem applied_next (h : Delivers o applied received) (hfree : o.applierSend = none) (op : O) :
    Delivers
      { o with
        lastApplied := o.lastApplied + 1
        applierSend := some (.command op (o.lastApplied + 1)) } applied received where
  included := h.included
  snapshots := h.snapshots
  queue := by
    have hqueue := h.queue
    rw [hfree, Option.toList_none, List.append_nil] at hqueue
    rw [position_append, hqueue]
    simp [position, advance]
  commands msg hmsg := by
    rcases List.mem_append.mp hmsg with hmsg | hmsg
    · exact h.commands msg (List.mem_append_left _ hmsg)
    · exact ⟨op, _, List.mem_singleton.mp hmsg⟩

/-- The loop takes what the applier sends. -/
theorem handed {msg : ApplyMsg O D} (h : Delivers o applied none)
    (hmsg : o.applierSend = some msg) :
    Delivers { o with applierSend := none, sent := o.sent ++ [msg] } applied (some msg) where
  included := h.included
  snapshots := h.snapshots
  queue := by
    have hqueue := h.queue
    rw [hmsg] at hqueue
    exact hqueue
  commands m hm := h.commands m (by rw [hmsg]; exact hm)

/-- A server that was just started begins with the first entry. -/
theorem start (h : Delivers o applied received) :
    Delivers
      ({ o with
        lastApplied := o.lastIncludedIndex
        applierSend := none
        snapshotSends := []
        base := o.lastIncludedIndex
        sent := [] } : Outlet n O D) 0 none where
  included := h.included
  snapshots := rfl
  queue := congrArg some h.included.symm
  commands msg hmsg := by cases hmsg

end Delivers

/-! ### The simulation -/

variable [Inhabited O]

/-- The service on top of the contract that the servers on top of Raft are.  Its log
    consists of commands that have been handed to loops. -/
structure Grounds (M : Machine S O R) (s : RaftService n S O R D) (t : Service (Fin n) S O R) :
    Prop where
  refines : ∃ a, Refines s.raft a
  plain : SnapshotsHave (fun sn => sn.covers = []) s.raft
  entries : EntriesHave (fun index op => (index, op) ∈ t.started) s.raft
  delivers : ∀ i, Delivers (s.raft.servers i).outlet (s.servers i).lastApplied (s.received i)
  received : ∀ i msg, s.received i = some msg → (i, msg) ∈ s.raft.emitted
  servers : t.servers = s.servers
  position : ∀ i, t.position i = (s.servers i).lastApplied
  handlers : t.handlers = s.handlers
  logged : ∀ (p : Nat) op, t.log[p]? = some op →
    ∃ i, (i, ApplyMsg.command op (p + 1)) ∈ s.raft.emitted
  le_length : ∀ i, t.position i ≤ t.log.length
  snapshots : t.snapshots = [(0, none)]

namespace Grounds

variable {M : Machine S O R} {s s' : RaftService n S O R D} {t : Service (Fin n) S O R}

theorem initial [Inhabited D] :
    Grounds M (RaftService.init M : RaftService n S O R D) (.start M) where
  refines := ⟨_, Refines.initial⟩
  plain :=
    { saved := fun _ => rfl
      posted := by
        intro caller callee args hp
        cases hp
      waiting := by
        intro i w hw
        cases hw }
  entries := .initial
  delivers i :=
    { included := rfl
      snapshots := rfl
      queue := rfl
      commands := by
        intro msg hmsg
        cases hmsg }
  received i msg hmsg := by cases hmsg
  servers := rfl
  position _ := rfl
  handlers := rfl
  logged p op hop := by cases hop
  le_length _ := Nat.le_refl _
  snapshots := rfl

theorem enter (h : Grounds M s t) (i : Fin n) (op : O) :
    Grounds M (s.enter i op) (t.enter i op) :=
  { h with
    handlers := by
      rw [RaftService.enter, Service.enter]
      dsimp only
      rw [h.handlers] }

/-- Only the handlers and the channels change. -/
theorem wait (h : Grounds M s t) {servers : Fin n → Server S}
    (happlied : ∀ i, (servers i).lastApplied = (s.servers i).lastApplied)
    (handlers : List (Handler (Fin n) O R)) :
    Grounds M { s with servers := servers, handlers := handlers }
      { t with servers := servers, handlers := handlers } :=
  { h with
    delivers := fun i => by
      dsimp only
      rw [happlied i]
      exact h.delivers i
    servers := rfl
    position := fun i => (h.position i).trans (happlied i).symm
    handlers := rfl }

/-- What a step of Raft does to the delivery of server `j`. -/
theorem delivers_raft (h : Grounds M s t) {act : Action n O D} {raft : Cluster n O D}
    (hst : s.raft.step act = some raft) (hnot : ∀ i index data, act ≠ .snapshot i index data)
    (j : Fin n) :
    (¬ s.raft.concerns act j → Delivers (raft.servers j).outlet (s.servers j).lastApplied
      (s.received j)) ∧
    (∀ msg, s.raft.handed? act = some (j, msg) → s.received j = none →
      Delivers (raft.servers j).outlet (s.servers j).lastApplied (some msg)) ∧
    (s.raft.crashed? act = some j → Delivers (raft.servers j).outlet 0 none) := by
  obtain ⟨a, href⟩ := h.refines
  have hd := h.delivers j
  have hm := href.moves hst j
  generalize (raft.servers j).outlet = o at hm ⊢
  cases hm with
  | quiet _ hother =>
    refine ⟨fun _ => hd, fun msg hmsg => ?_, fun hcrash => ?_⟩
    · exact absurd (.inr ⟨msg, hmsg⟩) hother
    · exact absurd (.inl hcrash) hother
  | applied e hfree hlt he =>
    refine ⟨fun _ => hd.applied_next hfree e.command, fun msg hmsg => ?_, fun hcrash => ?_⟩
    · cases hmsg
    · cases hcrash
  | installed k caller args reply hpacket hterm hnew =>
    -- the snapshot on the wire is that of a server that has compacted nothing
    have hmem := List.mem_of_getElem? hpacket
    have hlen : args.data.covers.length = args.lastIncludedIndex := (href.packets _ hmem).2.1
    rw [h.plain.posted caller j args hmem, List.length_nil] at hlen
    omega
  | sentCommand msg hmsg =>
    have hhanded : s.raft.handed? (.sendCommand j) = some (j, msg) := by
      simp [Cluster.handed?, hmsg]
    refine ⟨fun hother => absurd (.inr ⟨msg, hhanded⟩) hother, fun msg' hmsg' hnone => ?_,
      fun hcrash => ?_⟩
    · rw [hhanded] at hmsg'
      obtain ⟨-, rfl⟩ := Prod.mk.inj (Option.some.inj hmsg')
      rw [hnone] at hd
      exact hd.handed hmsg
    · cases hcrash
  | sentSnapshot k waiting hwaiting =>
    have hnil : (s.raft.servers j).snapshotSends = [] := hd.snapshots
    rw [hnil] at hwaiting
    cases hwaiting
  | compacted index data => exact absurd rfl (hnot j index data)
  | restarted _ hcrash =>
    refine ⟨fun hother => absurd (.inl hcrash) hother, fun msg hmsg => ?_, fun _ => hd.start⟩
    rw [Cluster.crashed?_of_handed? hmsg] at hcrash
    cases hcrash

/-- What a step of Raft keeps, given the commands that are accepted. -/
theorem raft (h : Grounds M s t) {act : Action n O D} {raft : Cluster n O D}
    (hst : s.raft.step act = some raft) (hnot : ∀ i index data, act ≠ .snapshot i index data)
    {started : List (Nat × O)} (hstarted : t.started ⊆ started)
    (hnew : ∀ j op, act = .start j op → (s.raft.servers j).rf.role = .leader →
      ((s.raft.servers j).rf.logical.length + 1, op) ∈ started) :
    (∃ a, Refines raft a) ∧ SnapshotsHave (fun sn => sn.covers = []) raft ∧
      EntriesHave (fun index op => (index, op) ∈ started) raft ∧
      s.raft.emitted ⊆ raft.emitted := by
  obtain ⟨a, href⟩ := h.refines
  obtain ⟨a', -, href'⟩ := href.step hst
  refine ⟨⟨a', href'⟩, ?_, ?_, ?_⟩
  · exact h.plain.step href hst fun i index data heq => absurd heq (hnot i index data)
  · exact (h.entries.mono fun _ _ hmem => hstarted hmem).step href hst hnew
  · rw [Cluster.emitted_step hst]
    exact List.subset_append_left _ _

/-- A command in the hands of a loop stands in the log of the service, at the latest when
    the loop handles it. -/
theorem exists_logged (h : Grounds M s t) {i : Fin n} {op : O}
    (hsent : (i, ApplyMsg.command op (t.position i + 1)) ∈ s.raft.emitted) :
    ∃ t', (t' = t ∨ ∃ k, t.commit k = some t') ∧ Grounds M s t' ∧
      t'.log[t'.position i]? = some op := by
  obtain ⟨a, href⟩ := h.refines
  rcases Nat.lt_or_ge (t.position i) t.log.length with hlt | hge
  · have hget := List.getElem?_eq_getElem hlt
    obtain ⟨j, hj⟩ := h.logged _ _ hget
    refine ⟨t, .inl rfl, h, ?_⟩
    rw [hget, href.command_unique hj hsent]
  · have hp : t.position i = t.log.length := Nat.le_antisymm (h.le_length i) hge
    rw [hp] at hsent
    obtain ⟨k, hk⟩ := List.mem_iff_getElem?.mp (h.entries.emitted href hsent)
    refine ⟨{ t with log := t.log ++ [op] }, .inr ⟨k, by simp [Service.commit, hk]⟩, ?_, ?_⟩
    · exact { h with
        logged := by
          intro p op' hop
          rcases M.entry_snoc hop with ⟨hop, -⟩ | ⟨rfl, rfl, -⟩
          · exact h.logged p op' hop
          · exact ⟨i, hsent⟩
        le_length := fun j => by
          rw [List.length_append]
          exact Nat.le_add_right_of_le (h.le_length j) }
    · dsimp only
      rw [hp]
      exact List.getElem?_concat_length

/-- `Start` changes nothing but the log of the server it is called on. -/
theorem start (h : Grounds M s t) {i : Fin n} {op : O} {raft : Cluster n O D}
    (hraft : s.raft.step (.start i op) = some raft) {started : List (Nat × O)}
    (hstarted : t.started ⊆ started)
    (hnew : (s.raft.servers i).rf.role = .leader →
      ((s.raft.servers i).rf.logical.length + 1, op) ∈ started)
    (handlers : List (Handler (Fin n) O R)) :
    Grounds M { s with raft := raft, handlers := handlers }
      { t with handlers := handlers, started := started } := by
  have hnot : ∀ j index data, Action.start i op ≠ (.snapshot j index data : Action n O D) := by
    intro j index data heq
    cases heq
  obtain ⟨hrefines, hplain, hentries, hemitted⟩ := h.raft hraft hnot hstarted (by
    intro j op' heq hrole
    obtain ⟨rfl, rfl⟩ := Action.start.inj heq
    exact hnew hrole)
  exact
    { refines := hrefines
      plain := hplain
      entries := hentries
      delivers := fun j => (h.delivers_raft hraft hnot j).1 (not_concerns rfl rfl j)
      received := fun j msg hmsg => hemitted (h.received j msg hmsg)
      servers := h.servers
      position := h.position
      handlers := rfl
      logged := fun p op' hop => (h.logged p op' hop).imp fun _ hj => hemitted hj
      le_length := h.le_length
      snapshots := h.snapshots }

theorem step_start (h : Grounds M s t) {k : Nat} (hst : s.step M (.start k) = some s') :
    ∃ m t', s.move? (.start k) = some m ∧ t.move M m = some t' ∧ Grounds M s' t' := by
  simp only [RaftService.step, Option.bind_eq_bind, Option.bind_eq_some_iff] at hst
  obtain ⟨hd, hget, hst⟩ := hst
  split at hst
  · rename_i hphase
    simp only [Option.bind_eq_some_iff, Option.some.injEq] at hst
    obtain ⟨raft, hraft, rfl⟩ := hst
    obtain ⟨a, href⟩ := h.refines
    by_cases hrole : (s.raft.servers hd.server).rf.role = .leader
    · have hindex := (href.servers hd.server).wf.start_index hrole hd.op
      refine ⟨.start k ((s.raft.servers hd.server).rf.logical.length + 1), _, ?_, ?_,
        h.start hraft (List.subset_append_left _
          [((s.raft.servers hd.server).rf.logical.length + 1, hd.op)]) (fun _ => by simp) _⟩
      · simp [RaftService.move?, hget, hindex]
      · simp only [Service.move, h.handlers, hget, Option.bind_eq_bind, Option.bind_some, hphase,
          hindex, RaftService.afterStart]
    · have hindex : ((s.raft.servers hd.server).rf.start hd.op).2.1 = none := by
        simp [Raft.start, hrole]
      refine ⟨.refuse k, _, ?_, ?_,
        h.start hraft (List.Subset.refl t.started) (fun hleader => absurd hleader hrole) _⟩
      · simp [RaftService.move?, hget, hindex]
      · simp only [Service.move, h.handlers, hget, Option.bind_eq_bind, Option.bind_some, hphase,
          hindex, RaftService.afterStart]
  · cases hst

/-- The loop applies the next command of the log. -/
theorem step_process (h : Grounds M s t) {i : Fin n} (hst : s.step M (.process i) = some s') :
    ∃ t₁ t', (t₁ = t ∨ ∃ k, t.commit k = some t₁) ∧ t₁.move M (.apply i false) = some t' ∧
      Grounds M s' t' := by
  cases hmsg : s.received i with
  | none => simp [RaftService.step, hmsg] at hst
  | some msg =>
    have hd := h.delivers i
    rw [hmsg] at hd
    obtain ⟨op, rfl⟩ := hd.next
    have hsent := h.received i _ hmsg
    rw [← h.position i] at hsent
    obtain ⟨t₁, hcommit, h, hlogged⟩ := h.exists_logged hsent
    simp only [RaftService.step, hmsg, Option.bind_eq_bind, Option.bind_eq_some_iff,
      Option.some.injEq] at hst
    obtain ⟨handlers, hsend, rfl⟩ := hst
    have happlied :
        ((s.servers i).applyCommand M op ((s.servers i).lastApplied + 1)).1.lastApplied =
          (s.servers i).lastApplied + 1 := by
      rw [Server.applyCommand, if_neg (Nat.not_succ_le_self _)]
    have hmove : t₁.move M (.apply i false) = some
        { t₁ with
          servers := Function.update s.servers i
            ((s.servers i).applyCommand M op ((s.servers i).lastApplied + 1)).1
          position := Function.update t₁.position i ((s.servers i).lastApplied + 1)
          handlers := handlers } := by
      rw [← h.position i, ← h.servers, ← h.handlers] at hsend
      simp only [Service.move, hlogged, Option.bind_eq_bind, Option.bind_some, hsend,
        Bool.false_eq_true, if_false]
      rw [h.servers, h.position i]
    refine ⟨t₁, _, hcommit, hmove, ?_⟩
    constructor
    case refines => exact h.refines
    case plain => exact h.plain
    case entries => exact h.entries
    case delivers =>
      intro j
      by_cases hj : j = i
      · subst hj
        simp only [Function.update_self, happlied]
        exact hd.processed
      · simp only [Function.update_of_ne hj]
        exact h.delivers j
    case received =>
      intro j msg hmsg
      by_cases hj : j = i
      · subst hj
        simp at hmsg
      · simp only [Function.update_of_ne hj] at hmsg
        exact h.received j msg hmsg
    case servers => rfl
    case position =>
      intro j
      by_cases hj : j = i
      · subst hj
        simp only [Function.update_self, happlied]
      · simp only [Function.update_of_ne hj]
        exact h.position j
    case handlers => rfl
    case logged => exact h.logged
    case le_length =>
      intro j
      by_cases hj : j = i
      · subst hj
        simp only [Function.update_self]
        rw [← h.position j]
        exact (List.getElem?_eq_some_iff.mp hlogged).1
      · simp only [Function.update_of_ne hj]
        exact h.le_length j
    case snapshots => exact h.snapshots

/-- A step of Raft that accepts no command keeps all that the servers have no part in. -/
theorem raft_of_ne_start (h : Grounds M s t) {act : Action n O D} {raft : Cluster n O D}
    (hraft : s.raft.step act = some raft) (hstart : ∀ j op, act ≠ .start j op)
    (hnot : ∀ i index data, act ≠ .snapshot i index data) :
    (∃ a, Refines raft a) ∧ SnapshotsHave (fun sn => sn.covers = []) raft ∧
      EntriesHave (fun index op => (index, op) ∈ t.started) raft ∧
      s.raft.emitted ⊆ raft.emitted ∧
      ∀ (p : Nat) op, t.log[p]? = some op →
        ∃ i, (i, ApplyMsg.command op (p + 1)) ∈ raft.emitted := by
  obtain ⟨hrefines, hplain, hentries, hemitted⟩ := h.raft hraft hnot
    (List.Subset.refl t.started) fun j op heq => absurd heq (hstart j op)
  exact ⟨hrefines, hplain, hentries, hemitted,
    fun p op hop => (h.logged p op hop).imp fun _ hj => hemitted hj⟩

/-- Raft hands a message to the loop of a server that waits for one. -/
theorem handed (h : Grounds M s t) {act : Action n O D} {raft : Cluster n O D}
    (hraft : s.raft.step act = some raft) (hstart : ∀ j op, act ≠ .start j op)
    (hnot : ∀ i index data, act ≠ .snapshot i index data) {i : Fin n} {msg : ApplyMsg O D}
    (hhanded : s.raft.handed? act = some (i, msg)) (hnone : s.received i = none) :
    Grounds M { s with raft := raft, received := Function.update s.received i (some msg) } t := by
  obtain ⟨hrefines, hplain, hentries, hemitted, hlogged⟩ :=
    h.raft_of_ne_start hraft hstart hnot
  have hdelivers := h.delivers_raft hraft hnot
  constructor
  case refines => exact hrefines
  case plain => exact hplain
  case entries => exact hentries
  case delivers =>
    intro j
    by_cases hj : j = i
    · subst hj
      simp only [Function.update_self]
      exact (hdelivers j).2.1 msg hhanded hnone
    · simp only [Function.update_of_ne hj]
      refine (hdelivers j).1 ?_
      simp [Cluster.concerns, Cluster.crashed?_of_handed? hhanded, hhanded, Ne.symm hj]
  case received =>
    intro j m hm
    by_cases hj : j = i
    · subst hj
      simp only [Function.update_self, Option.some.injEq] at hm
      subst hm
      dsimp only
      rw [Cluster.emitted_step hraft, hhanded]
      simp
    · simp only [Function.update_of_ne hj] at hm
      exact hemitted (h.received j m hm)
  case servers => exact h.servers
  case position => exact h.position
  case handlers => exact h.handlers
  case logged => exact hlogged
  case le_length => exact h.le_length
  case snapshots => exact h.snapshots

/-- A server crashes and is started again, in the service from the snapshot that holds
    nothing. -/
theorem crashed (h : Grounds M s t) {act : Action n O D} {raft : Cluster n O D}
    (hraft : s.raft.step act = some raft) (hstart : ∀ j op, act ≠ .start j op)
    (hnot : ∀ i index data, act ≠ .snapshot i index data) {i : Fin n}
    (hhanded : s.raft.handed? act = none) (hcrash : s.raft.crashed? act = some i) :
    ∃ t', t.move M (.restart i 0) = some t' ∧ Grounds M (s.crash M raft i) t' := by
  obtain ⟨hrefines, hplain, hentries, hemitted, hlogged⟩ :=
    h.raft_of_ne_start hraft hstart hnot
  have hdelivers := h.delivers_raft hraft hnot
  have hmove : t.move M (.restart i 0) = some
      { t with
        servers := Function.update s.servers i (Server.new M)
        position := Function.update t.position i 0
        handlers := s.handlers.map (Service.stop i) } := by
    simp only [Service.move, h.snapshots, h.servers, h.handlers, List.getElem?_cons_zero,
      Option.bind_eq_bind, Option.bind_some, Server.readSnapshot]
  refine ⟨_, hmove, ?_⟩
  constructor
  case refines => exact hrefines
  case plain => exact hplain
  case entries => exact hentries
  case delivers =>
    intro j
    by_cases hj : j = i
    · subst hj
      simp only [RaftService.crash, Function.update_self]
      exact (hdelivers j).2.2 hcrash
    · simp only [RaftService.crash, Function.update_of_ne hj]
      refine (hdelivers j).1 ?_
      simp [Cluster.concerns, hcrash, hhanded, Ne.symm hj]
  case received =>
    intro j m hm
    by_cases hj : j = i
    · subst hj
      simp [RaftService.crash] at hm
    · simp only [RaftService.crash, Function.update_of_ne hj] at hm
      exact hemitted (h.received j m hm)
  case servers => rfl
  case position =>
    intro j
    by_cases hj : j = i
    · subst hj
      simp [RaftService.crash, Server.new]
    · simp only [RaftService.crash, Function.update_of_ne hj]
      exact h.position j
  case handlers => rfl
  case logged => exact hlogged
  case le_length =>
    intro j
    by_cases hj : j = i
    · subst hj
      simp
    · simp only [Function.update_of_ne hj]
      exact h.le_length j
  case snapshots => exact h.snapshots

/-- A step of Raft hands over a message, crashes a server, or is not noticed. -/
theorem step_raft (h : Grounds M s t) {act : Action n O D}
    (hst : s.step M (.raft act) = some s') :
    (s.raft.crashed? act = none ∧ Grounds M s' t) ∨
      ∃ i t', s.raft.crashed? act = some i ∧ t.move M (.restart i 0) = some t' ∧
        Grounds M s' t' := by
  simp only [RaftService.step] at hst
  unfold RaftService.stepRaft at hst
  split at hst
  · cases hst
  · cases hst
  · rename_i act hstart hnot
    simp only [Option.bind_eq_bind, Option.bind_eq_some_iff] at hst
    obtain ⟨raft, hraft, hst⟩ := hst
    split at hst
    · rename_i i msg hhanded
      split at hst
      · rename_i hnone
        obtain rfl := Option.some.inj hst
        exact .inl ⟨Cluster.crashed?_of_handed? hhanded, h.handed hraft hstart hnot hhanded hnone⟩
      · cases hst
    · rename_i i hhanded hcrash
      obtain rfl := Option.some.inj hst
      obtain ⟨t', hmove, h'⟩ := h.crashed hraft hstart hnot hhanded hcrash
      exact .inr ⟨i, t', hcrash, hmove, h'⟩
    · rename_i hhanded hcrash
      obtain rfl := Option.some.inj hst
      obtain ⟨hrefines, hplain, hentries, hemitted, hlogged⟩ :=
        h.raft_of_ne_start hraft hstart hnot
      refine .inl ⟨hcrash, ?_⟩
      exact
        { h with
          refines := hrefines
          plain := hplain
          entries := hentries
          delivers := fun j =>
            (h.delivers_raft hraft hnot j).1 (not_concerns hcrash hhanded j)
          received := fun j msg hmsg => hemitted (h.received j msg hmsg)
          logged := hlogged }

/-- Every step is a move of the service, perhaps after a command has come to stand in the
    log, or is not noticed there. -/
theorem step (h : Grounds M s t) {act : RaftServiceAction n O D}
    (hst : s.step M act = some s') :
    (s.move? act = none ∧ Grounds M s' t) ∨
      ∃ m t₁ t', s.move? act = some m ∧ (t₁ = t ∨ ∃ k, t.commit k = some t₁) ∧
        t₁.move M m = some t' ∧ Grounds M s' t' := by
  cases act with
  | start k =>
    obtain ⟨m, t', hm, hmove, h'⟩ := h.step_start hst
    exact .inr ⟨m, t, t', hm, .inl rfl, hmove, h'⟩
  | process i =>
    obtain ⟨t₁, t', hcommit, hmove, h'⟩ := h.step_process hst
    exact .inr ⟨_, t₁, t', rfl, hcommit, hmove, h'⟩
  | raft act =>
    rcases h.step_raft hst with ⟨hcrash, h'⟩ | ⟨i, t', hcrash, hmove, h'⟩
    · exact .inl ⟨by simp [RaftService.move?, hcrash], h'⟩
    · exact .inr ⟨_, t, t', by simp [RaftService.move?, hcrash], .inl rfl, hmove, h'⟩
  | register k =>
    simp only [RaftService.step, Option.bind_eq_bind, Option.bind_eq_some_iff] at hst
    obtain ⟨hd, hget, hst⟩ := hst
    split at hst
    · rename_i index hphase
      obtain rfl := Option.some.inj hst
      refine .inr ⟨_, t, _, rfl, .inl rfl, ?_, h.wait ?_ _⟩
      · simp only [Service.move, h.handlers, hget, Option.bind_eq_bind, Option.bind_some, hphase,
          h.servers]
      · intro i
        rw [Function.update_apply]
        split
        · rename_i hi
          rw [hi]
          rfl
        · rfl
    · cases hst
  | receive k =>
    simp only [RaftService.step, Option.bind_eq_bind, Option.bind_eq_some_iff] at hst
    obtain ⟨hd, hget, hst⟩ := hst
    split at hst
    · rename_i index r hphase hinbox
      obtain rfl := Option.some.inj hst
      refine .inr ⟨_, t, _, rfl, .inl rfl, ?_, h.wait (fun _ => rfl) _⟩
      simp only [Service.move, h.handlers, hget, Option.bind_eq_bind, Option.bind_some, hphase,
        hinbox, h.servers]
    · cases hst
  | expire k =>
    simp only [RaftService.step, Option.bind_eq_bind, Option.bind_eq_some_iff] at hst
    obtain ⟨hd, hget, hst⟩ := hst
    split at hst
    · rename_i index hphase
      obtain rfl := Option.some.inj hst
      refine .inr ⟨_, t, _, rfl, .inl rfl, ?_, h.wait (fun _ => rfl) _⟩
      simp only [Service.move, h.handlers, hget, Option.bind_eq_bind, Option.bind_some, hphase,
        h.servers]
    · cases hst
  | finish k =>
    simp only [RaftService.step, Option.bind_eq_bind, Option.bind_eq_some_iff] at hst
    obtain ⟨hd, hget, hst⟩ := hst
    split at hst
    · rename_i index out hphase
      obtain rfl := Option.some.inj hst
      refine .inr ⟨_, t, _, rfl, .inl rfl, ?_, h.wait ?_ _⟩
      · simp only [Service.move, h.handlers, hget, Option.bind_eq_bind, Option.bind_some, hphase,
          h.servers]
      · intro i
        rw [Function.update_apply]
        split
        · rename_i hi
          rw [hi]
          rfl
        · rfl
    · cases hst

end Grounds

end RaftLabs.ReplicatedService
