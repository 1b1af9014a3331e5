import RaftLabs.RaftOutlet
import RaftLabs.RaftSafety

/-!
# Delivery on `applyCh`

The applier and the `InstallSnapshot` handlers move `lastApplied` under the lock
and send after they have released it.  The messages that are waiting to be sent
therefore form a queue in the order of the locked sections, but nothing makes
them leave in that order.

If they do, and if no snapshot is accepted that the applier has already passed,
the channel carries every index in order and without gaps.  The code ensures
neither.
-/

namespace RaftLabs

variable {n : Nat} {C D : Type}

/-! ### Messages in order -/

/-- Where the service stands after a message, if it is in turn at position
    `pos`. -/
def advance (pos : Nat) : ApplyMsg C D → Option Nat
  | .command _ commandIndex => if commandIndex = pos + 1 then some commandIndex else none
  | .snapshot _ _ snapshotIndex => if pos < snapshotIndex then some snapshotIndex else none

/-- Where the service stands after a sequence of messages, each in turn. -/
def position (base : Nat) (msgs : List (ApplyMsg C D)) : Option Nat := msgs.foldlM advance base

/-- Gap-free and never going back, from position `base` on. -/
def InOrder (base : Nat) (msgs : List (ApplyMsg C D)) : Prop :=
  (position base msgs).isSome = true

instance (base : Nat) (msgs : List (ApplyMsg C D)) : Decidable (InOrder base msgs) :=
  inferInstanceAs (Decidable (_ = true))

theorem advance_some {pos p : Nat} {msg : ApplyMsg C D} (h : advance pos msg = some p) :
    p = msg.index ∧ pos < p := by
  cases msg with
  | command command commandIndex =>
    simp only [advance, Option.ite_none_right_eq_some, Option.some.injEq] at h
    obtain ⟨rfl, rfl⟩ := h
    exact ⟨rfl, Nat.lt_succ_self _⟩
  | snapshot snapshot snapshotTerm snapshotIndex =>
    simp only [advance, Option.ite_none_right_eq_some, Option.some.injEq] at h
    obtain ⟨hlt, rfl⟩ := h
    exact ⟨rfl, hlt⟩

theorem position_append (base : Nat) (xs ys : List (ApplyMsg C D)) :
    position base (xs ++ ys) = (position base xs).bind fun pos => position pos ys := by
  simp [position, List.foldlM_append]

theorem position_cons (base : Nat) (msg : ApplyMsg C D) (msgs : List (ApplyMsg C D)) :
    position base (msg :: msgs) = (advance base msg).bind fun pos => position pos msgs := rfl

theorem lt_index_of_position {pos last : Nat} {msgs : List (ApplyMsg C D)}
    (h : position pos msgs = some last) : ∀ msg ∈ msgs, pos < msg.index := by
  induction msgs generalizing pos with
  | nil => simp
  | cons head tail ih =>
    rw [position_cons, Option.bind_eq_some_iff] at h
    obtain ⟨p, hadv, hrest⟩ := h
    obtain ⟨rfl, hlt⟩ := advance_some hadv
    intro msg hmsg
    rcases List.mem_cons.mp hmsg with rfl | hmsg
    · exact hlt
    · exact hlt.trans (ih hrest msg hmsg)

/-! ### The queue of waiting sends -/

/-- The waiting messages can be sent in an order that continues what was sent and
    ends at `lastApplied`. -/
def Queued (o : Outlet n C D) : Prop :=
  ∃ queue : List (ApplyMsg C D), queue.Perm o.pending ∧
    position o.base (o.sent ++ queue) = some o.lastApplied

namespace Queued

variable {o o' : Outlet n C D}

theorem inOrder (h : Queued o) : InOrder o.base o.sent := by
  obtain ⟨queue, -, hpos⟩ := h
  rw [position_append, Option.bind_eq_some_iff] at hpos
  obtain ⟨pos, hsent, -⟩ := hpos
  simp [InOrder, hsent]

/-- A locked section that moves `lastApplied` puts its message at the end of the
    queue. -/
theorem push (h : Queued o) (msg : ApplyMsg C D)
    (hadv : advance o.lastApplied msg = some o'.lastApplied)
    (hbase : o'.base = o.base) (hsent : o'.sent = o.sent)
    (hpending : (o.pending ++ [msg]).Perm o'.pending) : Queued o' := by
  obtain ⟨queue, hperm, hpos⟩ := h
  refine ⟨queue ++ [msg], (hperm.append_right [msg]).trans hpending, ?_⟩
  rw [hbase, hsent, ← List.append_assoc, position_append, hpos, Option.bind_some, position_cons,
    hadv]
  rfl

/-- The message with the least index is the head of the queue, so sending it
    leaves a queue. -/
theorem send (h : Queued o) {msg : ApplyMsg C D}
    (hturn : ∀ m ∈ o.pending, msg.index ≤ m.index)
    (happlied : o'.lastApplied = o.lastApplied) (hbase : o'.base = o.base)
    (hsent : o'.sent = o.sent ++ [msg])
    (hpending : o.pending.Perm (msg :: o'.pending)) : Queued o' := by
  obtain ⟨queue, hperm, hpos⟩ := h
  cases queue with
  | nil =>
    have hnil := (hperm.trans hpending).length_eq
    simp at hnil
  | cons head tail =>
    have hsplit := hpos
    rw [position_append, Option.bind_eq_some_iff] at hsplit
    obtain ⟨pos, -, hqueue⟩ := hsplit
    rw [position_cons, Option.bind_eq_some_iff] at hqueue
    obtain ⟨p, hadv, htail⟩ := hqueue
    obtain ⟨rfl, -⟩ := advance_some hadv
    have hmem : msg ∈ head :: tail :=
      (hperm.trans hpending).mem_iff.mpr (List.mem_cons_self ..)
    have hhead : head = msg := by
      rcases List.mem_cons.mp hmem with heq | hin
      · exact heq.symm
      · have hlt := lt_index_of_position htail msg hin
        have hle := hturn head (hperm.mem_iff.mp (List.mem_cons_self ..))
        omega
    subst hhead
    refine ⟨tail, (hperm.trans hpending).cons_inv, ?_⟩
    rw [hbase, hsent, happlied, List.append_assoc]
    exact hpos

end Queued

/-! ### Runs in which sends keep their turn -/

/-- A send goes first only if no waiting message is older, and a snapshot is not
    accepted once the applier has passed it. -/
def inTurn (c : Cluster n C D) : Action n C D → Bool
  | .deliver k =>
    match c.packets[k]? with
    | some (.snapshotRequest _ callee args) =>
      let rf := (c.servers callee).rf
      args.term < rf.currentTerm || args.lastIncludedIndex ≤ rf.lastIncludedIndex ||
        rf.lastApplied < args.lastIncludedIndex
    | _ => true
  | .sendCommand i =>
    (c.servers i).applierSend.all fun msg =>
      (c.servers i).outlet.pending.all fun m => msg.index ≤ m.index
  | .sendSnapshot i k =>
    (c.servers i).snapshotSends[k]?.all fun waiting =>
      (c.servers i).outlet.pending.all fun m => waiting.msg.index ≤ m.index
  | _ => true

/-- The guard of the runs in which sends keep their turn. -/
def InTurn (c : Cluster n C D) (act : Action n C D) : Prop := inTurn c act = true

instance (c : Cluster n C D) (act : Action n C D) : Decidable (InTurn c act) :=
  inferInstanceAs (Decidable (_ = true))

theorem Moves.queued {c : Cluster n C D} {i : Fin n} {act : Action n C D} {o : Outlet n C D}
    (h : Moves c i act o) (hq : Queued (c.servers i).outlet) (hturn : InTurn c act) :
    Queued o := by
  cases h with
  | quiet => exact hq
  | applied e hfree hlt he =>
    refine hq.push (.command e.command ((c.servers i).rf.lastApplied + 1)) ?_ rfl rfl ?_
    · simp [advance, Server.outlet]
    · simp only [Outlet.pending, Server.outlet, hfree, Option.toList_none, List.nil_append,
        Option.toList_some]
      exact List.perm_append_comm
  | installed k caller args reply hpacket hterm hnew =>
    have hlt : (c.servers i).rf.lastApplied < args.lastIncludedIndex := by
      simp only [InTurn, inTurn, hpacket, Bool.or_eq_true, decide_eq_true_eq] at hturn
      omega
    refine hq.push (.snapshot args.data args.lastIncludedTerm args.lastIncludedIndex) ?_ rfl rfl ?_
    · simp [advance, Server.outlet, hlt, hlt.le]
    · simp [Outlet.pending, Server.outlet]
  | sentCommand msg hmsg =>
    have hfirst : ∀ m ∈ (c.servers i).outlet.pending, msg.index ≤ m.index := by
      simpa [InTurn, inTurn, hmsg] using hturn
    refine hq.send hfirst rfl rfl rfl ?_
    simp [Outlet.pending, Server.outlet, hmsg]
  | sentSnapshot k waiting hwaiting =>
    have hfirst : ∀ m ∈ (c.servers i).outlet.pending, waiting.msg.index ≤ m.index := by
      simpa [InTurn, inTurn, hwaiting] using hturn
    refine hq.send hfirst rfl rfl rfl ?_
    obtain ⟨hk, rfl⟩ := List.getElem?_eq_some_iff.mp hwaiting
    have hperm := (List.getElem_cons_eraseIdx_perm hk).map SnapshotSend.msg
    rw [List.map_cons] at hperm
    refine (hperm.symm.append_left _).trans ?_
    exact List.perm_middle
  | compacted => exact hq
  | restarted => exact ⟨[], List.Perm.nil, rfl⟩

variable [Inhabited C] [Inhabited D]

/-- In a run in which sends keep their turn, every server incarnation puts its
    messages on `applyCh` in order and without gaps, from the position that
    `Make` restored. -/
theorem delivery_inOrder {c : Cluster n C D} (hc : (cluster n C D).Reachable InTurn c)
    (i : Fin n) : InOrder (c.servers i).base (c.servers i).sent := by
  have hqueued : ∀ i, Queued (c.servers i).outlet := by
    refine hc.invariant (P := fun c => ∀ i, Queued (c.servers i).outlet) ?_ ?_
    · exact fun i => ⟨[], List.Perm.nil, rfl⟩
    · intro c act c' hreach ih hturn hst i
      obtain ⟨a, ha⟩ := exists_refines hreach
      exact (ha.moves hst i).queued (ih i) hturn
  exact (hqueued i).inOrder

/-- A run that overtakes: server 2 has accepted a snapshot of index 1 and is about
    to send it when the applier sends the command of index 2. -/
def overtakeSnapshot : List (Action 3 Nat Nat) :=
  commitSeven ++
    ([.apply 0, .sendCommand 0, .snapshot 0 1 99, .replicate 0 2, .deliver 5, .start 0 8,
      .replicate 0 2, .deliver 6, .deliver 7, .replicate 0 1, .deliver 8, .deliver 9,
      .replicate 0 2, .deliver 10, .apply 2, .sendCommand 2] : List (Action 3 Nat Nat))

/-- The code does not keep the turn: a service that has seen nothing is sent the
    command of index 2 first. -/
theorem delivery_outOfOrder :
    ∃ c : Cluster 3 Nat Nat, (cluster 3 Nat Nat).Reachable System.anyStep c ∧
      (c.servers 2).base = 0 ∧ (c.servers 2).sent = [.command 8 2] ∧
      ¬ InOrder (c.servers 2).base (c.servers 2).sent := by
  obtain ⟨c, hc, hP⟩ := (cluster 3 Nat Nat).exists_reachable_of_run System.anyStep
    overtakeSnapshot
    (fun c => decide ((c.servers 2).base = 0 ∧ (c.servers 2).sent = [.command 8 2] ∧
      ¬ InOrder (c.servers 2).base (c.servers 2).sent))
    (by decide +kernel)
  exact ⟨c, hc, of_decide_eq_true hP⟩

/-- Sent in turn, the snapshot and the command arrive in order. -/
theorem delivery_inOrder_snapshot :
    ∃ c : Cluster 3 Nat Nat, (cluster 3 Nat Nat).Reachable InTurn c ∧
      (c.servers 2).sent.map ApplyMsg.index = [1, 2] ∧
      InOrder (c.servers 2).base (c.servers 2).sent := by
  obtain ⟨c, hc, hP⟩ := (cluster 3 Nat Nat).exists_reachable_of_run InTurn
    (overtakeSnapshot.dropLast ++ ([.sendSnapshot 2 0, .sendCommand 2] : List (Action 3 Nat Nat)))
    (fun c => decide ((c.servers 2).sent.map ApplyMsg.index = [1, 2]))
    (by decide +kernel)
  exact ⟨c, hc, of_decide_eq_true hP, delivery_inOrder hc 2⟩

end RaftLabs
