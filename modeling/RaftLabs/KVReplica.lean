import RaftLabs.KVServer
import RaftLabs.RaftDelivery

/-!
# The key/value servers on top of a Raft cluster

Each server of a cluster runs a `KVServer`, which takes its messages from
`applyCh`, restores its state when it is started and asks Raft to compact.  The
channel is unbuffered and `applyLoop` handles one message at a time, so a send
completes only when the loop is ready to receive.

The replicated state of a server ought to be the fold of the agreed log up to the
highest index it has applied or restored.  It is, as long as no command overtakes
a snapshot on the way to it; `applySnapshot` drops a snapshot that comes late,
and with it the entries that only the snapshot held.
-/

namespace RaftLabs.KV

variable {n : Nat}

/-! ### The composed system -/

/-- Where a server is between `StartKVServer` and the handling of a message. -/
inductive Loop where
  /-- `Make` has returned and the saved snapshot is still to be read. -/
  | starting
  | idle
  | received (msg : ApplyMsg Op (Option Store))
  /-- `maybeSnapshot` is about to call `Snapshot`. -/
  | compacting (index : Nat)

/-- A server, its loop, and the highest index it has applied or restored. -/
structure Replica where
  kv : KVServer
  loop : Loop
  reached : Nat

/-- A server that `StartKVServer` has allocated. -/
def Replica.start : Replica where
  kv := KVServer.new
  loop := .starting
  reached := 0

structure KVCluster (n : Nat) where
  raft : Cluster n Op (Option Store)
  replicas : Fin n → Replica

inductive KVAction (n : Nat) where
  /-- A step of Raft, which may hand over a message or crash a server. -/
  | raft (act : Action n Op (Option Store))
  /-- `StartKVServer` reads the saved snapshot. -/
  | restore (i : Fin n)
  /-- The loop handles the message it has received; `oversized` is what
      `maybeSnapshot` finds about the size of the Raft state. -/
  | process (i : Fin n) (oversized : Bool)
  /-- `maybeSnapshot` calls `Snapshot`. -/
  | compact (i : Fin n)
  /-- A request handler enters or removes a channel. -/
  | wait (i : Fin n) (index : Nat) (ch : Option Nat)

namespace KVCluster

def setReplica (s : KVCluster n) (i : Fin n) (r : Replica) : KVCluster n :=
  { s with replicas := Function.update s.replicas i r }

/-- The loop of server `i` handles a message. -/
def process (r : Replica) (oversized : Bool) : Option Replica :=
  match r.loop with
  | .received (.command op commandIndex) =>
    if commandIndex ≤ r.kv.lastApplied then some { r with loop := .idle }
    else some
      { kv := (r.kv.applyCommand op commandIndex).1
        loop := if oversized then .compacting commandIndex else .idle
        reached := max r.reached commandIndex }
  | .received (.snapshot snapshot _ snapshotIndex) =>
    if snapshotIndex ≤ r.kv.lastApplied then some { r with loop := .idle }
    else some
      { kv := r.kv.applySnapshot snapshot.data snapshotIndex
        loop := .idle
        reached := max r.reached snapshotIndex }
  | _ => none

def step (s : KVCluster n) : KVAction n → Option (KVCluster n)
  | .raft (.snapshot _ _ _) => none
  | .raft act => do
    let raft ← s.raft.step act
    match s.raft.handed? act, s.raft.crashed? act with
    | some (i, msg), _ =>
      match (s.replicas i).loop with
      | .idle =>
        some { raft := raft
               replicas := Function.update s.replicas i
                 { s.replicas i with loop := .received msg } }
      | _ => none
    | none, some i =>
      some { raft := raft, replicas := Function.update s.replicas i Replica.start }
    | none, none => some { s with raft := raft }
  | .restore i =>
    let r := s.replicas i
    let rf := (s.raft.servers i).rf
    match r.loop with
    | .starting =>
      some (s.setReplica i
        { kv := r.kv.readSnapshot rf.persister.snapshot.data
          loop := .idle
          reached := rf.lastIncludedIndex })
    | _ => none
  | .process i oversized => do
    let r ← process (s.replicas i) oversized
    some (s.setReplica i r)
  | .compact i =>
    let r := s.replicas i
    match r.loop with
    | .compacting index => do
      let raft ← s.raft.step (.snapshot i index r.kv.encode)
      some { raft := raft, replicas := Function.update s.replicas i { r with loop := .idle } }
    | _ => none
  | .wait i index ch =>
    let r := s.replicas i
    some (s.setReplica i
      { r with kv := match ch with
        | some ch => r.kv.addWaiter index ch
        | none => r.kv.deleteWaiter index })

end KVCluster

/-- The servers of a cluster, all of them just started. -/
def kvCluster (n : Nat) : System (KVCluster n) (KVAction n) where
  init := { raft := (cluster n Op (Option Store)).init, replicas := fun _ => Replica.start }
  step := KVCluster.step

/-! ### Folds of committed prefixes -/

section Fold

variable {a a' : Abs n Op}

theorem Committed.eq_of_length (hinv : AbsInv a) {X Y : List (LogEntry Op)}
    (hX : Committed a X) (hY : Committed a Y) (hlen : X.length = Y.length) : X = Y := by
  obtain ⟨U, hU⟩ := hX
  obtain ⟨V, hV⟩ := hY
  rcases hinv.committed_comparable hU hV with hpre | hpre
  · exact hpre.eq_of_length hlen
  · exact (hpre.eq_of_length hlen.symm).symm

/-- The bytes of a snapshot are the fold of the entries it covers. -/
def Folded (sn : Snapshot Op (Option Store)) : Prop :=
  (sn.data = none ∧ sn.covers = []) ∨
    sn.data = some (Store.applyAll (sn.covers.map LogEntry.command))

/-- The store is the fold of the first `k` committed entries. -/
def FoldOf (a : Abs n Op) (st : Store) (k : Nat) : Prop :=
  ∃ X, Committed a X ∧ X.length = k ∧ st = Store.applyAll (X.map LogEntry.command)

theorem FoldOf.empty (a : Abs n Op) : FoldOf a Store.empty 0 := ⟨[], ⟨0, .inl rfl⟩, rfl, rfl⟩

theorem FoldOf.mono (hext : ReplicatedLog.Extends a a') {st : Store} {k : Nat}
    (h : FoldOf a st k) : FoldOf a' st k := by
  obtain ⟨X, hX, hrest⟩ := h
  exact ⟨X, hX.mono hext, hrest⟩

/-- Applying the next committed command. -/
theorem FoldOf.apply (hinv : AbsInv a) {st : Store} {k : Nat} {op : Op} (h : FoldOf a st k)
    (hmsg : MsgOk a (.command op (k + 1) : ApplyMsg Op (Option Store))) :
    FoldOf a (st.applyOp op).1 (k + 1) := by
  obtain ⟨X, hX, rfl, rfl⟩ := h
  obtain ⟨Y, e, ⟨U, hY⟩, -, he, rfl⟩ := hmsg
  rw [Nat.add_sub_cancel] at he
  have hlt : X.length < Y.length := (List.getElem?_eq_some_iff.mp he).1
  have htake : ∀ m, Committed a (Y.take m) :=
    fun m => ⟨U, hY.of_isPrefix <| List.take_prefix m Y⟩
  have hXY : X = Y.take X.length := by
    refine Committed.eq_of_length hinv hX (htake _) ?_
    rw [List.length_take, min_eq_left hlt.le]
  refine ⟨Y.take (X.length + 1), htake _, ?_, ?_⟩
  · rw [List.length_take, min_eq_left hlt]
  · rw [List.take_add_one, he, ← hXY]
    simp [Store.applyAll]

/-- Restoring a snapshot of a committed prefix. -/
theorem FoldOf.of_snapshot {sn : Snapshot Op (Option Store)} (hfold : Folded sn)
    (hcomm : Committed a sn.covers) (kv : KVServer)
    (hempty : sn.covers = [] → kv.state = Store.empty) :
    FoldOf a (kv.readSnapshot sn.data).state sn.covers.length := by
  rcases hfold with ⟨hdata, hcovers⟩ | hdata
  · rw [hdata, hcovers]
    simp only [KVServer.readSnapshot, ReplicatedService.Server.readSnapshot, hempty hcovers]
    exact FoldOf.empty a
  · rw [hdata]
    exact ⟨_, hcomm, rfl, rfl⟩

end Fold

/-! ### A replica and its outlet -/

/-- The position from which a replica goes on: before the saved snapshot is read,
    the position that `Make` restored. -/
def Replica.standing (r : Replica) (base : Nat) : Nat :=
  match r.loop with
  | .starting => base
  | _ => r.reached

/-- Index `x` has been reached, or is what a waiting snapshot or the message in
    hand stands for. -/
def Covered (o : Outlet n Op (Option Store)) (r : Replica) (x : Nat) : Prop :=
  x ≤ r.standing o.base ∨ (∃ w ∈ o.snapshotSends, w.msg.index = x) ∨
    ∃ msg, r.loop = .received msg ∧ msg.index = x

/-- What holds between the state of a service and the outlet of its server. -/
structure ReplicaOk (a : Abs n Op) (o : Outlet n Op (Option Store)) (r : Replica) : Prop where
  fold : FoldOf a r.kv.state r.reached
  applied_le : r.kv.lastApplied ≤ r.reached
  restored : r.kv.lastApplied = r.reached ∨ r.reached = o.base
  base_le : o.base ≤ r.standing o.base
  base_applied : o.base ≤ o.lastApplied
  base_included : o.base ≤ o.lastIncludedIndex
  starting : r.loop = .starting → r.reached = 0 ∧ r.kv.state = Store.empty ∧
    o.lastIncludedIndex = o.base
  behind : Covered o r o.lastApplied ∨
    ∃ msg, o.applierSend = some msg ∧ msg.index = o.lastApplied
  command : ∀ msg, o.applierSend = some msg →
    ∃ op k, msg = .command op (k + 1) ∧ o.base ≤ k ∧ Covered o r k
  snapshots : ∀ w ∈ o.snapshotSends, o.base < w.msg.index
  received : ∀ msg, r.loop = .received msg → MsgOk a msg ∧ o.base < msg.index ∧
    msg.index ∈ o.sent.map ApplyMsg.index ∧
    match msg with
    | .command _ k => k ≤ r.reached + 1
    | .snapshot sn _ _ => Folded sn
  compacting : ∀ k, r.loop = .compacting k → k = r.reached ∧ k ∈ o.sent.map ApplyMsg.index

namespace ReplicaOk

variable {a a' : Abs n Op} {o : Outlet n Op (Option Store)} {r : Replica}

theorem mono (h : ReplicaOk a o r) (hext : ReplicatedLog.Extends a a') : ReplicaOk a' o r :=
  { h with
    fold := h.fold.mono hext
    received := fun msg hmsg =>
      ⟨(h.received msg hmsg).1.mono hext, (h.received msg hmsg).2⟩ }

/-- A server that was just started, whatever its outlet was before. -/
theorem start (a : Abs n Op) (o : Outlet n Op (Option Store))
    (happlied : o.lastApplied = o.base) (hincl : o.lastIncludedIndex = o.base)
    (hfree : o.applierSend = none) (hnone : o.snapshotSends = []) :
    ReplicaOk a o Replica.start where
  fold := FoldOf.empty a
  applied_le := le_rfl
  restored := .inl rfl
  base_le := le_rfl
  base_applied := happlied.ge
  base_included := hincl.ge
  starting _ := ⟨rfl, rfl, hincl⟩
  behind := .inl (.inl happlied.le)
  command := by simp [hfree]
  snapshots := by simp [hnone]
  received msg hmsg := by cases hmsg
  compacting k hk := by cases hk

theorem standing_eq {base : Nat} (h : r.loop ≠ .starting) : r.standing base = r.reached := by
  unfold Replica.standing
  split
  · contradiction
  · rfl

/-! The steps of Raft. -/

theorem applied (h : ReplicaOk a o r) (hfree : o.applierSend = none) (op : Op) :
    ReplicaOk a
      { o with
        lastApplied := o.lastApplied + 1
        applierSend := some (.command op (o.lastApplied + 1)) } r :=
  { h with
    base_applied := Nat.le_succ_of_le h.base_applied
    behind := .inr ⟨_, rfl, rfl⟩
    command := by
      intro msg hmsg
      obtain rfl := Option.some.inj hmsg
      -- the applier takes an index only when it has sent the one before
      rcases h.behind with hcov | ⟨m, hm, -⟩
      · exact ⟨op, o.lastApplied, rfl, h.base_applied, hcov⟩
      · rw [hfree] at hm
        cases hm }

theorem installed (h : ReplicaOk a o r) (hrunning : r.loop ≠ .starting)
    (w : SnapshotSend n Op (Option Store)) (sn : Snapshot Op (Option Store))
    (hnew : o.lastIncludedIndex < w.msg.index) :
    ReplicaOk a
      { o with
        lastApplied := max o.lastApplied w.msg.index
        lastIncludedIndex := w.msg.index
        snapshot := sn
        snapshotSends := o.snapshotSends ++ [w] } r := by
  have hgrow : ∀ {x}, Covered o r x → Covered
      { o with
        lastApplied := max o.lastApplied w.msg.index
        lastIncludedIndex := w.msg.index
        snapshot := sn
        snapshotSends := o.snapshotSends ++ [w] } r x := by
    intro x hx
    rcases hx with hle | ⟨v, hv, hidx⟩ | hrec
    · exact .inl hle
    · exact .inr (.inl ⟨v, List.mem_append_left _ hv, hidx⟩)
    · exact .inr (.inr hrec)
  constructor
  case fold => exact h.fold
  case applied_le => exact h.applied_le
  case restored => exact h.restored
  case base_le => exact h.base_le
  case base_applied => exact h.base_applied.trans (le_max_left _ _)
  case base_included => exact h.base_included.trans hnew.le
  case starting => exact fun hs => absurd hs hrunning
  case behind =>
    rcases max_choice o.lastApplied w.msg.index with hmax | hmax
    · rw [hmax]
      rcases h.behind with hcov | hsend
      · exact .inl (hgrow hcov)
      · exact .inr hsend
    · rw [hmax]
      exact .inl (.inr (.inl ⟨w, by simp, rfl⟩))
  case command =>
    intro msg hmsg
    obtain ⟨op, k, heq, hbase, hcov⟩ := h.command msg hmsg
    exact ⟨op, k, heq, hbase, hgrow hcov⟩
  case snapshots =>
    intro v hv
    rcases List.mem_append.mp hv with hv | hv
    · exact h.snapshots v hv
    · obtain rfl := List.mem_singleton.mp hv
      exact h.base_included.trans_lt hnew
  case received => exact h.received
  case compacting => exact h.compacting

/-- The loop takes a command that overtakes no snapshot it still needs: it is the
    next one, or one the replica has passed. -/
theorem receive_command (h : ReplicaOk a o r) (hidle : r.loop = .idle)
    {msg : ApplyMsg Op (Option Store)} (hmsg : o.applierSend = some msg) (hok : MsgOk a msg)
    (hturn : ∀ w ∈ o.snapshotSends,
      ¬ (r.reached < w.msg.index ∧ w.msg.index < msg.index)) :
    ReplicaOk a { o with applierSend := none, sent := o.sent ++ [msg] }
      { r with loop := .received msg } := by
  have hstanding : r.standing o.base = r.reached := standing_eq (by simp [hidle])
  obtain ⟨op, k, rfl, hbase, hcov⟩ := h.command msg hmsg
  have hk : k ≤ r.reached := by
    rcases hcov with hle | ⟨w, hw, hidx⟩ | ⟨m, hm, -⟩
    · rw [← hstanding]
      exact hle
    · by_contra hlt
      apply hturn w hw
      rw [hidx]
      exact ⟨Nat.lt_of_not_le hlt, Nat.lt_succ_self k⟩
    · rw [hidle] at hm
      cases hm
  constructor
  case fold => exact h.fold
  case applied_le => exact h.applied_le
  case restored => exact h.restored
  case base_le => exact hstanding ▸ h.base_le
  case base_applied => exact h.base_applied
  case base_included => exact h.base_included
  case starting => intro hs; cases hs
  case behind =>
    rcases h.behind with (hle | hwait | ⟨m, hm, -⟩) | ⟨m, hm, hidx⟩
    · exact .inl (.inl (hstanding ▸ hle))
    · exact .inl (.inr (.inl hwait))
    · rw [hidle] at hm
      cases hm
    · rw [hmsg] at hm
      obtain rfl := Option.some.inj hm
      exact .inl (.inr (.inr ⟨_, rfl, hidx⟩))
  case command => intro m hm; cases hm
  case snapshots => exact h.snapshots
  case received =>
    intro m hm
    obtain rfl := Loop.received.inj hm
    exact ⟨hok, Nat.lt_succ_of_le hbase, by simp, Nat.succ_le_succ hk⟩
  case compacting => intro m hm; cases hm

theorem receive_snapshot (h : ReplicaOk a o r) (hidle : r.loop = .idle) {k : Nat}
    {w : SnapshotSend n Op (Option Store)} (hw : o.snapshotSends[k]? = some w)
    (hok : MsgOk a w.msg)
    (hfold : ∃ sn term index, w.msg = .snapshot sn term index ∧ Folded sn) :
    ReplicaOk a
      { o with snapshotSends := o.snapshotSends.eraseIdx k, sent := o.sent ++ [w.msg] }
      { r with loop := .received w.msg } := by
  have hstanding : r.standing o.base = r.reached := standing_eq (by simp [hidle])
  have hmem : ∀ v ∈ o.snapshotSends, v = w ∨ v ∈ o.snapshotSends.eraseIdx k := by
    intro v hv
    obtain ⟨hk, rfl⟩ := List.getElem?_eq_some_iff.mp hw
    exact List.mem_cons.mp ((List.getElem_cons_eraseIdx_perm hk).mem_iff.mpr hv)
  have hmove : ∀ {x}, Covered o r x → Covered
      { o with snapshotSends := o.snapshotSends.eraseIdx k, sent := o.sent ++ [w.msg] }
      { r with loop := .received w.msg } x := by
    intro x hx
    rcases hx with hle | ⟨v, hv, hidx⟩ | ⟨m, hm, -⟩
    · exact .inl (hstanding ▸ hle)
    · rcases hmem v hv with rfl | hv
      · exact .inr (.inr ⟨_, rfl, hidx⟩)
      · exact .inr (.inl ⟨v, hv, hidx⟩)
    · rw [hidle] at hm
      cases hm
  constructor
  case fold => exact h.fold
  case applied_le => exact h.applied_le
  case restored => exact h.restored
  case base_le => exact hstanding ▸ h.base_le
  case base_applied => exact h.base_applied
  case base_included => exact h.base_included
  case starting => intro hs; cases hs
  case behind => exact h.behind.imp_left hmove
  case command =>
    intro msg hmsg
    obtain ⟨op, m, heq, hbase, hcov⟩ := h.command msg hmsg
    exact ⟨op, m, heq, hbase, hmove hcov⟩
  case snapshots => exact fun v hv => h.snapshots v (List.mem_of_mem_eraseIdx hv)
  case received =>
    intro m hm
    obtain rfl := Loop.received.inj hm
    obtain ⟨sn, term, index, heq, hsn⟩ := hfold
    refine ⟨hok, h.snapshots w (List.mem_of_getElem? hw), by simp, ?_⟩
    rw [heq]
    exact hsn
  case compacting => intro m hm; cases hm

/-! The steps of the service. -/

/-- The loop becomes idle again after it has brought the replica to `k`, which is
    at least what the message in hand stands for. -/
theorem finish (h : ReplicaOk a o r) {kv : KVServer} {k : Nat} {loop : Loop}
    (hrunning : r.loop ≠ .starting) (hfold : FoldOf a kv.state k) (happlied : kv.lastApplied ≤ k)
    (hrestored : kv.lastApplied = k ∨ k = o.base) (hk : r.reached ≤ k)
    (hmsg : ∀ msg, r.loop = .received msg → msg.index ≤ k)
    (hloop : loop = .idle ∨ loop = .compacting k ∧ k ∈ o.sent.map ApplyMsg.index) :
    ReplicaOk a o { kv := kv, loop := loop, reached := k } := by
  have hstanding : r.standing o.base = r.reached := standing_eq hrunning
  have hnew : Replica.standing { kv := kv, loop := loop, reached := k } o.base = k := by
    rcases hloop with rfl | ⟨rfl, -⟩ <;> rfl
  have hmove : ∀ {x}, Covered o r x → Covered o { kv := kv, loop := loop, reached := k } x := by
    intro x hx
    rcases hx with hle | hwait | ⟨m, hm, rfl⟩
    · refine .inl ?_
      rw [hnew]
      exact (hstanding ▸ hle).trans hk
    · exact .inr (.inl hwait)
    · refine .inl ?_
      rw [hnew]
      exact hmsg m hm
  constructor
  case fold => exact hfold
  case applied_le => exact happlied
  case restored => exact hrestored
  case base_le =>
    rw [hnew]
    exact (hstanding ▸ h.base_le).trans hk
  case base_applied => exact h.base_applied
  case base_included => exact h.base_included
  case starting =>
    intro hs
    rcases hloop with rfl | ⟨rfl, -⟩ <;> cases hs
  case behind => exact h.behind.imp_left hmove
  case command =>
    intro msg hmsg
    obtain ⟨op, m, heq, hbase, hcov⟩ := h.command msg hmsg
    exact ⟨op, m, heq, hbase, hmove hcov⟩
  case snapshots => exact h.snapshots
  case received =>
    intro msg hmsg
    rcases hloop with rfl | ⟨rfl, -⟩ <;> cases hmsg
  case compacting =>
    intro m hm
    rcases hloop with rfl | ⟨rfl, hsent⟩
    · cases hm
    · obtain rfl := Loop.compacting.inj hm
      exact ⟨rfl, hsent⟩

theorem process (h : ReplicaOk a o r) (hinv : AbsInv a) {oversized : Bool} {r' : Replica}
    (hst : KVCluster.process r oversized = some r') : ReplicaOk a o r' := by
  unfold KVCluster.process at hst
  split at hst
  · rename_i op k hloop
    obtain ⟨hok, hbase, hsent, hk⟩ := h.received _ hloop
    have hrunning : r.loop ≠ .starting := by simp [hloop]
    dsimp only [ApplyMsg.index] at hbase hsent hk
    split at hst
    · rename_i hold
      obtain rfl := Option.some.inj hst
      refine h.finish hrunning h.fold h.applied_le h.restored le_rfl ?_ (.inl rfl)
      intro msg hmsg
      obtain rfl := Loop.received.inj (hloop.symm.trans hmsg)
      exact hold.trans h.applied_le
    · rename_i hnew
      obtain rfl := Option.some.inj hst
      -- nothing lies between the replica and the command
      obtain rfl : k = r.reached + 1 := by
        rcases h.restored with heq | heq <;> omega
      rw [max_eq_right (Nat.le_succ _)]
      have hkv : (r.kv.applyCommand op (r.reached + 1)).1.state = (r.kv.state.applyOp op).1 ∧
          (r.kv.applyCommand op (r.reached + 1)).1.lastApplied = r.reached + 1 := by
        simp [KVServer.applyCommand, ReplicatedService.Server.applyCommand, machine, hnew]
      refine h.finish hrunning ?_ hkv.2.le (.inl hkv.2) (Nat.le_succ _) ?_ ?_
      · rw [hkv.1]
        exact h.fold.apply hinv hok
      · intro msg hmsg
        obtain rfl := Loop.received.inj (hloop.symm.trans hmsg)
        exact le_rfl
      · cases oversized
        · exact .inl rfl
        · exact .inr ⟨rfl, hsent⟩
  · rename_i sn term k hloop
    obtain ⟨hok, hbase, -, hsn⟩ := h.received _ hloop
    have hrunning : r.loop ≠ .starting := by simp [hloop]
    dsimp only [ApplyMsg.index] at hbase hsn
    split at hst
    · rename_i hold
      obtain rfl := Option.some.inj hst
      refine h.finish hrunning h.fold h.applied_le h.restored le_rfl ?_ (.inl rfl)
      intro msg hmsg
      obtain rfl := Loop.received.inj (hloop.symm.trans hmsg)
      exact hold.trans h.applied_le
    · rename_i hnew
      obtain rfl := Option.some.inj hst
      obtain ⟨hcomm, hlen, -⟩ := hok
      have hlt : r.reached < k := by
        rcases h.restored with heq | heq <;> omega
      rw [max_eq_right hlt.le]
      have hkv : (r.kv.applySnapshot sn.data k).state = (r.kv.readSnapshot sn.data).state ∧
          (r.kv.applySnapshot sn.data k).lastApplied = k := by
        simp [KVServer.applySnapshot, KVServer.readSnapshot,
          ReplicatedService.Server.applySnapshot, hnew]
      refine h.finish hrunning ?_ hkv.2.le (.inl hkv.2) hlt.le ?_ (.inl rfl)
      · rw [hkv.1, ← hlen]
        apply FoldOf.of_snapshot hsn hcomm
        intro hnil
        rw [hnil, List.length_nil] at hlen
        omega
      · intro msg hmsg
        obtain rfl := Loop.received.inj (hloop.symm.trans hmsg)
        exact le_rfl
  · cases hst

theorem restore (h : ReplicaOk a o r) (hstart : r.loop = .starting) (hfold : Folded o.snapshot)
    (hcomm : Committed a o.snapshot.covers)
    (hlen : o.snapshot.covers.length = o.lastIncludedIndex) :
    ReplicaOk a o
      { kv := r.kv.readSnapshot o.snapshot.data, loop := .idle,
        reached := o.lastIncludedIndex } := by
  obtain ⟨hzero, hempty, hincl⟩ := h.starting hstart
  have hkv : (r.kv.readSnapshot o.snapshot.data).lastApplied = 0 := by
    have hle := h.applied_le
    unfold KVServer.readSnapshot ReplicatedService.Server.readSnapshot
    split
    · omega
    · dsimp only
      omega
  have hmove : ∀ {x}, Covered o r x → Covered o
      { kv := r.kv.readSnapshot o.snapshot.data, loop := .idle,
        reached := o.lastIncludedIndex } x := by
    intro x hx
    rcases hx with hle | hwait | ⟨m, hm, -⟩
    · simp only [Replica.standing, hstart] at hle
      exact .inl (hle.trans hincl.ge)
    · exact .inr (.inl hwait)
    · rw [hstart] at hm
      cases hm
  constructor
  case fold =>
    dsimp only
    rw [← hlen]
    exact FoldOf.of_snapshot hfold hcomm _ (fun _ => hempty)
  case applied_le => exact hkv.trans_le (Nat.zero_le _)
  case restored => exact .inr hincl
  case base_le => exact hincl.ge
  case base_applied => exact h.base_applied
  case base_included => exact h.base_included
  case starting => intro hs; cases hs
  case behind => exact h.behind.imp_left hmove
  case command =>
    intro msg hmsg
    obtain ⟨op, m, heq, hbase, hcov⟩ := h.command msg hmsg
    exact ⟨op, m, heq, hbase, hmove hcov⟩
  case snapshots => exact h.snapshots
  case received => intro msg hmsg; cases hmsg
  case compacting => intro m hm; cases hm

/-- Waiters and compaction leave the replicated state alone. -/
theorem congr (h : ReplicaOk a o r) {kv : KVServer} (hstore : kv.state = r.kv.state)
    (happlied : kv.lastApplied = r.kv.lastApplied) : ReplicaOk a o { r with kv := kv } where
  fold := hstore ▸ h.fold
  applied_le := happlied ▸ h.applied_le
  restored := happlied ▸ h.restored
  base_le := h.base_le
  base_applied := h.base_applied
  base_included := h.base_included
  starting hs := ⟨(h.starting hs).1, hstore ▸ (h.starting hs).2.1, (h.starting hs).2.2⟩
  behind := h.behind
  command := h.command
  snapshots := h.snapshots
  received := h.received
  compacting := h.compacting

theorem compacted (h : ReplicaOk a o r) {k : Nat} (hk : r.loop = .compacting k)
    {included : Nat} (hle : o.lastIncludedIndex ≤ included) (sn : Snapshot Op (Option Store)) :
    ReplicaOk a { o with lastIncludedIndex := included, snapshot := sn }
      { r with loop := .idle } := by
  have hrunning : r.loop ≠ .starting := by simp [hk]
  have hdone : ReplicaOk a o { r with loop := .idle } := by
    refine h.finish hrunning h.fold h.applied_le h.restored le_rfl ?_ (.inl rfl)
    intro msg hmsg
    rw [hk] at hmsg
    cases hmsg
  exact { hdone with
    base_included := h.base_included.trans hle
    starting := fun hs => by cases hs }

end ReplicaOk

/-! ### Runs in which no command overtakes a snapshot -/

/-- The loop does not take a command while a snapshot waits that lies between the
    replica and the command, and no snapshot is accepted between `Make` and the
    reading of the saved one. -/
def inTurn (s : KVCluster n) : KVAction n → Bool
  | .raft (.sendCommand i) =>
    (s.raft.servers i).applierSend.all fun msg =>
      (s.raft.servers i).snapshotSends.all fun w =>
        !((s.replicas i).reached < w.msg.index && w.msg.index < msg.index)
  | .raft (.deliver k) =>
    match s.raft.packets[k]? with
    | some (.snapshotRequest _ callee args) =>
      match (s.replicas callee).loop with
      | .starting =>
        args.term < (s.raft.servers callee).rf.currentTerm ||
          args.lastIncludedIndex ≤ (s.raft.servers callee).rf.lastIncludedIndex
      | _ => true
    | _ => true
  | _ => true

/-- The guard of the runs in which no command overtakes a snapshot. -/
def InTurn (s : KVCluster n) (act : KVAction n) : Prop := inTurn s act = true

instance (s : KVCluster n) (act : KVAction n) : Decidable (InTurn s act) :=
  inferInstanceAs (Decidable (_ = true))

/-- What a step of Raft does to the replicas. -/
theorem KVCluster.step_raft {s s' : KVCluster n} {act : Action n Op (Option Store)}
    (hst : s.step (.raft act) = some s') :
    s.raft.step act = some s'.raft ∧ (∀ i index data, act ≠ .snapshot i index data) ∧
    ∀ j, (¬ s.raft.concerns act j ∧ s'.replicas j = s.replicas j) ∨
      (∃ msg, s.raft.handed? act = some (j, msg) ∧ (s.replicas j).loop = .idle ∧
        s'.replicas j = { s.replicas j with loop := .received msg }) ∨
      (s.raft.handed? act = none ∧ s.raft.crashed? act = some j ∧
        s'.replicas j = Replica.start) := by
  unfold KVCluster.step at hst
  split at hst
  · cases hst
  · rename_i act' hsnap heq
    obtain rfl := KVAction.raft.inj heq
    simp only [Option.bind_eq_bind, Option.bind_eq_some_iff] at hst
    obtain ⟨raft, hraft, hst⟩ := hst
    have hnot : ∀ i index data, act ≠ .snapshot i index data := hsnap
    split at hst
    · rename_i i msg hhanded
      split at hst
      · rename_i hidle
        obtain rfl := Option.some.inj hst
        refine ⟨hraft, hnot, ?_⟩
        intro j
        by_cases hj : j = i
        · subst hj
          exact .inr (.inl ⟨msg, hhanded, hidle, by simp⟩)
        · refine .inl ⟨?_, by simp [hj]⟩
          rintro (hcrash | ⟨m, hm⟩)
          · cases act <;> simp_all [Cluster.handed?, Cluster.crashed?]
          · rw [hhanded] at hm
            exact hj (Prod.mk.inj (Option.some.inj hm)).1.symm
      · cases hst
    · rename_i i hhanded hcrash
      obtain rfl := Option.some.inj hst
      refine ⟨hraft, hnot, ?_⟩
      intro j
      by_cases hj : j = i
      · subst hj
        exact .inr (.inr ⟨hhanded, hcrash, by simp⟩)
      · refine .inl ⟨?_, by simp [hj]⟩
        simp [Cluster.concerns, hhanded, hcrash, Ne.symm hj]
    · rename_i hhanded hcrash
      obtain rfl := Option.some.inj hst
      exact ⟨hraft, hnot, fun j => .inl ⟨by simp [Cluster.concerns, hhanded, hcrash], rfl⟩⟩
  all_goals
    rename_i heq
    cases heq

/-- The invariant: the cluster is matched by the protocol, snapshots are folds,
    and so are the replicas. -/
def KVInv (s : KVCluster n) : Prop :=
  ∃ a, Refines s.raft a ∧ SnapshotsHave Folded s.raft ∧
    ∀ i, ReplicaOk a (s.raft.servers i).outlet (s.replicas i)

theorem ReplicaOk.raft {s s' : KVCluster n} {a : Abs n Op} {act : Action n Op (Option Store)}
    (href : Refines s.raft a) (hsnaps : SnapshotsHave Folded s.raft) {j : Fin n}
    (h : ReplicaOk a (s.raft.servers j).outlet (s.replicas j))
    (hst : s.step (.raft act) = some s') (hturn : InTurn s (.raft act)) :
    ReplicaOk a (s'.raft.servers j).outlet (s'.replicas j) := by
  obtain ⟨hraft, hnot, hreplicas⟩ := KVCluster.step_raft hst
  have hm := href.moves hraft j
  have hsends := (href.servers j).sends
  generalize (s'.raft.servers j).outlet = o at hm ⊢
  rcases hreplicas j with ⟨hother, heq⟩ | ⟨msg, hhanded, hidle, heq⟩ | ⟨hhanded, hcrash, heq⟩
  · rw [heq]
    cases hm with
    | quiet => exact h
    | applied e hfree hlt he => exact h.applied hfree e.command
    | installed k caller args reply hpacket hterm hnew =>
      refine h.installed ?_ ⟨.snapshot args.data args.lastIncludedTerm args.lastIncludedIndex,
        caller, args, reply⟩ args.data hnew
      intro hstart
      simp only [InTurn, inTurn, hpacket, hstart, Bool.or_eq_true, decide_eq_true_eq] at hturn
      omega
    | sentCommand msg hmsg =>
      exact absurd (.inr ⟨msg, by simp [Cluster.handed?, hmsg]⟩) hother
    | sentSnapshot k waiting hwaiting =>
      exact absurd (.inr ⟨waiting.msg, by simp [Cluster.handed?, hwaiting]⟩) hother
    | compacted index data => exact absurd rfl (hnot j index data)
    | restarted _ hcrash => exact absurd (.inl hcrash) hother
  · rw [heq]
    cases hm with
    | quiet _ hother => exact absurd (.inr ⟨msg, hhanded⟩) hother
    | sentCommand m hmsg =>
      simp only [Cluster.handed?, hmsg, Option.map_some, Option.some.injEq, Prod.mk.injEq,
        true_and] at hhanded
      subst hhanded
      have hall : ∀ w ∈ (s.raft.servers j).snapshotSends,
          w.msg.index ≤ (s.replicas j).reached ∨ m.index ≤ w.msg.index := by
        simpa [InTurn, inTurn, hmsg] using hturn
      refine h.receive_command hidle hmsg (hsends.sending m hmsg).1 ?_
      intro w hw hbetween
      rcases hall w hw with hle | hle <;> omega
    | sentSnapshot k waiting hwaiting =>
      simp only [Cluster.handed?, hwaiting, Option.map_some, Option.some.injEq, Prod.mk.injEq,
        true_and] at hhanded
      subst hhanded
      have hmem := List.mem_of_getElem? hwaiting
      exact h.receive_snapshot hidle hwaiting (hsends.waiting waiting hmem).1
        (hsnaps.waiting j waiting hmem)
    | restarted _ hcrash =>
      cases act <;> simp_all [Cluster.handed?, Cluster.crashed?]
    | _ => cases hhanded
  · rw [heq]
    cases hm with
    | quiet _ hother => exact absurd (.inl hcrash) hother
    | restarted => exact .start a _ rfl rfl rfl rfl
    | _ => cases hcrash

/-- `maybeSnapshot` calls `Snapshot`: the replica is the fold of what is cut off. -/
theorem KVInv.compact {s : KVCluster n} (h : KVInv s) {i : Fin n} {k : Nat}
    {raft : Cluster n Op (Option Store)} (hloop : (s.replicas i).loop = .compacting k)
    (hraft : s.raft.step (.snapshot i k (s.replicas i).kv.encode) = some raft) :
    KVInv { raft := raft
            replicas := Function.update s.replicas i { s.replicas i with loop := .idle } } := by
  obtain ⟨a, href, hsnaps, hreplicas⟩ := h
  obtain ⟨a', hsteps, href'⟩ := href.step hraft
  have hext := (href.inv.steps hsteps).1
  obtain ⟨rfl, -⟩ := (hreplicas i).compacting k hloop
  refine ⟨a', href', hsnaps.step href hraft ?_, ?_⟩
  · intro j index data heq hcommit
    obtain ⟨rfl, rfl, rfl⟩ := Action.snapshot.inj heq
    obtain ⟨X, hX, hlen, hstore⟩ := (hreplicas i).fold
    have htake : Committed a ((s.raft.servers i).rf.logical.take (s.replicas i).reached) :=
      ⟨_, (href.committedBy i).of_isPrefix (List.take_prefix_take_left hcommit)⟩
    have heqX : X = (s.raft.servers i).rf.logical.take (s.replicas i).reached := by
      refine Committed.eq_of_length href.inv hX htake ?_
      rw [List.length_take, min_eq_left (hcommit.trans (href.commitIndex_le i)), hlen]
    refine .inr ?_
    dsimp only
    rw [KVServer.encode, hstore, heqX]
  · intro j
    have hm := href.moves hraft j
    generalize (raft.servers j).outlet = o at hm ⊢
    by_cases hj : j = i
    · subst hj
      simp only [Function.update_self]
      cases hm with
      | quiet =>
        exact ((hreplicas j).compacted hloop le_rfl _).mono hext
      | compacted _ _ hnew =>
        exact ((hreplicas j).compacted hloop hnew.le _).mono hext
      | restarted _ hcrash => cases hcrash
    · simp only [Function.update_of_ne hj]
      cases hm with
      | quiet => exact (hreplicas j).mono hext
      | compacted => exact absurd rfl hj
      | restarted _ hcrash => cases hcrash

theorem KVInv.step {s s' : KVCluster n} {act : KVAction n} (h : KVInv s) (hturn : InTurn s act)
    (hst : s.step act = some s') : KVInv s' := by
  have hinv := h
  obtain ⟨a, href, hsnaps, hreplicas⟩ := h
  -- a step that moves only replica `i`
  have hset : ∀ {i r}, ReplicaOk a (s.raft.servers i).outlet r → KVInv (s.setReplica i r) := by
    intro i r hr
    refine ⟨a, href, hsnaps, ?_⟩
    intro j
    by_cases hj : j = i
    · subst hj
      simpa [KVCluster.setReplica] using hr
    · simpa [KVCluster.setReplica, hj] using hreplicas j
  cases act with
  | raft act =>
    obtain ⟨hraft, hnot, -⟩ := KVCluster.step_raft hst
    obtain ⟨a', hsteps, href'⟩ := href.step hraft
    have hext := (href.inv.steps hsteps).1
    refine ⟨a', href', hsnaps.step href hraft ?_, ?_⟩
    · exact fun i index data heq => absurd heq (hnot i index data)
    · exact fun j => ((hreplicas j).raft href hsnaps hst hturn).mono hext
  | restore i =>
    simp only [KVCluster.step] at hst
    split at hst
    · rename_i hstart
      obtain rfl := Option.some.inj hst
      have hwf := (href.servers i).wf
      have hcovers : (s.raft.servers i).rf.persister.snapshot.covers <+:
          (s.raft.servers i).rf.logical.take (s.raft.servers i).rf.commitIndex := by
        rw [← hwf.take_logical]
        exact List.take_prefix_take_left
          ((href.servers i).included.trans (href.servers i).applied)
      exact hset ((hreplicas i).restore hstart (hsnaps.saved i)
        ⟨_, (href.committedBy i).of_isPrefix hcovers⟩ hwf.covers_length)
    · cases hst
  | process i oversized =>
    simp only [KVCluster.step, Option.bind_eq_bind, Option.bind_eq_some_iff] at hst
    obtain ⟨r, hr, hst⟩ := hst
    obtain rfl := Option.some.inj hst
    exact hset ((hreplicas i).process href.inv hr)
  | wait i index ch =>
    obtain rfl := Option.some.inj hst
    cases ch with
    | none => exact hset ((hreplicas i).congr rfl rfl)
    | some ch => exact hset ((hreplicas i).congr rfl rfl)
  | compact i =>
    simp only [KVCluster.step] at hst
    split at hst
    · rename_i k hloop
      simp only [Option.bind_eq_bind, Option.bind_eq_some_iff] at hst
      obtain ⟨raft, hraft, hst⟩ := hst
      obtain rfl := Option.some.inj hst
      exact hinv.compact hloop hraft
    · cases hst

theorem KVInv.of_reachable {s : KVCluster n} (hs : (kvCluster n).Reachable InTurn s) :
    KVInv s := by
  apply hs.invariant
  · refine ⟨_, Refines.initial, ⟨fun i => .inl ⟨rfl, rfl⟩, ?_, ?_⟩, ?_⟩
    · intro caller callee args hp
      cases hp
    · intro i w hw
      cases hw
    · exact fun i => .start _ _ rfl rfl rfl rfl
  · exact fun s act t _ ih hturn hst => ih.step hturn hst

/-- The service calls `Snapshot` for an index it was sent, so the call is never
    refused and does not panic. -/
theorem compact_enabled {s : KVCluster n} (hs : (kvCluster n).Reachable InTurn s) {i : Fin n}
    {k : Nat} (hloop : (s.replicas i).loop = .compacting k) :
    ∃ s', s.step (.compact i) = some s' := by
  obtain ⟨a, href, -, hreplicas⟩ := KVInv.of_reachable hs
  have hsent : k ∈ (s.raft.servers i).sent.map ApplyMsg.index :=
    ((hreplicas i).compacting k hloop).2
  obtain ⟨rf, hrf⟩ := (href.servers i).wf.snapshot_total (href.commitIndex_le i) k
    (s.replicas i).kv.encode
  have hraft : s.raft.step (.snapshot i k (s.replicas i).kv.encode) =
      some (s.raft.setServer i { s.raft.servers i with rf := rf }) := by
    simp only [Cluster.step]
    rw [if_pos hsent, hrf]
    rfl
  simp [KVCluster.step, hloop, hraft]

/-- Finitely many demands that committed prefixes meet, and keep meeting when they
    grow, are met by one committed prefix. -/
theorem exists_agreed {β : Type} {a : Abs n Op} (hinv : AbsInv a)
    (demand : β → List (LogEntry Op) → Prop)
    (hgrow : ∀ b X Y, X <+: Y → demand b X → demand b Y) (bs : List β)
    (hmet : ∀ b ∈ bs, ∃ X, Committed a X ∧ demand b X) :
    ∃ L, Committed a L ∧ ∀ b ∈ bs, demand b L := by
  induction bs with
  | nil => exact ⟨[], ⟨0, .inl rfl⟩, by simp⟩
  | cons b bs ih =>
    obtain ⟨L, ⟨U, hL⟩, hall⟩ := ih fun b hb => hmet b (List.mem_cons_of_mem _ hb)
    obtain ⟨X, ⟨V, hX⟩, hb⟩ := hmet b (List.mem_cons_self ..)
    rcases hinv.committed_comparable hL hX with hpre | hpre
    · refine ⟨X, ⟨V, hX⟩, ?_⟩
      intro b' hb'
      rcases List.mem_cons.mp hb' with rfl | hb'
      · exact hb
      · exact hgrow b' L X hpre (hall b' hb')
    · refine ⟨L, ⟨U, hL⟩, ?_⟩
      intro b' hb'
      rcases List.mem_cons.mp hb' with rfl | hb'
      · exact hgrow b' X L hpre hb
      · exact hall b' hb'

/-- In a run in which no command overtakes a snapshot there is one log, which the
    commands on all channels come from, and every replica is the fold of it up to
    the highest index the replica has applied or restored.  Replicas at the same
    index are therefore equal. -/
theorem replica_is_fold {s : KVCluster n} (hs : (kvCluster n).Reachable InTurn s) :
    ∃ log : List Op,
      (∀ i op k, (i, ApplyMsg.command op k) ∈ s.raft.emitted →
        0 < k ∧ log[k - 1]? = some op) ∧
      (∀ i, (s.replicas i).reached ≤ log.length ∧
        (s.replicas i).kv.state = Store.applyAll (log.take (s.replicas i).reached)) ∧
      ∀ i j, (s.replicas i).reached = (s.replicas j).reached →
        (s.replicas i).kv.state = (s.replicas j).kv.state := by
  obtain ⟨a, href, -, hreplicas⟩ := KVInv.of_reachable hs
  let demand : Fin n ⊕ (Fin n × ApplyMsg Op (Option Store)) → List (LogEntry Op) → Prop
    | .inl i, L => (s.replicas i).reached ≤ L.length ∧ (s.replicas i).kv.state =
        Store.applyAll ((L.take (s.replicas i).reached).map LogEntry.command)
    | .inr (_, .command op k), L => 0 < k ∧ (L.map LogEntry.command)[k - 1]? = some op
    | .inr (_, .snapshot _ _ _), _ => True
  obtain ⟨L, -, hL⟩ := exists_agreed href.inv demand
    (by
      rintro (i | ⟨i, op | sn⟩) X Y ⟨Z, rfl⟩ hX
      · refine ⟨hX.1.trans (by simp), ?_⟩
        rw [List.take_append_of_le_length hX.1]
        exact hX.2
      · refine ⟨hX.1, ?_⟩
        rw [List.map_append, List.getElem?_append_left (List.getElem?_eq_some_iff.mp hX.2).1]
        exact hX.2
      · exact trivial)
    ((List.finRange n).map Sum.inl ++ s.raft.emitted.map Sum.inr)
    (by
      intro b hb
      rcases List.mem_append.mp hb with hb | hb
      · obtain ⟨i, -, rfl⟩ := List.mem_map.mp hb
        obtain ⟨X, hX, hlen, hstore⟩ := (hreplicas i).fold
        refine ⟨X, hX, hlen.ge, ?_⟩
        rw [← hlen, List.take_length]
        exact hstore
      · obtain ⟨⟨i, msg⟩, hm, rfl⟩ := List.mem_map.mp hb
        have hok := href.emitted _ hm
        cases msg with
        | command op k =>
          obtain ⟨X, e, hX, hk, he, rfl⟩ := hok
          exact ⟨X, hX, hk, by simp [he]⟩
        | snapshot => exact ⟨[], ⟨0, .inl rfl⟩, trivial⟩)
  have hstores : ∀ i, (s.replicas i).reached ≤ L.length ∧ (s.replicas i).kv.state =
      Store.applyAll ((L.take (s.replicas i).reached).map LogEntry.command) :=
    fun i => hL (.inl i) (List.mem_append_left _ (List.mem_map_of_mem (List.mem_finRange i)))
  refine ⟨L.map LogEntry.command, ?_, ?_, ?_⟩
  · intro i op k hmsg
    exact hL (.inr (i, .command op k)) (List.mem_append_right _ (List.mem_map_of_mem hmsg))
  · intro i
    rw [List.length_map, ← List.map_take]
    exact hstores i
  · intro i j heq
    rw [(hstores i).2, (hstores j).2, heq]

/-! ### A replica that loses entries -/

/-- `Put(0, 1)` and `Put(1, 1)` by two clients. -/
def firstPut : Op := { type := .put, key := [0], value := [1], clientId := 1, seq := 1 }

def secondPut : Op := { type := .put, key := [1], value := [1], clientId := 2, seq := 1 }

/-- Server 0 commits `firstPut`, compacts it and sends the snapshot to server 2,
    which then applies `secondPut` before it is handed the snapshot. -/
def overtakeSnapshot : List (KVAction 3) :=
  [.restore 0, .restore 1, .restore 2, .raft (.electionTimeout 0), .raft (.deliver 0),
    .raft (.deliver 2), .raft (.start 0 firstPut), .raft (.replicate 0 1), .raft (.deliver 3),
    .raft (.deliver 4), .raft (.apply 0), .raft (.sendCommand 0), .process 0 true, .compact 0,
    .raft (.replicate 0 2), .raft (.deliver 5), .raft (.start 0 secondPut),
    .raft (.replicate 0 2), .raft (.deliver 6), .raft (.deliver 7), .raft (.replicate 0 1),
    .raft (.deliver 8), .raft (.deliver 9), .raft (.apply 0), .raft (.sendCommand 0),
    .process 0 false, .raft (.replicate 0 2), .raft (.deliver 10), .raft (.apply 2),
    .raft (.sendCommand 2), .process 2 false, .raft (.sendSnapshot 2 0), .process 2 false]

/-- The same up to the last messages to server 2, which now come in turn. -/
def waitForSnapshot : List (KVAction 3) :=
  overtakeSnapshot.take 29 ++
    ([.raft (.sendSnapshot 2 0), .process 2 false, .raft (.sendCommand 2), .process 2 false] :
      List (KVAction 3))

/-- Two replicas at index 2 that differ: server 2 has lost `firstPut` for good. -/
theorem replicas_diverge :
    ∃ s : KVCluster 3, (kvCluster 3).Reachable System.anyStep s ∧
      (s.replicas 0).reached = 2 ∧ (s.replicas 2).reached = 2 ∧
      (s.raft.servers 2).snapshotSends.length = 0 ∧
      (s.replicas 0).kv.state.data firstPut.key = some [1] ∧
      (s.replicas 2).kv.state.data firstPut.key = none := by
  obtain ⟨s, hs, hP⟩ := (kvCluster 3).exists_reachable_of_run System.anyStep overtakeSnapshot
    (fun s => decide ((s.replicas 0).reached = 2 ∧ (s.replicas 2).reached = 2 ∧
      (s.raft.servers 2).snapshotSends.length = 0 ∧
      (s.replicas 0).kv.state.data firstPut.key = some [1] ∧
      (s.replicas 2).kv.state.data firstPut.key = none))
    (by decide +kernel)
  exact ⟨s, hs, of_decide_eq_true hP⟩

/-- Handed over in turn, the snapshot and the command bring server 2 to the state
    of server 0. -/
theorem replica_is_fold_waitForSnapshot :
    ∃ s : KVCluster 3, (kvCluster 3).Reachable InTurn s ∧
      (s.replicas 0).reached = 2 ∧ (s.replicas 2).reached = 2 ∧
      (s.replicas 2).kv.state.data firstPut.key = some [1] ∧
      (s.replicas 0).kv.state = (s.replicas 2).kv.state := by
  obtain ⟨s, hs, hP⟩ := (kvCluster 3).exists_reachable_of_run InTurn waitForSnapshot
    (fun s => decide ((s.replicas 0).reached = 2 ∧ (s.replicas 2).reached = 2 ∧
      (s.replicas 2).kv.state.data firstPut.key = some [1]))
    (by decide +kernel)
  obtain ⟨h0, h2, hdata⟩ := of_decide_eq_true hP
  obtain ⟨log, -, -, hequal⟩ := replica_is_fold hs
  exact ⟨s, hs, h0, h2, hdata, hequal 0 2 (h0.trans h2.symm)⟩

end RaftLabs.KV
