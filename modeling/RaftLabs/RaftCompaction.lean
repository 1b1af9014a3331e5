import RaftLabs.RaftSafety

/-!
# Compaction is transparent, and a crash loses nothing

A server that has thrown away the beginning of its log is compared with the
server it would be with the same entries and no snapshot.  `Snapshot` changes
nothing that can be seen; `AppendEntries` and `InstallSnapshot` do to the
logical log and to the commit index what the plain `AppendEntries` does on the
uncompacted server.  The clamped branches look at terms the window does not
hold any more, so this is true only of requests that some leader has sent and
of servers whose snapshot is committed.

The second part is about the persister: it always holds what `Make` needs.
-/

namespace RaftLabs

open ReplicatedLog (lastTerm Absorbs Sound Extends)

variable {n : Nat} {C D : Type}

/-! ### The uncompacted server -/

/-- `AppendEntries` on a log that starts at index 1 and its commit index, for a
    request that is not refused because of its term. -/
def AppendEntriesArgs.onView (args : AppendEntriesArgs n C) (v : List (LogEntry C) × Nat) :
    List (LogEntry C) × Nat :=
  if args.prevLogIndex ≤ v.1.length ∧ termOf v.1 args.prevLogIndex = args.prevLogTerm then
    let X := spliceAt v.1 args.prevLogIndex args.entries
    (X, if v.2 < args.leaderCommit then min args.leaderCommit X.length else v.2)
  else v

namespace Raft

/-- The logical log and the commit index. -/
def view (rf : Raft n C D) : List (LogEntry C) × Nat := (rf.logical, rf.commitIndex)

@[simp] theorem followLeader_view (rf : Raft n C D) (T : Nat) :
    (rf.followLeader T).view = rf.view := by
  simp [view]

variable {rf : Raft n C D}

theorem Wf.appendChecked_view (h : rf.Wf) {args : AppendEntriesArgs n C} (ci : Option Nat)
    (hp : rf.lastIncludedIndex ≤ args.prevLogIndex) :
    (rf.appendChecked args ci).map (fun r => r.1.view) = some (args.onView rf.view) := by
  by_cases hok : args.prevLogIndex ≤ rf.logical.length ∧
      termOf rf.logical args.prevLogIndex = args.prevLogTerm
  · obtain ⟨l, reply, hwf, hlog, -, heq⟩ := h.appendChecked_accepts ci hp hok.1 hok.2
    have hlast : ({ rf with log := l } : Raft n C D).persist.lastLogIndex =
        (spliceAt rf.logical args.prevLogIndex args.entries).length := by
      rw [← hlog]
      exact hwf.lastLogIndex_eq
    have hlogical : ({ rf with log := l } : Raft n C D).persist.logical =
        spliceAt rf.logical args.prevLogIndex args.entries := hlog
    have hview : args.onView rf.view = (spliceAt rf.logical args.prevLogIndex args.entries,
        if rf.commitIndex < args.leaderCommit then
          min args.leaderCommit (spliceAt rf.logical args.prevLogIndex args.entries).length
        else rf.commitIndex) := if_pos hok
    rw [heq, hview]
    simp only [Option.map_some, Option.some.injEq]
    by_cases hc : rf.commitIndex < args.leaderCommit
    · have hc' : ({ rf with log := l } : Raft n C D).persist.commitIndex < args.leaderCommit := hc
      rw [if_pos hc, if_pos hc', ← hlast]
      exact Prod.ext hlogical rfl
    · have hc' : ¬ ({ rf with log := l } : Raft n C D).persist.commitIndex < args.leaderCommit :=
        hc
      rw [if_neg hc, if_neg hc']
      exact Prod.ext hlogical rfl
  · obtain ⟨reply, heq, -⟩ := h.appendChecked_rejects ci hp hok
    have hview : args.onView rf.view = rf.view := if_neg hok
    rw [heq, hview]
    rfl

theorem appendEntries_view_stale {args : AppendEntriesArgs n C}
    (hlt : args.term < rf.currentTerm) :
    (rf.appendEntries args).map (fun r => r.1.view) = some rf.view := by
  unfold appendEntries
  rw [if_pos hlt]
  rfl

/-- A request that starts at the snapshot or after it. -/
theorem Wf.appendEntries_view (h : rf.Wf) {args : AppendEntriesArgs n C}
    (hle : rf.currentTerm ≤ args.term) (hp : rf.lastIncludedIndex ≤ args.prevLogIndex) :
    (rf.appendEntries args).map (fun r => r.1.view) = some (args.onView rf.view) := by
  unfold appendEntries
  rw [if_neg (Nat.not_lt.mpr hle)]
  dsimp only
  rw [followLeader_lastIncludedIndex, if_neg (Nat.not_lt.mpr hp),
    (h.followLeader args.term).appendChecked_view none (by simpa using hp), followLeader_view]

/-- A request that starts inside the snapshot. -/
theorem Wf.appendEntries_view_clamped (h : rf.Wf) {args : AppendEntriesArgs n C}
    (hle : rf.currentTerm ≤ args.term) (hp : args.prevLogIndex < rf.lastIncludedIndex) :
    (rf.appendEntries args).map (fun r => r.1.view) = some (
      if args.prevLogIndex + args.entries.length ≤ rf.lastIncludedIndex then rf.view
      else ({ args with
        prevLogIndex := rf.lastIncludedIndex
        prevLogTerm := rf.lastIncludedTerm
        entries := args.entries.drop (rf.lastIncludedIndex - args.prevLogIndex) } :
          AppendEntriesArgs n C).onView rf.view) := by
  unfold appendEntries
  rw [if_neg (Nat.not_lt.mpr hle)]
  dsimp only
  rw [followLeader_lastIncludedIndex, if_pos hp]
  split
  · simp
  · rw [followLeader_lastIncludedTerm,
      (h.followLeader args.term).appendChecked_view _ (by simp), followLeader_view]

variable [Inhabited C]

/-- The server with the same entries that never took or got a snapshot. -/
def uncompacted (rf : Raft n C D) : Raft n C D :=
  ({ rf with
    log := dummy 0 :: rf.logical
    lastIncludedIndex := 0
    lastIncludedTerm := 0 } : Raft n C D).save { rf.persister.snapshot with covers := [] }

theorem uncompacted_wf (rf : Raft n C D) : rf.uncompacted.Wf := ⟨⟨_, _, rfl, rfl⟩, rfl, rfl⟩

@[simp] theorem uncompacted_view (rf : Raft n C D) : rf.uncompacted.view = rf.view := rfl

theorem uncompacted_appendEntries_view {args : AppendEntriesArgs n C}
    (hle : rf.currentTerm ≤ args.term) :
    (rf.uncompacted.appendEntries args).map (fun r => r.1.view) =
      some (args.onView rf.view) := by
  rw [← uncompacted_view rf]
  exact rf.uncompacted_wf.appendEntries_view hle (Nat.zero_le _)

end Raft

/-! ### What a request of a leader does -/

section Effect

variable {a : Abs n C} {i : Fin n} {sv : Server n C D}

/-- Acceptance determines the log. -/
theorem absorbs_unique {X F Y Z : List (LogEntry C)} (hY : Absorbs X F Y) (hZ : Absorbs X F Z) :
    Y = Z := by
  rcases hY with ⟨hpre, rfl⟩ | ⟨hno, rfl⟩
  · rcases hZ with ⟨-, rfl⟩ | ⟨hno, -⟩
    · rfl
    · exact absurd hpre hno
  · rcases hZ with ⟨hpre, -⟩ | ⟨-, rfl⟩
    · exact absurd hpre hno
    · rfl

variable [Inhabited C]

/-- A request for the end of an offered prefix, on a log that agrees with the
    prefix where the request starts. -/
theorem ServerOk.onView_absorbs (h : ServerOk a i sv) (hinv : AbsInv a) {T c : Nat}
    {F : List (LogEntry C)} (hoffer : a.offer T F c) (args : AppendEntriesArgs n C)
    (hprevX : args.prevLogIndex ≤ sv.rf.logical.length)
    (htake : sv.rf.logical.take args.prevLogIndex = F.take args.prevLogIndex)
    (hterm : args.prevLogTerm = termOf F args.prevLogIndex)
    (hentries : args.entries = F.drop args.prevLogIndex) :
    ∃ X, Absorbs sv.rf.logical F X ∧ args.onView sv.rf.view =
      (X, if sv.rf.commitIndex < args.leaderCommit then min args.leaderCommit X.length
        else sv.rf.commitIndex) := by
  have hX : Sound LogEntry.term a sv.rf.logical := by
    have hlog := (hinv.log_entries i).1
    rw [h.peer] at hlog
    exact hlog
  have hF : Sound LogEntry.term a F :=
    (hinv.leaderLog_entries T).1.of_isPrefix (hinv.offer_ok T F c hoffer).2.1
  refine ⟨_, ?_, if_pos ⟨hprevX, ?_⟩⟩
  · rw [hentries]
    exact spliceAt_absorbs hprevX htake fun k x y hx hy hxy => hX.matching hF hx hy hxy
  · change termOf sv.rf.logical args.prevLogIndex = args.prevLogTerm
    rw [hterm, termOf, htake]
    rfl

/-- `AppendEntries` does the same to a server and to its uncompacted copy. -/
theorem ServerOk.appendEntries_view_eq (h : ServerOk a i sv) (hinv : AbsInv a)
    {args : AppendEntriesArgs n C} (hargs : AppendOk a args) :
    ∃ v, (sv.rf.appendEntries args).map (fun r => r.1.view) = some v ∧
      (sv.rf.uncompacted.appendEntries args).map (fun r => r.1.view) = some v := by
  rcases Nat.lt_or_ge args.term sv.rf.currentTerm with hstale | hle
  · have hstale' : args.term < sv.rf.uncompacted.currentTerm := hstale
    exact ⟨sv.rf.view, Raft.appendEntries_view_stale hstale,
      Raft.appendEntries_view_stale hstale'⟩
  refine ⟨args.onView sv.rf.view, ?_, Raft.uncompacted_appendEntries_view hle⟩
  rcases Nat.lt_or_ge args.prevLogIndex sv.rf.lastIncludedIndex with hin | hout
  swap
  · exact h.wf.appendEntries_view hle hout
  rw [h.wf.appendEntries_view_clamped hle hin, Option.some.injEq]
  obtain ⟨F, hoffer, hprev, hentries, hterm⟩ := hargs
  have hsum : args.prevLogIndex + args.entries.length = F.length := by
    rw [hentries, List.length_drop]
    omega
  have hprevX : args.prevLogIndex ≤ sv.rf.logical.length := hin.le.trans h.wf.le_length
  rw [hsum]
  split
  · -- everything offered is in the snapshot: the plain request changes nothing either
    rename_i hcovered
    have hpre := h.isPrefix_of_le_included hinv hle hoffer hcovered
    have htake : sv.rf.logical.take args.prevLogIndex = F.take args.prevLogIndex :=
      (ReplicatedLog.take_eq_of_isPrefix hpre hprev).symm
    obtain ⟨X, hX, hview⟩ := h.onView_absorbs hinv hoffer args hprevX htake hterm hentries
    obtain rfl := absorbs_unique hX (.inl ⟨hpre, rfl⟩)
    have hcommit : args.leaderCommit ≤ sv.rf.commitIndex :=
      (hinv.offer_ok _ _ _ hoffer).2.2.1.trans
        (hcovered.trans (h.included.trans h.applied))
    rw [hview, if_neg (Nat.not_lt.mpr hcommit)]
    rfl
  · -- both requests are acceptances of the whole offer
    rename_i hbeyond
    have hincl : sv.rf.lastIncludedIndex ≤ F.length := Nat.le_of_not_le hbeyond
    have htake := h.take_included hinv hle hoffer hincl
    have htake' : sv.rf.logical.take args.prevLogIndex = F.take args.prevLogIndex := by
      have hcut := congrArg (List.take args.prevLogIndex) htake
      rwa [List.take_take, List.take_take, min_eq_left hin.le] at hcut
    have hlastTerm : sv.rf.lastIncludedTerm = termOf F sv.rf.lastIncludedIndex := by
      rw [← h.wf.covers_term, ← h.wf.take_logical, htake]
      rfl
    have hrest : args.entries.drop (sv.rf.lastIncludedIndex - args.prevLogIndex) =
        F.drop sv.rf.lastIncludedIndex := by
      rw [hentries, List.drop_drop, Nat.add_sub_of_le hin.le]
    obtain ⟨X, hX, hview⟩ := h.onView_absorbs hinv hoffer args hprevX htake' hterm hentries
    obtain ⟨Y, hY, hclamped⟩ := h.onView_absorbs hinv hoffer
      { args with
        prevLogIndex := sv.rf.lastIncludedIndex
        prevLogTerm := sv.rf.lastIncludedTerm
        entries := args.entries.drop (sv.rf.lastIncludedIndex - args.prevLogIndex) }
      h.wf.le_length htake hlastTerm hrest
    obtain rfl := absorbs_unique hX hY
    rw [hview, hclamped]

/-- The request without compaction that a snapshot stands for. -/
def InstallSnapshotArgs.asAppend (args : InstallSnapshotArgs n C D)
    (entries : List (LogEntry C)) : AppendEntriesArgs n C where
  term := args.term
  leaderId := args.leaderId
  prevLogIndex := 0
  prevLogTerm := 0
  entries := entries
  leaderCommit := args.lastIncludedIndex

/-- `InstallSnapshot` does to a server what the request for the entries the
    snapshot covers does to its uncompacted copy. -/
theorem ServerOk.installSnapshot_view_eq (h : ServerOk a i sv) (hinv : AbsInv a)
    {args : InstallSnapshotArgs n C D} (hargs : SnapshotOk a args) :
    ∃ v, (sv.rf.installSnapshot args).map (fun r => r.1.view) = some v ∧
      (sv.rf.uncompacted.appendEntries (args.asAppend args.data.covers)).map
        (fun r => r.1.view) = some v := by
  obtain ⟨⟨rf', reply, msg⟩, hst⟩ := h.wf.installSnapshot_total args
  refine ⟨rf'.view, by rw [hst]; rfl, ?_⟩
  obtain ⟨X, hX, hview⟩ := h.onView_absorbs hinv hargs.1 (args.asAppend args.data.covers)
    (Nat.zero_le _) (by simp [InstallSnapshotArgs.asAppend])
    (by simp [InstallSnapshotArgs.asAppend]) (by simp [InstallSnapshotArgs.asAppend])
  have hlen : args.lastIncludedIndex ≤ X.length := hargs.2.1 ▸ hX.isPrefix.length_le
  -- the commit bound lies within the accepted log
  have hplain : (args.asAppend args.data.covers).onView sv.rf.view =
      (X, max sv.rf.commitIndex args.lastIncludedIndex) := by
    have hbound : (args.asAppend args.data.covers).leaderCommit = args.lastIncludedIndex := rfl
    rw [hview, hbound]
    split
    · rename_i hlt
      rw [min_eq_left hlen, max_eq_right hlt.le]
    · rename_i hge
      rw [max_eq_left (Nat.le_of_not_lt hge)]
  rcases h.wf.installSnapshot_cases hst with ⟨hlt, rfl, -, -⟩ | ⟨hle, hold, rfl, -⟩ |
    ⟨hle, -, -, tail, hcase, rfl⟩
  · have hlt' : (args.asAppend args.data.covers).term < sv.rf.uncompacted.currentTerm := hlt
    exact Raft.appendEntries_view_stale hlt'
  · have hle' : sv.rf.currentTerm ≤ (args.asAppend args.data.covers).term := hle
    obtain rfl := absorbs_unique hX
      (.inl ⟨h.snapshot_isPrefix hinv hargs hle hold, rfl⟩)
    rw [Raft.uncompacted_appendEntries_view hle', hplain, Raft.followLeader_view,
      max_eq_left (hold.trans (h.included.trans h.applied))]
    rfl
  · have hle' : sv.rf.currentTerm ≤ (args.asAppend args.data.covers).term := hle
    obtain rfl := absorbs_unique hX (h.install_absorbs hinv hargs hcase)
    rw [Raft.uncompacted_appendEntries_view hle', hplain]
    rfl

end Effect

/-- What a leader puts on the wire is backed by the history from then on: with it
    on record the cluster is matched as before. -/
theorem Refines.sent [Inhabited C] {c : Cluster n C D} {a : Abs n C} (h : Refines c a)
    {l server : Fin n} {request : Request n C D}
    (hst : (c.servers l).rf.replicateTo server (c.servers l).rf.currentTerm =
      some (some request)) :
    ∃ a', AbsSteps a a' ∧ Refines c a' ∧
      match request with
      | .appendEntries args => AppendOk a' args
      | .installSnapshot args => SnapshotOk a' args ∧
          args.data.covers = (c.servers l).rf.logical.take args.lastIncludedIndex := by
  have hback : ∀ p : Packet n C D, Answer a l (c.servers l) [p] [] →
      ∃ a', AbsSteps a a' ∧ Refines c a' ∧ PacketOk a' p := by
    intro p hans
    obtain ⟨a', hsteps, href⟩ := h.answer hans
    rw [Function.update_eq_self] at href
    refine ⟨a', hsteps, ⟨href.inv, href.servers, ?_, ?_⟩, href.packets p (by simp)⟩
    · exact fun q hq => href.packets q (List.mem_append_left _ hq)
    · exact fun m hm => href.emitted m (List.mem_append_left _ hm)
  have hok := h.servers l
  rcases hok.wf.replicateTo_cases hst with hnone | ⟨hrole, -, hreq⟩ | ⟨hrole, -, hprev, hreq⟩
  · cases hnone
  · obtain rfl := Option.some.inj hreq
    obtain ⟨a', hsteps, href, hp⟩ := hback (.snapshotRequest l server _)
      (hok.replicateSnapshot h.inv hrole)
    exact ⟨a', hsteps, href, hp, hok.wf.take_logical.symm⟩
  · obtain rfl := Option.some.inj hreq
    obtain ⟨a', hsteps, href, hp⟩ := hback (.appendRequest l server _)
      (hok.replicateAppend h.inv hrole hprev)
    exact ⟨a', hsteps, href, hp⟩

/-! ### Compaction is transparent -/

section Transparent

variable [Inhabited C] [Inhabited D] {c c' : Cluster n C D}

/-- `Snapshot` leaves the logical log, the commit index, the term and the vote as
    they are.  A request that the leader `l` makes at one moment may arrive at
    any later one: `InstallSnapshot` then has the effect of the request for the
    entries `1..k` of the leader's logical log on the uncompacted receiver, and
    `AppendEntries` the effect it has on the uncompacted receiver itself. -/
theorem compaction_transparent (hc : (cluster n C D).Reachable System.anyStep c)
    (hrun : (cluster n C D).Reaches System.anyStep c c') :
    (∀ i index data, ∃ rf', (c.servers i).rf.snapshot index data = some rf' ∧
      rf'.logical = (c.servers i).rf.logical ∧
      rf'.commitIndex = (c.servers i).rf.commitIndex ∧
      rf'.currentTerm = (c.servers i).rf.currentTerm ∧
      rf'.votedFor = (c.servers i).rf.votedFor) ∧
    (∀ l server args,
      (c.servers l).rf.replicateTo server (c.servers l).rf.currentTerm =
        some (some (.installSnapshot args)) →
      ∃ v, ((c'.servers server).rf.installSnapshot args).map (fun r => r.1.view) = some v ∧
        ((c'.servers server).rf.uncompacted.appendEntries
          (args.asAppend ((c.servers l).rf.logical.take args.lastIncludedIndex))).map
            (fun r => r.1.view) = some v) ∧
    ∀ l server args,
      (c.servers l).rf.replicateTo server (c.servers l).rf.currentTerm =
        some (some (.appendEntries args)) →
      ∃ v, ((c'.servers server).rf.appendEntries args).map (fun r => r.1.view) = some v ∧
        ((c'.servers server).rf.uncompacted.appendEntries args).map
          (fun r => r.1.view) = some v := by
  obtain ⟨a, ha⟩ := exists_refines hc
  refine ⟨?_, ?_, ?_⟩
  · intro i index data
    obtain ⟨rf', hst⟩ := (ha.servers i).wf.snapshot_total (ha.commitIndex_le i) index data
    refine ⟨rf', hst, ?_⟩
    rcases (ha.servers i).wf.snapshot_cases hst with rfl | ⟨-, -, -, -, hlogical, rfl⟩
    · exact ⟨rfl, rfl, rfl, rfl⟩
    · exact ⟨hlogical, rfl, rfl, rfl⟩
  · intro l server args hst
    obtain ⟨a₁, -, ha₁, hargs, hcovers⟩ := ha.sent hst
    obtain ⟨a', hsteps', ha'⟩ := ha₁.run hrun
    have hext := (ha₁.inv.steps hsteps').1
    rw [← hcovers]
    exact (ha'.servers server).installSnapshot_view_eq ha'.inv
      ⟨hext.offer_mono _ _ _ hargs.1, hargs.2⟩
  · intro l server args hst
    obtain ⟨a₁, -, ha₁, F, hoffer, hrest⟩ := ha.sent hst
    obtain ⟨a', hsteps', ha'⟩ := ha₁.run hrun
    have hext := (ha₁.inv.steps hsteps').1
    exact (ha'.servers server).appendEntries_view_eq ha'.inv
      ⟨F, hext.offer_mono _ _ _ hoffer, hrest⟩

/-- Server 0 is about to send server 2 a snapshot that ends at index 1. -/
def sendsSnapshotOne (c : Cluster 3 Nat Nat) : Bool :=
  match (c.servers 0).rf.replicateTo 2 (c.servers 0).rf.currentTerm with
  | some (some (.installSnapshot args)) => decide (args.lastIncludedIndex = 1)
  | _ => false

/-- The first leader has compacted its log, and server 2, which has no entry yet,
    is about to get the snapshot. -/
theorem compaction_transparent_commitSeven :
    ∃ c : Cluster 3 Nat Nat, (cluster 3 Nat Nat).Reachable System.anyStep c ∧
      ∃ args, (c.servers 0).rf.replicateTo 2 (c.servers 0).rf.currentTerm =
        some (some (.installSnapshot args)) ∧ args.lastIncludedIndex = 1 ∧
      ∃ v, ((c.servers 2).rf.installSnapshot args).map (fun r => r.1.view) = some v ∧
        ((c.servers 2).rf.uncompacted.appendEntries
          (args.asAppend ((c.servers 0).rf.logical.take args.lastIncludedIndex))).map
            (fun r => r.1.view) = some v := by
  obtain ⟨c, hc, hP⟩ := (cluster 3 Nat Nat).exists_reachable_of_run System.anyStep compactSeven
    sendsSnapshotOne (by decide +kernel)
  unfold sendsSnapshotOne at hP
  split at hP
  · rename_i args hst
    have heffect := (compaction_transparent hc .refl).2.1 0 2 args hst
    exact ⟨c, hc, args, hst, of_decide_eq_true hP, heffect⟩
  · cases hP

end Transparent

/-! ### Persistence -/

/-- The values that an empty raft state stands for. -/
def RaftState.initial [Inhabited C] : RaftState n C where
  currentTerm := 0
  votedFor := none
  log := [Raft.dummy 0]
  lastIncludedIndex := 0
  lastIncludedTerm := 0

theorem Raft.Persisted.encodeState_eq [Inhabited C] {rf : Raft n C D} (h : rf.Persisted) :
    rf.persister.raftstate.getD RaftState.initial = rf.encodeState := by
  rcases h with hsome | ⟨hnone, hterm, hvote, hlog, hidx, hlast⟩
  · rw [hsome]
    rfl
  · simp [hnone, RaftState.initial, encodeState, hterm, hvote, hlog, hidx, hlast]

section Persistence

variable [Inhabited C] [Inhabited D] {c c' : Cluster n C D}

/-- The persister holds the five persistent fields and the snapshot that covers
    the log up to `lastIncludedIndex`; a crash followed by `Make` restores them
    and starts to commit and apply from the snapshot. -/
theorem persistence (hc : (cluster n C D).Reachable System.anyStep c) (i : Fin n) :
    (c.servers i).rf.persister.raftstate.getD RaftState.initial =
        { currentTerm := (c.servers i).rf.currentTerm
          votedFor := (c.servers i).rf.votedFor
          log := (c.servers i).rf.log
          lastIncludedIndex := (c.servers i).rf.lastIncludedIndex
          lastIncludedTerm := (c.servers i).rf.lastIncludedTerm } ∧
      (c.servers i).rf.persister.snapshot.covers.length = (c.servers i).rf.lastIncludedIndex ∧
      lastTerm LogEntry.term (c.servers i).rf.persister.snapshot.covers =
        (c.servers i).rf.lastIncludedTerm ∧
      ∀ c', (cluster n C D).step c (.restart i) = some c' →
        (c'.servers i).rf.currentTerm = (c.servers i).rf.currentTerm ∧
        (c'.servers i).rf.votedFor = (c.servers i).rf.votedFor ∧
        (c'.servers i).rf.log = (c.servers i).rf.log ∧
        (c'.servers i).rf.lastIncludedIndex = (c.servers i).rf.lastIncludedIndex ∧
        (c'.servers i).rf.lastIncludedTerm = (c.servers i).rf.lastIncludedTerm ∧
        (c'.servers i).rf.persister = (c.servers i).rf.persister ∧
        (c'.servers i).rf.commitIndex = (c.servers i).rf.lastIncludedIndex ∧
        (c'.servers i).rf.lastApplied = (c.servers i).rf.lastIncludedIndex := by
  obtain ⟨a, ha⟩ := exists_refines hc
  have hok := ha.servers i
  refine ⟨hok.persisted.encodeState_eq, hok.wf.covers_length, hok.wf.covers_term, ?_⟩
  intro c' hst
  have hmake := hok.persisted.make_eq
  rw [hok.me] at hmake
  have hboot : (c'.servers i).rf = Raft.make i (c.servers i).rf.persister := by
    rw [← Option.some.inj hst]
    simp [Cluster.setServer, Server.boot]
  rw [hboot, hmake]
  exact ⟨rfl, rfl, rfl, rfl, rfl, rfl, rfl, rfl⟩

/-- The leader that has compacted its log crashes. -/
theorem persistence_commitSeven :
    ∃ c c' : Cluster 3 Nat Nat, (cluster 3 Nat Nat).Reachable System.anyStep c ∧
      (cluster 3 Nat Nat).step c (.restart 0) = some c' ∧
      (c.servers 0).rf.lastIncludedIndex = 1 ∧ (c'.servers 0).rf.commitIndex = 1 ∧
      (c'.servers 0).rf.currentTerm = (c.servers 0).rf.currentTerm ∧
      (c'.servers 0).rf.log = (c.servers 0).rf.log := by
  obtain ⟨c, c', hc, hst, hP⟩ := (cluster 3 Nat Nat).exists_step_of_run System.anyStep
    compactSeven (.restart 0)
    (fun c _ => decide ((c.servers 0).rf.lastIncludedIndex = 1)) (by decide +kernel)
  have hincl : (c.servers 0).rf.lastIncludedIndex = 1 := of_decide_eq_true hP
  obtain ⟨hterm, -, hlog, -, -, -, hcommit, -⟩ := (persistence hc 0).2.2.2 c' hst
  exact ⟨c, c', hc, hst, hincl, hcommit.trans hincl, hterm, hlog⟩

end Persistence

end RaftLabs
