import RaftLabs.ReplicatedLog
import Mathlib.Data.Fintype.Basic

/-!
# One Raft server

The state and the handlers of `raft/raft.go` and `raft/persister.go`.  Every
definition is one section of code that runs under `rf.mu`, or a helper of one,
and takes the receiver as it is when the lock is taken.

* An index that is out of range panics; the definitions that index into `log`
  answer `none` there.
* `int` is `Nat` for terms and indices, which are never negative, and has no overflow.
  `-1` as "no vote", "no conflict term" and "no conflict index" is `none`.
* Timers decide only when a step is taken, so `resetElectionTimer` does not
  appear.  The goroutines a step starts are the business of the cluster.
* `labgob` decoding inverts encoding, so the persister holds values.

The one addition is `Snapshot.covers`, the log entries the service had applied
when it made the snapshot.  It travels with the bytes and no code reads it.
-/

namespace RaftLabs

export ReplicatedLog (Role)

/-- `LogEntry`: a single command in the replicated log. -/
structure LogEntry (C : Type) where
  term : Nat
  command : C
deriving DecidableEq, Repr

/-- The bytes of a snapshot, with the entries they stand for. -/
structure Snapshot (C D : Type) where
  data : D
  covers : List (LogEntry C)
deriving DecidableEq, Repr

/-- What `encodeState` writes. -/
structure RaftState (n : Nat) (C : Type) where
  currentTerm : Nat
  votedFor : Option (Fin n)
  log : List (LogEntry C)
  lastIncludedIndex : Nat
  lastIncludedTerm : Nat

/-- `Persister`; a `raftstate` that was never saved is `none`. -/
structure Persister (n : Nat) (C D : Type) where
  raftstate : Option (RaftState n C)
  snapshot : Snapshot C D

/-- `ApplyMsg`, a case for each of the two valid flags. -/
inductive ApplyMsg (C D : Type) where
  | command (command : C) (commandIndex : Nat)
  | snapshot (snapshot : Snapshot C D) (snapshotTerm snapshotIndex : Nat)
deriving DecidableEq

/-- The log index a message is about. -/
def ApplyMsg.index {C D : Type} : ApplyMsg C D → Nat
  | .command _ commandIndex => commandIndex
  | .snapshot _ _ snapshotIndex => snapshotIndex

/-- `Raft`: one peer of `n`.  Slot 0 of `log` is the dummy entry that stands for
    the last entry of the snapshot. -/
structure Raft (n : Nat) (C D : Type) where
  persister : Persister n C D
  me : Fin n
  currentTerm : Nat
  votedFor : Option (Fin n)
  log : List (LogEntry C)
  lastIncludedIndex : Nat
  lastIncludedTerm : Nat
  commitIndex : Nat
  lastApplied : Nat
  role : Role
  nextIndex : Fin n → Nat
  matchIndex : Fin n → Nat

structure RequestVoteArgs (n : Nat) where
  term : Nat
  candidateId : Fin n
  lastLogIndex : Nat
  lastLogTerm : Nat

structure RequestVoteReply where
  term : Nat
  voteGranted : Bool

structure AppendEntriesArgs (n : Nat) (C : Type) where
  term : Nat
  leaderId : Fin n
  prevLogIndex : Nat
  prevLogTerm : Nat
  entries : List (LogEntry C)
  leaderCommit : Nat

structure AppendEntriesReply where
  term : Nat
  success : Bool
  conflictTerm : Option Nat
  conflictIndex : Option Nat

structure InstallSnapshotArgs (n : Nat) (C D : Type) where
  term : Nat
  leaderId : Fin n
  lastIncludedIndex : Nat
  lastIncludedTerm : Nat
  data : Snapshot C D

structure InstallSnapshotReply where
  term : Nat

/-- What `replicateTo` puts on the wire. -/
inductive Request (n : Nat) (C D : Type) where
  | installSnapshot (args : InstallSnapshotArgs n C D)
  | appendEntries (args : AppendEntriesArgs n C)

variable {n : Nat} {C D : Type}

namespace Raft

/-! ### Log index helpers -/

/-- The absolute index of the last log entry. -/
def lastLogIndex (rf : Raft n C D) : Nat := rf.lastIncludedIndex + rf.log.length - 1

/-- The entry at absolute index `idx`; out of range below the dummy slot and
    beyond the end of the log. -/
def entryAt (rf : Raft n C D) (idx : Nat) : Option (LogEntry C) :=
  if rf.lastIncludedIndex ≤ idx then rf.log[idx - rf.lastIncludedIndex]? else none

def termAt (rf : Raft n C D) (idx : Nat) : Option Nat := (rf.entryAt idx).map LogEntry.term

/-! ### Persistence -/

def encodeState (rf : Raft n C D) : RaftState n C where
  currentTerm := rf.currentTerm
  votedFor := rf.votedFor
  log := rf.log
  lastIncludedIndex := rf.lastIncludedIndex
  lastIncludedTerm := rf.lastIncludedTerm

/-- `rf.persister.Save(rf.encodeState(), snapshot)`. -/
def save (rf : Raft n C D) (snapshot : Snapshot C D) : Raft n C D :=
  { rf with persister := { raftstate := some rf.encodeState, snapshot := snapshot } }

def persist (rf : Raft n C D) : Raft n C D := rf.save rf.persister.snapshot

/-! ### Role transitions -/

def becomeFollower (rf : Raft n C D) (term : Nat) : Raft n C D :=
  { rf with currentTerm := term, votedFor := none, role := .follower }.persist

/-- The handlers' reaction to the term of a request they do not refuse. -/
def observeTerm (rf : Raft n C D) (term : Nat) : Raft n C D :=
  if rf.currentTerm < term then rf.becomeFollower term else rf

/-- The same for a request that only the leader of its term sends. -/
def followLeader (rf : Raft n C D) (term : Nat) : Raft n C D :=
  let rf := rf.observeTerm term
  { rf with role := .follower }

def becomeLeader (rf : Raft n C D) : Raft n C D :=
  if rf.role ≠ .candidate then rf
  else
    { rf with
      role := .leader
      nextIndex := fun _ => rf.lastLogIndex + 1
      matchIndex := fun _ => 0 }

/-! ### Elections -/

/-- `startElection` up to the requests it sends, which all carry the returned
    arguments. -/
def startElection (rf : Raft n C D) : Option (Raft n C D × RequestVoteArgs n) := do
  let rf := { rf with
    role := .candidate, currentTerm := rf.currentTerm + 1, votedFor := some rf.me }.persist
  let lastTerm ← rf.termAt rf.lastLogIndex
  some (rf,
    { term := rf.currentTerm, candidateId := rf.me,
      lastLogIndex := rf.lastLogIndex, lastLogTerm := lastTerm })

/-- At least as up to date as this server's log. -/
def candidateUpToDate (rf : Raft n C D) (lastIndex lastTerm : Nat) : Option Bool := do
  let myTerm ← rf.termAt rf.lastLogIndex
  if lastTerm ≠ myTerm then some (decide (myTerm < lastTerm))
  else some (decide (rf.lastLogIndex ≤ lastIndex))

/-- `RequestVote`. -/
def requestVote (rf : Raft n C D) (args : RequestVoteArgs n) :
    Option (Raft n C D × RequestVoteReply) :=
  if args.term < rf.currentTerm then
    some (rf, { term := rf.currentTerm, voteGranted := false })
  else do
    let rf := rf.observeTerm args.term
    let upToDate ← rf.candidateUpToDate args.lastLogIndex args.lastLogTerm
    if (rf.votedFor = none ∨ rf.votedFor = some args.candidateId) ∧ upToDate = true then
      some ({ rf with votedFor := some args.candidateId }.persist,
        { term := rf.currentTerm, voteGranted := true })
    else some (rf, { term := rf.currentTerm, voteGranted := false })

/-- The locked half of the goroutine that asked one peer for its vote in `term`;
    `votes` is the counter the goroutines of one election share. -/
def handleVoteReply (rf : Raft n C D) (term votes : Nat) (reply : RequestVoteReply) :
    Raft n C D × Nat :=
  if rf.currentTerm ≠ term ∨ rf.role ≠ .candidate then (rf, votes)
  else if rf.currentTerm < reply.term then (rf.becomeFollower reply.term, votes)
  else if reply.voteGranted then
    if n / 2 < votes + 1 then (rf.becomeLeader, votes + 1) else (rf, votes + 1)
  else (rf, votes)

/-! ### Log replication -/

/-- `Start`: the index of the new entry (`none` for `-1`), the current term, and
    whether this server believes it leads. -/
def start (rf : Raft n C D) (command : C) : Raft n C D × Option Nat × Nat × Bool :=
  if rf.role ≠ .leader then (rf, none, rf.currentTerm, false)
  else
    let entry : LogEntry C := { term := rf.currentTerm, command := command }
    let rf := { rf with log := rf.log ++ [entry] }.persist
    (rf, some rf.lastLogIndex, rf.currentTerm, true)

/-- The sending half of `replicateTo`; the inner `none` is the early return. -/
def replicateTo (rf : Raft n C D) (server : Fin n) (term : Nat) :
    Option (Option (Request n C D)) :=
  if rf.role ≠ .leader ∨ rf.currentTerm ≠ term then some none
  else
    let next := rf.nextIndex server
    if next ≤ rf.lastIncludedIndex then
      some (some (.installSnapshot
        { term := rf.currentTerm, leaderId := rf.me,
          lastIncludedIndex := rf.lastIncludedIndex,
          lastIncludedTerm := rf.lastIncludedTerm,
          data := rf.persister.snapshot }))
    else do
      let prevIndex := next - 1
      let prevTerm ← rf.termAt prevIndex
      some (some (.appendEntries
        { term := rf.currentTerm, leaderId := rf.me,
          prevLogIndex := prevIndex, prevLogTerm := prevTerm,
          entries := rf.log.drop (prevIndex - rf.lastIncludedIndex + 1),
          leaderCommit := rf.commitIndex }))

/-- The loop that looks for the first index of the conflicting term. -/
def firstOfTerm (rf : Raft n C D) (conflictTerm : Nat) : Nat → Option Nat
  | 0 => some 0
  | i + 1 =>
    if rf.lastIncludedIndex < i + 1 then do
      let term ← rf.termAt i
      if term = conflictTerm then firstOfTerm rf conflictTerm i else some (i + 1)
    else some (i + 1)

/-- The loop over the entries of a request that agrees with the log at
    `idx - 1`: skip what is there, replace the rest at the first conflict. -/
def appendNew (rf : Raft n C D) : Nat → List (LogEntry C) → Option (Raft n C D)
  | _, [] => some rf
  | idx, entry :: entries =>
    if idx ≤ rf.lastLogIndex then do
      let term ← rf.termAt idx
      if term = entry.term then appendNew rf (idx + 1) entries
      else
        some { rf with
          log := rf.log.take (idx - rf.lastIncludedIndex) ++ entry :: entries }
    else some { rf with log := rf.log ++ entry :: entries }

/-- `AppendEntries` from the consistency check on; `conflictIndex` is what the
    reply holds by then. -/
def appendChecked (rf : Raft n C D) (args : AppendEntriesArgs n C)
    (conflictIndex : Option Nat) : Option (Raft n C D × AppendEntriesReply) :=
  if rf.lastLogIndex < args.prevLogIndex then
    some (rf, { term := rf.currentTerm, success := false, conflictTerm := none,
                conflictIndex := some (rf.lastLogIndex + 1) })
  else do
    let term ← rf.termAt args.prevLogIndex
    if term ≠ args.prevLogTerm then
      let first ← rf.firstOfTerm term args.prevLogIndex
      some (rf, { term := rf.currentTerm, success := false, conflictTerm := some term,
                  conflictIndex := some first })
    else
      let rf ← rf.appendNew (args.prevLogIndex + 1) args.entries
      let rf := rf.persist
      let rf :=
        if rf.commitIndex < args.leaderCommit then
          { rf with commitIndex := min args.leaderCommit rf.lastLogIndex }
        else rf
      some (rf, { term := rf.currentTerm, success := true, conflictTerm := none,
                  conflictIndex := conflictIndex })

/-- `AppendEntries`. -/
def appendEntries (rf : Raft n C D) (args : AppendEntriesArgs n C) :
    Option (Raft n C D × AppendEntriesReply) :=
  if args.term < rf.currentTerm then
    some (rf, { term := rf.currentTerm, success := false, conflictTerm := none,
                conflictIndex := none })
  else
    let rf := rf.followLeader args.term
    if args.prevLogIndex < rf.lastIncludedIndex then
      if args.prevLogIndex + args.entries.length ≤ rf.lastIncludedIndex then
        some (rf, { term := rf.currentTerm, success := false, conflictTerm := none,
                    conflictIndex := some (rf.lastIncludedIndex + 1) })
      else
        rf.appendChecked
          { args with
            prevLogIndex := rf.lastIncludedIndex
            prevLogTerm := rf.lastIncludedTerm
            entries := args.entries.drop (rf.lastIncludedIndex - args.prevLogIndex) }
          (some (rf.lastIncludedIndex + 1))
    else rf.appendChecked args none

/-- How many servers hold index `i`, the leader included. -/
def replicaCount (rf : Raft n C D) (i : Nat) : Nat :=
  1 + (Finset.univ.filter fun peer => peer ≠ rf.me ∧ i ≤ rf.matchIndex peer).card

/-- The loop of `advanceCommit`, from index `i` down to the commit index. -/
def advanceCommitFrom (rf : Raft n C D) : Nat → Option (Raft n C D)
  | 0 => some rf
  | i + 1 =>
    if rf.commitIndex < i + 1 then do
      let term ← rf.termAt (i + 1)
      if term ≠ rf.currentTerm then advanceCommitFrom rf i
      else if n / 2 < rf.replicaCount (i + 1) then some { rf with commitIndex := i + 1 }
      else advanceCommitFrom rf i
    else some rf

def advanceCommit (rf : Raft n C D) : Option (Raft n C D) :=
  rf.advanceCommitFrom rf.lastLogIndex

/-- The loop that looks for the last index of the conflicting term in the
    leader's log, from index `i` down to the dummy slot. -/
def lastOfTerm (rf : Raft n C D) (conflictTerm : Nat) : Nat → Option (Option Nat)
  | 0 => some none
  | i + 1 =>
    if rf.lastIncludedIndex < i + 1 then do
      let term ← rf.termAt (i + 1)
      if term = conflictTerm then some (some (i + 1)) else lastOfTerm rf conflictTerm i
    else some none

/-- The next index a rejection asks for, before the clamp to 1. -/
def backupIndex (rf : Raft n C D) (server : Fin n) (reply : AppendEntriesReply) :
    Option Nat :=
  match reply.conflictTerm with
  | none =>
    match reply.conflictIndex with
    | none => some (rf.nextIndex server)
    | some i => some (if 0 < i then i else rf.nextIndex server)
  | some conflictTerm => do
    match ← rf.lastOfTerm conflictTerm rf.lastLogIndex with
    | some i => some (i + 1)
    | none => some (reply.conflictIndex.getD 0)

/-- The locked half of `replicateTo` after an `AppendEntries` call returned. -/
def handleAppendReply (rf : Raft n C D) (server : Fin n) (args : AppendEntriesArgs n C)
    (reply : AppendEntriesReply) : Option (Raft n C D) :=
  if rf.role ≠ .leader ∨ rf.currentTerm ≠ args.term then some rf
  else if rf.currentTerm < reply.term then some (rf.becomeFollower reply.term)
  else if reply.success then
    let newMatch := args.prevLogIndex + args.entries.length
    let rf :=
      if rf.matchIndex server < newMatch then
        { rf with
          matchIndex := Function.update rf.matchIndex server newMatch
          nextIndex := Function.update rf.nextIndex server (newMatch + 1) }
      else rf
    rf.advanceCommit
  else do
    let next ← rf.backupIndex server reply
    some { rf with nextIndex := Function.update rf.nextIndex server (max next 1) }

/-- The locked half of `replicateTo` after an `InstallSnapshot` call returned. -/
def handleSnapshotReply (rf : Raft n C D) (server : Fin n) (args : InstallSnapshotArgs n C D)
    (reply : InstallSnapshotReply) : Raft n C D :=
  if rf.role ≠ .leader ∨ rf.currentTerm ≠ args.term then rf
  else if rf.currentTerm < reply.term then rf.becomeFollower reply.term
  else
    let newMatch := max (rf.matchIndex server) args.lastIncludedIndex
    { rf with
      matchIndex := Function.update rf.matchIndex server newMatch
      nextIndex := Function.update rf.nextIndex server (newMatch + 1) }

/-! ### Delivery -/

/-- One turn of the loop of `applier`: the message to send once the lock is
    released, if there is one. -/
def applier (rf : Raft n C D) : Option (Raft n C D × Option (ApplyMsg C D)) :=
  if rf.lastApplied < rf.commitIndex ∧ rf.lastIncludedIndex ≤ rf.lastApplied then
    let rf := { rf with lastApplied := rf.lastApplied + 1 }
    if rf.lastApplied ≤ rf.lastIncludedIndex then
      some ({ rf with lastApplied := rf.lastIncludedIndex }, none)
    else do
      let entry ← rf.entryAt rf.lastApplied
      some (rf, some (.command entry.command rf.lastApplied))
  else some (rf, none)

/-! ### Compaction -/

/-- The entries the server stands for: those its snapshot covers and those after
    the dummy slot. -/
def logical (rf : Raft n C D) : List (LogEntry C) :=
  rf.persister.snapshot.covers ++ rf.log.tail

variable [Inhabited C]

/-- A dummy entry: a term and the nil command. -/
def dummy (term : Nat) : LogEntry C := { term := term, command := default }

def readPersist (rf : Raft n C D) (data : Option (RaftState n C)) : Raft n C D :=
  match data with
  | none => { rf with log := [dummy 0] }
  | some st =>
    { rf with
      currentTerm := st.currentTerm
      votedFor := st.votedFor
      log := st.log
      lastIncludedIndex := st.lastIncludedIndex
      lastIncludedTerm := st.lastIncludedTerm
      commitIndex := st.lastIncludedIndex
      lastApplied := st.lastIncludedIndex }

/-- `Make`, up to the goroutines it starts. -/
def make (me : Fin n) (persister : Persister n C D) : Raft n C D :=
  readPersist
    { persister := persister, me := me, currentTerm := 0, votedFor := none, log := [],
      lastIncludedIndex := 0, lastIncludedTerm := 0, commitIndex := 0, lastApplied := 0,
      role := .follower, nextIndex := fun _ => 0, matchIndex := fun _ => 0 }
    persister.raftstate

/-- `Snapshot`: the service has everything up to `index` in `data`. -/
def snapshot (rf : Raft n C D) (index : Nat) (data : D) : Option (Raft n C D) :=
  if index ≤ rf.lastIncludedIndex ∨ rf.commitIndex < index then some rf
  else do
    let term ← rf.termAt index
    let newLog := dummy term :: rf.log.drop (index - rf.lastIncludedIndex + 1)
    let covers := rf.logical.take index
    some ({ rf with lastIncludedTerm := term, lastIncludedIndex := index, log := newLog }.save
      { data := data, covers := covers })

/-- The log that is left when a snapshot up to `args.lastIncludedIndex` arrives. -/
def trimmedLog (rf : Raft n C D) (args : InstallSnapshotArgs n C D) :
    Option (List (LogEntry C)) :=
  if args.lastIncludedIndex < rf.lastLogIndex then do
    let term ← rf.termAt args.lastIncludedIndex
    if term = args.lastIncludedTerm then
      some (dummy args.lastIncludedTerm ::
        rf.log.drop (args.lastIncludedIndex - rf.lastIncludedIndex + 1))
    else some [dummy args.lastIncludedTerm]
  else some [dummy args.lastIncludedTerm]

/-- The locked part of `InstallSnapshot`.  With a message the handler goes on to
    send it on `applyCh`, and only then replies. -/
def installSnapshot (rf : Raft n C D) (args : InstallSnapshotArgs n C D) :
    Option (Raft n C D × InstallSnapshotReply × Option (ApplyMsg C D)) :=
  if args.term < rf.currentTerm then some (rf, { term := rf.currentTerm }, none)
  else
    let rf := rf.followLeader args.term
    if args.lastIncludedIndex ≤ rf.lastIncludedIndex then
      some (rf, { term := rf.currentTerm }, none)
    else do
      let newLog ← rf.trimmedLog args
      let rf := { rf with
        log := newLog
        lastIncludedIndex := args.lastIncludedIndex
        lastIncludedTerm := args.lastIncludedTerm
        commitIndex := max rf.commitIndex args.lastIncludedIndex
        lastApplied := max rf.lastApplied args.lastIncludedIndex }.save args.data
      some (rf, { term := rf.currentTerm },
        some (.snapshot args.data args.lastIncludedTerm args.lastIncludedIndex))

end Raft

end RaftLabs
