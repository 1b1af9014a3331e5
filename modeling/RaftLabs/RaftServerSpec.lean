import RaftLabs.RaftServer
import RaftLabs.ReplicatedLogSafety
import Mathlib.Data.List.Basic

/-!
# What the handlers do to the logical log

The handlers work on a window of the log behind the dummy slot.  A server is
*well formed* when the window and the snapshot fit together; its handlers can
then be described by what they do to the logical log, as if nothing had been
compacted.  One lemma for each handler says so, and the modules after this one
use these lemmas and not the definitions.
-/

namespace RaftLabs

open ReplicatedLog (lastTerm Absorbs getElem?_of_isPrefix)

variable {n : Nat} {C D : Type}

/-! ### Terms along a log -/

/-- The term of the entry at index `i` of a log that starts at index 1; index 0
    has term 0. -/
def termOf (X : List (LogEntry C)) (i : Nat) : Nat := lastTerm LogEntry.term (X.take i)

@[simp] theorem termOf_zero (X : List (LogEntry C)) : termOf X 0 = 0 := by
  simp [termOf, lastTerm]

theorem termOf_succ {X : List (LogEntry C)} {i : Nat} {e : LogEntry C} (h : X[i]? = some e) :
    termOf X (i + 1) = e.term := by
  simp [termOf, lastTerm, List.getLast?_take, h]

theorem termOf_length (X : List (LogEntry C)) : termOf X X.length = lastTerm LogEntry.term X := by
  simp [termOf]

theorem termOf_append_left {X Y : List (LogEntry C)} {i : Nat} (h : i ≤ X.length) :
    termOf (X ++ Y) i = termOf X i := by
  simp [termOf, List.take_append_of_le_length h]

theorem termOf_eq_of_isPrefix {X Y : List (LogEntry C)} (h : X <+: Y) {i : Nat}
    (hi : i ≤ X.length) : termOf X i = termOf Y i := by
  obtain ⟨Z, rfl⟩ := h
  rw [termOf_append_left hi]

/-- The entries of a request spliced into a whole log after the first `p`. -/
def spliceAt (X : List (LogEntry C)) (p : Nat) : List (LogEntry C) → List (LogEntry C)
  | [] => X
  | entry :: entries =>
    match X[p]? with
    | some e =>
      if e.term = entry.term then spliceAt X (p + 1) entries
      else X.take p ++ entry :: entries
    | none => X ++ entry :: entries

/-- Splicing the rest of `F` into a log that agrees with it up to `p`, and agrees
    with it up to every place where both have an entry of one term, comes to
    accepting `F`. -/
theorem spliceAt_absorbs {X F : List (LogEntry C)} {p : Nat} (hp : p ≤ X.length)
    (heq : X.take p = F.take p)
    (hmatch : ∀ (k : Nat) x y, X[k]? = some x → F[k]? = some y → x.term = y.term →
      X.take (k + 1) = F.take (k + 1)) :
    Absorbs X F (spliceAt X p (F.drop p)) := by
  -- induction on the entries that are left
  generalize hes : F.drop p = es
  induction es generalizing p with
  | nil =>
    refine .inl ⟨?_, rfl⟩
    rw [← List.take_append_drop p F, hes, List.append_nil, ← heq]
    exact List.take_prefix _ _
  | cons entry entries ih =>
    have hF : F[p]? = some entry := by
      rw [← Nat.add_zero p, ← List.getElem?_drop, hes]
      rfl
    simp only [spliceAt]
    split
    · rename_i e he
      have hlt : p < X.length := (List.getElem?_eq_some_iff.mp he).1
      split
      · rename_i hterm
        refine ih hlt (hmatch p e entry he hF hterm) ?_
        rw [← List.drop_drop, hes]
        rfl
      · rename_i hterm
        refine .inr ⟨?_, by rw [heq, ← hes, List.take_append_drop]⟩
        intro hpre
        rw [getElem?_of_isPrefix hpre hF] at he
        exact hterm (congrArg LogEntry.term (Option.some.inj he).symm)
    · rename_i hnone
      have hlen : X.length ≤ p := List.getElem?_eq_none_iff.mp hnone
      rw [List.take_of_length_le hlen] at heq
      refine .inr ⟨?_, by rw [heq, ← hes, List.take_append_drop]⟩
      intro hpre
      rw [getElem?_of_isPrefix hpre hF] at hnone
      cases hnone

/-! ### Well-formed servers -/

namespace Raft

/-- The dummy slot stands for the last entry the snapshot covers. -/
structure Wf (rf : Raft n C D) : Prop where
  slot0 : ∃ e es, rf.log = e :: es ∧ e.term = rf.lastIncludedTerm
  covers_length : rf.persister.snapshot.covers.length = rf.lastIncludedIndex
  covers_term : lastTerm LogEntry.term rf.persister.snapshot.covers = rf.lastIncludedTerm

variable {rf : Raft n C D}

theorem Wf.take_logical (h : rf.Wf) :
    rf.logical.take rf.lastIncludedIndex = rf.persister.snapshot.covers := by
  simp [logical, ← h.covers_length]

theorem Wf.drop_logical (h : rf.Wf) {k : Nat} (hk : rf.lastIncludedIndex ≤ k) :
    rf.logical.drop k = rf.log.drop (k - rf.lastIncludedIndex + 1) := by
  have hlen : rf.persister.snapshot.covers.length ≤ k := h.covers_length ▸ hk
  rw [logical, List.drop_append, List.drop_of_length_le hlen, h.covers_length, List.nil_append,
    List.drop_tail]

theorem Wf.lastLogIndex_eq (h : rf.Wf) : rf.lastLogIndex = rf.logical.length := by
  obtain ⟨e, es, hlog, -⟩ := h.slot0
  simp [lastLogIndex, logical, hlog, h.covers_length]

theorem Wf.le_length (h : rf.Wf) : rf.lastIncludedIndex ≤ rf.logical.length := by
  simp [logical, ← h.covers_length]

theorem Wf.entryAt_eq (h : rf.Wf) {i : Nat} (hi : rf.lastIncludedIndex ≤ i) :
    rf.entryAt (i + 1) = rf.logical[i]? := by
  obtain ⟨e, es, hlog, -⟩ := h.slot0
  have hsub : i + 1 - rf.lastIncludedIndex = i - rf.lastIncludedIndex + 1 := by omega
  rw [entryAt, if_pos (by omega), hsub, logical,
    List.getElem?_append_right (by rw [h.covers_length]; exact hi), h.covers_length, hlog]
  rfl

theorem Wf.termAt_eq (h : rf.Wf) {i : Nat} (hi : rf.lastIncludedIndex ≤ i)
    (hi' : i ≤ rf.logical.length) : rf.termAt i = some (termOf rf.logical i) := by
  rcases Nat.eq_or_lt_of_le hi with heq | hlt
  · -- the dummy slot
    obtain ⟨e, es, hlog, he⟩ := h.slot0
    subst heq
    simp [termAt, entryAt, hlog, he, termOf, h.take_logical, h.covers_term]
  · obtain ⟨j, rfl⟩ : ∃ j, i = j + 1 := ⟨i - 1, by omega⟩
    have hget : rf.logical[j]? = some rf.logical[j] := List.getElem?_eq_getElem hi'
    rw [termAt, h.entryAt_eq (by omega), hget, termOf_succ hget]
    rfl

theorem Wf.termAt_some (h : rf.Wf) {i t : Nat} (ht : rf.termAt i = some t) :
    rf.lastIncludedIndex ≤ i ∧ i ≤ rf.logical.length ∧ t = termOf rf.logical i := by
  obtain ⟨e, es, hlog, -⟩ := h.slot0
  have hlo : rf.lastIncludedIndex ≤ i := by
    by_contra hlt
    simp [termAt, entryAt, hlt] at ht
  have hhi : i ≤ rf.logical.length := by
    by_contra hlt
    have hlast := h.lastLogIndex_eq
    have hnone : rf.log[i - rf.lastIncludedIndex]? = none := by
      apply List.getElem?_eq_none
      simp only [lastLogIndex, hlog, List.length_cons] at hlast ⊢
      omega
    simp [termAt, entryAt, hlo, hnone] at ht
  rw [h.termAt_eq hlo hhi] at ht
  exact ⟨hlo, hhi, (Option.some.inj ht).symm⟩

/-- Replacing the window by one that starts with the same dummy. -/
theorem Wf.setLog (h : rf.Wf) {l : List (LogEntry C)}
    (hl : ∃ e es, l = e :: es ∧ e.term = rf.lastIncludedTerm) :
    ({ rf with log := l } : Raft n C D).Wf :=
  ⟨hl, h.covers_length, h.covers_term⟩

theorem Wf.persist (h : rf.Wf) : rf.persist.Wf := ⟨h.slot0, h.covers_length, h.covers_term⟩

/-- What a leader keeps for its peers plays no part. -/
theorem Wf.setPeers (h : rf.Wf) (nextIndex matchIndex : Fin n → Nat) :
    ({ rf with nextIndex := nextIndex, matchIndex := matchIndex } : Raft n C D).Wf :=
  ⟨h.slot0, h.covers_length, h.covers_term⟩

@[simp] theorem logical_persist : rf.persist.logical = rf.logical := rfl

/-- The merge loop of `AppendEntries` succeeds and splices the entries into the
    logical log. -/
theorem Wf.appendNew_eq (h : rf.Wf) {p : Nat} (hp : rf.lastIncludedIndex ≤ p)
    (hp' : p ≤ rf.logical.length) (es : List (LogEntry C)) :
    ∃ l, rf.appendNew (p + 1) es = some { rf with log := l } ∧
      ({ rf with log := l } : Raft n C D).Wf ∧
      ({ rf with log := l } : Raft n C D).logical = spliceAt rf.logical p es := by
  induction es generalizing p with
  | nil => exact ⟨rf.log, rfl, h, rfl⟩
  | cons entry entries ih =>
    obtain ⟨d, ds, hlog, hd⟩ := h.slot0
    simp only [appendNew, h.lastLogIndex_eq, spliceAt]
    rcases Nat.lt_or_ge p rf.logical.length with hlt | hge
    · have hget : rf.logical[p]? = some rf.logical[p] := List.getElem?_eq_getElem hlt
      rw [if_pos (Nat.succ_le_of_lt hlt), h.termAt_eq (by omega) hlt, termOf_succ hget, hget]
      simp only [Option.bind_eq_bind, Option.bind_some]
      split
      · exact ih (by omega) hlt
      · -- a conflict: the window is cut and the rest of the entries appended
        have htake : rf.log.take (p + 1 - rf.lastIncludedIndex) =
            d :: ds.take (p - rf.lastIncludedIndex) := by
          have hsub : p + 1 - rf.lastIncludedIndex = p - rf.lastIncludedIndex + 1 := by omega
          rw [hlog, hsub, List.take_succ_cons]
        refine ⟨_, rfl, h.setLog ⟨d, ds.take (p - rf.lastIncludedIndex) ++ entry :: entries,
          by rw [htake]; rfl, hd⟩, ?_⟩
        have hcov : rf.persister.snapshot.covers.length ≤ p := h.covers_length ▸ hp
        rw [logical, htake, logical, hlog, List.take_append, List.take_of_length_le hcov,
          h.covers_length]
        simp
    · have hnone : rf.logical[p]? = none := List.getElem?_eq_none hge
      rw [if_neg (by omega), hnone]
      refine ⟨_, rfl, h.setLog ⟨d, ds ++ entry :: entries, by rw [hlog]; rfl, hd⟩, ?_⟩
      simp [logical, hlog]

/-! ### Terms and persistence -/

@[simp] theorem observeTerm_log (rf : Raft n C D) (T : Nat) :
    (rf.observeTerm T).log = rf.log := by
  unfold observeTerm; split <;> rfl

@[simp] theorem observeTerm_snapshot (rf : Raft n C D) (T : Nat) :
    (rf.observeTerm T).persister.snapshot = rf.persister.snapshot := by
  unfold observeTerm; split <;> rfl

@[simp] theorem observeTerm_lastIncludedIndex (rf : Raft n C D) (T : Nat) :
    (rf.observeTerm T).lastIncludedIndex = rf.lastIncludedIndex := by
  unfold observeTerm; split <;> rfl

@[simp] theorem observeTerm_lastIncludedTerm (rf : Raft n C D) (T : Nat) :
    (rf.observeTerm T).lastIncludedTerm = rf.lastIncludedTerm := by
  unfold observeTerm; split <;> rfl

@[simp] theorem observeTerm_commitIndex (rf : Raft n C D) (T : Nat) :
    (rf.observeTerm T).commitIndex = rf.commitIndex := by
  unfold observeTerm; split <;> rfl

@[simp] theorem observeTerm_lastApplied (rf : Raft n C D) (T : Nat) :
    (rf.observeTerm T).lastApplied = rf.lastApplied := by
  unfold observeTerm; split <;> rfl

@[simp] theorem observeTerm_me (rf : Raft n C D) (T : Nat) :
    (rf.observeTerm T).me = rf.me := by
  unfold observeTerm; split <;> rfl

@[simp] theorem observeTerm_logical (rf : Raft n C D) (T : Nat) :
    (rf.observeTerm T).logical = rf.logical := by
  simp [logical]

@[simp] theorem followLeader_log (rf : Raft n C D) (T : Nat) :
    (rf.followLeader T).log = rf.log := by
  simp [followLeader]

@[simp] theorem followLeader_snapshot (rf : Raft n C D) (T : Nat) :
    (rf.followLeader T).persister.snapshot = rf.persister.snapshot := by
  simp [followLeader]

@[simp] theorem followLeader_lastIncludedIndex (rf : Raft n C D) (T : Nat) :
    (rf.followLeader T).lastIncludedIndex = rf.lastIncludedIndex := by
  simp [followLeader]

@[simp] theorem followLeader_lastIncludedTerm (rf : Raft n C D) (T : Nat) :
    (rf.followLeader T).lastIncludedTerm = rf.lastIncludedTerm := by
  simp [followLeader]

@[simp] theorem followLeader_commitIndex (rf : Raft n C D) (T : Nat) :
    (rf.followLeader T).commitIndex = rf.commitIndex := by
  simp [followLeader]

@[simp] theorem followLeader_lastApplied (rf : Raft n C D) (T : Nat) :
    (rf.followLeader T).lastApplied = rf.lastApplied := by
  simp [followLeader]

@[simp] theorem followLeader_me (rf : Raft n C D) (T : Nat) :
    (rf.followLeader T).me = rf.me := by
  simp [followLeader]

@[simp] theorem followLeader_logical (rf : Raft n C D) (T : Nat) :
    (rf.followLeader T).logical = rf.logical := by
  simp [logical]

theorem observeTerm_currentTerm {T : Nat} (h : rf.currentTerm ≤ T) :
    (rf.observeTerm T).currentTerm = T := by
  unfold observeTerm
  split
  · rfl
  · omega

theorem followLeader_currentTerm {T : Nat} (h : rf.currentTerm ≤ T) :
    (rf.followLeader T).currentTerm = T := observeTerm_currentTerm h

theorem Wf.followLeader (h : rf.Wf) (T : Nat) : (rf.followLeader T).Wf :=
  ⟨by simpa using h.slot0, by simpa using h.covers_length, by simpa using h.covers_term⟩

theorem Wf.observeTerm (h : rf.Wf) (T : Nat) : (rf.observeTerm T).Wf :=
  ⟨by simpa using h.slot0, by simpa using h.covers_length, by simpa using h.covers_term⟩

/-- The persister holds what the server holds, or nothing while the server has
    its initial values. -/
def Persisted [Inhabited C] (rf : Raft n C D) : Prop :=
  rf.persister.raftstate = some rf.encodeState ∨
    (rf.persister.raftstate = none ∧ rf.currentTerm = 0 ∧ rf.votedFor = none ∧
      rf.log = [dummy 0] ∧ rf.lastIncludedIndex = 0 ∧ rf.lastIncludedTerm = 0)

theorem persisted_persist [Inhabited C] (rf : Raft n C D) : rf.persist.Persisted := .inl rfl

theorem Persisted.observeTerm [Inhabited C] (h : rf.Persisted) (T : Nat) :
    (rf.observeTerm T).Persisted := by
  unfold Raft.observeTerm
  split
  · exact persisted_persist _
  · exact h

theorem Persisted.followLeader [Inhabited C] (h : rf.Persisted) (T : Nat) :
    (rf.followLeader T).Persisted := h.observeTerm T

/-- `Make` restores what was saved; the rest starts afresh. -/
theorem Persisted.make_eq [Inhabited C] (h : rf.Persisted) :
    make rf.me rf.persister =
      { rf with
        role := .follower
        commitIndex := rf.lastIncludedIndex
        lastApplied := rf.lastIncludedIndex
        nextIndex := fun _ => 0
        matchIndex := fun _ => 0 } := by
  rcases h with hsome | ⟨hnone, hterm, hvote, hlog, hidx, hlast⟩
  · simp [make, readPersist, hsome, encodeState]
  · simp [make, readPersist, hnone, hterm, hvote, hlog, hidx, hlast]

/-- What the service can see of a server has not changed: how far it has applied
    and the snapshot it has. -/
structure SameService (rf rf' : Raft n C D) : Prop where
  lastApplied : rf'.lastApplied = rf.lastApplied
  lastIncludedIndex : rf'.lastIncludedIndex = rf.lastIncludedIndex
  snapshot : rf'.persister.snapshot = rf.persister.snapshot

theorem SameService.refl (rf : Raft n C D) : SameService rf rf := ⟨rfl, rfl, rfl⟩

theorem sameService_observeTerm (rf : Raft n C D) (T : Nat) :
    SameService rf (rf.observeTerm T) := by
  constructor <;> simp

theorem sameService_followLeader (rf : Raft n C D) (T : Nat) :
    SameService rf (rf.followLeader T) := by
  constructor <;> simp

/-! ### Elections -/

theorem Wf.startElection_eq (h : rf.Wf) :
    rf.startElection = some
      ({ rf with
          role := .candidate, currentTerm := rf.currentTerm + 1, votedFor := some rf.me }.persist,
        { term := rf.currentTerm + 1, candidateId := rf.me,
          lastLogIndex := rf.logical.length,
          lastLogTerm := lastTerm LogEntry.term rf.logical }) := by
  have hwf : ({ rf with
      role := .candidate, currentTerm := rf.currentTerm + 1,
      votedFor := some rf.me }.persist : Raft n C D).Wf :=
    ⟨h.slot0, h.covers_length, h.covers_term⟩
  simp only [startElection, hwf.lastLogIndex_eq]
  rw [hwf.termAt_eq hwf.le_length le_rfl, termOf_length]
  rfl

theorem Wf.candidateUpToDate_eq (h : rf.Wf) (lastIndex lastTerm' : Nat) :
    ∃ b, rf.candidateUpToDate lastIndex lastTerm' = some b ∧
      (b = true ↔ lastTerm LogEntry.term rf.logical < lastTerm' ∨
        (lastTerm LogEntry.term rf.logical = lastTerm' ∧ rf.logical.length ≤ lastIndex)) := by
  simp only [candidateUpToDate, h.lastLogIndex_eq]
  rw [h.termAt_eq h.le_length le_rfl, termOf_length]
  simp only [Option.bind_eq_bind, Option.bind_some]
  split
  · rename_i hne
    refine ⟨_, rfl, ?_⟩
    simp only [decide_eq_true_eq]
    omega
  · rename_i heq
    refine ⟨_, rfl, ?_⟩
    simp only [decide_eq_true_eq]
    omega

theorem Wf.requestVote_cases (h : rf.Wf) {args : RequestVoteArgs n} {rf' : Raft n C D}
    {reply : RequestVoteReply} (hst : rf.requestVote args = some (rf', reply)) :
    (args.term < rf.currentTerm ∧ rf' = rf ∧ reply.voteGranted = false) ∨
    (rf.currentTerm ≤ args.term ∧ rf' = rf.observeTerm args.term ∧
      reply.voteGranted = false) ∨
    (rf.currentTerm ≤ args.term ∧
      ((rf.observeTerm args.term).votedFor = none ∨
        (rf.observeTerm args.term).votedFor = some args.candidateId) ∧
      (lastTerm LogEntry.term rf.logical < args.lastLogTerm ∨
        (lastTerm LogEntry.term rf.logical = args.lastLogTerm ∧
          rf.logical.length ≤ args.lastLogIndex)) ∧
      rf' = { rf.observeTerm args.term with votedFor := some args.candidateId }.persist) := by
  unfold requestVote at hst
  split at hst
  · rename_i hlt
    obtain ⟨rfl, rfl⟩ := Prod.mk.inj (Option.some.inj hst)
    exact .inl ⟨hlt, rfl, rfl⟩
  · rename_i hge
    have hle : rf.currentTerm ≤ args.term := Nat.le_of_not_lt hge
    obtain ⟨b, hb, hiff⟩ := (h.observeTerm args.term).candidateUpToDate_eq
      args.lastLogIndex args.lastLogTerm
    simp only [hb, Option.bind_eq_bind, Option.bind_some] at hst
    split at hst
    · rename_i hgrant
      obtain ⟨rfl, rfl⟩ := Prod.mk.inj (Option.some.inj hst)
      refine .inr (.inr ⟨hle, hgrant.1, ?_, rfl⟩)
      simpa using hiff.mp hgrant.2
    · obtain ⟨rfl, rfl⟩ := Prod.mk.inj (Option.some.inj hst)
      exact .inr (.inl ⟨hle, rfl, rfl⟩)

theorem handleVoteReply_cases (rf : Raft n C D) (votes : Nat) (reply : RequestVoteReply)
    (hrole : rf.role = .candidate) :
    rf.handleVoteReply rf.currentTerm votes reply = (rf, votes) ∨
    (rf.currentTerm < reply.term ∧ rf.handleVoteReply rf.currentTerm votes reply =
      (rf.becomeFollower reply.term, votes)) ∨
    (reply.voteGranted = true ∧ rf.handleVoteReply rf.currentTerm votes reply =
      (rf, votes + 1)) ∨
    (reply.voteGranted = true ∧ n / 2 < votes + 1 ∧
      rf.handleVoteReply rf.currentTerm votes reply =
        ({ rf with
            role := .leader
            nextIndex := fun _ => rf.lastLogIndex + 1
            matchIndex := fun _ => 0 }, votes + 1)) := by
  simp only [handleVoteReply, hrole, ne_eq, not_true_eq_false, or_self, ↓reduceIte]
  split
  · rename_i hlt
    exact .inr (.inl ⟨hlt, rfl⟩)
  · split
    · rename_i hgrant
      split
      · rename_i hmaj
        refine .inr (.inr (.inr ⟨hgrant, hmaj, ?_⟩))
        simp [becomeLeader, hrole]
      · exact .inr (.inr (.inl ⟨hgrant, rfl⟩))
    · exact .inl rfl

/-! ### Log replication -/

theorem start_cases (rf : Raft n C D) (command : C) :
    (rf.role ≠ .leader ∧ (rf.start command).1 = rf) ∨
    (rf.role = .leader ∧ (rf.start command).1 =
      { rf with log := rf.log ++ [(⟨rf.currentTerm, command⟩ : LogEntry C)] }.persist) := by
  unfold start
  split
  · rename_i h
    exact .inl ⟨h, rfl⟩
  · rename_i h
    exact .inr ⟨not_not.mp h, rfl⟩

theorem Wf.logical_append (h : rf.Wf) (e : LogEntry C) :
    ({ rf with log := rf.log ++ [e] } : Raft n C D).Wf ∧
      ({ rf with log := rf.log ++ [e] } : Raft n C D).logical = rf.logical ++ [e] := by
  obtain ⟨d, ds, hlog, hd⟩ := h.slot0
  refine ⟨h.setLog ⟨d, ds ++ [e], by rw [hlog]; rfl, hd⟩, ?_⟩
  simp [logical, hlog]

theorem Wf.replicateTo_cases (h : rf.Wf) {server : Fin n} {r : Option (Request n C D)}
    (hst : rf.replicateTo server rf.currentTerm = some r) :
    r = none ∨
    (rf.role = .leader ∧ rf.nextIndex server ≤ rf.lastIncludedIndex ∧
      r = some (.installSnapshot
        { term := rf.currentTerm, leaderId := rf.me,
          lastIncludedIndex := rf.lastIncludedIndex,
          lastIncludedTerm := rf.lastIncludedTerm,
          data := rf.persister.snapshot })) ∨
    (rf.role = .leader ∧ rf.lastIncludedIndex < rf.nextIndex server ∧
      rf.nextIndex server - 1 ≤ rf.logical.length ∧
      r = some (.appendEntries
        { term := rf.currentTerm, leaderId := rf.me,
          prevLogIndex := rf.nextIndex server - 1,
          prevLogTerm := termOf rf.logical (rf.nextIndex server - 1),
          entries := rf.logical.drop (rf.nextIndex server - 1),
          leaderCommit := rf.commitIndex })) := by
  unfold replicateTo at hst
  split at hst
  · exact .inl (Option.some.inj hst).symm
  · rename_i hrole
    simp only [ne_eq, not_true_eq_false, or_false, not_not] at hrole
    simp only at hst
    split at hst
    · rename_i hle
      exact .inr (.inl ⟨hrole, hle, (Option.some.inj hst).symm⟩)
    · rename_i hgt
      simp only [Option.bind_eq_bind, Option.bind_eq_some_iff] at hst
      obtain ⟨t, ht, hr⟩ := hst
      obtain ⟨hlo, hhi, rfl⟩ := h.termAt_some ht
      refine .inr (.inr ⟨hrole, Nat.lt_of_not_le hgt, hhi, ?_⟩)
      rw [← Option.some.inj hr, h.drop_logical hlo]

/-- What `AppendEntries` leaves behind when it accepts entries that follow index
    `p`, with `l` as its new window. -/
def accepted (rf : Raft n C D) (args : AppendEntriesArgs n C) (l : List (LogEntry C)) :
    Raft n C D :=
  let rf := rf.followLeader args.term
  let rf' := { rf with log := l }.persist
  if rf'.commitIndex < args.leaderCommit then
    { rf' with commitIndex := min args.leaderCommit rf'.lastLogIndex }
  else rf'

theorem Wf.firstOfTerm_total (h : rf.Wf) (conflictTerm : Nat) {i : Nat}
    (hi : i ≤ rf.logical.length) : ∃ first, rf.firstOfTerm conflictTerm i = some first := by
  induction i with
  | zero => exact ⟨0, rfl⟩
  | succ i ih =>
    unfold firstOfTerm
    split
    · rename_i hlt
      rw [h.termAt_eq (Nat.le_of_lt_succ hlt) (Nat.le_of_succ_le hi)]
      simp only [Option.bind_eq_bind, Option.bind_some]
      split
      · exact ih (Nat.le_of_succ_le hi)
      · exact ⟨_, rfl⟩
    · exact ⟨_, rfl⟩

/-- The consistency check fails: nothing changes. -/
theorem Wf.appendChecked_rejects (h : rf.Wf) {args : AppendEntriesArgs n C} (ci : Option Nat)
    (hp : rf.lastIncludedIndex ≤ args.prevLogIndex)
    (hno : ¬ (args.prevLogIndex ≤ rf.logical.length ∧
      termOf rf.logical args.prevLogIndex = args.prevLogTerm)) :
    ∃ reply, rf.appendChecked args ci = some (rf, reply) ∧ reply.success = false := by
  unfold appendChecked
  rw [h.lastLogIndex_eq]
  split
  · exact ⟨_, rfl, rfl⟩
  · rename_i hle
    have hle' : args.prevLogIndex ≤ rf.logical.length := Nat.le_of_not_lt hle
    have hterm : termOf rf.logical args.prevLogIndex ≠ args.prevLogTerm :=
      fun heq => hno ⟨hle', heq⟩
    obtain ⟨first, hfirst⟩ :=
      h.firstOfTerm_total (termOf rf.logical args.prevLogIndex) hle'
    simp only [h.termAt_eq hp hle', Option.bind_eq_bind, Option.bind_some, ne_eq, hterm,
      not_false_eq_true, if_true, hfirst]
    exact ⟨_, rfl, rfl⟩

/-- The consistency check passes: the entries are spliced into the logical log,
    and the commit index follows the leader's. -/
theorem Wf.appendChecked_accepts (h : rf.Wf) {args : AppendEntriesArgs n C} (ci : Option Nat)
    (hp : rf.lastIncludedIndex ≤ args.prevLogIndex)
    (hlen : args.prevLogIndex ≤ rf.logical.length)
    (hterm : termOf rf.logical args.prevLogIndex = args.prevLogTerm) :
    ∃ l reply, ({ rf with log := l } : Raft n C D).Wf ∧
      ({ rf with log := l } : Raft n C D).logical =
        spliceAt rf.logical args.prevLogIndex args.entries ∧
      reply.success = true ∧
      rf.appendChecked args ci = some (
        (let rf₁ := ({ rf with log := l } : Raft n C D).persist
        if rf₁.commitIndex < args.leaderCommit then
          { rf₁ with commitIndex := min args.leaderCommit rf₁.lastLogIndex }
        else rf₁), reply) := by
  obtain ⟨l, hl, hwf, hlog⟩ := h.appendNew_eq hp hlen args.entries
  suffices hreply : ∃ reply, reply.success = true ∧ rf.appendChecked args ci = some (_, reply) by
    obtain ⟨reply, hsuccess, heq⟩ := hreply
    exact ⟨l, reply, hwf, hlog, hsuccess, heq⟩
  unfold appendChecked
  rw [h.lastLogIndex_eq, if_neg (Nat.not_lt.mpr hlen)]
  simp only [h.termAt_eq hp hlen, Option.bind_eq_bind, Option.bind_some, hterm, ne_eq,
    not_true_eq_false, if_false, hl]
  exact ⟨_, rfl, rfl⟩

theorem Wf.appendChecked_cases (h : rf.Wf) {args : AppendEntriesArgs n C}
    {ci : Option Nat} {rf' : Raft n C D} {reply : AppendEntriesReply}
    (hp : rf.lastIncludedIndex ≤ args.prevLogIndex)
    (hst : rf.appendChecked args ci = some (rf', reply)) :
    (rf' = rf ∧ reply.success = false) ∨
    (args.prevLogIndex ≤ rf.logical.length ∧
      termOf rf.logical args.prevLogIndex = args.prevLogTerm ∧ reply.success = true ∧
      ∃ l, ({ rf with log := l } : Raft n C D).Wf ∧
        ({ rf with log := l } : Raft n C D).logical =
          spliceAt rf.logical args.prevLogIndex args.entries ∧
        rf' = (let rf₁ := ({ rf with log := l } : Raft n C D).persist
          if rf₁.commitIndex < args.leaderCommit then
            { rf₁ with commitIndex := min args.leaderCommit rf₁.lastLogIndex }
          else rf₁)) := by
  by_cases hok : args.prevLogIndex ≤ rf.logical.length ∧
      termOf rf.logical args.prevLogIndex = args.prevLogTerm
  · obtain ⟨l, reply', hwf, hlog, hsuccess, heq⟩ := h.appendChecked_accepts ci hp hok.1 hok.2
    obtain ⟨rfl, rfl⟩ := Prod.mk.inj (Option.some.inj (heq.symm.trans hst))
    exact .inr ⟨hok.1, hok.2, hsuccess, l, hwf, hlog, rfl⟩
  · obtain ⟨reply', heq, hno⟩ := h.appendChecked_rejects ci hp hok
    obtain ⟨rfl, rfl⟩ := Prod.mk.inj (Option.some.inj (heq.symm.trans hst))
    exact .inl ⟨rfl, hno⟩

/-- `AppendEntries` refuses a stale term, rejects, or splices entries into the
    logical log: those of the request where the consistency check passes, or
    those beyond the snapshot when the request starts inside it. -/
theorem Wf.appendEntries_cases (h : rf.Wf) {args : AppendEntriesArgs n C} {rf' : Raft n C D}
    {reply : AppendEntriesReply} (hst : rf.appendEntries args = some (rf', reply)) :
    (args.term < rf.currentTerm ∧ rf' = rf ∧ reply.success = false) ∨
    (rf.currentTerm ≤ args.term ∧ rf' = rf.followLeader args.term ∧
      reply.success = false) ∨
    (rf.currentTerm ≤ args.term ∧ reply.success = true ∧ ∃ p es l,
      ((rf.lastIncludedIndex ≤ args.prevLogIndex ∧ p = args.prevLogIndex ∧
          es = args.entries ∧ p ≤ rf.logical.length ∧
          termOf rf.logical p = args.prevLogTerm) ∨
        (args.prevLogIndex < rf.lastIncludedIndex ∧
          rf.lastIncludedIndex < args.prevLogIndex + args.entries.length ∧
          p = rf.lastIncludedIndex ∧
          es = args.entries.drop (rf.lastIncludedIndex - args.prevLogIndex))) ∧
      (rf.accepted args l).Wf ∧ (rf.accepted args l).logical = spliceAt rf.logical p es ∧
      rf' = rf.accepted args l) := by
  unfold appendEntries at hst
  split at hst
  · rename_i hlt
    obtain ⟨rfl, rfl⟩ := Prod.mk.inj (Option.some.inj hst)
    exact .inl ⟨hlt, rfl, rfl⟩
  rename_i hge
  have hle : rf.currentTerm ≤ args.term := Nat.le_of_not_lt hge
  have hwf := h.followLeader args.term
  have hacc : ∀ l X, ({ rf.followLeader args.term with log := l } : Raft n C D).Wf →
      ({ rf.followLeader args.term with log := l } : Raft n C D).logical = X →
      (rf.accepted args l).Wf ∧ (rf.accepted args l).logical = X := by
    intro l X hwf' hX
    unfold accepted
    dsimp only
    split
    · exact ⟨⟨hwf'.slot0, hwf'.covers_length, hwf'.covers_term⟩, hX⟩
    · exact ⟨⟨hwf'.slot0, hwf'.covers_length, hwf'.covers_term⟩, hX⟩
  dsimp only at hst
  simp only [followLeader_lastIncludedIndex, followLeader_lastIncludedTerm] at hst
  split at hst
  · rename_i hin
    split at hst
    · obtain ⟨rfl, rfl⟩ := Prod.mk.inj (Option.some.inj hst)
      exact .inr (.inl ⟨hle, rfl, rfl⟩)
    · rename_i hbeyond
      rcases hwf.appendChecked_cases (by simp) hst with ⟨rfl, hno⟩ |
        ⟨-, -, hok, l, hl, hX, rfl⟩
      · exact .inr (.inl ⟨hle, rfl, hno⟩)
      · rw [followLeader_logical] at hX
        obtain ⟨h1, h2⟩ := hacc l _ hl hX
        exact .inr (.inr ⟨hle, hok, _, _, l,
          .inr ⟨hin, Nat.lt_of_not_le hbeyond, rfl, rfl⟩, h1, h2, rfl⟩)
  · rename_i hout
    have hout' : rf.lastIncludedIndex ≤ args.prevLogIndex := Nat.le_of_not_lt hout
    rcases hwf.appendChecked_cases (by simpa using hout') hst with ⟨rfl, hno⟩ |
      ⟨hlen, hterm, hok, l, hl, hX, rfl⟩
    · exact .inr (.inl ⟨hle, rfl, hno⟩)
    · rw [followLeader_logical] at hX hlen hterm
      obtain ⟨h1, h2⟩ := hacc l _ hl hX
      exact .inr (.inr
        ⟨hle, hok, _, _, l, .inl ⟨hout', rfl, rfl, hlen, hterm⟩, h1, h2, rfl⟩)

theorem sameService_accepted (rf : Raft n C D) (args : AppendEntriesArgs n C)
    (l : List (LogEntry C)) : SameService rf (rf.accepted args l) := by
  have h := sameService_followLeader rf args.term
  unfold accepted
  dsimp only
  split
  · exact ⟨h.lastApplied, h.lastIncludedIndex, h.snapshot⟩
  · exact ⟨h.lastApplied, h.lastIncludedIndex, h.snapshot⟩

/-- With a commit bound inside the new log, the commit index becomes the larger of
    the two. -/
theorem accepted_eq {args : AppendEntriesArgs n C} {l : List (LogEntry C)}
    (hwf : (rf.accepted args l).Wf)
    (hle : args.leaderCommit ≤ (rf.accepted args l).logical.length) :
    rf.accepted args l =
      { ({ rf.followLeader args.term with log := l } : Raft n C D).persist with
        commitIndex := max rf.commitIndex args.leaderCommit } := by
  rw [← hwf.lastLogIndex_eq] at hle
  have hcommit : ({ rf.followLeader args.term with log := l } : Raft n C D).persist.commitIndex =
      rf.commitIndex := followLeader_commitIndex rf args.term
  unfold accepted at hle ⊢
  dsimp only at hle ⊢
  generalize ({ rf.followLeader args.term with log := l } : Raft n C D).persist = rf₁
    at hle hcommit ⊢
  rw [hcommit] at hle ⊢
  split at hle
  · rename_i hlt
    have hle' : args.leaderCommit ≤ rf₁.lastLogIndex := hle
    rw [if_pos hlt, max_eq_right hlt.le, min_eq_left hle']
  · rename_i hge
    rw [if_neg hge, max_eq_left (by omega), ← hcommit]

/-- `advanceCommit` leaves the commit index alone or moves it forward to an entry
    of the current term that a majority holds. -/
theorem Wf.advanceCommit_cases (h : rf.Wf) {rf' : Raft n C D}
    (hst : rf.advanceCommit = some rf') :
    rf' = rf ∨ ∃ k e, rf.commitIndex ≤ k ∧ rf.logical[k]? = some e ∧
      e.term = rf.currentTerm ∧ n / 2 < rf.replicaCount (k + 1) ∧
      rf' = { rf with commitIndex := k + 1 } := by
  unfold advanceCommit at hst
  generalize rf.lastLogIndex = i at hst
  induction i with
  | zero => exact .inl (Option.some.inj hst).symm
  | succ i ih =>
    unfold advanceCommitFrom at hst
    split at hst
    · rename_i hlt
      simp only [Option.bind_eq_bind, Option.bind_eq_some_iff] at hst
      obtain ⟨t, ht, hst⟩ := hst
      split at hst
      · exact ih hst
      · rename_i hterm
        split at hst
        · rename_i hmaj
          obtain ⟨-, hhi, htt⟩ := h.termAt_some ht
          have hget : rf.logical[i]? = some rf.logical[i] := List.getElem?_eq_getElem hhi
          refine .inr ⟨i, _, Nat.le_of_lt_succ hlt, hget, ?_, hmaj, (Option.some.inj hst).symm⟩
          rw [← termOf_succ hget, ← htt]
          exact not_not.mp hterm
        · exact ih hst
    · exact .inl (Option.some.inj hst).symm

theorem handleSnapshotReply_cases (rf : Raft n C D) (server : Fin n)
    (args : InstallSnapshotArgs n C D) (reply : InstallSnapshotReply) :
    rf.handleSnapshotReply server args reply = rf ∨
    (rf.currentTerm < reply.term ∧
      rf.handleSnapshotReply server args reply = rf.becomeFollower reply.term) ∨
    (rf.role = .leader ∧ rf.currentTerm = args.term ∧ reply.term ≤ args.term ∧
      rf.handleSnapshotReply server args reply =
        { rf with
          matchIndex := Function.update rf.matchIndex server
            (max (rf.matchIndex server) args.lastIncludedIndex)
          nextIndex := Function.update rf.nextIndex server
            (max (rf.matchIndex server) args.lastIncludedIndex + 1) }) := by
  unfold handleSnapshotReply
  split
  · exact .inl rfl
  · rename_i hlead
    simp only [ne_eq, not_or, not_not] at hlead
    split
    · rename_i hlt
      exact .inr (.inl ⟨hlt, rfl⟩)
    · exact .inr (.inr ⟨hlead.1, hlead.2, by omega, rfl⟩)

theorem handleAppendReply_cases {server : Fin n} {args : AppendEntriesArgs n C}
    {reply : AppendEntriesReply} {rf' : Raft n C D}
    (hst : rf.handleAppendReply server args reply = some rf') :
    rf' = rf ∨
    (rf.currentTerm < reply.term ∧ rf' = rf.becomeFollower reply.term) ∨
    (rf.role = .leader ∧ rf.currentTerm = args.term ∧ reply.term ≤ args.term ∧
      reply.success = false ∧
      ∃ next, rf' = { rf with nextIndex := Function.update rf.nextIndex server next }) ∨
    (rf.role = .leader ∧ rf.currentTerm = args.term ∧ reply.success = true ∧
      (if rf.matchIndex server < args.prevLogIndex + args.entries.length then
        { rf with
          matchIndex := Function.update rf.matchIndex server
            (args.prevLogIndex + args.entries.length)
          nextIndex := Function.update rf.nextIndex server
            (args.prevLogIndex + args.entries.length + 1) }
      else rf).advanceCommit = some rf') := by
  unfold handleAppendReply at hst
  split at hst
  · exact .inl (Option.some.inj hst).symm
  · rename_i hlead
    simp only [ne_eq, not_or, not_not] at hlead
    split at hst
    · rename_i hlt
      exact .inr (.inl ⟨hlt, (Option.some.inj hst).symm⟩)
    · split at hst
      · rename_i hok
        exact .inr (.inr (.inr ⟨hlead.1, hlead.2, hok, hst⟩))
      · rename_i hno
        simp only [Option.bind_eq_bind, Option.bind_eq_some_iff] at hst
        obtain ⟨next, -, hst⟩ := hst
        exact .inr (.inr (.inl ⟨hlead.1, hlead.2, by omega, by simpa using hno, _,
          (Option.some.inj hst).symm⟩))

theorem Wf.advanceCommit_logical (h : rf.Wf) {rf' : Raft n C D}
    (hst : rf.advanceCommit = some rf') : rf'.logical = rf.logical := by
  rcases h.advanceCommit_cases hst with rfl | ⟨k, e, -, -, -, -, rfl⟩
  · rfl
  · rfl

theorem Wf.handleAppendReply_logical (h : rf.Wf) {server : Fin n} {args : AppendEntriesArgs n C}
    {reply : AppendEntriesReply} {rf' : Raft n C D}
    (hst : rf.handleAppendReply server args reply = some rf') : rf'.logical = rf.logical := by
  rcases handleAppendReply_cases hst with rfl | ⟨-, rfl⟩ | ⟨-, -, -, -, next, rfl⟩ |
    ⟨-, -, -, hadv⟩
  · rfl
  · rfl
  · rfl
  · split at hadv
    · have hsame := (h.setPeers _ _).advanceCommit_logical hadv
      exact hsame
    · exact h.advanceCommit_logical hadv

theorem Wf.sameService_advanceCommit (h : rf.Wf) {rf' : Raft n C D}
    (hst : rf.advanceCommit = some rf') : SameService rf rf' := by
  rcases h.advanceCommit_cases hst with rfl | ⟨k, e, -, -, -, -, rfl⟩
  · exact .refl _
  · exact ⟨rfl, rfl, rfl⟩

theorem Wf.sameService_handleAppendReply (h : rf.Wf) {server : Fin n}
    {args : AppendEntriesArgs n C} {reply : AppendEntriesReply} {rf' : Raft n C D}
    (hst : rf.handleAppendReply server args reply = some rf') : SameService rf rf' := by
  rcases handleAppendReply_cases hst with rfl | ⟨-, rfl⟩ | ⟨-, -, -, -, next, rfl⟩ |
    ⟨-, -, -, hadv⟩
  · exact .refl _
  · exact ⟨rfl, rfl, rfl⟩
  · exact ⟨rfl, rfl, rfl⟩
  · split at hadv
    · obtain ⟨h1, h2, h3⟩ := (h.setPeers _ _).sameService_advanceCommit hadv
      exact ⟨h1, h2, h3⟩
    · exact h.sameService_advanceCommit hadv

/-! ### Delivery and compaction -/

theorem Wf.applier_cases (h : rf.Wf) {rf' : Raft n C D} {msg : Option (ApplyMsg C D)}
    (hst : rf.applier = some (rf', msg)) :
    (rf' = rf ∧ msg = none) ∨
    (rf.lastApplied < rf.commitIndex ∧ rf.lastIncludedIndex ≤ rf.lastApplied ∧
      ∃ e, rf.logical[rf.lastApplied]? = some e ∧
        rf' = { rf with lastApplied := rf.lastApplied + 1 } ∧
        msg = some (.command e.command (rf.lastApplied + 1))) := by
  unfold applier at hst
  split at hst
  · rename_i hgo
    dsimp only at hst
    rw [if_neg (by omega)] at hst
    simp only [Option.bind_eq_bind, Option.bind_eq_some_iff] at hst
    obtain ⟨e, he, hst⟩ := hst
    obtain ⟨rfl, rfl⟩ := Prod.mk.inj (Option.some.inj hst)
    refine .inr ⟨hgo.1, hgo.2, e, ?_, rfl, rfl⟩
    rw [← h.entryAt_eq hgo.2]
    exact he
  · obtain ⟨rfl, rfl⟩ := Prod.mk.inj (Option.some.inj hst)
    exact .inl ⟨rfl, rfl⟩

variable [Inhabited C]

theorem Wf.snapshot_cases (h : rf.Wf) {index : Nat} {data : D} {rf' : Raft n C D}
    (hst : rf.snapshot index data = some rf') :
    rf' = rf ∨
    (rf.lastIncludedIndex < index ∧ index ≤ rf.commitIndex ∧ index ≤ rf.logical.length ∧
      rf'.Wf ∧ rf'.logical = rf.logical ∧
      rf' = { rf with
        lastIncludedTerm := termOf rf.logical index
        lastIncludedIndex := index
        log := dummy (termOf rf.logical index) :: rf.logical.drop index }.save
        { data := data, covers := rf.logical.take index }) := by
  unfold snapshot at hst
  split at hst
  · exact .inl (Option.some.inj hst).symm
  · rename_i hgo
    simp only [not_or, not_le, not_lt] at hgo
    simp only [Option.bind_eq_bind, Option.bind_eq_some_iff] at hst
    obtain ⟨t, ht, hst⟩ := hst
    obtain ⟨hlo, hhi, rfl⟩ := h.termAt_some ht
    rw [← h.drop_logical hlo] at hst
    refine .inr ⟨hgo.1, hgo.2, hhi, ?_, ?_, (Option.some.inj hst).symm⟩
    · rw [← Option.some.inj hst]
      refine ⟨⟨_, _, rfl, rfl⟩, ?_, ?_⟩
      · simp [save, List.length_take, hhi]
      · rfl
    · rw [← Option.some.inj hst]
      simp [save, logical]

/-- `Snapshot` does not panic. -/
theorem Wf.snapshot_total (h : rf.Wf) (hle : rf.commitIndex ≤ rf.logical.length) (index : Nat)
    (data : D) : ∃ rf', rf.snapshot index data = some rf' := by
  unfold snapshot
  split
  · exact ⟨_, rfl⟩
  · rename_i hgo
    simp only [not_or, not_le, not_lt] at hgo
    rw [h.termAt_eq hgo.1.le (hgo.2.trans hle)]
    exact ⟨_, rfl⟩

/-- `InstallSnapshot` refuses a stale term, ignores a snapshot it does not need,
    or keeps of its logical log what follows the snapshot, if its own entry
    there has the snapshot's term, and nothing otherwise. -/
theorem Wf.installSnapshot_cases (h : rf.Wf) {args : InstallSnapshotArgs n C D}
    {rf' : Raft n C D} {reply : InstallSnapshotReply} {msg : Option (ApplyMsg C D)}
    (hst : rf.installSnapshot args = some (rf', reply, msg)) :
    (args.term < rf.currentTerm ∧ rf' = rf ∧ args.term < reply.term ∧ msg = none) ∨
    (rf.currentTerm ≤ args.term ∧ args.lastIncludedIndex ≤ rf.lastIncludedIndex ∧
      rf' = rf.followLeader args.term ∧ msg = none) ∨
    (rf.currentTerm ≤ args.term ∧ rf.lastIncludedIndex < args.lastIncludedIndex ∧
      msg = some (.snapshot args.data args.lastIncludedTerm args.lastIncludedIndex) ∧
      ∃ tail,
        ((args.lastIncludedIndex < rf.logical.length ∧
            termOf rf.logical args.lastIncludedIndex = args.lastIncludedTerm ∧
            tail = rf.logical.drop args.lastIncludedIndex) ∨
          (¬ (args.lastIncludedIndex < rf.logical.length ∧
            termOf rf.logical args.lastIncludedIndex = args.lastIncludedTerm) ∧
            tail = [])) ∧
        rf' = ({ rf.followLeader args.term with
          log := dummy args.lastIncludedTerm :: tail
          lastIncludedIndex := args.lastIncludedIndex
          lastIncludedTerm := args.lastIncludedTerm
          commitIndex := max rf.commitIndex args.lastIncludedIndex
          lastApplied := max rf.lastApplied args.lastIncludedIndex } :
            Raft n C D).save args.data) := by
  unfold installSnapshot at hst
  split at hst
  · rename_i hlt
    simp only [Option.some.injEq, Prod.mk.injEq] at hst
    obtain ⟨rfl, rfl, rfl⟩ := hst
    exact .inl ⟨hlt, rfl, hlt, rfl⟩
  rename_i hge
  have hle : rf.currentTerm ≤ args.term := Nat.le_of_not_lt hge
  dsimp only at hst
  simp only [followLeader_lastIncludedIndex] at hst
  split at hst
  · rename_i hold
    simp only [Option.some.injEq, Prod.mk.injEq] at hst
    obtain ⟨rfl, rfl, rfl⟩ := hst
    exact .inr (.inl ⟨hle, hold, rfl, rfl⟩)
  · rename_i hnew
    have hnew' : rf.lastIncludedIndex < args.lastIncludedIndex := Nat.lt_of_not_le hnew
    have hwf := h.followLeader args.term
    have hidx : (rf.followLeader args.term).lastIncludedIndex ≤ args.lastIncludedIndex := by
      simpa using hnew'.le
    simp only [Option.bind_eq_bind, Option.bind_eq_some_iff, Option.some.injEq,
      Prod.mk.injEq, followLeader_commitIndex, followLeader_lastApplied] at hst
    obtain ⟨newLog, htrim, rfl, rfl, rfl⟩ := hst
    refine .inr (.inr ⟨hle, hnew', rfl, ?_⟩)
    unfold trimmedLog at htrim
    rw [hwf.lastLogIndex_eq, followLeader_logical] at htrim
    split at htrim
    · rename_i hlen
      rw [hwf.termAt_eq hidx (by rw [followLeader_logical]; exact hlen.le),
        followLeader_logical] at htrim
      simp only [Option.bind_eq_bind, Option.bind_some] at htrim
      split at htrim
      · rename_i hterm
        rw [← Option.some.inj htrim, ← hwf.drop_logical hidx, followLeader_logical]
        exact ⟨_, .inl ⟨hlen, hterm, rfl⟩, rfl⟩
      · rename_i hterm
        rw [← Option.some.inj htrim]
        exact ⟨_, .inr ⟨fun hcon => hterm hcon.2, rfl⟩, rfl⟩
    · rename_i hlen
      rw [← Option.some.inj htrim]
      exact ⟨_, .inr ⟨fun hcon => hlen hcon.1, rfl⟩, rfl⟩

/-- `InstallSnapshot` does not panic. -/
theorem Wf.installSnapshot_total (h : rf.Wf) (args : InstallSnapshotArgs n C D) :
    ∃ r, rf.installSnapshot args = some r := by
  unfold installSnapshot
  split
  · exact ⟨_, rfl⟩
  dsimp only
  split
  · exact ⟨_, rfl⟩
  rename_i hnew
  have hwf := h.followLeader args.term
  unfold trimmedLog
  rw [hwf.lastLogIndex_eq]
  split
  · rename_i hlen
    rw [hwf.termAt_eq (Nat.le_of_not_le hnew) hlen.le]
    simp only [Option.bind_eq_bind, Option.bind_some]
    split
    · exact ⟨_, rfl⟩
    · exact ⟨_, rfl⟩
  · exact ⟨_, rfl⟩

end Raft

end RaftLabs
