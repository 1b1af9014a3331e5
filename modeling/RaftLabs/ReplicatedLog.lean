import Mathlib.Data.Finset.Card
import Mathlib.Data.Fintype.Card
import Mathlib.Data.List.Infix
import Mathlib.Logic.Function.Basic
import Mathlib.Logic.Relation

/-!
# A leader-based replicated log, without messages or compaction

This is the protocol behind a Raft-style implementation, stripped to what its
safety rests on.  A peer has a term, a role, a whole log and a commit bound.
Beside the peers the state keeps the history the argument is about: who voted
for whom, the log a candidate stood with, the leader of a term and its log, what
the leaders offered to the other peers and what these acknowledged.

An offer carries a whole prefix of the leader's log.  An implementation that
sends a suffix behind a consistency check, or a snapshot of a compacted prefix,
makes a special case of it.  The entry type is arbitrary; only the term of an
entry matters here.
-/

namespace RaftLabs.ReplicatedLog

/-- A family of sets any two of which meet. -/
structure Quorums (S : Type) where
  IsQuorum : Finset S → Prop
  meet : ∀ P Q, IsQuorum P → IsQuorum Q → ∃ v, v ∈ P ∧ v ∈ Q

/-- More than half of the peers. -/
def majorities (S : Type) [DecidableEq S] [Fintype S] : Quorums S where
  IsQuorum Q := Fintype.card S < 2 * Q.card
  meet := by
    intro P Q hP hQ
    have hne : (P ∩ Q).Nonempty := by
      rw [← Finset.card_pos]
      have hsum := Finset.card_union_add_card_inter P Q
      have hle := Finset.card_le_univ (P ∪ Q)
      omega
    obtain ⟨v, hv⟩ := hne
    exact ⟨v, Finset.mem_inter.mp hv⟩

inductive Role where
  | follower
  | candidate
  | leader
deriving DecidableEq, Repr

structure Peer (E : Type) where
  term : Nat
  role : Role
  log : List E
  commit : Nat

/-- Peers and history.  `bid c T` is the log `c` stood with in term `T`,
    `leaderLog T` the log of the leader of `T` as far as it has grown,
    `ack v T m` says that `v` acknowledged the first `m` entries of it, and
    `offer T F c` that the leader of `T` offered its prefix `F`, of which the
    first `c` entries were committed. -/
structure State (S E : Type) where
  peer : S → Peer E
  ballot : S → Nat → Option S
  bid : S → Nat → Option (List E)
  leader : Nat → Option S
  leaderLog : Nat → List E
  ack : S → Nat → Nat → Prop
  offer : Nat → List E → Nat → Prop

section Protocol

variable {S E : Type} [DecidableEq S] (term : E → Nat) (quorums : Quorums S)

/-- The term of the last entry, `0` for the empty log. -/
def lastTerm (X : List E) : Nat := (X.getLast?.map term).getD 0

/-- A log at least as up to date as `X`: a later last term, or the same last
    term and no fewer entries. -/
def UpToDate (B X : List E) : Prop :=
  lastTerm term X < lastTerm term B ∨
    (lastTerm term X = lastTerm term B ∧ X.length ≤ B.length)

/-- What a log becomes when a peer accepts the offered prefix `F`: it keeps its
    log if that already starts with `F` and replaces it by `F` otherwise. -/
def Absorbs (X F X' : List E) : Prop :=
  (F <+: X ∧ X' = X) ∨ (¬ F <+: X ∧ X' = F)

namespace State

def setPeer (s : State S E) (i : S) (p : Peer E) : State S E :=
  { s with peer := Function.update s.peer i p }

def setBallot (s : State S E) (v : S) (T : Nat) (c : S) : State S E :=
  { s with ballot := Function.update s.ballot v (Function.update (s.ballot v) T (some c)) }

def setBid (s : State S E) (c : S) (T : Nat) (B : List E) : State S E :=
  { s with bid := Function.update s.bid c (Function.update (s.bid c) T (some B)) }

def setLeader (s : State S E) (T : Nat) (l : S) : State S E :=
  { s with leader := Function.update s.leader T (some l) }

def setLeaderLog (s : State S E) (T : Nat) (X : List E) : State S E :=
  { s with leaderLog := Function.update s.leaderLog T X }

def addAck (s : State S E) (v : S) (T m : Nat) : State S E :=
  { s with ack := fun w U k => s.ack w U k ∨ (w = v ∧ U = T ∧ k = m) }

def addOffer (s : State S E) (T : Nat) (F : List E) (c : Nat) : State S E :=
  { s with offer := fun U G d => s.offer U G d ∨ (U = T ∧ G = F ∧ d = c) }

end State

/-- No terms, no entries, no history. -/
def State.initial : State S E where
  peer _ := { term := 0, role := .follower, log := [], commit := 0 }
  ballot _ _ := none
  bid _ _ := none
  leader _ := none
  leaderLog _ := []
  ack _ _ _ := False
  offer _ _ _ := False

/-- The rules of the protocol. -/
inductive Step : State S E → State S E → Prop where
  /-- A peer learns of a later term. -/
  | adopt (s : State S E) (i : S) (T : Nat) (h : (s.peer i).term < T) :
      Step s (s.setPeer i { s.peer i with term := T, role := .follower })
  /-- A peer stands for election in the next term and votes for itself. -/
  | stand (s : State S E) (i : S) :
      Step s (((s.setPeer i { s.peer i with
          term := (s.peer i).term + 1, role := .candidate }).setBallot
          i ((s.peer i).term + 1) i).setBid i ((s.peer i).term + 1) (s.peer i).log)
  /-- A peer votes for a candidate whose bid is up to date with its own log. -/
  | grant (s : State S E) (v c : S) (B : List E)
      (hbid : s.bid c (s.peer v).term = some B)
      (hfree : s.ballot v (s.peer v).term = none ∨ s.ballot v (s.peer v).term = some c)
      (hup : UpToDate term B (s.peer v).log) :
      Step s (s.setBallot v (s.peer v).term c)
  /-- A candidate with the votes of a quorum leads its term. -/
  | win (s : State S E) (c : S) (Q : Finset S)
      (hrole : (s.peer c).role = .candidate) (hQ : quorums.IsQuorum Q)
      (hvotes : ∀ v ∈ Q, s.ballot v (s.peer c).term = some c) :
      Step s (((s.setPeer c { s.peer c with role := .leader }).setLeader
          (s.peer c).term c).setLeaderLog (s.peer c).term (s.peer c).log)
  /-- A leader appends an entry of its term to its log. -/
  | propose (s : State S E) (l : S) (e : E)
      (hrole : (s.peer l).role = .leader) (he : term e = (s.peer l).term) :
      Step s (((s.setPeer l { s.peer l with log := (s.peer l).log ++ [e] }).setLeaderLog
          (s.peer l).term ((s.peer l).log ++ [e])).addAck
          l (s.peer l).term ((s.peer l).log.length + 1))
  /-- A leader offers a prefix of its log together with a commit bound. -/
  | offer (s : State S E) (l : S) (F : List E) (c : Nat)
      (hrole : (s.peer l).role = .leader) (hF : F <+: (s.peer l).log)
      (hc : c ≤ F.length) (hcommit : c ≤ (s.peer l).commit) :
      Step s (s.addOffer (s.peer l).term F c)
  /-- A peer accepts an offer of its term and acknowledges it. -/
  | accept (s : State S E) (f : S) (F : List E) (c : Nat) (X : List E)
      (hoffer : s.offer (s.peer f).term F c) (hX : Absorbs (s.peer f).log F X) :
      Step s ((s.setPeer f { s.peer f with
          role := .follower, log := X, commit := max (s.peer f).commit c }).addAck
          f (s.peer f).term F.length)
  /-- A leader commits an entry of its own term that a quorum acknowledged. -/
  | commit (s : State S E) (l : S) (k : Nat) (e : E) (Q : Finset S)
      (hrole : (s.peer l).role = .leader) (hk : (s.peer l).commit ≤ k)
      (hentry : (s.peer l).log[k]? = some e) (he : term e = (s.peer l).term)
      (hQ : quorums.IsQuorum Q)
      (hacks : ∀ v ∈ Q, ∃ m, k < m ∧ s.ack v (s.peer l).term m) :
      Step s (s.setPeer l { s.peer l with commit := k + 1 })
  /-- A peer falls back to follower, perhaps after a crash in which it forgot
      part of what it knew to be committed. -/
  | retire (s : State S E) (i : S) (c : Nat) (hc : c ≤ (s.peer i).commit) :
      Step s (s.setPeer i { s.peer i with role := .follower, commit := c })

/-- Any number of protocol steps. -/
def Steps : State S E → State S E → Prop := Relation.ReflTransGen (Step term quorums)

end Protocol

end RaftLabs.ReplicatedLog
