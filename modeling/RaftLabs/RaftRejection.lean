import RaftLabs.RaftSafety
import RaftLabs.RaftSteps

/-!
# Rejections and the index a leader backs up to

A follower that refuses entries says where its log ends, where its snapshot ends,
or which term it has at the disputed index and where the run of that term begins.
The leader looks for the last entry of that term in its own log.  Both scans stop
at a snapshot, and not at the same one.

What the leader makes of the reply depends on the two logs only: on the follower's
as it was when it refused, and on the leader's as it is when the reply arrives.
Log matching keeps the new index below the refused one and above everything the
two logs have in common.
-/

namespace RaftLabs

open ReplicatedLog (Extends Sound)

variable {n : Nat} {C D : Type}

/-! ### Logs that agree -/

theorem termOf_congr {X Y : List (LogEntry C)} {m k : Nat} (h : X.take m = Y.take m)
    (hk : k ≤ m) : termOf X k = termOf Y k := by
  have htake : X.take k = Y.take k := by
    rw [← min_eq_left hk, ← List.take_take, h, List.take_take]
  rw [termOf, htake]
  rfl

section Terms

variable {a : Abs n C} {X Y : List (LogEntry C)}

/-- Terms never decrease along a sound log. -/
theorem termOf_le (hinv : AbsInv a) (hX : Sound LogEntry.term a X) {j k : Nat} (hjk : j ≤ k)
    (hk : k ≤ X.length) : termOf X j ≤ termOf X k := by
  cases j with
  | zero => simp
  | succ j =>
    obtain ⟨k, rfl⟩ : ∃ m, k = m + 1 := ⟨k - 1, by omega⟩
    have hj : X[j]? = some X[j] := List.getElem?_eq_getElem (by omega)
    have hk' : X[k]? = some X[k] := List.getElem?_eq_getElem hk
    rw [termOf_succ hj, termOf_succ hk']
    exact hinv.sound_term_le hX (Nat.le_of_succ_le_succ hjk) hj hk'

/-- A sound log that ends in a term is a prefix of the leader's log of that term. -/
theorem take_isPrefix_leaderLog (hX : Sound LogEntry.term a X) {k : Nat} (hpos : 0 < k)
    (hk : k ≤ X.length) : X.take k <+: a.leaderLog (termOf X k) := by
  obtain ⟨k, rfl⟩ : ∃ m, k = m + 1 := ⟨k - 1, by omega⟩
  have hget : X[k]? = some X[k] := List.getElem?_eq_getElem hk
  rw [termOf_succ hget]
  exact hX k _ hget

/-- Two sound logs agree up to an index of one if the other has the same term
    there or later. -/
theorem take_eq_of_later_term (hX : Sound LogEntry.term a X) (hY : Sound LogEntry.term a Y)
    {p i : Nat} (hpos : 0 < p) (hp : p ≤ Y.length) (hpi : p ≤ i) (hi : i ≤ X.length)
    (hterm : termOf X i = termOf Y p) : X.take p = Y.take p := by
  have hpreX := take_isPrefix_leaderLog hX (hpos.trans_le hpi) hi
  have hpreY := take_isPrefix_leaderLog hY hpos hp
  rw [← hterm] at hpreY
  have hpre : Y.take p <+: X.take i := by
    refine List.prefix_of_prefix_length_le hpreY hpreX ?_
    rw [List.length_take, List.length_take]
    omega
  have hlen : (Y.take p).length = p := List.length_take_of_le hp
  have heq := ReplicatedLog.take_eq_of_isPrefix hpre hlen.ge
  rw [List.take_take, List.take_take, min_self, min_eq_left hpi] at heq
  exact heq.symm

end Terms

/-! ### What a rejection says -/

/-- The conflict a follower with log `Y` and a snapshot up to `L` reports for a
    request that follows index `prev` in term `prevTerm`. -/
inductive Conflict (Y : List (LogEntry C)) (L prev prevTerm : Nat) :
    Option Nat → Option Nat → Prop where
  /-- The index is inside the snapshot. -/
  | behind (hlt : prev < L) : Conflict Y L prev prevTerm none (some (L + 1))
  /-- The log is too short. -/
  | missing (hL : L ≤ prev) (hlt : Y.length < prev) :
      Conflict Y L prev prevTerm none (some (Y.length + 1))
  /-- The log has another term there, and has it from `first` on. -/
  | clash (first : Nat) (hL : L ≤ prev) (hlen : prev ≤ Y.length)
      (hterm : termOf Y prev ≠ prevTerm) (hfirst : first ≤ prev)
      (hrun : ∀ k, first ≤ k → k < prev → termOf Y k = termOf Y prev) :
      Conflict Y L prev prevTerm (some (termOf Y prev)) (some first)

namespace Raft

variable {rf : Raft n C D}

/-- The first index of the run of `conflictTerm` that ends below `i`. -/
theorem Wf.firstOfTerm_spec (h : rf.Wf) {conflictTerm i first : Nat}
    (hi : i ≤ rf.logical.length) (hst : rf.firstOfTerm conflictTerm i = some first) :
    first ≤ i ∧ ∀ k, first ≤ k → k < i → termOf rf.logical k = conflictTerm := by
  induction i with
  | zero =>
    obtain rfl := Option.some.inj hst
    exact ⟨le_rfl, fun k _ hk => absurd hk (Nat.not_lt_zero k)⟩
  | succ i ih =>
    unfold firstOfTerm at hst
    split at hst
    · rename_i hlt
      rw [h.termAt_eq (Nat.le_of_lt_succ hlt) (Nat.le_of_succ_le hi)] at hst
      simp only [Option.bind_eq_bind, Option.bind_some] at hst
      split at hst
      · rename_i hterm
        obtain ⟨hle, hrun⟩ := ih (Nat.le_of_succ_le hi) hst
        refine ⟨Nat.le_succ_of_le hle, ?_⟩
        intro k hk hki
        rcases Nat.eq_or_lt_of_le (Nat.le_of_lt_succ hki) with rfl | hlt'
        · exact hterm
        · exact hrun k hk hlt'
      · obtain rfl := Option.some.inj hst
        exact ⟨le_rfl, fun k hk hki => absurd hk (Nat.not_le.mpr hki)⟩
    · obtain rfl := Option.some.inj hst
      exact ⟨le_rfl, fun k hk hki => absurd hk (Nat.not_le.mpr hki)⟩

theorem Wf.appendChecked_conflict (h : rf.Wf) {args : AppendEntriesArgs n C} {ci : Option Nat}
    {rf' : Raft n C D} {reply : AppendEntriesReply}
    (hp : rf.lastIncludedIndex ≤ args.prevLogIndex)
    (hst : rf.appendChecked args ci = some (rf', reply)) (hno : reply.success = false) :
    reply.term = rf.currentTerm ∧ Conflict rf.logical rf.lastIncludedIndex args.prevLogIndex
      args.prevLogTerm reply.conflictTerm reply.conflictIndex := by
  unfold appendChecked at hst
  rw [h.lastLogIndex_eq] at hst
  split at hst
  · rename_i hlt
    obtain ⟨rfl, rfl⟩ := Prod.mk.inj (Option.some.inj hst)
    exact ⟨rfl, .missing hp hlt⟩
  · rename_i hge
    have hlen : args.prevLogIndex ≤ rf.logical.length := Nat.le_of_not_lt hge
    simp only [h.termAt_eq hp hlen, Option.bind_eq_bind, Option.bind_some] at hst
    split at hst
    · rename_i hterm
      simp only [Option.bind_eq_some_iff] at hst
      obtain ⟨first, hfirst, hst⟩ := hst
      obtain ⟨rfl, rfl⟩ := Prod.mk.inj (Option.some.inj hst)
      obtain ⟨hle, hrun⟩ := h.firstOfTerm_spec hlen hfirst
      exact ⟨rfl, .clash first hp hlen hterm hle hrun⟩
    · simp only [Option.bind_eq_some_iff] at hst
      obtain ⟨rf₁, -, hst⟩ := hst
      obtain ⟨-, rfl⟩ := Prod.mk.inj (Option.some.inj hst)
      cases hno

/-- A rejection is a refusal of a stale term or reports a conflict.  Entries that
    go on beyond the snapshot are never rejected. -/
theorem Wf.appendEntries_conflict (h : rf.Wf) {args : AppendEntriesArgs n C} {rf' : Raft n C D}
    {reply : AppendEntriesReply} (hst : rf.appendEntries args = some (rf', reply))
    (hno : reply.success = false) :
    (args.term < rf.currentTerm ∧ reply.term = rf.currentTerm) ∨
    (rf.currentTerm ≤ args.term ∧ reply.term = args.term ∧
      Conflict rf.logical rf.lastIncludedIndex args.prevLogIndex args.prevLogTerm
        reply.conflictTerm reply.conflictIndex) := by
  unfold appendEntries at hst
  split at hst
  · rename_i hlt
    obtain ⟨-, rfl⟩ := Prod.mk.inj (Option.some.inj hst)
    exact .inl ⟨hlt, rfl⟩
  rename_i hge
  have hle : rf.currentTerm ≤ args.term := Nat.le_of_not_lt hge
  have hwf := h.followLeader args.term
  have hcur : (rf.followLeader args.term).currentTerm = args.term := followLeader_currentTerm hle
  dsimp only at hst
  simp only [followLeader_lastIncludedIndex, followLeader_lastIncludedTerm] at hst
  right
  refine ⟨hle, ?_⟩
  split at hst
  · rename_i hin
    split at hst
    · obtain ⟨-, rfl⟩ := Prod.mk.inj (Option.some.inj hst)
      exact ⟨hcur, .behind hin⟩
    · -- the request is aligned with the snapshot, whose term it then carries
      exfalso
      obtain ⟨-, hconf⟩ := hwf.appendChecked_conflict (by simp) hst hno
      have hslot : termOf rf.logical rf.lastIncludedIndex = rf.lastIncludedTerm := by
        rw [termOf, h.take_logical, h.covers_term]
      have hlen := h.le_length
      simp only [followLeader_logical, followLeader_lastIncludedIndex] at hconf
      generalize reply.conflictTerm = ct, reply.conflictIndex = ci at hconf
      cases hconf with
      | behind hlt => exact lt_irrefl _ hlt
      | missing _ hlt => omega
      | clash _ _ _ hterm _ _ => exact hterm hslot
  · rename_i hout
    have hout' : rf.lastIncludedIndex ≤ args.prevLogIndex := Nat.le_of_not_lt hout
    obtain ⟨hreply, hconf⟩ := hwf.appendChecked_conflict (by simpa using hout') hst hno
    exact ⟨hreply.trans hcur, by simpa using hconf⟩

/-! ### What the leader makes of it -/

/-- The last index of `conflictTerm` in the window up to `i`, if there is one. -/
theorem Wf.lastOfTerm_spec (h : rf.Wf) (conflictTerm : Nat) {i : Nat}
    (hi : i ≤ rf.logical.length) :
    (rf.lastOfTerm conflictTerm i = some none ∧
      ∀ k, rf.lastIncludedIndex < k → k ≤ i → termOf rf.logical k ≠ conflictTerm) ∨
    ∃ last, rf.lastOfTerm conflictTerm i = some (some last) ∧ rf.lastIncludedIndex < last ∧
      last ≤ i ∧ termOf rf.logical last = conflictTerm ∧
      ∀ k, last < k → k ≤ i → termOf rf.logical k ≠ conflictTerm := by
  induction i with
  | zero => exact .inl ⟨rfl, fun k hk hki => by omega⟩
  | succ i ih =>
    unfold lastOfTerm
    split
    · rename_i hlt
      rw [h.termAt_eq hlt.le hi]
      simp only [Option.bind_eq_bind, Option.bind_some]
      split
      · rename_i hterm
        exact .inr ⟨i + 1, rfl, hlt, le_rfl, hterm, fun k hk hki => by omega⟩
      · rename_i hterm
        have hstep : ∀ k, k ≤ i + 1 → (k ≤ i → termOf rf.logical k ≠ conflictTerm) →
            termOf rf.logical k ≠ conflictTerm := by
          intro k hki hbelow
          rcases Nat.eq_or_lt_of_le hki with rfl | hlt'
          · exact hterm
          · exact hbelow (Nat.le_of_lt_succ hlt')
        rcases ih (Nat.le_of_succ_le hi) with ⟨hnone, hall⟩ |
          ⟨last, hsome, hincl, hle, hlast, hall⟩
        · exact .inl ⟨hnone, fun k hk hki => hstep k hki (hall k hk)⟩
        · exact .inr ⟨last, hsome, hincl, Nat.le_succ_of_le hle, hlast,
            fun k hk hki => hstep k hki (hall k hk)⟩
    · rename_i hge
      exact .inl ⟨rfl, fun k hk hki => by omega⟩

/-- A rejection in the leader's own term moves the next index and nothing else. -/
theorem handleAppendReply_rejected {server : Fin n} {args : AppendEntriesArgs n C}
    {reply : AppendEntriesReply} {next : Nat} (hrole : rf.role = .leader)
    (hterm : rf.currentTerm = args.term) (hle : reply.term ≤ args.term)
    (hno : reply.success = false) (hnext : rf.backupIndex server reply = some next) :
    rf.handleAppendReply server args reply =
      some { rf with nextIndex := Function.update rf.nextIndex server (max next 1) } := by
  unfold handleAppendReply
  rw [if_neg (by simp [hrole, hterm]), if_neg (by omega), hno]
  simp [hnext]

/-- The index to back up to.  It is the one after the follower's snapshot if that
    covers the refused index.  Otherwise it is not above the refused index, and
    not below what the logs have in common unless the leader's snapshot covers
    it. -/
theorem Wf.backupIndex_spec (h : rf.Wf) {a : Abs n C} (hinv : AbsInv a)
    (hX : Sound LogEntry.term a rf.logical) {Y : List (LogEntry C)}
    (hY : Sound LogEntry.term a Y) {L prev : Nat} (hprev : prev ≤ rf.logical.length)
    {reply : AppendEntriesReply} (hconf : Conflict Y L prev (termOf rf.logical prev)
      reply.conflictTerm reply.conflictIndex) (server : Fin n) :
    ∃ next, rf.backupIndex server reply = some next ∧ (prev < L → next = L + 1) ∧
      (L ≤ prev → max next 1 ≤ prev ∧ ∀ m, m ≤ rf.logical.length → m ≤ Y.length →
        rf.logical.take m = Y.take m →
        m ≤ max next 1 - 1 ∨ max next 1 ≤ rf.lastIncludedIndex) := by
  unfold backupIndex
  rw [h.lastLogIndex_eq]
  generalize reply.conflictTerm = ct, reply.conflictIndex = ci at hconf
  cases hconf with
  | behind hlt => exact ⟨L + 1, by simp, fun _ => rfl, fun hle => by omega⟩
  | missing hL hlt =>
    refine ⟨Y.length + 1, by simp, fun hcon => by omega, fun _ => ⟨by omega, ?_⟩⟩
    intro m _ hm _
    exact .inl (by omega)
  | clash first hL hlen hterm hfirst hrun =>
    -- the logs differ at the refused index, which is therefore not the start
    have hpos : 0 < prev := by
      refine Nat.pos_of_ne_zero ?_
      rintro rfl
      simp at hterm
    have hbelow : ∀ m, rf.logical.take m = Y.take m → m < prev := by
      intro m hm
      by_contra hge
      exact hterm (termOf_congr hm (Nat.le_of_not_lt hge)).symm
    rcases h.lastOfTerm_spec (termOf Y prev) le_rfl with ⟨hnone, hall⟩ |
      ⟨last, hsome, hincl, hle, hlast, hall⟩
    · refine ⟨first, by simp [hnone], fun hcon => by omega, fun _ => ⟨by omega, ?_⟩⟩
      intro m hmX hmY hm
      by_cases hsmall : m ≤ max first 1 - 1
      · exact .inl hsmall
      · -- the leader has the term at `m`, but the scan has not met it
        right
        have hmp := hbelow m hm
        have hterm' : termOf rf.logical m = termOf Y prev := by
          rw [termOf_congr hm le_rfl]
          exact hrun m (by omega) hmp
        by_contra hgt
        exact hall m (by omega) hmX hterm'
    · -- an entry of the term at the refused index or later would make the logs
      -- agree there
      have hltp : last < prev := by
        by_contra hge
        have htake := take_eq_of_later_term hX hY hpos hlen (Nat.le_of_not_lt hge) hle hlast
        exact hterm (termOf_congr htake le_rfl).symm
      refine ⟨last + 1, by simp [hsome], fun hcon => by omega, fun _ => ⟨by omega, ?_⟩⟩
      intro m hmX hmY hm
      left
      by_contra hgt
      have hlm : last < m := by omega
      refine hall m hlm hmX (le_antisymm ?_ ?_)
      · rw [termOf_congr hm le_rfl]
        exact termOf_le hinv hY (hbelow m hm).le hlen
      · rw [← hlast]
        exact termOf_le hinv hX hlm.le hmX

end Raft

/-! ### A rejection in flight -/

section Matched

variable [Inhabited C] {c₀ c : Cluster n C D} {a₀ a : Abs n C} {l s : Fin n}
  {args : AppendEntriesArgs n C} {reply : AppendEntriesReply}

/-- What a server's snapshot covers is part of the log of the leader of any term
    that the server has not left behind. -/
theorem Refines.included_isPrefix (h : Refines c a) {i : Fin n} {T : Nat}
    (hle : (c.servers i).rf.currentTerm ≤ T) (hlead : a.leader T ≠ none) :
    (c.servers i).rf.logical.take (c.servers i).rf.lastIncludedIndex <+: a.leaderLog T := by
  have hshort : (c.servers i).rf.logical.take (c.servers i).rf.lastIncludedIndex <+:
      (c.servers i).rf.logical.take (c.servers i).rf.commitIndex :=
    List.take_prefix_take_left ((h.servers i).included.trans (h.servers i).applied)
  exact h.inv.committed_isPrefix ((h.committedBy i).of_isPrefix hshort) hle hlead

/-- What the leader of the term does with a rejection that the follower gave when
    the cluster was `c₀`. -/
theorem Refines.backup (h₀ : Refines c₀ a₀) (h : Refines c a) (hext : Extends a₀ a)
    (hans : Answers c₀ l s args reply) (hno : reply.success = false)
    (hle : reply.term ≤ args.term) (hrole : (c.servers l).rf.role = .leader)
    (hterm : (c.servers l).rf.currentTerm = args.term) :
    (c₀.servers s).rf.currentTerm ≤ args.term ∧ ∃ v,
      (c.servers l).rf.handleAppendReply s args reply =
        some { (c.servers l).rf with
          nextIndex := Function.update (c.servers l).rf.nextIndex s v } ∧
      (args.prevLogIndex < (c₀.servers s).rf.lastIncludedIndex →
        v = (c₀.servers s).rf.lastIncludedIndex + 1 ∧
        (c₀.servers s).rf.lastIncludedIndex ≤ (c.servers l).rf.logical.length) ∧
      ((c₀.servers s).rf.lastIncludedIndex ≤ args.prevLogIndex → 1 ≤ v ∧
        v ≤ args.prevLogIndex ∧ args.prevLogIndex ≤ (c.servers l).rf.logical.length ∧
        ∀ m, m ≤ (c.servers l).rf.logical.length → m ≤ (c₀.servers s).rf.logical.length →
          (c.servers l).rf.logical.take m = (c₀.servers s).rf.logical.take m →
          m ≤ v - 1 ∨ v ≤ (c.servers l).rf.lastIncludedIndex) := by
  obtain ⟨hreq, rf₀, hst⟩ := hans
  have hwf₀ := (h₀.servers s).wf
  rcases hwf₀.appendEntries_conflict hst hno with ⟨hlt, hreply⟩ | ⟨hfollow, -, hconf⟩
  · -- a stale leader steps down on such a reply
    omega
  obtain ⟨F, hoffer, hprev, -, hprevTerm⟩ := h₀.packets _ hreq
  obtain ⟨hlead, hF, -, -⟩ := h₀.inv.offer_ok _ _ _ hoffer
  have hgrow : a₀.leaderLog args.term <+: (c.servers l).rf.logical := by
    rw [← h.leaderLog_eq hrole, hterm]
    exact hext.leaderLog_le _
  have hlen : args.prevLogIndex ≤ (c.servers l).rf.logical.length :=
    hprev.trans (hF.trans hgrow).length_le
  rw [hprevTerm, termOf_eq_of_isPrefix (hF.trans hgrow) hprev] at hconf
  obtain ⟨next, hnext, hbehind, hback⟩ := (h.servers l).wf.backupIndex_spec h.inv (h.sound l)
    ((h₀.sound s).mono hext) hlen hconf s
  refine ⟨hfollow, max next 1, Raft.handleAppendReply_rejected hrole hterm hle hno hnext, ?_, ?_⟩
  · intro hlt
    have hincl := (h₀.included_isPrefix hfollow hlead).trans hgrow
    have hfull := List.length_take_of_le hwf₀.le_length
    refine ⟨by rw [hbehind hlt, max_eq_left (Nat.le_add_left 1 _)], ?_⟩
    exact hfull ▸ hincl.length_le
  · intro hL
    exact ⟨le_max_right _ _, (hback hL).1, hlen, (hback hL).2⟩

end Matched

end RaftLabs
