import RaftLabs.RaftSafety
import RaftLabs.RaftSteps

/-!
# The commit rule of a follower

`AppendEntries` bounds the leader's commit index by the end of the follower's own
log, where the Raft paper bounds it by the last entry of the request.  For
requests in general the two differ: the log may go on behind the request with
entries of older terms.  They agree for the requests a leader of this code sends,
because such a request carries the whole rest of the leader's log and a commit
index that lies within it.
-/

namespace RaftLabs

variable {n : Nat} {C D : Type}

/-- The rule of the paper: follow the leader's commit index, but not beyond the
    last entry of the request. -/
def commitToLastNew (commitIndex : Nat) (args : AppendEntriesArgs n C) : Nat :=
  if commitIndex < args.leaderCommit then
    min args.leaderCommit (args.prevLogIndex + args.entries.length)
  else commitIndex

theorem commitToLastNew_eq {args : AppendEntriesArgs n C}
    (hle : args.leaderCommit ≤ args.prevLogIndex + args.entries.length) (commitIndex : Nat) :
    commitToLastNew commitIndex args = max commitIndex args.leaderCommit := by
  unfold commitToLastNew
  split
  · rename_i hlt
    rw [min_eq_left hle, max_eq_right hlt.le]
  · rename_i hge
    rw [max_eq_left (Nat.le_of_not_lt hge)]

variable [Inhabited C]

section Matched

variable {c : Cluster n C D} {a : Abs n C} {caller callee : Fin n}
  {args : AppendEntriesArgs n C}

/-- A request is sent by the leader of its term and carries the leader's log from
    the next index of the callee on. -/
theorem Refines.sends (h : Refines c a) (hsend : Sends c caller callee args) :
    (c.servers caller).rf.role = .leader ∧ (c.servers caller).rf.currentTerm = args.term ∧
      args.prevLogIndex ≤ (c.servers caller).rf.logical.length ∧
      args.entries = (c.servers caller).rf.logical.drop args.prevLogIndex ∧
      args.prevLogTerm = termOf (c.servers caller).rf.logical args.prevLogIndex ∧
      args.prevLogIndex + 1 = (c.servers caller).rf.nextIndex callee := by
  rcases (h.servers caller).wf.replicateTo_cases hsend with hnone | ⟨-, -, hsnap⟩ |
    ⟨hrole, hnext, hprev, hargs⟩
  · cases hnone
  · cases hsnap
  · obtain rfl := Request.appendEntries.inj (Option.some.inj hargs)
    exact ⟨hrole, rfl, hprev, rfl, rfl, Nat.sub_add_cancel (Nat.one_le_of_lt hnext)⟩

omit [Inhabited C] in
/-- The prefix behind a request ends where the request ends. -/
theorem request_end_eq {F : List (LogEntry C)} (hprev : args.prevLogIndex ≤ F.length)
    (hentries : args.entries = F.drop args.prevLogIndex) :
    args.prevLogIndex + args.entries.length = F.length := by
  rw [hentries, List.length_drop]
  omega

/-- A follower that accepts a request holds the offered prefix behind it and has
    the larger of the two commit indices. -/
theorem ServerOk.accepts {i : Fin n} {sv : Server n C D} (h : ServerOk a i sv) (hinv : AbsInv a)
    (hargs : AppendOk a args) {rf' : Raft n C D} {reply : AppendEntriesReply}
    (hst : sv.rf.appendEntries args = some (rf', reply)) (hok : reply.success = true) :
    ∃ F, a.offer args.term F args.leaderCommit ∧
      F.length = args.prevLogIndex + args.entries.length ∧
      args.leaderCommit ≤ F.length ∧ rf'.Wf ∧ F <+: rf'.logical ∧
      rf'.commitIndex = max sv.rf.commitIndex args.leaderCommit := by
  rcases h.wf.appendEntries_cases hst with ⟨-, -, hno⟩ | ⟨-, -, hno⟩ |
    ⟨hle, -, p, es, l, hcase, hwf, hlogical, rfl⟩
  · rw [hno] at hok
    cases hok
  · rw [hno] at hok
    cases hok
  · obtain ⟨F, hoffer, hprev, hentries, hprevTerm⟩ := hargs
    have hcommit := (hinv.offer_ok _ _ _ hoffer).2.2.1
    rw [hentries, hprevTerm] at hcase
    have habs := h.spliceAt_offer hinv hle hoffer hprev hcase
    rw [← hlogical] at habs
    refine ⟨F, hoffer, (request_end_eq hprev hentries).symm, hcommit, hwf, ?_, ?_⟩
    · rcases habs with ⟨hpre, heq⟩ | ⟨-, heq⟩
      · rw [heq]
        exact hpre
      · rw [heq]
    · rw [Raft.accepted_eq hwf (hcommit.trans (habs.isPrefix.length_le))]

end Matched

variable [Inhabited D] {c : Cluster n C D}

/-- Whenever a server accepts a request in flight, its commit index becomes what
    the paper's rule makes of it and does not pass the end of the request unless
    it was there before.  The request was sent at some earlier moment by the
    leader of its term, and an entry that is newly covered is the entry that
    this leader holds there at any moment, from then on, at which it still leads
    the term. -/
theorem follower_commit_rule (hc : (cluster n C D).Reachable System.anyStep c)
    {caller callee : Fin n} {args : AppendEntriesArgs n C}
    (hp : Packet.appendRequest caller callee args ∈ c.packets) {rf' : Raft n C D}
    {reply : AppendEntriesReply}
    (hst : (c.servers callee).rf.appendEntries args = some (rf', reply))
    (hok : reply.success = true) :
    rf'.commitIndex = commitToLastNew (c.servers callee).rf.commitIndex args ∧
    rf'.commitIndex ≤
      max (c.servers callee).rf.commitIndex (args.prevLogIndex + args.entries.length) ∧
    ∃ c₀, (cluster n C D).Reachable System.anyStep c₀ ∧
      (cluster n C D).Reaches System.anyStep c₀ c ∧ Sends c₀ caller callee args ∧
      ∀ k, (c.servers callee).rf.commitIndex < k → k ≤ rf'.commitIndex →
        ∃ e, rf'.holds k = some e ∧
          ∀ c₁, (cluster n C D).Reaches System.anyStep c₀ c₁ →
            (c₁.servers caller).rf.role = .leader →
            (c₁.servers caller).rf.currentTerm = args.term →
            (c₁.servers caller).rf.holds k = some e := by
  obtain ⟨c₀, hc₀, hrun, hsend⟩ := request_origin hc hp
  obtain ⟨a₀, ha₀⟩ := exists_refines hc₀
  obtain ⟨a, hsteps, ha⟩ := ha₀.run hrun
  obtain ⟨hext, hinv⟩ := ha₀.inv.steps hsteps
  obtain ⟨F, hoffer, hlen, hcommit, hwf, hpre, heq⟩ :=
    (ha.servers callee).accepts hinv (ha.packets _ hp) hst hok
  obtain ⟨hrole, hterm, hprev, hentries, -⟩ := ha₀.sends hsend
  -- the offered prefix is the log the leader had when it sent the request
  have hF : F = (c₀.servers caller).rf.logical := by
    have hlog : (c₀.servers caller).rf.logical <+: a.leaderLog args.term := by
      rw [← ha₀.leaderLog_eq hrole, hterm]
      exact hext.leaderLog_le _
    have hsame : F.length = (c₀.servers caller).rf.logical.length := by
      rw [hlen, request_end_eq hprev hentries]
    exact (List.prefix_of_prefix_length_le (hinv.offer_ok _ _ _ hoffer).2.1 hlog
      hsame.le).eq_of_length hsame
  rw [hlen] at hcommit
  refine ⟨?_, ?_, c₀, hc₀, hrun, hsend, ?_⟩
  · rw [heq, commitToLastNew_eq hcommit]
  · rw [heq]
    exact max_le_max le_rfl hcommit
  · intro k hold hk
    obtain ⟨k, rfl⟩ : ∃ m, k = m + 1 := ⟨k - 1, by omega⟩
    have hlt : k < F.length := by omega
    have hget : F[k]? = some F[k] := List.getElem?_eq_getElem hlt
    refine ⟨F[k], ?_, ?_⟩
    · rw [hwf.holds_eq]
      exact ReplicatedLog.getElem?_of_isPrefix hpre hget
    · intro c₁ hrun₁ hrole₁ hterm₁
      obtain ⟨a₁, hsteps₁, ha₁⟩ := ha₀.run hrun₁
      have hgrow := ha₀.leader_isPrefix ha₁ (ha₀.inv.steps hsteps₁).1 hrole hrole₁
        (hterm₁.trans hterm.symm)
      rw [(ha₁.servers caller).wf.holds_eq]
      exact ReplicatedLog.getElem?_of_isPrefix (hF ▸ hgrow) hget

/-- After `commitSeven` server 1 has the commit index as well; server 0 takes a
    second entry that nobody else gets, crashes, and server 1 leads term 2.  Its
    first request to server 0 ends at index 1. -/
def leftover : List (Action 3 Nat Nat) :=
  commitSeven ++ ([.replicate 0 1, .deliver 5, .start 0 8, .restart 0, .electionTimeout 1,
    .deliver 8, .deliver 9, .replicate 1 0] : List (Action 3 Nat Nat))

/-- Server 0 accepts the request and has commit index 1 and two entries after it. -/
def takesLeftover (c : Cluster 3 Nat Nat) : Bool :=
  match (c.packets[10]? : Option (Packet 3 Nat Nat)) with
  | some (.appendRequest 1 0 args) =>
    ((c.servers 0).rf.appendEntries args).any fun r =>
      decide (r.2.success = true ∧ (c.servers 0).rf.commitIndex = 0 ∧
        r.1.lastLogIndex = 2 ∧ r.1.commitIndex = 1)
  | _ => false

/-- Server 0 still holds an entry of term 1 beyond the request it accepts and
    commits index 1 only. -/
theorem follower_commit_rule_leftover :
    ∃ (c : Cluster 3 Nat Nat) (args : AppendEntriesArgs 3 Nat) (rf' : Raft 3 Nat Nat)
      (reply : AppendEntriesReply), (cluster 3 Nat Nat).Reachable System.anyStep c ∧
      Packet.appendRequest 1 0 args ∈ c.packets ∧
      (c.servers 0).rf.appendEntries args = some (rf', reply) ∧ reply.success = true ∧
      (c.servers 0).rf.commitIndex = 0 ∧ rf'.lastLogIndex = 2 ∧
      rf'.commitIndex = commitToLastNew 0 args ∧ rf'.commitIndex = 1 ∧
      ∃ (c₀ : Cluster 3 Nat Nat) (e : LogEntry Nat), Sends c₀ 1 0 args ∧
        rf'.holds 1 = some e ∧ (c₀.servers 1).rf.holds 1 = some e := by
  obtain ⟨c, hc, hP⟩ := (cluster 3 Nat Nat).exists_reachable_of_run System.anyStep leftover
    takesLeftover (by decide +kernel)
  unfold takesLeftover at hP
  split at hP
  · rename_i args hpacket
    obtain ⟨⟨rf', reply⟩, hst, hP⟩ := (Option.any_eq_true _ _).mp hP
    simp only [decide_eq_true_eq] at hP
    obtain ⟨hok, hold, hlast, hnew⟩ := hP
    have hp := List.mem_of_getElem? hpacket
    obtain ⟨hrule, -, c₀, hc₀, -, hsend, hentries⟩ := follower_commit_rule hc hp hst hok
    rw [hold] at hrule hentries
    obtain ⟨e, he, hleader⟩ := hentries 1 Nat.one_pos hnew.ge
    obtain ⟨a₀, ha₀⟩ := exists_refines hc₀
    obtain ⟨hrole, hterm, -⟩ := ha₀.sends hsend
    exact ⟨c, args, rf', reply, hc, hp, hst, hok, hold, hlast, hrule, hnew, c₀, e, hsend, he,
      hleader c₀ .refl hrole hterm⟩
  · cases hP

end RaftLabs
