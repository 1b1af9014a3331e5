import RaftLabs.RaftBounds
import Mathlib.Data.Prod.Lex
import Mathlib.Data.Finset.Max

/-!
# A leader can always be elected

Whatever has happened so far, and whichever messages are still around, a cluster of
at least two servers can come to have a leader in the highest term there is,
without a crash.  If there is none yet, a server with a most up-to-date log stands
in a term above all others and is granted every vote that it asks for.  If that
server still takes itself for the leader of an old term it first has to hear of a
later one.
-/

namespace RaftLabs

open ReplicatedLog (lastTerm UpToDate)

variable {n : Nat} {C D : Type}

/-! ### Votes -/

namespace Raft

variable {rf : Raft n C D}

/-- A server in an earlier term grants its vote to a log that is up to date. -/
theorem Wf.requestVote_grants (h : rf.Wf) {args : RequestVoteArgs n}
    (hterm : rf.currentTerm < args.term)
    (hup : lastTerm LogEntry.term rf.logical < args.lastLogTerm ∨
      (lastTerm LogEntry.term rf.logical = args.lastLogTerm ∧
        rf.logical.length ≤ args.lastLogIndex)) :
    ∃ rf', rf.requestVote args = some (rf', { term := args.term, voteGranted := true }) ∧
      rf'.currentTerm = args.term ∧ rf'.logical = rf.logical := by
  obtain ⟨b, hb, hiff⟩ := (h.observeTerm args.term).candidateUpToDate_eq
    args.lastLogIndex args.lastLogTerm
  rw [observeTerm_logical] at hiff
  obtain rfl := hiff.mpr hup
  have hnew : (rf.observeTerm args.term).votedFor = none := by
    unfold Raft.observeTerm
    rw [if_pos hterm]
    rfl
  have hcur := observeTerm_currentTerm hterm.le
  refine ⟨{ rf.observeTerm args.term with votedFor := some args.candidateId }.persist, ?_, hcur,
    observeTerm_logical rf args.term⟩
  unfold requestVote
  rw [if_neg (Nat.not_lt.mpr hterm.le)]
  simp only [hb, Option.bind_eq_bind, Option.bind_some, hnew, true_or, true_and, if_true, hcur]

/-- A candidate counts a vote, and leads when it has a majority. -/
theorem handleVoteReply_granted (hrole : rf.role = .candidate) (votes : Nat) :
    rf.handleVoteReply rf.currentTerm votes { term := rf.currentTerm, voteGranted := true } =
      (if n / 2 < votes + 1 then rf.becomeLeader else rf, votes + 1) := by
  unfold handleVoteReply
  rw [if_neg (by simp [hrole]), if_neg (Nat.lt_irrefl _), if_pos rfl]
  split <;> rfl

theorem becomeLeader_currentTerm : rf.becomeLeader.currentTerm = rf.currentTerm := by
  unfold becomeLeader
  split <;> rfl

end Raft

variable [Inhabited C]

/-- Nobody crashes. -/
def noCrash (c : Cluster n C D) (act : Action n C D) : Prop := c.crashed? act = none

/-- Server `l` leads, in the highest term there is. -/
structure Leads (c : Cluster n C D) (l : Fin n) : Prop where
  role : (c.servers l).rf.role = .leader
  highest : ∀ j, (c.servers j).rf.currentTerm ≤ (c.servers l).rf.currentTerm

section Election

variable [Inhabited D] {c c' : Cluster n C D} {i : Fin n}

/-- A run without crashes is a run. -/
theorem reachable_of_noCrash (hc : (cluster n C D).Reachable System.anyStep c)
    (hrun : (cluster n C D).Reaches noCrash c c') :
    (cluster n C D).Reachable System.anyStep c' :=
  hc.trans (Relation.ReflTransGen.mono (fun _ _ ⟨act, _, hst⟩ => ⟨act, trivial, hst⟩) _ _ hrun)

theorem reaches_single {act : Action n C D} (hst : c.step act = some c')
    (hact : noCrash c act) : (cluster n C D).Reaches noCrash c c' :=
  .single ⟨act, hact, hst⟩

/-- Server `i` has just begun to ask for votes. -/
structure Stands (c : Cluster n C D) (i : Fin n) (args : RequestVoteArgs n) : Prop where
  role : (c.servers i).rf.role = .candidate
  term : (c.servers i).rf.currentTerm = args.term
  lastIndex : args.lastLogIndex = (c.servers i).rf.logical.length
  lastTerm : args.lastLogTerm = lastTerm LogEntry.term (c.servers i).rf.logical
  asked : ∀ j, j ≠ i → Packet.voteRequest i j args ∈ c.packets

/-- A server that does not lead may stand, in the next term. -/
theorem exists_stands (hc : (cluster n C D).Reachable System.anyStep c)
    (hrole : (c.servers i).rf.role ≠ .leader) : ∃ c' args, c.step (.electionTimeout i) = some c' ∧
      Stands c' i args ∧ args.term = (c.servers i).rf.currentTerm + 1 ∧
      (c'.servers i).votes = 1 ∧ (c'.servers i).asking = Finset.univ.erase i ∧
      (c'.servers i).rf.logical = (c.servers i).rf.logical ∧
      ∀ j, j ≠ i → c'.servers j = c.servers j := by
  obtain ⟨a, ha⟩ := exists_refines hc
  obtain ⟨rf, args, heq, hrf, hargs⟩ : ∃ rf args,
      (c.servers i).rf.startElection = some (rf, args) ∧
      (rf.role = .candidate ∧ rf.currentTerm = args.term ∧
        rf.logical = (c.servers i).rf.logical) ∧
      args.term = (c.servers i).rf.currentTerm + 1 ∧
      args.lastLogIndex = (c.servers i).rf.logical.length ∧
      args.lastLogTerm = lastTerm LogEntry.term (c.servers i).rf.logical :=
    ⟨_, _, (ha.servers i).wf.startElection_eq, ⟨rfl, rfl, rfl⟩, rfl, rfl, rfl⟩
  let sv : Server n C D :=
    { c.servers i with rf := rf, votes := 1, asking := Finset.univ.erase i }
  let requests : List (Packet n C D) :=
    ((List.finRange n).filter (· ≠ i)).map fun peer => .voteRequest i peer args
  let c' := (c.setServer i sv).post requests
  have hself : c'.servers i = sv := by simp [c', Cluster.post, Cluster.setServer]
  refine ⟨c', args, ?_, ⟨?_, ?_, ?_, ?_, ?_⟩, hargs.1, ?_, ?_, ?_, ?_⟩
  · simp only [Cluster.step, if_neg hrole, heq, Option.bind_eq_bind, Option.bind_some]
    rfl
  · rw [hself]
    exact hrf.1
  · rw [hself]
    exact hrf.2.1
  · rw [hself, hargs.2.1]
    exact congrArg List.length hrf.2.2.symm
  · rw [hself, hargs.2.2]
    exact congrArg (lastTerm LogEntry.term) hrf.2.2.symm
  · intro j hj
    simp [c', requests, Cluster.post, hj]
  · rw [hself]
  · rw [hself]
  · rw [hself]
    exact hrf.2.2
  · intro j hj
    simp [c', Cluster.post, Cluster.setServer, hj]

/-- It may stand again and again until its term is as high as one likes. -/
theorem exists_stands_above (hc : (cluster n C D).Reachable System.anyStep c)
    (hrole : (c.servers i).rf.role ≠ .leader) (T : Nat) :
    ∃ c' args, (cluster n C D).Reaches noCrash c c' ∧ Stands c' i args ∧ T < args.term ∧
      (c'.servers i).votes = 1 ∧ (c'.servers i).asking = Finset.univ.erase i ∧
      (c'.servers i).rf.logical = (c.servers i).rf.logical ∧
      ∀ j, j ≠ i → c'.servers j = c.servers j := by
  induction T with
  | zero =>
    obtain ⟨c', args, hst, hstands, hterm, hrest⟩ := exists_stands hc hrole
    exact ⟨c', args, reaches_single hst rfl, hstands, by omega, hrest⟩
  | succ T ih =>
    obtain ⟨c₁, args₁, hrun₁, hstands₁, hterm₁, -, -, hlog₁, hothers₁⟩ := ih
    obtain ⟨c', args, hst, hstands, hterm, hvotes, hasking, hlog, hothers⟩ :=
      exists_stands (reachable_of_noCrash hc hrun₁) (i := i) (by rw [hstands₁.role]; decide)
    refine ⟨c', args, hrun₁.trans (reaches_single hst rfl), hstands, ?_, hvotes, hasking,
      hlog.trans hlog₁, fun j hj => (hothers j hj).trans (hothers₁ j hj)⟩
    rw [hterm, hstands₁.term]
    omega

/-- The candidate has the votes of `V`, which are no majority yet; the others are in
    earlier terms and their logs are not ahead of the candidate's. -/
structure Collects (c : Cluster n C D) (i : Fin n) (args : RequestVoteArgs n)
    (V : Finset (Fin n)) : Prop where
  stands : Stands c i args
  self : i ∉ V
  votes : (c.servers i).votes = 1 + V.card
  few : (c.servers i).votes ≤ n / 2
  asking : (c.servers i).asking = (Finset.univ.erase i) \ V
  highest : ∀ j, (c.servers j).rf.currentTerm ≤ args.term
  earlier : ∀ j, j ≠ i → j ∉ V → (c.servers j).rf.currentTerm < args.term
  upToDate : ∀ j, UpToDate LogEntry.term (c.servers i).rf.logical (c.servers j).rf.logical

/-- The reply with which a candidate in term `T` gets a vote. -/
def grantedIn (T : Nat) : RequestVoteReply := { term := T, voteGranted := true }

/-- A server in an earlier term whose log is not ahead grants the request. -/
theorem Stands.exists_granted {args : RequestVoteArgs n} (h : Stands c i args)
    (hc : (cluster n C D).Reachable System.anyStep c) {j : Fin n} (hji : j ≠ i)
    (hearlier : (c.servers j).rf.currentTerm < args.term)
    (hup : UpToDate LogEntry.term (c.servers i).rf.logical (c.servers j).rf.logical) :
    ∃ c', (cluster n C D).Reaches noCrash c c' ∧
      (c'.servers j).rf.currentTerm = args.term ∧
      (c'.servers j).rf.logical = (c.servers j).rf.logical ∧
      (∀ p, p ≠ j → c'.servers p = c.servers p) ∧
      c'.packets = c.packets ++ [.voteReply i j args (grantedIn args.term)] := by
  obtain ⟨a, ha⟩ := exists_refines hc
  obtain ⟨rf, hst, hterm, hlog⟩ := (ha.servers j).wf.requestVote_grants hearlier (by
    rw [h.lastTerm, h.lastIndex]
    exact hup)
  obtain ⟨k, hk⟩ := List.mem_iff_getElem?.mp (h.asked j hji)
  let c' := (c.setServer j { c.servers j with rf := rf }).post
    [.voteReply i j args (grantedIn args.term)]
  have hstep : c.step (.deliver k) = some c' := by
    simp only [Cluster.step, hk, Option.bind_some, Cluster.deliver, hst, Option.bind_eq_bind]
    rfl
  have hj : (c'.servers j).rf = rf := by simp [c', Cluster.post, Cluster.setServer]
  refine ⟨c', reaches_single hstep rfl, hj ▸ hterm, hj ▸ hlog, fun p hp => ?_, rfl⟩
  simp [c', Cluster.post, Cluster.setServer, hp]

/-- The candidate counts a vote that it was granted, and leads if it is the one that it
    needs. -/
theorem Stands.exists_counted {args : RequestVoteArgs n} (h : Stands c i args) {j : Fin n} {k : Nat}
    (hpacket : c.packets[k]? = some (.voteReply i j args (grantedIn args.term)))
    (hasking : j ∈ (c.servers i).asking) : ∃ c', (cluster n C D).Reaches noCrash c c' ∧
      (c'.servers i).votes = (c.servers i).votes + 1 ∧
      (c'.servers i).asking = (c.servers i).asking.erase j ∧
      (c'.servers i).rf = (if n / 2 < (c.servers i).votes + 1 then (c.servers i).rf.becomeLeader
        else (c.servers i).rf) ∧
      (∀ p, p ≠ i → c'.servers p = c.servers p) ∧ c'.packets = c.packets := by
  let rf := if n / 2 < (c.servers i).votes + 1 then (c.servers i).rf.becomeLeader
    else (c.servers i).rf
  let sv : Server n C D := { c.servers i with
    rf := rf, votes := (c.servers i).votes + 1, asking := (c.servers i).asking.erase j }
  have hstep : c.step (.deliver k) = some (c.setServer i sv) := by
    have hcount := Raft.handleVoteReply_granted h.role (c.servers i).votes
    rw [h.term] at hcount
    simp only [Cluster.step, hpacket, Option.bind_some, Cluster.deliver]
    rw [if_neg (by simp [h.term, h.role]), if_pos hasking, grantedIn, hcount]
  have hself : (c.setServer i sv).servers i = sv := by simp [Cluster.setServer]
  refine ⟨c.setServer i sv, reaches_single hstep rfl, ?_, ?_, ?_, fun p hp => ?_, rfl⟩
  · rw [hself]
  · rw [hself]
  · rw [hself]
  · simp [Cluster.setServer, hp]

/-- A server that was asked and has not voted gives its vote. -/
theorem Collects.next {args : RequestVoteArgs n} {V : Finset (Fin n)} (h : Collects c i args V)
    (hc : (cluster n C D).Reachable System.anyStep c) {j : Fin n} (hji : j ≠ i) (hjV : j ∉ V) :
    ∃ c', (cluster n C D).Reaches noCrash c c' ∧
      (Leads c' i ∨ Collects c' i args (insert j V)) := by
  obtain ⟨c₁, hrun₁, hterm, hlog, hsame₁, hpackets₁⟩ :=
    h.stands.exists_granted hc hji (h.earlier j hji hjV) (h.upToDate j)
  have hi : c₁.servers i = c.servers i := hsame₁ i hji.symm
  have hstands : Stands c₁ i args :=
    { role := hi ▸ h.stands.role
      term := hi ▸ h.stands.term
      lastIndex := hi ▸ h.stands.lastIndex
      lastTerm := hi ▸ h.stands.lastTerm
      asked := fun p hp => hpackets₁ ▸ List.mem_append_left _ (h.stands.asked p hp) }
  have hpacket : c₁.packets[c.packets.length]? =
      some (.voteReply i j args (grantedIn args.term)) := by
    rw [hpackets₁, List.getElem?_concat_length]
  obtain ⟨c₂, hrun₂, hvotes, hasking, hrf, hsame₂, hpackets₂⟩ := hstands.exists_counted hpacket (by
    rw [hi, h.asking]
    simp [hji, hjV])
  rw [hi] at hvotes hasking hrf
  refine ⟨c₂, hrun₁.trans hrun₂, ?_⟩
  -- nobody's log has changed, and nobody has gone beyond the candidate's term
  have hothers : ∀ p, p ≠ i → p ≠ j → c₂.servers p = c.servers p := fun p hpi hpj =>
    (hsame₂ p hpi).trans (hsame₁ p hpj)
  have hcur : (c₂.servers i).rf.currentTerm = args.term := by
    rw [hrf, ← h.stands.term]
    split
    · exact Raft.becomeLeader_currentTerm
    · rfl
  have hhighest : ∀ p, (c₂.servers p).rf.currentTerm ≤ args.term := by
    intro p
    by_cases hpi : p = i
    · rw [hpi, hcur]
    · rw [hsame₂ p hpi]
      by_cases hpj : p = j
      · rw [hpj, hterm]
      · rw [hsame₁ p hpj]
        exact h.highest p
  by_cases hmaj : n / 2 < (c.servers i).votes + 1
  · rw [if_pos hmaj] at hrf
    refine .inl ⟨?_, fun p => hcur ▸ hhighest p⟩
    rw [hrf]
    simp [Raft.becomeLeader, h.stands.role]
  · rw [if_neg hmaj] at hrf
    refine .inr
      { stands :=
          { role := hrf ▸ h.stands.role
            term := hcur
            lastIndex := hrf ▸ h.stands.lastIndex
            lastTerm := hrf ▸ h.stands.lastTerm
            asked := fun p hp => hpackets₂ ▸ hstands.asked p hp }
        self := by simp [h.self, hji.symm]
        votes := ?_
        few := by omega
        asking := ?_
        highest := hhighest
        earlier := ?_
        upToDate := ?_ }
    · rw [hvotes, h.votes, Finset.card_insert_of_notMem hjV]
      omega
    · rw [hasking, h.asking]
      ext p
      simp only [Finset.mem_erase, Finset.mem_sdiff, Finset.mem_univ, Finset.mem_insert]
      tauto
    · intro p hpi hpV
      have hpj : p ≠ j := fun heq => hpV (heq ▸ Finset.mem_insert_self j V)
      rw [hothers p hpi hpj]
      exact h.earlier p hpi fun hp => hpV (Finset.mem_insert_of_mem hp)
    · intro p
      rw [hrf]
      by_cases hpi : p = i
      · rw [hpi, hrf]
        exact h.upToDate i
      · rw [hsame₂ p hpi]
        by_cases hpj : p = j
        · rw [hpj, hlog]
          exact h.upToDate j
        · rw [hsame₁ p hpj]
          exact h.upToDate p

/-- So it comes to lead. -/
theorem Collects.exists_leads {args : RequestVoteArgs n} {V : Finset (Fin n)}
    (h : Collects c i args V) (hc : (cluster n C D).Reachable System.anyStep c) :
    ∃ c', (cluster n C D).Reaches noCrash c c' ∧ Leads c' i := by
  -- induction on the servers that have not voted
  induction hleft : n - V.card generalizing c V with
  | zero =>
    have := h.votes
    have := h.few
    omega
  | succ left ih =>
    have hexists : ∃ j, j ∉ insert i V := by
      by_contra hall
      have huniv : insert i V = Finset.univ :=
        Finset.eq_univ_of_forall fun j => by_contra fun hj => hall ⟨j, hj⟩
      have hcard := congrArg Finset.card huniv
      rw [Finset.card_insert_of_notMem h.self, Finset.card_univ, Fintype.card_fin] at hcard
      have := h.votes
      have := h.few
      omega
    obtain ⟨j, hj⟩ := hexists
    rw [Finset.mem_insert, not_or] at hj
    obtain ⟨c₁, hrun, hleads | hcollects⟩ := h.next hc hj.1 hj.2
    · exact ⟨c₁, hrun, hleads⟩
    · have hcard := Finset.card_insert_of_notMem hj.2
      obtain ⟨c', hrun', hleads⟩ := ih hcollects (reachable_of_noCrash hc hrun) (by omega)
      exact ⟨c', hrun.trans hrun', hleads⟩

/-- A server whose log is not behind any other, and that does not lead, can come to
    lead. -/
theorem exists_leads_of_upToDate (hn : 2 ≤ n) (hc : (cluster n C D).Reachable System.anyStep c)
    (hrole : (c.servers i).rf.role ≠ .leader)
    (hup : ∀ j, UpToDate LogEntry.term (c.servers i).rf.logical (c.servers j).rf.logical) :
    ∃ c', (cluster n C D).Reaches noCrash c c' ∧ Leads c' i := by
  obtain ⟨m, -, hmax⟩ := Finset.exists_max_image Finset.univ
    (fun j => (c.servers j).rf.currentTerm) ⟨i, Finset.mem_univ i⟩
  obtain ⟨c₁, args, hrun, hstands, hterm, hvotes, hasking, hlog, hothers⟩ :=
    exists_stands_above hc hrole (c.servers m).rf.currentTerm
  have hearlier : ∀ j, j ≠ i → (c₁.servers j).rf.currentTerm < args.term := by
    intro j hj
    rw [hothers j hj]
    exact (hmax j (Finset.mem_univ j)).trans_lt hterm
  have hcollects : Collects c₁ i args ∅ := by
    refine ⟨hstands, by simp, by simp [hvotes], by omega, by simp [hasking], ?_, ?_, ?_⟩
    · intro j
      by_cases hj : j = i
      · rw [hj, hstands.term]
      · exact (hearlier j hj).le
    · exact fun j hj _ => hearlier j hj
    · intro j
      rw [hlog]
      by_cases hj : j = i
      · rw [hj, hlog]
        exact hup i
      · rw [hothers j hj]
        exact hup j
  obtain ⟨c', hrun', hleads⟩ := hcollects.exists_leads (reachable_of_noCrash hc hrun)
  exact ⟨c', hrun.trans hrun', hleads⟩

omit [Inhabited C] [Inhabited D] in
/-- Some log is not behind any other. -/
theorem exists_upToDate (c : Cluster n C D) (hn : 0 < n) : ∃ i, ∀ j,
    UpToDate LogEntry.term (c.servers i).rf.logical (c.servers j).rf.logical := by
  obtain ⟨i, -, hmax⟩ := Finset.exists_max_image Finset.univ
    (fun j => toLex (lastTerm LogEntry.term (c.servers j).rf.logical,
      (c.servers j).rf.logical.length)) ⟨⟨0, hn⟩, Finset.mem_univ _⟩
  refine ⟨i, fun j => ?_⟩
  have hle := hmax j (Finset.mem_univ j)
  rwa [Prod.Lex.toLex_le_toLex] at hle

/-- A leader that hears of a later term does not lead any more, and keeps its log. -/
theorem exists_stepDown (hc : (cluster n C D).Reachable System.anyStep c) {m : Fin n}
    (hmi : m ≠ i) (hrole : (c.servers m).rf.role ≠ .leader)
    (hterm : (c.servers i).rf.currentTerm ≤ (c.servers m).rf.currentTerm) :
    ∃ c', (cluster n C D).Reaches noCrash c c' ∧ (c'.servers i).rf.role ≠ .leader ∧
      ∀ j, (c'.servers j).rf.logical = (c.servers j).rf.logical := by
  obtain ⟨c₁, args, hst, hstands, hargs, -, -, hlog, hothers⟩ := exists_stands hc hrole
  have hc₁ := reachable_of_noCrash hc (reaches_single hst rfl)
  obtain ⟨a₁, ha₁⟩ := exists_refines hc₁
  obtain ⟨⟨rf, reply⟩, hvote⟩ := Option.isSome_iff_exists.mp ((noPanic hc₁ i).requestVote args)
  obtain ⟨k, hk⟩ := List.mem_iff_getElem?.mp (hstands.asked i hmi.symm)
  let c₂ := (c₁.setServer i { c₁.servers i with rf := rf }).post [.voteReply m i args reply]
  have hstep : c₁.step (.deliver k) = some c₂ := by
    simp only [Cluster.step, hk, Option.bind_some, Cluster.deliver, hvote, Option.bind_eq_bind]
    rfl
  have hlt : (c₁.servers i).rf.currentTerm < args.term := by
    rw [hothers i hmi.symm]
    omega
  have hdown : ((c₁.servers i).rf.observeTerm args.term).role = .follower := by
    unfold Raft.observeTerm
    rw [if_pos hlt]
    rfl
  have hrf : rf.role = .follower ∧ rf.logical = (c₁.servers i).rf.logical := by
    rcases (ha₁.servers i).wf.requestVote_cases hvote with ⟨hold, -⟩ | ⟨-, rfl, -⟩ | ⟨-, -, -, rfl⟩
    · omega
    · exact ⟨hdown, Raft.observeTerm_logical _ _⟩
    · exact ⟨hdown, Raft.observeTerm_logical _ _⟩
  refine ⟨c₂, (reaches_single hst rfl).trans (reaches_single hstep rfl), ?_, fun j => ?_⟩
  · have hself : (c₂.servers i).rf = rf := by simp [c₂, Cluster.setServer, Cluster.post]
    rw [hself, hrf.1]
    decide
  · have hkept : (c₁.servers j).rf.logical = (c.servers j).rf.logical := by
      by_cases hj : j = m
      · rw [hj, hlog]
      · rw [hothers j hj]
    rw [← hkept]
    by_cases hj : j = i
    · rw [hj, ← hrf.2]
      simp [c₂, Cluster.setServer, Cluster.post]
    · simp [c₂, Cluster.setServer, Cluster.post, Function.update_of_ne hj]

/-- From every reachable state a leader of the highest term can be reached. -/
theorem exists_leads (hn : 2 ≤ n) (hc : (cluster n C D).Reachable System.anyStep c) :
    ∃ c' l, (cluster n C D).Reaches noCrash c c' ∧ Leads c' l := by
  obtain ⟨i, hup⟩ := exists_upToDate c (by omega)
  obtain ⟨m, -, hmax⟩ := Finset.exists_max_image Finset.univ
    (fun j => (c.servers j).rf.currentTerm) ⟨i, Finset.mem_univ i⟩
  have hhighest : ∀ j, (c.servers j).rf.currentTerm ≤ (c.servers m).rf.currentTerm :=
    fun j => hmax j (Finset.mem_univ j)
  by_cases hm : (c.servers m).rf.role = .leader
  · exact ⟨c, m, .refl, hm, hhighest⟩
  · by_cases hi : (c.servers i).rf.role = .leader
    · have hmi : m ≠ i := fun heq => hm (heq ▸ hi)
      obtain ⟨c₁, hrun, hrole, hlog⟩ := exists_stepDown hc hmi hm (hhighest i)
      obtain ⟨c', hrun', hleads⟩ := exists_leads_of_upToDate hn (reachable_of_noCrash hc hrun)
        hrole fun j => by
          rw [hlog i, hlog j]
          exact hup j
      exact ⟨c', i, hrun.trans hrun', hleads⟩
    · obtain ⟨c', hrun, hleads⟩ := exists_leads_of_upToDate hn hc hi hup
      exact ⟨c', i, hrun, hleads⟩

end Election

end RaftLabs
