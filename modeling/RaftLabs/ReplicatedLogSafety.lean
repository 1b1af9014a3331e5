import RaftLabs.ReplicatedLog

/-!
# Safety of the replicated log

Two notions carry the argument.  A log is *sound* when every prefix ending in an
entry of term `T` is a prefix of the log of the leader of `T`; soundness of all
logs is log matching.  An entry a leader appended is *choosable* while a quorum
may still come to acknowledge it: each member has acknowledged it or has not yet
passed the leader's term.  Being choosable is lost but never regained, and every
later leader starts with every choosable prefix.  A prefix that a quorum has in
fact acknowledged stays choosable, so no later leader can lack it.
-/

namespace RaftLabs.ReplicatedLog

variable {S E : Type} (term : E → Nat) (quorums : Quorums S)

/-! ### Prefixes -/

theorem take_eq_of_isPrefix {X Y : List E} (h : X <+: Y) {k : Nat} (hk : k ≤ X.length) :
    X.take k = Y.take k := by
  obtain ⟨Z, rfl⟩ := h
  rw [List.take_append_of_le_length hk]

theorem getElem?_of_isPrefix {X Y : List E} (h : X <+: Y) {k : Nat} {e : E}
    (hk : X[k]? = some e) : Y[k]? = some e := by
  obtain ⟨Z, rfl⟩ := h
  have hlt : k < X.length := (List.getElem?_eq_some_iff.mp hk).1
  rw [List.getElem?_append_left hlt, hk]

theorem Absorbs.isPrefix {X F X' : List E} (h : Absorbs X F X') : F <+: X' := by
  rcases h with ⟨hpre, rfl⟩ | ⟨-, rfl⟩
  · exact hpre
  · exact List.prefix_rfl

/-- What a log shares with the log the offered prefix is from survives. -/
theorem Absorbs.keeps {X F X' Y P : List E} (h : Absorbs X F X') (hF : F <+: Y) (hPY : P <+: Y)
    (hPX : P <+: X) : P <+: X' := by
  rcases h with ⟨-, rfl⟩ | ⟨hno, rfl⟩
  · exact hPX
  · rcases List.prefix_or_prefix_of_prefix hPY hF with hgood | hshort
    · exact hgood
    · exact absurd (hshort.trans hPX) hno

/-! ### Vocabulary -/

/-- `v` acknowledged entry `k` of the leader's log of `T`. -/
def Acked (s : State S E) (v : S) (T k : Nat) : Prop := ∃ m, k < m ∧ s.ack v T m

/-- Entry `k` of the leader's log of `T` was appended by that leader. -/
def OwnEntry (s : State S E) (T k : Nat) : Prop :=
  ∃ e, (s.leaderLog T)[k]? = some e ∧ term e = T

/-- A quorum acknowledged entry `k`, which the leader of `T` appended. -/
def Chosen (s : State S E) (T k : Nat) : Prop :=
  OwnEntry term s T k ∧ ∃ Q, quorums.IsQuorum Q ∧ ∀ v ∈ Q, Acked s v T k

/-- A quorum has acknowledged entry `k` or may still do so. -/
def Choosable (s : State S E) (T k : Nat) : Prop :=
  OwnEntry term s T k ∧
    ∃ Q, quorums.IsQuorum Q ∧ ∀ v ∈ Q, Acked s v T k ∨ (s.peer v).term ≤ T

/-- Every prefix that ends in an entry of term `T` is a prefix of the leader's
    log of `T`. -/
def Sound (s : State S E) (X : List E) : Prop :=
  ∀ k e, X[k]? = some e → X.take (k + 1) <+: s.leaderLog (term e)

/-- `X` is covered by an entry chosen in a term up to `U`. -/
def CommittedBy (s : State S E) (U : Nat) (X : List E) : Prop :=
  X = [] ∨ ∃ T k, T ≤ U ∧ Chosen term quorums s T k ∧ X <+: (s.leaderLog T).take (k + 1)

/-- What every step leaves in place. -/
structure Extends (s t : State S E) : Prop where
  term_le : ∀ i, (s.peer i).term ≤ (t.peer i).term
  ballot_some : ∀ v T c, s.ballot v T = some c → t.ballot v T = some c
  bid_some : ∀ c T B, s.bid c T = some B → t.bid c T = some B
  leader_some : ∀ T l, s.leader T = some l → t.leader T = some l
  leaderLog_le : ∀ T, s.leaderLog T <+: t.leaderLog T
  ack_mono : ∀ v T m, s.ack v T m → t.ack v T m
  ack_new : ∀ v T m, t.ack v T m → s.ack v T m ∨ (s.peer v).term ≤ T
  offer_mono : ∀ T F c, s.offer T F c → t.offer T F c

theorem Extends.refl (s : State S E) : Extends s s where
  term_le _ := le_rfl
  ballot_some _ _ _ h := h
  bid_some _ _ _ h := h
  leader_some _ _ h := h
  leaderLog_le _ := List.prefix_rfl
  ack_mono _ _ _ h := h
  ack_new _ _ _ h := .inl h
  offer_mono _ _ _ h := h

theorem Extends.trans {s t u : State S E} (hst : Extends s t) (htu : Extends t u) :
    Extends s u where
  term_le i := (hst.term_le i).trans (htu.term_le i)
  ballot_some v T c h := htu.ballot_some v T c (hst.ballot_some v T c h)
  bid_some c T B h := htu.bid_some c T B (hst.bid_some c T B h)
  leader_some T l h := htu.leader_some T l (hst.leader_some T l h)
  leaderLog_le T := (hst.leaderLog_le T).trans (htu.leaderLog_le T)
  ack_mono v T m h := htu.ack_mono v T m (hst.ack_mono v T m h)
  ack_new v T m h := by
    rcases htu.ack_new v T m h with h | h
    · exact hst.ack_new v T m h
    · exact .inr ((hst.term_le v).trans h)
  offer_mono T F c h := htu.offer_mono T F c (hst.offer_mono T F c h)

variable {term quorums} {s t : State S E}

/-- A step that changes logs and acknowledges one more prefix. -/
theorem Extends.of_ack {i : S} {k : Nat} (hterm : ∀ j, (t.peer j).term = (s.peer j).term)
    (hballot : t.ballot = s.ballot) (hbid : t.bid = s.bid) (hleader : t.leader = s.leader)
    (hleaderLog : ∀ T, s.leaderLog T <+: t.leaderLog T)
    (hack : ∀ v T m, t.ack v T m ↔ s.ack v T m ∨ (v = i ∧ T = (s.peer i).term ∧ m = k))
    (hoffer : t.offer = s.offer) : Extends s t where
  term_le j := (hterm j).ge
  ballot_some := by rw [hballot]; exact fun _ _ _ h => h
  bid_some := by rw [hbid]; exact fun _ _ _ h => h
  leader_some := by rw [hleader]; exact fun _ _ h => h
  leaderLog_le := hleaderLog
  ack_mono v T m hm := (hack v T m).mpr (.inl hm)
  ack_new v T m hm := by
    rcases (hack v T m).mp hm with hold | ⟨rfl, rfl, -⟩
    · exact .inl hold
    · exact .inr le_rfl
  offer_mono := by rw [hoffer]; exact fun _ _ _ h => h

theorem Acked.mono (hst : Extends s t) {v : S} {T k : Nat} (h : Acked s v T k) :
    Acked t v T k := by
  obtain ⟨m, hkm, hm⟩ := h
  exact ⟨m, hkm, hst.ack_mono v T m hm⟩

theorem OwnEntry.mono (hst : Extends s t) {T k : Nat} (h : OwnEntry term s T k) :
    OwnEntry term t T k := by
  obtain ⟨e, he, hT⟩ := h
  exact ⟨e, getElem?_of_isPrefix (hst.leaderLog_le T) he, hT⟩

theorem OwnEntry.lt {T k : Nat} (h : OwnEntry term s T k) : k < (s.leaderLog T).length := by
  obtain ⟨e, he, -⟩ := h
  exact (List.getElem?_eq_some_iff.mp he).1

theorem OwnEntry.take_eq (hst : Extends s t) {T k : Nat} (h : OwnEntry term s T k) :
    (t.leaderLog T).take (k + 1) = (s.leaderLog T).take (k + 1) :=
  (take_eq_of_isPrefix (hst.leaderLog_le T) h.lt).symm

/-- An entry that was there before belongs to its leader before as well. -/
theorem OwnEntry.old (hst : Extends s t) {T k : Nat} (h : OwnEntry term t T k)
    (hk : k < (s.leaderLog T).length) : OwnEntry term s T k := by
  obtain ⟨x, hx, hxT⟩ := h
  have hy : (s.leaderLog T)[k]? = some (s.leaderLog T)[k] := List.getElem?_eq_getElem hk
  have hxy := getElem?_of_isPrefix (hst.leaderLog_le T) hy
  rw [hx] at hxy
  exact ⟨_, hy, Option.some.inj hxy ▸ hxT⟩

/-- Nobody acknowledges anything in a term it has left. -/
theorem Acked.old (hst : Extends s t) {v : S} {T k : Nat} (h : Acked t v T k)
    (hlt : T < (s.peer v).term) : Acked s v T k := by
  obtain ⟨m, hkm, hm⟩ := h
  rcases hst.ack_new v T m hm with hold | hle
  · exact ⟨m, hkm, hold⟩
  · omega

theorem Chosen.mono (hst : Extends s t) {T k : Nat} (h : Chosen term quorums s T k) :
    Chosen term quorums t T k := by
  obtain ⟨hown, Q, hQ, hacks⟩ := h
  exact ⟨hown.mono hst, Q, hQ, fun v hv => (hacks v hv).mono hst⟩

theorem Chosen.choosable {T k : Nat} (h : Chosen term quorums s T k) :
    Choosable term quorums s T k := by
  obtain ⟨hown, Q, hQ, hacks⟩ := h
  exact ⟨hown, Q, hQ, fun v hv => .inl (hacks v hv)⟩

/-- What is choosable after a step was choosable before it, unless the entry is
    new. -/
theorem Choosable.anti (hst : Extends s t) {T k : Nat} (hown : OwnEntry term s T k)
    (h : Choosable term quorums t T k) : Choosable term quorums s T k := by
  obtain ⟨-, Q, hQ, hmem⟩ := h
  refine ⟨hown, Q, hQ, ?_⟩
  intro v hv
  rcases hmem v hv with ⟨m, hkm, hm⟩ | hle
  · rcases hst.ack_new v T m hm with hold | hle
    · exact .inl ⟨m, hkm, hold⟩
    · exact .inr hle
  · exact .inr ((hst.term_le v).trans hle)

theorem Sound.mono (hst : Extends s t) {X : List E} (h : Sound term s X) : Sound term t X := by
  intro k e he
  exact (h k e he).trans (hst.leaderLog_le _)

theorem Sound.of_isPrefix {X Y : List E} (hY : Sound term s Y) (h : X <+: Y) :
    Sound term s X := by
  intro k e he
  have hlt : k < X.length := (List.getElem?_eq_some_iff.mp he).1
  rw [take_eq_of_isPrefix h hlt]
  exact hY k e (getElem?_of_isPrefix h he)

/-- An entry appended by the leader of its term. -/
theorem Sound.concat {X : List E} {e : E} (hX : Sound term s X)
    (hlead : X ++ [e] <+: s.leaderLog (term e)) : Sound term s (X ++ [e]) := by
  intro k x hx
  rcases Nat.lt_or_ge k X.length with hk | hk
  · rw [List.getElem?_append_left hk] at hx
    rw [List.take_append_of_le_length hk]
    exact hX k x hx
  · rw [List.getElem?_append_right hk] at hx
    obtain rfl : x = e := List.mem_singleton.mp (List.mem_of_getElem? hx)
    refine List.IsPrefix.trans ?_ hlead
    exact List.take_prefix _ _

/-- Log matching: sound logs with entries of one term at one place are equal up to
    there. -/
theorem Sound.matching {X Y : List E} (hX : Sound term s X) (hY : Sound term s Y) {k : Nat}
    {x y : E} (hx : X[k]? = some x) (hy : Y[k]? = some y) (hterm : term x = term y) :
    X.take (k + 1) = Y.take (k + 1) := by
  have hpx := hX k x hx
  have hpy := hY k y hy
  rw [← hterm] at hpy
  have hkx : k < X.length := (List.getElem?_eq_some_iff.mp hx).1
  have hky : k < Y.length := (List.getElem?_eq_some_iff.mp hy).1
  have hlen : (X.take (k + 1)).length = (Y.take (k + 1)).length := by
    rw [List.length_take, List.length_take]
    omega
  exact (List.prefix_of_prefix_length_le hpx hpy hlen.le).eq_of_length hlen

theorem CommittedBy.mono (hst : Extends s t) {U U' : Nat} (hU : U ≤ U') {X : List E}
    (h : CommittedBy term quorums s U X) : CommittedBy term quorums t U' X := by
  rcases h with rfl | ⟨T, k, hT, hch, hX⟩
  · exact .inl rfl
  · refine .inr ⟨T, k, hT.trans hU, hch.mono hst, ?_⟩
    rw [hch.1.take_eq hst]
    exact hX

theorem CommittedBy.of_isPrefix {U : Nat} {X Y : List E} (h : X <+: Y)
    (hY : CommittedBy term quorums s U Y) : CommittedBy term quorums s U X := by
  rcases hY with rfl | ⟨T, k, hT, hch, hY⟩
  · exact .inl (List.prefix_nil.mp h)
  · exact .inr ⟨T, k, hT, hch, h.trans hY⟩

/-! ### The invariant -/

variable (term quorums) in
/-- What holds in every state of a run.  `complete` is leader completeness,
    `ballot_bid` what a vote says about the bid it was given to, and `ack_log`
    that an acknowledged prefix is not given up while it can matter. -/
structure Inv (s : State S E) : Prop where
  ballot_term : ∀ v U c, s.ballot v U = some c → U ≤ (s.peer v).term
  bid_term : ∀ c U B, s.bid c U = some B → U ≤ (s.peer c).term
  bid_entries : ∀ c U B, s.bid c U = some B → Sound term s B ∧ ∀ e ∈ B, term e < U
  bid_candidate : ∀ c, (s.peer c).role = .candidate →
    s.bid c (s.peer c).term = some (s.peer c).log
  ballot_bid : ∀ v U c, s.ballot v U = some c → ∃ B, s.bid c U = some B ∧
    ∀ T k, T < U → Acked s v T k → Choosable term quorums s T k →
      (s.leaderLog T).take (k + 1) <+: B
  leader_quorum : ∀ T l, s.leader T = some l →
    ∃ Q, quorums.IsQuorum Q ∧ ∀ v ∈ Q, s.ballot v T = some l
  leader_role : ∀ T l, s.leader T = some l → (s.peer l).term = T →
    (s.peer l).role ≠ .candidate
  leaderless : ∀ T, s.leader T = none → s.leaderLog T = []
  leads : ∀ l, (s.peer l).role = .leader →
    s.leader (s.peer l).term = some l ∧ s.leaderLog (s.peer l).term = (s.peer l).log
  leaderLog_entries : ∀ T, Sound term s (s.leaderLog T) ∧ ∀ e ∈ s.leaderLog T, term e ≤ T
  log_entries : ∀ i, Sound term s (s.peer i).log ∧
    ∀ e ∈ (s.peer i).log, term e ≤ (s.peer i).term
  offer_ok : ∀ T F c, s.offer T F c → s.leader T ≠ none ∧ F <+: s.leaderLog T ∧
    c ≤ F.length ∧ CommittedBy term quorums s T (F.take c)
  ack_ok : ∀ v T m, s.ack v T m → T ≤ (s.peer v).term ∧ m ≤ (s.leaderLog T).length
  ack_log : ∀ v T k, Acked s v T k →
    ((s.peer v).term = T ∨ Choosable term quorums s T k) →
    (s.leaderLog T).take (k + 1) <+: (s.peer v).log
  complete : ∀ T U k, T < U → s.leader U ≠ none → Choosable term quorums s T k →
    (s.leaderLog T).take (k + 1) <+: s.leaderLog U
  commit_ok : ∀ i, (s.peer i).commit ≤ (s.peer i).log.length ∧
    CommittedBy term quorums s (s.peer i).term ((s.peer i).log.take (s.peer i).commit)

/-! ### What the rules change -/

section Changes

variable [DecidableEq S] {c i l : S} {e : E}

theorem update_update_apply {α β : Type} [DecidableEq α] (f : α → Nat → β) (a b : α) (T U : Nat)
    (x : β) : Function.update f a (Function.update (f a) T x) b U =
      if b = a ∧ U = T then x else f b U := by
  by_cases hb : b = a
  · subst hb
    by_cases hU : U = T
    · simp [hU]
    · simp [hU]
  · simp [hb]

/-- Peer `i` stands for election. -/
structure Stood (s t : State S E) (i : S) : Prop where
  same : ∀ j, j ≠ i → t.peer j = s.peer j
  self : t.peer i = { s.peer i with term := (s.peer i).term + 1, role := .candidate }
  ballot : ∀ v U, t.ballot v U =
    if v = i ∧ U = (s.peer i).term + 1 then some i else s.ballot v U
  bid : ∀ c U, t.bid c U =
    if c = i ∧ U = (s.peer i).term + 1 then some (s.peer i).log else s.bid c U
  leader : t.leader = s.leader
  leaderLog : t.leaderLog = s.leaderLog
  ack : t.ack = s.ack
  offer : t.offer = s.offer

theorem stood (s : State S E) (i : S) : Stood s (((s.setPeer i { s.peer i with
      term := (s.peer i).term + 1, role := .candidate }).setBallot
      i ((s.peer i).term + 1) i).setBid i ((s.peer i).term + 1) (s.peer i).log) i where
  same _ hj := Function.update_of_ne hj ..
  self := Function.update_self ..
  ballot _ _ := update_update_apply ..
  bid _ _ := update_update_apply ..
  leader := rfl
  leaderLog := rfl
  ack := rfl
  offer := rfl

theorem Stood.term_le (hs : Stood s t i) (j : S) : (s.peer j).term ≤ (t.peer j).term := by
  by_cases hj : j = i
  · subst hj
    rw [hs.self]
    exact Nat.le_succ _
  · rw [hs.same j hj]

/-- Nothing is overwritten: `i` had not reached the term it stands in. -/
theorem Stood.toExtends (hs : Stood s t i) (h : Inv term quorums s) : Extends s t where
  term_le := hs.term_le
  ballot_some v U c hc := by
    have hU := h.ballot_term v U c hc
    rw [hs.ballot, if_neg (by rintro ⟨rfl, rfl⟩; omega)]
    exact hc
  bid_some c U B hB := by
    have hU := h.bid_term c U B hB
    rw [hs.bid, if_neg (by rintro ⟨rfl, rfl⟩; omega)]
    exact hB
  leader_some := by rw [hs.leader]; exact fun _ _ hl => hl
  leaderLog_le := by rw [hs.leaderLog]; exact fun _ => List.prefix_rfl
  ack_mono := by rw [hs.ack]; exact fun _ _ _ hm => hm
  ack_new := by rw [hs.ack]; exact fun _ _ _ hm => .inl hm
  offer_mono := by rw [hs.offer]; exact fun _ _ _ ho => ho

/-- Candidate `c` leads its term. -/
structure Won (s t : State S E) (c : S) : Prop where
  term_eq : ∀ j, (t.peer j).term = (s.peer j).term
  log_eq : ∀ j, (t.peer j).log = (s.peer j).log
  commit_eq : ∀ j, (t.peer j).commit = (s.peer j).commit
  role : ∀ j, (t.peer j).role = if j = c then .leader else (s.peer j).role
  leader : ∀ T, t.leader T = if T = (s.peer c).term then some c else s.leader T
  leaderLog : ∀ T, t.leaderLog T = if T = (s.peer c).term then (s.peer c).log else s.leaderLog T
  ballot : t.ballot = s.ballot
  bid : t.bid = s.bid
  ack : t.ack = s.ack
  offer : t.offer = s.offer

/-- One peer is replaced by another version of itself. -/
theorem update_peer {β : Type} (g : Peer E → β) (p : Peer E) (j : S) :
    g (Function.update s.peer i p j) = if j = i then g p else g (s.peer j) := by
  by_cases hj : j = i
  · subst hj
    simp
  · simp [hj]

theorem update_peer_eq {β : Type} {g : Peer E → β} {p : Peer E} (hp : g p = g (s.peer i)) (j : S) :
    g (Function.update s.peer i p j) = g (s.peer j) := by
  rw [update_peer g p j]
  split
  · next hj => rw [hj, hp]
  · rfl

theorem won (s : State S E) (c : S) : Won s (((s.setPeer c { s.peer c with
      role := .leader }).setLeader (s.peer c).term c).setLeaderLog (s.peer c).term
      (s.peer c).log) c where
  term_eq := update_peer_eq (g := Peer.term) rfl
  log_eq := update_peer_eq (g := Peer.log) rfl
  commit_eq := update_peer_eq (g := Peer.commit) rfl
  role := update_peer Peer.role _
  leader _ := Function.update_apply ..
  leaderLog _ := Function.update_apply ..
  ballot := rfl
  bid := rfl
  ack := rfl
  offer := rfl

theorem Won.toExtends (hw : Won s t c) (h : Inv term quorums s)
    (hnone : s.leader (s.peer c).term = none) : Extends s t where
  term_le j := (hw.term_eq j).ge
  ballot_some := by rw [hw.ballot]; exact fun _ _ _ hd => hd
  bid_some := by rw [hw.bid]; exact fun _ _ _ hB => hB
  leader_some T l hl := by
    rw [hw.leader, if_neg (by rintro rfl; rw [hnone] at hl; cases hl)]
    exact hl
  leaderLog_le T := by
    rw [hw.leaderLog]
    split
    · next hT =>
      rw [hT, h.leaderless _ hnone]
      exact List.nil_prefix
    · exact List.prefix_rfl
  ack_mono := by rw [hw.ack]; exact fun _ _ _ hm => hm
  ack_new := by rw [hw.ack]; exact fun _ _ _ hm => .inl hm
  offer_mono := by rw [hw.offer]; exact fun _ _ _ ho => ho

/-- Leader `l` appends `e` to its log. -/
structure Proposed (s t : State S E) (l : S) (e : E) : Prop where
  term_eq : ∀ j, (t.peer j).term = (s.peer j).term
  role_eq : ∀ j, (t.peer j).role = (s.peer j).role
  commit_eq : ∀ j, (t.peer j).commit = (s.peer j).commit
  log : ∀ j, (t.peer j).log = if j = l then (s.peer l).log ++ [e] else (s.peer j).log
  leaderLog : ∀ T, t.leaderLog T =
    if T = (s.peer l).term then (s.peer l).log ++ [e] else s.leaderLog T
  ack : ∀ v T m, t.ack v T m ↔ s.ack v T m ∨
    (v = l ∧ T = (s.peer l).term ∧ m = (s.peer l).log.length + 1)
  leader : t.leader = s.leader
  ballot : t.ballot = s.ballot
  bid : t.bid = s.bid
  offer : t.offer = s.offer

theorem proposed (s : State S E) (l : S) (e : E) : Proposed s (((s.setPeer l { s.peer l with
      log := (s.peer l).log ++ [e] }).setLeaderLog (s.peer l).term ((s.peer l).log ++ [e])).addAck
      l (s.peer l).term ((s.peer l).log.length + 1)) l e where
  term_eq := update_peer_eq (g := Peer.term) rfl
  role_eq := update_peer_eq (g := Peer.role) rfl
  commit_eq := update_peer_eq (g := Peer.commit) rfl
  log := update_peer Peer.log _
  leaderLog _ := Function.update_apply ..
  ack _ _ _ := Iff.rfl
  leader := rfl
  ballot := rfl
  bid := rfl
  offer := rfl

theorem Proposed.grows (hp : Proposed s t l e) (j : S) : (s.peer j).log <+: (t.peer j).log := by
  rw [hp.log]
  split
  · next hj =>
    rw [hj]
    exact List.prefix_append _ _
  · exact List.prefix_rfl

theorem Proposed.toExtends (hp : Proposed s t l e)
    (hlog : s.leaderLog (s.peer l).term = (s.peer l).log) : Extends s t := by
  refine .of_ack hp.term_eq hp.ballot hp.bid hp.leader ?_ hp.ack hp.offer
  intro T
  rw [hp.leaderLog]
  split
  · next hT =>
    rw [hT, hlog]
    exact List.prefix_append _ _
  · exact List.prefix_rfl

/-- The log with the new entry. -/
theorem Proposed.entries (hp : Proposed s t l e) (h : Inv term quorums s) (hext : Extends s t)
    (he : term e = (s.peer l).term) : Sound term t ((s.peer l).log ++ [e]) ∧
      ∀ x ∈ (s.peer l).log ++ [e], term x ≤ (s.peer l).term := by
  constructor
  · refine ((h.log_entries l).1.mono hext).concat ?_
    rw [hp.leaderLog, if_pos he]
  · intro x hx
    rcases List.mem_append.mp hx with hx | hx
    · exact (h.log_entries l).2 x hx
    · rw [List.mem_singleton.mp hx, he]

/-- Follower `f` takes log `X` and acknowledges `F`. -/
structure Accepted (s t : State S E) (f : S) (F X : List E) (c : Nat) : Prop where
  same : ∀ j, j ≠ f → t.peer j = s.peer j
  self : t.peer f = { s.peer f with
    role := .follower, log := X, commit := max (s.peer f).commit c }
  ack : ∀ v T m, t.ack v T m ↔ s.ack v T m ∨
    (v = f ∧ T = (s.peer f).term ∧ m = F.length)
  leader : t.leader = s.leader
  leaderLog : t.leaderLog = s.leaderLog
  ballot : t.ballot = s.ballot
  bid : t.bid = s.bid
  offer : t.offer = s.offer

theorem accepted (s : State S E) (f : S) (F X : List E) (c : Nat) :
    Accepted s ((s.setPeer f { s.peer f with
      role := .follower, log := X, commit := max (s.peer f).commit c }).addAck
      f (s.peer f).term F.length) f F X c where
  same _ hj := Function.update_of_ne hj ..
  self := Function.update_self ..
  ack _ _ _ := Iff.rfl
  leader := rfl
  leaderLog := rfl
  ballot := rfl
  bid := rfl
  offer := rfl

theorem Accepted.term_eq {f : S} {F X : List E} {c : Nat} (ha : Accepted s t f F X c) (j : S) :
    (t.peer j).term = (s.peer j).term := by
  by_cases hj : j = f
  · subst hj
    rw [ha.self]
  · rw [ha.same j hj]

theorem Accepted.toExtends {f : S} {F X : List E} {c : Nat} (ha : Accepted s t f F X c) :
    Extends s t :=
  .of_ack ha.term_eq ha.ballot ha.bid ha.leader (fun T => by rw [ha.leaderLog]) ha.ack ha.offer

end Changes

theorem lastTerm_of_getLast? {X : List E} {x : E} (h : X.getLast? = some x) :
    lastTerm term X = term x := by
  simp [lastTerm, h]

/-- A non-empty sound log is a prefix of the log of the leader of its last term. -/
theorem Sound.isPrefix_lastTerm {X : List E} (h : Sound term s X) (hne : X ≠ []) :
    X <+: s.leaderLog (lastTerm term X) := by
  have hlast : X.getLast? = some (X.getLast hne) := List.getLast?_eq_some_getLast hne
  have hpos : 0 < X.length := List.length_pos_iff.mpr hne
  have hget : X[X.length - 1]? = some (X.getLast hne) := by
    rw [← List.getLast?_eq_getElem?, hlast]
  have hpre := h _ _ hget
  rw [Nat.sub_add_cancel hpos, List.take_length] at hpre
  rw [lastTerm_of_getLast? hlast]
  exact hpre

namespace Inv

theorem leader_ne_none (h : Inv term quorums s) {T : Nat} (hne : s.leaderLog T ≠ []) :
    s.leader T ≠ none :=
  fun hnone => hne (h.leaderless T hnone)

/-- A peer holds what it has acknowledged as long as it stays in the term. -/
theorem ack_isPrefix (h : Inv term quorums s) {v : S} {T m : Nat} (hack : s.ack v T m)
    (hterm : (s.peer v).term = T) : (s.leaderLog T).take m <+: (s.peer v).log := by
  cases m with
  | zero => simp
  | succ k => exact h.ack_log v T k ⟨k + 1, Nat.lt_succ_self k, hack⟩ (.inl hterm)

/-- A committed prefix is a prefix of the log of every leader of its term or a
    later one. -/
theorem committed_isPrefix (h : Inv term quorums s) {U V : Nat} {X : List E}
    (hX : CommittedBy term quorums s U X) (hUV : U ≤ V) (hV : s.leader V ≠ none) :
    X <+: s.leaderLog V := by
  rcases hX with rfl | ⟨T, k, hT, hch, hpre⟩
  · exact List.nil_prefix
  · rcases Nat.eq_or_lt_of_le (hT.trans hUV) with rfl | hlt
    · exact hpre.trans <| List.take_prefix _ _
    · exact hpre.trans (h.complete T V k hlt hV hch.choosable)

/-- Two committed prefixes are comparable. -/
theorem committed_comparable (h : Inv term quorums s) {U V : Nat} {X Y : List E}
    (hX : CommittedBy term quorums s U X) (hY : CommittedBy term quorums s V Y) :
    X <+: Y ∨ Y <+: X := by
  rcases hX with rfl | ⟨T₁, k₁, -, hch₁, hpre₁⟩
  · exact .inl List.nil_prefix
  rcases hY with rfl | ⟨T₂, k₂, -, hch₂, hpre₂⟩
  · exact .inr List.nil_prefix
  -- both are prefixes of the leader's log of the later of the two terms
  have hlead : ∀ {T k : Nat}, Chosen term quorums s T k → s.leader T ≠ none := by
    intro T k hch
    refine h.leader_ne_none ?_
    intro hnil
    have hlt := hch.1.lt
    simp [hnil] at hlt
  have hcov : ∀ {T k T' k' : Nat} {Z : List E}, Chosen term quorums s T k →
      Chosen term quorums s T' k' → T ≤ T' → Z <+: (s.leaderLog T).take (k + 1) →
      Z <+: s.leaderLog T' := by
    intro T k T' k' Z hch hch' hle hZ
    exact h.committed_isPrefix (.inr ⟨T, k, le_rfl, hch, hZ⟩) hle (hlead hch')
  rcases Nat.le_total T₁ T₂ with hle | hle
  · exact List.prefix_or_prefix_of_prefix (hcov hch₁ hch₂ hle hpre₁)
      (hcov hch₂ hch₂ le_rfl hpre₂)
  · exact List.prefix_or_prefix_of_prefix (hcov hch₁ hch₁ le_rfl hpre₁)
      (hcov hch₂ hch₁ hle hpre₂)

/-- A quorum holds a committed prefix, now and in every later state. -/
theorem committed_quorum {U : Nat} {X : List E} (hX : CommittedBy term quorums s U X)
    (hne : X ≠ []) :
    ∃ Q, quorums.IsQuorum Q ∧ ∀ t, Extends s t → Inv term quorums t →
      ∀ v ∈ Q, X <+: (t.peer v).log := by
  rcases hX with rfl | ⟨T, k, -, hch, hpre⟩
  · exact absurd rfl hne
  · obtain ⟨Q, hQ, hacks⟩ := hch.2
    refine ⟨Q, hQ, ?_⟩
    intro t hst ht v hv
    have hlog := ht.ack_log v T k ((hacks v hv).mono hst) (.inr (hch.mono hst).choosable)
    rw [hch.1.take_eq hst] at hlog
    exact hpre.trans hlog

/-- In a sound log of known bound every entry is at least as recent as those
    before it. -/
theorem sound_term_le (h : Inv term quorums s) {X : List E} (hX : Sound term s X) {j k : Nat}
    {x y : E} (hjk : j ≤ k) (hx : X[j]? = some x) (hy : X[k]? = some y) : term x ≤ term y := by
  have hmem : x ∈ X.take (k + 1) := by
    refine List.mem_of_getElem? (i := j) ?_
    rw [List.getElem?_take_of_lt (Nat.lt_succ_of_le hjk)]
    exact hx
  exact (h.leaderLog_entries (term y)).2 x ((hX k y hy).subset hmem)

/-- A choosable prefix of the voter's log is a prefix of every log that is up to
    date with the voter's. -/
theorem upToDate_carries (h : Inv term quorums s) {B X : List E} (hB : Sound term s B)
    (hX : Sound term s X) (hup : UpToDate term B X) {T k : Nat}
    (hch : Choosable term quorums s T k)
    (hpre : (s.leaderLog T).take (k + 1) <+: X) :
    (s.leaderLog T).take (k + 1) <+: B := by
  have hlt := hch.1.lt
  obtain ⟨e, he, heT⟩ := hch.1
  have hmem : e ∈ (s.leaderLog T).take (k + 1) := by
    rw [List.mem_take_iff_getElem]
    obtain ⟨hk, hek⟩ := List.getElem?_eq_some_iff.mp he
    exact ⟨k, by omega, hek⟩
  have hlen : k + 1 ≤ X.length := by
    have := hpre.length_le
    rw [List.length_take] at this
    omega
  have hXne : X ≠ [] := by
    rintro rfl
    simp at hlen
  -- the chosen entry lies below the last entry of the voter's log
  have hTx : T ≤ lastTerm term X := by
    rw [← heT]
    exact (h.leaderLog_entries _).2 e
      ((hX.isPrefix_lastTerm hXne).subset (hpre.subset hmem))
  have hBne : B ≠ [] := by
    rintro rfl
    rcases hup with hlast | ⟨-, hle⟩
    · simp [lastTerm] at hlast
    · simp only [List.length_nil] at hle
      omega
  have hBpre := hB.isPrefix_lastTerm hBne
  have hTB : T ≤ lastTerm term B := by
    rcases hup with hlast | ⟨hlast, -⟩ <;> omega
  rcases Nat.eq_or_lt_of_le hTB with heq | hltB
  · -- the same last term: both logs are prefixes of one leader's log
    have hle : X.length ≤ B.length := by
      rcases hup with hlast | ⟨-, hle⟩
      · omega
      · exact hle
    rw [← heq] at hBpre
    have hlead : (s.leaderLog T).take (k + 1) <+: s.leaderLog T := List.take_prefix _ _
    refine List.prefix_of_prefix_length_le hlead hBpre ?_
    rw [List.length_take]
    omega
  · -- a later last term: its leader already holds the prefix
    have hBlead : s.leader (lastTerm term B) ≠ none := by
      refine h.leader_ne_none ?_
      intro hnil
      rw [hnil] at hBpre
      exact hBne (List.prefix_nil.mp hBpre)
    have hcomp := h.complete T _ k hltB hBlead hch
    rcases List.prefix_or_prefix_of_prefix hcomp hBpre with hgood | hshort
    · exact hgood
    · exfalso
      have hlast : lastTerm term B = term (B.getLast hBne) :=
        lastTerm_of_getLast? (List.getLast?_eq_some_getLast hBne)
      have hbmem : B.getLast hBne ∈ s.leaderLog T :=
        List.mem_of_mem_take (hshort.subset (List.getLast_mem hBne))
      have hbT := (h.leaderLog_entries T).2 _ hbmem
      omega

/-! ### Preservation

Each rule gives an extension of the state; what the rule does not touch is
carried over by the monotonicity lemmas above. -/

theorem initial : Inv term quorums (State.initial : State S E) where
  ballot_term := by intro v U c h; simp [State.initial] at h
  bid_term := by intro c U B h; simp [State.initial] at h
  bid_entries := by intro c U B h; simp [State.initial] at h
  bid_candidate := by intro c h; simp [State.initial] at h
  ballot_bid := by intro v U c h; simp [State.initial] at h
  leader_quorum := by intro T l h; simp [State.initial] at h
  leader_role := by intro T l h; simp [State.initial] at h
  leaderless := by intro T _; rfl
  leads := by intro l h; simp [State.initial] at h
  leaderLog_entries := by
    intro T
    exact ⟨by intro k e he; simp [State.initial] at he, by simp [State.initial]⟩
  log_entries := by
    intro i
    exact ⟨by intro k e he; simp [State.initial] at he, by simp [State.initial]⟩
  offer_ok := by intro T F c h; exact h.elim
  ack_ok := by intro v T m h; exact h.elim
  ack_log := by rintro v T k ⟨m, -, hm⟩; exact hm.elim
  complete := by intro T U k _ hU; simp [State.initial] at hU
  commit_ok := by intro i; exact ⟨by simp [State.initial], .inl (by simp [State.initial])⟩

/-- A quorum has a member. -/
theorem exists_mem_quorum {Q : Finset S} (hQ : quorums.IsQuorum Q) : ∃ v, v ∈ Q := by
  obtain ⟨v, hv, -⟩ := quorums.meet Q Q hQ hQ
  exact ⟨v, hv⟩

/-- Nobody leads a term it has not reached. -/
theorem leader_term_le (h : Inv term quorums s) {T : Nat} {l : S}
    (hl : s.leader T = some l) : T ≤ (s.peer l).term := by
  obtain ⟨Q, hQ, hvotes⟩ := h.leader_quorum T l hl
  obtain ⟨v, hv⟩ := exists_mem_quorum hQ
  obtain ⟨B, hB, -⟩ := h.ballot_bid v T l (hvotes v hv)
  exact h.bid_term l T B hB

/-- A peer that has the votes of a quorum is the leader, if there is one. -/
theorem leader_unique (h : Inv term quorums s) {T : Nat} {l c : S}
    (hl : s.leader T = some l) {Q : Finset S} (hQ : quorums.IsQuorum Q)
    (hvotes : ∀ v ∈ Q, s.ballot v T = some c) : l = c := by
  obtain ⟨Q', hQ', hvotes'⟩ := h.leader_quorum T l hl
  obtain ⟨v, hv, hv'⟩ := quorums.meet Q Q' hQ hQ'
  have heq := (hvotes' v hv').symm.trans (hvotes v hv)
  exact Option.some.inj heq

/-- The term of a candidate that has the votes of a quorum has no leader. -/
theorem leader_eq_none (h : Inv term quorums s) {c : S} {Q : Finset S}
    (hrole : (s.peer c).role = .candidate) (hQ : quorums.IsQuorum Q)
    (hvotes : ∀ v ∈ Q, s.ballot v (s.peer c).term = some c) :
    s.leader (s.peer c).term = none := by
  cases hl : s.leader (s.peer c).term with
  | none => rfl
  | some l =>
    obtain rfl := h.leader_unique hl hQ hvotes
    exact absurd hrole (h.leader_role _ l hl rfl)

/-- A peer that leads is in no term that somebody else leads. -/
theorem term_ne_of_leads (h : Inv term quorums s) {l : S} (hl : (s.peer l).role = .leader)
    {T : Nat} (hT : s.leader T ≠ some l) : (s.peer l).term ≠ T :=
  fun heq => hT (heq ▸ (h.leads l hl).1)

/-- An acknowledged entry that is choosable later was choosable before. -/
theorem choosable_old (h : Inv term quorums s) (hext : Extends s t) {v : S} {T k : Nat}
    (ha : Acked s v T k) (hc : Choosable term quorums t T k) :
    Choosable term quorums s T k ∧
      (t.leaderLog T).take (k + 1) = (s.leaderLog T).take (k + 1) := by
  obtain ⟨m, hkm, hm⟩ := ha
  have hown := hc.1.old hext (hkm.trans_le (h.ack_ok v T m hm).2)
  exact ⟨hc.anti hext hown, hown.take_eq hext⟩

/-- What was acknowledged before is in the log that the peer had. -/
theorem ack_log_old (h : Inv term quorums s) (hext : Extends s t) {v : S} {T k : Nat}
    (ha : Acked s v T k) (hor : (t.peer v).term = T ∨ Choosable term quorums t T k) :
    (t.leaderLog T).take (k + 1) <+: (s.peer v).log := by
  rcases hor with heq | hc
  · obtain ⟨m, hkm, hm⟩ := ha
    obtain ⟨hle, hlen⟩ := h.ack_ok v T m hm
    rw [← take_eq_of_isPrefix (hext.leaderLog_le T) (hkm.trans_le hlen)]
    exact h.ack_log v T k ⟨m, hkm, hm⟩ (.inl (le_antisymm (heq ▸ hext.term_le v) hle))
  · obtain ⟨hold, htake⟩ := h.choosable_old hext ha hc
    rw [htake]
    exact h.ack_log v T k ha (.inr hold)

/-- A vote says as much about its bid later as it did before. -/
theorem ballot_bid_old (h : Inv term quorums s) (hext : Extends s t) {v c : S} {U : Nat}
    (hc : s.ballot v U = some c) : ∃ B, s.bid c U = some B ∧
      ∀ T k, T < U → Acked t v T k → Choosable term quorums t T k →
        (t.leaderLog T).take (k + 1) <+: B := by
  obtain ⟨B, hB, hpre⟩ := h.ballot_bid v U c hc
  refine ⟨B, hB, ?_⟩
  intro T k hTU ha hch
  have hold := ha.old hext (hTU.trans_le (h.ballot_term v U c hc))
  obtain ⟨hchOld, htake⟩ := h.choosable_old hext hold hch
  rw [htake]
  exact hpre T k hTU hold hchOld

/-- Whoever has the votes of a quorum: one of the voters acknowledged what is
    choosable from an earlier term. -/
theorem voter_acked (h : Inv term quorums s) (hext : Extends s t) {c : S} {U : Nat}
    {Q : Finset S} (hQ : quorums.IsQuorum Q) (hvotes : ∀ v ∈ Q, s.ballot v U = some c)
    {T k : Nat} (hTU : T < U) (hc : Choosable term quorums t T k) :
    ∃ v ∈ Q, Acked s v T k := by
  obtain ⟨-, P, hP, hmem⟩ := hc
  obtain ⟨v, hvP, hvQ⟩ := quorums.meet P Q hP hQ
  have hvU := h.ballot_term v U c (hvotes v hvQ)
  have hle := hext.term_le v
  rcases hmem v hvP with ha | hlate
  · exact ⟨v, hvQ, ha.old hext (by omega)⟩
  · omega

/-- Leader completeness for the leaders that were there before. -/
theorem complete_old (h : Inv term quorums s) (hext : Extends s t) {T U k : Nat} (hTU : T < U)
    (hU : s.leader U ≠ none) (hc : Choosable term quorums t T k) :
    (t.leaderLog T).take (k + 1) <+: t.leaderLog U := by
  obtain ⟨l, hl⟩ := Option.ne_none_iff_exists'.mp hU
  obtain ⟨Q, hQ, hvotes⟩ := h.leader_quorum U l hl
  obtain ⟨v, -, ha⟩ := h.voter_acked hext hQ hvotes hTU hc
  obtain ⟨hold, htake⟩ := h.choosable_old hext ha hc
  rw [htake]
  exact (h.complete T U k hTU hU hold).trans (hext.leaderLog_le U)

/-- The frame rule for steps that touch no log and no acknowledgement: what
    remains to be shown is about votes, roles, offers and commit bounds. -/
theorem of_sameLogs (h : Inv term quorums s) (hext : Extends s t)
    (hleader : t.leader = s.leader) (hleaderLog : t.leaderLog = s.leaderLog)
    (hack : t.ack = s.ack) (hlogs : ∀ j, (t.peer j).log = (s.peer j).log)
    (ballot_term : ∀ v U c, t.ballot v U = some c → U ≤ (t.peer v).term)
    (bid_term : ∀ c U B, t.bid c U = some B → U ≤ (t.peer c).term)
    (bid_entries : ∀ c U B, t.bid c U = some B → Sound term s B ∧ ∀ e ∈ B, term e < U)
    (bid_candidate : ∀ c, (t.peer c).role = .candidate →
      t.bid c (t.peer c).term = some (s.peer c).log)
    (ballot_bid : ∀ v U c, t.ballot v U = some c → ∃ B, t.bid c U = some B ∧
      ∀ T k, T < U → Acked s v T k → Choosable term quorums s T k →
        (s.leaderLog T).take (k + 1) <+: B)
    (leader_role : ∀ T l, s.leader T = some l → (t.peer l).term = T →
      (t.peer l).role ≠ .candidate)
    (leads : ∀ l, (t.peer l).role = .leader →
      s.leader (t.peer l).term = some l ∧ s.leaderLog (t.peer l).term = (s.peer l).log)
    (offer_ok : ∀ T F c, t.offer T F c → s.leader T ≠ none ∧ F <+: s.leaderLog T ∧
      c ≤ F.length ∧ CommittedBy term quorums s T (F.take c))
    (commit_ok : ∀ i, (t.peer i).commit ≤ (s.peer i).log.length ∧
      CommittedBy term quorums s (t.peer i).term ((s.peer i).log.take (t.peer i).commit)) :
    Inv term quorums t := by
  have hacked : ∀ {v T k}, Acked t v T k → Acked s v T k := by
    rintro v T k ⟨m, hkm, hm⟩
    exact ⟨m, hkm, hack ▸ hm⟩
  refine ⟨ballot_term, bid_term, ?_, ?_, ?_, ?_, ?_, ?_, ?_, ?_, ?_, ?_, ?_, ?_, ?_, ?_⟩
  · intro c U B hB
    exact ⟨(bid_entries c U B hB).1.mono hext, (bid_entries c U B hB).2⟩
  · intro c hc
    rw [hlogs c]
    exact bid_candidate c hc
  · intro v U c hc
    obtain ⟨B, hB, hpre⟩ := ballot_bid v U c hc
    refine ⟨B, hB, ?_⟩
    intro T k hTU ha hc'
    obtain ⟨hold, htake⟩ := h.choosable_old hext (hacked ha) hc'
    rw [htake]
    exact hpre T k hTU (hacked ha) hold
  · intro T l hl
    obtain ⟨Q, hQ, hvotes⟩ := h.leader_quorum T l (hleader ▸ hl)
    exact ⟨Q, hQ, fun v hv => hext.ballot_some _ _ _ (hvotes v hv)⟩
  · intro T l hl hT
    exact leader_role T l (hleader ▸ hl) hT
  · intro T hT
    rw [hleaderLog]
    exact h.leaderless T (hleader ▸ hT)
  · intro l hl
    rw [hleader, hleaderLog, hlogs l]
    exact leads l hl
  · intro T
    rw [hleaderLog]
    exact ⟨(h.leaderLog_entries T).1.mono hext, (h.leaderLog_entries T).2⟩
  · intro j
    rw [hlogs j]
    exact ⟨(h.log_entries j).1.mono hext,
      fun e he => ((h.log_entries j).2 e he).trans (hext.term_le j)⟩
  · intro T F c ho
    obtain ⟨h1, h2, h3, h4⟩ := offer_ok T F c ho
    rw [hleader, hleaderLog]
    exact ⟨h1, h2, h3, h4.mono hext le_rfl⟩
  · intro v T m hm
    obtain ⟨h1, h2⟩ := h.ack_ok v T m (hack ▸ hm)
    rw [hleaderLog]
    exact ⟨h1.trans (hext.term_le v), h2⟩
  · intro v T k ha hor
    rw [hlogs v]
    exact h.ack_log_old hext (hacked ha) hor
  · intro T U k hTU hU hc
    exact h.complete_old hext hTU (hleader ▸ hU) hc
  · intro j
    rw [hlogs j]
    exact ⟨(commit_ok j).1, (commit_ok j).2.mono hext le_rfl⟩

/-- The frame rule for steps that cast no vote and make no bid and no offer: a
    new leader has its votes and starts from its bid, and what remains to be shown
    is about roles, logs, acknowledgements and commit bounds. -/
theorem of_sameVotes (h : Inv term quorums s) (hext : Extends s t)
    (hballot : t.ballot = s.ballot) (hbid : t.bid = s.bid) (hoffer : t.offer = s.offer)
    (elected : ∀ U l, t.leader U = some l → s.leader U = some l ∨
      ∃ Q, quorums.IsQuorum Q ∧ (∀ v ∈ Q, s.ballot v U = some l) ∧
        s.bid l U = some (t.leaderLog U))
    (bid_candidate : ∀ c, (t.peer c).role = .candidate →
      s.bid c (t.peer c).term = some (t.peer c).log)
    (leader_role : ∀ T l, t.leader T = some l → (t.peer l).term = T →
      (t.peer l).role ≠ .candidate)
    (leaderless : ∀ T, t.leader T = none → t.leaderLog T = [])
    (leads : ∀ l, (t.peer l).role = .leader →
      t.leader (t.peer l).term = some l ∧ t.leaderLog (t.peer l).term = (t.peer l).log)
    (leaderLog_entries : ∀ T, Sound term t (t.leaderLog T) ∧ ∀ e ∈ t.leaderLog T, term e ≤ T)
    (log_entries : ∀ i, Sound term t (t.peer i).log ∧
      ∀ e ∈ (t.peer i).log, term e ≤ (t.peer i).term)
    (ack_ok : ∀ v T m, t.ack v T m → T ≤ (t.peer v).term ∧ m ≤ (t.leaderLog T).length)
    (ack_log : ∀ v T k, Acked t v T k →
      ((t.peer v).term = T ∨ Choosable term quorums t T k) →
      (t.leaderLog T).take (k + 1) <+: (t.peer v).log)
    (commit_ok : ∀ i, (t.peer i).commit ≤ (t.peer i).log.length ∧
      CommittedBy term quorums t (t.peer i).term ((t.peer i).log.take (t.peer i).commit)) :
    Inv term quorums t where
  ballot_term v U c hc := (h.ballot_term v U c (hballot ▸ hc)).trans (hext.term_le v)
  bid_term c U B hB := (h.bid_term c U B (hbid ▸ hB)).trans (hext.term_le c)
  bid_entries c U B hB := by
    obtain ⟨hsound, hlt⟩ := h.bid_entries c U B (hbid ▸ hB)
    exact ⟨hsound.mono hext, hlt⟩
  bid_candidate c hc := by
    rw [hbid]
    exact bid_candidate c hc
  ballot_bid v U c hc := by
    rw [hbid]
    exact h.ballot_bid_old hext (hballot ▸ hc)
  leader_quorum U l hl := by
    rw [hballot]
    rcases elected U l hl with hold | ⟨Q, hQ, hvotes, -⟩
    · exact h.leader_quorum U l hold
    · exact ⟨Q, hQ, hvotes⟩
  leader_role := leader_role
  leaderless := leaderless
  leads := leads
  leaderLog_entries := leaderLog_entries
  log_entries := log_entries
  offer_ok T F c ho := by
    obtain ⟨hlead, hF, hc, hcom⟩ := h.offer_ok T F c (hoffer ▸ ho)
    obtain ⟨l, hl⟩ := Option.ne_none_iff_exists'.mp hlead
    refine ⟨?_, hF.trans (hext.leaderLog_le T), hc, hcom.mono hext le_rfl⟩
    rw [hext.leader_some T l hl]
    exact Option.some_ne_none l
  ack_ok := ack_ok
  ack_log := ack_log
  complete T U k hTU hU hc := by
    obtain ⟨l, hl⟩ := Option.ne_none_iff_exists'.mp hU
    rcases elected U l hl with hold | ⟨Q, hQ, hvotes, hB⟩
    · refine h.complete_old hext hTU ?_ hc
      rw [hold]
      exact Option.some_ne_none l
    · -- a voter has acknowledged the entry, so the bid contains it
      obtain ⟨v, hv, ha⟩ := h.voter_acked hext hQ hvotes hTU hc
      obtain ⟨B, hB', hpre⟩ := h.ballot_bid_old hext (hvotes v hv)
      obtain rfl : t.leaderLog U = B := Option.some.inj (hB.symm.trans hB')
      exact hpre T k hTU (ha.mono hext) hc
  commit_ok := commit_ok

/-- The log of a peer that accepts an offer. -/
theorem absorbs_entries (h : Inv term quorums s) {f : S} {F X : List E}
    (hF : F <+: s.leaderLog (s.peer f).term) (hX : Absorbs (s.peer f).log F X) :
    Sound term s X ∧ ∀ e ∈ X, term e ≤ (s.peer f).term := by
  rcases hX with ⟨-, rfl⟩ | ⟨-, rfl⟩
  · exact h.log_entries f
  · obtain ⟨hsound, hle⟩ := h.leaderLog_entries (s.peer f).term
    exact ⟨hsound.of_isPrefix hF, fun e he => hle e (hF.subset he)⟩

/-- The commit bound of a peer that accepts an offer: the old bound is still
    inside the log, and the offered one is. -/
theorem absorbs_commit (h : Inv term quorums s) {f : S} {F X : List E} {c : Nat}
    (hoffer : s.offer (s.peer f).term F c) (hX : Absorbs (s.peer f).log F X) :
    max (s.peer f).commit c ≤ X.length ∧
      CommittedBy term quorums s (s.peer f).term (X.take (max (s.peer f).commit c)) := by
  obtain ⟨hlead, hF, hcF, hcom⟩ := h.offer_ok _ F c hoffer
  obtain ⟨hlog, hold⟩ := h.commit_ok f
  have hkept := hX.keeps hF (h.committed_isPrefix hold le_rfl hlead) <| List.take_prefix _ _
  have hlen : ((s.peer f).log.take (s.peer f).commit).length = (s.peer f).commit :=
    List.length_take_of_le hlog
  refine ⟨max_le (hlen ▸ hkept.length_le) (hcF.trans hX.isPrefix.length_le), ?_⟩
  rcases Nat.le_total c (s.peer f).commit with hle | hle
  · have heq := take_eq_of_isPrefix hkept hlen.ge
    rw [List.take_take, min_self] at heq
    rw [max_eq_left hle, ← heq]
    exact hold
  · rw [max_eq_right hle, ← take_eq_of_isPrefix hX.isPrefix hcF]
    exact hcom

theorem offer (h : Inv term quorums s) {l : S} {F : List E} {c : Nat}
    (hrole : (s.peer l).role = .leader) (hF : F <+: (s.peer l).log)
    (hc : c ≤ F.length) (hcommit : c ≤ (s.peer l).commit) :
    Extends s (s.addOffer (s.peer l).term F c) ∧
      Inv term quorums (s.addOffer (s.peer l).term F c) := by
  have hext : Extends s (s.addOffer (s.peer l).term F c) :=
    ⟨fun _ => le_rfl, fun _ _ _ h => h, fun _ _ _ h => h, fun _ _ h => h,
      fun _ => List.prefix_rfl, fun _ _ _ h => h, fun _ _ _ h => .inl h, fun _ _ _ h => .inl h⟩
  refine ⟨hext, h.of_sameLogs hext rfl rfl rfl (fun _ => rfl) h.ballot_term h.bid_term
    h.bid_entries h.bid_candidate h.ballot_bid h.leader_role h.leads ?_ h.commit_ok⟩
  intro T G d ho
  rcases ho with hold | ⟨rfl, rfl, rfl⟩
  · exact h.offer_ok T G d hold
  · obtain ⟨hlead, hlog⟩ := h.leads l hrole
    refine ⟨by rw [hlead]; simp, by rw [hlog]; exact hF, hc, ?_⟩
    refine (h.commit_ok l).2.of_isPrefix ?_
    rw [take_eq_of_isPrefix hF hc]
    exact List.take_prefix_take_left hcommit

variable [DecidableEq S]

/-- A peer may move to a later term as follower, or change its commit bound:
    its log stays as it is. -/
theorem setPeer (h : Inv term quorums s) {i : S} {p : Peer E}
    (hterm : (s.peer i).term ≤ p.term) (hlog : p.log = (s.peer i).log)
    (hrole : p.role = .follower ∨ (p.role = (s.peer i).role ∧ p.term = (s.peer i).term))
    (hcommit : p.commit ≤ p.log.length ∧
      CommittedBy term quorums s p.term (p.log.take p.commit)) :
    Extends s (s.setPeer i p) ∧ Inv term quorums (s.setPeer i p) := by
  have hsame : ∀ j, j ≠ i → (s.setPeer i p).peer j = s.peer j := by
    intro j hj; simp [State.setPeer, hj]
  have hself : (s.setPeer i p).peer i = p := by simp [State.setPeer]
  have hle : ∀ j, (s.peer j).term ≤ ((s.setPeer i p).peer j).term := by
    intro j
    by_cases hj : j = i
    · subst hj; rw [hself]; exact hterm
    · rw [hsame j hj]
  have hext : Extends s (s.setPeer i p) :=
    ⟨hle, fun _ _ _ h => h, fun _ _ _ h => h, fun _ _ h => h, fun _ => List.prefix_rfl,
      fun _ _ _ h => h, fun _ _ _ h => .inl h, fun _ _ _ h => h⟩
  refine ⟨hext, h.of_sameLogs hext rfl rfl rfl ?_ ?_ ?_ h.bid_entries ?_ h.ballot_bid ?_ ?_
    h.offer_ok ?_⟩
  · intro j
    by_cases hj : j = i
    · subst hj; rw [hself, hlog]
    · rw [hsame j hj]
  · intro v U c hb
    exact (h.ballot_term v U c hb).trans (hle v)
  · intro c U B hb
    exact (h.bid_term c U B hb).trans (hle c)
  · intro c hc
    by_cases hj : c = i
    · subst hj
      rw [hself] at hc ⊢
      rcases hrole with hf | ⟨hr, ht⟩
      · simp [hf] at hc
      · rw [ht]
        exact h.bid_candidate c (hr ▸ hc)
    · rw [hsame c hj] at hc ⊢
      exact h.bid_candidate c hc
  · intro T l hl ht
    by_cases hj : l = i
    · subst hj
      rw [hself] at ht ⊢
      rcases hrole with hf | ⟨hr, ht'⟩
      · simp [hf]
      · rw [hr]; exact h.leader_role T l hl (ht' ▸ ht)
    · rw [hsame l hj] at ht ⊢
      exact h.leader_role T l hl ht
  · intro l hl
    by_cases hj : l = i
    · subst hj
      rw [hself] at hl ⊢
      rcases hrole with hf | ⟨hr, ht⟩
      · simp [hf] at hl
      · rw [ht]
        exact h.leads l (hr ▸ hl)
    · rw [hsame l hj] at hl ⊢
      exact h.leads l hl
  · intro j
    by_cases hj : j = i
    · subst hj
      rw [hself]
      exact ⟨hlog ▸ hcommit.1, hlog ▸ hcommit.2⟩
    · rw [hsame j hj]
      exact h.commit_ok j

theorem stand (h : Inv term quorums s) {i : S} (hs : Stood s t i) :
    Extends s t ∧ Inv term quorums t := by
  have hext := hs.toExtends h
  refine ⟨hext, h.of_sameLogs hext hs.leader hs.leaderLog hs.ack ?_ ?_ ?_ ?_ ?_ ?_ ?_ ?_ ?_ ?_⟩
  · intro j
    by_cases hj : j = i
    · subst hj; rw [hs.self]
    · rw [hs.same j hj]
  · intro v U c hc
    rw [hs.ballot] at hc
    split at hc
    · rename_i hvU
      rw [hvU.1, hvU.2, hs.self]
    · exact (h.ballot_term v U c hc).trans (hs.term_le v)
  · intro c U B hB
    rw [hs.bid] at hB
    split at hB
    · rename_i hcU
      rw [hcU.1, hcU.2, hs.self]
    · exact (h.bid_term c U B hB).trans (hs.term_le c)
  · intro c U B hB
    rw [hs.bid] at hB
    split at hB
    · rename_i hcU
      obtain rfl : (s.peer i).log = B := Option.some.inj hB
      rw [hcU.2]
      exact ⟨(h.log_entries i).1, fun e he => Nat.lt_succ_of_le ((h.log_entries i).2 e he)⟩
    · exact h.bid_entries c U B hB
  · intro c hc
    by_cases hj : c = i
    · subst hj
      rw [hs.self, hs.bid]
      simp
    · rw [hs.same c hj] at hc ⊢
      exact hext.bid_some _ _ _ (h.bid_candidate c hc)
  · intro v U c hc
    rw [hs.ballot] at hc
    split at hc
    · -- a candidate's own vote: what it acknowledged is in the log it stands with
      rename_i hvU
      obtain rfl : i = c := Option.some.inj hc
      refine ⟨(s.peer i).log, by rw [hs.bid, if_pos ⟨rfl, hvU.2⟩], ?_⟩
      intro T k _ ha hc'
      exact hvU.1 ▸ h.ack_log v T k ha (.inr hc')
    · obtain ⟨B, hB, hpre⟩ := h.ballot_bid v U c hc
      exact ⟨B, hext.bid_some _ _ _ hB, hpre⟩
  · intro T l hl hT
    by_cases hj : l = i
    · subst hj
      have hlt := h.leader_term_le hl
      rw [hs.self] at hT
      dsimp only at hT
      omega
    · rw [hs.same l hj] at hT ⊢
      exact h.leader_role T l hl hT
  · intro l hl
    by_cases hj : l = i
    · subst hj; rw [hs.self] at hl; simp at hl
    · rw [hs.same l hj] at hl ⊢
      exact h.leads l hl
  · rw [hs.offer]
    exact h.offer_ok
  · intro j
    by_cases hj : j = i
    · subst hj
      rw [hs.self]
      exact ⟨(h.commit_ok j).1, (h.commit_ok j).2.mono (Extends.refl s) (Nat.le_succ _)⟩
    · rw [hs.same j hj]
      exact h.commit_ok j

theorem grant (h : Inv term quorums s) {v c : S} {B : List E}
    (hB : s.bid c (s.peer v).term = some B)
    (hfree : s.ballot v (s.peer v).term = none ∨ s.ballot v (s.peer v).term = some c)
    (hup : UpToDate term B (s.peer v).log) {t : State S E}
    (ht : t = s.setBallot v (s.peer v).term c) :
    Extends s t ∧ Inv term quorums t := by
  have hpeer : t.peer = s.peer := by rw [ht]; rfl
  have hbid : t.bid = s.bid := by rw [ht]; rfl
  have hballot : ∀ w U, t.ballot w U =
      if w = v ∧ U = (s.peer v).term then some c else s.ballot w U := by
    intro w U
    rw [ht]
    exact update_update_apply ..
  have hext : Extends s t := by
    refine ⟨fun j => by rw [hpeer], ?_, ?_, ?_, ?_, ?_, ?_, ?_⟩
    · intro w U d hd
      rw [hballot]
      split
      · rename_i hw
        rw [hw.1, hw.2] at hd
        rcases hfree with hnone | hsome
        · rw [hnone] at hd; cases hd
        · rw [← hsome, hd]
      · exact hd
    · intro d U B' hB'; rw [hbid]; exact hB'
    all_goals subst ht
    · exact fun T l hl => hl
    · exact fun T => List.prefix_rfl
    · exact fun w T m hm => hm
    · exact fun w T m hm => .inl hm
    · exact fun T F d hF => hF
  refine ⟨hext, h.of_sameLogs hext (by rw [ht]; rfl) (by rw [ht]; rfl) (by rw [ht]; rfl)
    ?_ ?_ ?_ ?_ ?_ ?_ ?_ ?_ ?_ ?_⟩
  · intro j; rw [hpeer]
  · intro w U d hd
    rw [hpeer]
    rw [hballot] at hd
    split at hd
    · rename_i hw
      rw [hw.1, hw.2]
    · exact h.ballot_term w U d hd
  · rw [hpeer, hbid]; exact h.bid_term
  · rw [hbid]; exact h.bid_entries
  · rw [hpeer, hbid]; exact h.bid_candidate
  · intro w U d hd
    rw [hbid]
    rw [hballot] at hd
    split at hd
    · -- the new vote: the voter holds what it acknowledged, so the bid does
      rename_i hw
      obtain rfl : c = d := Option.some.inj hd
      refine ⟨B, by rw [hw.2]; exact hB, ?_⟩
      intro T k _ ha hch
      rw [hw.1] at ha
      exact h.upToDate_carries (h.bid_entries c _ B hB).1 (h.log_entries v).1 hup hch
        (h.ack_log v T k ha (.inr hch))
    · exact h.ballot_bid w U d hd
  · rw [hpeer]; exact h.leader_role
  · rw [hpeer]; exact h.leads
  · intro T F d ho
    exact h.offer_ok T F d (by rw [ht] at ho; exact ho)
  · rw [hpeer]; exact h.commit_ok

theorem win (h : Inv term quorums s) {c : S} {Q : Finset S}
    (hrole : (s.peer c).role = .candidate) (hQ : quorums.IsQuorum Q)
    (hvotes : ∀ v ∈ Q, s.ballot v (s.peer c).term = some c) (hw : Won s t c) :
    Extends s t ∧ Inv term quorums t := by
  have hnone := h.leader_eq_none hrole hQ hvotes
  have hext := hw.toExtends h hnone
  refine ⟨hext, h.of_sameVotes hext hw.ballot hw.bid hw.offer ?_ ?_ ?_ ?_ ?_ ?_ ?_ ?_ ?_ ?_⟩
  · intro U l hl
    rw [hw.leader] at hl
    rw [hw.leaderLog]
    split at hl
    · rename_i hU
      obtain rfl : c = l := Option.some.inj hl
      rw [if_pos hU, hU]
      exact .inr ⟨Q, hQ, hvotes, h.bid_candidate c hrole⟩
    · exact .inl hl
  · intro d hd
    rw [hw.role] at hd
    split at hd
    · cases hd
    · rw [hw.term_eq, hw.log_eq]
      exact h.bid_candidate d hd
  · intro T l hl hT
    rw [hw.leader] at hl
    rw [hw.role]
    split
    · simp
    · rename_i hlc
      rw [hw.term_eq] at hT
      split at hl
      · exact absurd (Option.some.inj hl).symm hlc
      · exact h.leader_role T l hl hT
  · intro T hT
    rw [hw.leader] at hT
    rw [hw.leaderLog]
    split at hT
    · cases hT
    · rename_i hne
      rw [if_neg hne]
      exact h.leaderless T hT
  · intro l hl
    rw [hw.role] at hl
    rw [hw.term_eq, hw.log_eq, hw.leader, hw.leaderLog]
    split at hl
    · rename_i hlc
      subst hlc
      simp
    · have hne := h.term_ne_of_leads hl (T := (s.peer c).term) (by simp [hnone])
      rw [if_neg hne, if_neg hne]
      exact h.leads l hl
  · intro T
    rw [hw.leaderLog]
    split
    · rename_i hT
      rw [hT]
      exact ⟨(h.log_entries c).1.mono hext, (h.log_entries c).2⟩
    · exact ⟨(h.leaderLog_entries T).1.mono hext, (h.leaderLog_entries T).2⟩
  · intro j
    rw [hw.term_eq, hw.log_eq]
    exact ⟨(h.log_entries j).1.mono hext, (h.log_entries j).2⟩
  · intro v T m hm
    obtain ⟨h1, h2⟩ := h.ack_ok v T m (hw.ack ▸ hm)
    rw [hw.term_eq]
    exact ⟨h1, h2.trans (hext.leaderLog_le T).length_le⟩
  · rintro v T k ⟨m, hkm, hm⟩ hor
    rw [hw.log_eq]
    exact h.ack_log_old hext ⟨m, hkm, hw.ack ▸ hm⟩ hor
  · intro j
    rw [hw.term_eq, hw.log_eq, hw.commit_eq]
    exact ⟨(h.commit_ok j).1, (h.commit_ok j).2.mono hext le_rfl⟩

theorem propose (h : Inv term quorums s) {l : S} {e : E} (hrole : (s.peer l).role = .leader)
    (he : term e = (s.peer l).term) (hp : Proposed s t l e) :
    Extends s t ∧ Inv term quorums t := by
  obtain ⟨hlead, hlog⟩ := h.leads l hrole
  have hext := hp.toExtends hlog
  have hentries := hp.entries h hext he
  refine ⟨hext, h.of_sameVotes hext hp.ballot hp.bid hp.offer (fun U d hd => .inl (hp.leader ▸ hd))
    ?_ ?_ ?_ ?_ ?_ ?_ ?_ ?_ ?_⟩
  · intro d hd
    rw [hp.role_eq] at hd
    have hdl : d ≠ l := by
      rintro rfl
      rw [hrole] at hd
      cases hd
    rw [hp.term_eq, hp.log, if_neg hdl]
    exact h.bid_candidate d hd
  · intro T d hd hT
    rw [hp.term_eq] at hT
    rw [hp.role_eq]
    exact h.leader_role T d (hp.leader ▸ hd) hT
  · intro T hT
    rw [hp.leader] at hT
    rw [hp.leaderLog, if_neg (by rintro rfl; rw [hlead] at hT; cases hT)]
    exact h.leaderless T hT
  · intro d hd
    rw [hp.role_eq] at hd
    rw [hp.term_eq, hp.leader, hp.leaderLog, hp.log]
    by_cases hdl : d = l
    · subst hdl
      rw [if_pos rfl, if_pos rfl]
      exact ⟨hlead, rfl⟩
    · have hne := h.term_ne_of_leads hd (T := (s.peer l).term) (by simp [hlead, Ne.symm hdl])
      rw [if_neg hne, if_neg hdl]
      exact h.leads d hd
  · intro T
    rw [hp.leaderLog]
    split
    · rename_i hT
      rw [hT]
      exact hentries
    · exact ⟨(h.leaderLog_entries T).1.mono hext, (h.leaderLog_entries T).2⟩
  · intro j
    rw [hp.term_eq, hp.log]
    split
    · rename_i hj
      rw [hj]
      exact hentries
    · exact ⟨(h.log_entries j).1.mono hext, (h.log_entries j).2⟩
  · intro v T m hm
    rw [hp.term_eq]
    rcases (hp.ack v T m).mp hm with hold | ⟨rfl, rfl, rfl⟩
    · obtain ⟨h1, h2⟩ := h.ack_ok v T m hold
      exact ⟨h1, h2.trans (hext.leaderLog_le T).length_le⟩
    · rw [hp.leaderLog, if_pos rfl]
      simp
  · rintro v T k ⟨m, hkm, hm⟩ hor
    rcases (hp.ack v T m).mp hm with hold | ⟨rfl, rfl, rfl⟩
    · exact (h.ack_log_old hext ⟨m, hkm, hold⟩ hor).trans (hp.grows v)
    · rw [hp.leaderLog, if_pos rfl, hp.log, if_pos rfl]
      exact List.take_prefix _ _
  · intro j
    obtain ⟨h1, h2⟩ := h.commit_ok j
    rw [hp.term_eq, hp.commit_eq]
    refine ⟨h1.trans (hp.grows j).length_le, ?_⟩
    rw [← take_eq_of_isPrefix (hp.grows j) h1]
    exact h2.mono hext le_rfl

/-- What a peer has acknowledged stays in its log: either it was there and `X` keeps it, or
    it is in the part of the leader's log that `X` begins with. -/
theorem accepted_ack_log (h : Inv term quorums s) {f : S} {F X : List E} {c : Nat}
    (ha : Accepted s t f F X c) (hlead : s.leader (s.peer f).term ≠ none)
    (hF : F <+: s.leaderLog (s.peer f).term) (hX : Absorbs (s.peer f).log F X)
    {v : S} {T k : Nat} (hacked : Acked t v T k)
    (hor : (t.peer v).term = T ∨ Choosable term quorums t T k) :
    (t.leaderLog T).take (k + 1) <+: (t.peer v).log := by
  have hext := ha.toExtends
  obtain ⟨m, hkm, hm⟩ := hacked
  rcases (ha.ack v T m).mp hm with hold | ⟨rfl, rfl, rfl⟩
  · have hpre := h.ack_log_old hext ⟨m, hkm, hold⟩ hor
    by_cases hj : v = f
    · subst hj
      rw [ha.self]
      refine hX.keeps hF ?_ hpre
      rw [← ha.leaderLog]
      rcases Nat.eq_or_lt_of_le (h.ack_ok v T m hold).1 with heq | hlt
      · rw [← heq]
        exact List.take_prefix _ _
      · rcases hor with heq | hc
        · rw [ha.term_eq v] at heq
          omega
        · exact h.complete_old hext hlt hlead hc
    · rw [ha.same v hj]
      exact hpre
  · rw [ha.self, ha.leaderLog]
    rw [← take_eq_of_isPrefix hF hkm]
    refine List.IsPrefix.trans ?_ hX.isPrefix
    exact List.take_prefix _ _

theorem accept (h : Inv term quorums s) {f : S} {F : List E} {c : Nat} {X : List E}
    (hoffer : s.offer (s.peer f).term F c) (hX : Absorbs (s.peer f).log F X)
    {t : State S E} (ha : Accepted s t f F X c) : Extends s t ∧ Inv term quorums t := by
  obtain ⟨hlead, hF, -, -⟩ := h.offer_ok _ F c hoffer
  have hext := ha.toExtends
  refine ⟨hext, h.of_sameVotes hext ha.ballot ha.bid ha.offer
    (fun U d hd => .inl (ha.leader ▸ hd)) ?_ ?_ ?_ ?_ ?_ ?_ ?_ ?_ ?_⟩
  · intro d hd
    by_cases hj : d = f
    · subst hj; rw [ha.self] at hd; simp at hd
    · rw [ha.same d hj] at hd ⊢
      exact h.bid_candidate d hd
  · intro T d hd hT
    by_cases hj : d = f
    · subst hj; rw [ha.self]; simp
    · rw [ha.same d hj] at hT ⊢
      exact h.leader_role T d (ha.leader ▸ hd) hT
  · rw [ha.leader, ha.leaderLog]; exact h.leaderless
  · intro d hd
    by_cases hj : d = f
    · subst hj; rw [ha.self] at hd; simp at hd
    · rw [ha.same d hj] at hd ⊢
      rw [ha.leader, ha.leaderLog]
      exact h.leads d hd
  · intro T
    rw [ha.leaderLog]
    exact ⟨(h.leaderLog_entries T).1.mono hext, (h.leaderLog_entries T).2⟩
  · intro j
    rw [ha.term_eq j]
    by_cases hj : j = f
    · subst hj
      obtain ⟨hsound, hle⟩ := h.absorbs_entries hF hX
      rw [ha.self]
      exact ⟨hsound.mono hext, hle⟩
    · rw [ha.same j hj]
      exact ⟨(h.log_entries j).1.mono hext, (h.log_entries j).2⟩
  · intro v T m hm
    rw [ha.term_eq v, ha.leaderLog]
    rcases (ha.ack v T m).mp hm with hold | ⟨rfl, rfl, rfl⟩
    · exact h.ack_ok v T m hold
    · exact ⟨le_rfl, hF.length_le⟩
  · exact fun v T k hacked hor => h.accepted_ack_log ha hlead hF hX hacked hor
  · intro j
    by_cases hj : j = f
    · subst hj
      obtain ⟨hlen, hcom⟩ := h.absorbs_commit hoffer hX
      rw [ha.self]
      exact ⟨hlen, hcom.mono hext le_rfl⟩
    · rw [ha.same j hj]
      exact ⟨(h.commit_ok j).1, (h.commit_ok j).2.mono hext le_rfl⟩

/-- Every rule extends the state and keeps the invariant. -/
theorem step (h : Inv term quorums s) {t : State S E} (hst : Step term quorums s t) :
    Extends s t ∧ Inv term quorums t := by
  cases hst with
  | adopt i T hlt =>
    refine h.setPeer hlt.le rfl (.inl rfl) ⟨(h.commit_ok i).1, ?_⟩
    exact (h.commit_ok i).2.mono (Extends.refl s) hlt.le
  | stand i => exact h.stand (stood s i)
  | grant v c B hbid hfree hup => exact h.grant hbid hfree hup rfl
  | win c Q hrole hQ hvotes => exact h.win hrole hQ hvotes (won s c)
  | propose l e hrole he => exact h.propose hrole he (proposed s l e)
  | offer l F c hrole hF hc hcommit => exact h.offer hrole hF hc hcommit
  | accept f F c X hoffer hX => exact h.accept hoffer hX (accepted s f F X c)
  | commit l k e Q hrole hk hentry he hQ hacks =>
    obtain ⟨hlead, hlog⟩ := h.leads l hrole
    have hlt : k < (s.peer l).log.length := (List.getElem?_eq_some_iff.mp hentry).1
    refine h.setPeer le_rfl rfl (.inr ⟨rfl, rfl⟩) ⟨hlt, .inr ⟨_, k, le_rfl, ?_, ?_⟩⟩
    · exact ⟨⟨e, by rw [hlog]; exact hentry, he⟩, Q, hQ, hacks⟩
    · rw [hlog]
  | retire i c hc =>
    obtain ⟨h1, h2⟩ := h.commit_ok i
    refine h.setPeer le_rfl rfl (.inl rfl) ⟨hc.trans h1, ?_⟩
    exact h2.of_isPrefix (List.take_prefix_take_left hc)

/-- Any number of steps extend the state and keep the invariant. -/
theorem steps (h : Inv term quorums s) {t : State S E} (hst : Steps term quorums s t) :
    Extends s t ∧ Inv term quorums t := by
  induction hst with
  | refl => exact ⟨Extends.refl s, h⟩
  | tail _ hlast ih =>
    obtain ⟨hext, hinv⟩ := ih.2.step hlast
    exact ⟨ih.1.trans hext, hinv⟩

end Inv

end RaftLabs.ReplicatedLog
