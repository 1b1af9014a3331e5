import RaftLabs.ReplicatedService

/-!
# Handlers that look at the state of their server

A handler need not be done when its wait is over.  It may take the lock once more
and answer from the state that it then finds, to which further commands may have
been applied.  `Reading` adds such handlers to a service: those that no longer wait
and have not answered yet.  If their server stops they never do.

What such a handler was sent is the result of a command that its server has
applied, and is still that when the handler looks: the server has only gone on.
-/

namespace RaftLabs.ReplicatedService

variable {ν S O R : Type}

/-- A position of a log is one of every part of it that reaches there. -/
theorem Server.At.take {M : Machine S O R} {log : List O} {sv : Server S} {p q : Nat}
    (h : At M log sv p) (hpq : p ≤ q) : At M (log.take q) sv p where
  le_length := by
    rw [List.length_take]
    exact Nat.le_min.mpr ⟨hpq, h.le_length⟩
  state := by
    rw [List.take_take, Nat.min_eq_left hpq]
    exact h.state
  applied_le := h.applied_le

theorem Machine.Yields.take {M : Machine S O R} {log : List O} {op : O} {r : R} {p q : Nat}
    (h : M.Yields (log.take p) op r) (hpq : p ≤ q) : M.Yields (log.take q) op r := by
  have hsplit := List.take_append_drop p (log.take q)
  rw [List.take_take, Nat.min_eq_left hpq] at hsplit
  exact hsplit ▸ h.mono _

namespace Service

variable {M : Machine S O R} {P : O → Prop} {s s' : Service ν S O R} [DecidableEq ν] {m : Move ν}

/-- Only a server that is started again goes back in the log. -/
theorem move_position (hstep : s.move M m = some s') (i : ν) :
    s.position i ≤ s'.position i ∨ ∃ k, m = .restart i k := by
  cases moved hstep with
  | applied j compact op handlers logged sent =>
    refine .inl ?_
    dsimp only
    rw [Function.update_apply]
    split
    · next hi => exact hi ▸ Nat.le_succ _
    · exact Nat.le_refl _
  | installed j k index data get lt =>
    refine .inl ?_
    dsimp only
    rw [Function.update_apply]
    split
    · next hi => exact hi ▸ Nat.le_of_lt lt
    · exact Nat.le_refl _
  | restarted j k index data get =>
    by_cases hi : i = j
    · exact .inr ⟨k, hi ▸ rfl⟩
    · exact .inl (Nat.le_of_eq (Function.update_of_ne hi _ _).symm)
  | started => exact .inl (Nat.le_refl _)
  | refused => exact .inl (Nat.le_refl _)
  | registered => exact .inl (Nat.le_refl _)
  | received => exact .inl (Nat.le_refl _)
  | expired => exact .inl (Nat.le_refl _)
  | finished => exact .inl (Nat.le_refl _)

/-- What comes into a channel is the result of the command that the server has just
    applied. -/
theorem inbox_of_move (hsound : Sound M P s) (hstep : s.move M m = some s') {j : Nat}
    {hd hd' : Handler ν O R} (hget : s.handlers[j]? = some hd)
    (hget' : s'.handlers[j]? = some hd') {r : R} (hr : hd'.inbox = some r) :
    hd.inbox = some r ∨ ∃ i op, (s.servers i).waiters (s.position i + 1) = some j ∧
      M.Yields (s.log.take (s'.position i)) op r := by
  obtain ⟨hd₀, hget₀, -, hinbox⟩ := move_handler hstep hget'
  rw [hget] at hget₀
  cases hget₀
  rcases hinbox r hr with hr' | ⟨i, compact, rfl, hwaits⟩
  · exact .inl hr'
  · cases moved hstep with
    | applied _ _ op handlers logged sent =>
      rcases send_cases sent with rfl | ⟨ch, r', hd₁, hout, hget₁, rfl⟩
      · rw [hget] at hget'
        cases hget'
        exact .inl hr
      · rcases getElem?_set_cases hget' with ⟨rfl, rfl⟩ | hget'
        · cases hr
          refine .inr ⟨i, op, hwaits, ?_⟩
          dsimp only
          rw [Function.update_self]
          have hat := (hsound.servers i).take (Nat.le_succ _)
          refine (hat.applyCommand ?_).2 ch r hout
          rw [List.getElem?_take_of_lt (Nat.lt_succ_self _)]
          exact logged
        · rw [hget] at hget'
          cases hget'
          exact .inl hr

end Service

/-! ### Handlers that are done waiting -/

structure Reading (ν S O R : Type) where
  service : Service ν S O R
  /-- The handlers that no longer wait and have not answered. -/
  reading : List Nat

namespace Reading

def start (M : Machine S O R) : Reading ν S O R where
  service := .start M
  reading := []

def enter (s : Reading ν S O R) (i : ν) (op : O) : Reading ν S O R :=
  { s with service := s.service.enter i op }

/-- Handler `h` looks at its server: its command, how its wait ended and the state
    that it finds. -/
def look (s : Reading ν S O R) (h : Nat) : Option (O × Outcome R × S) := do
  let hd ← s.service.handlers[h]?
  match hd.phase with
  | .returned out =>
    if h ∈ s.reading then some (hd.op, out, (s.service.servers hd.server).state) else none
  | _ => none

/-- Handler `h` has answered. -/
def answered (s : Reading ν S O R) (h : Nat) : Reading ν S O R :=
  { s with reading := s.reading.filter (· ≠ h) }

/-- A handler that has not answered and has not lost its server. -/
def Runs (s : Reading ν S O R) (j : Nat) (hd : Handler ν O R) : Prop :=
  hd.phase.live = true ∨ j ∈ s.reading

/-- The channels of a server are those of its handlers, and what a handler that
    runs was sent is a result of a command that its server has applied. -/
structure Current (M : Machine S O R) (s : Reading ν S O R) : Prop where
  waiters : ∀ i index ch, (s.service.servers i).waiters index = some ch →
    ∃ hd, s.service.handlers[ch]? = some hd ∧ hd.server = i
  results : ∀ j hd, s.service.handlers[j]? = some hd → s.Runs j hd →
    ∀ r, hd.inbox = some r ∨ hd.phase.result? = some r →
      ∃ op, M.Yields (s.service.log.take (s.service.position hd.server)) op r

variable {M : Machine S O R} {P : O → Prop} {s s' : Reading ν S O R} {m : Move ν}

namespace Current

theorem start (M : Machine S O R) : Current M (Reading.start M : Reading ν S O R) where
  waiters i index ch h := by cases h
  results j hd h := by simp [Reading.start, Service.start] at h

theorem enter (h : Current M s) (i : ν) (op : O) : Current M (s.enter i op) where
  waiters i' index ch hch := by
    obtain ⟨hd, hget, hserver⟩ := h.waiters i' index ch hch
    refine ⟨hd, ?_, hserver⟩
    exact (List.getElem?_append_left (List.getElem?_eq_some_iff.mp hget).1).trans hget
  results j hd hget hruns r hr := by
    by_cases hlt : j < s.service.handlers.length
    · refine h.results j hd ?_ hruns r hr
      exact (List.getElem?_append_left hlt).symm.trans hget
    · simp only [Reading.enter, Service.enter, List.getElem?_append_right (Nat.le_of_not_lt hlt),
        List.getElem?_singleton] at hget
      split at hget
      · cases hget
        simp [Phase.result?] at hr
      · cases hget

/-- The log may grow. -/
theorem grow (h : Current M s) (hsound : s.service.Sound M P) (op : O) :
    Current M { s with service := { s.service with log := s.service.log ++ [op] } } where
  waiters := h.waiters
  results j hd hget hruns r hr := by
    obtain ⟨op', hyields⟩ := h.results j hd hget hruns r hr
    refine ⟨op', ?_⟩
    dsimp only
    rwa [List.take_append_of_le_length (hsound.servers hd.server).le_length]

theorem answered (h : Current M s) (k : Nat) : Current M (s.answered k) where
  waiters := h.waiters
  results j hd hget hruns :=
    h.results j hd hget (hruns.imp id fun hmem => (List.mem_filter.mp hmem).1)

/-- What a handler that looks at its server was sent, and what it sees. -/
theorem look (h : Current M s) (hsound : s.service.Sound M P) {k : Nat} {op : O} {r : R}
    {state : S} (hlook : s.look k = some (op, .result r, state)) :
    ∃ i op', P op ∧ M.Yields (s.service.log.take (s.service.position i)) op' r ∧
      state = M.run (s.service.log.take (s.service.position i)) ∧
      s.service.position i ≤ s.service.log.length := by
  simp only [Reading.look, Option.bind_eq_bind, Option.bind_eq_some_iff] at hlook
  obtain ⟨hd, hget, hlook⟩ := hlook
  split at hlook
  · next out hphase =>
    simp only [Option.ite_none_right_eq_some, Option.some.injEq, Prod.mk.injEq] at hlook
    obtain ⟨hread, rfl, rfl, rfl⟩ := hlook
    obtain ⟨op', hyields⟩ := h.results k hd hget (.inr hread) r (.inr (by rw [hphase]; rfl))
    have hat := hsound.servers hd.server
    exact ⟨hd.server, op', (hsound.handlers hd (List.mem_of_getElem? hget)).op, hyields,
      hat.state, hat.le_length⟩
  · cases hlook

end Current

variable [DecidableEq ν]

/-- A handler that no longer waits goes on, and those at a server that stops do
    not. -/
def readingAfter (s : Reading ν S O R) : Move ν → List Nat
  | .refuse h => s.reading ++ [h]
  | .finish h => s.reading ++ [h]
  | .restart i _ => s.reading.filter fun h => s.service.handlers[h]?.all fun hd => hd.server ≠ i
  | _ => s.reading

def move (M : Machine S O R) (s : Reading ν S O R) (m : Move ν) : Option (Reading ν S O R) := do
  let service ← s.service.move M m
  some { service := service, reading := s.readingAfter m }

theorem move_eq_some (h : s.move M m = some s') :
    s.service.move M m = some s'.service ∧ s'.reading = s.readingAfter m := by
  simp only [move, Option.bind_eq_bind, Option.bind_eq_some_iff, Option.some.injEq] at h
  obtain ⟨service, hmove, rfl⟩ := h
  exact ⟨hmove, rfl⟩

/-- A handler that runs did so before, and its server was not started again. -/
theorem Runs.of_move (hstep : s.move M m = some s') {j : Nat} {hd hd' : Handler ν O R}
    (hget : s.service.handlers[j]? = some hd) (hget' : s'.service.handlers[j]? = some hd')
    (h : s'.Runs j hd') : s.Runs j hd ∧ ∀ k, m ≠ .restart hd.server k := by
  obtain ⟨service', reading'⟩ := s'
  obtain ⟨hmove, rfl⟩ := move_eq_some hstep
  dsimp only at hmove hget'
  obtain ⟨hd₀, hget₀, hfollows, -⟩ := Service.move_handler hmove hget'
  rw [hget] at hget₀
  cases hget₀
  rcases h with hlive | hread
  · refine ⟨.inl (hfollows.live hlive), ?_⟩
    rintro k rfl
    cases Service.moved hmove with
    | restarted _ _ index data get =>
      rw [List.getElem?_map, hget, Option.map_some, Option.some.injEq] at hget'
      subst hget'
      cases hphase : hd.phase <;> simp [Service.stop, hphase, Phase.live] at hlive
  · cases Service.moved hmove with
    | refused k hd₁ get phase =>
      refine ⟨?_, by simp⟩
      rcases List.mem_append.mp hread with hread | hread
      · exact .inr hread
      · cases List.mem_singleton.mp hread
        rw [hget] at get
        cases get
        exact .inl (by simp [phase, Phase.live])
    | finished k index out hd₁ get phase =>
      refine ⟨?_, by simp⟩
      rcases List.mem_append.mp hread with hread | hread
      · exact .inr hread
      · cases List.mem_singleton.mp hread
        rw [hget] at get
        cases get
        exact .inl (by simp [phase, Phase.live])
    | restarted i k index data get =>
      obtain ⟨hread, hserver⟩ := List.mem_filter.mp hread
      rw [hget] at hserver
      refine ⟨.inr hread, fun k' heq => ?_⟩
      cases heq
      simp at hserver
    | started => exact ⟨.inr hread, by simp⟩
    | registered => exact ⟨.inr hread, by simp⟩
    | received => exact ⟨.inr hread, by simp⟩
    | expired => exact ⟨.inr hread, by simp⟩
    | applied => exact ⟨.inr hread, by simp⟩
    | installed => exact ⟨.inr hread, by simp⟩

theorem Current.move (h : Current M s) (hsound : s.service.Sound M P)
    (hstep : s.move M m = some s') : Current M s' := by
  obtain ⟨hmove, -⟩ := move_eq_some hstep
  constructor
  case waiters =>
    intro i index ch hch
    rcases Service.move_server hmove i with hadv | hrests
    · have hold : ∃ hd, s.service.handlers[ch]? = some hd ∧ hd.server = i := by
        rcases hadv.2 index ch hch with hch | ⟨hd, hget, hserver, -⟩
        · exact h.waiters i index ch hch
        · exact ⟨hd, hget, hserver⟩
      obtain ⟨hd, hget, hserver⟩ := hold
      have hlt : ch < s'.service.handlers.length := by
        rw [Service.move_handlers_length hmove]
        exact (List.getElem?_eq_some_iff.mp hget).1
      have hget' := List.getElem?_eq_getElem hlt
      obtain ⟨hd₀, hget₀, hfollows, -⟩ := Service.move_handler hmove hget'
      rw [hget] at hget₀
      cases hget₀
      exact ⟨_, hget', hfollows.server.trans hserver⟩
    · rw [hrests.1 index] at hch
      cases hch
  case results =>
    intro j hd' hget' hruns r hr
    obtain ⟨hd, hget, hfollows, -⟩ := Service.move_handler hmove hget'
    obtain ⟨hruns, hstays⟩ := Runs.of_move hstep hget hget' hruns
    have hle := (Service.move_position hmove hd.server).resolve_right
      fun ⟨k, hk⟩ => hstays k hk
    rw [Service.move_log hmove, hfollows.server]
    have hold : hd.inbox = some r ∨ hd.phase.result? = some r →
        ∃ op, M.Yields (s.service.log.take (s'.service.position hd.server)) op r := by
      intro hr
      obtain ⟨op, hyields⟩ := h.results j hd hget hruns r hr
      exact ⟨op, hyields.take hle⟩
    rcases hr with hr | hr
    · rcases Service.inbox_of_move hsound hmove hget hget' hr with hr | ⟨i, op, hwaits, hyields⟩
      · exact hold (.inl hr)
      · -- the channel belongs to a handler of the server that sends
        obtain ⟨hd₀, hget₀, rfl⟩ := h.waiters i _ j hwaits
        rw [hget] at hget₀
        cases hget₀
        exact ⟨op, hyields⟩
    · exact hold ((hfollows.result r hr).symm)

end Reading

end RaftLabs.ReplicatedService
