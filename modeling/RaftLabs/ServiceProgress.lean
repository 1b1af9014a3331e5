import RaftLabs.ReplicatedService
import Mathlib.Logic.Relation

/-!
# What a replicated service can do

A server can always catch up with the log: it is started again and applies what has
been committed.  A request that enters at such a server can be carried out, logged
and answered with the result of its own command.
-/

namespace RaftLabs.ReplicatedService

namespace Service

variable {ν S O R : Type} [DecidableEq ν] {M : Machine S O R} {P : O → Prop}
  {s s' : Service ν S O R} {i : ν}

/-- What a move can do, it does. -/
theorem move_of_moved {m : Move ν} (h : Moved M s m s') : s.move M m = some s' := by
  cases h with
  | started h index hd get phase => simp [move, get, phase]
  | refused h hd get phase => simp [move, get, phase]
  | registered h index hd get phase => simp [move, get, phase]
  | received h index r hd get phase inbox => simp [move, get, phase, inbox]
  | expired h index hd get phase => simp [move, get, phase]
  | finished h index out hd get phase => simp [move, get, phase]
  | applied i compact op handlers logged sent => simp [move, logged, sent]
  | installed i k index data get lt => simp [move, get, lt]
  | restarted i k index data get => simp [move, get]

/-- Whoever is handed a result has asked for the command that it comes from. -/
def Owned (s : Service ν S O R) : Move ν → Prop
  | .apply i _ => ∀ op ch hd, s.log[s.position i]? = some op →
      (s.servers i).waiters (s.position i + 1) = some ch → s.handlers[ch]? = some hd → hd.op = op
  | _ => True

/-- A move in which results go where they belong, or a commit. -/
inductive Goes (M : Machine S O R) (s s' : Service ν S O R) : Prop where
  | move (m : Move ν) (owned : s.Owned m) (eq : s.move M m = some s')
  | commit (k : Nat) (eq : s.commit k = some s')

theorem Moved.goes {m : Move ν} (h : Moved M s m s') (howned : s.Owned m) : Goes M s s' :=
  .move m howned (move_of_moved h)

/-- Server `i` has applied the whole log and nobody waits there. -/
structure Idle (s : Service ν S O R) (i : ν) : Prop where
  position : s.position i = s.log.length
  waiters : ∀ index, (s.servers i).waiters index = none

omit [DecidableEq ν] in
theorem Idle.state (h : s.Idle i) (hsound : Sound M P s) :
    (s.servers i).state = M.run s.log := by
  rw [(hsound.servers i).state, h.position, List.take_length]

/-! ### Catching up -/

theorem move_snapshots {m : Move ν} (hstep : s.move M m = some s') (h : s.snapshots ≠ []) :
    s'.snapshots ≠ [] := by
  cases moved hstep with
  | applied i compact op handlers logged sent =>
    cases compact with
    | false => exact h
    | true => exact List.append_ne_nil_of_left_ne_nil h _
  | started => exact h
  | refused => exact h
  | registered => exact h
  | received => exact h
  | expired => exact h
  | finished => exact h
  | installed => exact h
  | restarted => exact h

/-- A server that was started again applies one entry after the other. -/
theorem exists_idle_of_waiters (hwaiters : ∀ index, (s.servers i).waiters index = none)
    (hle : s.position i ≤ s.log.length) :
    ∃ s', Relation.ReflTransGen (Goes M) s s' ∧ s'.log = s.log ∧ s'.Idle i := by
  induction hn : s.log.length - s.position i generalizing s with
  | zero => exact ⟨s, .refl, rfl, { position := by omega, waiters := hwaiters }⟩
  | succ n ih =>
    obtain ⟨op, hop⟩ : ∃ op, s.log[s.position i]? = some op :=
      ⟨_, List.getElem?_eq_getElem (by omega)⟩
    have hnone : ((s.servers i).applyCommand M op (s.position i + 1)).2 = none := by
      by_contra hne
      obtain ⟨⟨ch, r⟩, hout⟩ := Option.ne_none_iff_exists'.mp hne
      have := (s.servers i).waiters_of_applyCommand hout
      rw [hwaiters] at this
      cases this
    have hmoved : Moved M s (.apply i false) _ :=
      .applied i false op s.handlers hop (by rw [hnone]; rfl)
    have howned : s.Owned (.apply i false) := by
      intro op' ch hd _ hch
      rw [hwaiters] at hch
      cases hch
    have hwaiters' : ∀ index,
        ((s.servers i).applyCommand M op (s.position i + 1)).1.waiters index = none := by
      intro index
      simp only [Server.applyCommand]
      split
      · exact hwaiters index
      · exact hwaiters index
    obtain ⟨s', hgoes, hlog, hidle⟩ := ih
      (s := { s with
        servers := Function.update s.servers i
          ((s.servers i).applyCommand M op (s.position i + 1)).1
        position := Function.update s.position i (s.position i + 1) })
      (by simpa using hwaiters') (by simp; omega) (by simp; omega)
    exact ⟨s', .head (hmoved.goes howned) hgoes, hlog, hidle⟩

theorem exists_idle (hsound : Sound M P s) (hsnap : s.snapshots ≠ []) (i : ν) :
    ∃ s', Relation.ReflTransGen (Goes M) s s' ∧ s'.log = s.log ∧ s'.Idle i := by
  have hget : s.snapshots[0]? = some (s.snapshots.head hsnap) :=
    (List.head?_eq_getElem? ..).symm.trans (List.head?_eq_some_head hsnap)
  obtain ⟨⟨index, data⟩, hhead⟩ : ∃ x, s.snapshots.head hsnap = x := ⟨_, rfl⟩
  rw [hhead] at hget
  have hmoved : Moved M s (.restart i 0) _ := .restarted i 0 index data hget
  obtain ⟨s', hgoes, hlog, hidle⟩ := exists_idle_of_waiters (M := M) (i := i)
    (s := { s with
      servers := Function.update s.servers i ((Server.new M).readSnapshot data)
      position := Function.update s.position i index
      handlers := s.handlers.map (stop i) })
    (fun index' => by
      simp only [Function.update_self]
      cases data <;> rfl)
    (by
      simp only [Function.update_self]
      exact (hsound.snapshot_at hget).le_length)
  exact ⟨s', .head (hmoved.goes trivial) hgoes, hlog, hidle⟩

/-! ### Carrying out a request -/

section Request

variable {h index : Nat} {hd : Handler ν O R} (hget : s.handlers[h]? = some hd)
include hget

omit [DecidableEq ν] in
theorem getElem?_set_handler (hd' : Handler ν O R) : (s.handlers.set h hd')[h]? = some hd' :=
  List.getElem?_set_self (List.getElem?_eq_some_iff.mp hget).1

theorem exists_proposed (hphase : hd.phase = .entered) (index : Nat) :
    ∃ s', Goes M s s' ∧ s'.log = s.log ∧ s'.servers = s.servers ∧ s'.position = s.position ∧
      (index, hd.op) ∈ s'.started ∧
      s'.handlers[h]? = some { hd with phase := .proposed index } := by
  have hmoved : Moved M s (.start h index) _ := .started h index hd hget hphase
  exact ⟨_, hmoved.goes trivial, rfl, rfl, rfl,
    List.mem_append_right _ (List.mem_singleton_self _), getElem?_set_handler hget _⟩

theorem exists_waiting (hphase : hd.phase = .proposed index) :
    ∃ s', Goes M s s' ∧ s'.log = s.log ∧ s'.started = s.started ∧ s'.position = s.position ∧
      s'.servers hd.server = (s.servers hd.server).addWaiter index h ∧
      s'.handlers[h]? = some { hd with phase := .waiting index } := by
  have hmoved : Moved M s (.register h) _ := .registered h index hd hget hphase
  exact ⟨_, hmoved.goes trivial, rfl, rfl, rfl, Function.update_self ..,
    getElem?_set_handler hget _⟩

/-- The command is applied and its result is sent. -/
theorem exists_sent (hinbox : hd.inbox = none) (hop : s.log[s.position hd.server]? = some hd.op)
    (hwaiter : (s.servers hd.server).waiters (s.position hd.server + 1) = some h)
    (happlied : (s.servers hd.server).lastApplied ≤ s.position hd.server) :
    ∃ s', Goes M s s' ∧ s'.log = s.log ∧ s'.handlers[h]? =
      some { hd with inbox := some (M.apply (s.servers hd.server).state hd.op).2 } := by
  have hout : ((s.servers hd.server).applyCommand M hd.op (s.position hd.server + 1)).2 =
      some (h, (M.apply (s.servers hd.server).state hd.op).2) := by
    simp only [Server.applyCommand]
    rw [if_neg (by omega), hwaiter]
    rfl
  have hsent : send s.handlers
      ((s.servers hd.server).applyCommand M hd.op (s.position hd.server + 1)).2 =
        some (s.handlers.set h
          { hd with inbox := some (M.apply (s.servers hd.server).state hd.op).2 }) := by
    rw [hout]
    simp [send, hget, hinbox]
  have howned : s.Owned (.apply hd.server false) := by
    intro op ch hd' hop' hch hget'
    rw [hwaiter] at hch
    cases hch
    rw [hget] at hget'
    cases hget'
    rw [hop] at hop'
    exact Option.some.inj hop'
  have hmoved : Moved M s (.apply hd.server false) _ := .applied hd.server false hd.op _ hop hsent
  exact ⟨_, hmoved.goes howned, rfl, getElem?_set_handler hget _⟩

/-- A handler takes the result that was sent and returns with it. -/
theorem exists_returned {r : R} (hphase : hd.phase = .waiting index) (hinbox : hd.inbox = some r) :
    ∃ s', Relation.ReflTransGen (Goes M) s s' ∧ s'.log = s.log ∧ s'.handlers[h]? =
      some { hd with phase := .returned (.result r), inbox := none } := by
  have hreceived : Moved M s (.receive h) _ := .received h index r hd hget hphase hinbox
  obtain ⟨s₁, hs₁⟩ : ∃ s₁, s₁ = { s with
      handlers := s.handlers.set h
        { hd with phase := .leaving index (.result r), inbox := none } } := ⟨_, rfl⟩
  rw [← hs₁] at hreceived
  have hget₁ : s₁.handlers[h]? = some
      { hd with phase := .leaving index (.result r), inbox := none } := by
    rw [hs₁]
    exact getElem?_set_handler hget _
  have hfinished : Moved M s₁ (.finish h) _ := .finished h index (.result r) _ hget₁ rfl
  refine ⟨_, .head (hreceived.goes trivial) (.single (hfinished.goes trivial)), ?_, ?_⟩
  · rw [hs₁]
  · exact getElem?_set_handler hget₁ _

end Request

theorem exists_committed {op : O} (hmem : (s.log.length + 1, op) ∈ s.started) :
    Goes M s { s with log := s.log ++ [op] } := by
  obtain ⟨k, hk⟩ := List.mem_iff_getElem?.mp hmem
  exact .commit k (by simp [commit, hk])

/-- The command of a request can be logged next, and the request be answered with its
    result. -/
theorem exists_call (hsound : Sound M P s) (hidle : s.Idle i) (op : O) :
    ∃ (s' : Service ν S O R) (h : Nat) (hd : Handler ν O R),
      Relation.ReflTransGen (Goes M) (s.enter i op) s' ∧ s'.log = s.log ++ [op] ∧
      s'.handlers[h]? = some hd ∧ hd.server = i ∧ hd.op = op ∧
      hd.phase = .returned (.result (M.result s.log op)) := by
  have hentered : (s.enter i op).handlers[s.handlers.length]? =
      some { server := i, op := op, phase := .entered, inbox := none } :=
    List.getElem?_concat_length
  obtain ⟨s₁, hgoes₁, hlog₁, hservers₁, hposition₁, hstarted₁, hget₁⟩ :=
    exists_proposed (M := M) hentered rfl (s.log.length + 1)
  obtain ⟨s₂, hgoes₂, hlog₂, hstarted₂, hposition₂, hserver₂, hget₂⟩ :=
    exists_waiting (M := M) hget₁ rfl
  have hlog : s₂.log = s.log := hlog₂.trans hlog₁
  have hposition : s₂.position i = s.log.length := by
    rw [hposition₂, hposition₁]
    exact hidle.position
  have hserver : s₂.servers i = (s.servers i).addWaiter (s.log.length + 1) s.handlers.length := by
    rw [hserver₂, hservers₁]
    rfl
  have hgoes₃ : Goes M s₂ { s₂ with log := s₂.log ++ [op] } := by
    refine exists_committed ?_
    rw [hstarted₂, hlog]
    exact hstarted₁
  obtain ⟨s₄, hgoes₄, hlog₄, hget₄⟩ := exists_sent (M := M)
    (s := { s₂ with log := s₂.log ++ [op] }) hget₂ rfl
    (by simp [hposition, hlog]) (by simp [hposition, hserver, Server.addWaiter])
    (by
      rw [hposition, hserver, ← hidle.position]
      exact (hsound.servers i).applied_le)
  obtain ⟨s₅, hgoes₅, hlog₅, hget₅⟩ := exists_returned (M := M) hget₄ rfl rfl
  refine ⟨s₅, _, _, .head hgoes₁ (.head hgoes₂ (.head hgoes₃ (.head hgoes₄ hgoes₅))), ?_, hget₅,
    rfl, rfl, ?_⟩
  · rw [hlog₅, hlog₄, hlog]
  · dsimp only
    rw [hserver, Machine.result, ← hidle.state hsound]
    rfl

end Service

end RaftLabs.ReplicatedService
