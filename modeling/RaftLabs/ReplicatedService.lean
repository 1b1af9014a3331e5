import Mathlib.Logic.Function.Basic
import Mathlib.Data.List.Induction

/-!
# A service on top of an agreed log

A deterministic state machine, replicated by servers that apply the commands of
one agreed log, and the requests that wait for their command to be applied.

A request handler asks for its command to be logged and is told an index.  It
then enters a channel for that index and waits until a result arrives or its time
is up; in both cases it removes whatever channel stands at the index.  Nothing
ties the result that arrives to the command of the handler: the caller of the
service has to look at it.

The log is that of the contract of a consensus module: a command may come to
stand at an index only if that index was returned for it, an entry never changes,
and every server is given the entries in order, from the start or from a
snapshot on.  Any server may be asked at any time, whether or not it is the
leader, and a server may be started again from any snapshot that was taken.
-/

namespace RaftLabs.ReplicatedService

variable {ν S O R : Type}

/-! ### The state machine -/

structure Machine (S O R : Type) where
  init : S
  apply : S → O → S × R

namespace Machine

variable (M : Machine S O R)

/-- The state after a sequence of commands. -/
def run (ops : List O) : S := ops.foldl (fun s op => (M.apply s op).1) M.init

/-- What the command `op` yields after the commands `ops`. -/
def result (ops : List O) (op : O) : R := (M.apply (M.run ops) op).2

/-- `r` is the result of an occurrence of `op` in the log. -/
def Yields (log : List O) (op : O) (r : R) : Prop :=
  ∃ p, log[p]? = some op ∧ r = M.result (log.take p) op

/-- What `f` finds at each command of the log and the state before it. -/
def collect {α : Type} (f : S → O → List α) (log : List O) : List α :=
  (log.foldl (fun x op => ((M.apply x.1 op).1, x.2 ++ f x.1 op)) (M.init, [])).2

theorem run_snoc (ops : List O) (op : O) : M.run (ops ++ [op]) = (M.apply (M.run ops) op).1 := by
  simp [run]

theorem run_take_succ {log : List O} {p : Nat} {op : O} (h : log[p]? = some op) :
    M.run (log.take (p + 1)) = (M.apply (M.run (log.take p)) op).1 := by
  rw [List.take_add_one, h, Option.toList_some, run_snoc]

theorem run_take_append {log : List O} {q : Nat} (h : q ≤ log.length) (more : List O) :
    M.run ((log ++ more).take q) = M.run (log.take q) := by
  rw [List.take_append_of_le_length h]

/-- A reflexive and transitive relation that holds across every command holds
    between two positions of a log. -/
theorem run_relation (Rel : S → S → Prop) (hrefl : ∀ s, Rel s s)
    (htrans : ∀ s t u, Rel s t → Rel t u → Rel s u) (hstep : ∀ s op, Rel s (M.apply s op).1)
    (log : List O) {p q : Nat} (hpq : p ≤ q) : Rel (M.run (log.take p)) (M.run (log.take q)) := by
  induction hpq with
  | refl => exact hrefl _
  | @step q _ ih =>
    cases hop : log[q]? with
    | none =>
      have hlen := List.getElem?_eq_none_iff.mp hop
      rw [List.take_of_length_le (Nat.le_succ_of_le hlen)]
      rwa [List.take_of_length_le hlen] at ih
    | some op =>
      rw [M.run_take_succ hop]
      exact htrans _ _ _ ih (hstep _ op)

/-- What every command keeps true stays true as the log grows. -/
theorem run_of_isPrefix {Q : S → Prop} (hstep : ∀ s op, Q s → Q (M.apply s op).1)
    {log log' : List O} (hlog : log <+: log') (h : Q (M.run log)) : Q (M.run log') := by
  obtain ⟨more, rfl⟩ := hlog
  induction more using List.reverseRecOn with
  | nil => rwa [List.append_nil]
  | append_singleton more op ih =>
    rw [← List.append_assoc, run_snoc]
    exact hstep _ op ih

/-- An entry of a log that grew by one command, and the state before it. -/
theorem entry_snoc {log : List O} {op op' : O} {p : Nat} (h : (log ++ [op])[p]? = some op') :
    log[p]? = some op' ∧ M.run ((log ++ [op]).take p) = M.run (log.take p) ∨
      p = log.length ∧ op' = op ∧ M.run ((log ++ [op]).take p) = M.run log := by
  by_cases hlt : p < log.length
  · rw [List.getElem?_append_left hlt] at h
    exact .inl ⟨h, M.run_take_append (Nat.le_of_lt hlt) _⟩
  · have hp : p = log.length := by
      have := (List.getElem?_eq_some_iff.mp h).1
      rw [List.length_append, List.length_singleton] at this
      omega
    subst hp
    rw [List.getElem?_concat_length, Option.some.injEq] at h
    exact .inr ⟨rfl, h.symm, by rw [List.take_left]⟩

theorem collect_snoc {α : Type} (f : S → O → List α) (log : List O) (op : O) :
    M.collect f (log ++ [op]) = M.collect f log ++ f (M.run log) op := by
  have hrun : ∀ ops : List O,
      (ops.foldl (fun x op => ((M.apply x.1 op).1, x.2 ++ f x.1 op)) (M.init, [])).1 =
        M.run ops := by
    intro ops
    induction ops using List.reverseRecOn with
    | nil => rfl
    | append_singleton ops op ih => simp [run_snoc, ih]
  simp [collect, hrun]

theorem mem_collect {α : Type} {f : S → O → List α} {log : List O} {x : α} :
    x ∈ M.collect f log ↔ ∃ (p : Nat) (op : O), log[p]? = some op ∧
      x ∈ f (M.run (log.take p)) op := by
  induction log using List.reverseRecOn with
  | nil => simp [collect]
  | append_singleton log op ih =>
    rw [collect_snoc, List.mem_append, ih]
    constructor
    · rintro (⟨p, op', hp, hx⟩ | hx)
      · have hlt := (List.getElem?_eq_some_iff.mp hp).1
        refine ⟨p, op', ?_, ?_⟩
        · rw [List.getElem?_append_left hlt]
          exact hp
        · rw [List.take_append_of_le_length (Nat.le_of_lt hlt)]
          exact hx
      · exact ⟨log.length, op, by simp, by simpa using hx⟩
    · rintro ⟨p, op', hp, hx⟩
      rcases M.entry_snoc hp with ⟨hp, hrun⟩ | ⟨-, rfl, hrun⟩
      · exact .inl ⟨p, op', hp, hrun ▸ hx⟩
      · exact .inr (hrun ▸ hx)

variable {M}

theorem Yields.mono {log : List O} {op : O} {r : R} (h : M.Yields log op r) (more : List O) :
    M.Yields (log ++ more) op r := by
  obtain ⟨p, hp, hr⟩ := h
  have hlt := (List.getElem?_eq_some_iff.mp hp).1
  refine ⟨p, ?_, ?_⟩
  · rw [List.getElem?_append_left hlt]
    exact hp
  · rw [List.take_append_of_le_length (Nat.le_of_lt hlt)]
    exact hr

end Machine

/-! ### A server -/

/-- The replicated state, the channel of the request waiting at a log index, and
    the highest index applied. -/
structure Server (S : Type) where
  state : S
  waiters : Nat → Option Nat
  lastApplied : Nat

namespace Server

/-- A server that has just been allocated. -/
def new (M : Machine S O R) : Server S where
  state := M.init
  waiters _ := none
  lastApplied := 0

/-- The bytes of a snapshot replace the state; there may be none. -/
def readSnapshot (sv : Server S) (data : Option S) : Server S :=
  match data with
  | none => sv
  | some state => { sv with state := state }

/-- A committed command, with what is sent to a waiting request. -/
def applyCommand (M : Machine S O R) (sv : Server S) (op : O) (commandIndex : Nat) :
    Server S × Option (Nat × R) :=
  if commandIndex ≤ sv.lastApplied then (sv, none)
  else
    let (state, res) := M.apply sv.state op
    ({ sv with state := state, lastApplied := commandIndex },
      (sv.waiters commandIndex).map fun ch => (ch, res))

/-- A result goes to the channel that waits at the index. -/
theorem waiters_of_applyCommand {M : Machine S O R} (sv : Server S) {op : O} {index ch : Nat}
    {r : R} (h : (sv.applyCommand M op index).2 = some (ch, r)) :
    sv.waiters index = some ch := by
  simp only [applyCommand] at h
  split at h
  · cases h
  · obtain ⟨ch', hch', heq⟩ := Option.map_eq_some_iff.mp h
    cases heq
    exact hch'

def applySnapshot (sv : Server S) (data : Option S) (snapshotIndex : Nat) : Server S :=
  if snapshotIndex ≤ sv.lastApplied then sv
  else { sv.readSnapshot data with lastApplied := snapshotIndex }

def addWaiter (sv : Server S) (index ch : Nat) : Server S :=
  { sv with waiters := Function.update sv.waiters index (some ch) }

def deleteWaiter (sv : Server S) (index : Nat) : Server S :=
  { sv with waiters := Function.update sv.waiters index none }

/-- The server stands at position `p` of the log. -/
structure At (M : Machine S O R) (log : List O) (sv : Server S) (p : Nat) : Prop where
  le_length : p ≤ log.length
  state : sv.state = M.run (log.take p)
  applied_le : sv.lastApplied ≤ p

variable {M : Machine S O R} {log : List O} {sv : Server S} {p : Nat}

theorem At.grow (h : At M log sv p) (more : List O) : At M (log ++ more) sv p where
  le_length := by
    rw [List.length_append]
    exact Nat.le_add_right_of_le h.le_length
  state := by
    rw [List.take_append_of_le_length h.le_length]
    exact h.state
  applied_le := h.applied_le

/-- The next command of the log is applied, and a waiting request is sent its
    result. -/
theorem At.applyCommand (h : At M log sv p) {op : O} (hop : log[p]? = some op) :
    At M log (sv.applyCommand M op (p + 1)).1 (p + 1) ∧
      ∀ ch r, (sv.applyCommand M op (p + 1)).2 = some (ch, r) → M.Yields log op r := by
  have hnew : ¬ p + 1 ≤ sv.lastApplied := Nat.not_le_of_lt (Nat.lt_succ_of_le h.applied_le)
  simp only [Server.applyCommand, if_neg hnew]
  constructor
  · exact
      { le_length := (List.getElem?_eq_some_iff.mp hop).1
        state := by
          rw [M.run_take_succ hop, ← h.state]
        applied_le := Nat.le_refl _ }
  · intro ch r hr
    obtain ⟨w, -, hw⟩ := Option.map_eq_some_iff.mp hr
    simp only [Prod.mk.injEq] at hw
    obtain ⟨-, rfl⟩ := hw
    refine ⟨p, hop, ?_⟩
    rw [Machine.result, ← h.state]

/-- A snapshot of a later position takes the server there. -/
theorem At.applySnapshot (h : At M log sv p) {k : Nat} (hk : p < k) (hlen : k ≤ log.length) :
    At M log (sv.applySnapshot (some (M.run (log.take k))) k) k := by
  have hnew : ¬ k ≤ sv.lastApplied := Nat.not_le_of_lt (Nat.lt_of_le_of_lt h.applied_le hk)
  simp only [Server.applySnapshot, if_neg hnew]
  exact { le_length := hlen, state := rfl, applied_le := Nat.le_refl _ }

end Server

/-! ### Requests -/

/-- What a request handler ends with. -/
inductive Outcome (R : Type) where
  /-- The command was not accepted: the server is not the leader. -/
  | notLeader
  | timeout
  | result (res : R)

inductive Phase (R : Type) where
  | entered
  /-- The command was accepted at `index`; no channel has been entered yet. -/
  | proposed (index : Nat)
  | waiting (index : Nat)
  /-- The channel is still to be removed. -/
  | leaving (index : Nat) (out : Outcome R)
  | returned (out : Outcome R)
  /-- The server stopped before the handler returned. -/
  | dead

/-- The handler has not returned, and its server has not stopped. -/
def Phase.live : Phase R → Bool
  | .entered => true
  | .proposed _ => true
  | .waiting _ => true
  | .leaving _ _ => true
  | .returned _ => false
  | .dead => false

def Phase.result? : Phase R → Option R
  | .leaving _ (.result r) => some r
  | .returned (.result r) => some r
  | _ => none

/-- A request handler and the buffer of its channel.  The number of the handler is
    also that of its channel. -/
structure Handler (ν O R : Type) where
  server : ν
  op : O
  phase : Phase R
  inbox : Option R

/-- The handler has nothing but results of logged commands. -/
structure Handler.Sound (M : Machine S O R) (P : O → Prop) (log : List O)
    (hd : Handler ν O R) : Prop where
  op : P hd.op
  inbox : ∀ r, hd.inbox = some r → ∃ op, M.Yields log op r
  result : ∀ r, hd.phase.result? = some r → ∃ op, M.Yields log op r

/-! ### The service -/

structure Service (ν S O R : Type) where
  log : List O
  /-- The commands that were accepted, with the index that was returned. -/
  started : List (Nat × O)
  servers : ν → Server S
  /-- The index up to which a server has been given the log. -/
  position : ν → Nat
  /-- The snapshots that were taken and the index of each. -/
  snapshots : List (Nat × Option S)
  handlers : List (Handler ν O R)

/-- What happens inside the service, once requests are there. -/
inductive Move (ν : Type) where
  /-- The command of handler `h` is accepted at `index`. -/
  | start (h index : Nat)
  /-- The command of handler `h` is not accepted. -/
  | refuse (h : Nat)
  | register (h : Nat)
  | receive (h : Nat)
  | expire (h : Nat)
  | finish (h : Nat)
  /-- Server `i` is given the next entry, and takes a snapshot after it. -/
  | apply (i : ν) (compact : Bool)
  /-- Server `i` is given snapshot number `k`. -/
  | install (i : ν) (k : Nat)
  /-- Server `i` stops and is started again from snapshot number `k`. -/
  | restart (i : ν) (k : Nat)

namespace Service

def start (M : Machine S O R) : Service ν S O R where
  log := []
  started := []
  servers _ := Server.new M
  position _ := 0
  snapshots := [(0, none)]
  handlers := []

/-- A request handler for `op` begins at server `i`. -/
def enter (s : Service ν S O R) (i : ν) (op : O) : Service ν S O R :=
  { s with handlers := s.handlers ++ [{ server := i, op := op, phase := .entered, inbox := none }] }

/-- A command is accepted at `index` and nobody waits for it. -/
def propose (s : Service ν S O R) (index : Nat) (op : O) : Service ν S O R :=
  { s with started := s.started ++ [(index, op)] }

/-- Accepted command number `k` comes to stand in the log. -/
def commit (s : Service ν S O R) (k : Nat) : Option (Service ν S O R) := do
  let (index, op) ← s.started[k]?
  if index = s.log.length + 1 then some { s with log := s.log ++ [op] } else none

/-- A server sends a result on a channel, which holds one result at a time. -/
def send (handlers : List (Handler ν O R)) : Option (Nat × R) → Option (List (Handler ν O R))
  | none => some handlers
  | some (ch, r) => do
    let hd ← handlers[ch]?
    if hd.inbox.isSome then none else some (handlers.set ch { hd with inbox := some r })

/-- What is sent goes to one channel, if to any. -/
theorem send_cases {handlers handlers' : List (Handler ν O R)} {out : Option (Nat × R)}
    (h : send handlers out = some handlers') : handlers' = handlers ∨
      ∃ ch r hd, out = some (ch, r) ∧ handlers[ch]? = some hd ∧
        handlers' = handlers.set ch { hd with inbox := some r } := by
  cases out with
  | none =>
    cases h
    exact .inl rfl
  | some out =>
    obtain ⟨ch, r⟩ := out
    simp only [send, Option.bind_eq_bind, Option.bind_eq_some_iff,
      Option.ite_none_left_eq_some, Option.some.injEq] at h
    obtain ⟨hd, hget, -, rfl⟩ := h
    exact .inr ⟨ch, r, hd, rfl, hget, rfl⟩

/-- The handlers at a server that stops do not return any more. -/
def stop [DecidableEq ν] (i : ν) (hd : Handler ν O R) : Handler ν O R :=
  match hd.phase with
  | .returned _ => hd
  | _ => if hd.server = i then { hd with phase := .dead } else hd

def move [DecidableEq ν] (M : Machine S O R) (s : Service ν S O R) :
    Move ν → Option (Service ν S O R)
  | .start h index => do
    let hd ← s.handlers[h]?
    match hd.phase with
    | .entered => some { s with
        handlers := s.handlers.set h { hd with phase := .proposed index }
        started := s.started ++ [(index, hd.op)] }
    | _ => none
  | .refuse h => do
    let hd ← s.handlers[h]?
    match hd.phase with
    | .entered => some { s with
        handlers := s.handlers.set h { hd with phase := .returned .notLeader } }
    | _ => none
  | .register h => do
    let hd ← s.handlers[h]?
    match hd.phase with
    | .proposed index => some { s with
        handlers := s.handlers.set h { hd with phase := .waiting index }
        servers := Function.update s.servers hd.server
          ((s.servers hd.server).addWaiter index h) }
    | _ => none
  | .receive h => do
    let hd ← s.handlers[h]?
    match hd.phase, hd.inbox with
    | .waiting index, some r => some { s with
        handlers := s.handlers.set h
          { hd with phase := .leaving index (.result r), inbox := none } }
    | _, _ => none
  | .expire h => do
    let hd ← s.handlers[h]?
    match hd.phase with
    | .waiting index => some { s with
        handlers := s.handlers.set h { hd with phase := .leaving index .timeout } }
    | _ => none
  | .finish h => do
    let hd ← s.handlers[h]?
    match hd.phase with
    | .leaving index out => some { s with
        handlers := s.handlers.set h { hd with phase := .returned out }
        servers := Function.update s.servers hd.server
          ((s.servers hd.server).deleteWaiter index) }
    | _ => none
  | .apply i compact => do
    let index := s.position i + 1
    let op ← s.log[s.position i]?
    let (sv, out) := (s.servers i).applyCommand M op index
    let handlers ← send s.handlers out
    some { s with
      servers := Function.update s.servers i sv
      position := Function.update s.position i index
      snapshots := if compact then s.snapshots ++ [(index, some sv.state)] else s.snapshots
      handlers := handlers }
  | .install i k => do
    let (index, data) ← s.snapshots[k]?
    if s.position i < index then some { s with
      servers := Function.update s.servers i ((s.servers i).applySnapshot data index)
      position := Function.update s.position i index }
    else none
  | .restart i k => do
    let (index, data) ← s.snapshots[k]?
    some { s with
      servers := Function.update s.servers i ((Server.new M).readSnapshot data)
      position := Function.update s.position i index
      handlers := s.handlers.map (stop i) }

/-! ### What a move can do -/

inductive Moved [DecidableEq ν] (M : Machine S O R) (s : Service ν S O R) :
    Move ν → Service ν S O R → Prop where
  | started (h index : Nat) (hd : Handler ν O R) (get : s.handlers[h]? = some hd)
      (phase : hd.phase = .entered) :
      Moved M s (.start h index)
        { s with
          handlers := s.handlers.set h { hd with phase := .proposed index }
          started := s.started ++ [(index, hd.op)] }
  | refused (h : Nat) (hd : Handler ν O R) (get : s.handlers[h]? = some hd)
      (phase : hd.phase = .entered) :
      Moved M s (.refuse h)
        { s with handlers := s.handlers.set h { hd with phase := .returned .notLeader } }
  | registered (h index : Nat) (hd : Handler ν O R) (get : s.handlers[h]? = some hd)
      (phase : hd.phase = .proposed index) :
      Moved M s (.register h)
        { s with
          handlers := s.handlers.set h { hd with phase := .waiting index }
          servers := Function.update s.servers hd.server
            ((s.servers hd.server).addWaiter index h) }
  | received (h index : Nat) (r : R) (hd : Handler ν O R) (get : s.handlers[h]? = some hd)
      (phase : hd.phase = .waiting index) (inbox : hd.inbox = some r) :
      Moved M s (.receive h)
        { s with
          handlers := s.handlers.set h
            { hd with phase := .leaving index (.result r), inbox := none } }
  | expired (h index : Nat) (hd : Handler ν O R) (get : s.handlers[h]? = some hd)
      (phase : hd.phase = .waiting index) :
      Moved M s (.expire h)
        { s with handlers := s.handlers.set h { hd with phase := .leaving index .timeout } }
  | finished (h index : Nat) (out : Outcome R) (hd : Handler ν O R)
      (get : s.handlers[h]? = some hd) (phase : hd.phase = .leaving index out) :
      Moved M s (.finish h)
        { s with
          handlers := s.handlers.set h { hd with phase := .returned out }
          servers := Function.update s.servers hd.server
            ((s.servers hd.server).deleteWaiter index) }
  | applied (i : ν) (compact : Bool) (op : O) (handlers : List (Handler ν O R))
      (logged : s.log[s.position i]? = some op)
      (sent : send s.handlers ((s.servers i).applyCommand M op (s.position i + 1)).2 =
        some handlers) :
      Moved M s (.apply i compact)
        { s with
          servers := Function.update s.servers i
            ((s.servers i).applyCommand M op (s.position i + 1)).1
          position := Function.update s.position i (s.position i + 1)
          snapshots :=
            if compact then s.snapshots ++ [(s.position i + 1,
              some ((s.servers i).applyCommand M op (s.position i + 1)).1.state)]
            else s.snapshots
          handlers := handlers }
  | installed (i : ν) (k index : Nat) (data : Option S)
      (get : s.snapshots[k]? = some (index, data)) (lt : s.position i < index) :
      Moved M s (.install i k)
        { s with
          servers := Function.update s.servers i ((s.servers i).applySnapshot data index)
          position := Function.update s.position i index }
  | restarted (i : ν) (k index : Nat) (data : Option S)
      (get : s.snapshots[k]? = some (index, data)) :
      Moved M s (.restart i k)
        { s with
          servers := Function.update s.servers i ((Server.new M).readSnapshot data)
          position := Function.update s.position i index
          handlers := s.handlers.map (stop i) }

theorem moved [DecidableEq ν] {M : Machine S O R} {s s' : Service ν S O R} {m : Move ν}
    (hstep : s.move M m = some s') : Moved M s m s' := by
  cases m with
  | start h index =>
    simp only [Service.move, Option.bind_eq_bind, Option.bind_eq_some_iff] at hstep
    obtain ⟨hd, get, hstep⟩ := hstep
    split at hstep
    · next phase =>
      cases hstep
      exact .started h index hd get phase
    · cases hstep
  | refuse h =>
    simp only [Service.move, Option.bind_eq_bind, Option.bind_eq_some_iff] at hstep
    obtain ⟨hd, get, hstep⟩ := hstep
    split at hstep
    · next phase =>
      cases hstep
      exact .refused h hd get phase
    · cases hstep
  | register h =>
    simp only [Service.move, Option.bind_eq_bind, Option.bind_eq_some_iff] at hstep
    obtain ⟨hd, get, hstep⟩ := hstep
    split at hstep
    · next index phase =>
      cases hstep
      exact .registered h index hd get phase
    · cases hstep
  | receive h =>
    simp only [Service.move, Option.bind_eq_bind, Option.bind_eq_some_iff] at hstep
    obtain ⟨hd, get, hstep⟩ := hstep
    split at hstep
    · next index r phase inbox =>
      cases hstep
      exact .received h index r hd get phase inbox
    · cases hstep
  | expire h =>
    simp only [Service.move, Option.bind_eq_bind, Option.bind_eq_some_iff] at hstep
    obtain ⟨hd, get, hstep⟩ := hstep
    split at hstep
    · next index phase =>
      cases hstep
      exact .expired h index hd get phase
    · cases hstep
  | finish h =>
    simp only [Service.move, Option.bind_eq_bind, Option.bind_eq_some_iff] at hstep
    obtain ⟨hd, get, hstep⟩ := hstep
    split at hstep
    · next index out phase =>
      cases hstep
      exact .finished h index out hd get phase
    · cases hstep
  | apply i compact =>
    simp only [Service.move, Option.bind_eq_bind, Option.bind_eq_some_iff, Option.some.injEq]
      at hstep
    obtain ⟨op, logged, handlers, sent, rfl⟩ := hstep
    exact .applied i compact op handlers logged sent
  | install i k =>
    simp only [Service.move, Option.bind_eq_bind, Option.bind_eq_some_iff,
      Option.ite_none_right_eq_some, Option.some.injEq] at hstep
    obtain ⟨⟨index, data⟩, get, lt, rfl⟩ := hstep
    exact .installed i k index data get lt
  | restart i k =>
    simp only [Service.move, Option.bind_eq_bind, Option.bind_eq_some_iff, Option.some.injEq]
      at hstep
    obtain ⟨⟨index, data⟩, get, rfl⟩ := hstep
    exact .restarted i k index data get

/-! ### What holds in every service -/

/-- Every server stands somewhere in the log, and everything the handlers hold
    comes from it.  `P` is what is known of the commands that may be asked for. -/
structure Sound (M : Machine S O R) (P : O → Prop) (s : Service ν S O R) : Prop where
  logged : ∀ op ∈ s.log, P op
  started : ∀ x ∈ s.started, P x.2
  servers : ∀ i, (s.servers i).At M s.log (s.position i)
  snapshots : ∀ x ∈ s.snapshots, x = (0, none) ∨
    x.1 ≤ s.log.length ∧ x.2 = some (M.run (s.log.take x.1))
  handlers : ∀ hd ∈ s.handlers, hd.Sound M P s.log

variable {M : Machine S O R} {P P' : O → Prop} {s s' : Service ν S O R}

theorem commit_eq_some {k : Nat} (h : s.commit k = some s') :
    ∃ x ∈ s.started, s' = { s with log := s.log ++ [x.2] } := by
  simp only [commit, Option.bind_eq_bind, Option.bind_eq_some_iff,
    Option.ite_none_right_eq_some, Option.some.injEq] at h
  obtain ⟨x, hx, -, rfl⟩ := h
  exact ⟨x, List.mem_of_getElem? hx, rfl⟩

namespace Sound

theorem start (M : Machine S O R) (P : O → Prop) :
    Sound M P (Service.start M : Service ν S O R) where
  logged := by simp [Service.start]
  started := by simp [Service.start]
  servers i := { le_length := Nat.le_refl _, state := rfl, applied_le := Nat.le_refl _ }
  snapshots := by simp [Service.start]
  handlers := by simp [Service.start]

theorem mono (h : Sound M P s) (himp : ∀ op, P op → P' op) : Sound M P' s where
  logged op hop := himp op (h.logged op hop)
  started x hx := himp x.2 (h.started x hx)
  servers := h.servers
  snapshots := h.snapshots
  handlers hd hhd := { h.handlers hd hhd with op := himp _ (h.handlers hd hhd).op }

theorem enter (h : Sound M P s) {op : O} (hop : P op) (i : ν) : Sound M P (s.enter i op) where
  logged := h.logged
  started := h.started
  servers := h.servers
  snapshots := h.snapshots
  handlers hd hhd := by
    rcases List.mem_append.mp hhd with hhd | hhd
    · exact h.handlers hd hhd
    · cases List.mem_singleton.mp hhd
      exact { op := hop, inbox := by simp, result := by simp [Phase.result?] }

theorem propose (h : Sound M P s) {op : O} (hop : P op) (index : Nat) :
    Sound M P (s.propose index op) where
  logged := h.logged
  started x hx := by
    rcases List.mem_append.mp hx with hx | hx
    · exact h.started x hx
    · cases List.mem_singleton.mp hx
      exact hop
  servers := h.servers
  snapshots := h.snapshots
  handlers := h.handlers

/-- An accepted command comes to stand in the log. -/
theorem grow (h : Sound M P s) {x : Nat × O} (hx : x ∈ s.started) :
    Sound M P { s with log := s.log ++ [x.2] } where
  logged op hop := by
    rcases List.mem_append.mp hop with hop | hop
    · exact h.logged op hop
    · cases List.mem_singleton.mp hop
      exact h.started x hx
  started := h.started
  servers i := (h.servers i).grow _
  snapshots y hy := by
    refine (h.snapshots y hy).imp id fun ⟨hle, hy⟩ => ⟨?_, ?_⟩
    · rw [List.length_append]
      exact Nat.le_add_right_of_le hle
    · rw [List.take_append_of_le_length hle]
      exact hy
  handlers hd hhd :=
    { op := (h.handlers hd hhd).op
      inbox := fun r hr => ((h.handlers hd hhd).inbox r hr).imp fun _ hy => hy.mono _
      result := fun r hr => ((h.handlers hd hhd).result r hr).imp fun _ hy => hy.mono _ }

theorem commit (h : Sound M P s) {k : Nat} (hstep : s.commit k = some s') : Sound M P s' := by
  obtain ⟨x, hx, rfl⟩ := commit_eq_some hstep
  exact h.grow hx

/-- The handlers stay sound when one of them is replaced by a sound one. -/
theorem set_handler (h : Sound M P s) {k : Nat} {hd : Handler ν O R}
    (hnew : hd.Sound M P s.log) : ∀ x ∈ s.handlers.set k hd, x.Sound M P s.log := by
  intro x hx
  rcases List.mem_or_eq_of_mem_set hx with hx | rfl
  · exact h.handlers x hx
  · exact hnew

/-- A handler goes on without a result that it did not have. -/
theorem set_phase (h : Sound M P s) {k : Nat} {hd : Handler ν O R} {phase : Phase R}
    (hget : s.handlers[k]? = some hd)
    (hphase : ∀ r, phase.result? = some r → hd.phase.result? = some r) :
    ∀ x ∈ s.handlers.set k { hd with phase := phase }, x.Sound M P s.log := by
  have hhd := h.handlers hd (List.mem_of_getElem? hget)
  exact h.set_handler { hhd with result := fun r hr => hhd.result r (hphase r hr) }

theorem send (h : Sound M P s) {out : Option (Nat × R)} {handlers : List (Handler ν O R)}
    (hsend : Service.send s.handlers out = some handlers)
    (hout : ∀ ch r, out = some (ch, r) → ∃ op, M.Yields s.log op r) :
    ∀ hd ∈ handlers, hd.Sound M P s.log := by
  rcases send_cases hsend with rfl | ⟨ch, r, hd, hout', hget, rfl⟩
  · exact h.handlers
  · have hhd := h.handlers hd (List.mem_of_getElem? hget)
    refine h.set_handler { op := hhd.op, inbox := ?_, result := hhd.result }
    intro r' hr'
    cases hr'
    exact hout ch r hout'

/-- Servers other than `i` stay where they are. -/
theorem set_server [DecidableEq ν] (h : Sound M P s) (i : ν) (sv : Server S) {p : Nat}
    (hsv : sv.At M s.log p) :
    ∀ j, ((Function.update s.servers i sv) j).At M s.log (Function.update s.position i p j) := by
  intro j
  by_cases hj : j = i
  · subst hj
    rw [Function.update_self, Function.update_self]
    exact hsv
  · rw [Function.update_of_ne hj, Function.update_of_ne hj]
    exact h.servers j

/-- A change of its channels leaves a server where it is. -/
theorem set_waiters [DecidableEq ν] (h : Sound M P s) {i : ν} (waiters : Nat → Option Nat) :
    ∀ j, ((Function.update s.servers i { s.servers i with waiters := waiters }) j).At M s.log
      (s.position j) := by
  have := h.set_server i { s.servers i with waiters := waiters } (p := s.position i)
    { h.servers i with }
  simpa only [Function.update_eq_self] using this

/-- A snapshot takes a server to its index, from the start or from before it. -/
theorem snapshot_at (h : Sound M P s) {k index : Nat} {data : Option S}
    (hget : s.snapshots[k]? = some (index, data)) :
    ((Server.new M).readSnapshot data).At M s.log index := by
  rcases h.snapshots _ (List.mem_of_getElem? hget) with heq | ⟨hle, hdata⟩
  · cases heq
    exact { le_length := Nat.zero_le _, state := rfl, applied_le := Nat.le_refl _ }
  · dsimp only at hle hdata
    subst hdata
    exact { le_length := hle, state := rfl, applied_le := Nat.zero_le _ }

theorem install_at (h : Sound M P s) {i : ν} {k index : Nat} {data : Option S}
    (hget : s.snapshots[k]? = some (index, data)) (hlt : s.position i < index) :
    ((s.servers i).applySnapshot data index).At M s.log index := by
  rcases h.snapshots _ (List.mem_of_getElem? hget) with heq | ⟨hle, hdata⟩
  · cases heq
    exact absurd hlt (Nat.not_lt_zero _)
  · dsimp only at hle hdata
    subst hdata
    exact (h.servers i).applySnapshot hlt hle

theorem stop [DecidableEq ν] {log : List O} {hd : Handler ν O R} (h : hd.Sound M P log) (i : ν) :
    (Service.stop i hd).Sound M P log := by
  unfold Service.stop
  split
  · exact h
  · split
    · exact { op := h.op, inbox := h.inbox, result := by simp [Phase.result?] }
    · exact h

/-- No move inside the service touches the log or breaks soundness. -/
theorem move [DecidableEq ν] (h : Sound M P s) {m : Move ν} (hstep : s.move M m = some s') :
    s'.log = s.log ∧ Sound M P s' := by
  cases moved hstep with
  | started k index hd get phase =>
    have hop := (h.handlers hd (List.mem_of_getElem? get)).op
    exact ⟨rfl, { h with
      started := (h.propose hop index).started
      handlers := h.set_phase get (by simp [Phase.result?]) }⟩
  | refused k hd get phase =>
    exact ⟨rfl, { h with handlers := h.set_phase get (by simp [Phase.result?]) }⟩
  | registered k index hd get phase =>
    exact ⟨rfl, { h with
      servers := h.set_waiters _
      handlers := h.set_phase get (by simp [Phase.result?]) }⟩
  | received k index r hd get phase inbox =>
    have hhd := h.handlers hd (List.mem_of_getElem? get)
    refine ⟨rfl, { h with handlers := h.set_handler ?_ }⟩
    refine { op := hhd.op, inbox := by simp, result := ?_ }
    intro r' hr'
    cases hr'
    exact hhd.inbox _ inbox
  | expired k index hd get phase =>
    exact ⟨rfl, { h with handlers := h.set_phase get (by simp [Phase.result?]) }⟩
  | finished k index out hd get phase =>
    refine ⟨rfl, { h with
      servers := h.set_waiters _
      handlers := h.set_phase get ?_ }⟩
    intro r hr
    rw [phase]
    cases out with
    | notLeader => cases hr
    | timeout => cases hr
    | result r' => exact hr
  | applied i compact op handlers logged sent =>
    obtain ⟨hat, hout⟩ := (h.servers i).applyCommand logged
    refine ⟨rfl, { h with
      servers := h.set_server i _ hat
      snapshots := ?_
      handlers := h.send sent fun ch r hr => ⟨op, hout ch r hr⟩ }⟩
    cases compact with
    | false => exact h.snapshots
    | true =>
      intro x hx
      rcases List.mem_append.mp hx with hx | hx
      · exact h.snapshots x hx
      · cases List.mem_singleton.mp hx
        exact .inr ⟨hat.le_length, congrArg some hat.state⟩
  | installed i k index data get lt =>
    exact ⟨rfl, { h with servers := h.set_server i _ (h.install_at get lt) }⟩
  | restarted i k index data get =>
    refine ⟨rfl, { h with
      servers := h.set_server i _ (h.snapshot_at get)
      handlers := ?_ }⟩
    intro hd hhd
    obtain ⟨hd, hmem, rfl⟩ := List.mem_map.mp hhd
    exact stop (h.handlers hd hmem) i

end Sound

/-! ### What a move does to handlers and servers -/

/-- What a move can make of a handler. -/
structure Follows (hd' hd : Handler ν O R) : Prop where
  server : hd'.server = hd.server
  op : hd'.op = hd.op
  live : hd'.phase.live = true → hd.phase.live = true
  result : ∀ r, hd'.phase.result? = some r → hd.phase.result? = some r ∨ hd.inbox = some r

theorem Follows.refl (hd : Handler ν O R) : Follows hd hd where
  server := rfl
  op := rfl
  live := id
  result _ := .inl

theorem getElem?_set_cases {l : List (Handler ν O R)} {k j : Nat} {x y : Handler ν O R}
    (h : (l.set k x)[j]? = some y) : k = j ∧ y = x ∨ l[j]? = some y := by
  by_cases hk : k = j
  · subst hk
    have hlt : k < l.length := by
      have := (List.getElem?_eq_some_iff.mp h).1
      rwa [List.length_set] at this
    rw [List.getElem?_set_self hlt, Option.some.injEq] at h
    exact .inl ⟨rfl, h.symm⟩
  · rw [List.getElem?_set_ne hk] at h
    exact .inr h

/-- A handler that goes on to another phase. -/
theorem follows_set {k j : Nat} {hd hd' : Handler ν O R} {phase : Phase R}
    (hget : s.handlers[k]? = some hd) (hlive : phase.live = true → hd.phase.live = true)
    (hresult : ∀ r, phase.result? = some r → hd.phase.result? = some r ∨ hd.inbox = some r)
    {inbox : Option R} (hinbox : ∀ r, inbox = some r → hd.inbox = some r)
    (h : (s.handlers.set k { hd with phase := phase, inbox := inbox })[j]? = some hd') :
    ∃ hd₀, s.handlers[j]? = some hd₀ ∧ Follows hd' hd₀ ∧
      ∀ r, hd'.inbox = some r → hd₀.inbox = some r := by
  rcases getElem?_set_cases h with ⟨rfl, rfl⟩ | h
  · exact ⟨hd, hget, { server := rfl, op := rfl, live := hlive, result := hresult }, hinbox⟩
  · exact ⟨hd', h, .refl hd', fun _ => id⟩

/-- A result comes into a channel only when an entry is applied at the index where
    it waits. -/
theorem move_handler [DecidableEq ν] {m : Move ν} (hstep : s.move M m = some s') {j : Nat}
    {hd' : Handler ν O R} (hget' : s'.handlers[j]? = some hd') :
    ∃ hd, s.handlers[j]? = some hd ∧ Follows hd' hd ∧ ∀ r, hd'.inbox = some r →
      hd.inbox = some r ∨ ∃ i compact, m = .apply i compact ∧
        (s.servers i).waiters (s.position i + 1) = some j := by
  have hweaken : (∃ hd, s.handlers[j]? = some hd ∧ Follows hd' hd ∧
      ∀ r, hd'.inbox = some r → hd.inbox = some r) →
      ∃ hd, s.handlers[j]? = some hd ∧ Follows hd' hd ∧ ∀ r, hd'.inbox = some r →
        hd.inbox = some r ∨ ∃ i compact, m = .apply i compact ∧
          (s.servers i).waiters (s.position i + 1) = some j :=
    fun ⟨hd, hget, hfollows, hinbox⟩ => ⟨hd, hget, hfollows, fun r hr => .inl (hinbox r hr)⟩
  cases moved hstep with
  | started k index hd get phase =>
    exact hweaken (follows_set get (by simp [phase, Phase.live]) (by simp [Phase.result?])
      (fun _ => id) hget')
  | refused k hd get phase =>
    exact hweaken (follows_set get (by simp [Phase.live]) (by simp [Phase.result?])
      (fun _ => id) hget')
  | registered k index hd get phase =>
    exact hweaken (follows_set get (by simp [phase, Phase.live]) (by simp [Phase.result?])
      (fun _ => id) hget')
  | received k index r hd get phase inbox =>
    refine hweaken (follows_set get (by simp [phase, Phase.live]) ?_ (by simp) hget')
    intro r hr
    cases hr
    exact .inr inbox
  | expired k index hd get phase =>
    exact hweaken (follows_set get (by simp [phase, Phase.live]) (by simp [Phase.result?])
      (fun _ => id) hget')
  | finished k index out hd get phase =>
    refine hweaken (follows_set get (by simp [Phase.live]) ?_ (fun _ => id) hget')
    intro r hr
    rw [phase]
    cases out with
    | notLeader => cases hr
    | timeout => cases hr
    | result r' => exact .inl hr
  | applied i compact op handlers logged sent =>
    rcases send_cases sent with rfl | ⟨ch, r, hd, hout, get, rfl⟩
    · exact hweaken ⟨hd', hget', .refl hd', fun _ => id⟩
    · rcases getElem?_set_cases hget' with ⟨rfl, rfl⟩ | hget'
      · refine ⟨hd, get, { server := rfl, op := rfl, live := id, result := fun _ => .inl }, ?_⟩
        intro _ _
        exact .inr ⟨i, compact, rfl, (s.servers i).waiters_of_applyCommand hout⟩
      · exact hweaken ⟨hd', hget', .refl hd', fun _ => id⟩
  | installed i k index data get lt => exact hweaken ⟨hd', hget', .refl hd', fun _ => id⟩
  | restarted i k index data get =>
    rw [List.getElem?_map, Option.map_eq_some_iff] at hget'
    obtain ⟨hd, hget, rfl⟩ := hget'
    refine hweaken ⟨hd, hget, ?_⟩
    unfold Service.stop
    split
    · exact ⟨.refl hd, fun _ => id⟩
    · split
      · refine ⟨?_, fun _ => id⟩
        exact
          { server := rfl
            op := rfl
            live := by simp [Phase.live]
            result := by simp [Phase.result?] }
      · exact ⟨.refl hd, fun _ => id⟩

theorem move_log [DecidableEq ν] {m : Move ν} (hstep : s.move M m = some s') :
    s'.log = s.log := by
  cases moved hstep <;> rfl

theorem move_handlers_length [DecidableEq ν] {m : Move ν} (hstep : s.move M m = some s') :
    s'.handlers.length = s.handlers.length := by
  cases moved hstep with
  | started => exact List.length_set
  | refused => exact List.length_set
  | registered => exact List.length_set
  | received => exact List.length_set
  | expired => exact List.length_set
  | finished => exact List.length_set
  | applied i compact op handlers logged sent =>
    rcases send_cases sent with rfl | ⟨ch, r, hd, hout, get, rfl⟩
    · rfl
    · exact List.length_set
  | installed => rfl
  | restarted => exact List.length_map _

/-- Server `i` goes on in the log and keeps its channels, but for those of handlers
    that run there. -/
def Advances (s s' : Service ν S O R) (i : ν) : Prop :=
  s.position i ≤ s'.position i ∧ ∀ index ch, (s'.servers i).waiters index = some ch →
    (s.servers i).waiters index = some ch ∨
      ∃ hd, s.handlers[ch]? = some hd ∧ hd.server = i ∧ hd.phase.live = true

/-- Server `i` has no channels and no handler runs there. -/
def Rests (s : Service ν S O R) (i : ν) : Prop :=
  (∀ index, (s.servers i).waiters index = none) ∧
    ∀ hd ∈ s.handlers, hd.phase.live = true → hd.server ≠ i

theorem advances_of_eq {i : ν} (hposition : s'.position i = s.position i)
    (hserver : (s'.servers i).waiters = (s.servers i).waiters) : Advances s s' i :=
  ⟨Nat.le_of_eq hposition.symm, fun _ _ hch => .inl (hserver ▸ hch)⟩

/-- A server goes on, or has just been started again. -/
theorem move_server [DecidableEq ν] {m : Move ν} (hstep : s.move M m = some s') (i : ν) :
    Advances s s' i ∨ Rests s' i := by
  cases moved hstep with
  | started => exact .inl (advances_of_eq rfl rfl)
  | refused => exact .inl (advances_of_eq rfl rfl)
  | registered k index hd get phase =>
    by_cases hi : i = hd.server
    · subst hi
      refine .inl ⟨Nat.le_refl _, fun index' ch hch => ?_⟩
      simp only [Function.update_self, Server.addWaiter, Function.update_apply] at hch
      split at hch
      · cases hch
        exact .inr ⟨hd, get, rfl, by simp [phase, Phase.live]⟩
      · exact .inl hch
    · exact .inl (advances_of_eq rfl (by simp [Function.update_of_ne hi]))
  | received => exact .inl (advances_of_eq rfl rfl)
  | expired => exact .inl (advances_of_eq rfl rfl)
  | finished k index out hd get phase =>
    by_cases hi : i = hd.server
    · subst hi
      refine .inl ⟨Nat.le_refl _, fun index' ch hch => .inl ?_⟩
      simp only [Function.update_self, Server.deleteWaiter, Function.update_apply] at hch
      split at hch
      · cases hch
      · exact hch
    · exact .inl (advances_of_eq rfl (by simp [Function.update_of_ne hi]))
  | applied j compact op handlers logged sent =>
    by_cases hi : i = j
    · subst hi
      refine .inl ⟨by simp, fun index' ch hch => .inl ?_⟩
      simp only [Function.update_self, Server.applyCommand] at hch
      split at hch
      · exact hch
      · exact hch
    · exact .inl (advances_of_eq (by simp [Function.update_of_ne hi])
        (by simp [Function.update_of_ne hi]))
  | installed j k index data get lt =>
    by_cases hi : i = j
    · subst hi
      refine .inl ⟨by simpa using Nat.le_of_lt lt, fun index' ch hch => .inl ?_⟩
      simp only [Function.update_self, Server.applySnapshot] at hch
      split at hch
      · exact hch
      · cases data <;> exact hch
    · exact .inl (advances_of_eq (by simp [Function.update_of_ne hi])
        (by simp [Function.update_of_ne hi]))
  | restarted j k index data get =>
    by_cases hi : i = j
    · subst hi
      refine .inr ⟨fun index' => ?_, fun hd hhd hlive => ?_⟩
      · simp only [Function.update_self]
        cases data <;> rfl
      · obtain ⟨hd, -, rfl⟩ := List.mem_map.mp hhd
        unfold Service.stop at hlive ⊢
        split at hlive
        · next hphase => simp [hphase, Phase.live] at hlive
        · split at hlive
          · simp [Phase.live] at hlive
          · next hserver =>
            rw [if_neg hserver]
            exact hserver
    · exact .inl (advances_of_eq (by simp [Function.update_of_ne hi])
        (by simp [Function.update_of_ne hi]))

/-! ### What a handler can rely on -/

/-- `K` holds between the state of a server and the command of every handler that
    runs there or is sent results from there. -/
structure Attends (K : S → O → Prop) (s : Service ν S O R) : Prop where
  live : ∀ hd ∈ s.handlers, hd.phase.live = true → K (s.servers hd.server).state hd.op
  waiting : ∀ i index ch, (s.servers i).waiters index = some ch →
    ∃ hd, s.handlers[ch]? = some hd ∧ K (s.servers i).state hd.op

namespace Attends

variable {K : S → O → Prop}

theorem start (K : S → O → Prop) (M : Machine S O R) :
    Attends K (Service.start M : Service ν S O R) where
  live := by simp [Service.start]
  waiting := by simp [Service.start, Server.new]

theorem enter (h : Attends K s) {i : ν} {op : O} (hop : K (s.servers i).state op) :
    Attends K (s.enter i op) where
  live hd hhd hlive := by
    rcases List.mem_append.mp hhd with hhd | hhd
    · exact h.live hd hhd hlive
    · cases List.mem_singleton.mp hhd
      exact hop
  waiting j index ch hch := by
    obtain ⟨hd, hget, hK⟩ := h.waiting j index ch hch
    refine ⟨hd, ?_, hK⟩
    exact (List.getElem?_append_left (List.getElem?_eq_some_iff.mp hget).1).trans hget

/-- What stays true while a server goes on in the log can be relied on. -/
theorem move [DecidableEq ν] (h : Attends K s) (hsound : Sound M P s)
    (hK : ∀ st op op', K st op → K (M.apply st op').1 op) {m : Move ν}
    (hstep : s.move M m = some s') : Attends K s' := by
  obtain ⟨hlog, hsound'⟩ := hsound.move hstep
  have hmono : ∀ i op, Advances s s' i → K (s.servers i).state op → K (s'.servers i).state op := by
    intro i op hadv hk
    rw [(hsound'.servers i).state, hlog]
    rw [(hsound.servers i).state] at hk
    exact M.run_relation (fun st st' => K st op → K st' op) (fun _ => id)
      (fun _ _ _ hst htu hk => htu (hst hk)) (fun st op' => hK st op op') s.log hadv.1 hk
  constructor
  case live =>
    intro hd' hhd' hlive
    obtain ⟨j, hget'⟩ := List.mem_iff_getElem?.mp hhd'
    obtain ⟨hd, hget, hfollows, -⟩ := move_handler hstep hget'
    have hk := h.live hd (List.mem_of_getElem? hget) (hfollows.live hlive)
    rcases move_server hstep hd'.server with hadv | hrests
    · rw [hfollows.op]
      refine hmono _ _ hadv ?_
      rw [hfollows.server]
      exact hk
    · exact absurd rfl (hrests.2 hd' hhd' hlive)
  case waiting =>
    intro i index ch hch
    rcases move_server hstep i with hadv | hrests
    · have hold : ∃ hd, s.handlers[ch]? = some hd ∧ K (s.servers i).state hd.op := by
        rcases hadv.2 index ch hch with hch | ⟨hd, hget, rfl, hlive⟩
        · exact h.waiting i index ch hch
        · exact ⟨hd, hget, h.live hd (List.mem_of_getElem? hget) hlive⟩
      obtain ⟨hd, hget, hk⟩ := hold
      have hlt : ch < s'.handlers.length := by
        rw [move_handlers_length hstep]
        exact (List.getElem?_eq_some_iff.mp hget).1
      have hget' := List.getElem?_eq_getElem hlt
      obtain ⟨hd₀, hget₀, hfollows, -⟩ := move_handler hstep hget'
      rw [hget] at hget₀
      cases hget₀
      exact ⟨_, hget', hfollows.op ▸ hmono i _ hadv hk⟩
    · rw [hrests.1 index] at hch
      cases hch

end Attends

/-- `Good` holds of the command of every handler that has a result. -/
def Confirms (Good : O → Prop) (s : Service ν S O R) : Prop :=
  ∀ hd ∈ s.handlers, ∀ r, hd.inbox = some r ∨ hd.phase.result? = some r → Good hd.op

/-- Handlers come to a result only when an entry is applied where they wait. -/
theorem Confirms.move [DecidableEq ν] {Good : O → Prop} (h : Confirms Good s) {m : Move ν}
    (hstep : s.move M m = some s')
    (happly : ∀ i compact ch hd, m = .apply i compact →
      (s.servers i).waiters (s.position i + 1) = some ch → s.handlers[ch]? = some hd →
      Good hd.op) : Confirms Good s' := by
  intro hd' hhd' r hr
  obtain ⟨j, hget'⟩ := List.mem_iff_getElem?.mp hhd'
  obtain ⟨hd, hget, hfollows, hinbox⟩ := move_handler hstep hget'
  have hold := h hd (List.mem_of_getElem? hget)
  rw [hfollows.op]
  rcases hr with hr | hr
  · rcases hinbox r hr with hr | ⟨i, compact, hm, hwaits⟩
    · exact hold r (.inl hr)
    · exact happly i compact j hd hm hwaits hget
  · rcases hfollows.result r hr with hr | hr
    · exact hold r (.inr hr)
    · exact hold r (.inl hr)

theorem Confirms.mono {Good Good' : O → Prop} (h : Confirms Good s)
    (himp : ∀ op, Good op → Good' op) : Confirms Good' s :=
  fun hd hhd r hr => himp _ (h hd hhd r hr)

theorem Confirms.enter {Good : O → Prop} (h : Confirms Good s) (i : ν) (op : O) :
    Confirms Good (s.enter i op) := by
  intro hd hhd r hr
  rcases List.mem_append.mp hhd with hhd | hhd
  · exact h hd hhd r hr
  · cases List.mem_singleton.mp hhd
    simp [Phase.result?] at hr

end Service

end RaftLabs.ReplicatedService
