import RaftLabs.TransitionSystem
import Mathlib.Logic.Function.Basic

/-!
# The simulated network

`labrpc`: client ends, servers that are registered under a name, and a network that
runs one `processReq` for every `Call`.  Ends can be connected and enabled, servers
can be deleted and replaced, and an unreliable network drops requests and replies.
How long anything takes is left to the interleaving, so `longDelays` and
`longReordering`, which only lengthen delays, do not appear; nor do the numbers of
requests and bytes.  What a handler does is not said here: it may return any reply, at
any time after it was started.

`processReq` asks a second time whether the server is still registered, after the
handler has returned.  So a positive reply means that the handler returned before
its server was deleted, and what it saved can still be read by the next one.
-/

namespace RaftLabs.LabRpc

variable {ε ν A B : Type}

/-! ### Calls -/

/-- What `readEndnameInfo` finds for an end that is enabled and connected to a server that
    is there. -/
structure Route (ν : Type) where
  servername : ν
  server : Nat
  reliable : Bool
deriving DecidableEq

/-- How far a `Call` and its `processReq` have come. -/
inductive Phase (ν B : Type) where
  /-- The request has not been taken by the network. -/
  | sending
  | accepted
  | routed (route : Route ν)
  /-- The handler has been started in a goroutine of its own. -/
  | waiting (route : Route ν)
  /-- The handler's reply has arrived; the server has not been looked at again. -/
  | taken (route : Route ν) (reply : B)
  | checked (route : Route ν) (reply : B)
  /-- About to send on `replyCh`: a reply, or that there is none. -/
  | replying (reply : Option B)
  | returned (reply : Option B)
deriving DecidableEq

/-- The goroutine that runs the handler of a request. -/
inductive Handling (B : Type) where
  | absent
  | running
  /-- The handler has returned and its reply has not been received. -/
  | done (reply : B)
  /-- The reply has been received. -/
  | received

structure Call (ε ν A B : Type) where
  endname : ε
  request : A
  phase : Phase ν B
  handling : Handling B

/-- Servers are told apart by number, as pointers are.  `added` records the servers that
    were ever registered; no step depends on it. -/
structure Network (ε ν A B : Type) where
  reliable : Bool
  ends : ε → Bool
  enabled : ε → Bool
  connections : ε → Option ν
  servers : ν → Option Nat
  /-- `Cleanup` has been called. -/
  done : Bool
  /-- The goroutine that takes requests has not returned. -/
  looping : Bool
  calls : List (Call ε ν A B)
  added : List Nat

inductive Action (ε ν A B : Type) where
  /-- `Call` is called on an end. -/
  | call (endname : ε) (request : A)
  /-- The network takes the request of call `c`. -/
  | accept (c : Nat)
  /-- Call `c` finds that the network has been cleaned up. -/
  | abandon (c : Nat)
  | readEndnameInfo (c : Nat)
  | dropRequest (c : Nat)
  | dispatch (c : Nat)
  /-- The handler of call `c` returns. -/
  | handled (c : Nat) (reply : B)
  | take (c : Nat)
  /-- While it waits, `processReq` looks whether the server is dead. -/
  | poll (c : Nat)
  | check (c : Nat)
  | dropReply (c : Nat)
  | reply (c : Nat)
  /-- `Call` returns. -/
  | answer (c : Nat)
  /-- The goroutine that takes requests returns. -/
  | stop
  | setReliable (yes : Bool)
  | makeEnd (endname : ε)
  | deleteEnd (endname : ε)
  | addServer (servername : ν) (server : Nat)
  | deleteServer (servername : ν)
  | connect (endname : ε) (servername : ν)
  | enable (endname : ε) (enabled : Bool)
  | cleanup

namespace Network

/-- `MakeNetwork`. -/
def make : Network ε ν A B where
  reliable := true
  ends _ := false
  enabled _ := false
  connections _ := none
  servers _ := none
  done := false
  looping := true
  calls := []
  added := []

def route (rn : Network ε ν A B) (endname : ε) : Option (Route ν) :=
  if rn.enabled endname then do
    let servername ← rn.connections endname
    let server ← rn.servers servername
    some { servername := servername, server := server, reliable := rn.reliable }
  else none

def isServerDead (rn : Network ε ν A B) (endname : ε) (route : Route ν) : Bool :=
  !rn.enabled endname || rn.servers route.servername ≠ some route.server

def setCall (rn : Network ε ν A B) (c : Nat) (call : Call ε ν A B) : Network ε ν A B :=
  { rn with calls := rn.calls.set c call }

/-- The next thing that happens to a call. -/
def advance (rn : Network ε ν A B) (call : Call ε ν A B) :
    Action ε ν A B → Option (Call ε ν A B)
  | .accept _ =>
    match call.phase with
    | .sending => if rn.looping then some { call with phase := .accepted } else none
    | _ => none
  | .abandon _ =>
    match call.phase with
    | .sending => if rn.done then some { call with phase := .returned none } else none
    | _ => none
  | .readEndnameInfo _ =>
    match call.phase with
    | .accepted =>
      match rn.route call.endname with
      | some route => some { call with phase := .routed route }
      | none => some { call with phase := .replying none }
    | _ => none
  | .dropRequest _ =>
    match call.phase with
    | .routed route => if route.reliable then none else some { call with phase := .replying none }
    | _ => none
  | .dispatch _ =>
    match call.phase with
    | .routed route => some { call with phase := .waiting route, handling := .running }
    | _ => none
  | .handled _ reply =>
    match call.handling with
    | .running => some { call with handling := .done reply }
    | _ => none
  | .take _ =>
    match call.phase, call.handling with
    | .waiting route, .done reply =>
      some { call with phase := .taken route reply, handling := .received }
    | _, _ => none
  | .poll _ =>
    match call.phase with
    | .waiting route =>
      -- the reply is negative whatever the second look says
      if rn.isServerDead call.endname route then some { call with phase := .replying none }
      else some call
    | _ => none
  | .check _ =>
    match call.phase with
    | .taken route reply =>
      if rn.isServerDead call.endname route then some { call with phase := .replying none }
      else some { call with phase := .checked route reply }
    | _ => none
  | .dropReply _ =>
    match call.phase with
    | .checked route _ =>
      if route.reliable then none else some { call with phase := .replying none }
    | _ => none
  | .reply _ =>
    match call.phase with
    | .checked _ reply => some { call with phase := .replying (some reply) }
    | _ => none
  | .answer _ =>
    match call.phase with
    | .replying reply => some { call with phase := .returned reply }
    | _ => none
  | _ => none

end Network

/-- The call that an action is about. -/
def Action.call? : Action ε ν A B → Option Nat
  | .accept c => some c
  | .abandon c => some c
  | .readEndnameInfo c => some c
  | .dropRequest c => some c
  | .dispatch c => some c
  | .handled c _ => some c
  | .take c => some c
  | .poll c => some c
  | .check c => some c
  | .dropReply c => some c
  | .reply c => some c
  | .answer c => some c
  | .call _ _ => none
  | .stop => none
  | .setReliable _ => none
  | .makeEnd _ => none
  | .deleteEnd _ => none
  | .addServer _ _ => none
  | .deleteServer _ => none
  | .connect _ _ => none
  | .enable _ _ => none
  | .cleanup => none

namespace Network

variable [DecidableEq ε] [DecidableEq ν]

/-- The functions of the network that are not part of a call. -/
def configure (rn : Network ε ν A B) : Action ε ν A B → Option (Network ε ν A B)
  | .call endname request => some { rn with
      calls := rn.calls ++
        [{ endname := endname, request := request, phase := .sending, handling := .absent }] }
  | .stop => if rn.done then some { rn with looping := false } else none
  | .setReliable yes => some { rn with reliable := yes }
  | .makeEnd endname =>
    -- the program ends if the end is already there
    if rn.ends endname then none
    else some { rn with
      ends := Function.update rn.ends endname true
      enabled := Function.update rn.enabled endname false
      connections := Function.update rn.connections endname none }
  | .deleteEnd endname =>
    if rn.ends endname then some { rn with
      ends := Function.update rn.ends endname false
      enabled := Function.update rn.enabled endname false
      connections := Function.update rn.connections endname none }
    else none
  | .addServer servername server => some { rn with
      servers := Function.update rn.servers servername (some server)
      added := rn.added ++ [server] }
  | .deleteServer servername => some { rn with
      servers := Function.update rn.servers servername none }
  | .connect endname servername => some { rn with
      connections := Function.update rn.connections endname (some servername) }
  | .enable endname enabled => some { rn with
      enabled := Function.update rn.enabled endname enabled }
  -- closing a channel twice panics
  | .cleanup => if rn.done then none else some { rn with done := true }
  | _ => none

def step (rn : Network ε ν A B) (act : Action ε ν A B) : Option (Network ε ν A B) :=
  match act.call? with
  | none => rn.configure act
  | some c => do
    let call ← rn.calls[c]?
    let call' ← rn.advance call act
    some (rn.setCall c call')

end Network

/-- The network that `MakeNetwork` makes. -/
def network (ε ν A B : Type) [DecidableEq ε] [DecidableEq ν] :
    System (Network ε ν A B) (Action ε ν A B) where
  init := .make
  step := Network.step

/-! ### What a step can do to a call -/

/-- All that can happen to a call. -/
inductive Advances (rn : Network ε ν A B) (call : Call ε ν A B) :
    Action ε ν A B → Call ε ν A B → Prop where
  | accepted (c : Nat) (hphase : call.phase = .sending) (hlooping : rn.looping = true) :
      Advances rn call (.accept c) { call with phase := .accepted }
  | abandoned (c : Nat) (hphase : call.phase = .sending) (hdone : rn.done = true) :
      Advances rn call (.abandon c) { call with phase := .returned none }
  | routed (c : Nat) (route : Route ν) (hphase : call.phase = .accepted)
      (hroute : rn.route call.endname = some route) :
      Advances rn call (.readEndnameInfo c) { call with phase := .routed route }
  | unrouted (c : Nat) (hphase : call.phase = .accepted)
      (hroute : rn.route call.endname = none) :
      Advances rn call (.readEndnameInfo c) { call with phase := .replying none }
  | requestDropped (c : Nat) (route : Route ν) (hphase : call.phase = .routed route)
      (hreliable : route.reliable = false) :
      Advances rn call (.dropRequest c) { call with phase := .replying none }
  | dispatched (c : Nat) (route : Route ν) (hphase : call.phase = .routed route) :
      Advances rn call (.dispatch c) { call with phase := .waiting route, handling := .running }
  | handled (c : Nat) (reply : B) (hrunning : call.handling = .running) :
      Advances rn call (.handled c reply) { call with handling := .done reply }
  | taken (c : Nat) (route : Route ν) (reply : B) (hphase : call.phase = .waiting route)
      (hdone : call.handling = .done reply) :
      Advances rn call (.take c) { call with phase := .taken route reply, handling := .received }
  | polled (c : Nat) (route : Route ν) (hphase : call.phase = .waiting route)
      (halive : rn.isServerDead call.endname route = false) : Advances rn call (.poll c) call
  | gaveUp (c : Nat) (route : Route ν) (hphase : call.phase = .waiting route)
      (hdead : rn.isServerDead call.endname route = true) :
      Advances rn call (.poll c) { call with phase := .replying none }
  | failed (c : Nat) (route : Route ν) (reply : B) (hphase : call.phase = .taken route reply)
      (hdead : rn.isServerDead call.endname route = true) :
      Advances rn call (.check c) { call with phase := .replying none }
  | checked (c : Nat) (route : Route ν) (reply : B) (hphase : call.phase = .taken route reply)
      (halive : rn.isServerDead call.endname route = false) :
      Advances rn call (.check c) { call with phase := .checked route reply }
  | replyDropped (c : Nat) (route : Route ν) (reply : B)
      (hphase : call.phase = .checked route reply) (hreliable : route.reliable = false) :
      Advances rn call (.dropReply c) { call with phase := .replying none }
  | replied (c : Nat) (route : Route ν) (reply : B)
      (hphase : call.phase = .checked route reply) :
      Advances rn call (.reply c) { call with phase := .replying (some reply) }
  | answered (c : Nat) (reply : Option B) (hphase : call.phase = .replying reply) :
      Advances rn call (.answer c) { call with phase := .returned reply }

theorem Network.advances {rn : Network ε ν A B} {call call' : Call ε ν A B}
    {act : Action ε ν A B} (h : rn.advance call act = some call') :
    Advances rn call act call' := by
  unfold Network.advance at h
  split at h
  · split at h
    · rename_i hphase
      simp only [Option.ite_none_right_eq_some, Option.some.injEq] at h
      obtain ⟨hlooping, rfl⟩ := h
      exact .accepted _ hphase hlooping
    · cases h
  · split at h
    · rename_i hphase
      simp only [Option.ite_none_right_eq_some, Option.some.injEq] at h
      obtain ⟨hdone, rfl⟩ := h
      exact .abandoned _ hphase hdone
    · cases h
  · split at h
    · rename_i hphase
      split at h
      · rename_i route hroute
        obtain rfl := Option.some.inj h
        exact .routed _ route hphase hroute
      · rename_i hroute
        obtain rfl := Option.some.inj h
        exact .unrouted _ hphase hroute
    · cases h
  · split at h
    · rename_i route hphase
      simp only [Option.ite_none_left_eq_some, Option.some.injEq] at h
      obtain ⟨hreliable, rfl⟩ := h
      exact .requestDropped _ route hphase (Bool.eq_false_iff.mpr hreliable)
    · cases h
  · split at h
    · rename_i route hphase
      obtain rfl := Option.some.inj h
      exact .dispatched _ route hphase
    · cases h
  · split at h
    · rename_i hrunning
      obtain rfl := Option.some.inj h
      exact .handled _ _ hrunning
    · cases h
  · split at h
    · rename_i route reply hphase hdone
      obtain rfl := Option.some.inj h
      exact .taken _ route reply hphase hdone
    · cases h
  · split at h
    · rename_i route hphase
      split at h
      · rename_i hdead
        obtain rfl := Option.some.inj h
        exact .gaveUp _ route hphase hdead
      · rename_i halive
        obtain rfl := Option.some.inj h
        exact .polled _ route hphase (Bool.eq_false_iff.mpr halive)
    · cases h
  · split at h
    · rename_i route reply hphase
      split at h
      · rename_i hdead
        obtain rfl := Option.some.inj h
        exact .failed _ route reply hphase hdead
      · rename_i halive
        obtain rfl := Option.some.inj h
        exact .checked _ route reply hphase (Bool.eq_false_iff.mpr halive)
    · cases h
  · split at h
    · rename_i route reply hphase
      simp only [Option.ite_none_left_eq_some, Option.some.injEq] at h
      obtain ⟨hreliable, rfl⟩ := h
      exact .replyDropped _ route reply hphase (Bool.eq_false_iff.mpr hreliable)
    · cases h
  · split at h
    · rename_i route reply hphase
      obtain rfl := Option.some.inj h
      exact .replied _ route reply hphase
    · cases h
  · split at h
    · rename_i reply hphase
      obtain rfl := Option.some.inj h
      exact .answered _ reply hphase
    · cases h
  · cases h

/-! ### What a step can do to the network -/

/-- The server that an action registers. -/
def Action.server? : Action ε ν A B → Option Nat
  | .addServer _ server => some server
  | _ => none

/-- A server that is registered has not been registered before. -/
def newServers (rn : Network ε ν A B) (act : Action ε ν A B) : Prop :=
  ∀ server ∈ act.server?, server ∉ rn.added

instance (rn : Network ε ν A B) (act : Action ε ν A B) : Decidable (newServers rn act) :=
  inferInstanceAs (Decidable (∀ server ∈ act.server?, server ∉ rn.added))

/-- What a step outside of the calls keeps. -/
structure Configures (rn rn' : Network ε ν A B) : Prop where
  calls : ∀ (c : Nat) (call : Call ε ν A B), rn'.calls[c]? = some call →
    rn.calls[c]? = some call ∨ call.phase = .sending ∧ call.handling = .absent
  kept : ∀ (c : Nat) (call : Call ε ν A B), rn.calls[c]? = some call → rn'.calls[c]? = some call
  added : ∀ server ∈ rn.added, server ∈ rn'.added
  servers : ∀ servername server, rn'.servers servername = some server →
    rn.servers servername = some server ∨ server ∉ rn.added ∧ server ∈ rn'.added

theorem Configures.of_eq {rn rn' : Network ε ν A B} (hcalls : rn'.calls = rn.calls)
    (hservers : rn'.servers = rn.servers) (hadded : rn'.added = rn.added) : Configures rn rn' where
  calls _ _ h := .inl (hcalls ▸ h)
  kept _ _ h := hcalls.symm ▸ h
  added _ h := hadded.symm ▸ h
  servers _ _ h := .inl (hservers ▸ h)

/-- The request is not in the hands of a server yet. -/
def Phase.undispatched : Phase ν B → Bool
  | .sending => true
  | .accepted => true
  | .routed _ => true
  | _ => false

/-- The handler has returned. -/
def Handling.returned : Handling B → Bool
  | .absent => false
  | .running => false
  | .done _ => true
  | .received => true

def Phase.route? : Phase ν B → Option (Route ν)
  | .routed route => some route
  | .waiting route => some route
  | .taken route _ => some route
  | .checked route _ => some route
  | _ => none

structure NetworkInv (rn : Network ε ν A B) : Prop where
  registered : ∀ servername server, rn.servers servername = some server → server ∈ rn.added
  undispatched : ∀ (c : Nat) (call : Call ε ν A B), rn.calls[c]? = some call →
    call.phase.undispatched = true → call.handling = .absent
  routed : ∀ (c : Nat) (call : Call ε ν A B), rn.calls[c]? = some call →
    ∀ route, call.phase.route? = some route → route.server ∈ rn.added

variable {rn rn' : Network ε ν A B} {act : Action ε ν A B} {c : Nat} {call call' : Call ε ν A B}

theorem Network.route_registered {endname : ε} {route : Route ν}
    (h : rn.route endname = some route) :
    rn.servers route.servername = some route.server := by
  simp only [Network.route, Option.ite_none_right_eq_some, Option.bind_eq_bind,
    Option.bind_eq_some_iff, Option.some.injEq] at h
  obtain ⟨-, servername, -, server, hserver, rfl⟩ := h
  exact hserver

/-- A route is read once and kept. -/
theorem Advances.route? (h : Advances rn call act call') {route : Route ν}
    (hroute : call'.phase.route? = some route) :
    call.phase.route? = some route ∨ rn.servers route.servername = some route.server := by
  cases h with
  | routed c route' hphase hfound =>
    cases hroute
    exact .inr (Network.route_registered hfound)
  | dispatched c route' hphase => exact .inl (by rw [hphase]; exact hroute)
  | taken c route' reply hphase => exact .inl (by rw [hphase]; exact hroute)
  | checked c route' reply hphase => exact .inl (by rw [hphase]; exact hroute)
  | handled => exact .inl hroute
  | polled => exact .inl hroute
  | accepted | abandoned | unrouted | requestDropped | gaveUp | failed | replyDropped | replied
  | answered => cases hroute

/-- Only the dispatch of a request starts its handler, and nothing leads back to a time
    before it. -/
theorem Advances.undispatched (h : Advances rn call act call')
    (hok : call.phase.undispatched = true → call.handling = .absent)
    (hphase' : call'.phase.undispatched = true) : call'.handling = .absent := by
  cases h with
  | accepted c hphase => exact hok (by rw [hphase]; rfl)
  | routed c route hphase => exact hok (by rw [hphase]; rfl)
  | handled c reply hrunning =>
    have habsent := hok hphase'
    rw [hrunning] at habsent
    cases habsent
  | polled => exact hok hphase'
  | abandoned | unrouted | requestDropped | dispatched | taken | gaveUp | failed | checked
  | replyDropped | replied | answered => cases hphase'

theorem Network.setCall_getElem? {c' : Nat} {other : Call ε ν A B}
    (h : (rn.setCall c call).calls[c']? = some other) :
    c' = c ∧ other = call ∨ c' ≠ c ∧ rn.calls[c']? = some other := by
  simp only [setCall] at h
  by_cases hc : c' = c
  · subst hc
    rw [List.getElem?_set_self'] at h
    obtain ⟨-, -, rfl⟩ := Option.map_eq_some_iff.mp h
    exact .inl ⟨rfl, rfl⟩
  · rw [List.getElem?_set_ne (Ne.symm hc)] at h
    exact .inr ⟨hc, h⟩

theorem Advances.keeps_returned (h : Advances rn call act call')
    (hok : call.phase.undispatched = true → call.handling = .absent)
    (hreturned : call.handling.returned = true) : call'.handling.returned = true := by
  cases h with
  | dispatched c route hphase =>
    rw [hok (by rw [hphase]; rfl)] at hreturned
    cases hreturned
  | handled => rfl
  | taken => rfl
  | accepted | abandoned | routed | unrouted | requestDropped | polled | gaveUp | failed | checked
  | replyDropped | replied | answered => exact hreturned

/-- A route that is in use does not come back once its server is gone. -/
theorem NetworkInv.servers_before (h : NetworkInv rn) (hconfigures : Configures rn rn')
    (hcall : rn.calls[c]? = some call) {route : Route ν} (hroute : call.phase.route? = some route)
    (hserver : rn'.servers route.servername = some route.server) :
    rn.servers route.servername = some route.server := by
  rcases hconfigures.servers _ _ hserver with hserver | ⟨hnot, -⟩
  · exact hserver
  · exact absurd (h.routed c call hcall route hroute) hnot

/-- The reply that `processReq` has or can have, before it looks at the server again. -/
def Call.pending? (call : Call ε ν A B) : Option (Route ν × B) :=
  match call.phase, call.handling with
  | .waiting route, .done reply => some (route, reply)
  | .taken route reply, _ => some (route, reply)
  | _, _ => none

/-- The reply that it has after that. -/
def Call.confirmed? (call : Call ε ν A B) : Option B :=
  match call.phase with
  | .checked _ reply => some reply
  | .replying reply => reply
  | .returned reply => reply
  | _ => none

theorem Call.route?_of_pending? {route : Route ν} {reply : B}
    (h : call.pending? = some (route, reply)) : call.phase.route? = some route := by
  unfold Call.pending? at h
  split at h
  · next hphase _ =>
    cases h
    rw [hphase]
    rfl
  · next hphase =>
    cases h
    rw [hphase]
    rfl
  · cases h

/-- If the handler of a call returns while `processReq` waits for it, then its reply can be
    taken. -/
theorem Call.pending?_done {route : Route ν} {reply reply' : B}
    (h : { call with handling := .done reply }.pending? = some (route, reply')) :
    call.phase = .waiting route ∧ reply' = reply ∨ call.pending? = some (route, reply') := by
  cases hphase : call.phase with
  | waiting route' =>
    simp only [pending?, hphase, Option.some.injEq, Prod.mk.injEq] at h
    obtain ⟨rfl, rfl⟩ := h
    exact .inl ⟨rfl, rfl⟩
  | taken route' reply'' =>
    refine .inr ?_
    simpa [pending?, hphase] using h
  | sending | accepted | routed | checked | replying | returned => simp [pending?, hphase] at h

section Runs

variable [DecidableEq ε] [DecidableEq ν]

theorem update_eq_some {f : ν → Option Nat} {a b : ν} {v : Option Nat} {k : Nat}
    (h : Function.update f a v b = some k) : v = some k ∨ f b = some k := by
  by_cases hb : b = a
  · subst hb
    rw [Function.update_self] at h
    exact .inl h
  · rw [Function.update_of_ne hb] at h
    exact .inr h

theorem Network.configures (hnew : newServers rn act) (h : rn.configure act = some rn') :
    Configures rn rn' := by
  cases act with
  | call endname request =>
    cases h
    refine
      { calls := fun c call hcall => ?_
        kept := fun c call hcall => ?_
        added := fun _ => id
        servers := fun _ _ => .inl }
    · rw [List.getElem?_append] at hcall
      split at hcall
      · exact .inl hcall
      · obtain rfl := List.mem_singleton.mp (List.mem_of_getElem? hcall)
        exact .inr ⟨rfl, rfl⟩
    · exact (List.getElem?_append_left (List.getElem?_eq_some_iff.mp hcall).1).trans hcall
  | addServer servername server =>
    cases h
    refine
      { calls := fun _ _ => .inl
        kept := fun _ _ => id
        added := fun _ => List.mem_append_left _
        servers := fun servername' server' heq => ?_ }
    rcases update_eq_some heq with heq | heq
    · cases heq
      exact .inr ⟨hnew server rfl, List.mem_append_right _ List.mem_cons_self⟩
    · exact .inl heq
  | deleteServer servername =>
    cases h
    refine
      { calls := fun _ _ => .inl
        kept := fun _ _ => id
        added := fun _ => id
        servers := fun servername' server heq => ?_ }
    rcases update_eq_some heq with heq | heq
    · cases heq
    · exact .inl heq
  | stop =>
    simp only [configure, Option.ite_none_right_eq_some, Option.some.injEq] at h
    obtain ⟨-, rfl⟩ := h
    exact .of_eq rfl rfl rfl
  | makeEnd endname =>
    simp only [configure, Option.ite_none_left_eq_some, Option.some.injEq] at h
    obtain ⟨-, rfl⟩ := h
    exact .of_eq rfl rfl rfl
  | deleteEnd endname =>
    simp only [configure, Option.ite_none_right_eq_some, Option.some.injEq] at h
    obtain ⟨-, rfl⟩ := h
    exact .of_eq rfl rfl rfl
  | cleanup =>
    simp only [configure, Option.ite_none_left_eq_some, Option.some.injEq] at h
    obtain ⟨-, rfl⟩ := h
    exact .of_eq rfl rfl rfl
  | setReliable yes =>
    cases h
    exact .of_eq rfl rfl rfl
  | connect endname servername =>
    cases h
    exact .of_eq rfl rfl rfl
  | enable endname enabled =>
    cases h
    exact .of_eq rfl rfl rfl
  | accept | abandon | readEndnameInfo | dropRequest | dispatch | handled | take | poll | check
  | dropReply | reply | answer => cases h

/-- A step moves one call on, or none. -/
theorem Network.step_cases (hnew : newServers rn act) (h : rn.step act = some rn') :
    (∃ c call call', act.call? = some c ∧ rn.calls[c]? = some call ∧
      Advances rn call act call' ∧ rn' = rn.setCall c call') ∨
    act.call? = none ∧ Configures rn rn' := by
  rw [step] at h
  split at h
  · next hnone => exact .inr ⟨hnone, configures hnew h⟩
  · next c hc =>
    simp only [Option.bind_eq_bind, Option.bind_eq_some_iff, Option.some.injEq] at h
    obtain ⟨call, hcall, call', hadvance, rfl⟩ := h
    exact .inl ⟨c, call, call', hc, hcall, advances hadvance, rfl⟩

namespace NetworkInv

theorem step (h : NetworkInv rn) (hnew : newServers rn act) (hstep : rn.step act = some rn') :
    NetworkInv rn' := by
  rcases Network.step_cases hnew hstep with
    ⟨c, call, call', -, hcall, hadvances, rfl⟩ | ⟨-, hconfigures⟩
  · refine { registered := h.registered, undispatched := ?_, routed := ?_ }
    · intro c' other hother
      rcases Network.setCall_getElem? hother with ⟨rfl, rfl⟩ | ⟨-, hother⟩
      · exact hadvances.undispatched (h.undispatched _ _ hcall)
      · exact h.undispatched c' other hother
    · intro c' other hother route hroute
      rcases Network.setCall_getElem? hother with ⟨rfl, rfl⟩ | ⟨-, hother⟩
      · rcases hadvances.route? hroute with hroute | hserver
        · exact h.routed _ _ hcall route hroute
        · exact h.registered _ _ hserver
      · exact h.routed c' other hother route hroute
  · refine { registered := ?_, undispatched := ?_, routed := ?_ }
    · intro servername server hserver
      rcases hconfigures.servers servername server hserver with hserver | ⟨-, hadded⟩
      · exact hconfigures.added _ (h.registered _ _ hserver)
      · exact hadded
    · intro c call hcall hphase
      rcases hconfigures.calls c call hcall with hcall | ⟨-, habsent⟩
      · exact h.undispatched c call hcall hphase
      · exact habsent
    · intro c call hcall route hroute
      rcases hconfigures.calls c call hcall with hcall | ⟨hsending, -⟩
      · exact hconfigures.added _ (h.routed c call hcall route hroute)
      · rw [hsending] at hroute
        cases hroute

theorem of_reachable (h : (network ε ν A B).Reachable newServers rn) : NetworkInv rn :=
  h.invariant
    { registered := fun _ _ hserver => by cases hserver
      undispatched := fun _ _ hcall => by cases hcall
      routed := fun _ _ hcall => by cases hcall }
    fun _ _ _ _ hinv hnew hstep => hinv.step hnew hstep

end NetworkInv

/-! ### Handlers return once -/

/-- The handler of call `c` has returned. -/
def Handled (rn : Network ε ν A B) (c : Nat) : Prop :=
  ∃ call : Call ε ν A B, rn.calls[c]? = some call ∧ call.handling.returned = true

namespace Handled

theorem of_step {reply : B} (hstep : rn.step (.handled c reply) = some rn') : Handled rn' c := by
  simp only [Network.step, Action.call?, Option.bind_eq_bind, Option.bind_eq_some_iff,
    Option.some.injEq] at hstep
  obtain ⟨call, hcall, call', hadvance, rfl⟩ := hstep
  have hlt := (List.getElem?_eq_some_iff.mp hcall).1
  cases Network.advances hadvance with
  | handled => exact ⟨_, List.getElem?_set_self hlt, rfl⟩

theorem step (h : Handled rn c) (hinv : NetworkInv rn) (hnew : newServers rn act)
    (hstep : rn.step act = some rn') : Handled rn' c := by
  obtain ⟨call, hcall, hreturned⟩ := h
  rcases Network.step_cases hnew hstep with
    ⟨c', call', call'', -, hcall', hadvances, rfl⟩ | ⟨-, hconfigures⟩
  · by_cases hc : c' = c
    · subst hc
      cases hcall.symm.trans hcall'
      have hlt := (List.getElem?_eq_some_iff.mp hcall).1
      exact ⟨call'', List.getElem?_set_self hlt,
        hadvances.keeps_returned (hinv.undispatched _ _ hcall) hreturned⟩
    · exact ⟨call, (List.getElem?_set_ne hc).trans hcall, hreturned⟩
  · exact ⟨call, hconfigures.kept c call hcall, hreturned⟩

theorem reaches (h : Handled rn c) (hrn : (network ε ν A B).Reachable newServers rn)
    (hreach : (network ε ν A B).Reaches newServers rn rn') : Handled rn' c := by
  induction hreach with
  | refl => exact h
  | tail hreach hst ih =>
    obtain ⟨act, hnew, hstep⟩ := hst
    exact ih.step (.of_reachable (hrn.trans hreach)) hnew hstep

theorem step_eq_none (h : Handled rn c) (reply : B) : rn.step (.handled c reply) = none := by
  obtain ⟨call, hcall, hreturned⟩ := h
  cases hhandling : call.handling with
  | absent | running =>
    rw [hhandling] at hreturned
    cases hreturned
  | done | received => simp [Network.step, Action.call?, hcall, Network.advance, hhandling]

end Handled

/-! ### Positive replies -/

/-- In some earlier step the handler of call `c` returned `reply` to a `processReq` that
    waited for it.  If `alive`, then its server was registered at that time. -/
def HandledBefore (rn : Network ε ν A B) (c : Nat) (route : Route ν) (reply : B)
    (alive : Prop) : Prop :=
  ∃ (rn₁ rn₂ : Network ε ν A B) (call : Call ε ν A B),
    (network ε ν A B).Reachable newServers rn₁ ∧ rn₁.calls[c]? = some call ∧
    call.phase = .waiting route ∧ rn₁.step (.handled c reply) = some rn₂ ∧
    (network ε ν A B).Reaches newServers rn₂ rn ∧
    (alive → rn₁.servers route.servername = some route.server)

theorem HandledBefore.mono {route : Route ν} {reply : B} {alive alive' : Prop}
    (h : HandledBefore rn c route reply alive)
    (hstep : (network ε ν A B).Step newServers rn rn') (himp : alive' → alive) :
    HandledBefore rn' c route reply alive' := by
  obtain ⟨rn₁, rn₂, call, hrn₁, hcall, hphase, hhandled, hreach, halive⟩ := h
  exact ⟨rn₁, rn₂, call, hrn₁, hcall, hphase, hhandled, hreach.tail hstep, halive ∘ himp⟩

/-- Every reply comes from the handler, and one that has been confirmed from a server that
    was registered. -/
structure Accounted (rn : Network ε ν A B) (c : Nat) (call : Call ε ν A B) : Prop where
  pending : ∀ route reply, call.pending? = some (route, reply) →
    HandledBefore rn c route reply (rn.servers route.servername = some route.server)
  confirmed : ∀ reply, call.confirmed? = some reply →
    ∃ route, HandledBefore rn c route reply True

namespace Accounted

theorem mono (h : Accounted rn c call) (hstep : (network ε ν A B).Step newServers rn rn')
    (hbefore : ∀ route, call.phase.route? = some route →
      rn'.servers route.servername = some route.server →
      rn.servers route.servername = some route.server) : Accounted rn' c call where
  pending route reply hpending :=
    (h.pending route reply hpending).mono hstep (hbefore route (Call.route?_of_pending? hpending))
  confirmed reply hconfirmed := by
    obtain ⟨route, hhandled⟩ := h.confirmed reply hconfirmed
    exact ⟨route, hhandled.mono hstep id⟩

theorem of_silent (hpending : call.pending? = none) (hconfirmed : call.confirmed? = none) :
    Accounted rn c call where
  pending _ _ h := by
    rw [hpending] at h
    cases h
  confirmed _ h := by
    rw [hconfirmed] at h
    cases h

/-- The step of the call itself. -/
theorem advance (h : Accounted rn c call) (hrn : (network ε ν A B).Reachable newServers rn)
    (hcall : rn.calls[c]? = some call) (hact : act.call? = some c)
    (hadvances : Advances rn call act call') (hnew : newServers rn act)
    (hstep : rn.step act = some (rn.setCall c call')) :
    Accounted (rn.setCall c call') c call' := by
  have hst : (network ε ν A B).Step newServers rn (rn.setCall c call') := ⟨act, hnew, hstep⟩
  have hsame := h.mono hst fun _ _ hserver => hserver
  cases hadvances with
  | handled c' reply hrunning =>
    cases hact
    refine { pending := fun route reply' hpending => ?_, confirmed := hsame.confirmed }
    rcases Call.pending?_done hpending with ⟨hphase, rfl⟩ | hpending
    · exact ⟨rn, _, call, hrn, hcall, hphase, hstep, .refl, id⟩
    · exact hsame.pending route reply' hpending
  | taken c' route reply hphase hdone =>
    refine
      { pending := fun route' reply' hpending => hsame.pending route' reply' ?_
        confirmed := fun _ hnone => by cases hnone }
    simpa [Call.pending?, hphase, hdone] using hpending
  | checked c' route reply hphase halive =>
    have hserver : rn.servers route.servername = some route.server := by
      simp only [Network.isServerDead, Bool.or_eq_false_iff, decide_eq_false_iff_not, ne_eq,
        not_not] at halive
      exact halive.2
    have hpending := h.pending route reply (by simp [Call.pending?, hphase])
    refine
      { pending := fun _ _ hnone => by cases hnone
        confirmed := fun reply' heq => ?_ }
    cases heq
    exact ⟨route, hpending.mono hst fun _ => hserver⟩
  | replied c' route reply hphase =>
    refine
      { pending := fun _ _ hnone => by cases hnone
        confirmed := fun reply' heq => hsame.confirmed reply' ?_ }
    simpa [Call.confirmed?, hphase] using heq
  | answered c' reply hphase =>
    refine
      { pending := fun _ _ hnone => by cases hnone
        confirmed := fun reply' heq => hsame.confirmed reply' ?_ }
    simpa [Call.confirmed?, hphase] using heq
  | polled => exact hsame
  | accepted | abandoned | routed | unrouted | requestDropped | dispatched | gaveUp | failed
  | replyDropped => exact of_silent rfl rfl

theorem of_reachable (hrn : (network ε ν A B).Reachable newServers rn) :
    ∀ c call, rn.calls[c]? = some call → Accounted rn c call := by
  refine hrn.invariant (P := fun rn => ∀ (c : Nat) (call : Call ε ν A B),
    rn.calls[c]? = some call → Accounted rn c call) (fun _ _ hcall => by cases hcall) ?_
  intro rn act rn' hrn ih hnew hstep c call hcall
  have hst : (network ε ν A B).Step newServers rn rn' := ⟨act, hnew, hstep⟩
  rcases Network.step_cases hnew hstep with
    ⟨c', call', call'', hact, hcall', hadvances, rfl⟩ | ⟨-, hconfigures⟩
  · rcases Network.setCall_getElem? hcall with ⟨rfl, rfl⟩ | ⟨-, hcall⟩
    · exact (ih _ _ hcall').advance hrn hcall' hact hadvances hnew hstep
    · exact (ih c call hcall).mono hst fun _ _ hserver => hserver
  · rcases hconfigures.calls c call hcall with hcall | ⟨hsending, -⟩
    · exact (ih c call hcall).mono hst fun route hroute =>
        (NetworkInv.of_reachable hrn).servers_before hconfigures hcall hroute
    · exact of_silent (by simp [Call.pending?, hsending]) (by simp [Call.confirmed?, hsending])

end Accounted

/-- In every run in which no server is registered a second time: if a `Call` has returned a
    reply, then its handler returned this reply, only this once, at a time at which its
    server was still registered.  So what the handler saved was saved before anybody could
    take the place of the server. -/
theorem reply_from_registered_server (rn : Network ε ν A B)
    (hrn : (network ε ν A B).Reachable newServers rn) (c : Nat) (call : Call ε ν A B) (reply : B)
    (hcall : rn.calls[c]? = some call) (hreturned : call.phase = .returned (some reply)) :
    ∃ (rn₁ rn₂ : Network ε ν A B) (call₁ : Call ε ν A B) (route : Route ν),
      (network ε ν A B).Reachable newServers rn₁ ∧ rn₁.calls[c]? = some call₁ ∧
      call₁.phase = .waiting route ∧ rn₁.servers route.servername = some route.server ∧
      rn₁.step (.handled c reply) = some rn₂ ∧ (network ε ν A B).Reaches newServers rn₂ rn ∧
      ∀ rn', (network ε ν A B).Reaches newServers rn₂ rn' →
        ∀ reply', rn'.step (.handled c reply') = none := by
  have haccounted := Accounted.of_reachable hrn c call hcall
  obtain ⟨route, rn₁, rn₂, call₁, hrn₁, hcall₁, hphase, hstep, hreach, hserver⟩ :=
    haccounted.confirmed reply (by simp [Call.confirmed?, hreturned])
  refine ⟨rn₁, rn₂, call₁, route, hrn₁, hcall₁, hphase, hserver trivial, hstep, hreach, ?_⟩
  intro rn' hreach'
  have hnew : newServers rn₁ (.handled c reply) := by simp [newServers, Action.server?]
  have hrn₂ := hrn₁.step hnew hstep
  exact ((Handled.of_step hstep).reaches hrn₂ hreach').step_eq_none

end Runs

/-- The server is deleted while its reply is on the way. -/
def deletedAfterReply : List (Action Nat Nat Nat Nat) :=
  [.makeEnd 0, .addServer 0 5, .connect 0 0, .enable 0 true, .call 0 9, .accept 0,
    .readEndnameInfo 0, .dispatch 0, .poll 0, .handled 0 7, .take 0, .check 0, .reply 0,
    .deleteServer 0, .answer 0]

theorem reply_from_registered_server_deleted : ∃ rn : Network Nat Nat Nat Nat,
    (network Nat Nat Nat Nat).Reachable newServers rn ∧ rn.servers 0 = none ∧
      (rn.calls[0]?).map Call.phase = some (.returned (some 7)) ∧
      ∃ (rn₁ rn₂ : Network Nat Nat Nat Nat) (route : Route Nat),
        rn₁.servers route.servername = some route.server ∧
        rn₁.step (.handled 0 7) = some rn₂ ∧
        (network Nat Nat Nat Nat).Reaches newServers rn₂ rn := by
  obtain ⟨rn, hrn, hcheck⟩ := (network Nat Nat Nat Nat).exists_reachable_of_run newServers
    deletedAfterReply (fun rn => decide (rn.servers 0 = none ∧
      (rn.calls[0]?).map Call.phase = some (.returned (some 7)))) (by decide +kernel)
  obtain ⟨hservers, hphase⟩ := of_decide_eq_true hcheck
  obtain ⟨call, hcall, hreturned⟩ := Option.map_eq_some_iff.mp hphase
  obtain ⟨rn₁, rn₂, -, route, -, -, -, hserver, hstep, hreach, -⟩ :=
    reply_from_registered_server rn hrn 0 call 7 hcall hreturned
  exact ⟨rn, hrn, hservers, hphase, rn₁, rn₂, route, hserver, hstep, hreach⟩

end RaftLabs.LabRpc
