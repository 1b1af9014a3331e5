import RaftLabs.DancingLinks
import RaftLabs.MapSpec
import RaftLabs.TransitionSystem
import Mathlib.Data.Finset.Basic
import Mathlib.Data.Finset.Dedup
import Mathlib.Data.List.Sort
import Mathlib.Data.UInt

/-!
# The linearizability checker

The package `porcupine`, with which the tests of the key/value services judge the
histories they record.  `checkSingle` searches for a sequential order of the
operations of one history: it keeps the entries that are not yet linearized in a
doubly linked list, takes a call and its return out of the list when it tries the
operation, puts them back when it gives the operation up, and remembers the sets of
operations and states it has been in.  `checkParallel` runs one such search for
each part of a history and collects the verdicts.

A pointer to a node is the place of its entry in the history; the node that is put in
front of the first entry has the first place after the last entry.  The fields
`next` and `prev` of all nodes are kept apart from the fields that never change.  A
nil dereference, an index out of range and a failed type assertion are `none`.

An operation's input and output are values of two types `I` and `O`, which the code
keeps in one `interface{}`: a call entry carries an input, a return entry an output.
-/

namespace RaftLabs.Porcupine

open DancingLinks (Links)

variable {σ I O : Type}

/-! ### `bitset.go` -/

/-- Bits 0 to 63 are in the first chunk, the next in the second, and so on. -/
structure Bitset where
  chunks : List UInt64
deriving DecidableEq, Repr

def newBitset (bits : Nat) : Bitset :=
  let extra := if bits % 64 ≠ 0 then 1 else 0
  ⟨List.replicate (bits / 64 + extra) 0⟩

def bitsetIndex (pos : Nat) : Nat × Nat := (pos / 64, pos % 64)

/-- `1 << minor` -/
def bit (minor : Nat) : UInt64 := 1 <<< UInt64.ofNat minor

namespace Bitset

def set (b : Bitset) (pos : Nat) : Option Bitset := do
  let (major, minor) := bitsetIndex pos
  let chunk ← b.chunks[major]?
  return ⟨b.chunks.set major (chunk ||| bit minor)⟩

def clear (b : Bitset) (pos : Nat) : Option Bitset := do
  let (major, minor) := bitsetIndex pos
  let chunk ← b.chunks[major]?
  return ⟨b.chunks.set major (chunk &&& ~~~ bit minor)⟩

/-- `bits.OnesCount64` -/
def onesCount64 (v : UInt64) : Nat := (List.range 64).countP fun i => v.toNat.testBit i

def popcnt (b : Bitset) : Nat := b.chunks.foldl (fun total v => total + onesCount64 v) 0

def hash (b : Bitset) : UInt64 := b.chunks.foldl (fun hash v => hash ^^^ v) (UInt64.ofNat b.popcnt)

def equals (b b2 : Bitset) : Bool :=
  if b.chunks.length ≠ b2.chunks.length then false
  else (b.chunks.zip b2.chunks).all fun (x, y) => x == y

end Bitset

/-! ### Histories -/

/-- The kind of an entry or event together with its value. -/
inductive Value (I O : Type) where
  | call (input : I)
  | ret (output : O)
deriving DecidableEq, Repr

def Value.isReturn : Value I O → Bool
  | .call _ => false
  | .ret _ => true

structure Operation (I O : Type) where
  clientId : Int
  input : I
  call : Int
  output : O
  ret : Int
deriving DecidableEq, Repr

structure Event (I O : Type) where
  clientId : Int
  value : Value I O
  id : Int
deriving DecidableEq, Repr

structure Entry (I O : Type) where
  value : Value I O
  id : Int
  time : Int
  clientId : Int
deriving DecidableEq, Repr

/-- `byTime.Less`: by time, and calls before returns at the same time. -/
def Entry.less (a b : Entry I O) : Bool :=
  if a.time ≠ b.time then a.time < b.time
  else !a.value.isReturn && b.value.isReturn

/-- The entries of the operations, numbered in order, before they are sorted. -/
def opEntries (history : List (Operation I O)) : List (Entry I O) :=
  history.zipIdx.flatMap fun (elem, id) =>
    [⟨.call elem.input, id, elem.call, elem.clientId⟩,
      ⟨.ret elem.output, id, elem.ret, elem.clientId⟩]

/-- `makeEntries`: what `sort.Sort` may leave, which does not say in which order
    entries come that are not `Less` one way or the other. -/
def MakeEntries (history : List (Operation I O)) (entries : List (Entry I O)) : Prop :=
  entries.Perm (opEntries history) ∧ entries.Pairwise fun a b => b.less a = false

instance [DecidableEq I] [DecidableEq O] (history : List (Operation I O))
    (entries : List (Entry I O)) : Decidable (MakeEntries history entries) :=
  inferInstanceAs (Decidable (_ ∧ _))

/-- One event of `renumber`: the numbers given so far, the next number, and the
    events with their new numbers. -/
def renumberEvent (acc : (Int → Option Int) × Int × List (Event I O)) (v : Event I O) :
    (Int → Option Int) × Int × List (Event I O) :=
  let (m, id, e) := acc
  match m v.id with
  | some r => (m, id, e ++ [⟨v.clientId, v.value, r⟩])
  | none => (Function.update m v.id (some id), id + 1, e ++ [⟨v.clientId, v.value, id⟩])

def renumber (events : List (Event I O)) : List (Event I O) :=
  (events.foldl renumberEvent (fun _ => none, 0, [])).2.2

/-- `convertEntries`: the index is the time. -/
def convertEntries (events : List (Event I O)) : List (Entry I O) :=
  events.zipIdx.map fun (elem, i) => ⟨elem.value, elem.id, i, elem.clientId⟩

/-! ### Nodes -/

abbrev Ptr := Nat

/-- The fields of a `node` that stay as they are made; `match` is called `mate`. -/
structure Node (I O : Type) where
  value : Option (Value I O)
  mate : Option Ptr
  id : Int

structure Heap (I O : Type) where
  node : Ptr → Option (Node I O)
  links : Links Ptr

def Heap.empty : Heap I O where
  node _ := none
  links := { next := fun _ => none, prev := fun _ => none }

/-- `&node{value, match, id}`, at the address `p`. -/
def Heap.alloc (h : Heap I O) (p : Ptr) (node : Node I O) : Heap I O :=
  { h with node := Function.update h.node p (some node) }

/-- `insertBefore` -/
def insertBefore (l : Links Ptr) (n : Ptr) : Option Ptr → Links Ptr
  | none => l
  | some mark =>
    let beforeMark := l.prev mark
    let l := (l.setPrev (some mark) (some n)).setNext (some n) (some mark)
    match beforeMark with
    | none => l
    | some before => (l.setPrev (some n) (some before)).setNext (some before) (some n)

/-- `length`, for as many nodes as there may be. -/
def length (l : Links Ptr) : Nat → Option Ptr → Option Nat
  | _, none => some 0
  | 0, some _ => none
  | fuel + 1, some n => do return (← length l fuel (l.next n)) + 1

/-- What `makeLinkedEntries` has built from the last entries on: the first node, the
    node of each return by its id, and the nodes. -/
structure Linking (I O : Type) where
  root : Option Ptr
  mates : Int → Option Ptr
  heap : Heap I O

/-- One round of the loop of `makeLinkedEntries`, for the entry at place `i`. -/
def linkEntry (elem : Entry I O) (i : Ptr) (acc : Linking I O) : Linking I O :=
  let mate := if elem.value.isReturn then none else acc.mates elem.id
  let heap := acc.heap.alloc i ⟨some elem.value, mate, elem.id⟩
  { root := some i
    mates := if elem.value.isReturn then Function.update acc.mates elem.id (some i) else acc.mates
    heap := { heap with links := insertBefore heap.links i acc.root } }

def makeLinkedEntries (entries : List (Entry I O)) : Linking I O :=
  entries.zipIdx.foldr (fun (elem, i) acc => linkEntry elem i acc)
    { root := none, mates := fun _ => none, heap := Heap.empty }

/-- `lift`: take a call and its return out of the list. -/
def lift (h : Heap I O) (entry : Ptr) : Option (Heap I O) := do
  let l := h.links
  let before ← l.prev entry
  let l := l.setNext (some before) (l.next entry)
  let after ← l.next entry
  let l := l.setPrev (some after) (l.prev entry)
  let node ← h.node entry
  let mate ← node.mate
  let before ← l.prev mate
  let l := l.setNext (some before) (l.next mate)
  -- the return may be the last entry
  let l := l.setPrev (l.next mate) (l.prev mate)
  return { h with links := l }

/-- `unlift`: put them back. -/
def unlift (h : Heap I O) (entry : Ptr) : Option (Heap I O) := do
  let l := h.links
  let node ← h.node entry
  let mate ← node.mate
  let before ← l.prev mate
  let l := l.setNext (some before) (some mate)
  let l := l.setPrev (l.next mate) (some mate)
  let before ← l.prev entry
  let l := l.setNext (some before) (some entry)
  let after ← l.next entry
  let l := l.setPrev (some after) (some entry)
  return { h with links := l }

/-! ### Models -/

/-- `Model`, as the caller fills it in; what is only used to draw pictures is left
    out. -/
structure Model (σ I O : Type) where
  partition : Option (List (Operation I O) → List (List (Operation I O)))
  partitionEvent : Option (List (Event I O) → List (List (Event I O)))
  init : σ
  step : σ → I → O → Bool × σ
  equal : Option (σ → σ → Bool)

/-- A `Model` with nothing missing. -/
structure FullModel (σ I O : Type) where
  partition : List (Operation I O) → List (List (Operation I O))
  partitionEvent : List (Event I O) → List (List (Event I O))
  init : σ
  step : σ → I → O → Bool × σ
  equal : σ → σ → Bool

def noPartition (history : List (Operation I O)) : List (List (Operation I O)) := [history]

def noPartitionEvent (history : List (Event I O)) : List (List (Event I O)) := [history]

def shallowEqual [DecidableEq σ] (state1 state2 : σ) : Bool := state1 = state2

def fillDefault [DecidableEq σ] (model : Model σ I O) : FullModel σ I O where
  partition := model.partition.getD noPartition
  partitionEvent := model.partitionEvent.getD noPartitionEvent
  init := model.init
  step := model.step
  equal := model.equal.getD shallowEqual

/-! ### `models/kv.go` -/

/-- `Op` is 0 for get, 1 for put, 2 for append and anything else for an append that
    returns the old value. -/
structure KvInput where
  op : UInt8
  key : Str
  value : Str
deriving DecidableEq, Repr

structure KvOutput where
  value : Str
deriving DecidableEq, Repr

/-- `Partition`: the operations on each key, in the order of the keys. -/
def kvPartition (history : List (Operation KvInput KvOutput)) :
    List (List (Operation KvInput KvOutput)) :=
  let m := history.foldl (fun m v => Function.update m v.input.key (m v.input.key ++ [v]))
    (fun _ => [])
  let keys := ((history.map fun v => v.input.key).dedup).insertionSort (· ≤ ·)
  keys.map m

/-- `Step`, for the value of a single key. -/
def kvStep (state : Str) (inp : KvInput) (out : KvOutput) : Bool × Str :=
  if inp.op = 0 then (out.value = state, state)
  else if inp.op = 1 then (true, inp.value)
  else if inp.op = 2 then (true, state ++ inp.value)
  else (out.value = state, state ++ inp.value)

def KvModel : Model Str KvInput KvOutput where
  partition := some kvPartition
  partitionEvent := none
  init := []
  step := kvStep
  equal := none

/-! ### `checkSingle` -/

structure CacheEntry (σ : Type) where
  linearized : Bitset
  state : σ

abbrev Cache (σ : Type) := UInt64 → List (CacheEntry σ)

def cacheContains (model : FullModel σ I O) (cache : Cache σ) (entry : CacheEntry σ) : Bool :=
  (cache entry.linearized.hash).any fun elem =>
    entry.linearized.equals elem.linearized && model.equal entry.state elem.state

structure CallsEntry (σ : Type) where
  entry : Ptr
  state : σ

/-- The variables of `checkSingle`. -/
structure Search (σ I O : Type) where
  heap : Heap I O
  headEntry : Ptr
  entry : Option Ptr
  linearized : Bitset
  cache : Cache σ
  calls : List (CallsEntry σ)
  longest : List (Option (List Int))
  state : σ

/-- What one round of the loop leads to. -/
inductive Round (σ I O : Type) where
  | continues (s : Search σ I O)
  | returns (ok : Bool) (longest : List (Option (List Int)))

/-- `uint(id)` -/
def uint (id : Int) : Nat := (id % 2 ^ 64).toNat

namespace Search

/-- What `checkSingle` does before its loop. -/
def start (model : FullModel σ I O) (history : List (Entry I O)) : Option (Search σ I O) := do
  let linking := makeLinkedEntries history
  let n := (← length linking.heap.links (history.length + 1) linking.root) / 2
  let headEntry := history.length
  let heap := linking.heap.alloc headEntry ⟨none, none, -1⟩
  return {
    heap := { heap with links := insertBefore heap.links headEntry linking.root }
    headEntry := headEntry
    entry := linking.root
    linearized := newBitset n
    cache := fun _ => []
    calls := []
    longest := List.replicate n none
    state := model.init }

/-- The ids of the operations that are linearized, in order. -/
def seq (s : Search σ I O) : Option (List Int) :=
  s.calls.mapM fun v => do return (← s.heap.node v.entry).id

/-- The loop over `calls` that records `seq` for every operation for which it is the
    longest so far. -/
def recordLongest (seq : List Int) : List Int → List (Option (List Int)) →
    Option (List (Option (List Int)))
  | [], longest => some longest
  | id :: ids, longest => do
    if id < 0 then none
    let old ← longest[id.toNat]?
    if old.all fun best => seq.length > best.length then
      recordLongest seq ids (longest.set id.toNat (some seq))
    else recordLongest seq ids longest

/-- `entry = entry.next` -/
def advance (s : Search σ I O) (entry : Ptr) : Search σ I O :=
  { s with entry := s.heap.links.next entry }

/-- A round at a call: try the operation next. -/
def tryCall (model : FullModel σ I O) (s : Search σ I O) (entry : Ptr) (node : Node I O)
    (mate : Ptr) : Option (Search σ I O) := do
  let matching ← s.heap.node mate
  let (ok, newState) ← match node.value, matching.value with
    | some (.call input), some (.ret output) => some (model.step s.state input output)
    | _, _ => none
  if ok then
    let newLinearized ← s.linearized.set (uint node.id)
    let newCacheEntry : CacheEntry σ := ⟨newLinearized, newState⟩
    if !cacheContains model s.cache newCacheEntry then
      let hash := newLinearized.hash
      let heap ← lift s.heap entry
      return { s with
        cache := Function.update s.cache hash (s.cache hash ++ [newCacheEntry])
        calls := s.calls ++ [⟨entry, s.state⟩]
        state := newState
        linearized := newLinearized
        heap := heap
        entry := heap.links.next s.headEntry }
    else return s.advance entry
  else return s.advance entry

/-- `longest` after the operations that are linearized now have been looked at. -/
def newLongest (computePartial : Bool) (s : Search σ I O) : Option (List (Option (List Int))) :=
  if computePartial then do
    let seq ← s.seq
    recordLongest seq seq s.longest
  else some s.longest

/-- A round at a return: give up the operation that was linearized last. -/
def backtrack (computePartial : Bool) (s : Search σ I O) (callsTop : CallsEntry σ) :
    Option (Search σ I O) := do
  let longest ← s.newLongest computePartial
  let entry := callsTop.entry
  let node ← s.heap.node entry
  let linearized ← s.linearized.clear (uint node.id)
  let heap ← unlift s.heap entry
  return { s with
    longest := longest
    state := callsTop.state
    linearized := linearized
    calls := s.calls.dropLast
    heap := heap
    entry := heap.links.next entry }

/-- One round of the loop of `checkSingle`, with the value of `*kill` it reads. -/
def round (model : FullModel σ I O) (computePartial kill : Bool) (s : Search σ I O) :
    Option (Round σ I O) :=
  match s.heap.links.next s.headEntry with
  | none => do
    -- the complete linearization is the longest for every operation
    let seq ← s.seq
    return .returns true (s.longest.map fun _ => some seq)
  | some _ =>
    if kill then some (.returns false s.longest)
    else do
      let entry ← s.entry
      let node ← s.heap.node entry
      match node.mate with
      | some mate => return .continues (← s.tryCall model entry node mate)
      | none =>
        match s.calls.getLast? with
        | none => return .returns false s.longest
        | some callsTop => return .continues (← s.backtrack computePartial callsTop)

/-- The loop, while nobody sets `*kill`. -/
def loop (model : FullModel σ I O) (computePartial : Bool) :
    Nat → Search σ I O → Option (Bool × List (Option (List Int)))
  | 0, _ => none
  | fuel + 1, s => do
    match ← s.round model computePartial false with
    | .returns ok longest => return (ok, longest)
    | .continues s' => loop model computePartial fuel s'

end Search

/-- `checkSingle`, for at most `fuel` rounds of its loop. -/
def checkSingle (model : FullModel σ I O) (history : List (Entry I O)) (computePartial : Bool)
    (fuel : Nat) : Option (Bool × List (Option (List Int))) := do
  let s ← Search.start model history
  s.loop model computePartial fuel

end RaftLabs.Porcupine
