import RaftLabs.Linearizability
import Mathlib.Logic.Function.Basic

/-!
# A map from strings to strings

What the key/value services are for: one map, read and written by `Get`, `Put`
and `Append`.  A key that was never written reads as the empty string.
-/

namespace RaftLabs

/-- A Go string is a sequence of bytes. -/
abbrev Str := List UInt8

/-- The `Op` field of a request, `Type` of a command. -/
inductive OpType where
  | get
  | put
  | append
deriving DecidableEq, Repr, Inhabited

/-- One call of a client. -/
inductive Query where
  | get (key : Str)
  | put (key value : Str)
  | append (key value : Str)
deriving DecidableEq, Repr

def Query.key : Query → Str
  | .get key => key
  | .put key _ => key
  | .append key _ => key

def Query.isGet : Query → Bool
  | .get _ => true
  | .put _ _ => false
  | .append _ _ => false

namespace MapSpec

/-- What a call does to the map. -/
def next (m : Str → Str) : Query → Str → Str
  | .get _ => m
  | .put key value => Function.update m key value
  | .append key value => Function.update m key (m key ++ value)

/-- What a call returns; `Put` and `Append` return nothing. -/
def answer (m : Str → Str) : Query → Option Str
  | .get key => some (m key)
  | .put _ _ => none
  | .append _ _ => none

/-- The map starts with every key reading as the empty string. -/
def object : Linearizability.Object (Str → Str) Query (Option Str) where
  init := fun _ => []
  next := next
  answer := answer

theorem next_of_isGet {q : Query} (h : q.isGet = true) (m : Str → Str) : next m q = m := by
  cases q with
  | get key => rfl
  | put key value => cases h
  | append key value => cases h

theorem answer_of_not_isGet {q : Query} (h : q.isGet = false) (m : Str → Str) :
    answer m q = none := by
  cases q with
  | get key => cases h
  | put key value => rfl
  | append key value => rfl

/-- A call reads and writes its own key only. -/
theorem next_of_ne {q : Query} {key : Str} (h : key ≠ q.key) (m : Str → Str) :
    next m q key = m key := by
  cases q with
  | get k => rfl
  | put k value => exact Function.update_of_ne h _ _
  | append k value => exact Function.update_of_ne h _ _

/-- What a call leaves at a key depends on what was there. -/
theorem next_congr {m m' : Str → Str} {key : Str} (h : m key = m' key) (q : Query) :
    next m q key = next m' q key := by
  cases q with
  | get k => exact h
  | put k value => simp only [next, Function.update_apply, h]
  | append k value =>
    simp only [next, Function.update_apply]
    split
    · next hk => rw [← hk, h]
    · exact h

theorem answer_congr {m m' : Str → Str} {q : Query} (h : m q.key = m' q.key) :
    answer m q = answer m' q := by
  cases q with
  | get key => exact congrArg some h
  | put key value => rfl
  | append key value => rfl

end MapSpec

end RaftLabs
