import Mathlib.Data.List.Nodup
import Mathlib.Logic.Function.Basic

/-!
# Doubly linked lists with removal that can be undone

A node is taken out of a doubly linked list by making its neighbours point past
it.  Its own two fields keep pointing at the neighbours it had, so the node can be
put back without a search, as long as removals are undone in the opposite order.
-/

namespace RaftLabs.DancingLinks

variable {P : Type}

/-- The two pointer fields of every node. -/
@[ext] structure Links (P : Type) where
  next : P → Option P
  prev : P → Option P

/-- After node `p` the list goes on with `ps`. -/
def Chain (l : Links P) : P → List P → Prop
  | p, [] => l.next p = none
  | p, q :: qs => l.next p = some q ∧ l.prev q = some p ∧ Chain l q qs

/-- The chain is a matter of the `next` fields of its nodes and the `prev` fields
    of all but the first. -/
theorem Chain.congr {l l' : Links P} {p : P} {ps : List P} (h : Chain l p ps)
    (hnext : ∀ q ∈ p :: ps, l'.next q = l.next q) (hprev : ∀ q ∈ ps, l'.prev q = l.prev q) :
    Chain l' p ps := by
  induction ps generalizing p with
  | nil => exact (hnext p (List.mem_singleton_self p)).trans h
  | cons q qs ih =>
    obtain ⟨hn, hp, hrest⟩ := h
    refine ⟨(hnext p List.mem_cons_self).trans hn, (hprev q List.mem_cons_self).trans hp, ?_⟩
    exact ih hrest (fun r hr => hnext r (List.mem_cons_of_mem p hr))
      (fun r hr => hprev r (List.mem_cons_of_mem q hr))

/-- What the fields of a node in the middle say: it has a predecessor that points
    to it, it points to the first of what follows, and that points back. -/
theorem Chain.middle {l : Links P} {h p : P} {xs ys : List P} (hc : Chain l h (xs ++ p :: ys)) :
    (∃ q ∈ h :: xs, l.prev p = some q ∧ l.next q = some p) ∧
      l.next p = ys.head? ∧ ∀ r, l.next p = some r → l.prev r = some p := by
  induction xs generalizing h with
  | nil =>
    obtain ⟨hn, hp, hrest⟩ := hc
    refine ⟨⟨h, List.mem_cons_self, hp, hn⟩, ?_⟩
    cases ys with
    | nil =>
      have hnone : l.next p = none := hrest
      exact ⟨hnone, fun r hr => by rw [hnone] at hr; cases hr⟩
    | cons y ys =>
      obtain ⟨hn', hp', -⟩ := hrest
      refine ⟨hn', fun r hr => ?_⟩
      rw [hn'] at hr
      cases hr
      exact hp'
  | cons x xs ih =>
    obtain ⟨-, -, hrest⟩ := hc
    obtain ⟨⟨q, hq, hp, hn⟩, hafter⟩ := ih hrest
    exact ⟨⟨q, List.mem_cons_of_mem h hq, hp, hn⟩, hafter⟩

/-- The neighbours of a node are other nodes. -/
theorem Chain.neighbours {l : Links P} {h p : P} {xs ys : List P}
    (hc : Chain l h (xs ++ p :: ys)) (hnd : (h :: (xs ++ p :: ys)).Nodup) :
    (∃ q, l.prev p = some q ∧ l.next q = some p ∧ q ≠ p) ∧
      l.next p = ys.head? ∧ ∀ r, l.next p = some r → r ≠ p ∧ l.prev r = some p := by
  obtain ⟨⟨q, hq, hpq, hqp⟩, hafter, hback⟩ := hc.middle
  have hnd' : ((h :: xs) ++ p :: ys).Nodup := hnd
  obtain ⟨-, hpys, hdisj⟩ := List.nodup_append.mp hnd'
  refine ⟨⟨q, hpq, hqp, hdisj q hq p List.mem_cons_self⟩, hafter, fun r hr => ⟨?_, hback r hr⟩⟩
  rintro rfl
  rw [hafter] at hr
  exact (List.nodup_cons.mp hpys).1 (List.mem_of_mem_head? hr)

variable [DecidableEq P]

namespace Links

/-- Store into the `next` field of a node; nothing happens at the nil pointer. -/
def setNext (l : Links P) (p v : Option P) : Links P :=
  match p with
  | none => l
  | some p => { l with next := Function.update l.next p v }

/-- Store into the `prev` field of a node. -/
def setPrev (l : Links P) (p v : Option P) : Links P :=
  match p with
  | none => l
  | some p => { l with prev := Function.update l.prev p v }

/-- The neighbours of `p` point past it. -/
def unlink (l : Links P) (p : P) : Links P :=
  (l.setNext (l.prev p) (l.next p)).setPrev (l.next p) (l.prev p)

/-- The nodes that `p` takes for its neighbours point to it. -/
def relink (l : Links P) (p : P) : Links P :=
  (l.setNext (l.prev p) (some p)).setPrev (l.next p) (some p)

variable {l : Links P} {p q : P}

@[simp] theorem setNext_prev (l : Links P) (p v : Option P) : (l.setNext p v).prev = l.prev := by
  cases p <;> rfl

@[simp] theorem setPrev_next (l : Links P) (p v : Option P) : (l.setPrev p v).next = l.next := by
  cases p <;> rfl

/-- Only the predecessor gets another successor. -/
theorem unlink_next (h : l.prev p = some q) :
    (l.unlink p).next = Function.update l.next q (l.next p) := by
  simp [unlink, h, setNext]

/-- Only the successor gets another predecessor. -/
theorem unlink_prev_of_ne {r : P} (h : l.next p ≠ some r) : (l.unlink p).prev r = l.prev r := by
  unfold unlink
  cases hn : l.next p with
  | none => simp [setPrev]
  | some s =>
    have hrs : r ≠ s := by
      rintro rfl
      exact h hn
    simp [setPrev, hrs]

theorem unlink_prev_next {r : P} (h : l.next p = some r) : (l.unlink p).prev r = l.prev p := by
  simp [unlink, h, setPrev]

/-- Putting back the node that was taken out last gives the old links. -/
theorem relink_unlink (hp : l.prev p = some q) (hq : l.next q = some p) (hqp : q ≠ p)
    (hn : ∀ r, l.next p = some r → r ≠ p ∧ l.prev r = some p) : (l.unlink p).relink p = l := by
  have hnext : (l.unlink p).next p = l.next p := by
    rw [unlink_next hp, Function.update_of_ne hqp.symm]
  have hprev : (l.unlink p).prev p = some q := by
    rw [unlink_prev_of_ne fun h => (hn p h).1 rfl, hp]
  have hnexts : ((l.unlink p).relink p).next = l.next := by
    simp only [relink, hprev, setPrev_next, setNext]
    rw [unlink_next hp, Function.update_idem, ← hq, Function.update_eq_self]
  have hprevs : ((l.unlink p).relink p).prev = l.prev := by
    funext r
    simp only [relink, hnext]
    cases hr : l.next p with
    | none =>
      simp only [setPrev, setNext_prev]
      exact unlink_prev_of_ne (by simp [hr])
    | some s =>
      simp only [setPrev, setNext_prev]
      by_cases hrs : r = s
      · rw [hrs, Function.update_self, (hn s hr).2]
      · rw [Function.update_of_ne hrs]
        exact unlink_prev_of_ne fun h => hrs (Option.some.inj (hr.symm.trans h)).symm
  exact Links.ext hnexts hprevs

end Links

variable {l : Links P} {h p : P} {xs ys : List P}

/-- A new node in front of the chain. -/
theorem Chain.insertFront {r : P} {ps : List P} (hc : Chain l r ps) (hp : p ∉ r :: ps)
    (hr : r ∉ ps) :
    Chain ((l.setPrev (some r) (some p)).setNext (some p) (some r)) p (r :: ps) := by
  refine ⟨by simp [Links.setNext], by simp [Links.setPrev], hc.congr ?_ ?_⟩
  · intro q hq
    have hqp : q ≠ p := by
      rintro rfl
      exact hp hq
    simp [Links.setNext, hqp]
  · intro q hq
    have hqr : q ≠ r := by
      rintro rfl
      exact hr hq
    simp [Links.setPrev, hqr]

/-- Taking a node out of the chain. -/
theorem Chain.unlink (hc : Chain l h (xs ++ p :: ys)) (hnd : (h :: (xs ++ p :: ys)).Nodup) :
    Chain (l.unlink p) h (xs ++ ys) := by
  induction xs generalizing h with
  | nil =>
    obtain ⟨hn, hp, hrest⟩ := hc
    obtain ⟨hh, hpy⟩ := List.nodup_cons.mp hnd
    have hhp : h ∉ p :: ys := hh
    cases ys with
    | nil =>
      change (l.unlink p).next h = none
      rw [Links.unlink_next hp, Function.update_self]
      exact hrest
    | cons y ys =>
      obtain ⟨hn', hp', hrest⟩ := hrest
      have hyh : y ≠ h := by
        rintro rfl
        exact hhp (by simp)
      have hyys : y ∉ ys := (List.nodup_cons.mp (List.nodup_cons.mp hpy).2).1
      refine ⟨?_, ?_, hrest.congr ?_ ?_⟩
      · rw [Links.unlink_next hp, Function.update_self, hn']
      · rw [Links.unlink_prev_next hn', hp]
      · intro q hq
        rw [Links.unlink_next hp, Function.update_of_ne]
        rintro rfl
        exact hhp (List.mem_cons_of_mem p hq)
      · intro q hq
        refine Links.unlink_prev_of_ne fun heq => ?_
        cases hn'.symm.trans heq
        exact hyys hq
  | cons x xs ih =>
    obtain ⟨hn, hp, hrest⟩ := hc
    obtain ⟨hh, hnd'⟩ := List.nodup_cons.mp hnd
    obtain ⟨hx, hxs⟩ := List.nodup_cons.mp hnd'
    obtain ⟨⟨q, hq, hpq, -⟩, hafter, -⟩ := hrest.middle
    refine ⟨?_, ?_, ih hrest hnd'⟩
    · rw [Links.unlink_next hpq, Function.update_of_ne, hn]
      rintro rfl
      refine hh ?_
      rcases List.mem_cons.mp hq with rfl | hq
      · exact List.mem_cons_self
      · exact List.mem_cons_of_mem x (List.mem_append_left _ hq)
    · rw [Links.unlink_prev_of_ne, hp]
      intro heq
      rw [hafter] at heq
      refine hx (List.mem_append_right _ (List.mem_cons_of_mem p ?_))
      exact List.mem_of_mem_head? heq

/-- A node that is taken out keeps its own fields. -/
theorem Chain.unlink_self (hc : Chain l h (xs ++ p :: ys)) (hnd : (h :: (xs ++ p :: ys)).Nodup) :
    (l.unlink p).prev p = l.prev p ∧ (l.unlink p).next p = l.next p := by
  obtain ⟨⟨q, hpq, -, hne⟩, -, hafter⟩ := hc.neighbours hnd
  refine ⟨Links.unlink_prev_of_ne fun h => (hafter p h).1 rfl, ?_⟩
  rw [Links.unlink_next hpq, Function.update_of_ne hne.symm]

/-- Removal from a chain can be undone. -/
theorem Chain.relink_unlink (hc : Chain l h (xs ++ p :: ys))
    (hnd : (h :: (xs ++ p :: ys)).Nodup) : (l.unlink p).relink p = l := by
  obtain ⟨⟨q, hpq, hqp, hne⟩, -, hafter⟩ := hc.neighbours hnd
  exact Links.relink_unlink hpq hqp hne hafter

end RaftLabs.DancingLinks
