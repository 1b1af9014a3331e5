import RaftLabs.LinearizationSearch
import RaftLabs.Porcupine
import Mathlib.Data.Finset.Range
import Mathlib.Data.List.Forall2
import Mathlib.Data.List.Range

/-!
# What the parts of the checker do

The bitset is a finite set of numbers, of which the hash is a function.  The nodes
that `makeLinkedEntries` makes form a doubly linked list in the order of the
history in which every call points at its return.  `lift` and `unlift` are removal
from such a list and its undoing.
-/

namespace RaftLabs.Porcupine

open DancingLinks (Links Chain)
open Linearization (Timeline)

variable {σ I O : Type}

/-! ### The bitset -/

theorem getLsbD_bit {minor j : Nat} (hminor : minor < 64) (hj : j < 64) :
    (bit minor).toBitVec.getLsbD j = decide (j = minor) := by
  have hshift : (BitVec.ofNat 64 minor % 64).toNat = minor := by
    have hsize : (64 : BitVec 64).toNat = 64 := rfl
    rw [BitVec.toNat_umod, BitVec.toNat_ofNat, hsize]
    omega
  have hone : (1 : UInt64).toBitVec = 1#64 := rfl
  unfold bit
  rw [UInt64.toBitVec_shiftLeft]
  simp only [UInt64.toBitVec_ofNat', BitVec.shiftLeft_eq', BitVec.getLsbD_shiftLeft]
  rw [hshift, hone, BitVec.getLsbD_one]
  by_cases hlt : j < minor
  · simp [hlt]
    omega
  · simp [hlt, hj]
    omega

theorem length_newBitset (n : Nat) : n ≤ 64 * (newBitset n).chunks.length := by
  simp only [newBitset, List.length_replicate]
  split <;> omega

/-- The bitset has room for the numbers below `n` and holds those of `s`. -/
structure Bits (b : Bitset) (n : Nat) (s : Finset Nat) : Prop where
  length : b.chunks.length = (newBitset n).chunks.length
  bits : ∀ i chunk, b.chunks[i]? = some chunk → ∀ j < 64,
    chunk.toBitVec.getLsbD j = decide (64 * i + j ∈ s)

namespace Bits

variable {b b' : Bitset} {n pos : Nat} {s s' : Finset Nat}

theorem new (n : Nat) : Bits (newBitset n) n ∅ where
  length := rfl
  bits i chunk h j _ := by
    obtain rfl : chunk = 0 := List.eq_of_mem_replicate (List.mem_of_getElem? h)
    simp

/-- The chunk in which a number is kept. -/
theorem exists_chunk (h : Bits b n s) (hpos : pos < n) :
    ∃ chunk, b.chunks[pos / 64]? = some chunk := by
  have hlen := length_newBitset n
  rw [← h.length] at hlen
  exact ⟨_, List.getElem?_eq_getElem (by omega)⟩

/-- A change of one bit in the right chunk. -/
theorem store (h : Bits b n s) {chunk chunk' : UInt64}
    (hchunk : b.chunks[pos / 64]? = some chunk)
    (hbit : ∀ j < 64, chunk'.toBitVec.getLsbD j =
      if j = pos % 64 then decide (pos ∈ s') else chunk.toBitVec.getLsbD j)
    (hs' : ∀ k, k ≠ pos → (k ∈ s' ↔ k ∈ s)) :
    Bits ⟨b.chunks.set (pos / 64) chunk'⟩ n s' where
  length := by rw [List.length_set, h.length]
  bits i c hc j hj := by
    rw [List.getElem?_set] at hc
    by_cases hi : pos / 64 = i
    · rw [if_pos hi] at hc
      obtain rfl : chunk' = c := by
        split at hc
        · exact Option.some.inj hc
        · cases hc
      rw [hbit j hj]
      split
      · next hjpos =>
        congr 2
        omega
      · next hjpos =>
        rw [h.bits i chunk (hi ▸ hchunk) j hj]
        exact decide_eq_decide.mpr (hs' _ (by omega)).symm
    · rw [if_neg hi] at hc
      rw [h.bits i c hc j hj]
      exact decide_eq_decide.mpr (hs' _ (by omega)).symm

theorem set (h : Bits b n s) (hpos : pos < n) :
    ∃ b', b.set pos = some b' ∧ Bits b' n (insert pos s) := by
  obtain ⟨chunk, hchunk⟩ := h.exists_chunk hpos
  refine ⟨_, by simp only [Bitset.set, bitsetIndex, hchunk]; rfl, h.store hchunk ?_ ?_⟩
  · intro j hj
    rw [UInt64.toBitVec_or, BitVec.getLsbD_or, getLsbD_bit (Nat.mod_lt _ (by decide)) hj]
    split <;> simp_all
  · intro k hk
    simp [hk]

theorem clear (h : Bits b n s) (hpos : pos < n) :
    ∃ b', b.clear pos = some b' ∧ Bits b' n (s.erase pos) := by
  obtain ⟨chunk, hchunk⟩ := h.exists_chunk hpos
  refine ⟨_, by simp only [Bitset.clear, bitsetIndex, hchunk]; rfl, h.store hchunk ?_ ?_⟩
  · intro j hj
    rw [UInt64.toBitVec_and, UInt64.toBitVec_not, BitVec.getLsbD_and, BitVec.getLsbD_not,
      getLsbD_bit (Nat.mod_lt _ (by decide)) hj]
    split <;> simp_all
  · intro k hk
    simp [hk]

/-- The set determines the bitset, and with it the hash. -/
theorem unique (h : Bits b n s) (h' : Bits b' n s) : b = b' := by
  obtain ⟨chunks⟩ := b
  obtain ⟨chunks'⟩ := b'
  congr 1
  have hlen : chunks.length = chunks'.length := h.length.trans h'.length.symm
  refine List.ext_getElem hlen fun i hi hi' => UInt64.toBitVec_inj.mp ?_
  refine BitVec.eq_of_getLsbD_eq fun j hj => ?_
  rw [h.bits i _ (List.getElem?_eq_getElem hi) j hj,
    h'.bits i _ (List.getElem?_eq_getElem hi') j hj]

theorem mem_iff (h : Bits b n s) (hpos : pos < n) :
    ∃ chunk, b.chunks[pos / 64]? = some chunk ∧
      chunk.toBitVec.getLsbD (pos % 64) = decide (pos ∈ s) := by
  obtain ⟨chunk, hchunk⟩ := h.exists_chunk hpos
  refine ⟨chunk, hchunk, ?_⟩
  rw [h.bits _ chunk hchunk _ (Nat.mod_lt _ (by decide)), Nat.div_add_mod]

/-- And the bitset determines the set. -/
theorem eq_of_bitset (h : Bits b n s) (h' : Bits b n s') (hs : ∀ k ∈ s, k < n)
    (hs' : ∀ k ∈ s', k < n) : s = s' := by
  ext k
  by_cases hk : k < n
  · obtain ⟨chunk, hchunk, hbit⟩ := h.mem_iff hk
    obtain ⟨chunk', hchunk', hbit'⟩ := h'.mem_iff hk
    cases hchunk.symm.trans hchunk'
    exact decide_eq_decide.mp (hbit.symm.trans hbit')
  · exact iff_of_false (fun h => hk (hs k h)) (fun h => hk (hs' k h))

end Bits

theorem Bitset.equals_iff (b b' : Bitset) : b.equals b' = true ↔ b = b' := by
  obtain ⟨chunks⟩ := b
  obtain ⟨chunks'⟩ := b'
  simp only [Bitset.equals, mk.injEq]
  split
  · next hne =>
    refine iff_of_false (by simp) ?_
    rintro rfl
    exact hne rfl
  · next hlen =>
    rw [not_not] at hlen
    refine ⟨fun h => ?_, ?_⟩
    · refine List.ext_getElem hlen fun i hi hi' => ?_
      have hmem : (chunks[i], chunks'[i]) ∈ chunks.zip chunks' := by
        rw [List.mem_iff_getElem?]
        exact ⟨i, by simp [hi, hi']⟩
      simpa using List.all_eq_true.mp h _ hmem
    · rintro rfl
      simp [List.zip_eq_zipWith, List.zipWith_self]

/-! ### The list of entries -/

section Entries

variable {n : Nat} (t : Timeline n) (input : Fin n → I) (output : Fin n → O)

/-- The address of the node of a call or return. -/
def place (m : Fin n × Bool) : Ptr := t.marks.idxOf m

def valueOf (m : Fin n × Bool) : Value I O := if m.2 then .ret (output m.1) else .call (input m.1)

def nodeOf (m : Fin n × Bool) : Node I O where
  value := some (valueOf input output m)
  mate := if m.2 then none else some (place t (m.1, true))
  id := m.1.val

/-- The entries are the calls and returns of the timeline with their values. -/
def Records (entries : List (Entry I O)) : Prop :=
  entries.map (fun e => (e.value, e.id)) =
    t.marks.map fun m => (valueOf input output m, (m.1.val : Int))

@[simp] theorem isReturn_valueOf (m : Fin n × Bool) :
    (valueOf input output m).isReturn = m.2 := by
  obtain ⟨x, returned⟩ := m
  cases returned <;> rfl

theorem place_inj {m m' : Fin n × Bool} : place t m = place t m' ↔ m = m' := by
  refine ⟨fun h => ?_, fun h => h ▸ rfl⟩
  exact (List.idxOf_inj (t.complete m)).mp h

theorem place_lt (m : Fin n × Bool) : place t m < t.marks.length :=
  List.idxOf_lt_length_of_mem (t.complete m)

variable {t input output}

/-- What `makeLinkedEntries` has made of the last marks `ms`. -/
structure Linked (t : Timeline n) (input : Fin n → I) (output : Fin n → O)
    (ms : List (Fin n × Bool)) (acc : Linking I O) : Prop where
  root : acc.root = (ms.map (place t)).head?
  chain : ∀ r ps, ms.map (place t) = r :: ps →
    Chain acc.heap.links r ps ∧ acc.heap.links.prev r = none
  fresh : ∀ p, p ∉ ms.map (place t) → acc.heap.links.next p = none ∧ acc.heap.links.prev p = none
  mates : ∀ x, (x, true) ∈ ms → acc.mates (x.val : Int) = some (place t (x, true))
  nodes : ∀ m ∈ ms, acc.heap.node (place t m) = some (nodeOf t input output m)

/-- Insertion in front of the list. -/
theorem insertBefore_front {l : Links Ptr} {p r : Ptr} (h : l.prev r = none) :
    insertBefore l p (some r) = (l.setPrev (some r) (some p)).setNext (some p) (some r) := by
  simp [insertBefore, h]

theorem Linked.cons {pre ms : List (Fin n × Bool)} {m : Fin n × Bool} {acc : Linking I O}
    {e : Entry I O} (h : Linked t input output ms acc) (hmarks : t.marks = pre ++ m :: ms)
    (hvalue : e.value = valueOf input output m) (hid : e.id = m.1.val) :
    Linked t input output (m :: ms) (linkEntry e pre.length acc) := by
  have hnd := t.nodup
  rw [hmarks] at hnd
  obtain ⟨-, hmms, hdisj⟩ := List.nodup_append.mp hnd
  have hm : m ∉ ms := (List.nodup_cons.mp hmms).1
  have hpre : m ∉ pre := fun hpre => hdisj m hpre m List.mem_cons_self rfl
  have hplace : place t m = pre.length := by
    rw [place, hmarks, List.idxOf_append_of_notMem hpre, List.idxOf_cons_self, Nat.add_zero]
  have hplaces : place t m ∉ ms.map (place t) := by
    intro hmem
    obtain ⟨m', hm', heq⟩ := List.mem_map.mp hmem
    exact hm ((place_inj t).mp heq ▸ hm')
  have hnodup : ((m :: ms).map (place t)).Nodup :=
    hmms.map fun _ _ heq => (place_inj t).mp heq
  have hnew : e.value.isReturn = m.2 := by simp [hvalue]
  rw [← hplace]
  constructor
  · rfl
  · rintro r ps hps
    cases hps
    cases hms : ms.map (place t) with
    | nil =>
      have hroot : acc.root = none := by rw [h.root, hms]; rfl
      simpa [linkEntry, hroot, insertBefore, Heap.alloc, Chain] using h.fresh _ hplaces
    | cons r ps =>
      have hroot : acc.root = some r := by rw [h.root, hms]; rfl
      obtain ⟨hchain, hprev⟩ := h.chain r ps hms
      rw [List.map_cons, hms] at hnodup
      have hne : place t m ≠ r :=
        fun heq => (List.nodup_cons.mp hnodup).1 (heq ▸ List.mem_cons_self)
      simp only [linkEntry, hroot, Heap.alloc, insertBefore_front hprev]
      refine ⟨hchain.insertFront (List.nodup_cons.mp hnodup).1
        (List.nodup_cons.mp (List.nodup_cons.mp hnodup).2).1, ?_⟩
      simpa [Links.setPrev, hne] using (h.fresh _ hplaces).2
  · intro p hp
    rw [List.map_cons, List.mem_cons, not_or] at hp
    have hfresh := h.fresh p hp.2
    cases hms : ms.map (place t) with
    | nil =>
      have hroot : acc.root = none := by rw [h.root, hms]; rfl
      simpa [linkEntry, hroot, insertBefore, Heap.alloc] using hfresh
    | cons r ps =>
      have hroot : acc.root = some r := by rw [h.root, hms]; rfl
      have hpr : p ≠ r := by
        rintro rfl
        exact hp.2 (hms ▸ List.mem_cons_self)
      simpa [linkEntry, hroot, Heap.alloc, insertBefore_front (h.chain r ps hms).2,
        Links.setPrev, Links.setNext, hpr, hp.1] using hfresh
  · intro x hx
    simp only [linkEntry, hnew, hid]
    by_cases hxm : (x, true) = m
    · subst hxm
      simp
    · have hx : (x, true) ∈ ms := (List.mem_cons.mp hx).resolve_left hxm
      split
      · next hret =>
        have hne : (x.val : Int) ≠ m.1.val := by
          intro heq
          refine hxm (Prod.ext (Fin.ext (by exact_mod_cast heq)) hret.symm)
        rw [Function.update_of_ne hne]
        exact h.mates x hx
      · exact h.mates x hx
  · intro m' hm'
    simp only [linkEntry, Heap.alloc]
    by_cases hmm' : m' = m
    · subst hmm'
      rw [Function.update_self, nodeOf, hnew, hvalue, hid]
      congr 2
      split
      · rfl
      · -- the return of this call stands behind it
        next hcall =>
        obtain ⟨x, returned⟩ := m'
        obtain rfl : returned = false := by simpa using hcall
        exact h.mates x (t.return_mem hmarks)
    · have hne : place t m' ≠ place t m := fun heq => hmm' ((place_inj t).mp heq)
      rw [Function.update_of_ne hne]
      exact h.nodes m' ((List.mem_cons.mp hm').resolve_left hmm')

/-- What `makeLinkedEntries` makes. -/
theorem linked_makeLinkedEntries {entries : List (Entry I O)}
    (hrecords : Records t input output entries) :
    Linked t input output t.marks (makeLinkedEntries entries) := by
  suffices hsuffix : ∀ (ms pre : List (Fin n × Bool)) (es : List (Entry I O)),
      t.marks = pre ++ ms →
      es.map (fun e => (e.value, e.id)) =
        ms.map (fun m => (valueOf input output m, (m.1.val : Int))) →
      Linked t input output ms ((es.zipIdx pre.length).foldr (fun e acc => linkEntry e.1 e.2 acc)
        { root := none, mates := fun _ => none, heap := Heap.empty }) from
    hsuffix t.marks [] entries rfl hrecords
  intro ms
  induction ms with
  | nil =>
    intro pre es _ hes
    obtain rfl : es = [] := by simpa using hes
    exact ⟨rfl, by simp, fun _ _ => ⟨rfl, rfl⟩, by simp, by simp⟩
  | cons m ms ih =>
    intro pre es hmarks hes
    cases es with
    | nil => simp at hes
    | cons e es =>
      simp only [List.map_cons, List.cons.injEq, Prod.mk.injEq] at hes
      obtain ⟨⟨hvalue, hid⟩, hes⟩ := hes
      have hrest := ih (pre ++ [m]) es (by simp [hmarks]) hes
      rw [List.length_append, List.length_singleton] at hrest
      exact hrest.cons hmarks hvalue hid

theorem length_of_chain {l : Links Ptr} {p : Ptr} {ps : List Ptr} {fuel : Nat}
    (h : Chain l p ps) (hfuel : ps.length < fuel) :
    length l fuel (some p) = some (ps.length + 1) := by
  induction ps generalizing p fuel with
  | nil =>
    obtain ⟨fuel, rfl⟩ := Nat.exists_eq_succ_of_ne_zero (Nat.ne_of_gt hfuel)
    have hnone : l.next p = none := h
    simp [length, hnone]
  | cons q qs ih =>
    obtain ⟨fuel, rfl⟩ :=
      Nat.exists_eq_succ_of_ne_zero (Nat.ne_of_gt (Nat.lt_of_le_of_lt (Nat.zero_le _) hfuel))
    obtain ⟨hn, -, hrest⟩ := h
    simp only [length, hn, ih hrest (Nat.lt_of_succ_lt_succ hfuel)]
    rfl

end Entries

/-! ### `lift` and `unlift` -/

section Lift

variable {h : Heap I O} {l : Links Ptr} {hd p q : Ptr} {xs ys zs : List Ptr} {node : Node I O}

/-- What `lift` does to a list in which a call and its return stand. -/
theorem lift_eq (hc : Chain h.links hd (xs ++ p :: (ys ++ q :: zs)))
    (hnd : (hd :: (xs ++ p :: (ys ++ q :: zs))).Nodup) (hnode : h.node p = some node)
    (hmate : node.mate = some q) :
    lift h p = some { h with links := (h.links.unlink p).unlink q } := by
  obtain ⟨⟨b, hb, -, hbp⟩, hafter, -⟩ := hc.neighbours hnd
  obtain ⟨a, ha⟩ : ∃ a, h.links.next p = some a := by
    rw [hafter]
    cases ys <;> exact ⟨_, rfl⟩
  have hc' := hc.unlink hnd
  have hnd' : (hd :: (xs ++ (ys ++ q :: zs))).Nodup :=
    hnd.sublist ((List.sublist_cons_self p _).append_left xs |>.cons_cons hd)
  rw [← List.append_assoc] at hc' hnd'
  obtain ⟨⟨b', hb', -, hbq⟩, -⟩ := hc'.neighbours hnd'
  have hfirst : ((h.links.setNext (some b) (some a)).setPrev (some a) (some b)) =
      h.links.unlink p := by
    rw [Links.unlink, hb, ha]
  have hnext : (h.links.setNext (some b) (some a)).next p = some a := by
    simp [Links.setNext, hbp.symm, ha]
  have hnext' : ((h.links.unlink p).setNext (some b') ((h.links.unlink p).next q)).next q =
      (h.links.unlink p).next q := by
    simp [Links.setNext, hbq.symm]
  have hsecond : ((h.links.unlink p).setNext (some b') ((h.links.unlink p).next q)).setPrev
      ((h.links.unlink p).next q) (some b') = (h.links.unlink p).unlink q := by
    rw [← hb']
    rfl
  simp only [lift, hb, ha, hnext, hnode, hmate, Links.setNext_prev, hfirst, hb', hnext', hsecond,
    Option.bind_eq_bind, Option.bind_some, Option.pure_def]

/-- `unlift` undoes `lift`. -/
theorem unlift_eq (hc : Chain l hd (xs ++ p :: (ys ++ q :: zs)))
    (hnd : (hd :: (xs ++ p :: (ys ++ q :: zs))).Nodup) (hnode : h.node p = some node)
    (hmate : node.mate = some q) (hl : h.links = (l.unlink p).unlink q) :
    unlift h p = some { h with links := l } := by
  obtain ⟨⟨b, hb, -, hbp⟩, hafter, -⟩ := hc.neighbours hnd
  obtain ⟨a, ha⟩ : ∃ a, l.next p = some a := by
    rw [hafter]
    cases ys <;> exact ⟨_, rfl⟩
  have hc' := hc.unlink hnd
  have hnd' : (hd :: (xs ++ (ys ++ q :: zs))).Nodup :=
    hnd.sublist ((List.sublist_cons_self p _).append_left xs |>.cons_cons hd)
  rw [← List.append_assoc] at hc' hnd'
  obtain ⟨⟨b', hb', -, hbq⟩, -⟩ := hc'.neighbours hnd'
  obtain ⟨hprevq, hnextq⟩ := hc'.unlink_self hnd'
  obtain ⟨hprevp, hnextp⟩ := hc.unlink_self hnd
  -- first the return goes back, then the call
  have hq := hc'.relink_unlink hnd'
  have hp := hc.relink_unlink hnd
  rw [← hl] at hq hprevq hnextq
  have hnext : (h.links.setNext (some b') (some q)).next q = h.links.next q := by
    simp [Links.setNext, hbq.symm]
  have hreturn : (h.links.setNext (some b') (some q)).setPrev (h.links.next q) (some q) =
      l.unlink p := by
    rw [← hq, Links.relink, hprevq, hb']
  have hnext' : ((l.unlink p).setNext (some b) (some p)).next p = some a := by
    simp [Links.setNext, hbp.symm, hnextp, ha]
  have hcall : ((l.unlink p).setNext (some b) (some p)).setPrev (some a) (some p) = l := by
    rw [← hb, ← hprevp, ← ha, ← hnextp]
    exact hp
  simp only [unlift, hnode, hmate, hprevq, hb', hnext, hreturn, hprevp, hb, hnext', hcall,
    Option.bind_eq_bind, Option.bind_some, Option.pure_def]

end Lift

end RaftLabs.Porcupine
