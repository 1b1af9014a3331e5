import Mathlib.Data.List.Dedup
import Mathlib.Data.List.Nodup
import Mathlib.Data.List.Perm.Basic

/-!
# Grouping by key

Pairs are grouped by key: in one pass over a list that is sorted by key (`runs`),
and as a specification without an order (`reduceBy`).  A function that does not
depend on the order of the values gives the same results, up to order, however the
pairs are arranged and into however many parts the keys are divided.
-/

namespace RaftLabs.KeyGroups

variable {κ β δ : Type} [DecidableEq κ]

/-! ### One pass over the pairs -/

/-- Go on with a run of `key` that has the values `values` so far. -/
def runsFrom (key : κ) (values : List β) : List (κ × β) → List (κ × List β)
  | [] => [(key, values)]
  | (k, v) :: rest =>
    if k = key then runsFrom key (values ++ [v]) rest
    else (key, values) :: runsFrom k [v] rest

/-- The runs of equal keys, each with its values. -/
def runs : List (κ × β) → List (κ × List β)
  | [] => []
  | (k, v) :: rest => runsFrom k [v] rest

/-! ### Keys and their values -/

def keys (l : List (κ × β)) : List κ := (l.map Prod.fst).dedup

def valuesOf (k : κ) (l : List (κ × β)) : List β := (l.filter fun x => x.1 = k).map Prod.snd

/-- `f` for every key, with all the values of the key. -/
def reduceBy (f : κ → List β → δ) (l : List (κ × β)) : List δ :=
  (keys l).map fun k => f k (valuesOf k l)

variable {l l' : List (κ × β)} {k : κ} {f : κ → List β → δ}

theorem mem_keys : k ∈ keys l ↔ ∃ v, (k, v) ∈ l := by
  simp [keys]

theorem nodup_keys (l : List (κ × β)) : (keys l).Nodup := List.nodup_dedup _

theorem valuesOf_eq_nil (h : k ∉ keys l) : valuesOf k l = [] := by
  simp only [valuesOf, List.map_eq_nil_iff, List.filter_eq_nil_iff, decide_eq_true_eq]
  rintro ⟨k', v⟩ hx rfl
  exact h (mem_keys.mpr ⟨v, hx⟩)

/-- The values of a key do not depend on the pairs with other keys. -/
theorem valuesOf_filter {p : κ → Bool} (hk : p k = true) :
    valuesOf k (l.filter fun x => p x.1) = valuesOf k l := by
  unfold valuesOf
  rw [List.filter_filter]
  congr 1
  refine List.filter_congr fun x _ => ?_
  by_cases hx : x.1 = k
  · simp [hx, hk]
  · simp [hx]

/-- The keys of some of the pairs, chosen by key. -/
theorem keys_filter_perm (p : κ → Bool) (l : List (κ × β)) :
    (keys (l.filter fun x => p x.1)).Perm ((keys l).filter p) := by
  rw [List.perm_ext_iff_of_nodup (nodup_keys _) ((nodup_keys l).filter _)]
  intro k
  simp only [mem_keys, List.mem_filter]
  exact ⟨fun ⟨v, hv, hk⟩ => ⟨⟨v, hv⟩, hk⟩, fun ⟨⟨v, hv⟩, hk⟩ => ⟨v, hv, hk⟩⟩

theorem reduceBy_filter_perm (f : κ → List β → δ) (p : κ → Bool) (l : List (κ × β)) :
    (reduceBy f (l.filter fun x => p x.1)).Perm
      (((keys l).filter p).map fun k => f k (valuesOf k l)) := by
  have hvalues : reduceBy f (l.filter fun x => p x.1) =
      (keys (l.filter fun x => p x.1)).map fun k => f k (valuesOf k l) := by
    refine List.map_congr_left fun k hk => ?_
    obtain ⟨v, hv⟩ := mem_keys.mp hk
    rw [valuesOf_filter (List.mem_filter.mp hv).2]
  rw [hvalues]
  exact (keys_filter_perm p l).map _

/-- One key first, and then the others. -/
theorem reduceBy_cons_perm (f : κ → List β → δ) (k : κ) (v : β) (l : List (κ × β)) :
    (reduceBy f ((k, v) :: l)).Perm
      (f k (v :: valuesOf k l) :: reduceBy f (l.filter fun x => x.1 ≠ k)) := by
  have hkeys : (keys ((k, v) :: l)).Perm (k :: keys (l.filter fun x => x.1 ≠ k)) := by
    rw [List.perm_ext_iff_of_nodup (nodup_keys _)
      (List.nodup_cons.mpr ⟨by simp [mem_keys], nodup_keys _⟩)]
    intro k'
    by_cases hk : k' = k
    · simp [mem_keys, hk]
    · simp [mem_keys, hk]
  have hvalues : (k :: keys (l.filter fun x => x.1 ≠ k)).map
      (fun k' => f k' (valuesOf k' ((k, v) :: l))) =
      f k (v :: valuesOf k l) :: reduceBy f (l.filter fun x => x.1 ≠ k) := by
    rw [List.map_cons]
    congr 1
    · simp [valuesOf]
    · refine List.map_congr_left fun k' hk' => ?_
      obtain ⟨v', hv'⟩ := mem_keys.mp hk'
      have hne : k' ≠ k := by simpa using (List.mem_filter.mp hv').2
      rw [valuesOf_filter (p := fun k' => decide (k' ≠ k)) (by simpa using hne)]
      simp [valuesOf, hne.symm]
  rw [← hvalues]
  exact hkeys.map _

/-- The order of the pairs does not matter to a function that does not depend on the
    order of the values. -/
theorem reduceBy_perm (hf : ∀ k vs vs', vs.Perm vs' → f k vs = f k vs') (h : l.Perm l') :
    (reduceBy f l).Perm (reduceBy f l') := by
  have hvalues : reduceBy f l = (keys l).map fun k => f k (valuesOf k l') :=
    List.map_congr_left fun k _ => hf k _ _ ((h.filter _).map _)
  rw [hvalues]
  exact ((h.map _).dedup).map _

/-! ### Sorted pairs -/

section Sorted

variable {r : κ → κ → Prop} [Std.Antisymm r]

theorem map_runsFrom_perm (f : κ → List β → δ) {rest : List (κ × β)}
    (hsorted : rest.Pairwise fun x y => r x.1 y.1) {key : κ} (hkey : ∀ x ∈ rest, r key x.1)
    (values : List β) :
    ((runsFrom key values rest).map fun g => f g.1 g.2).Perm
      (f key (values ++ valuesOf key rest) :: reduceBy f (rest.filter fun x => x.1 ≠ key)) := by
  induction rest generalizing key values with
  | nil => simp [runsFrom, valuesOf, reduceBy, keys]
  | cons x rest ih =>
    obtain ⟨k, v⟩ := x
    obtain ⟨hk, hrest⟩ := List.pairwise_cons.mp hsorted
    unfold runsFrom
    split
    · next heq =>
      subst heq
      have hih := ih hrest hk (values ++ [v])
      simpa [valuesOf] using hih
    · next hne =>
      -- the run is over: the key does not come again
      have hnot : ∀ y ∈ rest, y.1 ≠ key := by
        intro y hy heq
        exact hne (Std.Antisymm.antisymm k key (heq ▸ hk y hy) (hkey (k, v) List.mem_cons_self))
      have hvalues : valuesOf key ((k, v) :: rest) = [] := by
        refine valuesOf_eq_nil fun hmem => ?_
        obtain ⟨v', hv'⟩ := mem_keys.mp hmem
        rcases List.mem_cons.mp hv' with heq | hv'
        · cases heq
          exact hne rfl
        · exact hnot _ hv' rfl
      have hfilter : ((k, v) :: rest).filter (fun x => x.1 ≠ key) = (k, v) :: rest := by
        refine List.filter_eq_self.mpr fun y hy => ?_
        rcases List.mem_cons.mp hy with rfl | hy
        · simpa using hne
        · simpa using hnot y hy
      rw [hvalues, hfilter, List.append_nil, List.map_cons]
      exact ((ih hrest hk [v]).trans (reduceBy_cons_perm f k v rest).symm).cons _

/-- In a sorted list the runs are the groups. -/
theorem map_runs_perm (f : κ → List β → δ) (hsorted : l.Pairwise fun x y => r x.1 y.1) :
    ((runs l).map fun g => f g.1 g.2).Perm (reduceBy f l) := by
  cases l with
  | nil => exact .nil
  | cons x rest =>
    obtain ⟨k, v⟩ := x
    obtain ⟨hk, hrest⟩ := List.pairwise_cons.mp hsorted
    exact (map_runsFrom_perm f hrest hk [v]).trans (reduceBy_cons_perm f k v rest).symm

end Sorted

/-! ### Parts -/

/-- The parts of a list by key make up the list. -/
theorem flatMap_filter_perm {α : Type} {key : α → κ} {ks : List κ} (hks : ks.Nodup) {l : List α}
    (hl : ∀ a ∈ l, key a ∈ ks) : (ks.flatMap fun k => l.filter fun a => key a = k).Perm l := by
  induction ks generalizing l with
  | nil =>
    cases l with
    | nil => exact .nil
    | cons a l => cases hl a List.mem_cons_self
  | cons k ks ih =>
    obtain ⟨hk, hks⟩ := List.nodup_cons.mp hks
    have hrest := ih hks (l := l.filter fun a => !decide (key a = k)) fun a ha => by
      obtain ⟨ha, hak⟩ := List.mem_filter.mp ha
      exact (List.mem_cons.mp (hl a ha)).resolve_left (by simpa using hak)
    have hsame : (ks.flatMap fun k' => (l.filter fun a => !decide (key a = k)).filter
          fun a => key a = k') = ks.flatMap fun k' => l.filter fun a => key a = k' := by
      refine List.flatMap_congr fun k' hk' => ?_
      rw [List.filter_filter]
      refine List.filter_congr fun a _ => ?_
      have hne : k' ≠ k := fun h => hk (h ▸ hk')
      by_cases hak : key a = k' <;> simp [hak, hne]
    rw [hsame] at hrest
    rw [List.flatMap_cons]
    exact (hrest.append_left _).trans (List.filter_append_perm _ l)

/-- Reducing each part by itself is reducing the whole. -/
theorem flatMap_reduceBy_perm (f : κ → List β → δ) {h : κ → Nat} {n : Nat}
    (hlt : ∀ x ∈ l, h x.1 < n) :
    ((List.range n).flatMap fun b => reduceBy f (l.filter fun x => h x.1 = b)).Perm
      (reduceBy f l) := by
  have hparts : ((List.range n).flatMap fun b => reduceBy f (l.filter fun x => h x.1 = b)).Perm
      ((List.range n).flatMap fun b =>
        ((keys l).filter fun k => h k = b).map fun k => f k (valuesOf k l)) :=
    List.Perm.flatMap_left _ fun b _ => reduceBy_filter_perm f (fun k => decide (h k = b)) l
  refine hparts.trans ?_
  rw [← List.map_flatMap]
  refine (flatMap_filter_perm List.nodup_range fun k hk => ?_).map _
  obtain ⟨v, hv⟩ := mem_keys.mp hk
  exact List.mem_range.mpr (hlt _ hv)

end RaftLabs.KeyGroups
