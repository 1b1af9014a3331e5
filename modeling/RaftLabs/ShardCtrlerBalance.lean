import RaftLabs.EvenShares
import RaftLabs.ShardCtrlerConfigs
import Mathlib.Data.Fin.VecNotation

/-!
# How evenly shards are spread, and how many move

`rebalance` deals the shards out to the groups in the order of their ids, so the
groups with small ids get the larger shares.  A group that has its share or less keeps
all its shards, and a group that has its share or more gets none.

`rebalance` means to move as few shards as possible.  It does if the larger shares go
to groups that can fill them, and only then: with loads 5 and 5 of groups 2 and 3, the
larger of three shares goes to the new group 1, and one shard more than needed moves.
Between configurations that it has dealt itself, `Join` and `Leave` only touch the
groups that come or go, because no share of a group that stays grows on a `Join` or
shrinks on a `Leave`.
-/

namespace RaftLabs.Ctrl

variable {N : Nat} {γ : Type}

/-! ### Shares by rank -/

theorem keys_subset {groups groups' : Groups γ} (hsub : ∀ x, x ∈ groups → x ∈ groups') :
    groups.keys ⊆ groups'.keys := by
  intro x hx
  exact Finmap.mem_keys.mpr (hsub x (Finmap.mem_keys.mp hx))

variable [LinearOrder γ]

/-- The place of a group among the sorted ids, counted from 0. -/
def rank (groups : Groups γ) (g : γ) : Nat := (groups.keys.filter fun x => x < g).card

/-- What a group is dealt. -/
def shareOf (N : Nat) (groups : Groups γ) (g : γ) : Nat :=
  share N groups.keys.card (rank groups g)

section Rank

variable {groups groups' : Groups γ} {g : γ}

theorem rank_lt_card (hg : g ∈ groups) : rank groups g < groups.keys.card := by
  refine Finset.card_lt_card (Finset.filter_ssubset.mpr ⟨g, Finmap.mem_keys.mpr hg, ?_⟩)
  exact lt_irrefl g

theorem rank_le_rank (hsub : ∀ x, x ∈ groups → x ∈ groups') (g : γ) :
    rank groups g ≤ rank groups' g :=
  Finset.card_le_card (Finset.filter_subset_filter _ (keys_subset hsub))

/-- In a strictly sorted list an element stands behind those that are smaller. -/
theorem filter_lt_eq_take {l : List γ} (hl : l.Pairwise (· < ·)) {i : Nat} (hi : l[i]? = some g) :
    l.filter (fun x => decide (x < g)) = l.take i := by
  obtain ⟨hlt, heq⟩ := List.getElem?_eq_some_iff.mp hi
  have hsplit : l = l.take i ++ g :: l.drop (i + 1) := by
    rw [← heq, List.cons_getElem_drop_succ, List.take_append_drop]
  have hpair := hl
  rw [hsplit, List.pairwise_append, List.pairwise_cons] at hpair
  obtain ⟨-, ⟨hafter, -⟩, hbefore⟩ := hpair
  have hleft : (l.take i).filter (fun x => decide (x < g)) = l.take i :=
    List.filter_eq_self.mpr fun x hx => decide_eq_true (hbefore x hx g List.mem_cons_self)
  have hright : (g :: l.drop (i + 1)).filter (fun x => decide (x < g)) = [] := by
    refine List.filter_eq_nil_iff.mpr fun x hx => ?_
    rcases List.mem_cons.mp hx with rfl | hx
    · simp
    · simpa using (hafter x hx).le
  conv_lhs => rw [hsplit]
  rw [List.filter_append, hleft, hright, List.append_nil]

/-- The sorted ids have each group at its rank. -/
theorem Enumerates.getElem?_rank {order : List γ} (h : Enumerates order groups)
    (hg : g ∈ groups) : (order.insertionSort (· ≤ ·))[rank groups g]? = some g := by
  have hperm : (order.insertionSort (· ≤ ·)).Perm order := List.perm_insertionSort _ _
  have hsorted : (order.insertionSort (· ≤ ·)).Pairwise (· < ·) := by
    have hnodup : (order.insertionSort (· ≤ ·)).Nodup := hperm.nodup_iff.mpr h.nodup
    refine (List.pairwise_insertionSort (· ≤ ·) order).imp₂ ?_ hnodup
    exact fun a b hle hne => lt_of_le_of_ne hle hne
  obtain ⟨i, hi⟩ := List.mem_iff_getElem?.mp (hperm.mem_iff.mpr (h.mem_iff.mpr hg))
  have hrank : rank groups g = i := by
    have hkeys : (groups.keys.filter fun x => x < g).val =
        ((order.insertionSort (· ≤ ·)).filter fun x => decide (x < g) : List γ) := by
      rw [Finset.filter_val, ← h, ← Multiset.coe_eq_coe.mpr hperm, Multiset.filter_coe]
    rw [rank, Finset.card_def, hkeys, filter_lt_eq_take hsorted hi, Multiset.coe_card,
      List.length_take]
    exact min_eq_left (List.getElem?_eq_some_iff.mp hi).1.le
  rw [hrank]
  exact hi

theorem Enumerates.length_sort {order : List γ} (h : Enumerates order groups) :
    (order.insertionSort (· ≤ ·)).length = groups.keys.card := by
  rw [List.length_insertionSort, Finset.card_def, ← h, Multiset.coe_card]

/-- The targets deal the shards out in turn. -/
theorem targets_eq_shareOf {order : List γ} (h : Enumerates order groups) (hg : g ∈ groups) :
    targets N (order.insertionSort (· ≤ ·)) g = shareOf N groups g := by
  have hnodup : (order.insertionSort (· ≤ ·)).Nodup :=
    (List.perm_insertionSort _ _).nodup_iff.mpr h.nodup
  rw [targets_of_getElem hnodup (h.getElem?_rank hg), h.length_sort, shareOf, share]
  split <;> rfl

/-- With more groups no share grows. -/
theorem shareOf_antitone (hsub : ∀ x, x ∈ groups → x ∈ groups') (hg : g ∈ groups) :
    shareOf N groups' g ≤ shareOf N groups g :=
  share_le_share (rank_lt_card hg) (rank_lt_card (hsub g hg))
    (Finset.card_le_card (keys_subset hsub)) (rank_le_rank hsub g)

end Rank

/-! ### What `rebalance` does -/

/-- What `rebalance` makes of `c`: everyone has the share that is theirs, and shards only
    go from groups that had more to groups that had less. -/
structure Rebalanced (c c' : Config N γ) : Prop where
  num : c'.num = c.num
  groups : c'.groups = c.groups
  mem : ∀ s, c'.shards s ∈ c.groups
  load : ∀ g ∈ c.groups, (owned c'.shards g).card = shareOf N c.groups g
  leaves : ∀ s, c'.shards s ≠ c.shards s → c.shards s ∈ c.groups →
    shareOf N c.groups (c.shards s) < (owned c.shards (c.shards s)).card
  comes : ∀ s, c'.shards s ≠ c.shards s →
    (owned c.shards (c'.shards s)).card < shareOf N c.groups (c'.shards s)

section Rebalance

variable [Zero γ] {order : List γ} {c : Config N γ}

theorem rebalance_rebalanced (horder : Enumerates order c.groups) (h0 : (0 : γ) ∉ c.groups)
    (hne : c.groups ≠ ∅) : ∃ c', rebalance order c = .ok c' ∧ Rebalanced c c' := by
  obtain ⟨c', hc', hnum, hgroups, hshards, hloads, hmoves⟩ :=
    rebalance_spec (N := N) horder h0 hne
  refine ⟨c', hc', hnum, hgroups, hshards, ?_, ?_, ?_⟩
  · intro g hg
    rw [hloads g hg, targets_eq_shareOf horder hg]
  · intro s hs hin
    obtain ⟨hold, -⟩ := (hmoves s).resolve_left hs
    rw [targets_eq_shareOf horder hin] at hold
    exact hold.resolve_left (not_not_intro hin)
  · intro s hs
    obtain ⟨-, hnew⟩ := (hmoves s).resolve_left hs
    rwa [targets_eq_shareOf horder (hshards s)] at hnew

/-- Whatever it is given, `rebalance` ends, every shard has a group, and the group
    with the `i`-th smallest id has the `i`-th share. -/
theorem rebalance_balances (horder : Enumerates order c.groups) (h0 : (0 : γ) ∉ c.groups)
    (hne : c.groups ≠ ∅) :
    ∃ c', rebalance order c = .ok c' ∧ c'.num = c.num ∧ c'.groups = c.groups ∧
      (∀ s, c'.shards s ∈ c.groups) ∧
      (∀ g ∈ c.groups, (owned c'.shards g).card = N / c.groups.keys.card +
        if rank c.groups g < N % c.groups.keys.card then 1 else 0) ∧
      ∀ g ∈ c.groups, ∀ g' ∈ c.groups,
        (owned c'.shards g).card ≤ (owned c'.shards g').card + 1 := by
  obtain ⟨c', hc', hreb⟩ := rebalance_rebalanced horder h0 hne
  refine ⟨c', hc', hreb.num, hreb.groups, hreb.mem, hreb.load, ?_⟩
  intro g hg g' hg'
  rw [hreb.load g hg, hreb.load g' hg']
  exact share_le_add_one _ _ _ _

/-- A check on the result of an evaluated `rebalance`. -/
theorem exists_rebalance_of_any (order : List γ) (c : Config N γ) (P : Config N γ → Bool)
    (h : (rebalance order c).toOption.any P = true) :
    ∃ c', rebalance order c = .ok c' ∧ P c' = true := by
  cases hc : rebalance order c with
  | error e =>
    rw [hc] at h
    cases h
  | ok c' =>
    rw [hc] at h
    exact ⟨c', rfl, h⟩

end Rebalance

/-- Groups without servers. -/
def groupsOf (gids : List Int) : Groups Int := gids.foldr (fun g groups => groups.insert g []) ∅

/-- Of groups 1 and 3 the second has nearly all shards; shard 0 has no group and shard 1
    has one that is unknown. -/
def skewed : Config NShards Int where
  num := 4
  shards := ![0, 9, 3, 3, 3, 3, 3, 3, 3, 1]
  groups := groupsOf [1, 3]

theorem rebalance_balances_skewed :
    ∃ c', rebalance [3, 1] skewed = .ok c' ∧ (owned c'.shards 1).card = 5 ∧
      (owned c'.shards 3).card = 5 := by
  have horder : Enumerates [3, 1] skewed.groups := by decide
  obtain ⟨c', hc', -, -, -, hloads, -⟩ := rebalance_balances horder (by decide) (by decide)
  refine ⟨c', hc', ?_, ?_⟩
  · rw [hloads 1 (by decide)]
    decide
  · rw [hloads 3 (by decide)]
    decide

/-! ### How many shards move -/

/-- The shards whose owner differs. -/
def moved (before after : Fin N → γ) : Finset (Fin N) :=
  Finset.univ.filter fun s => after s ≠ before s

@[simp] theorem mem_moved {before after : Fin N → γ} {s : Fin N} :
    s ∈ moved before after ↔ after s ≠ before s := by
  simp [moved]

/-- Every shard is with a group, and no two groups differ by more than one shard. -/
def Balanced (groups : Groups γ) (shards : Fin N → γ) : Prop :=
  (∀ s, shards s ∈ groups) ∧ ∀ g ∈ groups.keys, ∀ g' ∈ groups.keys,
    (owned shards g).card ≤ (owned shards g').card + 1

instance (groups : Groups γ) (shards : Fin N → γ) : Decidable (Balanced groups shards) :=
  inferInstanceAs (Decidable (_ ∧ _))

/-- No group that could fill a larger share is passed over for one that cannot. -/
def Favoured (c : Config N γ) : Prop :=
  ∀ g ∈ c.groups.keys, ∀ g' ∈ c.groups.keys,
    rank c.groups g < N % c.groups.keys.card → N % c.groups.keys.card ≤ rank c.groups g' →
    (owned c.shards g).card ≤ N / c.groups.keys.card →
    (owned c.shards g').card ≤ N / c.groups.keys.card

instance (c : Config N γ) : Decidable (Favoured c) :=
  inferInstanceAs (Decidable (∀ g ∈ c.groups.keys, _))

section Moves

variable {groups : Groups γ} {shards : Fin N → γ}

theorem sum_card_owned (hmem : ∀ s, shards s ∈ groups) :
    ∑ g ∈ groups.keys, (owned shards g).card = N := by
  have hmaps : Set.MapsTo shards (Finset.univ : Finset (Fin N)) groups.keys :=
    fun s _ => Finmap.mem_keys.mpr (hmem s)
  calc ∑ g ∈ groups.keys, (owned shards g).card
      = (Finset.univ : Finset (Fin N)).card := (Finset.card_eq_sum_card_fiberwise hmaps).symm
    _ = N := by rw [Finset.card_univ, Fintype.card_fin]

/-- A shard moves, or it stays with one of the groups. -/
theorem card_moved_add (before : Fin N → γ) (hmem : ∀ s, shards s ∈ groups) :
    (moved before shards).card +
      ∑ g ∈ groups.keys, (owned before g ∩ owned shards g).card = N := by
  have hmaps : Set.MapsTo shards (Finset.univ.filter fun s => shards s = before s) groups.keys :=
    fun s _ => Finmap.mem_keys.mpr (hmem s)
  have hkept : (Finset.univ.filter fun s => shards s = before s).card =
      ∑ g ∈ groups.keys, (owned before g ∩ owned shards g).card := by
    rw [Finset.card_eq_sum_card_fiberwise hmaps]
    refine Finset.sum_congr rfl fun g _ => congrArg Finset.card ?_
    ext s
    simp only [Finset.mem_filter, Finset.mem_univ, true_and, Finset.mem_inter, mem_owned]
    constructor
    · rintro ⟨heq, hg⟩
      exact ⟨heq ▸ hg, hg⟩
    · rintro ⟨hbefore, hg⟩
      exact ⟨hg.trans hbefore.symm, hg⟩
  have hsplit := Finset.card_filter_add_card_filter_not (s := Finset.univ)
    (fun s => shards s = before s)
  rw [Finset.card_univ, Fintype.card_fin] at hsplit
  rw [← hkept, Nat.add_comm]
  exact hsplit

/-- Exchanging owners does not change the loads. -/
theorem card_owned_comp (e : Equiv.Perm (Fin N)) (g : γ) :
    (owned (shards ∘ e) g).card = (owned shards g).card :=
  Finset.card_equiv e fun s => by simp

theorem Balanced.equitableOn (h : Balanced groups shards) :
    Set.EquitableOn (groups.keys : Set γ) fun g => (owned shards g).card :=
  fun _ _ hg hg' => h.2 _ hg _ hg'

end Moves

namespace Rebalanced

variable {c c' : Config N γ} {g g' : γ}

theorem balanced (h : Rebalanced c c') : Balanced c.groups c'.shards := by
  refine ⟨h.mem, fun g hg g' hg' => ?_⟩
  rw [h.load g (Finmap.mem_keys.mp hg), h.load g' (Finmap.mem_keys.mp hg')]
  exact share_le_add_one _ _ _ _

theorem larger_iff (h : Rebalanced c c') (hg : g ∈ c.groups) :
    (owned c'.shards g).card = N / c.groups.keys.card + 1 ↔
      rank c.groups g < N % c.groups.keys.card := by
  rw [h.load g hg, shareOf, share]
  split <;> simp [*]

/-- A group keeps what it had, as far as it fits its share. -/
theorem card_kept (h : Rebalanced c c') (hg : g ∈ c.groups) :
    (owned c.shards g ∩ owned c'.shards g).card =
      min (owned c.shards g).card (owned c'.shards g).card := by
  rcases le_total (owned c.shards g).card (owned c'.shards g).card with hle | hle
  · have hsub : owned c.shards g ⊆ owned c'.shards g := by
      intro s hs
      rw [mem_owned] at hs ⊢
      by_contra hne
      have hlt := h.leaves s (fun heq => hne (heq.trans hs)) (hs ▸ hg)
      rw [hs, ← h.load g hg] at hlt
      exact absurd hle (Nat.not_le_of_lt hlt)
    rw [Finset.inter_eq_left.mpr hsub, min_eq_left hle]
  · have hsub : owned c'.shards g ⊆ owned c.shards g := by
      intro s hs
      rw [mem_owned] at hs ⊢
      by_contra hne
      have hlt := h.comes s fun heq => hne (heq.symm.trans hs)
      rw [hs, ← h.load g hg] at hlt
      exact absurd hle (Nat.not_le_of_lt hlt)
    rw [Finset.inter_eq_right.mpr hsub, min_eq_right hle]

/-- If the larger shares go where they can be filled, no balanced assignment moves
    fewer shards. -/
theorem card_moved_le (h : Rebalanced c c') (hfav : Favoured c) {a : Fin N → γ}
    (ha : Balanced c.groups a) :
    (moved c.shards c'.shards).card ≤ (moved c.shards a).card := by
  obtain ⟨hvalues, hcard⟩ := card_larger_of_equitableOn ha.equitableOn (sum_card_owned ha.1)
  obtain ⟨hvalues', hcard'⟩ :=
    card_larger_of_equitableOn h.balanced.equitableOn (sum_card_owned h.mem)
  have hfill : (∀ g ∈ c.groups.keys, (owned c'.shards g).card = N / c.groups.keys.card + 1 →
        N / c.groups.keys.card < (owned c.shards g).card) ∨
      ∀ g ∈ c.groups.keys, N / c.groups.keys.card < (owned c.shards g).card →
        (owned c'.shards g).card = N / c.groups.keys.card + 1 := by
    rw [or_iff_not_imp_left]
    intro hnot g' hg' hlt
    push Not at hnot
    obtain ⟨g, hg, hlarger, hle⟩ := hnot
    rw [h.larger_iff (Finmap.mem_keys.mp hg)] at hlarger
    rw [h.larger_iff (Finmap.mem_keys.mp hg')]
    by_contra hsmaller
    exact absurd hlt (Nat.not_lt.mpr (hfav g hg g' hg' hlarger (Nat.not_lt.mp hsmaller) hle))
  have hkept := calc
    ∑ g ∈ c.groups.keys, (owned c.shards g ∩ owned a g).card
      ≤ ∑ g ∈ c.groups.keys, min (owned c.shards g).card (owned a g).card :=
        Finset.sum_le_sum fun g _ => le_min (Finset.card_le_card Finset.inter_subset_left)
          (Finset.card_le_card Finset.inter_subset_right)
    _ ≤ ∑ g ∈ c.groups.keys, min (owned c.shards g).card (owned c'.shards g).card :=
        sum_min_le hvalues hvalues' (hcard.trans hcard'.symm) hfill
    _ = ∑ g ∈ c.groups.keys, (owned c.shards g ∩ owned c'.shards g).card :=
        Finset.sum_congr rfl fun g hg => (h.card_kept (Finmap.mem_keys.mp hg)).symm
  have hall := card_moved_add c.shards ha.1
  have hall' := card_moved_add c.shards h.mem
  omega

/-- Group `g` cannot fill its larger share, and `g'` could.  Then a shard that came to `g`
    and one that left `g'` change places, and the second goes back where it was. -/
theorem exists_fewer (h : Rebalanced c c') (hg : g ∈ c.groups) (hg' : g' ∈ c.groups)
    (hlarger : rank c.groups g < N % c.groups.keys.card)
    (hsmaller : N % c.groups.keys.card ≤ rank c.groups g')
    (hle : (owned c.shards g).card ≤ N / c.groups.keys.card)
    (hlt : N / c.groups.keys.card < (owned c.shards g').card) :
    ∃ a, Balanced c.groups a ∧
      (moved c.shards a).card < (moved c.shards c'.shards).card := by
  have hload : (owned c'.shards g).card = N / c.groups.keys.card + 1 :=
    (h.larger_iff hg).mpr hlarger
  have hload' : (owned c'.shards g').card = N / c.groups.keys.card := by
    rw [h.load g' hg', shareOf, share, if_neg (Nat.not_lt.mpr hsmaller), add_zero]
  have hgg' : g ≠ g' := by
    rintro rfl
    omega
  obtain ⟨s, hs, hsold⟩ := Finset.exists_mem_notMem_of_card_lt_card
    (s := owned c.shards g) (t := owned c'.shards g) (by omega)
  obtain ⟨t, ht, htnew⟩ := Finset.exists_mem_notMem_of_card_lt_card
    (s := owned c'.shards g') (t := owned c.shards g') (by omega)
  rw [mem_owned] at hs hsold ht htnew
  have hswap : (c'.shards ∘ Equiv.swap s t) t = g := by
    rw [Function.comp_apply, Equiv.swap_apply_right, hs]
  have hvalues : ∀ x ∈ c.groups.keys,
      (owned (Function.update (c'.shards ∘ Equiv.swap s t) t g') x).card =
        N / c.groups.keys.card ∨
      (owned (Function.update (c'.shards ∘ Equiv.swap s t) t g') x).card =
        N / c.groups.keys.card + 1 := by
    intro x hx
    rw [owned_update]
    split
    · next hxg' =>
      subst hxg'
      have ht' : t ∉ owned (c'.shards ∘ Equiv.swap s t) x := by
        rw [mem_owned, hswap]
        exact hgg'
      rw [Finset.card_insert_of_notMem ht', card_owned_comp, hload']
      exact .inr rfl
    · by_cases hxg : x = g
      · subst hxg
        rw [Finset.card_erase_of_mem (mem_owned.mpr hswap), card_owned_comp, hload]
        exact .inl rfl
      · have ht' : t ∉ owned (c'.shards ∘ Equiv.swap s t) x := by
          rw [mem_owned, hswap]
          exact Ne.symm hxg
        rw [Finset.erase_eq_of_notMem ht', card_owned_comp]
        exact (card_larger_of_equitableOn h.balanced.equitableOn (sum_card_owned h.mem)).1 x hx
  refine ⟨Function.update (c'.shards ∘ Equiv.swap s t) t g', ⟨?_, ?_⟩, ?_⟩
  · intro x
    rw [Function.update_apply]
    split
    · exact hg'
    · exact h.mem _
  · intro x hx y hy
    have hx' := hvalues x hx
    have hy' := hvalues y hy
    omega
  · refine Finset.card_lt_card ((Finset.ssubset_iff_of_subset ?_).mpr ⟨t, ?_, ?_⟩)
    · intro x hx
      rw [mem_moved] at hx ⊢
      by_cases hxt : x = t
      · subst hxt
        rw [Function.update_self, ht] at hx
        exact absurd rfl hx
      · by_cases hxs : x = s
        · subst hxs
          rw [hs]
          exact Ne.symm hsold
        · rwa [Function.update_of_ne hxt, Function.comp_apply,
            Equiv.swap_apply_of_ne_of_ne hxs hxt] at hx
    · rw [mem_moved, ht]
      exact htnew
    · rw [mem_moved, Function.update_self, ht]
      exact not_not_intro rfl

end Rebalanced

/-- `rebalance` moves as few shards as possible exactly if the larger shares go to
    groups that can fill them, as far as there are such groups. -/
theorem rebalance_minimal_iff [Zero γ] {order : List γ} {c : Config N γ}
    (horder : Enumerates order c.groups) (h0 : (0 : γ) ∉ c.groups) (hne : c.groups ≠ ∅) :
    ∃ c', rebalance order c = .ok c' ∧
      ((∀ a, Balanced c.groups a →
          (moved c.shards c'.shards).card ≤ (moved c.shards a).card) ↔ Favoured c) := by
  obtain ⟨c', hc', hreb⟩ := rebalance_rebalanced horder h0 hne
  refine ⟨c', hc', fun hmin => ?_, fun hfav a ha => hreb.card_moved_le hfav ha⟩
  intro g hg g' hg' hlarger hsmaller hle
  by_contra hlt
  obtain ⟨a, ha, hfewer⟩ := hreb.exists_fewer (Finmap.mem_keys.mp hg) (Finmap.mem_keys.mp hg')
    hlarger hsmaller hle (Nat.not_le.mp hlt)
  exact absurd (hmin a ha) (Nat.not_le_of_lt hfewer)

/-- Group 3 is new, and group 1 has more than its share of four. -/
def thirdGroup : Config NShards Int where
  num := 5
  shards := ![1, 1, 1, 1, 1, 1, 2, 2, 2, 2]
  groups := groupsOf [1, 2, 3]

theorem rebalance_minimal_iff_thirdGroup :
    ∃ c', rebalance [1, 2, 3] thirdGroup = .ok c' ∧ ∀ a, Balanced thirdGroup.groups a →
      (moved thirdGroup.shards c'.shards).card ≤ (moved thirdGroup.shards a).card := by
  have horder : Enumerates [1, 2, 3] thirdGroup.groups := by decide
  obtain ⟨c', hc', hiff⟩ := rebalance_minimal_iff horder (by decide) (by decide)
  exact ⟨c', hc', hiff.mpr (by decide)⟩

/-- Groups 2 and 3 share the shards when group 1 joins. -/
def joinFirst : List (Op Int) :=
  [{ args := .join (groupsOf [2, 3]), clientId := 7, seq := 1 },
    { args := .join (groupsOf [1]), clientId := 7, seq := 2 }]

/-- The loads are as even as they can be, with the larger one at group 2. -/
def largerSecond : Config NShards Int where
  num := 6
  shards := ![1, 1, 1, 2, 2, 2, 2, 3, 3, 3]
  groups := groupsOf [1, 2, 3]

/-- When group 1 joins groups 2 and 3, it gets four shards where three would do.  And an
    even assignment is changed if the larger load is not where `rebalance` puts it. -/
theorem rebalance_not_minimal :
    (∃ (sc : ShardCtrler NShards Int) (o : MapOrders Int) (c c' : Config NShards Int)
      (a : Fin NShards → Int), Replays joinFirst 1 sc ∧
      o.Possible (.join (groupsOf [1])) sc.current ∧
      c = prepare o (.join (groupsOf [1])) sc.current ∧ rebalance o.gids c = .ok c' ∧
      (moved c.shards c'.shards).card = 4 ∧ Balanced c.groups a ∧
      (moved c.shards a).card = 3) ∧
    Balanced largerSecond.groups largerSecond.shards ∧
      ∃ c', rebalance [1, 2, 3] largerSecond = .ok c' ∧ c'.shards ≠ largerSecond.shards := by
  refine ⟨?_, by decide, ?_⟩
  · obtain ⟨sc, hsc, hcheck⟩ := exists_replays_of_replay (N := NShards) joinFirst
      [⟨[], [2, 3], [2, 3]⟩] (fun sc => decide (
        MapOrders.Possible ⟨[2, 3], [1], [1, 2, 3]⟩ (.join (groupsOf [1])) sc.current ∧
        Balanced (prepare ⟨[2, 3], [1], [1, 2, 3]⟩ (.join (groupsOf [1])) sc.current).groups
          ![2, 2, 2, 2, 1, 3, 3, 3, 1, 1] ∧
        (moved sc.current.shards ![2, 2, 2, 2, 1, 3, 3, 3, 1, 1]).card = 3 ∧
        (rebalance [1, 2, 3] (prepare ⟨[2, 3], [1], [1, 2, 3]⟩ (.join (groupsOf [1]))
          sc.current)).toOption.any (fun c' =>
            decide ((moved sc.current.shards c'.shards).card = 4)) = true)) (by decide +kernel)
    obtain ⟨ho, hbal, hthree, hany⟩ := of_decide_eq_true hcheck
    obtain ⟨c', hc', hfour⟩ := exists_rebalance_of_any _ _ _ hany
    exact ⟨sc, _, _, c', _, hsc, ho, rfl, hc', of_decide_eq_true hfour, hbal, hthree⟩
  · obtain ⟨c', hc', hne⟩ := exists_rebalance_of_any [1, 2, 3] largerSecond
      (fun c' => decide (c'.shards ≠ largerSecond.shards)) (by decide +kernel)
    exact ⟨c', hc', of_decide_eq_true hne⟩

/-! ### Which groups are touched -/

/-- Config 0, or what a `Join` or a `Leave` makes of any configuration. -/
inductive Dealt [Zero γ] : Config N γ → Prop where
  | zero : Dealt (ShardCtrler.start : ShardCtrler N γ).current
  | join {prev nc : Config N γ} {o : MapOrders γ} {servers : Groups γ} :
      (0 : γ) ∉ prev.groups → (0 : γ) ∉ servers → o.Possible (.join servers) prev →
      nextConfig o (.join servers) prev = .ok nc → Dealt nc
  | leave {prev nc : Config N γ} {o : MapOrders γ} {gids : List γ} :
      (0 : γ) ∉ prev.groups → o.Possible (.leave gids) prev →
      nextConfig o (.leave gids) prev = .ok nc → Dealt nc

/-- Every group has its share, and without groups no shard has one. -/
structure Settled [Zero γ] (c : Config N γ) : Prop where
  zero_notMem : (0 : γ) ∉ c.groups
  load : ∀ g ∈ c.groups, (owned c.shards g).card = shareOf N c.groups g
  shards : ∀ s, c.shards s ∈ c.groups ∨ c.groups = ∅ ∧ c.shards s = 0

section Touched

variable [Zero γ] {order : List γ} {c c' last : Config N γ}

theorem rebalance_cases (horder : Enumerates order c.groups) (h0 : (0 : γ) ∉ c.groups) :
    ∃ c', rebalance order c = .ok c' ∧
      (Rebalanced c c' ∨ c.groups = ∅ ∧ c' = { c with shards := fun _ => 0 }) := by
  by_cases hne : c.groups = ∅
  · exact ⟨_, rebalance_empty horder hne, .inr ⟨hne, rfl⟩⟩
  · obtain ⟨c', hc', hreb⟩ := rebalance_rebalanced horder h0 hne
    exact ⟨c', hc', .inl hreb⟩

theorem settled_of_rebalance (horder : Enumerates order c.groups) (h0 : (0 : γ) ∉ c.groups)
    (h : rebalance order c = .ok c') : Settled c' := by
  obtain ⟨c'', hc'', hcases⟩ := rebalance_cases horder h0
  rw [h] at hc''
  cases hc''
  rcases hcases with hreb | ⟨hempty, rfl⟩
  · refine ⟨hreb.groups ▸ h0, ?_, fun s => .inl (hreb.groups ▸ hreb.mem s)⟩
    rw [hreb.groups]
    exact hreb.load
  · refine ⟨h0, fun g hg => ?_, fun s => .inr ⟨hempty, rfl⟩⟩
    rw [show ({ c with shards := fun _ => 0 } : Config N γ).groups = ∅ from hempty] at hg
    exact absurd hg Finmap.notMem_empty

theorem Dealt.settled (h : Dealt last) : Settled last := by
  cases h with
  | zero =>
    exact ⟨Finmap.notMem_empty, fun g hg => absurd hg Finmap.notMem_empty,
      fun s => .inr ⟨rfl, rfl⟩⟩
  | join h0 hservers ho hnc =>
    refine settled_of_rebalance ho.2.2 (ho.zero_notMem_prepare h0 ?_) hnc
    rintro _ ⟨⟩
    exact hservers
  | leave h0 ho hnc =>
    exact settled_of_rebalance ho.2.2 (ho.zero_notMem_prepare h0 fun _ h => nomatch h) hnc

theorem Replays.zero_notMem {log : List (Op γ)} (hjoin : JoinsNonZero log) {k : Nat}
    {sc : ShardCtrler N γ} (h : Replays log k sc) : (0 : γ) ∉ sc.current.groups := by
  induction h with
  | start => exact Finmap.notMem_empty
  | @next k sc sc' op o hprev hop ho hstep ih =>
    rcases ShardCtrler.applyLoop_cases hstep with
      ⟨-, rfl⟩ | ⟨-, -, ⟨-, hconfigs, -⟩ | ⟨-, -, -, nc, hnc, hconfigs⟩⟩
    · exact ih
    · rwa [ShardCtrler.current_congr hconfigs]
    · rw [ShardCtrler.current_of_append hconfigs, (nextConfig_fields hnc).2]
      exact ho.zero_notMem_prepare ih (hjoin op (List.mem_of_getElem? hop))
  | again hprev hi _ hstep ih =>
    cases hprev.applyLoop_again hi hstep
    exact ih

/-- In a log whose `Join`s name no group 0, a `Join` or `Leave` that is executed deals,
    whatever `Move`s came before. -/
theorem Replays.dealt {log : List (Op γ)} (hjoin : JoinsNonZero log) {k : Nat}
    {sc sc' : ShardCtrler N γ} (h : Replays log k sc) {op : Op γ} {o : MapOrders γ}
    (hop : log[k]? = some op) (ho : o.Possible op.args sc.current) (hfresh : sc.Fresh op)
    (hargs : (∃ servers, op.args = .join servers) ∨ ∃ gids, op.args = .leave gids)
    (hstep : sc.applyLoop o (k + 1) op = .ok sc') : Dealt sc'.current := by
  have hquery : op.args.isQuery = false := by
    rcases hargs with ⟨servers, heq⟩ | ⟨gids, heq⟩ <;> rw [heq] <;> rfl
  have hlast := h.lastApplied_eq
  rcases ShardCtrler.applyLoop_cases hstep with
    ⟨hle, -⟩ | ⟨-, -, ⟨hskip, -⟩ | ⟨-, -, -, nc, hnc, hconfigs⟩⟩
  · omega
  · rcases hskip with hskip | hskip
    · rw [hquery] at hskip
      cases hskip
    · exact absurd hfresh hskip
  · rw [ShardCtrler.current_of_append hconfigs]
    rcases hargs with ⟨servers, heq⟩ | ⟨gids, heq⟩
    · rw [heq] at ho hnc
      exact .join (h.zero_notMem hjoin) (hjoin op (List.mem_of_getElem? hop) servers heq) ho hnc
    · rw [heq] at ho hnc
      exact .leave (h.zero_notMem hjoin) ho hnc

/-- On a `Join` no share of a group that was there grows, so none of them gets a shard. -/
theorem Settled.join (h : Settled last) {o : MapOrders γ} {servers : Groups γ}
    (hservers : (0 : γ) ∉ servers) (ho : o.Possible (.join servers) last) :
    ∃ nc, nextConfig o (.join servers) last = .ok nc ∧
      ∀ s, nc.shards s ≠ last.shards s → nc.shards s ∈ servers ∧ nc.shards s ∉ last.groups := by
  have h0 : (0 : γ) ∉ (prepare o (.join servers) last).groups :=
    ho.zero_notMem_prepare h.zero_notMem fun _ heq => Args.join.inj heq ▸ hservers
  obtain ⟨nc, hnc, hcases⟩ := rebalance_cases ho.2.2 h0
  refine ⟨nc, hnc, fun s hchange => ?_⟩
  rcases hcases with hreb | ⟨hempty, rfl⟩
  · have hnew : nc.shards s ∉ last.groups := by
      intro hin
      have hless : (owned last.shards (nc.shards s)).card <
          shareOf N (prepare o (.join servers) last).groups (nc.shards s) := hreb.comes s hchange
      have hshare := shareOf_antitone (N := N) (fun _ hx => ho.mem_prepare_join.mpr (.inr hx)) hin
      rw [h.load _ hin] at hless
      exact absurd hshare (Nat.not_le_of_lt hless)
    exact ⟨(ho.mem_prepare_join.mp (hreb.mem s)).resolve_right hnew, hnew⟩
  · rcases h.shards s with hin | ⟨-, hzero⟩
    · have hin' := ho.mem_prepare_join.mpr (.inr hin)
      rw [hempty] at hin'
      exact absurd hin' Finmap.notMem_empty
    · exact absurd hzero.symm hchange

/-- On a `Leave` no share of a group that stays shrinks, so none of them loses a shard. -/
theorem Settled.leave (h : Settled last) {o : MapOrders γ} {gids : List γ}
    (ho : o.Possible (.leave gids) last) :
    ∃ nc, nextConfig o (.leave gids) last = .ok nc ∧
      ∀ s, nc.shards s ≠ last.shards s → last.shards s ∈ gids ∧ last.shards s ∉ nc.groups := by
  have h0 : (0 : γ) ∉ (prepare o (.leave gids) last).groups :=
    ho.zero_notMem_prepare h.zero_notMem fun _ heq => nomatch heq
  obtain ⟨nc, hnc, hcases⟩ := rebalance_cases ho.2.2 h0
  have hgroups : nc.groups = (prepare o (.leave gids) last).groups := (rebalance_fields hnc).2
  refine ⟨nc, hnc, fun s hchange => ?_⟩
  have hleaves : last.shards s ∈ gids := by
    by_contra hstays
    rcases h.shards s with hin | ⟨hnone, hzero⟩
    · have hin' := ho.mem_prepare_leave.mpr ⟨hstays, hin⟩
      rcases hcases with hreb | ⟨hempty, -⟩
      · -- the shards of a group that stays are not touched before `rebalance`
        have howned : owned (prepare o (.leave gids) last).shards (last.shards s) =
            owned last.shards (last.shards s) := by
          ext t
          simp only [prepare, mem_owned]
          split
          · next ht =>
            refine iff_of_false (fun hzero => ?_) fun heq => hstays (heq ▸ ht)
            exact h.zero_notMem (hzero ▸ hin)
          · exact Iff.rfl
        have hsame : (prepare o (.leave gids) last).shards s = last.shards s := if_neg hstays
        have hmore := hreb.leaves s (hsame ▸ hchange) (hsame ▸ hin')
        rw [hsame, howned, h.load _ hin] at hmore
        have hshare :=
          shareOf_antitone (N := N) (fun _ hx => (ho.mem_prepare_leave.mp hx).2) hin'
        exact absurd hshare (Nat.not_le_of_lt hmore)
      · rw [hempty] at hin'
        exact absurd hin' Finmap.notMem_empty
    · rcases hcases with hreb | ⟨-, rfl⟩
      · have hmem := (ho.mem_prepare_leave.mp (hreb.mem s)).2
        rw [hnone] at hmem
        exact absurd hmem Finmap.notMem_empty
      · exact hchange hzero.symm
  refine ⟨hleaves, fun hin => ?_⟩
  rw [hgroups, ho.mem_prepare_leave] at hin
  exact hin.1 hleaves

/-- After config 0 and after each `Join` and `Leave`, a `Join` moves shards only to groups
    that it adds and a `Leave` only shards whose groups it takes away.  So no shard
    moves between two groups that are there before and after. -/
theorem join_leave_touch (hlast : Dealt last) :
    (∀ (o : MapOrders γ) (servers : Groups γ), (0 : γ) ∉ servers →
      o.Possible (.join servers) last →
      ∃ nc, nextConfig o (.join servers) last = .ok nc ∧
        ∀ s, nc.shards s ≠ last.shards s →
          nc.shards s ∈ servers ∧ nc.shards s ∉ last.groups) ∧
    ∀ (o : MapOrders γ) (gids : List γ), o.Possible (.leave gids) last →
      ∃ nc, nextConfig o (.leave gids) last = .ok nc ∧
        ∀ s, nc.shards s ≠ last.shards s →
          last.shards s ∈ gids ∧ last.shards s ∉ nc.groups :=
  ⟨fun _ _ hservers ho => hlast.settled.join hservers ho, fun _ _ ho => hlast.settled.leave ho⟩

end Touched

theorem join_leave_touch_skewed :
    ∃ last : Config NShards Int, nextConfig ⟨[1, 3], [2], [1, 2, 3]⟩ (.join (groupsOf [2]))
        skewed = .ok last ∧
      (∃ nc, nextConfig ⟨[1, 2, 3], [1, 5], [1, 2, 3, 5]⟩ (.join (groupsOf [1, 5])) last =
          .ok nc ∧ ∀ s, nc.shards s ≠ last.shards s →
            nc.shards s ∈ groupsOf [1, 5] ∧ nc.shards s ∉ last.groups) ∧
      ∃ nc, nextConfig ⟨[1, 2, 3], [], [1, 3]⟩ (.leave [2, 8, 2]) last = .ok nc ∧
        ∀ s, nc.shards s ≠ last.shards s →
          last.shards s ∈ [2, 8, 2] ∧ last.shards s ∉ nc.groups := by
  obtain ⟨last, hlast, hcheck⟩ := exists_rebalance_of_any [1, 2, 3]
    (prepare ⟨[1, 3], [2], [1, 2, 3]⟩ (.join (groupsOf [2])) skewed)
    (fun last => decide (
      MapOrders.Possible ⟨[1, 2, 3], [1, 5], [1, 2, 3, 5]⟩ (.join (groupsOf [1, 5])) last ∧
      MapOrders.Possible ⟨[1, 2, 3], [], [1, 3]⟩ (.leave [2, 8, 2]) last)) (by decide +kernel)
  obtain ⟨hjoin, hleave⟩ := of_decide_eq_true hcheck
  have hnext : nextConfig ⟨[1, 3], [2], [1, 2, 3]⟩ (.join (groupsOf [2])) skewed = .ok last := hlast
  have hdealt : Dealt last := .join (by decide) (by decide) (by decide +kernel) hnext
  exact ⟨last, hnext, (join_leave_touch hdealt).1 _ _ (by decide) hjoin,
    (join_leave_touch hdealt).2 _ _ hleave⟩

end RaftLabs.Ctrl
