import RaftLabs.ShardCtrler
import Mathlib.Algebra.BigOperators.Group.Finset.Basic
import Mathlib.Algebra.Order.BigOperators.Group.Finset

/-!
# What a mutation does to a configuration

First, that nothing depends on the order in which Go ranges over the maps: the
copied and the joined groups are determined by their lookups, and `rebalance`
sorts the group ids before it uses them.

Then, what `rebalance` does.  Through all its loops `count` is the number of
shards that a group owns and `unassigned` lists the shards that no group owns.
So the release loop always finds a shard to take, and when it is done the
unassigned shards are exactly as many as the groups still miss.

Last, which mutations keep a configuration well formed.
-/

namespace RaftLabs.Ctrl

variable {N : Nat} {γ : Type}

/-! ### The order of a range -/

theorem Enumerates.mem_iff {order : List γ} {m : Groups γ} (h : Enumerates order m) {g : γ} :
    g ∈ order ↔ g ∈ m := by
  rw [← Multiset.mem_coe, h]
  exact Finmap.mem_keys

theorem Enumerates.nodup {order : List γ} {m : Groups γ} (h : Enumerates order m) :
    order.Nodup := by
  rw [← Multiset.coe_nodup, h]
  exact m.keys.nodup

theorem exists_enumerates (m : Groups γ) : ∃ order, Enumerates order m :=
  ⟨m.keys.val.toList, Multiset.coe_toList _⟩

variable [LinearOrder γ]

/-- The sorted ids are the same whichever way the range went. -/
theorem Enumerates.sort_eq {order order' : List γ} {m : Groups γ} (h : Enumerates order m)
    (h' : Enumerates order' m) :
    order.insertionSort (· ≤ ·) = order'.insertionSort (· ≤ ·) := by
  have hperm : order.Perm order' := Multiset.coe_eq_coe.mp (h.trans h'.symm)
  refine List.Perm.eq_of_pairwise (fun a b _ _ hab hba => le_antisymm hab hba)
    (List.pairwise_insertionSort _ _) (List.pairwise_insertionSort _ _) ?_
  exact (List.perm_insertionSort _ _).trans (hperm.trans (List.perm_insertionSort _ _).symm)

theorem lookup_putAll (order : List γ) (src dst : Groups γ) (g : γ) :
    (putAll order src dst).lookup g =
      if g ∈ order then (src.lookup g).or (dst.lookup g) else dst.lookup g := by
  unfold putAll
  induction order generalizing dst with
  | nil => simp
  | cons a order ih =>
    rw [List.foldl_cons, ih]
    by_cases hg : g = a
    · subst hg
      cases hsrc : src.lookup g with
      | none => simp
      | some servers => simp [Finmap.lookup_insert]
    · cases src.lookup a with
      | none => simp [hg]
      | some servers => simp [hg, Finmap.lookup_insert_of_ne]

theorem Enumerates.lookup_putAll {order : List γ} {src : Groups γ} (h : Enumerates order src)
    (dst : Groups γ) (g : γ) :
    (putAll order src dst).lookup g = (src.lookup g).or (dst.lookup g) := by
  rw [Ctrl.lookup_putAll]
  split
  · rfl
  · rename_i hg
    rw [h.mem_iff, ← Finmap.lookup_eq_none] at hg
    rw [hg, Option.none_or]

theorem Enumerates.copyGroups_eq {order : List γ} {g : Groups γ} (h : Enumerates order g) :
    copyGroups order g = g := by
  refine Finmap.ext_lookup fun x => ?_
  rw [copyGroups, h.lookup_putAll]
  simp

theorem Enumerates.putAll_eq {order order' : List γ} {src : Groups γ} (h : Enumerates order src)
    (h' : Enumerates order' src) (dst : Groups γ) : putAll order src dst = putAll order' src dst :=
  Finmap.ext_lookup fun x => by rw [h.lookup_putAll, h'.lookup_putAll]

theorem Enumerates.mem_putAll {order : List γ} {src : Groups γ} (h : Enumerates order src)
    (dst : Groups γ) {g : γ} : g ∈ putAll order src dst ↔ g ∈ src ∨ g ∈ dst := by
  rw [← Finmap.lookup_isSome, h.lookup_putAll, ← Finmap.lookup_isSome, ← Finmap.lookup_isSome,
    Option.isSome_or, Bool.or_eq_true]

theorem mem_foldl_erase {gids : List γ} {groups : Groups γ} {g : γ} :
    g ∈ gids.foldl (fun groups gid => groups.erase gid) groups ↔ g ∉ gids ∧ g ∈ groups := by
  induction gids generalizing groups with
  | nil => simp
  | cons a gids ih =>
    rw [List.foldl_cons, ih, Finmap.mem_erase, List.mem_cons]
    tauto

theorem lookup_of_foldl_erase {gids : List γ} {groups : Groups γ} {g : γ} {names : List Str}
    (h : (gids.foldl (fun groups gid => groups.erase gid) groups).lookup g = some names) :
    groups.lookup g = some names := by
  induction gids generalizing groups with
  | nil => exact h
  | cons a gids ih =>
    have hrest := ih h
    by_cases hg : g = a
    · subst hg
      rw [Finmap.lookup_erase] at hrest
      cases hrest
    · rwa [Finmap.lookup_erase_ne hg] at hrest

/-! ### Targets -/

/-- A loop that assigns to distinct keys leaves at each key what it assigned. -/
theorem foldl_update_of_notMem {β : Type} (f : γ × Nat → β) (xs : List (γ × Nat)) (t : γ → β)
    {a : γ} (h : a ∉ xs.map Prod.fst) :
    xs.foldl (fun t x => Function.update t x.1 (f x)) t a = t a := by
  induction xs generalizing t with
  | nil => rfl
  | cons x xs ih =>
    rw [List.map_cons, List.mem_cons, not_or] at h
    rw [List.foldl_cons, ih _ h.2, Function.update_of_ne h.1]

theorem foldl_update_of_mem {β : Type} (f : γ × Nat → β) {xs : List (γ × Nat)} (t : γ → β)
    (hnd : (xs.map Prod.fst).Nodup) {x : γ × Nat} (hx : x ∈ xs) :
    xs.foldl (fun t x => Function.update t x.1 (f x)) t x.1 = f x := by
  induction xs generalizing t with
  | nil => cases hx
  | cons y xs ih =>
    rw [List.map_cons, List.nodup_cons] at hnd
    rw [List.foldl_cons]
    rcases List.mem_cons.mp hx with rfl | hx
    · rw [foldl_update_of_notMem f xs _ hnd.1, Function.update_self]
    · exact ih _ hnd.2 hx

theorem targets_of_getElem {gids : List γ} (hnd : gids.Nodup) {i : Nat} {g : γ}
    (h : gids[i]? = some g) :
    targets N gids g =
      if i < N % gids.length then N / gids.length + 1 else N / gids.length := by
  have hmem : (g, i) ∈ gids.zipIdx := List.mem_zipIdx_iff_getElem?.mpr h
  refine foldl_update_of_mem (fun x => if x.2 < N % gids.length then N / gids.length + 1
    else N / gids.length) (fun _ => 0) ?_ hmem
  rw [List.zipIdx_map_fst]
  exact hnd

/-- `m` numbers of which the first `r` are `q + 1` and the others `q`. -/
theorem sum_quotients (q r m : Nat) :
    ((List.range m).map fun i => if i < r then q + 1 else q).sum = m * q + min m r := by
  induction m with
  | zero => simp
  | succ m ih =>
    rw [List.range_succ, List.map_append, List.sum_append, ih, Nat.succ_mul]
    simp only [List.map_cons, List.map_nil, List.sum_singleton]
    split <;> omega

theorem sum_targets {gids : List γ} (hnd : gids.Nodup) (hne : gids ≠ []) :
    (gids.map (targets N gids)).sum = N := by
  have hlen : 0 < gids.length := List.length_pos_iff.mpr hne
  have hmap : gids.map (targets N gids) = (List.range gids.length).map fun i =>
      if i < N % gids.length then N / gids.length + 1 else N / gids.length := by
    refine List.ext_getElem (by simp) fun i hi hi' => ?_
    rw [List.length_map] at hi
    rw [List.getElem_map, List.getElem_map, List.getElem_range]
    exact targets_of_getElem hnd (List.getElem?_eq_getElem hi)
  rw [hmap, sum_quotients, min_eq_right (Nat.mod_lt N hlen).le]
  exact Nat.div_add_mod N gids.length

/-! ### Loads -/

/-- The shards of a group. -/
def owned (shards : Fin N → γ) (g : γ) : Finset (Fin N) := Finset.univ.filter fun s => shards s = g

@[simp] theorem mem_owned {shards : Fin N → γ} {g : γ} {s : Fin N} :
    s ∈ owned shards g ↔ shards s = g := by
  simp [owned]

/-- The counters are right, and `unassigned` lists the shards without a group. -/
structure LoadsOk (gids : List γ) (l : Loads N γ) : Prop where
  count : ∀ g ∈ gids, l.count g = (owned l.shards g).card
  nodup : l.unassigned.Nodup
  mem : ∀ s, s ∈ l.unassigned ↔ l.shards s ∉ gids

/-- Giving shard `s` to `z` adds it to the shards of `z` and takes it from every
    other group. -/
theorem owned_update (shards : Fin N → γ) (s : Fin N) (z g : γ) :
    owned (Function.update shards s z) g =
      if g = z then insert s (owned shards g) else (owned shards g).erase s := by
  ext t
  by_cases ht : t = s
  · subst ht
    by_cases hg : g = z
    · simp [hg]
    · simp [hg, Ne.symm hg]
  · by_cases hg : g = z
    · simp [hg, ht]
    · simp [hg, ht]

theorem lastShardOf_of_owned {shards : Fin N → γ} {gid : γ} (h : (owned shards gid).Nonempty) :
    ∃ s, lastShardOf shards gid = some s ∧ shards s = gid := by
  obtain ⟨t, ht⟩ := h
  cases hfind : lastShardOf shards gid with
  | none =>
    unfold lastShardOf at hfind
    rw [List.find?_eq_none] at hfind
    have hnot := hfind t (List.mem_reverse.mpr (List.mem_finRange t))
    exact absurd (mem_owned.mp ht) (by simpa using hnot)
  | some s =>
    have hs := List.find?_some hfind
    exact ⟨s, rfl, by simpa using hs⟩

/-- Every shard is owned by a group or unassigned. -/
theorem LoadsOk.sum_count {gids : List γ} (hnd : gids.Nodup) {l : Loads N γ}
    (h : LoadsOk gids l) : (gids.map l.count).sum + l.unassigned.length = N := by
  have hmap : gids.map l.count = gids.map fun g => (owned l.shards g).card :=
    List.map_congr_left fun g hg => h.count g hg
  have howned : (Finset.univ.filter fun s => l.shards s ∈ gids).card =
      ∑ g ∈ gids.toFinset, (owned l.shards g).card := by
    rw [Finset.card_eq_sum_card_fiberwise (f := l.shards) (t := gids.toFinset)
      (fun s hs => by simpa using hs)]
    refine Finset.sum_congr rfl fun g hg => ?_
    congr 1
    ext s
    simp only [Finset.mem_filter, Finset.mem_univ, true_and, mem_owned, and_iff_right_iff_imp]
    rintro rfl
    exact List.mem_toFinset.mp hg
  have hfree : l.unassigned.length = (Finset.univ.filter fun s => l.shards s ∉ gids).card := by
    rw [← List.toFinset_card_of_nodup h.nodup]
    congr 1
    ext s
    simp [h.mem s]
  rw [hmap, ← List.sum_toFinset _ hnd, ← howned, hfree,
    Finset.card_filter_add_card_filter_not, Finset.card_univ, Fintype.card_fin]

/-- Giving the first unassigned shard to a group. -/
theorem LoadsOk.give {gids : List γ} {l : Loads N γ} (h : LoadsOk gids l) {gid : γ}
    (hgid : gid ∈ gids) {s : Fin N} {rest : List (Fin N)} (hl : l.unassigned = s :: rest) :
    LoadsOk gids
      { shards := Function.update l.shards s gid
        count := Function.update l.count gid (l.count gid + 1)
        unassigned := rest } := by
  have hs : l.shards s ∉ gids := (h.mem s).mp (hl ▸ List.mem_cons_self)
  have hnodup : (s :: rest).Nodup := hl ▸ h.nodup
  refine ⟨?_, (List.nodup_cons.mp hnodup).2, ?_⟩
  · intro g hg
    have hout : s ∉ owned l.shards g := fun hmem => hs ((mem_owned.mp hmem).symm ▸ hg)
    dsimp only
    rw [owned_update]
    by_cases heq : g = gid
    · subst heq
      rw [Function.update_self, if_pos rfl, Finset.card_insert_of_notMem hout, h.count g hg]
    · rw [Function.update_of_ne heq, if_neg heq, Finset.erase_eq_of_notMem hout, h.count g hg]
  · intro t
    dsimp only
    by_cases ht : t = s
    · subst ht
      simp [hgid, (List.nodup_cons.mp hnodup).1]
    · rw [Function.update_of_ne ht, ← h.mem t, hl, List.mem_cons]
      simp [ht]

variable [Zero γ]

/-- The counting loop after the shards `ss`. -/
theorem countLoads_foldl {gids : List γ} (h0 : (0 : γ) ∉ gids) (shards : Fin N → γ)
    (ss : List (Fin N)) :
    ss.foldl (fun l s =>
      let g := l.shards s
      if g ≠ 0 ∧ g ∈ gids then { l with count := Function.update l.count g (l.count g + 1) }
      else { l with unassigned := l.unassigned ++ [s] })
      ({ shards := shards, count := fun _ => 0, unassigned := [] } : Loads N γ) =
    { shards := shards
      count := fun g => if g ∈ gids then ss.countP (fun s => shards s = g) else 0
      unassigned := ss.filter fun s => shards s ∉ gids } := by
  induction ss using List.reverseRecOn with
  | nil => simp
  | append_singleton ss s ih =>
    rw [List.foldl_append, ih]
    simp only [List.foldl_cons, List.foldl_nil]
    by_cases hs : shards s ∈ gids
    · have hne : shards s ≠ 0 := fun hzero => h0 (hzero ▸ hs)
      rw [if_pos ⟨hne, hs⟩]
      simp only [List.filter_append, hs, not_true_eq_false, decide_false, List.filter_cons_of_neg,
        List.filter_nil, List.append_nil, Loads.mk.injEq, true_and, and_true,
        Bool.false_eq_true, not_false_eq_true]
      funext g
      rw [Function.update_apply]
      by_cases hg : g = shards s
      · subst hg
        simp [hs, List.countP_append]
      · have hg' : shards s ≠ g := fun heq => hg heq.symm
        simp [hg, hg', List.countP_append]
    · rw [if_neg fun hcon => hs hcon.2]
      simp only [List.filter_append, hs, not_false_eq_true, decide_true, List.filter_cons_of_pos,
        List.filter_nil, Loads.mk.injEq, and_true, true_and]
      funext g
      split
      · rename_i hg
        have hg' : shards s ≠ g := fun heq => hs (heq ▸ hg)
        simp [hg', List.countP_append]
      · rfl

theorem loadsOk_countLoads {gids : List γ} (h0 : (0 : γ) ∉ gids) (shards : Fin N → γ) :
    LoadsOk gids (countLoads gids shards) ∧ (countLoads gids shards).shards = shards := by
  unfold countLoads
  rw [countLoads_foldl h0]
  refine ⟨⟨?_, ?_, ?_⟩, rfl⟩
  · intro g hg
    dsimp only
    rw [if_pos hg, List.countP_eq_length_filter, owned, Fin.univ_def]
    rfl
  · exact (List.nodup_finRange N).filter _
  · intro s
    simp

/-- Taking a shard from a group that has it. -/
theorem LoadsOk.take {gids : List γ} {l : Loads N γ} (h : LoadsOk gids l) (h0 : (0 : γ) ∉ gids)
    {gid : γ} (hgid : gid ∈ gids) {s : Fin N} (hs : l.shards s = gid) :
    LoadsOk gids
      { shards := Function.update l.shards s 0
        count := Function.update l.count gid (l.count gid - 1)
        unassigned := l.unassigned ++ [s] } := by
  have hnew : s ∉ l.unassigned := fun hmem => (h.mem s).mp hmem (hs ▸ hgid)
  refine ⟨?_, ?_, ?_⟩
  · intro g hg
    have hg0 : g ≠ 0 := fun hzero => h0 (hzero ▸ hg)
    dsimp only
    rw [owned_update, if_neg hg0]
    by_cases heq : g = gid
    · subst heq
      rw [Function.update_self, Finset.card_erase_of_mem (mem_owned.mpr hs), h.count g hg]
    · have hout : s ∉ owned l.shards g := fun hmem => heq ((mem_owned.mp hmem).symm.trans hs)
      rw [Function.update_of_ne heq, Finset.erase_eq_of_notMem hout, h.count g hg]
  · exact List.nodup_append.mpr ⟨h.nodup, List.nodup_singleton s, fun a ha b hb hab =>
      hnew (List.mem_singleton.mp hb ▸ hab ▸ ha)⟩
  · intro t
    dsimp only
    rw [List.mem_append, List.mem_singleton, h.mem]
    by_cases ht : t = s
    · subst ht
      simp [h0]
    · simp [ht]

/-! ### Releasing -/

/-- Taking `k` shards from a group that has as many. -/
theorem LoadsOk.releaseLoop {gids : List γ} (h0 : (0 : γ) ∉ gids) {gid : γ} (hgid : gid ∈ gids)
    {k : Nat} {l : Loads N γ} (h : LoadsOk gids l) (hk : k ≤ l.count gid) :
    ∃ l', releaseLoop gid k l = .ok l' ∧ LoadsOk gids l' ∧
      l'.count = Function.update l.count gid (l.count gid - k) ∧
      ∀ s, l'.shards s = l.shards s ∨ 0 < k ∧ l.shards s = gid ∧ l'.shards s = 0 := by
  induction k generalizing l with
  | zero => exact ⟨l, rfl, h, by simp, fun s => .inl rfl⟩
  | succ k ih =>
    have hpos : (owned l.shards gid).Nonempty := by
      rw [← Finset.card_pos, ← h.count gid hgid]
      omega
    obtain ⟨s, hlast, hs⟩ := lastShardOf_of_owned hpos
    obtain ⟨l', hl', hok, hcount, hmoves⟩ := ih (h.take h0 hgid hs) (by simp; omega)
    refine ⟨l', ?_, hok, ?_, ?_⟩
    · rw [Ctrl.releaseLoop, hlast]
      exact hl'
    · rw [hcount]
      simp only [Function.update_self, Function.update_idem]
      congr 1
      omega
    · intro t
      have ht := hmoves t
      dsimp only at ht
      by_cases hts : t = s
      · subst hts
        rw [Function.update_self] at ht
        exact .inr ⟨Nat.succ_pos k, hs, ht.elim id fun hlater => hlater.2.2⟩
      · rw [Function.update_of_ne hts] at ht
        exact ht.imp_right fun hlater => ⟨Nat.succ_pos k, hlater.2⟩

/-- Over-loaded groups come down to their target, the others keep what they
    have. -/
theorem LoadsOk.release {gids : List γ} (h0 : (0 : γ) ∉ gids) (target : γ → Nat) {gs : List γ}
    (hgs : gs ⊆ gids) (hnd : gs.Nodup) {l : Loads N γ} (h : LoadsOk gids l) :
    ∃ l', gs.foldlM (release target) l = .ok l' ∧ LoadsOk gids l' ∧
      (∀ g, l'.count g = if g ∈ gs then min (l.count g) (target g) else l.count g) ∧
      ∀ s, l'.shards s = l.shards s ∨
        target (l.shards s) < l.count (l.shards s) ∧ l'.shards s = 0 := by
  induction gs generalizing l with
  | nil => exact ⟨l, rfl, h, fun g => by simp, fun s => .inl rfl⟩
  | cons gid gs ih =>
    rw [List.nodup_cons] at hnd
    have hgid : gid ∈ gids := hgs List.mem_cons_self
    obtain ⟨l₁, hl₁, hok₁, hcount₁, hmoves₁⟩ :=
      h.releaseLoop h0 hgid (Nat.sub_le (l.count gid) (target gid))
    obtain ⟨l', hl', hok', hcount', hmoves'⟩ :=
      ih (fun g hg => hgs (List.mem_cons_of_mem _ hg)) hnd.2 hok₁
    refine ⟨l', ?_, hok', ?_, ?_⟩
    · rw [List.foldlM_cons]
      change (Ctrl.releaseLoop gid (l.count gid - target gid) l >>= _) = _
      rw [hl₁]
      exact hl'
    · intro g
      rw [hcount' g, hcount₁]
      by_cases hg : g = gid
      · subst hg
        rw [if_neg hnd.1, if_pos List.mem_cons_self, Function.update_self]
        omega
      · simp [hg]
    · intro s
      rcases hmoves₁ s with hsame | ⟨hpos, rfl, hzero⟩
      · have hs := hmoves' s
        rw [hsame, hcount₁] at hs
        refine hs.imp_right fun ⟨hlt, hzero⟩ => ⟨?_, hzero⟩
        rw [Function.update_apply] at hlt
        split at hlt
        · next heq =>
          rw [heq] at hlt ⊢
          omega
        · exact hlt
      · refine .inr ⟨by omega, ?_⟩
        rcases hmoves' s with hsame | ⟨-, hzero'⟩
        · rw [hsame, hzero]
        · exact hzero'

/-! ### Handing out -/

omit [Zero γ] in
/-- Handing `k` of the unassigned shards to a group. -/
theorem LoadsOk.assignLoop {gids : List γ} {gid : γ} (hgid : gid ∈ gids) {k : Nat}
    {l : Loads N γ} (h : LoadsOk gids l) (hk : k ≤ l.unassigned.length) :
    LoadsOk gids (assignLoop gid k l) ∧
      (assignLoop gid k l).unassigned.length + k = l.unassigned.length ∧
      (assignLoop gid k l).count = Function.update l.count gid (l.count gid + k) ∧
      (assignLoop gid k l).unassigned ⊆ l.unassigned ∧
      ∀ s, (assignLoop gid k l).shards s = l.shards s ∨
        0 < k ∧ s ∈ l.unassigned ∧ (assignLoop gid k l).shards s = gid := by
  induction k generalizing l with
  | zero => exact ⟨h, rfl, by simp [Ctrl.assignLoop], fun _ hs => hs, fun s => .inl rfl⟩
  | succ k ih =>
    cases hl : l.unassigned with
    | nil => simp [hl] at hk
    | cons s rest =>
      rw [hl, List.length_cons] at hk
      obtain ⟨hok, hlen, hcount, hsub, hmoves⟩ :=
        ih (h.give hgid hl) (Nat.le_of_succ_le_succ hk)
      rw [Ctrl.assignLoop, hl]
      refine ⟨hok, ?_, ?_, fun t ht => List.mem_cons_of_mem _ (hsub ht), ?_⟩
      · rw [List.length_cons, ← hlen]
        rfl
      · dsimp only
        rw [hcount]
        simp only [Function.update_self, Function.update_idem]
        congr 1
        omega
      · intro t
        have ht := hmoves t
        dsimp only at ht ⊢
        by_cases hts : t = s
        · subst hts
          rw [Function.update_self] at ht
          exact .inr ⟨Nat.succ_pos k, List.mem_cons_self, ht.elim id fun hlater => hlater.2.2⟩
        · rw [Function.update_of_ne hts] at ht
          exact ht.imp_right fun ⟨_, hmem, heq⟩ =>
            ⟨Nat.succ_pos k, List.mem_cons_of_mem _ hmem, heq⟩

omit [Zero γ] in
/-- If the unassigned shards are as many as the groups miss, all of them are
    handed out and every group comes to its target. -/
theorem LoadsOk.assign {gids : List γ} (target : γ → Nat) {gs : List γ} (hgs : gs ⊆ gids)
    (hnd : gs.Nodup) {l : Loads N γ} (h : LoadsOk gids l)
    (hlen : l.unassigned.length = (gs.map fun g => target g - l.count g).sum) :
    LoadsOk gids (gs.foldl (assign target) l) ∧
      (gs.foldl (Ctrl.assign target) l).unassigned = [] ∧
      (∀ g, (gs.foldl (Ctrl.assign target) l).count g =
        if g ∈ gs then max (l.count g) (target g) else l.count g) ∧
      ∀ s, (gs.foldl (Ctrl.assign target) l).shards s = l.shards s ∨ s ∈ l.unassigned ∧
        l.count ((gs.foldl (Ctrl.assign target) l).shards s) <
          target ((gs.foldl (Ctrl.assign target) l).shards s) := by
  induction gs generalizing l with
  | nil => exact ⟨h, List.length_eq_zero_iff.mp hlen, fun g => by simp, fun s => .inl rfl⟩
  | cons gid gs ih =>
    rw [List.nodup_cons] at hnd
    rw [List.map_cons, List.sum_cons] at hlen
    have hgid : gid ∈ gids := hgs List.mem_cons_self
    obtain ⟨hok, hlen', hcount, hsub, hmoves⟩ :=
      h.assignLoop hgid (k := target gid - l.count gid) (by omega)
    have hrest : gs.map (fun g => target g - (Ctrl.assign target l gid).count g) =
        gs.map fun g => target g - l.count g := by
      refine List.map_congr_left fun g hg => ?_
      have hne : g ≠ gid := fun heq => hnd.1 (heq ▸ hg)
      rw [Ctrl.assign, hcount, Function.update_of_ne hne]
    rw [List.foldl_cons]
    obtain ⟨hok', hnil, hcount', hmoves'⟩ :=
      ih (fun g hg => hgs (List.mem_cons_of_mem _ hg)) hnd.2 (l := Ctrl.assign target l gid) hok
        (by rw [hrest, Ctrl.assign]; omega)
    refine ⟨hok', hnil, fun g => ?_, fun s => ?_⟩
    · rw [hcount' g, Ctrl.assign, hcount]
      by_cases hg : g = gid
      · subst hg
        rw [if_neg hnd.1, if_pos List.mem_cons_self, Function.update_self]
        omega
      · simp [hg]
    · rcases hmoves' s with hsame | ⟨hmem, hlt⟩
      · rw [hsame]
        exact (hmoves s).imp_right fun ⟨hpos, hmem, heq⟩ =>
          ⟨hmem, by rw [Ctrl.assign, heq]; omega⟩
      · refine .inr ⟨hsub hmem, ?_⟩
        have hafter : (Ctrl.assign target l gid).count =
            Function.update l.count gid (l.count gid + (target gid - l.count gid)) := hcount
        rw [hafter, Function.update_apply] at hlt
        split at hlt
        · next heq =>
          -- this group has come to its target
          rw [heq] at hlt
          omega
        · exact hlt

/-! ### Rebalancing -/

omit [Zero γ] in
/-- Sorting the list of unassigned shards keeps what is known about it. -/
theorem LoadsOk.sort {gids : List γ} {l : Loads N γ} (h : LoadsOk gids l) :
    LoadsOk gids { l with unassigned := l.unassigned.insertionSort (· ≤ ·) } where
  count := h.count
  nodup := (List.perm_insertionSort _ _).nodup_iff.mpr h.nodup
  mem s := by
    rw [← h.mem s]
    exact List.mem_insertionSort _

omit [Zero γ] in
/-- If no group is above its target, the groups miss as many shards as are
    unassigned. -/
theorem LoadsOk.length_unassigned {gids : List γ} (hnd : gids.Nodup) (hgids : gids ≠ [])
    {l : Loads N γ} (h : LoadsOk gids l) (hle : ∀ g ∈ gids, l.count g ≤ targets N gids g) :
    l.unassigned.length = (gids.map fun g => targets N gids g - l.count g).sum := by
  have hmiss : (gids.map l.count).sum + (gids.map fun g => targets N gids g - l.count g).sum =
      (gids.map (targets N gids)).sum := by
    rw [← List.sum_map_add]
    exact congrArg List.sum (List.map_congr_left fun g hg => Nat.add_sub_cancel' (hle g hg))
  have hsum := h.sum_count hnd
  rw [sum_targets hnd hgids] at hmiss
  omega

/-- The three passes over the sorted ids. -/
theorem passes_spec {gids : List γ} (hnd : gids.Nodup) (hgids : gids ≠ []) (h0 : (0 : γ) ∉ gids)
    (shards : Fin N → γ) :
    ∃ l l' : Loads N γ,
      gids.foldlM (release (targets N gids)) (countLoads gids shards) = .ok l ∧
      gids.foldl (assign (targets N gids))
        { l with unassigned := l.unassigned.insertionSort (· ≤ ·) } = l' ∧
      (∀ s, l'.shards s ∈ gids) ∧
      (∀ g ∈ gids, (owned l'.shards g).card = targets N gids g) ∧
      ∀ s, l'.shards s = shards s ∨
        (shards s ∉ gids ∨ targets N gids (shards s) < (owned shards (shards s)).card) ∧
        (owned shards (l'.shards s)).card < targets N gids (l'.shards s) := by
  obtain ⟨hstart, hstart_eq⟩ := loadsOk_countLoads h0 shards
  obtain ⟨l, hl, hok, hcount, hreleased⟩ :=
    hstart.release h0 (targets N gids) (fun _ hg => hg) hnd
  have hle : ∀ g ∈ gids, l.count g ≤ targets N gids g := fun g hg => by
    rw [hcount g, if_pos hg]
    exact Nat.min_le_right _ _
  obtain ⟨hend, hnil, htarget, hassigned⟩ :=
    hok.sort.assign (targets N gids) (fun _ hg => hg) hnd (by
      rw [List.length_insertionSort]
      exact hok.length_unassigned hnd hgids hle)
  generalize hl' : gids.foldl (assign (targets N gids))
    { l with unassigned := l.unassigned.insertionSort (· ≤ ·) } = l' at hend hnil htarget hassigned
  have hin : ∀ s, l'.shards s ∈ gids := by
    intro s
    by_contra hs
    have hmem := (hend.mem s).mpr hs
    rw [hnil] at hmem
    cases hmem
  refine ⟨l, l', hl, hl', hin, ?_, ?_⟩
  · intro g hg
    rw [← hend.count g hg, htarget g, if_pos hg]
    exact max_eq_right (hle g hg)
  · intro s
    have hrel := hreleased s
    rw [hstart_eq] at hrel
    rcases hassigned s with hkept | ⟨hfree, hlt⟩
    · -- not handed out: a released shard would be left with group 0
      rcases hrel with hsame | ⟨-, hzero⟩
      · exact .inl (hkept.trans hsame)
      · have hs := hin s
        rw [hkept] at hs
        exact absurd (hzero ▸ hs) h0
    · refine .inr ⟨?_, ?_⟩
      · rw [or_iff_not_imp_left, not_not]
        intro hold
        rcases hrel with hsame | ⟨hover, -⟩
        · have hout : l.shards s ∉ gids := (hok.sort.mem s).mp hfree
          rw [hsame] at hout
          exact absurd hold hout
        · rwa [hstart.count _ hold, hstart_eq] at hover
      · dsimp only at hlt
        rw [hcount _, if_pos (hin s), hstart.count _ (hin s), hstart_eq] at hlt
        omega

/-- Every shard ends up in a group, and every group with its target.  A shard that
    moves had no group or one above its target, and comes to a group below its
    target. -/
theorem rebalance_spec {order : List γ} {c : Config N γ} (horder : Enumerates order c.groups)
    (h0 : (0 : γ) ∉ c.groups) (hne : c.groups ≠ ∅) :
    ∃ c', rebalance order c = .ok c' ∧ c'.num = c.num ∧ c'.groups = c.groups ∧
      (∀ s, c'.shards s ∈ c.groups) ∧
      (∀ g ∈ c.groups, (owned c'.shards g).card = targets N (order.insertionSort (· ≤ ·)) g) ∧
      ∀ s, c'.shards s = c.shards s ∨
        (c.shards s ∉ c.groups ∨ targets N (order.insertionSort (· ≤ ·)) (c.shards s) <
          (owned c.shards (c.shards s)).card) ∧
        (owned c.shards (c'.shards s)).card <
          targets N (order.insertionSort (· ≤ ·)) (c'.shards s) := by
  have hmem : ∀ g, g ∈ order.insertionSort (· ≤ ·) ↔ g ∈ c.groups := fun g => by
    rw [List.mem_insertionSort, horder.mem_iff]
  have hnd : (order.insertionSort (· ≤ ·)).Nodup :=
    (List.perm_insertionSort _ _).nodup_iff.mpr horder.nodup
  unfold rebalance
  generalize order.insertionSort (· ≤ ·) = gids at hmem hnd ⊢
  have hgids : gids ≠ [] := by
    rintro rfl
    exact hne (Finmap.ext_lookup fun g => by
      rw [Finmap.lookup_eq_none.mpr fun hg => List.not_mem_nil ((hmem g).mpr hg),
        Finmap.lookup_empty])
  simp only [← hmem] at h0 ⊢
  obtain ⟨l, l', hl, hl', hin, hloads, hmoves⟩ := passes_spec hnd hgids h0 c.shards
  rw [if_neg (mt List.length_eq_zero_iff.mp hgids), hl]
  exact ⟨{ c with shards := l'.shards }, by rw [← hl']; rfl, rfl, rfl, hin, hloads, hmoves⟩

/-- Without groups every shard goes to the invalid group. -/
theorem rebalance_empty {order : List γ} {c : Config N γ} (horder : Enumerates order c.groups)
    (h : c.groups = ∅) : rebalance order c = .ok { c with shards := fun _ => 0 } := by
  have hnil : order = [] := List.eq_nil_iff_forall_not_mem.mpr fun g hg => by
    rw [horder.mem_iff, h] at hg
    exact Finmap.notMem_empty hg
  subst hnil
  rfl

/-- Only the assignment changes. -/
theorem rebalance_fields {order : List γ} {c c' : Config N γ} (h : rebalance order c = .ok c') :
    c'.num = c.num ∧ c'.groups = c.groups := by
  unfold rebalance at h
  dsimp only at h
  split at h
  · cases h
    exact ⟨rfl, rfl⟩
  · cases hl : List.foldlM (release (targets N (order.insertionSort (· ≤ ·))))
        (countLoads (order.insertionSort (· ≤ ·)) c.shards) (order.insertionSort (· ≤ ·)) with
    | error e =>
      rw [hl] at h
      cases h
    | ok l =>
      rw [hl] at h
      cases h
      exact ⟨rfl, rfl⟩

/-! ### Mutations -/

theorem MapOrders.Possible.mem_prepare_join {o : MapOrders γ} {servers : Groups γ}
    {last : Config N γ} (ho : o.Possible (.join servers) last) {g : γ} :
    g ∈ (prepare o (.join servers) last).groups ↔ g ∈ servers ∨ g ∈ last.groups := by
  simp only [prepare, ho.1.copyGroups_eq]
  exact (ho.2.1 servers rfl).mem_putAll last.groups

theorem MapOrders.Possible.mem_prepare_leave {o : MapOrders γ} {gids : List γ}
    {last : Config N γ} (ho : o.Possible (.leave gids) last) {g : γ} :
    g ∈ (prepare o (.leave gids) last).groups ↔ g ∉ gids ∧ g ∈ last.groups := by
  simp only [prepare, ho.1.copyGroups_eq]
  exact mem_foldl_erase

/-- The result of a mutation does not depend on the orders. -/
theorem MapOrders.Possible.prepare_eq {o o' : MapOrders γ} {args : Args γ} {last : Config N γ}
    (h : o.Possible args last) (h' : o'.Possible args last) :
    prepare o args last = prepare o' args last := by
  unfold prepare
  rw [h.1.copyGroups_eq, h'.1.copyGroups_eq]
  cases args with
  | join servers =>
    dsimp only
    rw [(h.2.1 servers rfl).putAll_eq (h'.2.1 servers rfl)]
  | leave gids => rfl
  | move shard gid => rfl
  | query num => rfl

theorem MapOrders.Possible.nextConfig_eq {o o' : MapOrders γ} {args : Args γ}
    {last : Config N γ} (h : o.Possible args last) (h' : o'.Possible args last) :
    nextConfig o args last = nextConfig o' args last := by
  have hprep := h.prepare_eq h'
  have hbal : rebalance o.gids (prepare o args last) =
      rebalance o'.gids (prepare o' args last) := by
    have hgids := h.2.2
    rw [hprep] at hgids
    rw [hprep]
    unfold rebalance
    rw [hgids.sort_eq h'.2.2]
  unfold nextConfig
  dsimp only
  rw [hbal, hprep]

theorem nextConfig_fields {o : MapOrders γ} {args : Args γ} {last nc : Config N γ}
    (h : nextConfig o args last = .ok nc) :
    nc.num = last.num + 1 ∧ nc.groups = (prepare o args last).groups := by
  unfold nextConfig at h
  cases args with
  | join servers => exact rebalance_fields h
  | leave gids => exact rebalance_fields h
  | move shard gid =>
    dsimp only at h
    split at h
    · cases h
      exact ⟨rfl, rfl⟩
    · cases h
  | query num =>
    cases h
    exact ⟨rfl, rfl⟩

/-- The servers of a group are those that it had, or those that `Join` brings. -/
theorem lookup_of_nextConfig {o : MapOrders γ} {args : Args γ} {last nc : Config N γ}
    (ho : o.Possible args last) (h : nextConfig o args last = .ok nc) {g : γ} {names : List Str}
    (hg : nc.groups.lookup g = some names) : last.groups.lookup g = some names ∨
      ∃ servers, args = .join servers ∧ servers.lookup g = some names := by
  rw [(nextConfig_fields h).2] at hg
  cases args with
  | join servers =>
    simp only [prepare, ho.1.copyGroups_eq, (ho.2.1 servers rfl).lookup_putAll,
      Option.or_eq_some_iff] at hg
    rcases hg with hg | ⟨-, hg⟩
    · exact .inr ⟨servers, rfl, hg⟩
    · exact .inl hg
  | leave gids =>
    simp only [prepare, ho.1.copyGroups_eq] at hg
    exact .inl (lookup_of_foldl_erase hg)
  | move shard gid =>
    simp only [prepare, ho.1.copyGroups_eq] at hg
    exact .inl hg
  | query num =>
    simp only [prepare, ho.1.copyGroups_eq] at hg
    exact .inl hg

theorem exists_possible (args : Args γ) (last : Config N γ) :
    ∃ o : MapOrders γ, o.Possible args last := by
  obtain ⟨copied, hcopied⟩ := exists_enumerates last.groups
  have hservers : ∃ servers' : List γ, ∀ servers, args = .join servers →
      Enumerates servers' servers := by
    cases args with
    | join servers =>
      obtain ⟨order, horder⟩ := exists_enumerates servers
      exact ⟨order, fun _ h => Args.join.inj h ▸ horder⟩
    | leave gids => exact ⟨[], fun _ h => nomatch h⟩
    | move shard gid => exact ⟨[], fun _ h => nomatch h⟩
    | query num => exact ⟨[], fun _ h => nomatch h⟩
  obtain ⟨servers, hservers⟩ := hservers
  obtain ⟨gids, hgids⟩ := exists_enumerates (prepare ⟨copied, servers, []⟩ args last).groups
  -- `prepare` does not range over the new groups.
  have hprep : prepare ⟨copied, servers, gids⟩ args last =
      prepare ⟨copied, servers, []⟩ args last := by
    cases args <;> rfl
  exact ⟨⟨copied, servers, gids⟩, hcopied, hservers, hprep ▸ hgids⟩

/-! ### Well-formed configurations -/

/-- Each shard has a group, and the invalid group 0 exactly when there are none. -/
def Config.WellFormed (c : Config N γ) : Prop :=
  ∀ s, (c.shards s ∈ c.groups ∨ c.shards s = 0) ∧ (c.shards s = 0 ↔ c.groups = ∅)

instance (c : Config N γ) : Decidable c.WellFormed :=
  inferInstanceAs (Decidable (∀ s, (c.shards s ∈ c.groups ∨ c.shards s = 0) ∧
    (c.shards s = 0 ↔ c.groups = ∅)))

/-- Of all arguments only those of `Move` matter: the shard exists, and so does
    the group, or else there are no groups and it is group 0. -/
def Args.Valid (c : Config N γ) : Args γ → Prop
  | .move shard gid =>
    (0 ≤ shard ∧ shard < N) ∧ (gid ∈ c.groups ∨ gid = 0 ∧ c.groups = ∅)
  | .join _ => True
  | .leave _ => True
  | .query _ => True

instance (c : Config N γ) (args : Args γ) : Decidable (args.Valid c) :=
  match args with
  | .move _ _ => inferInstanceAs (Decidable (_ ∧ _))
  | .join _ => isTrue trivial
  | .leave _ => isTrue trivial
  | .query _ => isTrue trivial

/-- `rebalance` repairs whatever assignment it is given. -/
theorem rebalance_wellFormed {order : List γ} {c : Config N γ}
    (horder : Enumerates order c.groups) (h0 : (0 : γ) ∉ c.groups) :
    ∃ c', rebalance order c = .ok c' ∧ c'.groups = c.groups ∧ c'.WellFormed := by
  by_cases hne : c.groups = ∅
  · exact ⟨_, rebalance_empty horder hne, rfl, fun s => by simp [hne]⟩
  · obtain ⟨c', hc', -, hgroups, hshards, -⟩ := rebalance_spec horder h0 hne
    refine ⟨c', hc', hgroups, fun s => ⟨.inl (hgroups ▸ hshards s), ?_⟩⟩
    rw [hgroups]
    refine iff_of_false (fun hzero => ?_) hne
    exact h0 (hzero ▸ hshards s)

theorem MapOrders.Possible.zero_notMem_prepare {o : MapOrders γ} {args : Args γ}
    {last : Config N γ} (ho : o.Possible args last) (h0 : (0 : γ) ∉ last.groups)
    (hjoin : ∀ servers, args = .join servers → (0 : γ) ∉ servers) :
    (0 : γ) ∉ (prepare o args last).groups := by
  cases args with
  | join servers =>
    rw [ho.mem_prepare_join]
    exact not_or.mpr ⟨hjoin servers rfl, h0⟩
  | leave gids =>
    rw [ho.mem_prepare_leave]
    exact fun h => h0 h.2
  | move shard gid =>
    simp only [prepare, ho.1.copyGroups_eq]
    exact h0
  | query num =>
    simp only [prepare, ho.1.copyGroups_eq]
    exact h0

/-- A mutation with valid arguments keeps the configuration well formed. -/
theorem nextConfig_wellFormed {o : MapOrders γ} {args : Args γ} {last : Config N γ}
    (ho : o.Possible args last) (h0 : (0 : γ) ∉ last.groups) (hlast : last.WellFormed)
    (hjoin : ∀ servers, args = .join servers → (0 : γ) ∉ servers) (hvalid : args.Valid last) :
    ∃ nc, nextConfig o args last = .ok nc ∧ nc.WellFormed ∧ (0 : γ) ∉ nc.groups := by
  have hprep := ho.zero_notMem_prepare h0 hjoin
  obtain ⟨c', hc', hgroups, hwf⟩ := rebalance_wellFormed ho.2.2 hprep
  unfold nextConfig
  cases args with
  | join servers => exact ⟨c', hc', hwf, hgroups ▸ hprep⟩
  | leave gids => exact ⟨c', hc', hwf, hgroups ▸ hprep⟩
  | move shard gid =>
    dsimp only
    rw [dif_pos hvalid.1]
    refine ⟨_, rfl, fun s => ?_, hprep⟩
    have hcopy : (prepare o (.move shard gid) last).groups = last.groups := ho.1.copyGroups_eq
    dsimp only
    rw [hcopy, Function.update_apply]
    split
    · rcases hvalid.2 with hin | ⟨hzero, hempty⟩
      · refine ⟨.inl hin, iff_of_false (fun hzero => h0 (hzero ▸ hin)) fun hempty => ?_⟩
        rw [hempty] at hin
        exact Finmap.notMem_empty hin
      · exact ⟨.inr hzero, iff_of_true hzero hempty⟩
    · exact hlast s
  | query num =>
    refine ⟨_, rfl, fun s => ?_, hprep⟩
    have hcopy : (prepare o (.query num) last).groups = last.groups := ho.1.copyGroups_eq
    rw [hcopy]
    exact hlast s

/-- A `Move` that keeps the configuration well formed was valid. -/
theorem valid_of_nextConfig {o : MapOrders γ} {args : Args γ} {last nc : Config N γ}
    (ho : o.Possible args last) (hnc : nextConfig o args last = .ok nc) (hwf : nc.WellFormed) :
    args.Valid last := by
  unfold nextConfig at hnc
  cases args with
  | join servers => trivial
  | leave gids => trivial
  | move shard gid =>
    dsimp only at hnc
    split at hnc
    · next hrange =>
      cases hnc
      refine ⟨hrange, ?_⟩
      have hcopy : (prepare o (.move shard gid) last).groups = last.groups := ho.1.copyGroups_eq
      have hs := hwf ⟨shard.toNat, (Int.toNat_lt hrange.1).mpr hrange.2⟩
      dsimp only at hs
      rw [hcopy, Function.update_self] at hs
      rcases hs.1 with hin | hzero
      · exact .inl hin
      · exact .inr ⟨hzero, hs.2.mp hzero⟩
    · cases hnc
  | query num => trivial

/-! ### Operations that take nothing back -/

/-- No shard is taken back to group 0: `Join` and `Leave` leave a group to have the
    shards, or no shard is assigned, and `Move` names group 0 only for a shard that
    has no group. -/
def Args.Keeps (c : Config N γ) : Args γ → Prop
  | .join servers =>
    (0 : γ) ∉ servers ∧ (servers ≠ ∅ ∨ c.groups ≠ ∅ ∨ ∀ s, c.shards s = 0)
  | .leave gids => (∃ g ∈ c.groups.keys, g ∉ gids) ∨ ∀ s, c.shards s = 0
  | .move shard gid => gid = 0 → ∀ s : Fin N, (s : Int) = shard → c.shards s = 0
  | .query _ => True

instance (c : Config N γ) (args : Args γ) : Decidable (args.Keeps c) :=
  match args with
  | .join _ => inferInstanceAs (Decidable (_ ∧ _))
  | .leave _ => inferInstanceAs (Decidable (_ ∨ _))
  | .move _ _ => inferInstanceAs (Decidable (_ → _))
  | .query _ => isTrue trivial

/-- `rebalance` leaves a shard without a group only if there are no groups. -/
theorem rebalance_keeps {order : List γ} {c c' : Config N γ} (horder : Enumerates order c.groups)
    (h0 : (0 : γ) ∉ c.groups) (h : rebalance order c = .ok c') {s : Fin N}
    (hs : c'.shards s = 0) : c.groups = ∅ := by
  by_contra hne
  obtain ⟨c'', hc'', -, -, hshards, -⟩ := rebalance_spec horder h0 hne
  rw [h] at hc''
  cases hc''
  exact h0 (hs ▸ hshards s)

theorem nextConfig_keeps {o : MapOrders γ} {args : Args γ} {last nc : Config N γ}
    (ho : o.Possible args last) (h0 : (0 : γ) ∉ last.groups) (hkeeps : args.Keeps last)
    (hnc : nextConfig o args last = .ok nc) :
    (0 : γ) ∉ nc.groups ∧ ∀ s, nc.shards s = 0 → last.shards s = 0 := by
  have hjoin : ∀ servers, args = .join servers → (0 : γ) ∉ servers := by
    rintro servers rfl
    exact hkeeps.1
  have hprep := ho.zero_notMem_prepare h0 hjoin
  have hgids := ho.2.2
  unfold nextConfig at hnc
  cases args with
  | join servers =>
    refine ⟨(rebalance_fields hnc).2 ▸ hprep, fun s hs => ?_⟩
    have hempty := rebalance_keeps hgids hprep hnc hs
    -- without groups after a `Join` there were none before, and none came
    have hnone : ∀ g, g ∉ servers ∧ g ∉ last.groups := fun g => by
      have hg : g ∉ (prepare o (.join servers) last).groups := hempty ▸ Finmap.notMem_empty
      rwa [ho.mem_prepare_join, not_or] at hg
    rcases hkeeps.2 with hne | hne | hall
    · exact absurd (Finmap.ext_lookup fun g => by
        rw [Finmap.lookup_eq_none.mpr (hnone g).1, Finmap.lookup_empty]) hne
    · exact absurd (Finmap.ext_lookup fun g => by
        rw [Finmap.lookup_eq_none.mpr (hnone g).2, Finmap.lookup_empty]) hne
    · exact hall s
  | leave gids =>
    refine ⟨(rebalance_fields hnc).2 ▸ hprep, fun s hs => ?_⟩
    have hempty := rebalance_keeps hgids hprep hnc hs
    rcases hkeeps with ⟨g, hg, hstays⟩ | hall
    · have hmem : g ∈ (prepare o (.leave gids) last).groups :=
        ho.mem_prepare_leave.mpr ⟨hstays, Finmap.mem_keys.mp hg⟩
      rw [hempty] at hmem
      exact absurd hmem Finmap.notMem_empty
    · exact hall s
  | move shard gid =>
    dsimp only at hnc
    split at hnc
    · next hrange =>
      cases hnc
      refine ⟨hprep, fun s hs => ?_⟩
      dsimp only at hs
      rw [Function.update_apply] at hs
      split at hs
      · next heq =>
        subst heq
        exact hkeeps hs _ (Int.toNat_of_nonneg hrange.1)
      · exact hs
    · cases hnc
  | query num =>
    cases hnc
    exact ⟨hprep, fun s hs => hs⟩

end RaftLabs.Ctrl
