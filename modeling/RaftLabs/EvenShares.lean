import Mathlib.Algebra.BigOperators.Group.Finset.Piecewise
import Mathlib.Algebra.Order.BigOperators.Group.Finset
import Mathlib.Data.Set.Equitable

/-!
# Even shares

`N` things are dealt out in turn to `n` receivers, who are numbered from 0.  A share
never grows when receivers come or the receiver moves back in the row.

Any other way to give all things away such that no two receivers differ by more than
one makes the same two kinds of shares, and as many of each.  How much of what
receivers had before is kept then depends only on who gets the larger shares.
-/

namespace RaftLabs

/-! ### Dealing in turn -/

/-- What receiver number `i` gets. -/
def share (N n i : Nat) : Nat := N / n + if i < N % n then 1 else 0

/-- Round `x` reaches receiver `i` if there are things left by then. -/
theorem lt_share_iff {N n i x : Nat} (hi : i < n) : x < share N n i ↔ x * n + i < N := by
  have hN := Nat.div_add_mod N n
  have hr : N % n < n := Nat.mod_lt N (Nat.zero_lt_of_lt hi)
  unfold share
  generalize N / n = q at hN ⊢
  generalize N % n = r at hN hr ⊢
  rw [Nat.mul_comm n q] at hN
  rcases Nat.lt_trichotomy x q with hlt | rfl | hgt
  · have hle : (x + 1) * n ≤ q * n := Nat.mul_le_mul_right n hlt
    rw [Nat.succ_mul] at hle
    refine iff_of_true (Nat.lt_add_right _ hlt) ?_
    omega
  · split <;> omega
  · have hle : (q + 1) * n ≤ x * n := Nat.mul_le_mul_right n hgt
    rw [Nat.succ_mul] at hle
    refine iff_of_false ?_ ?_
    · split <;> omega
    · omega

theorem share_le_share {N n n' i i' : Nat} (hi : i < n) (hi' : i' < n') (hn : n ≤ n')
    (hle : i ≤ i') : share N n' i' ≤ share N n i := by
  refine le_of_forall_lt fun x hx => ?_
  rw [lt_share_iff hi'] at hx
  rw [lt_share_iff hi]
  exact lt_of_le_of_lt (Nat.add_le_add (Nat.mul_le_mul_left x hn) hle) hx

theorem share_le_add_one (N n i j : Nat) : share N n i ≤ share N n j + 1 := by
  unfold share
  split <;> split <;> omega

/-! ### Equal up to one -/

section Equitable

variable {ι : Type} {t : Finset ι} {f a b : ι → ℕ} {q : ℕ}

/-- With the smaller share `q` and the larger share `q + 1`, the sum is made up of
    these. -/
theorem sum_eq_card_mul_add (ha : ∀ i ∈ t, a i = q ∨ a i = q + 1) :
    ∑ i ∈ t, a i = t.card * q + (t.filter fun i => a i = q + 1).card := by
  have hconst : ∑ _i ∈ t, q = t.card * q := Finset.sum_const_nat fun _ _ => rfl
  rw [Finset.card_filter, ← hconst, ← Finset.sum_add_distrib]
  refine Finset.sum_congr rfl fun i hi => ?_
  rcases ha i hi with heq | heq
  · rw [heq, if_neg (by omega), add_zero]
  · rw [heq, if_pos rfl]

/-- The shares are the quotient and its successor, and the remainder counts the larger
    ones. -/
theorem card_larger_of_equitableOn {N : ℕ} (ha : Set.EquitableOn (t : Set ι) a)
    (hsum : ∑ i ∈ t, a i = N) :
    (∀ i ∈ t, a i = N / t.card ∨ a i = N / t.card + 1) ∧
      (t.filter fun i => a i = N / t.card + 1).card = N % t.card := by
  subst hsum
  have hcases := Finset.equitableOn_iff.mp ha
  refine ⟨hcases, ?_⟩
  have hdecomp := sum_eq_card_mul_add hcases
  have hdiv := Nat.div_add_mod (∑ i ∈ t, a i) t.card
  omega

/-- What of `f` fits into the shares `a`. -/
theorem sum_min_eq (ha : ∀ i ∈ t, a i = q ∨ a i = q + 1) :
    ∑ i ∈ t, min (f i) (a i) =
      ∑ i ∈ t, min (f i) q + (t.filter fun i => a i = q + 1 ∧ q < f i).card := by
  rw [Finset.card_filter, ← Finset.sum_add_distrib]
  refine Finset.sum_congr rfl fun i hi => ?_
  rcases ha i hi with heq | heq
  · rw [heq, if_neg (by omega), add_zero]
  · rw [heq]
    split <;> omega

/-- If the larger shares go to receivers that can fill them, as far as there are such
    receivers, no other way to deal keeps more. -/
theorem sum_min_le (ha : ∀ i ∈ t, a i = q ∨ a i = q + 1) (hb : ∀ i ∈ t, b i = q ∨ b i = q + 1)
    (hcard : (t.filter fun i => a i = q + 1).card = (t.filter fun i => b i = q + 1).card)
    (hfill : (∀ i ∈ t, b i = q + 1 → q < f i) ∨ ∀ i ∈ t, q < f i → b i = q + 1) :
    ∑ i ∈ t, min (f i) (a i) ≤ ∑ i ∈ t, min (f i) (b i) := by
  rw [sum_min_eq ha, sum_min_eq hb]
  refine Nat.add_le_add_left ?_ _
  rcases hfill with hall | hall
  · calc (t.filter fun i => a i = q + 1 ∧ q < f i).card
        ≤ (t.filter fun i => a i = q + 1).card :=
          Finset.card_le_card fun i hi => by
            rw [Finset.mem_filter] at hi ⊢
            exact ⟨hi.1, hi.2.1⟩
      _ = (t.filter fun i => b i = q + 1).card := hcard
      _ ≤ (t.filter fun i => b i = q + 1 ∧ q < f i).card := by
          refine Finset.card_le_card fun i hi => ?_
          rw [Finset.mem_filter] at hi ⊢
          exact ⟨hi.1, hi.2, hall i hi.1 hi.2⟩
  · refine Finset.card_le_card fun i hi => ?_
    rw [Finset.mem_filter] at hi ⊢
    exact ⟨hi.1, hall i hi.1 hi.2.2, hi.2.2⟩

end Equitable

end RaftLabs
