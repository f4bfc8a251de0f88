import Mathlib.Data.List.Pairwise
import Mathlib.Order.Lattice

/-
The first items of a list in descending order.
-/

namespace Ranking

variable {α W : Type*} [LinearOrder W] {weight : α → W} {items : List α}

/-- Heaviest first. -/
def Descending (weight : α → W) (items : List α) : Prop :=
  items.Pairwise (fun a b => weight b ≤ weight a)

theorem Descending.drop_le_take (sorted : Descending weight items) (n : Nat) {a b : α}
    (kept : a ∈ items.take n) (dropped : b ∈ items.drop n) : weight b ≤ weight a := by
  unfold Descending at sorted
  rw [← List.take_append_drop n items, List.pairwise_append] at sorted
  exact sorted.2.2 a kept b dropped

/-- The first items are at least a bound exactly when there are as many items of
that weight as are taken. -/
theorem Descending.forall_take_iff (sorted : Descending weight items) (n : Nat) (bound : W) :
    (∀ a ∈ items.take n, bound ≤ weight a) ↔
      min n items.length ≤ items.countP (fun a => bound ≤ weight a) := by
  unfold Descending at sorted
  induction items generalizing n with
  | nil => simp
  | cons first rest ih =>
      rw [List.pairwise_cons] at sorted
      cases n with
      | zero => simp
      | succ n =>
          rw [List.take_succ_cons, List.forall_mem_cons, List.countP_cons, List.length_cons,
            Nat.add_min_add_right, ih sorted.2 n]
          by_cases heavy : bound ≤ weight first
          · simp [heavy]
          · -- Nothing after a light item is heavy.
            have none : rest.countP (fun a => bound ≤ weight a) = 0 := by
              rw [List.countP_eq_zero]
              intro a member
              rw [decide_eq_true_eq]
              exact fun bounded => heavy (bounded.trans (sorted.1 a member))
            simp [heavy, none]

end Ranking
