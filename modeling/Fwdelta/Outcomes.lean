import Mathlib.Tactic.Common

/-
What holds of every outcome of a computation with a state.

The rules push a property of the result through a computation, whatever state it
starts from: for `pure` and `bind`, for choices, and for a loop that keeps an
invariant.
-/

namespace Outcomes

variable {σ α β : Type}

/-- The result satisfies the property, from every state. -/
def Always (x : StateM σ α) (property : α → Prop) : Prop :=
  ∀ s, property (x.run s).1

theorem Always.imp {x : StateM σ α} {P Q : α → Prop} (always : Always x P)
    (weaker : ∀ a, P a → Q a) : Always x Q :=
  fun s => weaker _ (always s)

/-- What holds of every value holds of every outcome. -/
theorem always_of_forall {x : StateM σ α} {Q : α → Prop} (all : ∀ a, Q a) : Always x Q :=
  fun _ => all _

theorem always_pure {a : α} {Q : α → Prop} (holds : Q a) : Always (pure a : StateM σ α) Q :=
  fun _ => holds

theorem always_bind {x : StateM σ α} {f : α → StateM σ β} {Q : β → Prop}
    (later : Always x (fun a => Always (f a) Q)) : Always (x >>= f) Q :=
  fun s => later s (x.run s).2

theorem always_ite {p : Prop} [Decidable p] {x y : StateM σ α} {Q : α → Prop}
    (yes : p → Always x Q) (no : ¬ p → Always y Q) : Always (if p then x else y) Q := by
  split
  · next holds => exact yes holds
  · next fails => exact no fails

/-- A loop ends where its rounds lead, counted from the rounds already done. -/
theorem always_foldlM {f : β → α → StateM σ β} {Inv : Nat → β → Prop} {items : List α}
    {done : Nat} {start : β} (first : Inv done start)
    (round : ∀ k b a, Inv k b → Always (f b a) (Inv (k + 1))) :
    Always (items.foldlM f start) (Inv (done + items.length)) := by
  induction items generalizing done start with
  | nil => exact always_pure first
  | cons item rest ih =>
      rw [List.foldlM_cons, List.length_cons, Nat.add_comm rest.length, ← Nat.add_assoc]
      exact always_bind ((round done start item first).imp (fun _ kept => ih kept))

end Outcomes
