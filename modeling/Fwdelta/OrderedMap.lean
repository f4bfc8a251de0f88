import Mathlib.Order.Lattice
import Mathlib.Tactic.Common

/-
Maps as lists of entries in the order of their keys.

Inserting replaces the entry of a key or puts a new one in its place, so the keys
stay in strict order and each key has one value, the last one inserted.
-/

namespace OrderedMap

variable {κ α : Type*} [LinearOrder κ]

def insert (k : κ) (a : α) : List (κ × α) → List (κ × α)
  | [] => [(k, a)]
  | (j, b) :: rest =>
      if k < j then (k, a) :: (j, b) :: rest
      else if k = j then (k, a) :: rest
      else (j, b) :: insert k a rest

/-- Keys in strict order. -/
def Ordered (entries : List (κ × α)) : Prop :=
  entries.Pairwise (fun x y => x.1 < y.1)

theorem mem_of_mem_insert {k : κ} {a : α} {entries : List (κ × α)} {entry : κ × α}
    (member : entry ∈ insert k a entries) : entry = (k, a) ∨ entry ∈ entries := by
  induction entries with
  | nil => exact Or.inl (List.mem_singleton.mp member)
  | cons first rest ih =>
      obtain ⟨j, b⟩ := first
      unfold insert at member
      split at member
      · exact List.mem_cons.mp member
      · split at member
        · rcases List.mem_cons.mp member with new | later
          · exact Or.inl new
          · exact Or.inr (List.mem_cons_of_mem _ later)
        · rcases List.mem_cons.mp member with rfl | later
          · exact Or.inr List.mem_cons_self
          · exact (ih later).imp id (List.mem_cons_of_mem _)

theorem Ordered.insert {entries : List (κ × α)} (ordered : Ordered entries) (k : κ) (a : α) :
    Ordered (insert k a entries) := by
  induction entries with
  | nil => exact List.pairwise_singleton _ _
  | cons first rest ih =>
      obtain ⟨j, b⟩ := first
      obtain ⟨below, tail⟩ := List.pairwise_cons.mp ordered
      unfold OrderedMap.insert
      split
      · next before =>
          refine List.pairwise_cons.mpr ⟨fun entry member => ?_, ordered⟩
          rcases List.mem_cons.mp member with rfl | later
          · exact before
          · exact before.trans (below entry later)
      · next notBefore =>
          split
          · next same =>
              subst same
              exact List.pairwise_cons.mpr ⟨below, tail⟩
          · next different =>
              refine List.pairwise_cons.mpr ⟨fun entry member => ?_, ih tail⟩
              rcases mem_of_mem_insert member with rfl | earlier
              · exact lt_of_le_of_ne (not_lt.mp notBefore) (Ne.symm different)
              · exact below entry earlier

theorem mem_insert {entries : List (κ × α)} (ordered : Ordered entries) (k : κ) (a : α)
    (entry : κ × α) :
    entry ∈ insert k a entries ↔ entry = (k, a) ∨ (entry.1 ≠ k ∧ entry ∈ entries) := by
  induction entries with
  | nil => simp [insert]
  | cons first rest ih =>
      obtain ⟨j, b⟩ := first
      obtain ⟨below, tail⟩ := List.pairwise_cons.mp ordered
      unfold insert
      split
      · next before =>
          have other : ∀ entry ∈ (j, b) :: rest, entry.1 ≠ k := by
            intro entry member
            rcases List.mem_cons.mp member with rfl | later
            · exact ne_of_gt before
            · exact ne_of_gt (before.trans (below entry later))
          rw [List.mem_cons]
          exact or_congr_right ⟨fun member => ⟨other entry member, member⟩, And.right⟩
      · next notBefore =>
          split
          · next same =>
              subst same
              have other : ∀ entry ∈ rest, entry.1 ≠ k :=
                fun entry member => ne_of_gt (below entry member)
              rw [List.mem_cons, List.mem_cons]
              constructor
              · rintro (new | later)
                · exact Or.inl new
                · exact Or.inr ⟨other entry later, Or.inr later⟩
              · rintro (new | ⟨different, replaced | later⟩)
                · exact Or.inl new
                · rw [replaced] at different
                  exact absurd rfl different
                · exact Or.inr later
          · next different =>
              rw [List.mem_cons, ih tail, List.mem_cons]
              constructor
              · rintro (rfl | new | ⟨other, later⟩)
                · exact Or.inr ⟨Ne.symm different, Or.inl rfl⟩
                · exact Or.inl new
                · exact Or.inr ⟨other, Or.inr later⟩
              · rintro (new | ⟨other, rfl | later⟩)
                · exact Or.inr (Or.inl new)
                · exact Or.inl rfl
                · exact Or.inr (Or.inr ⟨other, later⟩)

end OrderedMap
