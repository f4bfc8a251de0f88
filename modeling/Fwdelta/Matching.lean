import Mathlib.Data.List.Nodup
import Mathlib.Data.List.Perm.Subperm

/-
Matching two lists by a key, first come first served.

Each item of the left list takes the first item of the right list that has its key
and was not taken before.  Then the items of one key are matched in order, and no
matching that respects the keys has more pairs.
-/

namespace Matching

variable {α β K : Type*}

/-- The run of the matching: the pairs made, and the items left on both sides. -/
inductive Greedy (key : α → K) (key' : β → K) :
    List α → List β → List (α × β) → List α → List β → Prop
  | done (rights : List β) : Greedy key key' [] rights [] [] rights
  | pair {a : α} {b : β} {lefts : List α} {before after : List β} {pairs : List (α × β)}
      {lostLeft : List α} {lostRight : List β} (same : key a = key' b)
      (first : ∀ c ∈ before, key' c ≠ key a)
      (later : Greedy key key' lefts (before ++ after) pairs lostLeft lostRight) :
      Greedy key key' (a :: lefts) (before ++ b :: after) ((a, b) :: pairs) lostLeft lostRight
  | skip {a : α} {lefts : List α} {rights : List β} {pairs : List (α × β)} {lostLeft : List α}
      {lostRight : List β} (none : ∀ c ∈ rights, key' c ≠ key a)
      (later : Greedy key key' lefts rights pairs lostLeft lostRight) :
      Greedy key key' (a :: lefts) rights pairs (a :: lostLeft) lostRight

/-- Where keys are distinct, an item is found by its key. -/
theorem find?_key [BEq K] [LawfulBEq K] {key : α → K} {items : List α}
    (distinct : (items.map key).Nodup) {a : α} (member : a ∈ items) :
    items.find? (fun b => key b == key a) = some a := by
  cases found : items.find? (fun b => key b == key a) with
  | none => simpa using List.find?_eq_none.mp found a member
  | some b =>
      have same := List.find?_some found
      rw [beq_iff_eq] at same
      rw [List.inj_on_of_nodup_map distinct (List.mem_of_find?_eq_some found) member same]

namespace Greedy

variable {key : α → K} {key' : β → K} {lefts : List α} {rights : List β}
  {pairs : List (α × β)} {lostLeft : List α} {lostRight : List β}

theorem fst_sublist (run : Greedy key key' lefts rights pairs lostLeft lostRight) :
    (pairs.map Prod.fst).Sublist lefts := by
  induction run with
  | done rights => exact List.Sublist.slnil
  | pair _ _ _ ih => exact ih.cons_cons _
  | skip _ _ ih => exact ih.cons _

theorem left_perm (run : Greedy key key' lefts rights pairs lostLeft lostRight) :
    (pairs.map Prod.fst ++ lostLeft).Perm lefts := by
  induction run with
  | done rights => exact List.Perm.refl _
  | pair _ _ _ ih => exact ih.cons _
  | skip _ _ ih => exact List.perm_middle.trans (ih.cons _)

theorem right_perm (run : Greedy key key' lefts rights pairs lostLeft lostRight) :
    (pairs.map Prod.snd ++ lostRight).Perm rights := by
  induction run with
  | done rights => exact List.Perm.refl _
  | pair _ _ _ ih => exact (ih.cons _).trans List.perm_middle.symm
  | skip _ _ ih => exact ih

theorem same_key (run : Greedy key key' lefts rights pairs lostLeft lostRight) :
    ∀ pair ∈ pairs, key pair.1 = key' pair.2 := by
  induction run with
  | done rights => simp
  | pair same _ _ ih => exact List.forall_mem_cons.mpr ⟨same, ih⟩
  | skip _ _ ih => exact ih

/-- An item is left only when its key is used up on the other side. -/
theorem exhausted (run : Greedy key key' lefts rights pairs lostLeft lostRight) :
    ∀ a ∈ lostLeft, ∀ b ∈ lostRight, key' b ≠ key a := by
  induction run with
  | done rights => simp
  | pair _ _ _ ih => exact ih
  | skip none later ih =>
      refine List.forall_mem_cons.mpr ⟨?_, ih⟩
      intro b left
      exact none b (later.right_perm.subset (List.mem_append_right _ left))

variable [DecidableEq K]

/-- The items of one key are matched in order. -/
theorem filter_eq_zip (run : Greedy key key' lefts rights pairs lostLeft lostRight) (k : K) :
    pairs.filter (fun pair => key pair.1 = k) =
      (lefts.filter (fun a => key a = k)).zip (rights.filter (fun b => key' b = k)) := by
  induction run with
  | done rights => rfl
  | @pair a b lefts before after pairs _ _ same first _ ih =>
      rw [List.filter_append] at ih ⊢
      by_cases here : key a = k
      · have none : before.filter (fun c => key' c = k) = [] := by
          rw [List.filter_eq_nil_iff]
          intro c member
          simpa [here] using first c member
        rw [none, List.nil_append] at ih ⊢
        rw [List.filter_cons_of_pos (by simpa using here),
          List.filter_cons_of_pos (by simpa using here),
          List.filter_cons_of_pos (by simpa [← same] using here), List.zip_cons_cons, ih]
      · rw [List.filter_cons_of_neg (by simpa using here),
          List.filter_cons_of_neg (by simpa using here),
          List.filter_cons_of_neg (by simpa [← same] using here), ih]
  | @skip a lefts rights pairs _ _ none _ ih =>
      by_cases here : key a = k
      · have nothing : rights.filter (fun c => key' c = k) = [] := by
          rw [List.filter_eq_nil_iff]
          intro c member
          simpa [here] using none c member
        rw [ih, nothing, List.zip_nil_right, List.zip_nil_right]
      · rw [ih, List.filter_cons_of_neg (by simpa using here)]

/-- No matching that respects the keys has more pairs. -/
theorem length_le (run : Greedy key key' lefts rights pairs lostLeft lostRight)
    {other : List (α × β)} (left : (other.map Prod.fst).Subperm lefts)
    (right : (other.map Prod.snd).Subperm rights)
    (same : ∀ pair ∈ other, key pair.1 = key' pair.2) : other.length ≤ pairs.length := by
  -- A key is used up on the left, or else on the right.
  let used := fun k => decide (k ∉ lostLeft.map key)
  have onLeft : other.countP (fun pair => used (key pair.1)) ≤
      pairs.countP (fun pair => used (key pair.1)) := by
    have paired : lostLeft.countP (fun a => used (key a)) = 0 := by
      rw [List.countP_eq_zero]
      intro a lost
      simpa [used] using ⟨a, lost, rfl⟩
    have among := (left.trans run.left_perm.symm.subperm).countP_le (fun a => used (key a))
    rw [List.countP_append, paired, Nat.add_zero, List.countP_map, List.countP_map] at among
    exact among
  have onRight : other.countP (fun pair => !used (key pair.1)) ≤
      pairs.countP (fun pair => !used (key pair.1)) := by
    have paired : lostRight.countP (fun b => !used (key' b)) = 0 := by
      rw [List.countP_eq_zero]
      intro b lost
      have free (a : α) (lostToo : a ∈ lostLeft) : key a ≠ key' b :=
        (run.exhausted a lostToo b lost).symm
      simpa [used] using free
    have among := (right.trans run.right_perm.symm.subperm).countP_le (fun b => !used (key' b))
    rw [List.countP_append, paired, Nat.add_zero, List.countP_map, List.countP_map] at among
    have sameUse (list : List (α × β)) (keyed : ∀ pair ∈ list, key pair.1 = key' pair.2) :
        list.countP ((fun b => !used (key' b)) ∘ Prod.snd) =
          list.countP (fun pair => !used (key pair.1)) := by
      apply List.countP_congr
      intro pair member
      rw [Function.comp, keyed pair member]
    rw [sameUse other same, sameUse pairs run.same_key] at among
    exact among
  have split (list : List (α × β)) : list.length =
      list.countP (fun pair => used (key pair.1)) +
        list.countP (fun pair => !used (key pair.1)) := by
    rw [List.length_eq_countP_add_countP (fun pair => used (key pair.1))]
    simp only [Bool.not_eq_true, Bool.decide_eq_false]
  rw [split other, split pairs]
  exact Nat.add_le_add onLeft onRight

end Greedy

end Matching
