import Fwdelta.Pointwise
import Mathlib.Logic.Equiv.Defs
import Mathlib.Tactic.Common

/-
First-match evaluation over arbitrary points.

A list of predicates decides a point by the first one that holds of it.  The
forward recurrence cuts the space into the cells the predicates decide; the
backward recurrence computes the permitted points of each suffix.  Neither
knows what a point is.
-/

namespace FirstMatch

variable {α : Type*}

/-- The position of the first predicate that holds, if any does. -/
def decider (predicates : List (α → Bool)) (x : α) : Option Nat :=
  predicates.findIdx? (fun predicate => predicate x)

structure Ruling (α : Type*) where
  holds : α → Bool
  permits : Bool

def verdict (policy : Bool) (rulings : List (Ruling α)) (x : α) : Bool :=
  match rulings.find? (fun ruling => ruling.holds x) with
  | some ruling => ruling.permits
  | none => policy

/-- The backward recurrence: the permitted points of a suffix. -/
def suffixAccept (policy : Bool) : List (Ruling α) → α → Bool
  | [], _ => policy
  | ruling :: rest, x =>
      if ruling.permits then ruling.holds x || suffixAccept policy rest x
      else !ruling.holds x && suffixAccept policy rest x

/-- The forward recurrence: each predicate less everything seen before it. -/
def cells (seen : α → Bool) : List (α → Bool) → List (α → Bool)
  | [] => []
  | predicate :: rest =>
      (fun x => predicate x && !seen x) ::
        cells (fun x => seen x || predicate x) rest

theorem suffixAccept_eq_verdict (policy : Bool) (rulings : List (Ruling α)) (x : α) :
    suffixAccept policy rulings x = verdict policy rulings x := by
  induction rulings with
  | nil => rfl
  | cons ruling rest ih =>
      unfold verdict at ih ⊢
      rw [suffixAccept, ih, List.find?_cons]
      cases holds : ruling.holds x <;> cases permits : ruling.permits <;> simp [permits]

/-- A cell holds the unseen points its predicate is the first to match. -/
theorem cells_apply {seen : α → Bool} {predicates : List (α → Bool)} {i : Nat}
    {cell : α → Bool} (at_ : (cells seen predicates)[i]? = some cell) (x : α) :
    cell x = (!seen x && decide (decider predicates x = some i)) := by
  induction predicates generalizing seen i with
  | nil => simp [cells] at at_
  | cons predicate rest ih =>
      rw [cells] at at_
      unfold decider at ih ⊢
      rw [List.findIdx?_cons]
      cases i with
      | zero =>
          rw [List.getElem?_cons_zero, Option.some.injEq] at at_
          rw [← at_]
          beta_reduce
          cases predicate x <;> cases seen x <;> simp
      | succ i =>
          rw [List.getElem?_cons_succ] at at_
          rw [ih at_]
          cases predicate x <;> cases seen x <;> simp

/-! ### Reordering -/

theorem find?_eq_some_iff_first {rulings : List (Ruling α)} {x : α} {ruling : Ruling α} :
    rulings.find? (fun ruling => ruling.holds x) = some ruling ↔
      ∃ i : Fin rulings.length, rulings.get i = ruling ∧ (rulings.get i).holds x = true ∧
        ∀ j < i, (rulings.get j).holds x = false := by
  rw [List.find?_eq_some_iff_getElem]
  constructor
  · intro found
    obtain ⟨holds, i, bound, rfl, first⟩ := found
    refine ⟨⟨i, bound⟩, rfl, holds, ?_⟩
    intro j before
    simpa using first j before
  · intro found
    obtain ⟨i, rfl, holds, first⟩ := found
    refine ⟨holds, i, i.isLt, rfl, ?_⟩
    intro j before
    simpa using first ⟨j, Nat.lt_trans before i.isLt⟩ before

theorem find?_eq_none_iff_get {rulings : List (Ruling α)} {x : α} :
    rulings.find? (fun ruling => ruling.holds x) = none ↔
      ∀ i, (rulings.get i).holds x = false := by
  simp only [List.find?_eq_none, Bool.not_eq_true]
  constructor
  · exact fun clear i => clear _ (rulings.get_mem i)
  · intro clear ruling member
    obtain ⟨i, rfl⟩ := List.get_of_mem member
    exact clear i

/-- The same rulings listed in another order give the same verdicts, when rulings
that overlap and disagree keep their order. -/
theorem verdict_eq_of_reordered (policy : Bool) {rulings others : List (Ruling α)}
    (place : Fin rulings.length ≃ Fin others.length)
    (same : ∀ i, others.get (place i) = rulings.get i)
    (kept : ∀ i j, i < j →
      (∃ x, (rulings.get i).holds x = true ∧ (rulings.get j).holds x = true) →
      (rulings.get i).permits ≠ (rulings.get j).permits → place i < place j) (x : α) :
    verdict policy others x = verdict policy rulings x := by
  unfold verdict
  cases here : rulings.find? (fun ruling => ruling.holds x) with
  | none =>
      rw [find?_eq_none_iff_get] at here
      have none : others.find? (fun ruling => ruling.holds x) = none := by
        rw [find?_eq_none_iff_get]
        intro k
        obtain ⟨i, rfl⟩ := place.surjective k
        rw [same i]
        exact here i
      rw [none]
  | some ruling =>
      obtain ⟨i, rfl, holds, first⟩ := find?_eq_some_iff_first.mp here
      cases there : others.find? (fun ruling => ruling.holds x) with
      | none =>
          have clear := find?_eq_none_iff_get.mp there (place i)
          rw [same i, holds] at clear
          contradiction
      | some other =>
          obtain ⟨k, rfl, otherHolds, otherFirst⟩ := find?_eq_some_iff_first.mp there
          -- The ruling that is first in the other order, at its place in this one.
          obtain ⟨j, rfl⟩ := place.surjective k
          simp only [same j] at otherHolds ⊢
          by_contra differ
          have notBefore : ¬ j < i := by
            intro before
            rw [first j before] at otherHolds
            contradiction
          have distinct : i ≠ j := by
            intro equal
            rw [equal] at differ
            exact differ rfl
          have order := kept i j (by omega) ⟨x, holds, otherHolds⟩ (Ne.symm differ)
          have clear := otherFirst (place i) order
          rw [same i, holds] at clear
          contradiction

/-! ### Deletion -/

/-- The ruling at a position decides what it is the first to hold of. -/
theorem decider_eq_some_iff (before : List (Ruling α)) (ruling : Ruling α)
    (after : List (Ruling α)) (x : α) :
    decider ((before ++ ruling :: after).map Ruling.holds) x = some before.length ↔
      (∀ earlier ∈ before, earlier.holds x = false) ∧ ruling.holds x = true := by
  unfold decider
  rw [List.findIdx?_map, List.findIdx?_eq_some_iff_getElem]
  simp only [Function.comp_apply, List.getElem_append_right (Nat.le_refl before.length),
    Nat.sub_self, List.getElem_cons_zero, Bool.not_eq_true, List.length_append,
    List.length_cons]
  constructor
  · intro found
    obtain ⟨_, holds, earlier⟩ := found
    refine ⟨?_, holds⟩
    intro other member
    obtain ⟨j, bound, rfl⟩ := List.mem_iff_getElem.mp member
    have here := earlier j bound
    rwa [List.getElem_append_left bound] at here
  · intro given
    obtain ⟨clear, holds⟩ := given
    refine ⟨by omega, holds, ?_⟩
    intro j bound
    rw [List.getElem_append_left bound]
    exact clear _ (List.getElem_mem bound)

theorem verdict_append_of_clear (policy : Bool) {before : List (Ruling α)} {x : α}
    (clear : ∀ earlier ∈ before, earlier.holds x = false) (after : List (Ruling α)) :
    verdict policy (before ++ after) x = verdict policy after x := by
  have none : before.find? (fun ruling => ruling.holds x) = none := by
    rw [List.find?_eq_none]
    intro earlier member
    rw [clear earlier member]
    exact Bool.false_ne_true
  unfold verdict
  rw [List.find?_append, none, Option.none_or]

theorem verdict_insert_of_not_first (policy : Bool) {before : List (Ruling α)}
    {ruling : Ruling α} {x : α}
    (other : (∃ earlier ∈ before, earlier.holds x = true) ∨ ruling.holds x = false)
    (after : List (Ruling α)) :
    verdict policy (before ++ ruling :: after) x = verdict policy (before ++ after) x := by
  unfold verdict
  rw [List.find?_append, List.find?_append]
  rcases other with earlier | skipped
  · have found := List.find?_isSome.mpr earlier
    obtain ⟨first, decides⟩ := Option.isSome_iff_exists.mp found
    rw [decides, Option.some_or, Option.some_or]
  · rw [List.find?_cons, skipped]

/-- Where none of the first rulings holds, the deciding one is after them. -/
theorem length_le_of_decider {before after : List (Ruling α)} {x : α}
    (clear : ∀ earlier ∈ before, earlier.holds x = false) {i : Nat}
    (decides : decider ((before ++ after).map Ruling.holds) x = some i) : before.length ≤ i := by
  unfold decider at decides
  rw [List.findIdx?_map] at decides
  obtain ⟨bound, holds, _⟩ := List.findIdx?_eq_some_iff_getElem.mp decides
  by_contra sooner
  rw [Function.comp_apply, List.getElem_append_left (by omega),
    clear _ (List.getElem_mem _)] at holds
  contradiction

/-- An inserted ruling that changes a verdict decides the point. -/
theorem decides_of_verdict_ne {policy : Bool} {before : List (Ruling α)} {ruling : Ruling α}
    {after : List (Ruling α)} {x : α}
    (differ : verdict policy (before ++ ruling :: after) x ≠ verdict policy (before ++ after) x) :
    (∀ earlier ∈ before, earlier.holds x = false) ∧ ruling.holds x = true ∧
      verdict policy (before ++ ruling :: after) x = ruling.permits := by
  have first : ¬ ((∃ earlier ∈ before, earlier.holds x = true) ∨ ruling.holds x = false) :=
    fun other => differ (verdict_insert_of_not_first policy other after)
  simp only [not_or, not_exists, not_and, Bool.not_eq_true, Bool.not_eq_false] at first
  obtain ⟨clear, holds⟩ := first
  refine ⟨clear, holds, ?_⟩
  rw [verdict_append_of_clear policy clear, verdict, List.find?_cons, holds]

/-- Deleting a ruling changes no verdict exactly when it rules on every point it
decides as the rulings after it would. -/
theorem verdict_delete_iff (policy : Bool) (before : List (Ruling α)) (ruling : Ruling α)
    (after : List (Ruling α)) :
    (∀ x, verdict policy (before ++ after) x = verdict policy (before ++ ruling :: after) x) ↔
      ∀ x, (∀ earlier ∈ before, earlier.holds x = false) → ruling.holds x = true →
        ruling.permits = verdict policy after x := by
  apply forall_congr'
  intro x
  by_cases first : (∀ earlier ∈ before, earlier.holds x = false) ∧ ruling.holds x = true
  · obtain ⟨clear, holds⟩ := first
    have decided : verdict policy (ruling :: after) x = ruling.permits := by
      rw [verdict, List.find?_cons, holds]
    rw [verdict_append_of_clear policy clear, verdict_append_of_clear policy clear, decided]
    constructor
    · exact fun same _ _ => same.symm
    · exact fun same => (same clear holds).symm
  · have other : (∃ earlier ∈ before, earlier.holds x = true) ∨ ruling.holds x = false := by
      by_contra neither
      simp only [not_or, not_exists, not_and, Bool.not_eq_true, Bool.not_eq_false] at neither
      exact first neither
    rw [verdict_insert_of_not_first policy other]
    constructor
    · exact fun _ clear holds => absurd ⟨clear, holds⟩ first
    · exact fun _ => rfl

/-- Listing only some of the predicates, in their order, leaves the deciding one
as long as it is listed. -/
theorem decider_of_kept {predicates others : List (α → Bool)} {kept : List Nat}
    (listed : List.Forall₂ (fun i other => predicates[i]? = some other) kept others)
    (ordered : kept.Pairwise (· < ·)) {x : α}
    (decides : ∀ i, decider predicates x = some i → i ∈ kept) :
    (decider others x).bind (fun k => kept[k]?) = decider predicates x := by
  have searched : decider others x = kept.findIdx? (fun i => predicates[i]?.any (· x)) := by
    symm
    apply listed.findIdx?_eq
    intro i other at_
    rw [at_, Option.any_some]
  rw [searched, ← List.find?_eq_bind_findIdx?_getElem?]
  cases first : decider predicates x with
  | none =>
      have clear := List.findIdx?_eq_none_iff.mp first
      rw [List.find?_eq_none]
      intro i _ holds
      obtain ⟨predicate, at_, here⟩ := Option.any_eq_true _ _ |>.mp holds
      rw [clear predicate (List.mem_of_getElem? at_)] at here
      contradiction
  | some i =>
      obtain ⟨bound, holds, before⟩ := List.findIdx?_eq_some_iff_getElem.mp first
      obtain ⟨earlier, later, split⟩ := List.append_of_mem (decides i first)
      rw [split, List.find?_append, List.find?_eq_none.mpr, Option.none_or,
        List.find?_cons_of_pos]
      · rw [List.getElem?_eq_getElem bound, Option.any_some]
        exact holds
      · intro j member there
        rw [split, List.pairwise_append] at ordered
        have less := ordered.2.2 j member i (by simp)
        rw [List.getElem?_eq_getElem (by omega), Option.any_some] at there
        exact before j less there

end FirstMatch
