import Fwdelta.Ir.Intervals
import Mathlib.Data.Set.Card
import Mathlib.Order.Interval.Finset.Nat

/-
The algebra of interval sets.

An expression tells how a set was built, from endpoints inside the domain.  The code
computes an interval set for it, and the mathematical operations a set of values:
the two agree, and everything the code asks of an interval set is a question about
its values.
-/

namespace Fwdelta

theorem ncard_covers {max : Nat} {ranges : List Range} (canonical : Canonical max ranges) :
    {x | Covers ranges x}.ncard =
      (ranges.map (fun range => range.2 - range.1 + 1)).sum := by
  have finite (others : List Range) (bounded : Canonical max others) :
      {x | Covers others x}.Finite := by
    apply (Finset.finite_toSet (Finset.range (max + 1))).subset
    intro x covered
    exact Finset.mem_coe.mpr (Finset.mem_range.mpr
      (Nat.lt_succ_of_le (bounded.le_max covered)))
  induction ranges with
  | nil => simp
  | cons range rest ih =>
      obtain ⟨ordered, _, _, restCanonical⟩ := canonical_cons.mp canonical
      have split : {x | Covers (range :: rest) x} =
          (Finset.Icc range.1 range.2 : Set Nat) ∪ {x | Covers rest x} := by
        ext x
        simp
      have clear : Disjoint (Finset.Icc range.1 range.2 : Set Nat) {x | Covers rest x} := by
        rw [Set.disjoint_left]
        intro x inRange inRest
        have beyond := canonical.lt_of_covers_tail inRest
        have below := (Finset.mem_Icc.mp inRange).2
        omega
      rw [split, Set.ncard_union_eq clear (Finset.finite_toSet _) (finite rest restCanonical),
        Set.ncard_coe_finset, Nat.card_Icc, ih restCanonical, List.map_cons, List.sum_cons]
      omega

/-- A way to build a set.  Endpoints are in the domain, as the callers' are. -/
inductive SetExpr (bits : Nat)
  | empty
  | full
  | point (value : Nat) (within : value ≤ domainMax bits)
  | range (lo hi : Nat) (loWithin : lo ≤ domainMax bits) (hiWithin : hi ≤ domainMax bits)
  | ofPrefix (value len : Nat) (within : value ≤ domainMax bits) (short : len ≤ bits)
  | fromRanges (ranges : List Range)
      (within : ∀ range ∈ ranges, range.1 ≤ domainMax bits ∧ range.2 ≤ domainMax bits)
  | union (set other : SetExpr bits)
  | intersect (set other : SetExpr bits)
  | complement (set : SetExpr bits)
  | difference (set other : SetExpr bits)

namespace SetExpr

variable {bits : Nat}

/-- What the code computes. -/
def eval (narrow : bits < 64) : SetExpr bits → IntervalSet bits
  | .empty => IntervalSet.empty bits
  | .full => IntervalSet.full bits
  | .point value within => IntervalSet.point bits value within
  | .range lo hi _ _ => IntervalSet.range bits lo hi
  | .ofPrefix value len within _ => IntervalSet.ofPrefix bits value len narrow within
  | .fromRanges ranges _ => IntervalSet.fromRanges bits ranges
  | .union set other => (set.eval narrow).union (other.eval narrow)
  | .intersect set other => (set.eval narrow).intersect (other.eval narrow)
  | .complement set => (set.eval narrow).complement
  | .difference set other => (set.eval narrow).difference (other.eval narrow)

/-- What the expression means: operations on sets of numbers. -/
def values : SetExpr bits → Set Nat
  | .empty => ∅
  | .full => Set.Iio (2 ^ bits)
  | .point value _ => {value}
  | .range lo hi _ _ => Set.Icc lo hi
  | .ofPrefix value len _ _ => {x | x / 2 ^ (bits - len) = value / 2 ^ (bits - len)}
  | .fromRanges ranges _ => ⋃ range ∈ ranges, Set.Icc range.1 range.2
  | .union set other => set.values ∪ other.values
  | .intersect set other => set.values ∩ other.values
  | .complement set => Set.Iio (2 ^ bits) \ set.values
  | .difference set other => set.values \ other.values

theorem le_domainMax_iff (narrow : bits < 64) (value : Nat) :
    value ≤ domainMax bits ↔ value < 2 ^ bits := by
  have positive := Nat.two_pow_pos bits
  rw [domainMax_eq narrow]
  omega

/-- One case for each operation: membership is what the operation on sets gives. -/
theorem contains_eval (narrow : bits < 64) (e : SetExpr bits) (value : Nat) :
    (e.eval narrow).contains value = true ↔ value ∈ e.values := by
  induction e with
  | empty => simp [eval, values]
  | full => simp [eval, values, le_domainMax_iff narrow]
  | point target within => simp [eval, values]
  | range lo hi _ hiWithin => simp [eval, values, IntervalSet.contains_range _ _ _ hiWithin]
  | ofPrefix target len within _ =>
      simp [eval, values, Nat.shiftRight_eq_div_pow]
  | fromRanges ranges within =>
      rw [eval, IntervalSet.contains_fromRanges (fun range member => (within range member).2)]
      simp only [values, Covers, Set.mem_iUnion, Set.mem_Icc, exists_prop]
  | union set other ih ih' => simp [eval, values, ih, ih']
  | intersect set other ih ih' => simp [eval, values, ih, ih']
  | complement set ih =>
      simp [eval, values, le_domainMax_iff narrow, ← Bool.not_eq_true, ih]
  | difference set other ih ih' =>
      simp [eval, values, ← Bool.not_eq_true, ih, ih']

theorem eval_eq_iff (narrow : bits < 64) (e f : SetExpr bits) :
    e.eval narrow = f.eval narrow ↔ e.values = f.values := by
  constructor
  · intro same
    ext value
    rw [← contains_eval narrow e, ← contains_eval narrow f, same]
  · intro same
    apply IntervalSet.eq_of_contains
    intro value
    rw [contains_eval, contains_eval, same]

theorem count_eval (narrow : bits < 64) (e : SetExpr bits) :
    (e.eval narrow).count = e.values.ncard := by
  rw [IntervalSet.count, ← ncard_covers (e.eval narrow).canonical]
  congr 1
  ext value
  rw [Set.mem_ofPred_eq, ← IntervalSet.contains_iff, contains_eval]

/-- Whatever is built is in canonical form and has the values that it should.  Two
sets are the same ranges exactly when they are the same values, and the tests and
the count of the code are those of the values. -/
theorem eval_exact (narrow : bits < 64) (e f : SetExpr bits) :
    Canonical (domainMax bits) (e.eval narrow).ranges ∧
      (∀ value, (e.eval narrow).contains value = true ↔ value ∈ e.values) ∧
      ((e.eval narrow).ranges = (f.eval narrow).ranges ↔ e.values = f.values) ∧
      ((e.eval narrow).isFull = true ↔ e.values = Set.Iio (2 ^ bits)) ∧
      ((e.eval narrow).isEmpty = true ↔ e.values = ∅) ∧
      (e.eval narrow).count = e.values.ncard := by
  refine ⟨(e.eval narrow).canonical, contains_eval narrow e, ?_, ?_, ?_, count_eval narrow e⟩
  · rw [← IntervalSet.ext_iff]
    exact eval_eq_iff narrow e f
  · rw [IntervalSet.isFull_iff_eq_full]
    exact eval_eq_iff narrow e .full
  · rw [IntervalSet.isEmpty_iff, Set.eq_empty_iff_forall_notMem]
    simp only [← contains_eval narrow e, Bool.not_eq_true]

/-- Taking the complement twice changes nothing. -/
theorem complement_round_trips :
    ((SetExpr.point (7#32).toNat (address_le 7#32)).complement.complement.eval
        address_narrow).ranges =
      ((SetExpr.point (7#32).toNat (address_le 7#32)).eval address_narrow).ranges := by
  apply (eval_exact address_narrow _ _).2.2.1.mpr
  ext value
  simp only [values, Set.mem_sdiff, Set.mem_Iio, Set.mem_singleton_iff, not_and, not_not]
  have small : (7#32).toNat = 7 := rfl
  omega

end SetExpr

end Fwdelta
