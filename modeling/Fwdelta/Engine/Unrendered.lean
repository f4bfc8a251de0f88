import Fwdelta.Engine.Accounting
import Mathlib.Algebra.Order.BigOperators.GroupWithZero.List

/-
Packets that no rectangle can show.

A pattern needs one interval for each choice of the free bits above its lowest
fixed bit.  A cube with a field that needs too many is not shown, and its packets
are counted field by field up to that one: the free bits of the later fields are
left out of the count.
-/

namespace Fwdelta

open DecisionDiagram
open DecisionDiagram.Library
open DecisionDiagram.PathLibrary

/-! ### How many intervals a pattern needs -/

/-- Where the intervals of a set of values begin. -/
def starts (inside : Nat → Prop) : Set Nat :=
  {x | inside x ∧ (x = 0 ∨ ¬ inside (x - 1))}

/-- A maximal run of a set of values: its neighbours on both sides are outside. -/
structure MaximalRun (inside : Nat → Prop) (run : Range) : Prop where
  ordered : run.1 ≤ run.2
  within : ∀ v, run.1 ≤ v → v ≤ run.2 → inside v
  first : run.1 = 0 ∨ ¬ inside (run.1 - 1)
  last : ¬ inside (run.2 + 1)

/-- Two maximal runs that begin at one place are one. -/
theorem MaximalRun.le_of_same_start {inside : Nat → Prop} {run other : Range}
    (maximal : MaximalRun inside run) (among : MaximalRun inside other)
    (same : run.1 = other.1) : other.2 ≤ run.2 := by
  have ordered := maximal.ordered
  by_contra longer
  exact maximal.last (among.within (run.2 + 1) (by omega) (by omega))

/-- In a bounded set a run begins at every start: it goes on while the next value
is inside. -/
theorem exists_maximalRun {inside : Nat → Prop} {bound x : Nat}
    (bounded : ∀ v, inside v → v ≤ bound) (start : x ∈ starts inside) :
    ∃ run, MaximalRun inside run ∧ run.1 = x := by
  classical
  have ends : ∃ n, ¬ inside (x + n + 1) := by
    refine ⟨bound, fun still => ?_⟩
    have := bounded _ still
    omega
  refine ⟨(x, x + Nat.find ends), ⟨Nat.le_add_right _ _, ?within, start.2, Nat.find_spec ends⟩, rfl⟩
  intro v lower upper
  by_cases here : v = x
  · rw [here]
    exact start.1
  · have before := Nat.find_min ends (m := v - x - 1) (by simp only at lower upper; omega)
    rw [not_not, show x + (v - x - 1) + 1 = v by simp only at lower; omega] at before
    exact before

theorem ncard_maximalRuns {inside : Nat → Prop} {bound : Nat}
    (bounded : ∀ v, inside v → v ≤ bound) :
    {run | MaximalRun inside run}.ncard = (starts inside).ncard := by
  have distinct : Set.InjOn Prod.fst {run | MaximalRun inside run} := by
    intro run maximal other among same
    apply Prod.ext same
    exact Nat.le_antisymm (among.le_of_same_start maximal same.symm)
      (maximal.le_of_same_start among same)
  have image : Prod.fst '' {run | MaximalRun inside run} = starts inside := by
    ext x
    rw [Set.mem_image]
    constructor
    · intro found
      obtain ⟨run, maximal, rfl⟩ := found
      exact ⟨maximal.within _ (le_refl _) maximal.ordered, maximal.first⟩
    · exact exists_maximalRun bounded
  rw [← image, distinct.ncard_image]

/-- The number of intervals that the values of a pattern fall into. -/
noncomputable def patternRuns (bits value mask : Nat) : Nat :=
  (starts (Fits bits value mask)).ncard

/-- An interval of a pattern begins where all bits below the lowest fixed one are
zero. -/
theorem mem_starts_fits_iff {bits value mask t : Nat} (inField : t < bits)
    (lowest : mask.testBit t = true) (below : ∀ i < t, mask.testBit i = false) (x : Nat) :
    x ∈ starts (Fits bits value mask) ↔
      Fits bits value mask x ∧ ∀ i < t, x.testBit i = false := by
  unfold starts
  rw [Set.mem_ofPred_eq]
  apply and_congr_right
  intro fits
  constructor
  · intro first
    by_contra low
    simp only [not_forall, Bool.not_eq_false] at low
    obtain ⟨i, iLow, isSet⟩ := low
    have nonzero : x ≠ 0 := by
      rintro rfl
      rw [Nat.zero_testBit] at isSet
      contradiction
    obtain ⟨s, lowestSet, clear⟩ := Bits.exists_lowest_bit nonzero
    have sLow : s ≤ i := by
      by_contra high
      rw [clear i (by omega)] at isSet
      contradiction
    -- Below the lowest fixed bit, one less still fits.
    refine (first.resolve_left nonzero) ⟨by have := fits.1; omega, ?_⟩
    intro j jField fixed
    have high : t ≤ j := by
      by_contra under
      rw [below j (by omega)] at fixed
      contradiction
    rw [Bits.testBit_pred lowestSet clear, if_neg (by omega), if_neg (by omega)]
    exact fits.2 j jField fixed
  · intro low
    by_cases zero : x = 0
    · exact Or.inl zero
    · refine Or.inr (fun stillFits => ?_)
      obtain ⟨s, lowestSet, clear⟩ := Bits.exists_lowest_bit zero
      have sHigh : t ≤ s := by
        by_contra under
        rw [low s (by omega)] at lowestSet
        contradiction
      have here := fits.2 t inField lowest
      have there := stillFits.2 t inField lowest
      rw [← here, Bits.testBit_pred lowestSet clear] at there
      by_cases same : t = s
      · rw [if_neg (by omega), if_pos same, same, lowestSet] at there
        contradiction
      · rw [if_pos (by omega), clear t (by omega)] at there
        contradiction

theorem fits_iff_lt {bits : Nat} (narrow : bits < 64) (value mask x : Nat) :
    Fits bits value mask x ↔
      x < 2 ^ bits ∧ ∀ i < bits, mask.testBit i = true → x.testBit i = value.testBit i := by
  have positive := Nat.two_pow_pos bits
  rw [Fits, domainMax_eq narrow]
  constructor
  · exact fun fits => ⟨by omega, fits.2⟩
  · exact fun fits => ⟨by omega, fits.2⟩

theorem patternRuns_eq {bits value mask t : Nat} (narrow : bits < 64) (inField : t < bits)
    (lowest : mask.testBit t = true) (below : ∀ i < t, mask.testBit i = false) :
    patternRuns bits value mask =
      2 ^ (List.range bits).countP (fun i => decide (t ≤ i) && !mask.testBit i) := by
  -- The bits below the lowest fixed one are fixed to zero.
  have maskBit (i : Nat) :
      (mask ||| (2 ^ t - 1)).testBit i = (mask.testBit i || decide (i < t)) := by
    rw [Nat.testBit_or, Nat.testBit_two_pow_sub_one]
  have valueBit (i : Nat) :
      ((value >>> t) <<< t).testBit i = (decide (t ≤ i) && value.testBit i) := by
    rw [Nat.testBit_shiftLeft, Nat.testBit_shiftRight]
    by_cases high : t ≤ i
    · rw [show t + (i - t) = i by omega]
    · simp [high]
  have same : starts (Fits bits value mask) = {x | x < 2 ^ bits ∧ ∀ i < bits,
      (mask ||| (2 ^ t - 1)).testBit i = true → x.testBit i = ((value >>> t) <<< t).testBit i} := by
    ext x
    rw [mem_starts_fits_iff inField lowest below, fits_iff_lt narrow, Set.mem_ofPred_eq, and_assoc]
    apply and_congr_right
    intro _
    simp only [maskBit, valueBit, Bool.or_eq_true, decide_eq_true_eq]
    constructor
    · intro given i inside fixed
      by_cases high : t ≤ i
      · rw [decide_eq_true high, Bool.true_and]
        exact given.1 i inside (fixed.resolve_right (by omega))
      · rw [decide_eq_false high, Bool.false_and]
        exact given.2 i (by omega)
    · intro given
      constructor
      · intro i inside fixed
        have high : t ≤ i := by
          by_contra low
          rw [below i (by omega)] at fixed
          contradiction
        rw [given i inside (Or.inl fixed), decide_eq_true high, Bool.true_and]
      · intro i low
        rw [given i (by omega) (Or.inr low), decide_eq_false (by omega), Bool.false_and]
  rw [patternRuns, same, Bits.ncard_agree]
  congr 2
  funext i
  rw [maskBit, Bool.not_or, Bool.and_comm, ← decide_not]
  congr 2
  rw [Nat.not_lt]

theorem exists_fixed_iff {bits : Nat} (narrow : bits < 64) (mask : Nat) :
    (∃ i < bits, mask.testBit i = true) ↔ mask &&& domainMax bits ≠ 0 := by
  constructor
  · intro found nothing
    obtain ⟨i, inField, fixed⟩ := found
    have bit := testBit_fieldMask narrow mask i
    rw [nothing, fixed, decide_eq_true inField, Nat.zero_testBit] at bit
    contradiction
  · intro some_
    obtain ⟨i, fixed, _⟩ := Bits.exists_lowest_bit some_
    rw [testBit_fieldMask narrow, Bool.and_eq_true, decide_eq_true_eq] at fixed
    exact ⟨i, fixed.2, fixed.1⟩

/-- A pattern is refused exactly when it fixes some bit and needs more intervals
than the cap. -/
theorem maskToIntervals_eq_none_iff {bits value mask cap : Nat} (narrow : bits < 64) :
    maskToIntervals bits value mask cap = none ↔
      (∃ i < bits, mask.testBit i = true) ∧ cap < patternRuns bits value mask := by
  rw [exists_fixed_iff narrow]
  by_cases some_ : mask &&& domainMax bits = 0
  · unfold maskToIntervals
    simp [some_]
  · obtain ⟨t, inField, lowest, below, expanded⟩ := maskToIntervals_of_fixed value cap narrow some_
    have same : Fits bits value (mask &&& domainMax bits) = Fits bits value mask := by
      funext x
      exact propext (fits_fieldMask narrow value mask x)
    have runs : patternRuns bits value (mask &&& domainMax bits) = 2 ^ _ :=
      patternRuns_eq narrow inField lowest below
    rw [List.countP_eq_length_filter, patternRuns, same] at runs
    rw [expanded, and_iff_right some_, patternRuns, runs, openAbove]
    split
    · next more => simpa using more
    · next fits => simpa using fits

/-! ### Exactness of an expansion -/

/-- The values of a field that agree with `value` where `mask` has a one. -/
def Agrees (bits value mask v : Nat) : Prop :=
  v ≤ domainMax bits ∧ v &&& mask = value &&& mask

theorem agrees_iff_fits {bits : Nat} (narrow : bits < 64) (value mask v : Nat) :
    Agrees bits value (mask &&& domainMax bits) v ↔ Fits bits value mask v := by
  unfold Agrees Fits
  apply and_congr_right
  intro _
  constructor
  · intro same i inField fixed
    have bit := congrArg (fun word => word.testBit i) same
    simpa [Nat.testBit_and, testBit_domainMax narrow, inField, fixed] using bit
  · intro same
    apply Nat.eq_of_testBit_eq
    intro i
    rw [Nat.testBit_and v, Nat.testBit_and value, testBit_fieldMask narrow]
    by_cases fixed : mask.testBit i = true ∧ i < bits
    · rw [same i fixed.2 fixed.1]
    · have clear : (mask.testBit i && decide (i < bits)) = false := by
        rw [Bool.and_eq_false_iff, decide_eq_false_iff_not, ← Bool.not_eq_true]
        tauto
      rw [clear, Bool.and_false, Bool.and_false]

theorem ncard_fits {bits : Nat} (narrow : bits < 64) (value mask : Nat) :
    {x | Fits bits value mask x}.ncard =
      2 ^ (List.range bits).countP (fun i => !mask.testBit i) := by
  rw [← Bits.ncard_agree bits mask value]
  congr 1
  ext x
  exact fits_iff_lt narrow value mask x

/-- The expansion of a pattern, within its field, is exact or refused. -/
theorem maskToIntervals_exact {bits : Nat} (narrow : bits ≤ 32) (value mask cap : Nat) :
    (∀ set, maskToIntervals bits value mask cap = some set →
      Canonical (domainMax bits) set.ranges ∧
        (∀ v, set.contains v = true ↔ Agrees bits value (mask &&& domainMax bits) v) ∧
        set.count = 2 ^ (List.range bits).countP (fun i => !mask.testBit i)) ∧
    (maskToIntervals bits value mask cap = none ↔
      mask &&& domainMax bits ≠ 0 ∧
        cap < {run | MaximalRun (Agrees bits value (mask &&& domainMax bits)) run}.ncard) := by
  have word : bits < 64 := by omega
  have same : Agrees bits value (mask &&& domainMax bits) = Fits bits value mask := by
    funext v
    exact propext (agrees_iff_fits word value mask v)
  rw [same]
  constructor
  · intro set found
    have members := contains_maskToIntervals word found
    refine ⟨set.canonical, members, ?_⟩
    have all : {v | Covers set.ranges v} = {v | Fits bits value mask v} := by
      ext v
      rw [Set.mem_ofPred_eq, Set.mem_ofPred_eq, ← IntervalSet.contains_iff, members]
    rw [IntervalSet.count, ← ncard_covers set.canonical, all, ncard_fits word]
  · rw [maskToIntervals_eq_none_iff word, exists_fixed_iff word, patternRuns,
      ncard_maximalRuns (fun v fits => fits.1)]

theorem maskToIntervals_exact_hole :
    ∃ set, maskToIntervals 16 0 64768 64 = some set ∧ set.count = 2 ^ 9 ∧
      set.contains 600 = true := by
  have taken : (maskToIntervals 16 0 64768 64).isSome = true := by decide
  obtain ⟨set, found⟩ := Option.isSome_iff_exists.mp taken
  obtain ⟨_, members, count⟩ :=
    (maskToIntervals_exact (show 16 ≤ 32 by decide) 0 64768 64).1 set found
  exact ⟨set, found, count.trans (by decide), (members 600).mpr ⟨by decide, by decide⟩⟩

theorem maskToIntervals_beyond_field :
    ∃ set, maskToIntervals 16 1048576 1048576 64 = some set ∧
      set.contains 0 = true ∧ ¬ Agrees 16 1048576 1048576 0 := by
  refine ⟨IntervalSet.full 16, rfl, by decide, ?_⟩
  intro agrees
  exact absurd agrees.2 (by decide)

/-! ### The packets of a cube -/

theorem maskCount_eq {bits mask : Nat} (narrow : bits < 64)
    (within : ∀ i, bits ≤ i → mask.testBit i = false) (value : Nat) :
    maskCount bits mask = {x : BitVec bits | Fits bits value mask x.toNat}.ncard := by
  have word := Bits.ncard_words (fun x fits => ((fits_iff_lt narrow value mask x).mp fits).1)
  have free := List.length_eq_countP_add_countP (l := List.range bits) mask.testBit
  rw [List.length_range] at free
  rw [word, ncard_fits narrow,
    maskCount, Bits.countOnes_eq_length_filter mask (show bits ≤ 64 by omega) within,
    ← List.countP_eq_length_filter]
  congr 1
  have negated : (List.range bits).countP (fun i => !mask.testBit i) =
      (List.range bits).countP (fun i => decide ¬ mask.testBit i = true) := by
    congr 1
    funext i
    cases mask.testBit i <;> rfl
  omega

/-- The packets of a cube: the product over its fields. -/
theorem ncard_cube (layout : Layout) (cube : Clause HEADER_BITS) :
    {p | cube.Holds (layout.encode p)}.ncard =
      (Field.all.map (fun field => maskCount field.bits (readField layout cube field).2)).prod := by
  have counted (field : Field) : {x : BitVec field.bits | Fits field.bits
      (readField layout cube field).1 (readField layout cube field).2 x.toNat}.ncard =
        maskCount field.bits (readField layout cube field).2 := by
    have narrow := field.bits_le
    refine (maskCount_eq (by omega) ?_ _).symm
    intro i beyond
    rw [testBit_readField_mask, decide_eq_false (by omega), Bool.false_and]
  have product := Packet.ncard_product (fun field x => Fits field.bits
    (readField layout cube field).1 (readField layout cube field).2 x)
  simp only [counted] at product
  rw [← product]
  congr 1
  ext p
  simp only [Set.mem_ofPred_eq, holds_iff_fits layout, layout.fieldValue_encode]

/-! ### What the walk counts of a cube -/

theorem maskCount_pos (bits mask : Nat) : 0 < maskCount bits mask :=
  Nat.two_pow_pos _

theorem prod_eq_one_iff_forall (counts : List Nat) :
    counts.prod = 1 ↔ ∀ count ∈ counts, count = 1 := by
  induction counts with
  | nil => simp
  | cons first rest ih =>
      rw [List.prod_cons, List.forall_mem_cons, ← ih]
      constructor
      · intro product
        exact ⟨Nat.eq_one_of_mul_eq_one_right product, Nat.eq_one_of_mul_eq_one_left product⟩
      · intro both
        rw [both.1, both.2]

theorem prod_maskCount_pos (layout : Layout) (cube : Clause HEADER_BITS) (fields : List Field) :
    0 < (fields.map (fun field => maskCount field.bits (readField layout cube field).2)).prod := by
  apply List.prod_pos
  intro count member
  obtain ⟨field, _, rfl⟩ := List.mem_map.mp member
  exact maskCount_pos _ _

/-- The loop stops at the first field that is refused, and counts all packets only
if the fields after it leave nothing open. -/
theorem readCube_counted {layout : Layout} {cube : Clause HEADER_BITS} {cap packets : Nat}
    {start : Region} {fields : List Field} (positive : 0 < packets)
    (stopped : (readCube layout cube cap packets start fields).1 = none) :
    let count := fun field : Field => maskCount field.bits (readField layout cube field).2
    (readCube layout cube cap packets start fields).2 ≤ packets * (fields.map count).prod ∧
    ((readCube layout cube cap packets start fields).2 = packets * (fields.map count).prod ↔
      fields.Pairwise (fun field later =>
        maskToIntervals field.bits (readField layout cube field).1
          (readField layout cube field).2 cap = none → count later = 1)) := by
  intro count
  induction fields generalizing packets start with
  | nil => contradiction
  | cons first rest ih =>
      have open_ := prod_maskCount_pos layout cube rest
      have grown : 0 < packets * count first := Nat.mul_pos positive (maskCount_pos _ _)
      rw [List.map_cons, List.prod_cons, ← Nat.mul_assoc, List.pairwise_cons]
      simp only [readCube] at stopped ⊢
      cases expanded : maskToIntervals first.bits (readField layout cube first).1
          (readField layout cube first).2 cap with
      | some set =>
          rw [expanded] at stopped
          simp only [reduceCtorEq, false_implies, implies_true, true_and]
          exact ih grown stopped
      | none =>
          simp only [true_implies]
          constructor
          · exact Nat.le_mul_of_pos_right _ open_
          · have closed : (∀ later ∈ rest, count later = 1) ↔ (rest.map count).prod = 1 := by
              rw [prod_eq_one_iff_forall]
              simp only [List.mem_map, forall_exists_index, and_imp, forall_apply_eq_imp_iff₂]
            have same : packets * count first = packets * count first * (rest.map count).prod ↔
                (rest.map count).prod = 1 := by
              constructor
              · intro equal
                exact Nat.eq_of_mul_eq_mul_left grown (equal.symm.trans (Nat.mul_one _).symm)
              · intro one
                rw [one, Nat.mul_one]
            rw [closed]
            refine same.trans ⟨fun one => ⟨one, ?_⟩, And.left⟩
            rw [← closed] at one
            apply List.pairwise_of_forall_mem_list
            exact fun _ _ later member _ => one later member

/-- What a cube adds to the packets reported as unrenderable. -/
def skippedPackets (layout : Layout) (cap : Nat) (cube : Clause HEADER_BITS) : Nat :=
  match readCube layout cube cap 1 Region.full Field.all with
  | (some _, _) => 0
  | (none, packets) => packets

theorem walkCubes_skipped (layout : Layout) (opts : EnumOptions) (state : Walk)
    (cubes : List (Clause HEADER_BITS)) :
    (walkCubes layout opts state cubes).skipped = state.skipped +
      ((cubes.take (opts.maxCubes - state.visited)).map
        (skippedPackets layout opts.maskExpandCap)).sum := by
  induction cubes generalizing state with
  | nil => simp [walkCubes]
  | cons cube rest ih =>
      unfold walkCubes
      split
      · next spent =>
          have none : opts.maxCubes - state.visited = 0 := by omega
          simp [none]
      · next left =>
          obtain ⟨more, room⟩ : ∃ more, opts.maxCubes - state.visited = more + 1 :=
            ⟨opts.maxCubes - state.visited - 1, by omega⟩
          have after : opts.maxCubes - (state.visited + 1) = more := by omega
          rw [room, List.take_succ_cons, List.map_cons, List.sum_cons, skippedPackets]
          cases read : readCube layout cube opts.maskExpandCap 1 Region.full Field.all with
          | mk found packets =>
              cases found with
              | some r =>
                  rw [ih]
                  simp only [after, Nat.zero_add]
              | none =>
                  rw [ih]
                  simp only [after, Nat.add_assoc]

theorem unrenderablePackets_eq {B : Type} [PathLibrary HEADER_BITS B] (layout : Layout) (set : B)
    (opts : EnumOptions) :
    (enumerate layout set opts).unrenderablePackets =
      ((visitedCubes set opts).map (skippedPackets layout opts.maskExpandCap)).sum := by
  unfold enumerate
  by_cases empty : isFalse set = true
  · simp [empty, visitedCubes, satClauses_eq_nil empty]
  · have skipped := walkCubes_skipped layout opts
      { visited := 0, raw := [], skipped := 0, incomplete := false } (satClauses set)
    simp only [Nat.sub_zero, Nat.zero_add] at skipped
    rw [if_neg empty]
    exact skipped

/-! ### Cubes that are too fine -/

/-- The field of the cube needs more intervals than the cap. -/
def TooFine (layout : Layout) (cap : Nat) (cube : Clause HEADER_BITS) (field : Field) : Prop :=
  cap < patternRuns field.bits (readField layout cube field).1 (readField layout cube field).2

def FixesSome (layout : Layout) (cube : Clause HEADER_BITS) (field : Field) : Prop :=
  ∃ bit < field.bits, (cube (layout.var field bit)).isSome = true

def FixesAll (layout : Layout) (cube : Clause HEADER_BITS) (field : Field) : Prop :=
  ∀ bit < field.bits, (cube (layout.var field bit)).isSome = true

/-- Nothing of the cube is left open after a field that is too fine.  A field
without fixed bits is never refused, whatever the cap. -/
structure CountedInFull (layout : Layout) (cap : Nat) (cube : Clause HEADER_BITS) : Prop where
  refused : (∃ field, TooFine layout cap cube field) →
    ∃ field, FixesSome layout cube field ∧ TooFine layout cap cube field
  closed : ∀ field later : Field, field.index < later.index → FixesSome layout cube field →
    TooFine layout cap cube field → FixesAll layout cube later

theorem refused_iff (layout : Layout) (cap : Nat) (cube : Clause HEADER_BITS) (field : Field) :
    maskToIntervals field.bits (readField layout cube field).1
        (readField layout cube field).2 cap = none ↔
      FixesSome layout cube field ∧ TooFine layout cap cube field := by
  have narrow := field.bits_le
  rw [maskToIntervals_eq_none_iff (by omega)]
  apply and_congr_left
  intro _
  simp only [testBit_readField_mask, Bool.and_eq_true, decide_eq_true_eq]
  constructor
  · intro found
    obtain ⟨i, inField, _, fixed⟩ := found
    exact ⟨field.bits - 1 - i, by omega, fixed⟩
  · intro found
    obtain ⟨bit, inField, fixed⟩ := found
    refine ⟨field.bits - 1 - bit, by omega, by omega, ?_⟩
    rwa [show field.bits - 1 - (field.bits - 1 - bit) = bit by omega]

theorem maskCount_eq_one_iff (layout : Layout) (cube : Clause HEADER_BITS) (field : Field) :
    maskCount field.bits (readField layout cube field).2 = 1 ↔ FixesAll layout cube field := by
  have narrow := field.bits_le
  have within (i : Nat) (beyond : field.bits ≤ i) :
      (readField layout cube field).2.testBit i = false := by
    rw [testBit_readField_mask, decide_eq_false (by omega), Bool.false_and]
  rw [maskCount, Nat.pow_eq_one, Bits.countOnes_eq_length_filter _ (by omega) within]
  have all : ((List.range field.bits).filter (readField layout cube field).2.testBit).length =
      field.bits ↔ ∀ i < field.bits, (readField layout cube field).2.testBit i = true := by
    have whole := List.length_filter_eq_length_iff (l := List.range field.bits)
      (p := (readField layout cube field).2.testBit)
    rw [List.length_range] at whole
    simpa only [List.mem_range] using whole
  have few := List.length_filter_le (readField layout cube field).2.testBit
    (List.range field.bits)
  rw [List.length_range] at few
  have bits (given : FixesAll layout cube field) (i : Nat) (inField : i < field.bits) :
      (readField layout cube field).2.testBit i = true := by
    rw [testBit_readField_mask, decide_eq_true inField, Bool.true_and]
    exact given _ (by omega)
  constructor
  · intro none bit inField
    have here := all.mp (by omega) (field.bits - 1 - bit) (by omega)
    rw [testBit_readField_mask, Bool.and_eq_true] at here
    rw [← show field.bits - 1 - (field.bits - 1 - bit) = bit by omega]
    exact here.2
  · intro given
    have whole := all.mpr (bits given)
    omega

theorem skippedPackets_spec (layout : Layout) (cap : Nat) (cube : Clause HEADER_BITS) :
    let fine := {p | (∃ field, TooFine layout cap cube field) ∧ cube.Holds (layout.encode p)}
    skippedPackets layout cap cube ≤ fine.ncard ∧
      (skippedPackets layout cap cube = fine.ncard ↔ CountedInFull layout cap cube) := by
  intro fine
  have inhabited := prod_maskCount_pos layout cube Field.all
  have whole (exists_ : ∃ field, TooFine layout cap cube field) : fine.ncard =
      (Field.all.map (fun field => maskCount field.bits (readField layout cube field).2)).prod := by
    rw [← ncard_cube]
    simp only [fine, exists_, true_and]
  have nothing (never : ¬ ∃ field, TooFine layout cap cube field) : fine.ncard = 0 := by
    simp only [fine, never, false_and, Set.ofPred_false, Set.ncard_empty]
  have refused := refused_iff layout cap cube
  unfold skippedPackets
  cases read : readCube layout cube cap 1 Region.full Field.all with
  | mk found packets =>
      cases found with
      | some region =>
          have usable : Usable layout cap cube := by
            rw [← isSome_cubeRegion_iff, cubeRegion, read]
            rfl
          have accepted (field : Field) :
              ¬ (FixesSome layout cube field ∧ TooFine layout cap cube field) := by
            rw [← refused, ← ne_eq, Option.ne_none_iff_isSome]
            exact usable field
          refine ⟨Nat.zero_le _, ?_, ?_⟩
          · intro none
            have never : ¬ ∃ field, TooFine layout cap cube field := by
              intro exists_
              have positive := inhabited.trans_eq (whole exists_).symm
              have zero : 0 = fine.ncard := none
              omega
            exact ⟨fun exists_ => absurd exists_ never,
              fun field _ _ some_ fine => absurd ⟨some_, fine⟩ (accepted field)⟩
          · intro counted
            exact (nothing fun exists_ => (counted.refused exists_).elim accepted).symm
      | none =>
          have stopped : (readCube layout cube cap 1 Region.full Field.all).1 = none := by
            rw [read]
          have unusable : ¬ Usable layout cap cube := by
            rw [← isSome_cubeRegion_iff, cubeRegion, stopped]
            simp
          obtain ⟨first, refusedFirst⟩ := not_forall.mp unusable
          rw [Option.not_isSome_iff_eq_none, refused] at refusedFirst
          obtain ⟨atMost, exactly⟩ := readCube_counted Nat.one_pos stopped
          rw [Nat.one_mul, ← whole ⟨first, refusedFirst.2⟩, read] at atMost
          rw [Nat.one_mul, ← whole ⟨first, refusedFirst.2⟩, read, Field.pairwise_all_iff] at exactly
          simp only [refused, maskCount_eq_one_iff] at exactly
          refine ⟨atMost, exactly.trans ⟨fun closed => ⟨fun _ => ⟨first, refusedFirst⟩, ?_⟩, ?_⟩⟩
          · exact fun field later before some_ fine => closed field later before ⟨some_, fine⟩
          · exact fun counted field later before both =>
              counted.closed field later before both.1 both.2

theorem sum_map_eq_iff {α : Type} {items : List α} {f g : α → Nat}
    (atMost : ∀ x ∈ items, f x ≤ g x) :
    (items.map f).sum ≤ (items.map g).sum ∧
      ((items.map f).sum = (items.map g).sum ↔ ∀ x ∈ items, f x = g x) := by
  induction items with
  | nil => simp
  | cons first rest ih =>
      obtain ⟨here, later⟩ := List.forall_mem_cons.mp atMost
      obtain ⟨restAtMost, restExactly⟩ := ih later
      simp only [List.map_cons, List.sum_cons, List.forall_mem_cons]
      rw [← restExactly]
      omega

/-- The packets reported as unrenderable are at most those of the visited cubes
with a field that needs too many intervals.  They are all of them exactly when such
a field is always followed by fixed fields only. -/
theorem unrenderable_exact_iff {B : Type} [PathLibrary HEADER_BITS B] (layout : Layout) (set : B)
    (opts : EnumOptions) :
    let fine := {p | ∃ cube ∈ visitedCubes set opts,
      (∃ field, TooFine layout opts.maskExpandCap cube field) ∧ cube.Holds (layout.encode p)}
    (enumerate layout set opts).unrenderablePackets ≤ fine.ncard ∧
    ((enumerate layout set opts).unrenderablePackets = fine.ncard ↔
      ∀ cube ∈ visitedCubes set opts, CountedInFull layout opts.maskExpandCap cube) := by
  intro fine
  let part := fun cube : Clause HEADER_BITS =>
    {p | (∃ field, TooFine layout opts.maskExpandCap cube field) ∧ cube.Holds (layout.encode p)}
  have apart : ((visitedCubes set opts).map part).Pairwise Disjoint := by
    rw [List.pairwise_map]
    apply ((satClauses_apart set).sublist (List.take_sublist opts.maxCubes _)).imp
    intro clause other clear
    rw [Set.disjoint_left]
    exact fun p first second => clear _ ⟨first.2, second.2⟩
  have union : {p | ∃ s ∈ (visitedCubes set opts).map part, p ∈ s} = fine := by
    ext p
    simp only [List.mem_map, exists_exists_and_eq_and]
    rfl
  have total := sum_ncard_of_pairwise apart
  rw [union, List.map_map] at total
  rw [unrenderablePackets_eq, ← total]
  have each := skippedPackets_spec layout opts.maskExpandCap
  obtain ⟨atMost, exactly⟩ := sum_map_eq_iff
    (fun cube (_ : cube ∈ visitedCubes set opts) => (each cube).1)
  refine ⟨atMost, exactly.trans ?_⟩
  exact forall₂_congr (fun cube _ => (each cube).2)

/-! ### Odd sources -/

/-- The last bit of the source address is one. -/
def oddSources : Diagram HEADER_BITS :=
  Layout.lit ⟨.addrInterleaved⟩ .srcAddr 31 true

def oddSourcesCube : Clause HEADER_BITS := fun index =>
  if index = (⟨.addrInterleaved⟩ : Layout).var .srcAddr 31 then some true else none

theorem satClauses_oddSources : satClauses oddSources = [oddSourcesCube] := by
  apply Diagram.satClauses_of_cube
  intro v
  rw [oddSources, Layout.eval_lit, beq_iff_eq]
  constructor
  · intro odd index value fixed
    unfold oddSourcesCube at fixed
    split at fixed
    · next here => rw [here, odd, Option.some.inj fixed]
    · contradiction
  · exact fun holds => holds _ true (if_pos rfl)

theorem skippedPackets_oddSources :
    skippedPackets ⟨.addrInterleaved⟩ EnumOptions.default.maskExpandCap oddSourcesCube =
      2 ^ 31 := by
  decide +kernel

/-- Only the 2^31 odd sources are counted, although each stands for 2^88 packets. -/
theorem odd_sources_understated :
    let e := enumerate ⟨.addrInterleaved⟩ oddSources EnumOptions.default
    e.unrenderablePackets = 2 ^ 31 ∧
      {p | ∃ cube ∈ visitedCubes oddSources EnumOptions.default,
        (∃ field, TooFine ⟨.addrInterleaved⟩ EnumOptions.default.maskExpandCap cube field) ∧
          cube.Holds ((⟨.addrInterleaved⟩ : Layout).encode p)}.ncard = 2 ^ 119 := by
  have visited : visitedCubes oddSources EnumOptions.default = [oddSourcesCube] := by
    rw [visitedCubes, satClauses_oddSources]
    rfl
  have fine : ∃ field, TooFine ⟨.addrInterleaved⟩ EnumOptions.default.maskExpandCap
      oddSourcesCube field :=
    ⟨.srcAddr, ((refused_iff _ _ _ _).mp (by decide +kernel)).2⟩
  constructor
  · rw [unrenderablePackets_eq, visited, List.map_singleton, List.sum_singleton,
      skippedPackets_oddSources]
  · simp only [visited, List.mem_singleton, exists_eq_left, fine, true_and]
    rw [ncard_cube]
    decide +kernel

end Fwdelta
