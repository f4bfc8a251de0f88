import Fwdelta.Ir.Field
import Mathlib.Data.List.Sort
import Mathlib.Algebra.Order.Group.Nat
import Mathlib.Tactic.Ring

/-
Normalised sets of integer intervals over a fixed-width unsigned domain.

The representation is canonical: ranges are sorted, disjoint, never adjacent
and inside the domain.  The width is the index of the type, so the equal-width
assertions of the source are typing here, and the canonical form is a field.
Values are natural numbers: no header field is wider than 32 bits, so the
64-bit arithmetic of the source never wraps.
-/

namespace Fwdelta

abbrev Range := Nat × Nat

def domainMax (bits : Nat) : Nat :=
  if bits ≥ 64 then 2 ^ 64 - 1 else 2 ^ bits - 1

def Covers (ranges : List Range) (value : Nat) : Prop :=
  ∃ range ∈ ranges, range.1 ≤ value ∧ value ≤ range.2

/-- Sorted, disjoint, non-adjacent ranges below a bound. -/
structure Canonical (max : Nat) (ranges : List Range) : Prop where
  proper : ∀ range ∈ ranges, range.1 ≤ range.2
  bounded : ∀ range ∈ ranges, range.2 ≤ max
  apart : ranges.Pairwise (fun first second => first.2 + 1 < second.1)

/-- A set of values over `[0, domainMax bits]`. -/
@[ext]
structure IntervalSet (bits : Nat) where
  ranges : List Range
  canonical : Canonical (domainMax bits) ranges
  deriving DecidableEq

@[simp] theorem covers_nil (value : Nat) : Covers [] value ↔ False := by
  simp [Covers]

@[simp] theorem covers_cons (range : Range) (rest : List Range) (value : Nat) :
    Covers (range :: rest) value ↔
      (range.1 ≤ value ∧ value ≤ range.2) ∨ Covers rest value := by
  simp [Covers]

@[simp] theorem covers_append (left right : List Range) (value : Nat) :
    Covers (left ++ right) value ↔ Covers left value ∨ Covers right value := by
  simp [Covers, or_and_right, exists_or]

theorem covers_of_perm {left right : List Range} (perm : left.Perm right)
    (value : Nat) : Covers left value ↔ Covers right value := by
  simp [Covers, perm.mem_iff]

theorem canonical_nil (max : Nat) : Canonical max [] :=
  ⟨by simp, by simp, List.Pairwise.nil⟩

theorem canonical_singleton {max lo hi : Nat} (ordered : lo ≤ hi)
    (within : hi ≤ max) : Canonical max [(lo, hi)] :=
  ⟨by simpa using ordered, by simpa using within, List.pairwise_singleton _ _⟩

theorem canonical_cons {max : Nat} {range : Range} {rest : List Range} :
    Canonical max (range :: rest) ↔
      range.1 ≤ range.2 ∧ range.2 ≤ max ∧
        (∀ later ∈ rest, range.2 + 1 < later.1) ∧ Canonical max rest := by
  constructor
  · intro canonical
    rcases canonical with ⟨proper, bounded, apart⟩
    rw [List.pairwise_cons] at apart
    exact ⟨proper range (by simp), bounded range (by simp), apart.1,
      fun later member => proper later (by simp [member]),
      fun later member => bounded later (by simp [member]), apart.2⟩
  · intro canonical
    rcases canonical with ⟨ordered, within, before, proper, bounded, apart⟩
    refine ⟨?_, ?_, List.pairwise_cons.mpr ⟨before, apart⟩⟩
    · intro later member
      rcases List.mem_cons.mp member with rfl | member
      · exact ordered
      · exact proper later member
    · intro later member
      rcases List.mem_cons.mp member with rfl | member
      · exact within
      · exact bounded later member

theorem Canonical.le_max {max value : Nat} {ranges : List Range}
    (canonical : Canonical max ranges) (covered : Covers ranges value) :
    value ≤ max := by
  obtain ⟨range, member, _, upper⟩ := covered
  exact upper.trans (canonical.bounded range member)

theorem Canonical.lt_of_covers_tail {max value : Nat} {range : Range}
    {rest : List Range} (canonical : Canonical max (range :: rest))
    (covered : Covers rest value) : range.2 + 1 < value := by
  obtain ⟨later, member, lower, _⟩ := covered
  exact ((canonical_cons.mp canonical).2.2.1 later member).trans_le lower

theorem Canonical.covers_tail_iff {max : Nat} {range : Range} {rest : List Range}
    (canonical : Canonical max (range :: rest)) (value : Nat) :
    Covers rest value ↔ Covers (range :: rest) value ∧ range.2 < value := by
  rw [covers_cons]
  constructor
  · intro covered
    have beyond := canonical.lt_of_covers_tail covered
    exact ⟨Or.inr covered, by omega⟩
  · intro both
    exact both.1.resolve_left (by omega)

theorem Canonical.first_le {max value : Nat} {range : Range} {rest : List Range}
    (canonical : Canonical max (range :: rest)) (covered : Covers (range :: rest) value) :
    range.1 ≤ value := by
  have proper := (canonical_cons.mp canonical).1
  rcases (covers_cons _ _ _).mp covered with inRange | later
  · exact inRange.1
  · have beyond := canonical.lt_of_covers_tail later
    omega

/-- After the first range there is a gap, which no other canonical list fills. -/
theorem Canonical.last_le {max : Nat} {range other : Range} {rest more : List Range}
    (canonical : Canonical max (range :: rest)) (lower : range.1 = other.1)
    (within : ∀ value, Covers (other :: more) value → Covers (range :: rest) value) :
    other.2 ≤ range.2 := by
  have proper := (canonical_cons.mp canonical).1
  by_contra longer
  have covered := within (range.2 + 1) ((covers_cons _ _ _).mpr (Or.inl ⟨by omega, by omega⟩))
  rcases (covers_cons _ _ _).mp covered with inRange | later
  · omega
  · have beyond := canonical.lt_of_covers_tail later
    omega

theorem Canonical.covers_first {max : Nat} {range : Range} {rest : List Range}
    (canonical : Canonical max (range :: rest)) : Covers (range :: rest) range.1 :=
  (covers_cons _ _ _).mpr (Or.inl ⟨le_refl _, (canonical_cons.mp canonical).1⟩)

/-- Canonical ranges are determined by what they cover. -/
theorem Canonical.unique {max : Nat} {left right : List Range} (canonical : Canonical max left)
    (canonical' : Canonical max right) (same : ∀ value, Covers left value ↔ Covers right value) :
    left = right := by
  induction left generalizing right with
  | nil =>
      cases right with
      | nil => rfl
      | cons other more =>
          have covered := (same other.1).mpr canonical'.covers_first
          simp at covered
  | cons range rest ih =>
      cases right with
      | nil =>
          have covered := (same range.1).mp canonical.covers_first
          simp at covered
      | cons other more =>
          have lower : range.1 = other.1 := Nat.le_antisymm
            (canonical.first_le ((same other.1).mpr canonical'.covers_first))
            (canonical'.first_le ((same range.1).mp canonical.covers_first))
          have upper : range.2 = other.2 := Nat.le_antisymm
            (canonical'.last_le lower.symm (fun value => (same value).mp))
            (canonical.last_le lower (fun value => (same value).mpr))
          have tails : rest = more := by
            apply ih (canonical_cons.mp canonical).2.2.2 (canonical_cons.mp canonical').2.2.2
            intro value
            rw [canonical.covers_tail_iff, canonical'.covers_tail_iff, same, upper]
          rw [Prod.ext lower upper, tails]

/-! ### Normalisation -/

/-- The order `sort_unstable` uses on pairs. -/
def rangeLe (first second : Range) : Prop :=
  first.1 < second.1 ∨ (first.1 = second.1 ∧ first.2 ≤ second.2)

instance : DecidableRel rangeLe := fun first second =>
  inferInstanceAs (Decidable (first.1 < second.1 ∨ (first.1 = second.1 ∧ first.2 ≤ second.2)))

instance : Std.Total rangeLe :=
  ⟨fun first second => by unfold rangeLe; omega⟩

instance : IsTrans Range rangeLe :=
  ⟨fun first second third => by unfold rangeLe; omega⟩

/-- The merging loop of `from_ranges`.  The last range pushed is carried as
`last`; it grows while the next range touches it. -/
def coalesce (last : Range) : List Range → List Range
  | [] => [last]
  | (lo, hi) :: rest =>
      if lo ≤ last.2 + 1 then
        coalesce (last.1, if hi > last.2 then hi else last.2) rest
      else
        last :: coalesce (lo, hi) rest

/-- The ranges `from_ranges` keeps: the proper ones, clamped to the domain. -/
def retained (max : Nat) (ranges : List Range) : List Range :=
  (ranges.filter (fun range => range.1 ≤ range.2)).map
    (fun range => (min range.1 max, min range.2 max))

/-- Drop inverted ranges, clamp to the domain, sort and merge. -/
def normalise (max : Nat) (ranges : List Range) : List Range :=
  match (retained max ranges).insertionSort rangeLe with
  | [] => []
  | first :: rest => coalesce first rest

theorem covers_coalesce (last : Range) (rest : List Range) (value : Nat)
    (lastProper : last.1 ≤ last.2)
    (above : ∀ range ∈ rest, last.1 ≤ range.1 ∧ range.1 ≤ range.2)
    (sorted : rest.Pairwise rangeLe) :
    Covers (coalesce last rest) value ↔ Covers (last :: rest) value := by
  induction rest generalizing last with
  | nil => simp [coalesce]
  | cons next rest ih =>
      obtain ⟨lo, hi⟩ := next
      have nextAbove := above (lo, hi) (by simp)
      rw [List.pairwise_cons] at sorted
      have restAbove : ∀ range ∈ rest, lo ≤ range.1 ∧ range.1 ≤ range.2 := by
        intro range member
        have ordered := sorted.1 range member
        have inherited := above range (by simp [member])
        unfold rangeLe at ordered
        exact ⟨by omega, inherited.2⟩
      by_cases touches : lo ≤ last.2 + 1
      · simp only [coalesce, touches, if_true]
        rw [ih _ (by simp only; split <;> omega)
          (fun range member => ⟨by have := restAbove range member; simp only; omega,
            (restAbove range member).2⟩) sorted.2]
        simp only [covers_cons]
        have merged : (last.1 ≤ value ∧
            value ≤ if hi > last.2 then hi else last.2) ↔
              (last.1 ≤ value ∧ value ≤ last.2) ∨ (lo ≤ value ∧ value ≤ hi) := by
          simp only at nextAbove
          split <;> omega
        rw [merged, or_assoc]
      · simp only [coalesce, touches, if_false, covers_cons]
        rw [ih (lo, hi) nextAbove.2 restAbove sorted.2, covers_cons]

/-- The merged list starts at the range it was given, and every later range
starts beyond it. -/
theorem coalesce_canonical (max : Nat) (last : Range) (rest : List Range)
    (lastProper : last.1 ≤ last.2) (lastBounded : last.2 ≤ max)
    (proper : ∀ range ∈ rest, range.1 ≤ range.2 ∧ range.2 ≤ max)
    (sorted : rest.Pairwise rangeLe) :
    Canonical max (coalesce last rest) ∧
      ∀ range ∈ coalesce last rest, last.1 ≤ range.1 ∨
        ∃ source ∈ rest, source.1 ≤ range.1 := by
  induction rest generalizing last with
  | nil =>
      exact ⟨canonical_singleton lastProper lastBounded, by simp [coalesce]⟩
  | cons next rest ih =>
      obtain ⟨lo, hi⟩ := next
      have nextProper := proper (lo, hi) (by simp)
      simp only at nextProper
      have restProper : ∀ range ∈ rest, range.1 ≤ range.2 ∧ range.2 ≤ max :=
        fun range member => proper range (by simp [member])
      rw [List.pairwise_cons] at sorted
      by_cases touches : lo ≤ last.2 + 1
      · simp only [coalesce, touches, if_true]
        obtain ⟨canonical, starts⟩ := ih
          (last.1, if hi > last.2 then hi else last.2)
          (by simp only; split <;> omega) (by simp only; split <;> omega)
          restProper sorted.2
        refine ⟨canonical, fun range member => ?_⟩
        rcases starts range member with fromLast | ⟨source, inRest, below⟩
        · exact Or.inl fromLast
        · exact Or.inr ⟨source, by simp [inRest], below⟩
      · simp only [coalesce, touches, if_false]
        obtain ⟨canonical, starts⟩ :=
          ih (lo, hi) nextProper.1 nextProper.2 restProper sorted.2
        have beyond : ∀ range ∈ coalesce (lo, hi) rest, last.2 + 1 < range.1 := by
          intro range member
          rcases starts range member with fromNext | ⟨source, inRest, below⟩
          · simp only at fromNext
            omega
          · have ordered := sorted.1 source inRest
            unfold rangeLe at ordered
            simp only at ordered
            omega
        refine ⟨canonical_cons.mpr
          ⟨lastProper, lastBounded, beyond, canonical⟩, fun range member => ?_⟩
        rcases List.mem_cons.mp member with rfl | member
        · exact Or.inl (le_refl _)
        · have := beyond range member
          exact Or.inl (by omega)

theorem mem_sorted_retained {max : Nat} {ranges : List Range} {range : Range}
    (member : range ∈ (retained max ranges).insertionSort rangeLe) :
    range.1 ≤ range.2 ∧ range.2 ≤ max := by
  rw [(List.perm_insertionSort rangeLe _).mem_iff] at member
  obtain ⟨source, inRanges, rfl⟩ := List.mem_map.mp member
  have proper := (List.mem_filter.mp inRanges).2
  simp only [decide_eq_true_eq] at proper
  simp only
  omega

/-- What the sorted ranges start with comes first, and all of them are proper. -/
theorem sorted_retained_cons {max : Nat} {ranges rest : List Range} {first : Range}
    (equal : (retained max ranges).insertionSort rangeLe = first :: rest) :
    ((∀ range ∈ rest, rangeLe first range) ∧ rest.Pairwise rangeLe) ∧
      ∀ range ∈ first :: rest, range.1 ≤ range.2 ∧ range.2 ≤ max := by
  have sorted := List.pairwise_insertionSort rangeLe (retained max ranges)
  rw [equal, List.pairwise_cons] at sorted
  refine ⟨sorted, ?_⟩
  intro range member
  rw [← equal] at member
  exact mem_sorted_retained member

theorem covers_retained (max : Nat) (ranges : List Range) (value : Nat)
    (bounded : ∀ range ∈ ranges, range.2 ≤ max) :
    Covers (retained max ranges) value ↔ Covers ranges value := by
  constructor
  · intro listed
    rcases listed with ⟨range, member, lower, upper⟩
    obtain ⟨source, inKept, rfl⟩ := List.mem_map.mp member
    obtain ⟨inRanges, ordered⟩ := List.mem_filter.mp inKept
    have within := bounded source inRanges
    simp only [decide_eq_true_eq] at ordered lower upper
    exact ⟨source, inRanges, by omega, by omega⟩
  · intro listed
    rcases listed with ⟨range, member, lower, upper⟩
    have within := bounded range member
    refine ⟨_, List.mem_map.mpr ⟨range, List.mem_filter.mpr ⟨member, ?_⟩, rfl⟩, ?_⟩
    · simp only [decide_eq_true_eq]
      omega
    · simp only
      omega

theorem normalise_canonical (max : Nat) (ranges : List Range) :
    Canonical max (normalise max ranges) := by
  unfold normalise
  cases equal : (retained max ranges).insertionSort rangeLe with
  | nil => exact canonical_nil max
  | cons first rest =>
      obtain ⟨sorted, proper⟩ := sorted_retained_cons equal
      have firstProper := proper first (by simp)
      exact (coalesce_canonical max first rest firstProper.1 firstProper.2
        (fun range member => proper range (by simp [member])) sorted.2).1

theorem covers_normalise (max : Nat) (ranges : List Range) (value : Nat)
    (bounded : ∀ range ∈ ranges, range.2 ≤ max) :
    Covers (normalise max ranges) value ↔ Covers ranges value := by
  rw [← covers_retained max ranges value bounded,
    ← covers_of_perm (List.perm_insertionSort rangeLe (retained max ranges))]
  unfold normalise
  cases equal : (retained max ranges).insertionSort rangeLe with
  | nil => exact Iff.rfl
  | cons first rest =>
      obtain ⟨sorted, proper⟩ := sorted_retained_cons equal
      apply covers_coalesce first rest value (proper first (by simp)).1 _ sorted.2
      intro range member
      have ordered := sorted.1 range member
      unfold rangeLe at ordered
      exact ⟨by omega, (proper range (by simp [member])).1⟩

example : normalise 65535 [(443, 443), (82, 90), (80, 81)] = [(80, 90), (443, 443)] := by
  decide +kernel

/-! ### The intersection sweep -/

def overlap (a b : Range) : List Range :=
  if max a.1 b.1 ≤ min a.2 b.2 then [(max a.1 b.1, min a.2 b.2)] else []

/-- The sweep while the left cursor stands on `a`; `next` continues it from
the following left range. -/
def sweepWith (a : Range) (next : List Range → List Range) : List Range → List Range
  | [] => []
  | b :: rest =>
      overlap a b ++ if a.2 < b.2 then next (b :: rest) else sweepWith a next rest

def intersectRanges : List Range → List Range → List Range
  | [] => fun _ => []
  | a :: rest => sweepWith a (intersectRanges rest)

theorem covers_overlap (a b : Range) (value : Nat) :
    Covers (overlap a b) value ↔
      (a.1 ≤ value ∧ value ≤ a.2) ∧ (b.1 ≤ value ∧ value ≤ b.2) := by
  unfold overlap
  split
  · simp only [covers_cons, covers_nil, or_false]
    omega
  · simp only [covers_nil, false_iff]
    omega

theorem covers_intersectRanges {max : Nat} (left right : List Range) (value : Nat)
    (leftCanonical : Canonical max left) (rightCanonical : Canonical max right) :
    Covers (intersectRanges left right) value ↔
      Covers left value ∧ Covers right value := by
  induction left generalizing right with
  | nil => simp [intersectRanges]
  | cons a leftRest ihLeft =>
      have leftParts := canonical_cons.mp leftCanonical
      induction right with
      | nil => simp [intersectRanges, sweepWith]
      | cons b rightRest ihRight =>
          have rightParts := canonical_cons.mp rightCanonical
          have leftBeyond : Covers leftRest value → a.2 + 1 < value :=
            leftCanonical.lt_of_covers_tail
          have rightBeyond : Covers rightRest value → b.2 + 1 < value :=
            rightCanonical.lt_of_covers_tail
          simp only [intersectRanges, sweepWith, covers_append, covers_overlap]
          by_cases ends : a.2 < b.2
          · rw [if_pos ends, ihLeft _ leftParts.2.2.2 rightCanonical]
            simp only [covers_cons]
            constructor
            · intro either
              rcases either with ⟨inA, inB⟩ | ⟨inLeft, inRight⟩
              · exact ⟨Or.inl inA, Or.inl inB⟩
              · exact ⟨Or.inr inLeft, inRight⟩
            · intro both
              rcases both with ⟨inA | inLeft, inB | inRight⟩
              · exact Or.inl ⟨inA, inB⟩
              · have := rightBeyond inRight
                omega
              · exact Or.inr ⟨inLeft, Or.inl inB⟩
              · exact Or.inr ⟨inLeft, Or.inr inRight⟩
          · rw [if_neg ends]
            have onward : Covers (sweepWith a (intersectRanges leftRest) rightRest) value ↔
                Covers (a :: leftRest) value ∧ Covers rightRest value :=
              ihRight rightParts.2.2.2
            rw [onward]
            simp only [covers_cons]
            constructor
            · intro either
              rcases either with ⟨inA, inB⟩ | ⟨inLeft, inRight⟩
              · exact ⟨Or.inl inA, Or.inl inB⟩
              · exact ⟨inLeft, Or.inr inRight⟩
            · intro both
              rcases both with ⟨inA | inLeft, inB | inRight⟩
              · exact Or.inl ⟨inA, inB⟩
              · exact Or.inr ⟨Or.inl inA, inRight⟩
              · have := leftBeyond inLeft
                omega
              · exact Or.inr ⟨Or.inr inLeft, inRight⟩

/-- A sweep emits ranges inside both inputs, so each starts at or after both
heads. -/
private theorem intersectRanges_starts {max : Nat} (left right : List Range)
    (leftCanonical : Canonical max left) (rightCanonical : Canonical max right) :
    ∀ range ∈ intersectRanges left right,
      (∃ a ∈ left, a.1 ≤ range.1) ∧ (∃ b ∈ right, b.1 ≤ range.1) := by
  induction left generalizing right with
  | nil => simp [intersectRanges]
  | cons a leftRest ihLeft =>
      induction right with
      | nil => simp [intersectRanges, sweepWith]
      | cons b rightRest ihRight =>
          intro range member
          simp only [intersectRanges, sweepWith, List.mem_append] at member
          rcases member with emitted | later
          · unfold overlap at emitted
            split at emitted
            · rw [List.mem_singleton] at emitted
              subst emitted
              exact ⟨⟨a, by simp, by simp⟩, ⟨b, by simp, by simp⟩⟩
            · simp at emitted
          · split at later
            · obtain ⟨⟨a', inLeft, below⟩, fromRight⟩ := ihLeft _
                (canonical_cons.mp leftCanonical).2.2.2 rightCanonical range later
              exact ⟨⟨a', by simp [inLeft], below⟩, fromRight⟩
            · obtain ⟨fromLeft, ⟨b', inRight, below⟩⟩ :=
                ihRight (canonical_cons.mp rightCanonical).2.2.2 range later
              exact ⟨fromLeft, ⟨b', by simp [inRight], below⟩⟩

theorem intersectRanges_canonical {max : Nat} (left right : List Range)
    (leftCanonical : Canonical max left) (rightCanonical : Canonical max right) :
    Canonical max (intersectRanges left right) := by
  induction left generalizing right with
  | nil => exact canonical_nil max
  | cons a leftRest ihLeft =>
      have leftParts := canonical_cons.mp leftCanonical
      induction right with
      | nil => exact canonical_nil max
      | cons b rightRest ihRight =>
          have rightParts := canonical_cons.mp rightCanonical
          -- Whatever follows starts beyond the end of the range just emitted,
          -- since the cursor that moved left a gap behind it.
          have follow : Canonical max
              (if a.2 < b.2 then intersectRanges leftRest (b :: rightRest)
                else sweepWith a (intersectRanges leftRest) rightRest) ∧
              ∀ range ∈ (if a.2 < b.2 then intersectRanges leftRest (b :: rightRest)
                else sweepWith a (intersectRanges leftRest) rightRest),
                min a.2 b.2 + 1 < range.1 := by
            split
            · refine ⟨ihLeft _ leftParts.2.2.2 rightCanonical, fun range member => ?_⟩
              obtain ⟨⟨a', inLeft, below⟩, _⟩ := intersectRanges_starts _ _
                leftParts.2.2.2 rightCanonical range member
              have gap := leftParts.2.2.1 a' inLeft
              omega
            · refine ⟨ihRight rightParts.2.2.2, fun range member => ?_⟩
              obtain ⟨_, ⟨b', inRight, below⟩⟩ := intersectRanges_starts
                (a :: leftRest) rightRest leftCanonical rightParts.2.2.2 range member
              have gap := rightParts.2.2.1 b' inRight
              omega
          simp only [intersectRanges, sweepWith]
          unfold overlap
          split
          · rw [List.singleton_append, canonical_cons]
            exact ⟨by assumption, by simp only; omega, follow.2, follow.1⟩
          · rw [List.nil_append]
            exact follow.1

/-! ### The complement sweep -/

def complementFrom (max : Nat) (cursor : Nat) : List Range → List Range
  | [] => [(cursor, max)]
  | (lo, hi) :: rest =>
      let gap := if lo > cursor then [(cursor, lo - 1)] else []
      if hi = max then gap else gap ++ complementFrom max (hi + 1) rest

theorem covers_complementFrom {max : Nat} (cursor : Nat) (ranges : List Range)
    (value : Nat) (canonical : Canonical max ranges)
    (ahead : ∀ range ∈ ranges, cursor ≤ range.1) :
    Covers (complementFrom max cursor ranges) value ↔
      cursor ≤ value ∧ value ≤ max ∧ ¬ Covers ranges value := by
  induction ranges generalizing cursor with
  | nil => simp [complementFrom]
  | cons range rest ih =>
      obtain ⟨lo, hi⟩ := range
      have parts := canonical_cons.mp canonical
      have cursorLe := ahead (lo, hi) (by simp)
      -- below its first range a canonical list covers nothing
      have before : value < lo → ¬ Covers ((lo, hi) :: rest) value := by
        intro below covers
        have := canonical.first_le covers
        omega
      simp only at parts cursorLe
      have gapCovers :
          Covers (if lo > cursor then [(cursor, lo - 1)] else []) value ↔
            cursor ≤ value ∧ value < lo := by
        split
        · simp only [covers_cons, covers_nil, or_false]
          omega
        · simp only [covers_nil, false_iff]
          omega
      simp only [complementFrom]
      split
      · next atMax =>
          rw [gapCovers]
          constructor
          · rintro ⟨lower, upper⟩
            exact ⟨lower, by omega, before upper⟩
          · rintro ⟨lower, upper, outside⟩
            simp only [covers_cons, not_or, not_and] at outside
            omega
      · next below =>
          rw [covers_append, gapCovers, ih (hi + 1) parts.2.2.2
            (fun later member => (parts.2.2.1 later member).le)]
          constructor
          · rintro (⟨lower, upper⟩ | ⟨lower, upper, outside⟩)
            · exact ⟨lower, by omega, before upper⟩
            · refine ⟨by omega, upper, ?_⟩
              simp only [covers_cons, not_or, not_and]
              exact ⟨by omega, outside⟩
          · rintro ⟨lower, upper, outside⟩
            simp only [covers_cons, not_or, not_and] at outside
            by_cases inGap : value < lo
            · exact Or.inl ⟨lower, inGap⟩
            · exact Or.inr ⟨by omega, upper, outside.2⟩

theorem complementFrom_canonical {max : Nat} (cursor : Nat) (ranges : List Range)
    (canonical : Canonical max ranges) (cursorLe : cursor ≤ max)
    (ahead : ∀ range ∈ ranges, cursor ≤ range.1) :
    Canonical max (complementFrom max cursor ranges) ∧
      ∀ range ∈ complementFrom max cursor ranges, cursor ≤ range.1 := by
  induction ranges generalizing cursor with
  | nil =>
      exact ⟨canonical_singleton cursorLe (le_refl _), by simp [complementFrom]⟩
  | cons range rest ih =>
      obtain ⟨lo, hi⟩ := range
      have parts := canonical_cons.mp canonical
      have cursorBelow := ahead (lo, hi) (by simp)
      simp only at parts cursorBelow
      have gapCanonical :
          Canonical max (if lo > cursor then [(cursor, lo - 1)] else []) := by
        split
        · exact canonical_singleton (by omega) (by omega)
        · exact canonical_nil max
      simp only [complementFrom]
      split
      · refine ⟨gapCanonical, fun range member => ?_⟩
        split at member
        · rw [List.mem_singleton] at member
          subst member
          exact le_refl _
        · simp at member
      · next below =>
          obtain ⟨restCanonical, restAhead⟩ := ih (hi + 1) parts.2.2.2 (by omega)
            (fun later member => (parts.2.2.1 later member).le)
          split
          · rw [List.singleton_append, canonical_cons]
            refine ⟨⟨by simp only; omega, by simp only; omega, fun later member => ?_,
              restCanonical⟩, fun later member => ?_⟩
            · have := restAhead later member
              simp only
              omega
            · rcases List.mem_cons.mp member with rfl | member
              · exact le_refl _
              · have := restAhead later member
                omega
          · rw [List.nil_append]
            exact ⟨restCanonical, fun later member => by
              have := restAhead later member
              omega⟩

theorem domainMax_eq {bits : Nat} (narrow : bits < 64) :
    domainMax bits = 2 ^ bits - 1 := by
  unfold domainMax
  rw [if_neg (by omega)]

theorem port_le {port : Nat} (within : ¬ port > 65535) : port ≤ domainMax 16 := by
  have top : domainMax 16 = 65535 := by decide
  omega

theorem address_narrow : 32 < 64 := by
  decide

theorem protocol_le {n : Nat} (within : n ≤ 255) : n ≤ domainMax 8 := within

theorem address_le (address : BitVec 32) : address.toNat ≤ domainMax 32 := by
  have below := address.isLt
  have top : domainMax 32 = 2 ^ 32 - 1 := by decide
  omega

namespace IntervalSet

variable {bits : Nat}

/-! ### Operations -/

def empty (bits : Nat) : IntervalSet bits :=
  ⟨[], canonical_nil _⟩

def full (bits : Nat) : IntervalSet bits :=
  ⟨[(0, domainMax bits)], canonical_singleton (Nat.zero_le _) (le_refl _)⟩

/-- A single value.  The source asserts that it is in the domain. -/
def point (bits value : Nat) (within : value ≤ domainMax bits) : IntervalSet bits :=
  ⟨[(value, value)], canonical_singleton (le_refl _) within⟩

def range (bits lo hi : Nat) : IntervalSet bits :=
  if ordered : lo > hi then
    empty bits
  else
    ⟨[(min lo (domainMax bits), min hi (domainMax bits))],
      canonical_singleton (by omega) (by omega)⟩

def fromRanges (bits : Nat) (ranges : List Range) : IntervalSet bits :=
  ⟨normalise (domainMax bits) ranges, normalise_canonical _ _⟩

def prefixBase (bits value len : Nat) : Nat :=
  (value >>> (bits - len)) <<< (bits - len)

def prefixSpan (bits len : Nat) : Nat :=
  (1 <<< (bits - len)) - 1

theorem prefixBase_eq (bits value len : Nat) :
    prefixBase bits value len = value / 2 ^ (bits - len) * 2 ^ (bits - len) := by
  unfold prefixBase
  rw [Nat.shiftLeft_eq, Nat.shiftRight_eq_div_pow]

theorem prefixBase_or_span (bits value len : Nat) :
    prefixBase bits value len ||| prefixSpan bits len =
      prefixBase bits value len + (2 ^ (bits - len) - 1) := by
  have positive : 0 < 2 ^ (bits - len) := Nat.two_pow_pos _
  unfold prefixBase prefixSpan
  rw [Nat.one_shiftLeft]
  exact (Nat.shiftLeft_add_eq_or_of_lt (by omega) _).symm

theorem prefix_le_domainMax {bits value len : Nat} (narrow : bits < 64)
    (within : value ≤ domainMax bits) :
    prefixBase bits value len ||| prefixSpan bits len ≤ domainMax bits := by
  rw [prefixBase_or_span, prefixBase_eq]
  rw [domainMax_eq narrow] at within ⊢
  have blocks : 2 ^ bits = 2 ^ (bits - (bits - len)) * 2 ^ (bits - len) := by
    rw [← Nat.pow_add]
    congr 1
    omega
  have positive : 0 < 2 ^ (bits - len) := Nat.two_pow_pos _
  have below : value / 2 ^ (bits - len) < 2 ^ (bits - (bits - len)) := by
    rw [Nat.div_lt_iff_lt_mul positive, ← blocks]
    have := Nat.two_pow_pos bits
    omega
  have scaled := Nat.mul_le_mul_right (2 ^ (bits - len)) below
  rw [← blocks, Nat.succ_mul] at scaled
  omega

/-- A prefix, as a range.  `len` is the prefix length in bits. -/
def ofPrefix (bits value len : Nat) (narrow : bits < 64)
    (within : value ≤ domainMax bits) : IntervalSet bits :=
  ⟨[(prefixBase bits value len,
      prefixBase bits value len ||| prefixSpan bits len)],
    canonical_singleton Nat.left_le_or (prefix_le_domainMax narrow within)⟩

def isEmpty (set : IntervalSet bits) : Bool :=
  set.ranges.isEmpty

def isFull (set : IntervalSet bits) : Bool :=
  match set.ranges with
  | [(0, hi)] => hi == domainMax bits
  | _ => false

def count (set : IntervalSet bits) : Nat :=
  (set.ranges.map (fun range => range.2 - range.1 + 1)).sum

def contains (set : IntervalSet bits) (value : Nat) : Bool :=
  set.ranges.any (fun range => range.1 ≤ value && value ≤ range.2)

def union (set other : IntervalSet bits) : IntervalSet bits :=
  fromRanges bits (set.ranges ++ other.ranges)

def intersect (set other : IntervalSet bits) : IntervalSet bits :=
  ⟨intersectRanges set.ranges other.ranges,
    intersectRanges_canonical _ _ set.canonical other.canonical⟩

def complement (set : IntervalSet bits) : IntervalSet bits :=
  ⟨complementFrom (domainMax bits) 0 set.ranges,
    (complementFrom_canonical 0 set.ranges set.canonical (Nat.zero_le _)
      (fun _ _ => Nat.zero_le _)).1⟩

def difference (set other : IntervalSet bits) : IntervalSet bits :=
  set.intersect other.complement

/-! ### Membership -/

theorem contains_iff (set : IntervalSet bits) (value : Nat) :
    set.contains value = true ↔ Covers set.ranges value := by
  simp [contains, Covers]

theorem contains_le {set : IntervalSet bits} {value : Nat}
    (member : set.contains value = true) : value ≤ domainMax bits :=
  set.canonical.le_max ((contains_iff set value).mp member)

@[simp] theorem contains_empty (value : Nat) :
    (empty bits).contains value = false := rfl

@[simp] theorem contains_full (value : Nat) :
    (full bits).contains value = true ↔ value ≤ domainMax bits := by
  simp [full, contains]

@[simp] theorem contains_point (target value : Nat) (within : target ≤ domainMax bits) :
    (point bits target within).contains value = true ↔ value = target := by
  simp only [contains_iff, point, covers_cons, covers_nil, or_false]
  omega

@[simp] theorem contains_range (lo hi value : Nat) (within : hi ≤ domainMax bits) :
    (range bits lo hi).contains value = true ↔ lo ≤ value ∧ value ≤ hi := by
  unfold range
  split
  · simp only [contains_empty, Bool.false_eq_true, false_iff]
    omega
  · simp only [contains_iff, covers_cons, covers_nil, or_false]
    omega

@[simp] theorem contains_ofPrefix (target len value : Nat) (narrow : bits < 64)
    (within : target ≤ domainMax bits) :
    (ofPrefix bits target len narrow within).contains value = true ↔
      value >>> (bits - len) = target >>> (bits - len) := by
  have positive : 0 < 2 ^ (bits - len) := Nat.two_pow_pos _
  simp only [contains_iff, ofPrefix, covers_cons, covers_nil, or_false]
  rw [prefixBase_or_span, prefixBase_eq, Nat.shiftRight_eq_div_pow,
    Nat.shiftRight_eq_div_pow, Nat.div_eq_iff positive]
  omega

theorem contains_fromRanges {ranges : List Range}
    (inDomain : ∀ range ∈ ranges, range.2 ≤ domainMax bits) (value : Nat) :
    (fromRanges bits ranges).contains value = true ↔ Covers ranges value := by
  rw [contains_iff, fromRanges, covers_normalise _ _ _ inDomain]

@[simp] theorem contains_union (set other : IntervalSet bits) (value : Nat) :
    (set.union other).contains value =
      (set.contains value || other.contains value) := by
  have inDomain : ∀ range ∈ set.ranges ++ other.ranges, range.2 ≤ domainMax bits := by
    intro range member
    rcases List.mem_append.mp member with inSet | inOther
    · exact set.canonical.bounded range inSet
    · exact other.canonical.bounded range inOther
  rw [Bool.eq_iff_iff, Bool.or_eq_true, union, contains_fromRanges inDomain, covers_append,
    contains_iff, contains_iff]

theorem contains_foldl_union {α : Type} (value : α → IntervalSet bits) (items : List α)
    (start : IntervalSet bits) (x : Nat) :
    (items.foldl (fun acc item => acc.union (value item)) start).contains x = true ↔
      start.contains x = true ∨ ∃ item ∈ items, (value item).contains x = true := by
  induction items generalizing start with
  | nil => simp
  | cons item rest ih =>
      rw [List.foldl_cons, ih, contains_union, Bool.or_eq_true]
      simp only [List.mem_cons, exists_eq_or_imp, or_assoc]

@[simp] theorem contains_intersect (set other : IntervalSet bits) (value : Nat) :
    (set.intersect other).contains value =
      (set.contains value && other.contains value) := by
  rw [Bool.eq_iff_iff, Bool.and_eq_true]
  simp only [contains_iff, intersect]
  exact covers_intersectRanges _ _ _ set.canonical other.canonical

@[simp] theorem contains_complement (set : IntervalSet bits) (value : Nat) :
    set.complement.contains value = true ↔
      value ≤ domainMax bits ∧ set.contains value = false := by
  rw [← Bool.not_eq_true, contains_iff, contains_iff]
  simp only [complement]
  rw [covers_complementFrom 0 set.ranges value set.canonical
    (fun _ _ => Nat.zero_le _)]
  simp

@[simp] theorem contains_difference (set other : IntervalSet bits) (value : Nat) :
    (set.difference other).contains value = true ↔
      set.contains value = true ∧ other.contains value = false := by
  rw [difference, contains_intersect, Bool.and_eq_true, contains_complement]
  exact ⟨fun both => ⟨both.1, both.2.2⟩, fun both => ⟨both.1, contains_le both.1, both.2⟩⟩

/-- A set is determined by its values. -/
theorem eq_of_contains {set other : IntervalSet bits}
    (same : ∀ value, set.contains value = true ↔ other.contains value = true) : set = other := by
  apply IntervalSet.ext
  apply set.canonical.unique other.canonical
  intro value
  rw [← contains_iff, ← contains_iff, same]

theorem difference_difference {set other : IntervalSet bits}
    (subset : ∀ value, other.contains value = true → set.contains value = true) :
    set.difference (set.difference other) = other := by
  apply eq_of_contains
  intro value
  rw [contains_difference, ← Bool.not_eq_true, contains_difference, ← Bool.not_eq_true]
  constructor
  · intro both
    by_contra outside
    exact both.2 ⟨both.1, outside⟩
  · intro inside
    exact ⟨subset value inside, fun both => both.2 inside⟩

theorem isEmpty_iff (set : IntervalSet bits) :
    set.isEmpty = true ↔ ∀ value, set.contains value = false := by
  constructor
  · intro none value
    have noRanges : set.ranges = [] := List.isEmpty_iff.mp none
    simp [contains, noRanges]
  · intro outside
    cases ranges : set.ranges with
    | nil => simp [isEmpty, ranges]
    | cons range rest =>
        have proper := set.canonical.proper range (by simp [ranges])
        have inside : set.contains range.1 = true := by
          rw [contains_iff]
          exact ⟨range, by simp [ranges], le_refl _, proper⟩
        rw [outside range.1] at inside
        contradiction

theorem isEmpty_eq_false_iff (set : IntervalSet bits) :
    set.isEmpty = false ↔ ∃ value, set.contains value = true := by
  rw [← Bool.not_eq_true, isEmpty_iff]
  simp

theorem isFull_full (bits : Nat) : (full bits).isFull = true := by
  simp [full, isFull]

theorem isFull_iff_eq_full (set : IntervalSet bits) : set.isFull = true ↔ set = full bits := by
  constructor
  · intro whole
    unfold isFull at whole
    split at whole
    · next hi ranges =>
        rw [beq_iff_eq] at whole
        apply IntervalSet.ext
        rw [ranges, whole]
        rfl
    · contradiction
  · intro same
    rw [same]
    exact isFull_full bits

theorem isFull_iff (set : IntervalSet bits) :
    set.isFull = true ↔ ∀ value ≤ domainMax bits, set.contains value = true := by
  rw [isFull_iff_eq_full]
  constructor
  · intro same value within
    rw [same, contains_full]
    exact within
  · intro everything
    apply eq_of_contains
    intro value
    rw [contains_full]
    exact ⟨contains_le, everything value⟩

end IntervalSet

end Fwdelta
