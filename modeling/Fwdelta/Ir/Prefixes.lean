import Fwdelta.Ir.Intervals
import Mathlib.Data.Nat.Bitwise

/-
Interval sets as lists of prefixes.

A range is cut greedily: each block is the largest one that its first value
allows and that still fits.  The blocks are aligned, lie in the range and cover
it, so a list of prefixes says exactly what the set holds.
-/

namespace Fwdelta

/-- Words have 64 bits, and the word zero has only those to count. -/
def trailingZeros (word : Nat) : Nat :=
  ((List.range 64).find? word.testBit).getD 64

/-- The size, as a power of two, of the block that starts at `cur`. -/
def blockBits (bits hi cur : Nat) : Nat :=
  let align := if cur = 0 then bits else min (trailingZeros cur) bits
  let spanPow := Nat.log2 (hi - cur + 1)
  min (min align spanPow) bits

/-- The loop of `range_to_prefixes`, left when the next start overflows. -/
def prefixesFrom (bits hi cur : Nat) : List (Nat × Nat) :=
  if cur ≤ hi then
    let n := blockBits bits hi cur
    (cur, bits - n) :: if cur + 2 ^ n < 2 ^ 64 then prefixesFrom bits hi (cur + 2 ^ n) else []
  else []
termination_by hi + 1 - cur
decreasing_by
  have positive := Nat.two_pow_pos (blockBits bits hi cur)
  omega

/-- Decompose an inclusive range into aligned blocks. -/
def rangeToPrefixes (bits lo hi : Nat) : List (Nat × Nat) :=
  prefixesFrom bits hi lo

def setToPrefixes {bits : Nat} (set : IntervalSet bits) : List (Nat × Nat) :=
  set.ranges.flatMap (fun range => rangeToPrefixes bits range.1 range.2)

/-! ### Blocks -/

/-- The values of a prefix, given by its first value and its length. -/
def blockRange (bits : Nat) (block : Nat × Nat) : Range :=
  (block.1, block.1 + 2 ^ (bits - block.2) - 1)

/-- A block inside the domain, at a multiple of its size. -/
structure Aligned (bits : Nat) (block : Nat × Nat) : Prop where
  length_le : block.2 ≤ bits
  aligned : 2 ^ (bits - block.2) ∣ block.1
  within : block.1 + 2 ^ (bits - block.2) ≤ 2 ^ bits

theorem two_pow_dvd_of_testBit {word n : Nat} (clear : ∀ i < n, word.testBit i = false) :
    2 ^ n ∣ word := by
  apply Nat.dvd_of_mod_eq_zero
  apply Nat.eq_of_testBit_eq
  intro i
  rw [Nat.testBit_mod_two_pow, Nat.zero_testBit]
  by_cases low : i < n
  · rw [clear i low, Bool.and_false]
  · simp [low]

theorem two_pow_trailingZeros_dvd (word : Nat) : 2 ^ trailingZeros word ∣ word := by
  apply two_pow_dvd_of_testBit
  intro i low
  unfold trailingZeros at low
  cases found : (List.range 64).find? word.testBit with
  | none =>
      rw [found, Option.getD_none] at low
      have clear := List.find?_eq_none.mp found i (List.mem_range.mpr low)
      exact Bool.eq_false_iff.mpr clear
  | some first =>
      rw [found, Option.getD_some] at low
      have earlier := (List.find?_range_eq_some.mp found).2.2 i low
      rwa [Bool.not_eq_true'] at earlier

theorem blockBits_le (bits hi cur : Nat) : blockBits bits hi cur ≤ bits :=
  Nat.min_le_right _ _

theorem two_pow_blockBits_dvd (bits hi cur : Nat) : 2 ^ blockBits bits hi cur ∣ cur := by
  by_cases zero : cur = 0
  · rw [zero]
    exact Nat.dvd_zero _
  · have small : blockBits bits hi cur ≤ trailingZeros cur := by
      unfold blockBits
      simp only [if_neg zero]
      omega
    exact (Nat.pow_dvd_pow 2 small).trans (two_pow_trailingZeros_dvd cur)

theorem two_pow_blockBits_le (bits hi cur : Nat) :
    2 ^ blockBits bits hi cur ≤ hi - cur + 1 := by
  have small : blockBits bits hi cur ≤ Nat.log2 (hi - cur + 1) := by
    unfold blockBits
    simp only
    omega
  exact (Nat.pow_le_pow_right (by omega) small).trans (Nat.log2_self_le (by omega))

/-! ### The loop -/

theorem prefixesFrom_spec {bits hi : Nat} (narrow : bits < 64) (within : hi < 2 ^ bits)
    (cur : Nat) :
    (∀ block ∈ prefixesFrom bits hi cur, Aligned bits block) ∧
      ∀ value, Covers ((prefixesFrom bits hi cur).map (blockRange bits)) value ↔
        cur ≤ value ∧ value ≤ hi := by
  fun_induction prefixesFrom bits hi cur with
  | case1 cur inside n ih =>
      have width : n ≤ bits := blockBits_le bits hi cur
      have fits : 2 ^ n ≤ hi - cur + 1 := two_pow_blockBits_le bits hi cur
      have divides : 2 ^ n ∣ cur := two_pow_blockBits_dvd bits hi cur
      have positive := Nat.two_pow_pos n
      have small : 2 ^ bits ≤ 2 ^ 63 := Nat.pow_le_pow_right (by omega) (by omega)
      have size : bits - (bits - n) = n := by omega
      -- The next start is at most one past the end, so it does not overflow.
      have next : cur + 2 ^ n < 2 ^ 64 := by omega
      rw [if_pos next]
      obtain ⟨laterAligned, laterCovers⟩ := ih
      constructor
      · rw [List.forall_mem_cons]
        refine ⟨⟨Nat.sub_le bits n, ?_, ?_⟩, laterAligned⟩
        · simp only [size]
          exact divides
        · simp only [size]
          omega
      · intro value
        rw [List.map_cons, covers_cons, laterCovers value]
        simp only [blockRange, size]
        omega
  | case2 cur outside =>
      refine ⟨by simp, fun value => ?_⟩
      rw [List.map_nil, covers_nil, false_iff]
      omega

theorem IntervalSet.lt_two_pow {bits : Nat} {set : IntervalSet bits} (narrow : bits < 64)
    {range : Range} (member : range ∈ set.ranges) : range.2 < 2 ^ bits := by
  have top := set.canonical.bounded range member
  have positive := Nat.two_pow_pos bits
  rw [domainMax_eq narrow] at top
  omega

theorem setToPrefixes_spec {bits : Nat} (narrow : bits < 64) (set : IntervalSet bits) :
    (∀ block ∈ setToPrefixes set, Aligned bits block) ∧
      ∀ value, Covers ((setToPrefixes set).map (blockRange bits)) value ↔
        set.contains value = true := by
  have bounded (range : Range) (member : range ∈ set.ranges) : range.2 < 2 ^ bits :=
    IntervalSet.lt_two_pow narrow member
  constructor
  · intro block member
    obtain ⟨range, listed, among⟩ := List.mem_flatMap.mp member
    exact (prefixesFrom_spec narrow (bounded range listed) range.1).1 block among
  · intro value
    rw [IntervalSet.contains_iff]
    unfold setToPrefixes Covers
    simp only [List.mem_map, List.mem_flatMap]
    constructor
    · intro found
      obtain ⟨_, ⟨block, ⟨range, listed, among⟩, rfl⟩, inside⟩ := found
      refine ⟨range, listed, ?_⟩
      exact ((prefixesFrom_spec narrow (bounded range listed) range.1).2 value).mp
        ⟨_, List.mem_map_of_mem among, inside⟩
    · intro found
      obtain ⟨range, listed, inside⟩ := found
      obtain ⟨_, member, inBlock⟩ :=
        ((prefixesFrom_spec narrow (bounded range listed) range.1).2 value).mpr inside
      obtain ⟨block, among, rfl⟩ := List.mem_map.mp member
      exact ⟨_, ⟨block, ⟨range, listed, among⟩, rfl⟩, inBlock⟩

theorem setToPrefixes_eq_nil_iff {bits : Nat} (narrow : bits < 64) (set : IntervalSet bits) :
    setToPrefixes set = [] ↔ set.isEmpty = true := by
  rw [set.isEmpty_iff]
  have covers := (setToPrefixes_spec narrow set).2
  constructor
  · intro nothing value
    have none := covers value
    rw [nothing, List.map_nil, covers_nil] at none
    exact Bool.eq_false_iff.mpr none.mpr
  · intro outside
    rw [List.eq_nil_iff_forall_not_mem]
    intro block member
    have positive := Nat.two_pow_pos (bits - block.2)
    have inside : Covers ((setToPrefixes set).map (blockRange bits)) block.1 := by
      refine ⟨_, List.mem_map_of_mem member, ?_⟩
      simp only [blockRange]
      omega
    rw [covers, outside] at inside
    contradiction

/-- An aligned block is what its prefix denotes. -/
theorem Aligned.contains_ofPrefix {bits : Nat} {block : Nat × Nat} (aligned : Aligned bits block)
    (narrow : bits < 64) (inDomain : block.1 ≤ domainMax bits) (value : Nat) :
    (IntervalSet.ofPrefix bits block.1 block.2 narrow inDomain).contains value = true ↔
      (blockRange bits block).1 ≤ value ∧ value ≤ (blockRange bits block).2 := by
  obtain ⟨factor, multiple⟩ := aligned.aligned
  have positive := Nat.two_pow_pos (bits - block.2)
  rw [IntervalSet.contains_ofPrefix, Nat.shiftRight_eq_div_pow, Nat.shiftRight_eq_div_pow,
    Nat.div_eq_iff positive]
  have quotient : block.1 / 2 ^ (bits - block.2) * 2 ^ (bits - block.2) = block.1 :=
    Nat.div_mul_cancel aligned.aligned
  rw [quotient]
  exact Iff.rfl

end Fwdelta
