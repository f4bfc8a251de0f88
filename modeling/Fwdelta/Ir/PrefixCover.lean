import Fwdelta.Dyadic
import Fwdelta.Ir.Prefixes
import Mathlib.Data.List.Pairwise

/-
The shortest list of prefixes.

Nothing inside a range crosses the cursor of the greedy loop, so the block taken
there holds every block of the range that it meets.  Ranges are never adjacent, so
the same is true in the whole set, and no other list of prefixes is shorter.
-/

namespace Fwdelta

/-- The values whose first bits are those of the prefix. -/
def InPrefix (bits : Nat) (block : Nat × Nat) (value : Nat) : Prop :=
  value >>> (bits - block.2) = block.1 >>> (bits - block.2)

/-- The values of a prefix as a dyadic block. -/
def dyadic (bits : Nat) (block : Nat × Nat) : Dyadic.Block where
  size := bits - block.2
  index := block.1 / 2 ^ (bits - block.2)

theorem holds_dyadic (bits : Nat) (block : Nat × Nat) (value : Nat) :
    (dyadic bits block).Holds value ↔ InPrefix bits block value := by
  unfold Dyadic.Block.Holds dyadic InPrefix
  rw [Nat.shiftRight_eq_div_pow, Nat.shiftRight_eq_div_pow]

theorem Aligned.first_dyadic {bits : Nat} {block : Nat × Nat} (aligned : Aligned bits block) :
    (dyadic bits block).first = block.1 :=
  Nat.div_mul_cancel aligned.aligned

theorem Aligned.inPrefix_iff {bits : Nat} {block : Nat × Nat} (aligned : Aligned bits block)
    (value : Nat) :
    InPrefix bits block value ↔
      (blockRange bits block).1 ≤ value ∧ value ≤ (blockRange bits block).2 := by
  have positive := Nat.two_pow_pos (bits - block.2)
  rw [← holds_dyadic, Dyadic.Block.holds_iff, aligned.first_dyadic]
  simp only [dyadic, blockRange]
  omega

/-! ### The block taken is the largest -/

theorem le_trailingZeros {word n : Nat} (small : n < 64) (divides : 2 ^ n ∣ word) :
    n ≤ trailingZeros word := by
  have clear : ∀ i < n, word.testBit i = false := by
    intro i low
    obtain ⟨factor, rfl⟩ := divides
    rw [Nat.testBit_two_pow_mul]
    simp [low]
  unfold trailingZeros
  cases found : (List.range 64).find? word.testBit with
  | none =>
      rw [Option.getD_none]
      exact small.le
  | some first =>
      rw [Option.getD_some]
      by_contra low
      have set := (List.find?_range_eq_some.mp found).1
      rw [clear first (by omega)] at set
      contradiction

theorem le_blockBits {bits hi cur n : Nat} (narrow : bits < 64) (within : hi < 2 ^ bits)
    (divides : 2 ^ n ∣ cur) (fits : cur + 2 ^ n ≤ hi + 1) : n ≤ blockBits bits hi cur := by
  have width : n ≤ bits := by
    apply (Nat.pow_le_pow_iff_right (by omega : 1 < 2)).mp
    omega
  have span : n ≤ Nat.log2 (hi - cur + 1) := by
    rw [Nat.le_log2 (by omega)]
    omega
  unfold blockBits
  simp only
  split
  · omega
  · have zeros := le_trailingZeros (by omega) divides
    omega

/-! ### The cursor -/

/-- No block inside the range has values on both sides of the cursor. -/
def Uncrossed (lo hi cur : Nat) : Prop :=
  ∀ c : Dyadic.Block, c.Within (fun x => lo ≤ x ∧ x ≤ hi) →
    ¬ (c.first < cur ∧ cur < c.first + 2 ^ c.size)

theorem uncrossed_start (lo hi : Nat) : Uncrossed lo hi lo := by
  intro c within crosses
  have start := within _ c.holds_first
  omega

section Step

variable {bits lo hi cur : Nat}

/-- The block that the loop takes at its cursor. -/
def taken (bits hi cur : Nat) : Nat × Nat :=
  (cur, bits - blockBits bits hi cur)

theorem size_taken : bits - (taken bits hi cur).2 = blockBits bits hi cur := by
  have width := blockBits_le bits hi cur
  simp only [taken]
  omega

theorem holds_taken (x : Nat) :
    (dyadic bits (taken bits hi cur)).Holds x ↔
      cur ≤ x ∧ x < cur + 2 ^ blockBits bits hi cur := by
  have start : (dyadic bits (taken bits hi cur)).first = cur := by
    apply Nat.div_mul_cancel
    rw [size_taken]
    exact two_pow_blockBits_dvd bits hi cur
  rw [Dyadic.Block.holds_iff, start]
  simp only [dyadic, size_taken]

theorem maximal_taken (narrow : bits < 64) (within : hi < 2 ^ bits) (above : lo ≤ cur)
    (inside : cur ≤ hi) (uncrossed : Uncrossed lo hi cur) :
    (dyadic bits (taken bits hi cur)).Maximal (fun x => lo ≤ x ∧ x ≤ hi) := by
  have fits := two_pow_blockBits_le bits hi cur
  have positive := Nat.two_pow_pos (blockBits bits hi cur)
  apply Dyadic.Block.Maximal.of_size_le
  · intro x holds
    rw [holds_taken] at holds
    omega
  · intro c contained larger
    simp only [dyadic, size_taken]
    have holds : c.Holds cur := larger cur ((holds_taken cur).mpr (by omega))
    rw [c.holds_iff] at holds
    have crosses := uncrossed c contained
    -- What holds the cursor starts there, as nothing crosses it.
    have start : c.first = cur := by omega
    have last := contained (c.first + 2 ^ c.size - 1) ((c.holds_iff _).mpr (by
      have := Nat.two_pow_pos c.size
      omega))
    apply le_blockBits narrow within
    · rw [← start]
      exact Nat.dvd_mul_left _ _
    · omega

theorem uncrossed_next
    (maximal : (dyadic bits (taken bits hi cur)).Maximal (fun x => lo ≤ x ∧ x ≤ hi)) :
    Uncrossed lo hi (cur + 2 ^ blockBits bits hi cur) := by
  have positive := Nat.two_pow_pos (blockBits bits hi cur)
  intro c within crosses
  by_cases before : c.first + 2 ^ c.size ≤ cur
  · omega
  · -- The block meets the one taken, which then holds all of it.
    have meets : c.Holds (max c.first cur) := by
      rw [c.holds_iff]
      omega
    have last := maximal.holds c within (max c.first cur) ((holds_taken _).mpr (by omega)) meets
      (c.first + 2 ^ c.size - 1) ((c.holds_iff _).mpr (by omega))
    rw [holds_taken] at last
    omega

end Step

theorem maximal_prefixesFrom {bits lo hi : Nat} (narrow : bits < 64) (within : hi < 2 ^ bits)
    (cur : Nat) (above : lo ≤ cur) (uncrossed : Uncrossed lo hi cur) :
    ∀ block ∈ prefixesFrom bits hi cur,
      (dyadic bits block).Maximal (fun x => lo ≤ x ∧ x ≤ hi) := by
  fun_induction prefixesFrom bits hi cur with
  | case1 cur inside n ih =>
      have maximal := maximal_taken narrow within above inside uncrossed
      rw [List.forall_mem_cons]
      refine ⟨maximal, ?_⟩
      split
      · exact ih (Nat.le_add_right_of_le above) (uncrossed_next maximal)
      · exact fun block member => absurd member List.not_mem_nil
  | case2 cur outside => simp

/-! ### The order of the blocks -/

theorem le_blockRange (bits : Nat) (block : Nat × Nat) :
    (blockRange bits block).1 ≤ (blockRange bits block).2 := by
  have positive := Nat.two_pow_pos (bits - block.2)
  simp only [blockRange]
  omega

def Before (bits : Nat) (a b : Nat × Nat) : Prop :=
  (blockRange bits a).2 < (blockRange bits b).1

theorem before_prefixesFrom (bits hi cur : Nat) :
    (∀ block ∈ prefixesFrom bits hi cur, cur ≤ (blockRange bits block).1) ∧
      (prefixesFrom bits hi cur).Pairwise (Before bits) := by
  fun_induction prefixesFrom bits hi cur with
  | case1 cur inside n ih =>
      have width : n ≤ bits := blockBits_le bits hi cur
      have positive := Nat.two_pow_pos n
      have size : bits - (bits - n) = n := by omega
      split
      · obtain ⟨later, ordered⟩ := ih
        rw [List.forall_mem_cons, List.pairwise_cons]
        refine ⟨⟨le_refl _, ?_⟩, ?_, ordered⟩
        · intro block member
          have beyond := later block member
          omega
        · intro block member
          have beyond := later block member
          simp only [Before, blockRange, size] at beyond ⊢
          omega
      · simp [blockRange]
  | case2 cur outside => simp

/-! ### The whole set -/

/-- A block of the set that meets a range of the set lies in it, since the values
next to the range are not in the set. -/
theorem Canonical.within_range {max : Nat} {ranges : List Range} (canonical : Canonical max ranges)
    {range : Range} (member : range ∈ ranges) {c : Dyadic.Block} (within : c.Within (Covers ranges))
    {x : Nat} (holds : c.Holds x) (inside : range.1 ≤ x ∧ x ≤ range.2) :
    c.Within (fun y => range.1 ≤ y ∧ y ≤ range.2) := by
  have proper := canonical.proper range member
  -- Two ranges of the list are the same, or leave a gap.
  have gap (other : Range) (listed : other ∈ ranges) :
      other = range ∨ other.2 + 1 < range.1 ∨ range.2 + 1 < other.1 := by
    by_cases same : other = range
    · exact Or.inl same
    · right
      have apart : ranges.Pairwise (fun a b : Range => a.2 + 1 < b.1 ∨ b.2 + 1 < a.1) :=
        canonical.apart.imp Or.inl
      have : Std.Symm (fun a b : Range => a.2 + 1 < b.1 ∨ b.2 + 1 < a.1) := ⟨fun _ _ => Or.symm⟩
      exact apart.forall listed member same
  intro y inBlock
  rw [c.holds_iff] at holds inBlock
  by_contra outside
  by_cases below : y < range.1
  · obtain ⟨other, listed, lower, upper⟩ := within (range.1 - 1) ((c.holds_iff _).mpr (by omega))
    rcases gap other listed with same | apart
    · subst same
      omega
    · have ordered := canonical.proper other listed
      omega
  · obtain ⟨other, listed, lower, upper⟩ := within (range.2 + 1) ((c.holds_iff _).mpr (by omega))
    rcases gap other listed with same | apart
    · subst same
      omega
    · have ordered := canonical.proper other listed
      omega

section Set

variable {bits : Nat}

theorem maximal_setToPrefixes (narrow : bits < 64) (set : IntervalSet bits) :
    ∀ block ∈ setToPrefixes set,
      (dyadic bits block).Maximal (fun x => set.contains x = true) := by
  intro block member
  obtain ⟨range, listed, among⟩ := List.mem_flatMap.mp member
  have maximal := maximal_prefixesFrom narrow (IntervalSet.lt_two_pow narrow listed) range.1
    (le_refl _) (uncrossed_start range.1 range.2) block among
  constructor
  · intro x holds
    rw [IntervalSet.contains_iff]
    exact ⟨range, listed, maximal.within x holds⟩
  · intro c within x inFirst inSecond
    apply maximal.holds c _ x inFirst inSecond
    apply set.canonical.within_range listed _ inSecond (maximal.within x inFirst)
    intro y holds
    exact (set.contains_iff y).mp (within y holds)

/-- Blocks lie in the ranges they were cut from, and these are in order. -/
theorem before_setToPrefixes (narrow : bits < 64) (set : IntervalSet bits) :
    (setToPrefixes set).Pairwise (Before bits) := by
  unfold setToPrefixes
  rw [List.pairwise_flatMap]
  constructor
  · intro range _
    exact (before_prefixesFrom bits range.2 range.1).2
  · apply set.canonical.apart.imp_of_mem
    intro first second inFirst inSecond gap a among b among'
    have covers := (prefixesFrom_spec narrow (IntervalSet.lt_two_pow narrow inFirst) first.1).2
    have ends := (covers (blockRange bits a).2).mp
      ⟨_, List.mem_map_of_mem among, le_blockRange bits a, le_refl _⟩
    have starts := (before_prefixesFrom bits second.2 second.1).1 b among'
    unfold Before
    omega

theorem exists_inPrefix_iff (narrow : bits < 64) (set : IntervalSet bits) (value : Nat) :
    (∃ block ∈ setToPrefixes set, InPrefix bits block value) ↔ set.contains value = true := by
  obtain ⟨aligned, covers⟩ := setToPrefixes_spec narrow set
  rw [← covers value]
  unfold Covers
  simp only [List.mem_map, exists_exists_and_eq_and]
  apply exists_congr
  intro block
  apply and_congr_right
  exact fun member => (aligned block member).inPrefix_iff value

theorem length_setToPrefixes_le (narrow : bits < 64) (set : IntervalSet bits)
    {other : List (Nat × Nat)}
    (union : ∀ value, (∃ block ∈ other, InPrefix bits block value) ↔ set.contains value = true) :
    (setToPrefixes set).length ≤ other.length := by
  have aligned := (setToPrefixes_spec narrow set).1
  have apart : ((setToPrefixes set).map (dyadic bits)).Pairwise
      (fun a b => ∀ x, ¬ (a.Holds x ∧ b.Holds x)) := by
    rw [List.pairwise_map]
    apply (before_setToPrefixes narrow set).imp_of_mem
    intro a b inFirst inSecond before x both
    rw [holds_dyadic, holds_dyadic, (aligned a inFirst).inPrefix_iff,
      (aligned b inSecond).inPrefix_iff] at both
    unfold Before at before
    omega
  have shortest : ((setToPrefixes set).map (dyadic bits)).length ≤
      (other.map (dyadic bits)).length := by
    apply Dyadic.length_le_of_maximal (List.forall_mem_map.mpr (maximal_setToPrefixes narrow set))
      apart
    intro x
    simp only [← union x, List.mem_map, exists_exists_and_eq_and, holds_dyadic]
  rwa [List.length_map, List.length_map] at shortest

/-- The prefixes are aligned, in increasing order and disjoint, and their union is the
set.  No list of prefixes with that union is shorter. -/
theorem setToPrefixes_exact (narrow : bits < 64) (set : IntervalSet bits) :
    (∀ block ∈ setToPrefixes set, Aligned bits block) ∧
      (setToPrefixes set).Pairwise (Before bits) ∧
      (∀ value, (∃ block ∈ setToPrefixes set, InPrefix bits block value) ↔
        set.contains value = true) ∧
      ∀ other : List (Nat × Nat),
        (∀ value, (∃ block ∈ other, InPrefix bits block value) ↔ set.contains value = true) →
          (setToPrefixes set).length ≤ other.length :=
  ⟨(setToPrefixes_spec narrow set).1, before_setToPrefixes narrow set,
    exists_inPrefix_iff narrow set, fun _ union => length_setToPrefixes_le narrow set union⟩

/-- The whole address space is the default route. -/
theorem default_route_is_one_block : (setToPrefixes (IntervalSet.full 32)).length ≤ 1 := by
  obtain ⟨_, _, _, shortest⟩ := setToPrefixes_exact address_narrow (IntervalSet.full 32)
  apply shortest [(0, 0)]
  intro value
  have top : domainMax 32 = 2 ^ 32 - 1 := domainMax_eq address_narrow
  rw [IntervalSet.contains_full, top]
  simp only [List.mem_singleton, exists_eq_left, InPrefix, Nat.shiftRight_eq_div_pow]
  omega

end Set

end Fwdelta
