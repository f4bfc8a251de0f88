import Mathlib.Algebra.Order.Group.Nat
import Mathlib.Data.List.Nodup
import Mathlib.Data.List.Perm.Subperm
import Mathlib.Tactic.Choose

/-
Dyadic blocks.

A block holds the numbers that agree from some bit upwards.  Two blocks that meet
are nested, so a block that is maximal in a set holds every block of the set that
it meets.  A list of disjoint maximal blocks is therefore no longer than any other
list of blocks with the same union.
-/

namespace Dyadic

/-- The numbers that leave `index` when their last `size` bits are dropped. -/
structure Block where
  size : Nat
  index : Nat

namespace Block

def Holds (b : Block) (x : Nat) : Prop :=
  x / 2 ^ b.size = b.index

def first (b : Block) : Nat :=
  b.index * 2 ^ b.size

theorem holds_iff (b : Block) (x : Nat) :
    b.Holds x ↔ b.first ≤ x ∧ x < b.first + 2 ^ b.size := by
  have positive : 0 < 2 ^ b.size := Nat.two_pow_pos _
  unfold Holds first
  rw [Nat.div_eq_iff positive]
  omega

theorem holds_first (b : Block) : b.Holds b.first := by
  have positive := Nat.two_pow_pos b.size
  rw [holds_iff]
  omega

/-- Blocks that meet are nested: the larger one holds the smaller one. -/
theorem holds_of_meet {a b : Block} (smaller : a.size ≤ b.size) {x : Nat} (inFirst : a.Holds x)
    (inSecond : b.Holds x) {y : Nat} (inside : a.Holds y) : b.Holds y := by
  unfold Holds at *
  have split : 2 ^ b.size = 2 ^ a.size * 2 ^ (b.size - a.size) := by
    rw [← Nat.pow_add]
    congr 1
    omega
  rw [split, ← Nat.div_div_eq_div_mul] at inSecond ⊢
  rw [inside, ← inFirst]
  exact inSecond

def Within (b : Block) (set : Nat → Prop) : Prop :=
  ∀ x, b.Holds x → set x

/-- A block of the set that holds every block of the set that it meets. -/
structure Maximal (b : Block) (set : Nat → Prop) : Prop where
  within : b.Within set
  holds : ∀ c : Block, c.Within set → ∀ x, b.Holds x → c.Holds x → ∀ y, c.Holds y → b.Holds y

/-- It is enough to rule out the larger blocks. -/
theorem Maximal.of_size_le {b : Block} {set : Nat → Prop} (within : b.Within set)
    (largest : ∀ c : Block, c.Within set → (∀ x, b.Holds x → c.Holds x) → c.size ≤ b.size) :
    b.Maximal set where
  within := within
  holds c inside x inFirst inSecond y holds := by
    have smaller : c.size ≤ b.size := by
      by_contra larger
      apply larger
      apply largest c inside
      intro z inBlock
      exact holds_of_meet (by omega) inFirst inSecond inBlock
    exact holds_of_meet smaller inSecond inFirst holds

end Block

/-- A list of disjoint maximal blocks is as short as any other cover of the set. -/
theorem length_le_of_maximal {set : Nat → Prop} {blocks cover : List Block}
    (maximal : ∀ b ∈ blocks, b.Maximal set)
    (apart : blocks.Pairwise (fun a b => ∀ x, ¬ (a.Holds x ∧ b.Holds x)))
    (covers : ∀ x, set x ↔ ∃ c ∈ cover, c.Holds x) : blocks.length ≤ cover.length := by
  have chosen : ∀ b ∈ blocks, ∃ c ∈ cover, ∀ y, c.Holds y → b.Holds y := by
    intro b member
    obtain ⟨c, among, holds⟩ := (covers b.first).mp ((maximal b member).within _ b.holds_first)
    refine ⟨c, among, (maximal b member).holds c ?_ b.first b.holds_first holds⟩
    exact fun x inside => (covers x).mpr ⟨c, among, inside⟩
  choose! pick inCover inside using chosen
  -- A block of the cover lies in one block only, so no two of them pick the same.
  have distinct : (blocks.map pick).Nodup := by
    unfold List.Nodup
    rw [List.pairwise_map]
    apply apart.imp_of_mem
    intro a b inFirst inSecond clear same
    refine clear (pick a).first ⟨inside a inFirst _ (pick a).holds_first, ?_⟩
    rw [same]
    exact inside b inSecond _ (pick b).holds_first
  have among : blocks.map pick ⊆ cover := by
    intro c member
    obtain ⟨b, listed, rfl⟩ := List.mem_map.mp member
    exact inCover b listed
  calc blocks.length = (blocks.map pick).length := (List.length_map pick).symm
    _ ≤ cover.length := (List.subperm_of_subset distinct among).length_le

end Dyadic
