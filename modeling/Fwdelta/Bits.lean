import Mathlib.Algebra.BigOperators.Fin
import Mathlib.Data.List.Range
import Mathlib.Data.Nat.Bitwise
import Mathlib.Data.Nat.Find
import Mathlib.Data.Set.Card
import Mathlib.Tactic.Common

/-
Bit masks over natural numbers.

A machine word of `width` bits is a number below `2 ^ width`.  The lemmas say
what the usual tricks compute: the lowest set bit, the complement, the number of
ones, aligned blocks, and scattering a counter over given positions.
-/

namespace Bits

/-- Bitwise complement of a word. -/
def complement (width word : Nat) : Nat :=
  2 ^ width - 1 - word

/-- Two's complement negation of a word. -/
def negate (width word : Nat) : Nat :=
  (2 ^ width - word) % 2 ^ width

def countOnes (width word : Nat) : Nat :=
  (List.range width).countP word.testBit

/-- The bits of a counter, moved to the given positions. -/
def scatter (positions : List Nat) (counter : Nat) : Nat :=
  positions.zipIdx.foldl
    (fun acc place => if counter.testBit place.2 then acc ||| 2 ^ place.1 else acc) 0

theorem testBit_complement {width word : Nat} (fits : word < 2 ^ width) (i : Nat) :
    (complement width word).testBit i = (decide (i < width) && !word.testBit i) := by
  have shifted : complement width word = 2 ^ width - (word + 1) := by
    unfold complement
    omega
  rw [shifted, Nat.testBit_two_pow_sub_succ fits]

theorem exists_lowest_bit {word : Nat} (nonzero : word ≠ 0) :
    ∃ t, word.testBit t = true ∧ ∀ i < t, word.testBit i = false := by
  obtain ⟨i, set_⟩ := Nat.exists_testBit_of_ne_zero nonzero
  have found : ∃ i, word.testBit i = true := ⟨i, set_⟩
  refine ⟨Nat.find found, Nat.find_spec found, ?_⟩
  intro j below
  exact Bool.eq_false_iff.mpr (Nat.find_min found below)

theorem testBit_pred {word t : Nat} (set_ : word.testBit t = true)
    (lowest : ∀ i < t, word.testBit i = false) (i : Nat) :
    (word - 1).testBit i = if i < t then true else if i = t then false else word.testBit i := by
  have below : word % 2 ^ (t + 1) = 2 ^ t := by
    apply Nat.eq_of_testBit_eq
    intro j
    rw [Nat.testBit_mod_two_pow, Nat.testBit_two_pow]
    rcases Nat.lt_trichotomy j t with before | rfl | after
    · simp [lowest j before, show ¬ t = j by omega]
    · simp [set_]
    · simp [show ¬ j < t + 1 by omega, show ¬ t = j by omega]
  have split := Nat.div_add_mod word (2 ^ (t + 1))
  rw [below] at split
  have positive := Nat.two_pow_pos t
  have double : 2 ^ (t + 1) = 2 * 2 ^ t := by
    rw [Nat.pow_succ]
    omega
  have pred : word - 1 = 2 ^ (t + 1) * (word / 2 ^ (t + 1)) + (2 ^ t - 1) := by omega
  rw [pred, Nat.testBit_two_pow_mul_add _ (by omega), Nat.testBit_two_pow_sub_one,
    Nat.testBit_div_two_pow]
  rcases Nat.lt_trichotomy i t with before | rfl | after
  · simp [before, show i < t + 1 by omega]
  · simp
  · have high : ¬ i < t + 1 := by omega
    rw [if_neg high, if_neg (by omega), if_neg (by omega), Nat.sub_add_cancel (by omega)]

/-- A word and its negation share the lowest set bit only. -/
theorem and_negate {width word t : Nat} (fits : word < 2 ^ width) (set_ : word.testBit t = true)
    (lowest : ∀ i < t, word.testBit i = false) : word &&& negate width word = 2 ^ t := by
  have positive : 0 < word := by
    apply Nat.pos_of_ne_zero
    rintro rfl
    simp at set_
  have negated : negate width word = 2 ^ width - (word - 1 + 1) := by
    unfold negate
    rw [Nat.mod_eq_of_lt (by omega)]
    omega
  apply Nat.eq_of_testBit_eq
  intro i
  rw [Nat.testBit_and, negated, Nat.testBit_two_pow_sub_succ (by omega),
    testBit_pred set_ lowest, Nat.testBit_two_pow]
  have small (bit : word.testBit i = true) : i < width :=
    Nat.lt_of_not_le fun beyond =>
      absurd bit (by
        have tooBig := fits.trans_le (Nat.pow_le_pow_right (by omega) beyond)
        rw [Nat.testBit_lt_two_pow tooBig]
        decide)
  rcases Nat.lt_trichotomy i t with before | rfl | after
  · simp [lowest i before, show ¬ t = i by omega]
  · simp [set_, small set_]
  · rw [if_neg (Nat.not_lt.mpr after.le), if_neg after.ne', decide_eq_false after.ne]
    cases word.testBit i with
    | true => simp
    | false => simp

/-- An aligned block: the numbers that agree with its base from bit `t` on. -/
theorem le_and_le_or_iff {base t : Nat} (aligned : ∀ i < t, base.testBit i = false) (x : Nat) :
    base ≤ x ∧ x ≤ base ||| (2 ^ t - 1) ↔ ∀ i, t ≤ i → x.testBit i = base.testBit i := by
  have positive := Nat.two_pow_pos t
  have low : base % 2 ^ t = 0 := by
    apply Nat.eq_of_testBit_eq
    intro j
    rw [Nat.testBit_mod_two_pow, Nat.zero_testBit]
    by_cases below : j < t
    · simp [aligned j below]
    · simp [below]
  have split := Nat.div_add_mod base (2 ^ t)
  have top : base ||| (2 ^ t - 1) = base + (2 ^ t - 1) := by
    have disjoint := Nat.shiftLeft_add_eq_or_of_lt (show 2 ^ t - 1 < 2 ^ t by omega)
      (base / 2 ^ t)
    rw [Nat.shiftLeft_eq, Nat.mul_comm] at disjoint
    have exact_ : 2 ^ t * (base / 2 ^ t) = base := by omega
    rw [exact_] at disjoint
    exact disjoint.symm
  have quotient : base ≤ x ∧ x ≤ base + (2 ^ t - 1) ↔ x / 2 ^ t = base / 2 ^ t := by
    rw [Nat.div_eq_iff positive, Nat.mul_comm]
    omega
  rw [top, quotient]
  constructor
  · intro same i high
    have bits := congrArg (fun n => n.testBit (i - t)) same
    simp only [Nat.testBit_div_two_pow, Nat.sub_add_cancel high] at bits
    exact bits
  · intro same
    apply Nat.eq_of_testBit_eq
    intro i
    rw [Nat.testBit_div_two_pow, Nat.testBit_div_two_pow]
    exact same (i + t) (by omega)

private theorem testBit_scatter_from (positions : List Nat) (counter offset start i : Nat) :
    ((positions.zipIdx offset).foldl
      (fun acc place => if counter.testBit place.2 then acc ||| 2 ^ place.1 else acc)
        start).testBit i = true ↔
      start.testBit i = true ∨
        ∃ j, positions[j]? = some i ∧ counter.testBit (offset + j) = true := by
  induction positions generalizing offset start with
  | nil => simp
  | cons position rest ih =>
      rw [List.zipIdx_cons, List.foldl_cons, ih]
      have later : (∃ j, rest[j]? = some i ∧ counter.testBit (offset + 1 + j) = true) ↔
          ∃ j, (position :: rest)[j + 1]? = some i ∧ counter.testBit (offset + (j + 1)) = true := by
        apply exists_congr
        intro j
        rw [List.getElem?_cons_succ, Nat.add_right_comm, Nat.add_assoc]
      rw [later]
      constructor
      · intro found
        rcases found with here | ⟨j, at_, bit⟩
        · by_cases bit : counter.testBit offset = true
          · simp only [if_pos bit, Nat.testBit_or, Nat.testBit_two_pow, Bool.or_eq_true,
              decide_eq_true_eq] at here
            rcases here with earlier | rfl
            · exact Or.inl earlier
            · exact Or.inr ⟨0, rfl, bit⟩
          · simp only [if_neg bit] at here
            exact Or.inl here
        · exact Or.inr ⟨j + 1, at_, bit⟩
      · intro found
        rcases found with earlier | ⟨j, at_, bit⟩
        · left
          by_cases bit : counter.testBit offset = true
          · simp [bit, earlier]
          · simp [bit, earlier]
        · cases j with
          | zero =>
              rw [List.getElem?_cons_zero, Option.some.injEq] at at_
              rw [Nat.add_zero] at bit
              simp [bit, at_]
          | succ j => exact Or.inr ⟨j, at_, bit⟩

theorem testBit_scatter (positions : List Nat) (counter i : Nat) :
    (scatter positions counter).testBit i = true ↔
      ∃ j, positions[j]? = some i ∧ counter.testBit j = true := by
  unfold scatter
  rw [testBit_scatter_from]
  simp

/-- Every choice of bits at the positions is the scatter of some counter. -/
theorem exists_scatter (positions : List Nat) (wanted : Nat → Bool) :
    ∃ counter < 2 ^ positions.length, ∀ i,
      (scatter positions counter).testBit i = (decide (i ∈ positions) && wanted i) := by
  refine ⟨Nat.ofBits (fun j : Fin positions.length => wanted positions[j]),
    Nat.ofBits_lt_two_pow _, ?_⟩
  intro i
  rw [Bool.eq_iff_iff, testBit_scatter, Bool.and_eq_true, decide_eq_true_eq]
  constructor
  · intro found
    obtain ⟨j, at_, bit⟩ := found
    obtain ⟨bound, here⟩ := List.getElem?_eq_some_iff.mp at_
    rw [Nat.testBit_ofBits_lt _ _ bound] at bit
    simp only [Fin.getElem_fin, here] at bit
    exact ⟨List.mem_of_getElem? at_, bit⟩
  · intro both
    obtain ⟨member, bit⟩ := both
    obtain ⟨j, bound, here⟩ := List.mem_iff_getElem.mp member
    refine ⟨j, List.getElem?_eq_some_iff.mpr ⟨bound, here⟩, ?_⟩
    rw [Nat.testBit_ofBits_lt _ _ bound]
    simp only [Fin.getElem_fin, here]
    exact bit

/-- A fold over the bits of a word, numbered from the most significant, reads them from
the least significant on: each step carries what holds of the low bits read so far. -/
theorem foldr_range_bits {α : Type*} {width : Nat} {step : Nat → α → α} {start : α}
    {P : Nat → α → Prop} (none : P 0 start)
    (next : ∀ m acc, m < width → P m acc → P (m + 1) (step (width - 1 - m) acc)) :
    P width ((List.range width).foldr step start) := by
  have each (m : Nat) (within : m ≤ width) :
      P m ((List.range' (width - m) m).foldr step start) := by
    induction m with
    | zero => exact none
    | succ m ih =>
        have first : width - (m + 1) + 1 = width - m := by omega
        have place : width - (m + 1) = width - 1 - m := by omega
        have read := next m _ within (ih (by omega))
        rwa [List.range'_succ, List.foldr_cons, first, place]
  have whole := each width (le_refl _)
  rwa [Nat.sub_self, ← List.range_eq_range'] at whole

/-- The top bits of two words agree when the words shifted down are equal. -/
theorem shiftRight_eq_iff {width len x y : Nat} (within : len ≤ width) (xFits : x < 2 ^ width) :
    x >>> (width - len) = (y % 2 ^ width) >>> (width - len) ↔
      ∀ bit < len, x.testBit (width - 1 - bit) = y.testBit (width - 1 - bit) := by
  constructor
  · intro same bit among
    have here := congrArg (fun word => word.testBit (len - 1 - bit)) same
    simp only [Nat.testBit_shiftRight, Nat.testBit_mod_two_pow] at here
    rw [show width - len + (len - 1 - bit) = width - 1 - bit by omega] at here
    rw [here, decide_eq_true (by omega), Bool.true_and]
  · intro same
    apply Nat.eq_of_testBit_eq
    intro i
    rw [Nat.testBit_shiftRight, Nat.testBit_shiftRight, Nat.testBit_mod_two_pow]
    by_cases inside : i < len
    · have here := same (len - 1 - i) (by omega)
      rw [show width - 1 - (len - 1 - i) = width - len + i by omega] at here
      rw [here, decide_eq_true (by omega), Bool.true_and]
    · have beyond : x < 2 ^ (width - len + i) :=
        xFits.trans_le (Nat.pow_le_pow_right (by omega) (by omega))
      rw [Nat.testBit_lt_two_pow beyond, decide_eq_false (by omega), Bool.false_and]

theorem countOnes_eq_length_filter (word : Nat) {width narrow : Nat} (within : narrow ≤ width)
    (fits : ∀ i, narrow ≤ i → word.testBit i = false) :
    countOnes width word = ((List.range narrow).filter word.testBit).length := by
  unfold countOnes
  obtain ⟨rest, rfl⟩ := Nat.exists_eq_add_of_le within
  rw [List.range_add, List.countP_append, ← List.countP_eq_length_filter, List.countP_map]
  have nothing : (List.range rest).countP (word.testBit ∘ fun i => narrow + i) = 0 := by
    rw [List.countP_eq_zero]
    intro i _
    simp [fits (narrow + i) (by omega)]
  omega

theorem prod_ite_range (mask : Nat) (bits : Nat) :
    ∏ i ∈ Finset.range bits, (if mask.testBit i = true then 1 else 2) =
      2 ^ (List.range bits).countP (fun i => !mask.testBit i) := by
  induction bits with
  | zero => rfl
  | succ bits ih =>
      rw [Finset.prod_range_succ, ih, List.range_succ, List.countP_append, pow_add,
        List.countP_singleton]
      cases mask.testBit bits <;> rfl

/-- Words are counted as the numbers they are. -/
theorem ncard_words {width : Nat} {inside : Nat → Prop}
    (within : ∀ x, inside x → x < 2 ^ width) :
    {x : BitVec width | inside x.toNat}.ncard = {x | inside x}.ncard := by
  have image : BitVec.toNat '' {x : BitVec width | inside x.toNat} = {x | inside x} := by
    ext x
    rw [Set.mem_image, Set.mem_ofPred_eq]
    constructor
    · intro found
      obtain ⟨y, holds, rfl⟩ := found
      exact holds
    · intro holds
      have same : (BitVec.ofNat width x).toNat = x := by
        rw [BitVec.toNat_ofNat, Nat.mod_eq_of_lt (within x holds)]
      exact ⟨BitVec.ofNat width x, by rwa [Set.mem_ofPred_eq, same], same⟩
  rw [← image, Set.ncard_image_of_injective _ (fun _ _ => BitVec.eq_of_toNat_eq)]

/-- Of the words of some width, those that agree with a word on the fixed bits are
counted by the free ones. -/
theorem ncard_agree (bits mask value : Nat) :
    {x | x < 2 ^ bits ∧ ∀ i < bits, mask.testBit i = true → x.testBit i = value.testBit i}.ncard =
      2 ^ (List.range bits).countP (fun i => !mask.testBit i) := by
  let read := fun (x : Nat) (i : Fin bits) => x.testBit i
  let choices := fun i : Fin bits =>
    if mask.testBit i = true then {value.testBit i} else (Finset.univ : Finset Bool)
  have injective : Set.InjOn read
      {x | x < 2 ^ bits ∧ ∀ i < bits, mask.testBit i = true → x.testBit i = value.testBit i} := by
    intro x inX y inY same
    apply Nat.eq_of_testBit_eq
    intro i
    by_cases inside : i < bits
    · exact congrFun same ⟨i, inside⟩
    · have power : 2 ^ bits ≤ 2 ^ i := Nat.pow_le_pow_right (by omega) (by omega)
      rw [Nat.testBit_lt_two_pow (inX.1.trans_le power),
        Nat.testBit_lt_two_pow (inY.1.trans_le power)]
  have image : read '' {x | x < 2 ^ bits ∧
      ∀ i < bits, mask.testBit i = true → x.testBit i = value.testBit i} =
        (Fintype.piFinset choices : Set (Fin bits → Bool)) := by
    ext f
    rw [Set.mem_image, Finset.mem_coe, Fintype.mem_piFinset]
    constructor
    · intro found i
      obtain ⟨x, inside, rfl⟩ := found
      by_cases fixed : mask.testBit i = true
      · simp only [choices, if_pos fixed, Finset.mem_singleton]
        exact inside.2 i i.isLt fixed
      · simp only [choices, if_neg fixed, Finset.mem_univ]
    · intro chosen
      have bit (i : Fin bits) : (Nat.ofBits f).testBit i = f i := Nat.testBit_ofBits_lt f i i.isLt
      refine ⟨Nat.ofBits f, ⟨Nat.ofBits_lt_two_pow f, ?_⟩, funext bit⟩
      intro i inside fixed
      have here := chosen ⟨i, inside⟩
      simp only [choices, if_pos fixed, Finset.mem_singleton] at here
      exact (bit ⟨i, inside⟩).trans here
  rw [← injective.ncard_image, image, Set.ncard_coe_finset, Fintype.card_piFinset,
    ← prod_ite_range,
    ← Fin.prod_univ_eq_prod_range (fun i => if mask.testBit i = true then 1 else 2)]
  apply Finset.prod_congr rfl
  intro i _
  by_cases fixed : mask.testBit i = true
  · simp only [choices, if_pos fixed, Finset.card_singleton]
  · simp only [choices, if_neg fixed, Finset.card_univ, Fintype.card_bool]

/-! ### Words combined with their own shifts -/

/-- Bits below the shift are unchanged, and settle those above. -/
theorem xor_shiftLeft_injective {w k : Nat} (positive : 0 < k) :
    Function.Injective (fun x : BitVec w => x ^^^ (x <<< k)) := by
  intro x y same
  have bits : ∀ i, x.getLsbD i = y.getLsbD i := by
    intro i
    induction i using Nat.strong_induction_on with
    | _ i ih =>
        have at_ := congrArg (fun word : BitVec w => word.getLsbD i) same
        simp only [BitVec.getLsbD_xor, BitVec.getLsbD_shiftLeft] at at_
        by_cases low : i < k
        · simpa [low] using at_
        · rw [ih (i - k) (by omega)] at at_
          exact Bool.xor_left_inj.mp at_
  exact BitVec.eq_of_getLsbD_eq fun i _ => bits i

/-- Bits at the top are unchanged, and settle those below. -/
theorem xor_shiftRight_injective {w k : Nat} (positive : 0 < k) :
    Function.Injective (fun x : BitVec w => x ^^^ (x >>> k)) := by
  intro x y same
  -- The induction is on the distance from the top.
  have bits : ∀ d i, w ≤ i + d → x.getLsbD i = y.getLsbD i := by
    intro d
    induction d with
    | zero =>
        intro i above
        rw [BitVec.getLsbD_of_ge x i above, BitVec.getLsbD_of_ge y i above]
    | succ d ih =>
        intro i within
        have at_ := congrArg (fun word : BitVec w => word.getLsbD i) same
        simp only [BitVec.getLsbD_xor, BitVec.getLsbD_ushiftRight] at at_
        rw [ih (k + i) (by omega)] at at_
        exact Bool.xor_left_inj.mp at_
  exact BitVec.eq_of_getLsbD_eq fun i _ => bits w i (by omega)

end Bits
