import Fwdelta.Engine.Count

/-
The books of an enumeration.

The rectangles shown are disjoint parts of the set, widest first.  Their sizes add
up to the packets shown, the rest of the set is what is omitted, and nothing is
omitted exactly when no limit was hit.
-/

namespace Fwdelta

open DecisionDiagram
open DecisionDiagram.Library
open DecisionDiagram.PathLibrary

/-! ### The display order -/

/-- What the display order compares: size downwards, then constrained dimensions,
then the derived order. -/
def displayRank (r : Region) : ℕᵒᵈ ×ₗ ℕ ×ₗ List (List (Nat ×ₗ Nat)) :=
  toLex (OrderDual.toDual r.count, toLex (r.constrainedDims, r.key))

theorem displayLe_iff (a b : Region) : displayLe a b = true ↔ displayRank a ≤ displayRank b := by
  unfold displayLe displayRank
  rw [Prod.Lex.toLex_le_toLex, Prod.Lex.toLex_le_toLex, OrderDual.toDual_lt_toDual,
    OrderDual.toDual_inj]
  by_cases count : a.count = b.count
  · by_cases dims : a.constrainedDims = b.constrainedDims
    · simp [count, dims, Region.le]
    · simp [count, dims]
  · simp [count]

instance : IsTrans Region (fun a b => displayLe a b = true) where
  trans a b c first second := by
    rw [displayLe_iff] at *
    exact first.trans second

instance : Std.Total (fun a b : Region => displayLe a b = true) where
  total a b := by
    rw [displayLe_iff, displayLe_iff]
    exact le_total _ _

theorem count_le_of_displayLe {a b : Region} (before : displayLe a b = true) :
    b.count ≤ a.count := by
  unfold displayLe at before
  split at before
  · exact (of_decide_eq_true before).le
  · omega

theorem sum_count_of_apart {regions : List Region} (apart : Region.Apart regions) :
    (regions.map Region.count).sum =
      {p : Packet | Region.Covered regions p.value}.ncard := by
  have disjoint : (regions.map (fun r => {p : Packet | r.Holds p.value})).Pairwise Disjoint := by
    rw [List.pairwise_map]
    apply apart.imp
    intro a b clear
    rw [Set.disjoint_left]
    exact fun p inFirst inSecond => clear p.value ⟨inFirst, inSecond⟩
  have counted := sum_ncard_of_pairwise disjoint
  rw [List.map_map] at counted
  simp only [Function.comp_def, Region.ncard_eq_count] at counted
  rw [counted]
  congr 1
  ext p
  simp only [List.mem_map, exists_exists_and_eq_and, Set.mem_ofPred_eq]
  rfl

section Enumerate

variable {B : Type} [PathLibrary HEADER_BITS B]

theorem mergedRegions_sorted (layout : Layout) (set : B) (opts : EnumOptions) :
    (mergedRegions layout set opts).Pairwise (fun a b => b.count ≤ a.count) :=
  (List.pairwise_insertionSort (fun a b : Region => displayLe a b = true) _).imp
    count_le_of_displayLe

theorem shownPackets_eq (layout : Layout) (set : B) (opts : EnumOptions) :
    (enumerate layout set opts).shownPackets =
      ((enumerate layout set opts).regions.map Region.count).sum := by
  unfold enumerate
  by_cases empty : isFalse set = true
  · simp [empty]
  · simp [empty]

theorem totalPackets_eq (layout : Layout) (set : B) (opts : EnumOptions) :
    (enumerate layout set opts).totalPackets = exactCardinality set := by
  unfold enumerate
  by_cases empty : isFalse set = true
  · simp [empty]
  · simp [empty]

theorem omittedPackets_eq (layout : Layout) (set : B) (opts : EnumOptions) :
    (enumerate layout set opts).omittedPackets =
      (enumerate layout set opts).totalPackets - (enumerate layout set opts).shownPackets := by
  unfold enumerate
  by_cases empty : isFalse set = true
  · have none : exactCardinality set = 0 := by
      rw [← layout.ncard_mem, Set.ncard_eq_zero, Set.eq_empty_iff_forall_notMem]
      intro p
      rw [Set.mem_ofPred_eq, (layout.isFalse_iff_mem set).mp empty p]
      exact Bool.false_ne_true
    simp [empty, none]
  · simp [empty]

/-- Something is left out by a limit exactly when the rectangles shown are not the
whole set. -/
theorem shown_covers_iff (layout : Layout) (set : B) (opts : EnumOptions) :
    (∀ p : Packet, Region.Covered (enumerate layout set opts).regions p.value ↔
        layout.mem set p = true) ↔
      (enumerate layout set opts).incomplete = false ∧
        (enumerate layout set opts).omittedRegions = 0 := by
  obtain ⟨shown, omitted, _⟩ := enumerate_eq layout set opts
  rw [incomplete_iff, omitted, shown, List.length_eq_zero_iff]
  constructor
  · intro exact_
    constructor
    · intro p inside
      obtain ⟨r, member, holds⟩ := (exact_ p).mpr inside
      exact ⟨r, List.mem_of_mem_take member, holds⟩
    · rw [List.eq_nil_iff_forall_not_mem]
      intro r dropped
      -- A packet of an omitted rectangle is in the set, but in no rectangle shown.
      have inhabited := inhabited_mergedRegions layout set opts r (List.mem_of_mem_drop dropped)
      obtain ⟨p, holds⟩ := Region.exists_holds inhabited
      have inside := mem_of_covered_mergedRegions
        (show Region.Covered (mergedRegions layout set opts) p.value from
          ⟨r, List.mem_of_mem_drop dropped, holds⟩)
      obtain ⟨other, kept, otherHolds⟩ := (exact_ p).mpr inside
      have apart := apart_mergedRegions layout set opts
      rw [Region.Apart, ← List.take_append_drop opts.maxRegions (mergedRegions layout set opts),
        List.pairwise_append] at apart
      exact apart.2.2 other kept r dropped p.value ⟨otherHolds, holds⟩
  · intro complete p
    obtain ⟨covers, nothing⟩ := complete
    have whole : (mergedRegions layout set opts).take opts.maxRegions =
        mergedRegions layout set opts := by
      rw [← List.append_nil (List.take _ _), ← nothing, List.take_append_drop]
    rw [whole]
    exact ⟨mem_of_covered_mergedRegions, covers p⟩

/-- An enumeration keeps its books: disjoint non-empty parts of the set, widest
first, whose sizes and the omitted packets add up to the size of the set within
120 bits, and that are the whole set exactly when no limit was hit. -/
theorem enumeration_accounts (layout : Layout) (set : B) (opts : EnumOptions) :
    let e := enumerate layout set opts
    e.regions.Pairwise (fun a b => ∀ p : Packet, ¬ (a.Holds p.value ∧ b.Holds p.value)) ∧
    (∀ r ∈ e.regions, (∃ p : Packet, r.Holds p.value) ∧
      (∀ p : Packet, r.Holds p.value → layout.mem set p = true) ∧
      r.count = {p : Packet | r.Holds p.value}.ncard) ∧
    e.regions.Pairwise (fun a b => b.count ≤ a.count) ∧
    e.regions.length ≤ opts.maxRegions ∧
    e.shownPackets = {p : Packet | Region.Covered e.regions p.value}.ncard ∧
    e.totalPackets = {p | layout.mem set p = true}.ncard ∧
    e.shownPackets ≤ e.totalPackets ∧ e.totalPackets ≤ 2 ^ 120 ∧
    e.shownPackets + e.omittedPackets = e.totalPackets ∧
    ((∀ p : Packet, Region.Covered e.regions p.value ↔ layout.mem set p = true) ↔
      e.incomplete = false ∧ e.omittedRegions = 0) := by
  intro e
  have shown : e.regions = (mergedRegions layout set opts).take opts.maxRegions :=
    (enumerate_eq layout set opts).1
  have apart : Region.Apart e.regions := by
    rw [shown]
    exact (apart_mergedRegions layout set opts).sublist (List.take_sublist _ _)
  have among {r : Region} (member : r ∈ e.regions) : r ∈ mergedRegions layout set opts := by
    rw [shown] at member
    exact List.mem_of_mem_take member
  have inside (p : Packet) (covered : Region.Covered e.regions p.value) :
      layout.mem set p = true := by
    obtain ⟨r, member, holds⟩ := covered
    exact mem_of_covered_mergedRegions ⟨r, among member, holds⟩
  have counted : e.shownPackets = {p : Packet | Region.Covered e.regions p.value}.ncard := by
    rw [← sum_count_of_apart apart]
    exact shownPackets_eq layout set opts
  have total : e.totalPackets = {p | layout.mem set p = true}.ncard := by
    rw [layout.ncard_mem]
    exact totalPackets_eq layout set opts
  have within : e.shownPackets ≤ e.totalPackets := by
    rw [counted, total]
    exact Set.ncard_le_ncard inside
  refine ⟨apart.imp (fun clear (p : Packet) => clear p.value), ?_, ?_, ?_, counted, total,
    within, ?_, ?_, shown_covers_iff layout set opts⟩
  · intro r member
    have inhabited := inhabited_mergedRegions layout set opts r (among member)
    obtain ⟨p, holds⟩ := Region.exists_holds inhabited
    exact ⟨⟨p, holds⟩, fun q here => inside q ⟨r, member, here⟩, r.ncard_eq_count.symm⟩
  · rw [shown]
    exact (mergedRegions_sorted layout set opts).sublist (List.take_sublist _ _)
  · rw [shown, List.length_take]
    exact Nat.min_le_left _ _
  · rw [totalPackets_eq]
    exact Layout.exactCardinality_le set
  · have balance := omittedPackets_eq layout set opts
    have here : e.omittedPackets = e.totalPackets - e.shownPackets := balance
    omega

end Enumerate

end Fwdelta
