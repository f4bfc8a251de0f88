import Fwdelta.Engine.Accounting
import Fwdelta.Engine.Report
import Fwdelta.Engine.Verify
import Fwdelta.Ranking

/-
What a direction leaves out.

Rectangles are left out in two places: beyond the cap of each cell, and beyond the
cap on rows after all cells are ordered together.  Together with the rows they are
the whole delta, but only the second group is projected, and only the second cut
is made in the common order.
-/

namespace Fwdelta

open DecisionDiagram
open DecisionDiagram.Library
open DecisionDiagram.PathLibrary

section Meaning

variable {B : Type} [Library HEADER_BITS B]

theorem Region.mem_toBdd (layout : Layout) (r : Region) (p : Packet) :
    layout.mem (r.toBdd layout : B) p = true ↔ r.Holds p.value := by
  have fold (fields : List Field) (start : B) :
      layout.mem (fields.foldl (fun acc field => and acc (layout.set field (r.get field))) start)
          p = true ↔
        layout.mem start p = true ∧
          ∀ field ∈ fields, (r.get field).contains (p.value field) = true := by
    induction fields generalizing start with
    | nil => simp
    | cons field rest ih =>
        rw [List.foldl_cons, ih, layout.mem_and, layout.mem_set, Bool.and_eq_true,
          List.forall_mem_cons, and_assoc]
  rw [toBdd, fold]
  simp only [Layout.mem_tt, true_and, Field.mem_all, true_implies]
  rfl

/-- The union that the loops of `direction` build. -/
def unionOf (layout : Layout) (findings : List Finding) : B :=
  findings.foldl (fun acc (finding : Finding) => or acc (finding.region.toBdd layout)) Layout.ff

theorem mem_unionOf (layout : Layout) (findings : List Finding) (p : Packet) :
    layout.mem (unionOf layout findings : B) p = true ↔
      ∃ finding ∈ findings, finding.region.Holds p.value := by
  have fold (start : B) :
      layout.mem (findings.foldl
          (fun acc (finding : Finding) => or acc (finding.region.toBdd layout)) start) p = true ↔
        layout.mem start p = true ∨ ∃ finding ∈ findings, finding.region.Holds p.value := by
    induction findings generalizing start with
    | nil => simp
    | cons finding rest ih =>
        rw [List.foldl_cons, ih, layout.mem_or, Bool.or_eq_true, Region.mem_toBdd,
          List.exists_mem_cons_iff, or_assoc]
  rw [unionOf, fold]
  simp

end Meaning

/-! ### The two cuts -/

section Cuts

variable {B : Type} [PathLibrary HEADER_BITS B]
variable (layout : Layout) (syms : SymbolTable) (base head : ChainModel B) (delta : B)
variable (dir : Direction) (opts : ReportOptions)

/-- The rectangles that the cells list, widest first. -/
def listedFindings : List Finding :=
  orderFindings ((attributeDelta base head delta opts.maxCells).1.flatMap
    (findingsOf layout syms dir opts))

def shownFindings : List Finding :=
  (listedFindings layout syms base head delta dir opts).take opts.maxRows

def droppedFindings : List Finding :=
  (listedFindings layout syms base head delta dir opts).drop opts.maxRows

/-- The rectangles within the cap of their cell. -/
def keptRegions : List Region :=
  (attributeDelta base head delta opts.maxCells).1.flatMap
    (fun cell => (mergedRegions layout cell.set opts.enumeration).take opts.enumeration.maxRegions)

/-- The rectangles beyond the cap of their cell. -/
def cutRegions : List Region :=
  (attributeDelta base head delta opts.maxCells).1.flatMap
    (fun cell => (mergedRegions layout cell.set opts.enumeration).drop opts.enumeration.maxRegions)

theorem flowCount_ff : layout.flowCount (Layout.ff : B) = 0 := by
  rw [layout.flowCount_eq_zero_iff, layout.isFalse_iff_mem]
  exact layout.mem_ff

/-- What a direction says about itself, in terms of its findings. -/
theorem direction_eq :
    let d := direction layout syms base head delta dir opts
    d.rows = (hoistColumns
      ((shownFindings layout syms base head delta dir opts).map Finding.row)).1 ∧
    d.omittedRows = (droppedFindings layout syms base head delta dir opts).length +
      (cutRegions layout base head delta opts).length ∧
    d.omittedFlows = layout.flowCount
      (unionOf layout (droppedFindings layout syms base head delta dir opts) : B) ∧
    d.cellsTruncated = (attributeDelta base head delta opts.maxCells).2 ∧
    d.incomplete = (attributeDelta base head delta opts.maxCells).1.any
      (fun cell => (enumerate layout cell.set opts.enumeration).incomplete) := by
  unfold direction
  by_cases empty : isFalse delta = true
  · simp [empty, attributeDelta, shownFindings, droppedFindings, listedFindings, cutRegions,
      orderFindings, hoistColumns, hoist, unionOf, flowCount_ff]
  · rw [if_neg empty]
    refine ⟨rfl, ?_, ?_, rfl, rfl⟩
    · have beyond (cell : Attribution B) :
          (enumerate layout cell.set opts.enumeration).omittedRegions =
            ((mergedRegions layout cell.set opts.enumeration).drop
              opts.enumeration.maxRegions).length :=
        (enumerate_eq layout cell.set opts.enumeration).2.1
      simp only [beyond, cutRegions, List.length_flatMap]
      exact Nat.add_comm _ _
    · by_cases more : opts.maxRows < (listedFindings layout syms base head delta dir opts).length
      · exact if_pos more
      · have none : droppedFindings layout syms base head delta dir opts = [] := by
          rw [droppedFindings, List.drop_eq_nil_iff]
          omega
        rw [none]
        exact (if_neg more).trans (flowCount_ff layout).symm

theorem count_eq_of_listed {finding : Finding}
    (listed : finding ∈ listedFindings layout syms base head delta dir opts) :
    finding.count = finding.region.count := by
  rw [listedFindings, orderFindings, List.mem_insertionSort, List.mem_flatMap] at listed
  obtain ⟨cell, _, inCell⟩ := listed
  obtain ⟨r, _, rfl⟩ := List.mem_map.mp inCell
  rfl

theorem listedFindings_descending :
    Ranking.Descending Finding.count (listedFindings layout syms base head delta dir opts) :=
  List.pairwise_insertionSort (fun a b : Finding => b.count ≤ a.count) _

theorem listed_perm_kept :
    ((listedFindings layout syms base head delta dir opts).map Finding.region).Perm
      (keptRegions layout base head delta opts) := by
  have regions (cell : Attribution B) :
      (findingsOf layout syms dir opts cell).map Finding.region =
        (mergedRegions layout cell.set opts.enumeration).take opts.enumeration.maxRegions := by
    rw [findingsOf, List.map_map, (enumerate_eq layout cell.set opts.enumeration).1]
    exact List.map_id _
  have listed := (List.perm_insertionSort (fun a b : Finding => b.count ≤ a.count)
    ((attributeDelta base head delta opts.maxCells).1.flatMap
      (findingsOf layout syms dir opts))).map Finding.region
  rw [List.map_flatMap, funext regions] at listed
  exact listed

/-- Shown, dropped and cut rectangles are those of all cells. -/
theorem listed_append_cut_perm :
    ((listedFindings layout syms base head delta dir opts).map Finding.region ++
      cutRegions layout base head delta opts).Perm
        ((attributeDelta base head delta opts.maxCells).1.flatMap
          (fun cell => mergedRegions layout cell.set opts.enumeration)) := by
  have both := ((listed_perm_kept layout syms base head delta dir opts).append_right
    (cutRegions layout base head delta opts)).trans (List.flatMap_append_perm _ _ _)
  simp only [List.take_append_drop] at both
  exact both

end Cuts

/-! ### Everything is shown or left out -/

section Split

variable {B : Type} [Library HEADER_BITS B]

theorem ChainModel.map_snd_attribute (model : ChainModel B)
    (consistent : ∀ r ∈ model.rules, r.shadowed = isFalse r.effective) (set : B) :
    (model.attribute set).map Prod.snd = model.cells.filterMap (restrictTo set) := by
  have cells : model.cells = model.deciderCells.map Prod.snd := by
    simp [ChainModel.cells, ChainModel.deciderCells]
  rw [model.attribute_eq_filterMap consistent, cells, List.map_filterMap, List.filterMap_map]
  apply List.filterMap_congr
  intro cell _
  cases found : restrictTo set cell.2 <;> simp [found]

variable [ContentHasher] (layout : Layout) (syms : SymbolTable)

theorem attribute_split (chain : Chain) (set : B) :
    Fibres.Split (fun (part : B) p => layout.mem part p = true)
      (fun p => layout.mem set p = true)
      (((analyse layout syms chain : ChainModel B).attribute set).map Prod.snd) := by
  rw [ChainModel.map_snd_attribute _ (analyse_shadowed_consistent layout syms chain)]
  exact Fibres.Split.of_restrict (fun cell part => restrictTo_eq_some layout)
    (fun cell => restrictTo_eq_none layout) (cells_apart layout syms chain)
    (cells_cover layout syms chain)

theorem allCells_split (base head : Chain) (delta : B) :
    Fibres.Split (fun (part : B) p => layout.mem part p = true)
      (fun p => layout.mem delta p = true)
      ((allCells (analyse layout syms base) (analyse layout syms head) delta).map Prod.snd) := by
  have cells : (allCells (analyse layout syms base) (analyse layout syms head) delta).map
      Prod.snd =
        (((analyse layout syms base : ChainModel B).attribute delta).map Prod.snd).flatMap
          (fun part =>
            ((analyse layout syms head : ChainModel B).attribute part).map Prod.snd) := by
    rw [allCells, List.map_flatMap, List.flatMap_map]
    simp only [List.map_map]
    rfl
  rw [cells]
  exact (attribute_split layout syms base delta).product
    (fun part _ => attribute_split layout syms head part)

/-- When the cap on cells leaves none out, the cells are the delta. -/
theorem attributeDelta_split (base head : Chain) (delta : B) (maxCells : Nat)
    (whole : (attributeDelta (analyse layout syms base : ChainModel B)
      (analyse layout syms head) delta maxCells).2 = false) :
    Fibres.Split (fun (part : B) p => layout.mem part p = true)
      (fun p => layout.mem delta p = true)
      ((attributeDelta (analyse layout syms base) (analyse layout syms head) delta
        maxCells).1.map Attribution.set) := by
  have nothing (empty : isFalse delta = true) :
      (analyse layout syms base : ChainModel B).attribute delta = [] := by
    have parts := (attribute_split layout syms base delta).eq_nil_of_empty
      (fun p inDelta => by simp [(layout.isFalse_iff_mem delta).mp empty p] at inDelta)
    exact List.map_eq_nil_iff.mp parts
  rw [attributeDelta_eq _ _ delta maxCells nothing] at whole ⊢
  rw [decide_eq_false_iff_not, Nat.not_lt] at whole
  rw [List.take_of_length_le whole, List.map_map]
  exact allCells_split layout syms base head delta

end Split

section Left

variable {B : Type} [PathLibrary HEADER_BITS B]

theorem mergedRegions_split (layout : Layout) (set : B) (opts : EnumOptions)
    (complete : (enumerate layout set opts).incomplete = false) :
    Fibres.Split (fun (r : Region) (p : Packet) => r.Holds p.value)
      (fun p => layout.mem set p = true) (mergedRegions layout set opts) where
  apart := (apart_mergedRegions layout set opts).imp (fun clear (p : Packet) => clear p.value)
  inhabited := fun r member =>
    Region.exists_holds (inhabited_mergedRegions layout set opts r member)
  covers := fun p => ⟨(incomplete_iff layout set opts).mp complete p,
    mem_of_covered_mergedRegions⟩

section Analysed

variable [ContentHasher] (layout : Layout) (syms : SymbolTable) (base head : Chain) (delta : B)
variable (dir : Direction) (opts : ReportOptions)

/-- When no work limit was hit, what is shown, dropped and cut is the delta. -/
theorem direction_split
    (whole : (direction layout syms (analyse layout syms base) (analyse layout syms head)
      delta dir opts).cellsTruncated = false)
    (complete : (direction layout syms (analyse layout syms base) (analyse layout syms head)
      delta dir opts).incomplete = false) :
    Fibres.Split (fun (r : Region) (p : Packet) => r.Holds p.value)
      (fun p => layout.mem delta p = true)
      ((shownFindings layout syms (analyse layout syms base) (analyse layout syms head) delta
          dir opts).map Finding.region ++
        ((droppedFindings layout syms (analyse layout syms base) (analyse layout syms head) delta
            dir opts).map Finding.region ++
          cutRegions layout (analyse layout syms base) (analyse layout syms head) delta opts)) := by
  obtain ⟨_, _, _, truncated, incomplete⟩ := direction_eq layout syms (analyse layout syms base)
    (analyse layout syms head) delta dir opts
  rw [truncated] at whole
  rw [incomplete, List.any_eq_false] at complete
  have cells := attributeDelta_split layout syms base head delta opts.maxCells whole
  have each : ∀ set ∈ (attributeDelta (analyse layout syms base : ChainModel B)
      (analyse layout syms head) delta opts.maxCells).1.map Attribution.set,
      Fibres.Split (fun (r : Region) (p : Packet) => r.Holds p.value)
        (fun p => layout.mem set p = true) (mergedRegions layout set opts.enumeration) := by
    intro set member
    obtain ⟨cell, listed, rfl⟩ := List.mem_map.mp member
    exact mergedRegions_split layout cell.set opts.enumeration
      (Bool.eq_false_of_not_eq_true (complete cell listed))
  have rectangles := cells.product each
  rw [List.flatMap_map] at rectangles
  rw [← List.append_assoc, ← List.map_append, shownFindings, droppedFindings,
    List.take_append_drop]
  exact rectangles.perm (listed_append_cut_perm layout syms _ _ delta dir opts).symm

/-- What is left is the union of the dropped and the cut rectangles. -/
theorem mem_remainder
    (whole : (direction layout syms (analyse layout syms base) (analyse layout syms head)
      delta dir opts).cellsTruncated = false)
    (complete : (direction layout syms (analyse layout syms base) (analyse layout syms head)
      delta dir opts).incomplete = false) (p : Packet) :
    layout.mem (andNot delta (unionOf layout (shownFindings layout syms
        (analyse layout syms base) (analyse layout syms head) delta dir opts))) p = true ↔
      (∃ finding ∈ droppedFindings layout syms (analyse layout syms base)
          (analyse layout syms head) delta dir opts, finding.region.Holds p.value) ∨
        ∃ r ∈ cutRegions layout (analyse layout syms base) (analyse layout syms head) delta opts,
          r.Holds p.value := by
  have rest := (direction_split layout syms base head delta dir opts whole complete).rest_iff p
  simp only [List.mem_append, List.mem_map, or_and_right, exists_or,
    exists_exists_and_eq_and] at rest
  rw [← rest, layout.mem_andNot, Bool.and_eq_true, Bool.not_eq_true', ← Bool.not_eq_true,
    mem_unionOf]

theorem omittedRows_pos_iff
    (whole : (direction layout syms (analyse layout syms base) (analyse layout syms head)
      delta dir opts).cellsTruncated = false)
    (complete : (direction layout syms (analyse layout syms base) (analyse layout syms head)
      delta dir opts).incomplete = false) :
    0 < (direction layout syms (analyse layout syms base) (analyse layout syms head)
        delta dir opts).omittedRows ↔
      isFalse (andNot delta (unionOf layout (shownFindings layout syms
        (analyse layout syms base) (analyse layout syms head) delta dir opts))) = false := by
  rw [(direction_eq layout syms _ _ delta dir opts).2.1, layout.isFalse_eq_false_iff_mem]
  simp only [mem_remainder layout syms base head delta dir opts whole complete]
  constructor
  · intro some_
    have inhabited := (direction_split layout syms base head delta dir opts whole
      complete).inhabited
    simp only [List.mem_append, List.mem_map] at inhabited
    rcases Nat.add_pos_iff_pos_or_pos.mp some_ with dropped | cut
    · obtain ⟨finding, member⟩ := List.exists_mem_of_length_pos dropped
      obtain ⟨p, holds⟩ := inhabited finding.region (Or.inr (Or.inl ⟨finding, member, rfl⟩))
      exact ⟨p, Or.inl ⟨finding, member, holds⟩⟩
    · obtain ⟨r, member⟩ := List.exists_mem_of_length_pos cut
      obtain ⟨p, holds⟩ := inhabited r (Or.inr (Or.inr member))
      exact ⟨p, Or.inr ⟨r, member, holds⟩⟩
  · intro found
    obtain ⟨p, ⟨finding, member, _⟩ | ⟨r, member, _⟩⟩ := found
    · exact Nat.add_pos_left (List.length_pos_of_mem member) _
    · exact Nat.add_pos_right _ (List.length_pos_of_mem member)

/-- The line on omissions is right exactly when each flow cut from a cell is also a
flow of a rectangle dropped after ordering.  It never overstates, and the number of
entries is right in any case. -/
theorem omission_line_exact_iff
    (whole : (direction layout syms (analyse layout syms base) (analyse layout syms head)
      delta dir opts).cellsTruncated = false)
    (complete : (direction layout syms (analyse layout syms base) (analyse layout syms head)
      delta dir opts).incomplete = false) :
    let bm : ChainModel B := analyse layout syms base
    let hm : ChainModel B := analyse layout syms head
    let d := direction layout syms bm hm delta dir opts
    let shown := shownFindings layout syms bm hm delta dir opts
    let remainder := andNot delta (unionOf layout shown)
    d.rows = (hoistColumns (shown.map Finding.row)).1 ∧
    (0 < d.omittedRows ↔ isFalse remainder = false) ∧
    d.omittedFlows ≤ layout.flowCount remainder ∧
    (d.omittedFlows = layout.flowCount remainder ∧
        (0 < d.omittedRows ↔ isFalse remainder = false) ↔
      ∀ r ∈ cutRegions layout bm hm delta opts, ∀ p : Packet, r.Holds p.value →
        ∃ finding ∈ droppedFindings layout syms bm hm delta dir opts,
          ∃ q : Packet, q.SameFlow p ∧ finding.region.Holds q.value) := by
  intro bm hm d shown remainder
  obtain ⟨rows, _, flows, _⟩ := direction_eq layout syms bm hm delta dir opts
  have left (p : Packet) := mem_remainder layout syms base head delta dir opts whole complete p
  have entries : 0 < d.omittedRows ↔ isFalse remainder = false :=
    omittedRows_pos_iff layout syms base head delta dir opts whole complete
  have within (p : Packet) (inDropped : layout.mem (unionOf layout
      (droppedFindings layout syms bm hm delta dir opts) : B) p = true) :
      layout.mem remainder p = true :=
    (left p).mpr (Or.inl ((mem_unionOf layout _ p).mp inDropped))
  refine ⟨rows, entries, ?_, ?_⟩
  · rw [flows]
    exact layout.flowCount_mono within
  · rw [and_iff_left entries, flows, layout.flowCount_eq_iff within]
    constructor
    · intro found r member p holds
      obtain ⟨q, same, inDropped⟩ := found p ((left p).mpr (Or.inr ⟨r, member, holds⟩))
      obtain ⟨finding, dropped, here⟩ := (mem_unionOf layout _ q).mp inDropped
      exact ⟨finding, dropped, q, same, here⟩
    · intro covered p inside
      rcases (left p).mp inside with dropped | cut
      · exact ⟨p, (p.sameFlow_iff_flow p).mpr rfl, (mem_unionOf layout _ p).mpr dropped⟩
      · obtain ⟨r, member, holds⟩ := cut
        obtain ⟨finding, dropped, q, same, here⟩ := covered r member p holds
        exact ⟨q, same, (mem_unionOf layout _ q).mpr ⟨finding, dropped, here⟩⟩

end Analysed

end Left

/-! ### The widest come first -/

section Widest

variable {B : Type} [PathLibrary HEADER_BITS B]
variable (layout : Layout) (syms : SymbolTable) (base head : ChainModel B) (delta : B)
variable (dir : Direction) (opts : ReportOptions)

theorem countP_listed (bound : Nat) :
    (listedFindings layout syms base head delta dir opts).countP
        (fun finding => bound ≤ finding.count) =
      (keptRegions layout base head delta opts).countP (fun r => bound ≤ r.count) := by
  rw [← (listed_perm_kept layout syms base head delta dir opts).countP_eq, List.countP_map]
  apply List.countP_congr
  intro finding listed
  rw [count_eq_of_listed layout syms base head delta dir opts listed]
  rfl

theorem length_listed :
    (listedFindings layout syms base head delta dir opts).length =
      (keptRegions layout base head delta opts).length := by
  rw [← (listed_perm_kept layout syms base head delta dir opts).length_eq, List.length_map]

/-- A cut rectangle is no wider than the first one cut from its cell. -/
theorem forall_cut_iff (below : Nat → Prop) (downward : ∀ a b, a ≤ b → below b → below a) :
    (∀ r ∈ cutRegions layout base head delta opts, below r.count) ↔
      ∀ cell ∈ (attributeDelta base head delta opts.maxCells).1, ∀ r,
        (mergedRegions layout cell.set opts.enumeration)[opts.enumeration.maxRegions]? = some r →
          below r.count := by
  simp only [cutRegions, List.mem_flatMap, forall_exists_index, and_imp]
  constructor
  · intro all cell member r first
    apply all r cell member
    rw [List.mem_iff_getElem?]
    exact ⟨0, by rw [List.getElem?_drop, Nat.add_zero, first]⟩
  · intro all r cell member cut
    have sorted := mergedRegions_sorted layout cell.set opts.enumeration
    rw [List.mem_iff_getElem?] at cut
    obtain ⟨i, at_⟩ := cut
    rw [List.getElem?_drop] at at_
    obtain ⟨bound, rfl⟩ := List.getElem?_eq_some_iff.mp at_
    have firstBound : opts.enumeration.maxRegions <
        (mergedRegions layout cell.set opts.enumeration).length := by omega
    refine downward _ _ ?_ (all cell member _ (List.getElem?_eq_getElem firstBound))
    rcases Nat.eq_zero_or_pos i with zero | later
    · simp only [zero, Nat.add_zero, le_refl]
    · exact List.pairwise_iff_getElem.mp sorted _ _ firstBound bound (by omega)

/-- Every rectangle shown is at least as wide as every one left out exactly when, for
the first rectangle cut from each cell, there are as many listed ones of its width as
are shown. -/
theorem widest_shown_iff :
    (direction layout syms base head delta dir opts).rows =
        (hoistColumns ((shownFindings layout syms base head delta dir opts).map Finding.row)).1 ∧
      ((∀ finding ∈ shownFindings layout syms base head delta dir opts,
          (∀ other ∈ droppedFindings layout syms base head delta dir opts,
            other.region.count ≤ finding.region.count) ∧
          ∀ r ∈ cutRegions layout base head delta opts, r.count ≤ finding.region.count) ↔
        ∀ cell ∈ (attributeDelta base head delta opts.maxCells).1, ∀ r,
          (mergedRegions layout cell.set opts.enumeration)[opts.enumeration.maxRegions]? =
              some r →
            min opts.maxRows (keptRegions layout base head delta opts).length ≤
              (keptRegions layout base head delta opts).countP
                (fun other => r.count ≤ other.count)) := by
  refine ⟨(direction_eq layout syms base head delta dir opts).1, ?_⟩
  have sorted := listedFindings_descending layout syms base head delta dir opts
  have counts {finding : Finding}
      (listed : finding ∈ listedFindings layout syms base head delta dir opts) :=
    count_eq_of_listed layout syms base head delta dir opts listed
  have enough (bound : Nat) :
      (∀ finding ∈ shownFindings layout syms base head delta dir opts,
          bound ≤ finding.count) ↔
        min opts.maxRows (keptRegions layout base head delta opts).length ≤
          (keptRegions layout base head delta opts).countP
            (fun other => bound ≤ other.count) := by
    rw [← countP_listed layout syms base head delta dir opts,
      ← length_listed layout syms base head delta dir opts]
    exact sorted.forall_take_iff opts.maxRows bound
  rw [← forall_cut_iff layout base head delta opts
    (fun bound => min opts.maxRows (keptRegions layout base head delta opts).length ≤
      (keptRegions layout base head delta opts).countP (fun other => bound ≤ other.count))
    (fun a b narrower holds => (enough a).mp
      (fun finding member => narrower.trans ((enough b).mpr holds finding member)))]
  constructor
  · intro all r cut
    rw [← enough]
    intro finding member
    rw [counts (List.mem_of_mem_take member)]
    exact (all finding member).2 r cut
  · intro all finding member
    rw [← counts (List.mem_of_mem_take member)]
    constructor
    · intro other dropped
      rw [← counts (List.mem_of_mem_drop dropped)]
      exact sorted.drop_le_take opts.maxRows member dropped
    · exact fun r cut => (enough r.count).mpr (all r cut) finding member

/-- With no more rows than rectangles per cell, the widest are always shown. -/
theorem widest_shown_of_maxRows_le (few : opts.maxRows ≤ opts.enumeration.maxRegions) :
    ∀ finding ∈ shownFindings layout syms base head delta dir opts,
      ∀ r ∈ cutRegions layout base head delta opts, r.count ≤ finding.region.count := by
  intro finding shown r cut
  rw [← count_eq_of_listed layout syms base head delta dir opts (List.mem_of_mem_take shown)]
  apply ((listedFindings_descending layout syms base head delta dir opts).forall_take_iff
    opts.maxRows r.count).mpr _ finding shown
  rw [countP_listed]
  obtain ⟨cell, member, beyond⟩ := List.mem_flatMap.mp cut
  -- The cell of a cut rectangle lists as many rectangles as its cap, all as wide.
  have wide : (((mergedRegions layout cell.set opts.enumeration).take
      opts.enumeration.maxRegions).countP (fun other => r.count ≤ other.count)) =
        opts.enumeration.maxRegions := by
    have full : opts.enumeration.maxRegions ≤
        (mergedRegions layout cell.set opts.enumeration).length := by
      have some_ := List.length_pos_of_mem beyond
      rw [List.length_drop] at some_
      omega
    rw [List.countP_eq_length.mpr, List.length_take, Nat.min_eq_left full]
    intro other kept
    have sorted : Ranking.Descending Region.count
        (mergedRegions layout cell.set opts.enumeration) :=
      mergedRegions_sorted layout cell.set opts.enumeration
    exact decide_eq_true (sorted.drop_le_take _ kept beyond)
  have among := (List.sublist_flatten_of_mem (List.mem_map_of_mem
    (f := fun cell : Attribution B => (mergedRegions layout cell.set opts.enumeration).take
      opts.enumeration.maxRegions) member)).countP_le (p := fun other => r.count ≤ other.count)
  rw [wide] at among
  exact ((Nat.min_le_left _ _).trans few).trans among

end Widest

/-! ### One rectangle for each cell -/

namespace Halves

def low : IntervalSet 32 :=
  IntervalSet.fromRanges 32 [(0, 2147483647)]

def high : IntervalSet 32 :=
  IntervalSet.fromRanges 32 [(2147483648, 4294967295)]

def top : IntervalSet 32 :=
  IntervalSet.fromRanges 32 [(3221225472, 4294967295)]

/-- A chain that accepts nothing. -/
def closed : Chain :=
  Chain.new "input" .input .drop

/-- A chain that accepts everything but traffic within the lower half, and names
some of the rest in a rule. -/
def opened : Chain :=
  ((Chain.new "input" .input .accept).push { Match.any with srcAddr := low, dstAddr := low } .drop
      ⟨"f", 1, 1, "ip saddr 0.0.0.0/1 ip daddr 0.0.0.0/1 drop"⟩).push
    { Match.any with srcAddr := high, dstAddr := top } .accept
    ⟨"f", 2, 1, "ip saddr 128.0.0.0/1 ip daddr 192.0.0.0/2 accept"⟩

def layout : Layout := ⟨.addrInterleaved⟩

def opts : ReportOptions :=
  { ReportOptions.default with enumeration := { EnumOptions.default with maxRegions := 1 } }

/-! The matches read a bit or two of each address, and are replaced by these bits
before the report is evaluated. -/

theorem eval_addresses (src dst : IntervalSet 32) (v : Valuation) :
    eval (layout.matchBdd { Match.any with srcAddr := src, dstAddr := dst } .empty :
      Diagram HEADER_BITS) v =
      (src.contains (layout.fieldValue v .srcAddr) &&
        dst.contains (layout.fieldValue v .dstAddr)) := by
  have full (field : Field) :
      (IntervalSet.full field.bits).contains (layout.fieldValue v field) = true :=
    (IntervalSet.contains_full _).mpr (layout.fieldValue_le_domainMax v field)
  rw [Layout.eval_matchBdd, Bool.eq_iff_iff]
  simp only [Match.holdsAt, Field.all, List.all_cons, List.all_nil, Bool.and_eq_true, and_true]
  exact ⟨fun holds => ⟨holds.1, holds.2.1⟩, fun holds => ⟨holds.1, holds.2, full .srcPort,
    full .dstPort, full .proto, full .ifIn, full .ifOut⟩⟩

theorem eval_bit (field : Field) {bit : Nat} (inField : bit < field.bits) (value : Bool)
    (v : Valuation) : eval (layout.lit field bit value : Diagram HEADER_BITS) v =
      ((layout.fieldValue v field).testBit (field.bits - 1 - bit) == value) := by
  rw [Layout.lit, eval_mkLiteral, layout.apply_var v inField]

theorem testBit_first {n : Nat} (small : n < 2 ^ 32) : n.testBit 31 = decide (2 ^ 31 ≤ n) := by
  by_cases above : 2 ^ 31 ≤ n
  · rw [Nat.testBit_of_two_pow_le_and_two_pow_add_one_gt above small, decide_eq_true above]
  · rw [Nat.testBit_lt_two_pow (Nat.lt_of_not_le above), decide_eq_false above]

theorem testBit_both {n : Nat} (small : n < 2 ^ 32) :
    (n.testBit 31 && n.testBit 30) = decide (3 * 2 ^ 30 ≤ n) := by
  rw [testBit_first small, Bool.eq_iff_iff, Bool.and_eq_true, decide_eq_true_iff,
    decide_eq_true_iff, Nat.testBit_eq_decide_div_mod_eq, decide_eq_true_iff]
  omega

theorem contains_range {lo hi : Nat} (within : hi ≤ domainMax 32) (n : Nat) :
    (IntervalSet.fromRanges 32 [(lo, hi)]).contains n = decide (lo ≤ n ∧ n ≤ hi) := by
  rw [Bool.eq_iff_iff, IntervalSet.contains_fromRanges (by simpa using within),
    decide_eq_true_iff]
  simp [Covers]

def lower : Diagram HEADER_BITS :=
  and (layout.lit .srcAddr 0 false) (layout.lit .dstAddr 0 false)

def upper : Diagram HEADER_BITS :=
  and (layout.lit .srcAddr 0 true)
    (and (layout.lit .dstAddr 0 true) (layout.lit .dstAddr 1 true))

theorem matchBdd_lower :
    layout.matchBdd { Match.any with srcAddr := low, dstAddr := low } .empty = lower := by
  refine canonical _ _ fun v => ?_
  have src := layout.fieldValue_lt v .srcAddr
  have dst := layout.fieldValue_lt v .dstAddr
  rw [eval_addresses, lower, eval_and, eval_bit _ (by decide), eval_bit _ (by decide), low,
    contains_range (by decide), contains_range (by decide)]
  simp only [Field.bits] at src dst ⊢
  rw [testBit_first src, testBit_first dst]
  grind

theorem matchBdd_upper :
    layout.matchBdd { Match.any with srcAddr := high, dstAddr := top } .empty = upper := by
  refine canonical _ _ fun v => ?_
  have src := layout.fieldValue_lt v .srcAddr
  have dst := layout.fieldValue_lt v .dstAddr
  rw [eval_addresses, upper, eval_and, eval_and, eval_bit _ (by decide), eval_bit _ (by decide),
    eval_bit _ (by decide), high, top, contains_range (by decide), contains_range (by decide)]
  have both := testBit_both dst
  simp only [Field.bits, beq_true] at src dst both ⊢
  rw [testBit_first src, both]
  grind

variable [ContentHasher]

def base : ChainModel (Diagram HEADER_BITS) :=
  analyse layout .empty closed

def head : ChainModel (Diagram HEADER_BITS) :=
  analyse layout .empty opened

def delta : Diagram HEADER_BITS :=
  (diff base head).newlyAllowed

def report : DirectionReport :=
  direction layout .empty base head delta .allowed opts

/-- The model of a chain of two rules, from the sets they match. -/
def analysePair (chain : Chain) (a b : Rule) (first second : Diagram HEADER_BITS) :
    ChainModel (Diagram HEADER_BITS) :=
  let grown := or Layout.ff first
  let effective := if isTrue grown then Layout.ff else andNot second grown
  let all := if isTrue grown then grown else or grown second
  let policyAccept := if chain.policy.permits then Layout.tt else Layout.ff
  let backward := analyseBackward policyAccept [
    { number := a.number
      action := a.action
      contentKey := contentKey a.predicate a.action
      matched := first
      effective := andNot first Layout.ff
      shadowed := isFalse (andNot first Layout.ff)
      redundant := false },
    { number := b.number
      action := b.action
      contentKey := contentKey b.predicate b.action
      matched := second
      effective := effective
      shadowed := isFalse effective
      redundant := false }]
  { name := chain.name
    hook := chain.hook
    policy := chain.policy
    accept := backward.2
    matchedAny := all
    fallthrough := not all
    rules := backward.1 }

theorem analyse_pair {chain : Chain} {a b : Rule} (rules : chain.rules = [a, b]) :
    analyse layout .empty chain = analysePair chain a b (layout.matchBdd a.predicate .empty)
      (layout.matchBdd b.predicate .empty) := by
  unfold analyse
  rw [rules]
  simp only [analyseForward, Bool.false_eq_true, if_false]
  cases full : isTrue (or Layout.ff (layout.matchBdd a.predicate .empty : Diagram HEADER_BITS)) <;>
    simp [analysePair, full]

theorem head_eq : head = analysePair opened
    ⟨1, { Match.any with srcAddr := low, dstAddr := low }, .drop,
      ⟨"f", 1, 1, "ip saddr 0.0.0.0/1 ip daddr 0.0.0.0/1 drop"⟩⟩
    ⟨2, { Match.any with srcAddr := high, dstAddr := top }, .accept,
      ⟨"f", 2, 1, "ip saddr 128.0.0.0/1 ip daddr 192.0.0.0/2 accept"⟩⟩ lower upper := by
  rw [← matchBdd_lower, ← matchBdd_upper]
  exact analyse_pair rfl

end Halves

/-- The default policy newly allows two rectangles and the second rule one.  One of
each is shown. -/
theorem halves_report : letI : ContentHasher := ⟨fun _ _ => 0⟩
    (Halves.report.cellsTruncated = false ∧ Halves.report.incomplete = false) ∧
    (Halves.report.omittedRows = 1 ∧ Halves.report.omittedFlows = 0) ∧
    ∃ finding ∈ shownFindings Halves.layout .empty Halves.base Halves.head Halves.delta
        .allowed Halves.opts,
      ∃ r ∈ cutRegions Halves.layout Halves.base Halves.head Halves.delta Halves.opts,
        finding.region.count < r.count := by
  unfold Halves.report Halves.delta
  rw [@Halves.head_eq ⟨fun _ _ => 0⟩]
  decide +kernel

/-- One entry is omitted, and it is said to cover no flows. -/
theorem omitted_flows_understated : letI : ContentHasher := ⟨fun _ _ => 0⟩
    (Halves.report.cellsTruncated = false ∧ Halves.report.incomplete = false) ∧
    Halves.report.omittedRows = 1 ∧ Halves.report.omittedFlows = 0 ∧
    Halves.report.omittedFlows ≠ Halves.layout.flowCount (andNot Halves.delta
      (unionOf Halves.layout (shownFindings Halves.layout .empty Halves.base Halves.head
        Halves.delta .allowed Halves.opts))) := by
  let _ : ContentHasher := ⟨fun _ _ => 0⟩
  obtain ⟨limits, ⟨rows, flows⟩, _⟩ := halves_report
  refine ⟨limits, rows, flows, ?_⟩
  have some_ := (omittedRows_pos_iff Halves.layout .empty Halves.closed Halves.opened
    Halves.delta .allowed Halves.opts limits.1 limits.2).mp (rows.symm ▸ Nat.one_pos)
  rw [flows]
  intro none
  exact Bool.false_ne_true
    (some_.symm.trans (Halves.layout.flowCount_eq_zero_iff.mp none.symm))

/-- What is said to be omitted is no more than what is. -/
theorem halves_not_overstated : letI : ContentHasher := ⟨fun _ _ => 0⟩
    Halves.report.omittedFlows ≤ Halves.layout.flowCount (andNot Halves.delta
      (unionOf Halves.layout (shownFindings Halves.layout .empty Halves.base Halves.head
        Halves.delta .allowed Halves.opts))) := by
  let _ : ContentHasher := ⟨fun _ _ => 0⟩
  obtain ⟨limits, _⟩ := halves_report
  exact (omission_line_exact_iff Halves.layout .empty Halves.closed Halves.opened Halves.delta
    .allowed Halves.opts limits.1 limits.2).2.2.1

/-- A rectangle of the second rule is shown, and a wider one of the policy is cut. -/
theorem wider_rectangle_cut : letI : ContentHasher := ⟨fun _ _ => 0⟩
    (Halves.report.cellsTruncated = false ∧ Halves.report.incomplete = false) ∧
    ∃ finding ∈ shownFindings Halves.layout .empty Halves.base Halves.head Halves.delta
        .allowed Halves.opts,
      ∃ r ∈ cutRegions Halves.layout Halves.base Halves.head Halves.delta Halves.opts,
        finding.region.count < r.count :=
  ⟨halves_report.1, halves_report.2.2⟩

end Fwdelta
