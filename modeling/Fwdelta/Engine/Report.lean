import Fwdelta.Engine.Diff
import Fwdelta.Engine.Enumerate
import Fwdelta.Engine.Render

/-
The report that every output format is a view of.

A direction attributes its delta, enumerates each cell, orders the rectangles by
size across cells, cuts the list and lifts constant columns out of the rows.
The time of generation is a parameter: the clock is not part of the model.
-/

namespace Fwdelta

open DecisionDiagram
open DecisionDiagram.Library
open DecisionDiagram.PathLibrary
open Render

def Decider.text : Decider → String
  | .rule number => "rule " ++ Text.twoDigits number
  | .policy => "the default policy"

/-- Which way a delta runs.  Only the wording differs. -/
inductive Direction
  | blocked
  | allowed
  deriving DecidableEq, Repr

namespace Direction

def heading : Direction → String × String
  | .blocked => ("NEWLY BLOCKED", "(permitted before, denied now)")
  | .allowed => ("NEWLY ALLOWED", "(denied before, permitted now)")

def note : Direction → Decider → Decider → String
  | .blocked, was, now => "was allowed by " ++ was.text ++ ", now denied by " ++ now.text
  | .allowed, was, now => "was denied by " ++ was.text ++ ", now allowed by " ++ now.text

end Direction

structure ReportOptions where
  style : Style
  enumeration : EnumOptions
  maxCells : Nat
  maxRows : Nat
  deriving DecidableEq, Repr

def ReportOptions.default : ReportOptions where
  style := Style.default
  enumeration := EnumOptions.default
  maxCells := 64
  maxRows := 12

/-- One direction of one chain's delta, ready to render. -/
structure DirectionReport where
  direction : Direction
  qualifiers : List String
  rows : List Row
  flows : Nat
  packets : Nat
  omittedRows : Nat
  omittedFlows : Nat
  cellsTruncated : Bool
  incomplete : Bool
  deriving DecidableEq

namespace DirectionReport

def isEmpty (d : DirectionReport) : Bool :=
  d.rows.isEmpty && d.omittedRows == 0

def PROJECTION : String :=
  "src, dst, dport, proto; sport/iif/oif quantified"

end DirectionReport

structure StructuralRow where
  number : Nat
  what : String
  why : String
  deriving DecidableEq

/-- An assertion result, flattened. -/
structure AssertionRow where
  name : String
  kind : String
  outcome : String
  detail : String
  deriving DecidableEq

namespace AssertionRow

def isPass (a : AssertionRow) : Bool :=
  a.outcome == "PASS"

def isFail (a : AssertionRow) : Bool :=
  a.outcome == "FAIL"

def isVacuous (a : AssertionRow) : Bool :=
  a.outcome == "VACUOUS"

end AssertionRow

structure ChainReport where
  name : String
  blocked : DirectionReport
  allowed : DirectionReport
  structural : List StructuralRow
  deriving DecidableEq

/-- Everything a rendered report contains. -/
structure DiffReport where
  baseLabel : String
  headLabel : String
  toolVersion : String
  generatedAt : String
  chains : List ChainReport
  assertions : List AssertionRow
  notes : List String
  deriving DecidableEq

namespace DiffReport

def trafficLost (r : DiffReport) : Bool :=
  r.chains.any (fun c => !c.blocked.isEmpty)

def passed (r : DiffReport) : Nat :=
  r.assertions.countP AssertionRow.isPass

def failed (r : DiffReport) : Nat :=
  r.assertions.countP AssertionRow.isFail

def vacuous (r : DiffReport) : Nat :=
  r.assertions.countP AssertionRow.isVacuous

end DiffReport

/-! ### Building a direction -/

/-- A rectangle with its size and its rendered columns. -/
structure Finding where
  count : Nat
  region : Region
  row : Row

/-- Move a column into the section qualifiers when every row agrees on it. -/
def hoist (field : Row → String) (clear : Row → Row) (page : List Row × List String) :
    List Row × List String :=
  match page.1 with
  | first :: _ :: _ =>
      if field first = "" ∨ field first = "any" then page
      else if page.1.all (fun r => field r == field first) then
        (page.1.map clear, page.2 ++ [field first])
      else page
  | _ => page

/-- The three columns that are lifted, in order. -/
def hoistColumns (rows : List Row) : List Row × List String :=
  hoist Row.proto (fun r => { r with proto := "" })
    (hoist Row.oif (fun r => { r with oif := "" })
      (hoist Row.iif (fun r => { r with iif := "" }) (rows, [])))

section Build

variable {B : Type} [PathLibrary HEADER_BITS B]

def findingsOf (layout : Layout) (syms : SymbolTable) (dir : Direction) (opts : ReportOptions)
    (cell : Attribution B) : List Finding :=
  (enumerate layout cell.set opts.enumeration).regions.map (fun r =>
    { count := r.count
      region := r
      row := Render.row r (dir.note cell.was cell.now) syms opts.style })

/-- Widest first across every cell; the sort is stable. -/
def orderFindings (found : List Finding) : List Finding :=
  found.insertionSort (fun a b => b.count ≤ a.count)

def direction (layout : Layout) (syms : SymbolTable) (base head : ChainModel B) (delta : B)
    (dir : Direction) (opts : ReportOptions) : DirectionReport :=
  let flows := layout.flowCount delta
  let packets := exactCardinality delta
  if isFalse delta then
    { direction := dir
      qualifiers := []
      rows := []
      flows := flows
      packets := packets
      omittedRows := 0
      omittedFlows := 0
      cellsTruncated := false
      incomplete := false }
  else
    let attributed := attributeDelta base head delta opts.maxCells
    let cells := attributed.1
    let found := orderFindings (cells.flatMap (findingsOf layout syms dir opts))
    let omitted := (cells.map
      (fun cell => (enumerate layout cell.set opts.enumeration).omittedRegions)).sum
    let dropped := found.drop opts.maxRows
    -- Projections do not add, so the union of what is dropped is projected.
    let union : B := dropped.foldl
      (fun acc (finding : Finding) => or acc (finding.region.toBdd layout)) Layout.ff
    let page := hoistColumns ((found.take opts.maxRows).map Finding.row)
    { direction := dir
      qualifiers := page.2
      rows := page.1
      flows := flows
      packets := packets
      omittedRows := omitted + dropped.length
      omittedFlows := if found.length > opts.maxRows then layout.flowCount union else 0
      cellsTruncated := attributed.2
      incomplete := cells.any
        (fun cell => (enumerate layout cell.set opts.enumeration).incomplete) }

def ruleList (lead : String) : List Nat → String
  | [] => ""
  | [one] => lead ++ " rule " ++ Text.twoDigits one
  | many => lead ++ " rules " ++ ", ".intercalate (many.map Text.twoDigits)

def structuralRow (c : Structural) : StructuralRow :=
  let texts := match c with
    | .nowReachable _ previouslyCoveredBy =>
        ("now reachable", ruleList "previously shadowed by" previouslyCoveredBy)
    | .nowUnreachable _ coveredBy => ("now unreachable", ruleList "fully covered by" coveredBy)
    | .nowRedundant _ => ("now redundant", "removing it would not change the accept set")
    | .noLongerRedundant _ => ("now load-bearing", "it was redundant before this change")
    | .added _ => ("added", "")
    | .removed _ => ("removed", "")
    | .modified _ => ("modified", "")
  { number := c.number, what := texts.1, why := texts.2 }

/-- One chain's two compiled revisions and their delta. -/
structure ChainInput (B : Type) where
  name : String
  base : ChainModel B
  head : ChainModel B
  diff : ChainDiff B

def chainReport (layout : Layout) (syms : SymbolTable) (opts : ReportOptions)
    (c : ChainInput B) : ChainReport where
  name := c.name
  blocked := direction layout syms c.base c.head c.diff.newlyBlocked .blocked opts
  allowed := direction layout syms c.base c.head c.diff.newlyAllowed .allowed opts
  structural := c.diff.structural.map structuralRow

/-- The version of the package. -/
def VERSION : String :=
  "0.1.0"

/-- Build the report.  Every renderer is a function of the result. -/
def build (layout : Layout) (syms : SymbolTable) (chains : List (ChainInput B))
    (labels : String × String) (assertions : List AssertionRow) (notes : List String)
    (opts : ReportOptions) (timestamp : String) : DiffReport where
  baseLabel := labels.1
  headLabel := labels.2
  toolVersion := VERSION
  generatedAt := timestamp
  chains := chains.map (chainReport layout syms opts)
  assertions := assertions
  notes := notes

end Build

/-! ### What a direction lists -/

theorem length_hoist (field : Row → String) (clear : Row → Row) (page : List Row × List String) :
    (hoist field clear page).1.length = page.1.length := by
  unfold hoist
  split
  · split
    · rfl
    · split
      · exact List.length_map _
      · rfl
  · rfl

theorem length_hoistColumns (rows : List Row) : (hoistColumns rows).1.length = rows.length := by
  simp only [hoistColumns, length_hoist]

section Listed

variable {B : Type} [PathLibrary HEADER_BITS B]

/-- A direction of a non-empty delta is empty when no cell shows or omits a
region. -/
theorem isEmpty_direction_iff (layout : Layout) (syms : SymbolTable) (base head : ChainModel B)
    (delta : B) (dir : Direction) (opts : ReportOptions) :
    (direction layout syms base head delta dir opts).isEmpty = true ↔
      isFalse delta = true ∨ ∀ cell ∈ (attributeDelta base head delta opts.maxCells).1,
        mergedRegions layout cell.set opts.enumeration = [] := by
  unfold direction
  by_cases empty : isFalse delta = true
  · simp [empty, DirectionReport.isEmpty]
  · have rowsAndDropped (found : List Finding) :
        ((hoistColumns ((found.take opts.maxRows).map Finding.row)).1 = [] ∧
          (found.drop opts.maxRows).length = 0) ↔ found = [] := by
      rw [← List.length_eq_zero_iff, length_hoistColumns, List.length_map, List.length_take,
        List.length_drop, ← List.length_eq_zero_iff (l := found)]
      omega
    have shownAndOmitted (cell : Attribution B) :
        (findingsOf layout syms dir opts cell = [] ∧
          (enumerate layout cell.set opts.enumeration).omittedRegions = 0) ↔
            mergedRegions layout cell.set opts.enumeration = [] := by
      obtain ⟨regions, omitted, _⟩ := enumerate_eq layout cell.set opts.enumeration
      rw [findingsOf, List.map_eq_nil_iff, regions, omitted, ← List.length_eq_zero_iff,
        List.length_take, List.length_drop,
        ← List.length_eq_zero_iff (l := mergedRegions layout cell.set opts.enumeration)]
      omega
    rw [if_neg empty]
    simp only [DirectionReport.isEmpty, Bool.and_eq_true, List.isEmpty_iff, beq_iff_eq,
      Nat.add_eq_zero_iff, empty, Bool.false_eq_true, false_or]
    rw [and_comm (b := _ = 0), ← and_assoc, rowsAndDropped, orderFindings,
      ← List.length_eq_zero_iff, List.length_insertionSort, List.length_eq_zero_iff,
      List.flatMap_eq_nil_iff, List.sum_eq_zero_iff_forall_eq_nat]
    simp only [List.forall_mem_map, ← forall_and, shownAndOmitted]

end Listed

end Fwdelta
