import Fwdelta.Engine.Html
import Fwdelta.Pointwise

/-
The tags of a page.

Each part of a page is alike to the same part of the page of another report of
the same shape: the literal parts leave the scanner outside tags, and escaped
content opens none.  Concatenation keeps this, so the pages have the same tags.
-/

namespace Fwdelta

open Render
open Markup

/-! ### Reports of one shape -/

def Row.columns : List (Row → String) :=
  [Row.iif, Row.oif, Row.proto, Row.src, Row.dst, Row.dport, Row.note]

structure DirectionReport.SameShape (a b : DirectionReport) : Prop where
  qualifiers : a.qualifiers.length = b.qualifiers.length
  rows : a.rows.length = b.rows.length
  /-- The same columns are empty on every row. -/
  columns : ∀ column ∈ Row.columns, Html.shown a.rows column = Html.shown b.rows column
  flows : a.flows = b.flows
  packets : a.packets = b.packets
  omittedRows : a.omittedRows = b.omittedRows
  omittedFlows : a.omittedFlows = b.omittedFlows
  cellsTruncated : a.cellsTruncated = b.cellsTruncated
  incomplete : a.incomplete = b.incomplete

def StructuralRow.SameShape (a b : StructuralRow) : Prop :=
  a.number = b.number

/-- Two assertions with outcomes of one class. -/
structure AssertionRow.SameShape (a b : AssertionRow) : Prop where
  isPass : a.isPass = b.isPass
  isFail : a.isFail = b.isFail
  isVacuous : a.isVacuous = b.isVacuous

structure ChainReport.SameShape (a b : ChainReport) : Prop where
  blocked : a.blocked.SameShape b.blocked
  allowed : a.allowed.SameShape b.allowed
  structural : List.Forall₂ StructuralRow.SameShape a.structural b.structural

/-- Two reports that differ in texts only. -/
structure DiffReport.SameShape (a b : DiffReport) : Prop where
  chains : List.Forall₂ ChainReport.SameShape a.chains b.chains
  assertions : List.Forall₂ AssertionRow.SameShape a.assertions b.assertions
  notes : a.notes.length = b.notes.length

namespace Html

/-! ### What opens no tag -/

theorem inert_escChar (c : Char) : Inert (escChar c) := by
  unfold escChar
  split
  · exact Inert.of_chars (by decide)
  · exact Inert.of_chars (by decide)
  · exact Inert.of_chars (by decide)
  · exact Inert.of_chars (by decide)
  · exact Inert.of_chars (by decide)
  · next _ plain _ _ _ =>
      unfold Inert
      rw [String.toList_singleton, List.mem_singleton]
      exact fun opening => plain opening.symm

theorem inert_esc (s : String) : Inert (esc s) :=
  Inert.join fun c _ => inert_escChar c

theorem inert_toString (n : Nat) : Inert (toString n) := by
  unfold Inert
  rw [Nat.toString_eq_repr, Nat.toList_repr]
  intro opening
  have digit := Text.isDigit_of_mem_toDigits opening
  revert digit
  decide

theorem inert_twoDigits (n : Nat) : Inert (Text.twoDigits n) := by
  unfold Text.twoDigits
  split
  · exact Inert.append (Inert.of_chars (by decide)) (inert_toString n)
  · exact inert_toString n

theorem mem_groupDigits {c : Char} {digits : List Char} (member : c ∈ groupDigits digits) :
    c = ',' ∨ c ∈ digits := by
  fun_induction groupDigits digits with
  | case1 => exact Or.inr member
  | case2 only => exact Or.inr member
  | case3 first next rest _ ih =>
      rcases List.mem_cons.mp member with rfl | later
      · exact Or.inr List.mem_cons_self
      · rcases List.mem_cons.mp later with rfl | last
        · exact Or.inl rfl
        · exact (ih last).imp_right (List.mem_cons_of_mem _)
  | case4 first next rest _ ih =>
      rcases List.mem_cons.mp member with rfl | later
      · exact Or.inr List.mem_cons_self
      · exact (ih later).imp_right (List.mem_cons_of_mem _)

theorem inert_count (n : Nat) : Inert (count n) := by
  unfold count
  split
  · unfold Inert
    rw [String.toList_ofList]
    intro opening
    rcases mem_groupDigits opening with comma | digit
    · revert comma
      decide
    · exact inert_toString n digit
  · refine Inert.append ?_ (inert_toString _)
    refine Inert.append ?_ (Inert.of_chars (by decide))
    refine Inert.append ?_ (inert_toString _)
    exact Inert.append (inert_toString _) (Inert.of_chars (by decide))

set_option maxRecDepth 4000 in
theorem inert_STYLE : Inert STYLE := by
  have pieces : ∀ piece ∈ STYLE_PIECES, Inert piece := by
    unfold STYLE_PIECES
    repeat
      rw [List.forall_mem_cons]
      refine ⟨Inert.of_chars (by decide +kernel), ?_⟩
    intro piece member
    contradiction
  have joined := Inert.join pieces
  rwa [List.map_id'] at joined

theorem alike_esc (s t : String) : Alike (esc s) (esc t) :=
  Alike.of_inert (inert_esc s) (inert_esc t)

theorem alike_toString (n : Nat) : Alike (toString n) (toString n) :=
  Alike.of_inert (inert_toString n) (inert_toString n)

theorem alike_count (n : Nat) : Alike (count n) (count n) :=
  Alike.of_inert (inert_count n) (inert_count n)

theorem alike_empty : Alike "" "" :=
  Alike.literal (by decide)

/-! ### The parts of a page

Each proof takes the parts off from the last to the first. -/

theorem alike_cardOpening {cls : String}
    (class_ : cls = "" ∨ cls = "pass" ∨ cls = "fail" ∨ cls = "vac") :
    Alike ("<div class=\"card\"><div class=\"n " ++ cls ++ "\">")
      ("<div class=\"card\"><div class=\"n " ++ cls ++ "\">") := by
  rcases class_ with rfl | rfl | rfl | rfl <;> exact Alike.pieces (by decide +kernel)

theorem alike_card {n l : String} (number : Inert n) (label : Inert l) {cls : String}
    (class_ : cls = "" ∨ cls = "pass" ∨ cls = "fail" ∨ cls = "vac") :
    Alike (card n l cls) (card n l cls) := by
  unfold card
  refine Alike.append ?_ (Alike.literal (by decide))
  refine Alike.append ?_ (Alike.of_inert label label)
  refine Alike.append ?_ (Alike.literal (by decide))
  exact (alike_cardOpening class_).append (Alike.of_inert number number)

theorem alike_headingStart (nested : Bool) :
    Alike ("<" ++ headingTag nested ++ ">") ("<" ++ headingTag nested ++ ">") := by
  cases nested <;> exact Alike.pieces (by decide)

theorem alike_headingEnd (nested : Bool) :
    Alike ("</" ++ headingTag nested ++ ">\n") ("</" ++ headingTag nested ++ ">\n") := by
  cases nested <;> exact Alike.pieces (by decide)

theorem alike_heading (a b : DirectionReport) (nested : Bool) :
    Alike (heading a nested) (heading b nested) := by
  unfold heading
  refine Alike.append ?_ (alike_headingEnd nested)
  refine Alike.append ?_ (Alike.literal (by decide))
  refine Alike.append ?_ (alike_esc _ _)
  refine Alike.append ?_ (Alike.literal (by decide))
  exact (alike_headingStart nested).append (alike_esc _ _)

theorem alike_headCell (show_ : Bool) {name : String} (label : Inert name) :
    Alike (headCell show_ name) (headCell show_ name) := by
  unfold headCell
  apply Alike.ite
  · intro _
    refine Alike.append ?_ (Alike.literal (by decide))
    exact (Alike.literal (by decide)).append (Alike.of_inert label label)
  · exact fun _ => alike_empty

theorem alike_cell (show_ : Bool) (s t : String) : Alike (cell show_ s) (cell show_ t) := by
  unfold cell
  apply Alike.ite
  · intro _
    refine Alike.append ?_ (Alike.literal (by decide))
    exact (Alike.literal (by decide)).append (alike_esc s t)
  · exact fun _ => alike_empty

section Rows

variable {rows others : List Row}
  (columns : ∀ column ∈ Row.columns, shown rows column = shown others column)

include columns

theorem alike_tableHead : Alike (tableHead rows) (tableHead others) := by
  unfold tableHead
  rw [columns Row.iif (by simp [Row.columns]), columns Row.oif (by simp [Row.columns]),
    columns Row.proto (by simp [Row.columns]), columns Row.dport (by simp [Row.columns])]
  refine Alike.append ?_ (Alike.literal (by decide +kernel))
  refine Alike.append ?_ (alike_headCell _ (Inert.of_chars (by decide)))
  refine Alike.append ?_ (Alike.literal (by decide))
  refine Alike.append ?_ (alike_headCell _ (Inert.of_chars (by decide)))
  refine Alike.append ?_ (alike_headCell _ (Inert.of_chars (by decide)))
  refine Alike.append ?_ (alike_headCell _ (Inert.of_chars (by decide)))
  exact Alike.literal (by decide)

theorem alike_tableRow (a b : Row) : Alike (tableRow rows a) (tableRow others b) := by
  unfold tableRow
  rw [columns Row.iif (by simp [Row.columns]), columns Row.oif (by simp [Row.columns]),
    columns Row.proto (by simp [Row.columns]), columns Row.dport (by simp [Row.columns])]
  refine Alike.append ?_ (Alike.literal (by decide))
  refine Alike.append ?_ (Alike.literal (by decide))
  refine Alike.append ?_ (alike_esc a.note b.note)
  refine Alike.append ?_ (Alike.literal (by decide))
  refine Alike.append ?_ (alike_cell _ _ _)
  refine Alike.append ?_ (Alike.literal (by decide))
  refine Alike.append ?_ (alike_esc a.dst b.dst)
  refine Alike.append ?_ (Alike.literal (by decide))
  refine Alike.append ?_ (alike_esc a.src b.src)
  refine Alike.append ?_ (Alike.literal (by decide))
  refine Alike.append ?_ (alike_cell _ a.proto b.proto)
  refine Alike.append ?_ (alike_cell _ a.oif b.oif)
  exact (Alike.literal (by decide)).append (alike_cell _ a.iif b.iif)

end Rows

theorem isEmpty_eq_of_length {α : Type} {as bs : List α} (same : as.length = bs.length) :
    as.isEmpty = bs.isEmpty := by
  rw [Bool.eq_iff_iff, List.isEmpty_iff_length_eq_zero, List.isEmpty_iff_length_eq_zero, same]

theorem alike_omitted (rows flows : Nat) :
    Alike ("<p class=\"note\">&hellip; " ++ toString rows ++ " further " ++ entries rows ++
        " omitted, covering " ++ count flows ++ " flows</p>\n")
      ("<p class=\"note\">&hellip; " ++ toString rows ++ " further " ++ entries rows ++
        " omitted, covering " ++ count flows ++ " flows</p>\n") := by
  have plural : Alike (entries rows) (entries rows) := by
    unfold entries
    apply Alike.ite
    · exact fun _ => Alike.literal (by decide)
    · exact fun _ => Alike.literal (by decide)
  refine Alike.append ?_ (Alike.literal (by decide))
  refine Alike.append ?_ (alike_count flows)
  refine Alike.append ?_ (Alike.literal (by decide))
  refine Alike.append ?_ plural
  refine Alike.append ?_ (Alike.literal (by decide))
  exact (Alike.literal (by decide)).append (alike_toString rows)

theorem alike_listing {a b : DirectionReport} (shape : a.SameShape b) :
    Alike (listing a) (listing b) := by
  unfold listing
  rw [isEmpty_eq_of_length shape.qualifiers, shape.flows, shape.omittedRows, shape.omittedFlows,
    shape.cellsTruncated, shape.incomplete]
  refine Alike.append ?_ (Alike.ite (fun _ => ?_) (fun _ => alike_empty))
  · refine Alike.append ?_ (Alike.ite (fun _ => ?_) (fun _ => alike_empty))
    · refine Alike.append ?_ (Alike.ite (fun _ => alike_omitted _ _) (fun _ => alike_empty))
      refine Alike.append ?_ (Alike.literal (by decide))
      refine Alike.append ?_ (alike_esc _ _)
      refine Alike.append ?_ (Alike.literal (by decide))
      refine Alike.append ?_ (alike_count b.flows)
      refine Alike.append ?_ (Alike.literal (by decide))
      refine Alike.append ?_ (Alike.literal (by decide))
      refine Alike.append ?_ (Alike.join (List.Forall₂.of_length (alike_tableRow shape.columns)
        shape.rows))
      refine Alike.append ?_ (alike_tableHead shape.columns)
      apply Alike.ite
      · exact fun _ => alike_empty
      · intro _
        refine Alike.append ?_ (Alike.literal (by decide))
        exact (Alike.literal (by decide)).append (alike_esc _ _)
    · exact (Alike.literal (by decide +kernel)).append (Alike.literal (by decide))
  · exact Alike.literal (by decide +kernel)

theorem alike_direction {a b : DirectionReport} (shape : a.SameShape b) (nested : Bool) :
    Alike (direction a nested) (direction b nested) := by
  have empty : a.isEmpty = b.isEmpty := by
    rw [DirectionReport.isEmpty, DirectionReport.isEmpty, isEmpty_eq_of_length shape.rows,
      shape.omittedRows]
  unfold direction
  rw [empty]
  apply (alike_heading a b nested).append
  apply Alike.ite
  · exact fun _ => Alike.literal (by decide)
  · exact fun _ => alike_listing shape

theorem alike_structuralRow {a b : StructuralRow} (shape : a.SameShape b) :
    Alike (structuralRow a) (structuralRow b) := by
  have number := inert_twoDigits b.number
  unfold structuralRow
  rw [show a.number = b.number from shape]
  refine Alike.append ?_ (Alike.literal (by decide))
  refine Alike.append ?_ (alike_esc _ _)
  refine Alike.append ?_ (Alike.literal (by decide))
  refine Alike.append ?_ (alike_esc _ _)
  refine Alike.append ?_ (Alike.literal (by decide))
  exact (Alike.literal (by decide)).append (Alike.of_inert number number)

theorem alike_structural {as bs : List StructuralRow}
    (shape : List.Forall₂ StructuralRow.SameShape as bs) (nested : Bool) :
    Alike (structural as nested) (structural bs nested) := by
  unfold structural
  refine Alike.append ?_ (Alike.literal (by decide))
  refine Alike.append ?_ (Alike.join (shape.imp fun _ _ same => alike_structuralRow same))
  refine Alike.append ?_ (Alike.literal (by decide +kernel))
  refine Alike.append ?_ (Alike.literal (by decide))
  refine Alike.append ?_ (alike_headingEnd nested)
  exact (alike_headingStart nested).append (Alike.literal (by decide))

theorem alike_outcome (a : AssertionRow) :
    Alike ("<tr><td><span class=\"tag " ++ outcomeClass a ++ "\">")
      ("<tr><td><span class=\"tag " ++ outcomeClass a ++ "\">") := by
  unfold outcomeClass
  cases a.isPass with
  | true => exact Alike.pieces (by decide +kernel)
  | false => cases a.isFail <;> exact Alike.pieces (by decide +kernel)

theorem alike_assertionRow {a b : AssertionRow} (shape : a.SameShape b) :
    Alike (assertionRow a) (assertionRow b) := by
  have classes : outcomeClass a = outcomeClass b := by
    rw [outcomeClass, outcomeClass, shape.isPass, shape.isFail]
  unfold assertionRow
  rw [classes]
  refine Alike.append ?_ (Alike.literal (by decide))
  refine Alike.append ?_ (alike_esc a.detail b.detail)
  refine Alike.append ?_ (Alike.literal (by decide))
  refine Alike.append ?_ (alike_esc a.kind b.kind)
  refine Alike.append ?_ (Alike.literal (by decide))
  refine Alike.append ?_ (alike_esc a.name b.name)
  refine Alike.append ?_ (Alike.literal (by decide))
  exact (alike_outcome b).append (alike_esc a.outcome b.outcome)

/-- Assertions with outcomes of the same classes are counted alike. -/
theorem countP_eq {p : AssertionRow → Bool} (kept : ∀ a b, a.SameShape b → p a = p b)
    {as bs : List AssertionRow} (shape : List.Forall₂ AssertionRow.SameShape as bs) :
    as.countP p = bs.countP p := by
  induction shape with
  | nil => rfl
  | cons same _ ih => rw [List.countP_cons, List.countP_cons, ih, kept _ _ same]

structure SameCounts (a b : DiffReport) : Prop where
  checked : a.assertions.length = b.assertions.length
  passed : a.passed = b.passed
  failed : a.failed = b.failed
  vacuous : a.vacuous = b.vacuous

theorem sameCounts {a b : DiffReport} (shape : a.SameShape b) : SameCounts a b where
  checked := shape.assertions.length_eq
  passed := countP_eq (fun _ _ same => same.isPass) shape.assertions
  failed := countP_eq (fun _ _ same => same.isFail) shape.assertions
  vacuous := countP_eq (fun _ _ same => same.isVacuous) shape.assertions

theorem alike_intent {a b : DiffReport} (shape : a.SameShape b) :
    Alike (intent a) (intent b) := by
  have counts := sameCounts shape
  unfold intent
  rw [counts.checked, counts.passed, counts.failed, counts.vacuous]
  refine Alike.append ?_ (Alike.ite (fun _ => ?_) (fun _ => alike_empty))
  · refine Alike.append ?_ (Alike.literal (by decide))
    refine Alike.append ?_ (alike_toString b.vacuous)
    refine Alike.append ?_ (Alike.literal (by decide))
    refine Alike.append ?_ (alike_toString b.failed)
    refine Alike.append ?_ (Alike.literal (by decide))
    refine Alike.append ?_ (alike_toString b.passed)
    refine Alike.append ?_ (Alike.literal (by decide))
    refine Alike.append ?_ (alike_toString b.assertions.length)
    refine Alike.append ?_ (Alike.literal (by decide))
    refine Alike.append ?_ (Alike.literal (by decide))
    refine Alike.append ?_ (Alike.join
      (shape.assertions.imp fun _ _ same => alike_assertionRow same))
    refine Alike.append ?_ (Alike.literal (by decide))
    exact (Alike.literal (by decide)).append (Alike.literal (by decide +kernel))
  · exact (Alike.literal (by decide +kernel)).append (Alike.literal (by decide +kernel))

theorem alike_chain {a b : ChainReport} (shape : a.SameShape b) (multi : Bool) :
    Alike (chain multi a) (chain multi b) := by
  unfold chain
  rw [isEmpty_eq_of_length shape.structural.length_eq]
  refine Alike.append ?_ (Alike.ite (fun _ => alike_empty)
    (fun _ => alike_structural shape.structural multi))
  refine Alike.append ?_ (alike_direction shape.allowed multi)
  refine Alike.append ?_ (alike_direction shape.blocked multi)
  apply Alike.ite
  · intro _
    refine Alike.append ?_ (Alike.literal (by decide))
    exact (Alike.literal (by decide)).append (alike_esc a.name b.name)
  · exact fun _ => alike_empty

theorem class_classIf {cls : String} (class_ : cls = "pass" ∨ cls = "fail" ∨ cls = "vac")
    (positive : Bool) :
    classIf positive cls = "" ∨ classIf positive cls = "pass" ∨ classIf positive cls = "fail" ∨
      classIf positive cls = "vac" := by
  cases positive with
  | false => exact Or.inl rfl
  | true => exact Or.inr class_

/-- The cards show numbers, so reports of one shape have the same ones. -/
theorem alike_summary {a b : DiffReport} (shape : a.SameShape b) :
    Alike (summary a) (summary b) := by
  have counts := sameCounts shape
  have blocked : a.chains.map (fun c => c.blocked.flows) =
      b.chains.map (fun c => c.blocked.flows) :=
    List.forall₂_eq_eq_eq ▸ List.forall₂_map_left_iff.mpr (List.forall₂_map_right_iff.mpr
      (shape.chains.imp fun _ _ same => same.blocked.flows))
  have allowed : a.chains.map (fun c => c.allowed.flows) =
      b.chains.map (fun c => c.allowed.flows) :=
    List.forall₂_eq_eq_eq ▸ List.forall₂_map_left_iff.mpr (List.forall₂_map_right_iff.mpr
      (shape.chains.imp fun _ _ same => same.allowed.flows))
  have fail := @class_classIf "fail" (Or.inr (Or.inl rfl))
  have vac := @class_classIf "vac" (Or.inr (Or.inr rfl))
  unfold summary
  rw [blocked, allowed, isEmpty_eq_of_length counts.checked, counts.passed, counts.failed,
    counts.vacuous]
  refine Alike.append ?_ (Alike.literal (by decide))
  refine Alike.append ?_ (Alike.ite (fun _ => alike_empty) (fun _ => ?_))
  · refine Alike.append ?_ (alike_card (inert_count _) (Inert.of_chars (by decide)) (Or.inl rfl))
    refine Alike.append ?_ (alike_card (inert_count _) (Inert.of_chars (by decide)) (fail _))
    exact Alike.literal (by decide)
  · refine Alike.append ?_ (alike_card (inert_toString _) (Inert.of_chars (by decide)) (vac _))
    refine Alike.append ?_ (alike_card (inert_toString _) (Inert.of_chars (by decide)) (fail _))
    exact alike_card (inert_toString _) (Inert.of_chars (by decide)) (Or.inr (Or.inl rfl))

theorem alike_boundaries : Alike boundaries boundaries := by
  unfold boundaries
  refine Alike.append ?_ (Alike.literal (by decide))
  refine Alike.append ?_ (Alike.join (List.forall₂_same.mpr fun item _ => ?_))
  · refine Alike.append ?_ (Alike.literal (by decide +kernel))
    refine Alike.append ?_ (Alike.join (List.forall₂_same.mpr fun b _ => ?_))
    · exact Alike.literal (by decide +kernel)
    · refine Alike.append ?_ (Alike.literal (by decide))
      refine Alike.append ?_ (alike_esc _ _)
      refine Alike.append ?_ (Alike.literal (by decide))
      exact (Alike.literal (by decide)).append (alike_esc _ _)
  · refine Alike.append ?_ (Alike.literal (by decide))
    exact (Alike.literal (by decide)).append (alike_esc _ _)

theorem alike_header (a b : DiffReport) : Alike (header a) (header b) := by
  unfold header
  refine Alike.append ?_ (Alike.literal (by decide))
  refine Alike.append ?_ (Alike.literal (by decide))
  refine Alike.append ?_ (alike_esc a.generatedAt b.generatedAt)
  refine Alike.append ?_ (Alike.literal (by decide))
  refine Alike.append ?_ (alike_esc a.toolVersion b.toolVersion)
  refine Alike.append ?_ (Alike.literal (by decide))
  refine Alike.append ?_ (Alike.literal (by decide))
  refine Alike.append ?_ (alike_esc a.headLabel b.headLabel)
  refine Alike.append ?_ (Alike.literal (by decide))
  refine Alike.append ?_ (alike_esc a.baseLabel b.baseLabel)
  refine Alike.append ?_ (Alike.literal (by decide))
  refine Alike.append ?_ (Alike.literal (by decide))
  refine Alike.append ?_ (Alike.literal (by decide))
  refine Alike.append ?_ (Alike.of_inert inert_STYLE inert_STYLE)
  refine Alike.append ?_ (Alike.literal (by decide))
  refine Alike.append ?_ (Alike.literal (by decide))
  refine Alike.append ?_ (alike_esc a.headLabel b.headLabel)
  refine Alike.append ?_ (Alike.literal (by decide))
  refine Alike.append ?_ (alike_esc a.baseLabel b.baseLabel)
  refine Alike.append ?_ (Alike.literal (by decide))
  refine Alike.append ?_ (Alike.literal (by decide +kernel))
  exact (Alike.literal (by decide)).append (Alike.literal (by decide))

theorem alike_footer : Alike footer footer := by
  unfold footer
  refine Alike.append ?_ (Alike.literal (by decide))
  refine Alike.append ?_ (Alike.literal (by decide +kernel))
  exact (Alike.literal (by decide)).append (Alike.literal (by decide +kernel))

theorem alike_render {a b : DiffReport} (shape : a.SameShape b) :
    Alike (render a) (render b) := by
  unfold render
  rw [shape.chains.length_eq, isEmpty_eq_of_length shape.assertions.length_eq]
  refine Alike.append ?_ alike_footer
  refine Alike.append ?_ alike_boundaries
  refine Alike.append ?_ (Alike.ite (fun _ => alike_empty) (fun _ => alike_intent shape))
  refine Alike.append ?_ (Alike.join (List.Forall₂.of_length (fun n m => ?_) shape.notes))
  · refine Alike.append ?_ (Alike.join (shape.chains.imp fun _ _ same => alike_chain same _))
    exact (alike_header a b).append (alike_summary shape)
  · refine Alike.append ?_ (Alike.literal (by decide))
    exact (Alike.literal (by decide)).append (alike_esc n m)

end Html

/-- The tags of a page are a function of the shape of its report: no text in it
adds, removes or changes a tag, or ends a quoted attribute value. -/
theorem html_tags_depend_on_shape {a b : DiffReport} (shape : a.SameShape b) :
    tags (Html.render a) = tags (Html.render b) ∧
      Balanced (Html.render a) ∧ Balanced (Html.render b) := by
  have pages := Html.alike_render shape
  exact ⟨pages.same, pages.left, pages.right⟩

def assertionReport (name : String) : DiffReport where
  baseLabel := "a"
  headLabel := "b"
  toolVersion := VERSION
  generatedAt := "1970-01-01T00:00:00Z"
  chains := []
  assertions := [{ name := name, kind := "isolation", outcome := "PASS", detail := "a & b" }]
  notes := []

/-- An image element as the name of an assertion does not reach the page. -/
theorem image_name_adds_no_tag :
    tags (Html.render (assertionReport "<img src=x onerror=alert(1)>")) =
      tags (Html.render (assertionReport "guest")) := by
  have shape : (assertionReport "<img src=x onerror=alert(1)>").SameShape
      (assertionReport "guest") :=
    { chains := List.Forall₂.nil
      assertions := List.Forall₂.cons ⟨rfl, rfl, rfl⟩ List.Forall₂.nil
      notes := rfl }
  exact (html_tags_depend_on_shape shape).1

end Fwdelta
