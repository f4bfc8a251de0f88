import Fwdelta.Engine.Report

/-
Terminal rendering of a report.

A function of the report: nothing is decided here.
-/

namespace Fwdelta.ReportText

open Render

def entries (n : Nat) : String :=
  if n = 1 then "entry" else "entries"

def none : String :=
  "  none\n"

def omittedLine (d : DirectionReport) : String :=
  if d.omittedRows > 0 then
    "  ... " ++ toString d.omittedRows ++ " further " ++ entries d.omittedRows ++
      " omitted, covering " ++ count d.omittedFlows ++ " flows\n"
  else ""

/-- What stands under the heading of a direction that lists something. -/
def listing (d : DirectionReport) : String :=
  (if d.qualifiers.isEmpty then ""
    else "  all entries: " ++ ", ".intercalate d.qualifiers ++ "\n") ++
  table d.rows "  " ++
  "  " ++ count d.flows ++ " flows  (" ++ DirectionReport.PROJECTION ++ ")\n" ++
  omittedLine d ++
  (if d.cellsTruncated then
      "  ... attribution cell cap reached; some of the delta is not listed\n"
    else "") ++
  (if d.incomplete then
      "  WARNING: enumeration hit a work limit; the list above is incomplete\n"
    else "")

def heading (d : DirectionReport) : String :=
  d.direction.heading.1 ++ "  " ++ d.direction.heading.2 ++ "\n"

def direction (d : DirectionReport) : String :=
  heading d ++ (if d.isEmpty then none else listing d)

def structuralLeft (r : StructuralRow) : String :=
  "rule " ++ Text.twoDigits r.number ++ "  " ++ r.what

def structural (rows : List StructuralRow) : String :=
  let width := (rows.map (fun r => (structuralLeft r).utf8ByteSize)).foldl max 0
  "STRUCTURAL\n" ++ String.join (rows.map (fun r =>
    Text.trimEnd ("  " ++ Text.padRight width (structuralLeft r) ++ "  " ++ r.why) ++ "\n"))

def assertionLines (width : Nat) (a : AssertionRow) : String :=
  "  " ++ Text.padRight 7 a.outcome ++ " " ++ Text.padRight width a.name ++ "  " ++ a.detail ++
    "\n" ++
  (if a.isFail then
    "  " ++ Text.padRight 7 "" ++ " " ++ Text.padRight width "" ++ "  required by assertion " ++
      a.name ++ "\n"
  else "")

def intent (r : DiffReport) : String :=
  let width := (r.assertions.map (fun a => a.name.utf8ByteSize)).foldl max 0
  "INTENT\n" ++ String.join (r.assertions.map (assertionLines width)) ++
    "\n" ++ toString r.assertions.length ++ " assertions checked" ++
    (if r.failed > 0 then ", " ++ toString r.failed ++ " failed" else "") ++
    -- A vacuous assertion held trivially: it is never part of the pass count.
    (if r.vacuous > 0 then ", " ++ toString r.vacuous ++ " vacuous" else "") ++ ".\n"

def chain (multi : Bool) (i : Nat) (c : ChainReport) : String :=
  (if multi then "\n" ++ (if i > 0 then "\n" else "") ++ "CHAIN " ++ c.name ++ "\n" else "") ++
    "\n" ++ direction c.blocked ++ "\n" ++ direction c.allowed ++
    (if c.structural.isEmpty then "" else "\n" ++ structural c.structural)

/-- The whole report. -/
def render (r : DiffReport) : String :=
  let multi := decide (r.chains.length > 1)
  "RULESET DELTA  base " ++ r.baseLabel ++ " .. head " ++ r.headLabel ++ "\n" ++
    String.join (r.chains.zipIdx.map (fun c => chain multi c.2 c.1)) ++
    String.join (r.notes.map (fun n => "\n" ++ n ++ "\n")) ++
    (if r.assertions.isEmpty then "" else "\n" ++ intent r) ++
    (if r.trafficLost then
        "\nTraffic lost access. This does not block the build; pass " ++
          "--fail-on-newly-blocked if it should.\n"
      else "")

/-- The listing of a direction is longer than the remark that there is none, so
the text says which of the two a direction is. -/
theorem direction_eq_none_iff (d : DirectionReport) :
    direction d = heading d ++ none ↔ d.isEmpty = true := by
  have long : none.length < (listing d).length := by
    have projection : DirectionReport.PROJECTION.length = 48 := by decide
    have short : none.length = 7 := by decide
    simp only [listing, String.length_append, projection, short]
    omega
  unfold direction
  rw [String.append_right_inj]
  split
  · next empty => simp [empty]
  · next listed =>
      apply iff_of_false _ listed
      intro same
      rw [same] at long
      exact lt_irrefl _ long

end Fwdelta.ReportText
