import Fwdelta.Engine.Report
import Fwdelta.Markup

/-
HTML rendering of a report.

One self-contained page.  Everything that comes from a ruleset, a file or a
policy passes through the escaper, and all of it stands between tags.  The
result says that the tags of a page depend on the shape of its report only.
-/

namespace Fwdelta

/-- What the model approximates, and what it rejects. -/
def modelBoundaries : List (String × String) :=
  [("Connection tracking",
      "Rejected. Any ruleset containing a `ct` match of any kind -- state, status, mark, " ++
       "or otherwise -- is refused at parse time with exit 2. No ct ruleset is analysed " ++
       "under an approximation. The model itself is stateless: new connections in the " ++
       "forward direction are governed by the ruleset and return traffic for permitted " ++
       "connections is assumed permitted."),
    ("NAT",
      "Rejected. Any NAT statement (dnat, snat, masquerade, redirect) or any chain of type " ++
       "nat refuses the whole file with exit 2. Address translation changes packet identity " ++
       "in transit, so a filter analysis of a translating ruleset would describe packets " ++
       "that do not exist as analysed."),
    ("Chains and jumps",
      "Rejected. Only base chains with a hook are analysed. `jump`, `goto`, `return` and " ++
       "any user-defined chain definition refuse the whole file with exit 2 -- including a " ++
       "helper chain nothing jumps to. The practical input surface is therefore " ++
       "single-base-chain filter rulesets, which is narrower than nftables generally."),
    ("Scope",
      "One host's filter table. Not end-to-end reachability, which also depends on routing " ++
       "and on other devices."),
    ("Address family",
      "IPv4 only, and other families are rejected rather than partially analysed. A table " ++
       "of family ip6, inet, arp, bridge or netdev refuses the file with exit 2. The header " ++
       "layout is 32-bit."),
    ("Ports on portless protocols",
      "A genuine approximation, not a rejection: every packet is given source and " ++
       "destination ports, including ICMP, so the model contains points no real packet " ++
       "occupies. This is sound only because the frontend refuses any rule that constrains " ++
       "a port without pinning a protocol that has ports, which makes those points " ++
       "unreachable by any accepted ruleset."),
    ("Output interface",
      "Rejected, not modelled. The differential harness runs on the input hook, where the " ++
       "output interface is never set, so the dimension has never been checked against the " ++
       "kernel."),
    ("Frontend subset",
      "A documented subset of nftables. Every construct outside it is a hard error, so no " ++
       "rule was silently skipped.")]

/-- What a passing run does not establish. -/
def doesNotEstablish : List String :=
  ["that the assertions are the right assertions",
    "that the device implements nftables faithfully",
    "that the configuration deployed is the configuration analysed",
    "anything about NAT, routing, or other devices",
    "anything about assertions reported as VACUOUS, which held trivially"]

namespace Html

open Render

def escChar : Char → String
  | '&' => "&amp;"
  | '<' => "&lt;"
  | '>' => "&gt;"
  | '"' => "&quot;"
  | '\'' => "&#39;"
  | c => String.singleton c

/-- Escape for text and attribute content. -/
def esc (s : String) : String :=
  String.join (s.toList.map escChar)

/-- The inline style sheet, in pieces. -/
def STYLE_PIECES : List String :=
  ["\n",
    ":root \x7b\n",
    "  --bg: #ffffff; --fg: #16181d; --dim: #5c6370; --line: #e2e5ea;\n",
    "  --panel: #f6f7f9; --accent: #b4341f; --ok: #1f7a3f; --warn: #8a6d00;\n",
    "  --mono: ui-monospace, SFMono-Regular, \"SF Mono\", Menlo, Consolas, monospace;\n",
    "\x7d\n",
    "@media (prefers-color-scheme: dark) \x7b\n",
    "  :root \x7b\n",
    "    --bg: #14161a; --fg: #e6e8ec; --dim: #9098a6; --line: #2a2e36;\n",
    "    --panel: #1b1e24; --accent: #ef6a52; --ok: #5fca86; --warn: #d7b34a;\n",
    "  \x7d\n",
    "\x7d\n",
    "* \x7b box-sizing: border-box; \x7d\n",
    "body \x7b\n",
    "  margin: 0; padding: 2rem 1.25rem 4rem; background: var(--bg); color: var(--fg);\n",
    "  font: 14px/1.55 var(--mono); -webkit-text-size-adjust: 100%;\n",
    "\x7d\n",
    "main \x7b max-width: 76rem; margin: 0 auto; \x7d\n",
    "h1 \x7b font-size: 1.05rem; letter-spacing: .12em; text-transform: uppercase; margin: 0 ",
    "0 .25rem; \x7d\n",
    "h2 \x7b\n",
    "  font-size: .82rem; letter-spacing: .14em; text-transform: uppercase;\n",
    "  margin: 2.25rem 0 .6rem; color: var(--accent); border-bottom: 1px solid var(--line);\n",
    "  padding-bottom: .35rem;\n",
    "\x7d\n",
    "h3 \x7b font-size: .78rem; letter-spacing: .1em; text-transform: uppercase; color: ",
    "var(--dim); margin: 1.5rem 0 .5rem; \x7d\n",
    ".sub \x7b color: var(--dim); font-weight: normal; text-transform: none; letter-spacing: ",
    "0; \x7d\n",
    ".meta \x7b color: var(--dim); margin-bottom: 1.5rem; \x7d\n",
    ".meta b \x7b color: var(--fg); font-weight: 600; \x7d\n",
    ".cards \x7b display: flex; flex-wrap: wrap; gap: .6rem; margin: 1rem 0 0; \x7d\n",
    ".card \x7b\n",
    "  background: var(--panel); border: 1px solid var(--line); border-radius: 6px;\n",
    "  padding: .6rem .9rem; min-width: 9rem;\n",
    "\x7d\n",
    ".card .n \x7b font-size: 1.3rem; font-weight: 600; \x7d\n",
    ".card .l \x7b color: var(--dim); font-size: .78rem; letter-spacing: .06em; ",
    "text-transform: uppercase; \x7d\n",
    ".scroll \x7b overflow-x: auto; \x7d\n",
    "table \x7b border-collapse: collapse; width: 100%; font-size: 13px; \x7d\n",
    "th \x7b\n",
    "  text-align: left; color: var(--dim); font-weight: 600; font-size: .72rem;\n",
    "  letter-spacing: .08em; text-transform: uppercase; padding: .3rem .7rem .3rem 0;\n",
    "  border-bottom: 1px solid var(--line); white-space: nowrap;\n",
    "\x7d\n",
    "td \x7b padding: .28rem .7rem .28rem 0; vertical-align: top; border-bottom: 1px solid ",
    "var(--line); \x7d\n",
    "td.wrap \x7b white-space: normal; \x7d\n",
    "td:not(.wrap), th \x7b white-space: nowrap; \x7d\n",
    ".note \x7b color: var(--dim); \x7d\n",
    ".none \x7b color: var(--dim); font-style: italic; \x7d\n",
    ".qual \x7b color: var(--dim); margin: 0 0 .5rem; \x7d\n",
    ".total \x7b margin: .55rem 0 0; \x7d\n",
    ".proj \x7b color: var(--dim); \x7d\n",
    ".warn \x7b color: var(--warn); \x7d\n",
    ".tag \x7b\n",
    "  display: inline-block; padding: .05rem .45rem; border-radius: 3px;\n",
    "  font-size: .74rem; letter-spacing: .06em; border: 1px solid currentColor;\n",
    "\x7d\n",
    ".pass \x7b color: var(--ok); \x7d .fail \x7b color: var(--accent); \x7d .vac \x7b ",
    "color: var(--warn); \x7d\n",
    ".bounds \x7b background: var(--panel); border: 1px solid var(--line); border-radius: ",
    "6px; padding: 1rem 1.1rem; \x7d\n",
    ".bounds dt \x7b font-weight: 600; margin-top: .7rem; \x7d\n",
    ".bounds dt:first-child \x7b margin-top: 0; \x7d\n",
    ".bounds dd \x7b margin: .15rem 0 0; color: var(--dim); \x7d\n",
    ".bounds ul \x7b margin: .3rem 0 0; padding-left: 1.1rem; color: var(--dim); \x7d\n",
    "footer \x7b margin-top: 3rem; color: var(--dim); font-size: .8rem; border-top: 1px ",
    "solid var(--line); padding-top: .8rem; \x7d\n",
    "@media print \x7b body \x7b padding: 0; \x7d .card, .bounds \x7b break-inside: avoid; ",
    "\x7d \x7d\n"]

def STYLE : String :=
  String.join STYLE_PIECES

def card (n l cls : String) : String :=
  ("<div class=\"card\"><div class=\"n " ++ cls ++ "\">") ++ n ++
    "</div><div class=\"l\">" ++ l ++ "</div></div>\n"

/-- The class of a card that is marked when its count is positive. -/
def classIf (positive : Bool) (cls : String) : String :=
  if positive then cls else ""

/-- The sums of the source have 128 bits. -/
def summary (r : DiffReport) : String :=
  let blocked := (r.chains.map (fun c => c.blocked.flows)).sum
  let allowed := (r.chains.map (fun c => c.allowed.flows)).sum
  "<div class=\"cards\">\n" ++
    card (count blocked) "flows newly blocked" (classIf (blocked > 0) "fail") ++
    card (count allowed) "flows newly allowed" "" ++
    (if r.assertions.isEmpty then ""
      else
        card (toString r.passed) "assertions passed" "pass" ++
          card (toString r.failed) "failed" (classIf (r.failed > 0) "fail") ++
          card (toString r.vacuous) "vacuous" (classIf (r.vacuous > 0) "vac")) ++
    "</div>\n"

/-- The heading level inside a report of several chains. -/
def headingTag (nested : Bool) : String :=
  if nested then "h3" else "h2"

/-- A column is emitted only when some row uses it. -/
def shown (rows : List Row) (column : Row → String) : Bool :=
  rows.any (fun r => column r != "")

def headCell (show_ : Bool) (name : String) : String :=
  if show_ then "<th>" ++ name ++ "</th>" else ""

def cell (show_ : Bool) (content : String) : String :=
  if show_ then "<td>" ++ esc content ++ "</td>" else ""

def tableHead (rows : List Row) : String :=
  "<div class=\"scroll\">\n<table>\n<thead><tr>" ++
    headCell (shown rows Row.iif) "in" ++
    headCell (shown rows Row.oif) "out" ++
    headCell (shown rows Row.proto) "proto" ++
    "<th>source</th><th>destination</th>" ++
    headCell (shown rows Row.dport) "port" ++
    "<th>attribution</th></tr></thead>\n<tbody>\n"

def trimColons (text : String) : String :=
  String.ofList (text.toList.dropWhile (· == ':'))

def tableRow (rows : List Row) (row : Row) : String :=
  "<tr>" ++
    cell (shown rows Row.iif) row.iif ++
    cell (shown rows Row.oif) row.oif ++
    cell (shown rows Row.proto) row.proto ++
    "<td class=\"wrap\">" ++ esc row.src ++ "</td><td class=\"wrap\">" ++ esc row.dst ++ "</td>" ++
    cell (shown rows Row.dport) (trimColons row.dport) ++
    "<td class=\"note wrap\">" ++ esc row.note ++ "</td>" ++
    "</tr>\n"

def none : String :=
  "<p class=\"none\">none</p>\n"

def entries (n : Nat) : String :=
  if n = 1 then "entry" else "entries"

/-- What stands under the heading of a direction that lists something. -/
def listing (d : DirectionReport) : String :=
  (if d.qualifiers.isEmpty then ""
    else "<p class=\"qual\">all entries: " ++ esc (", ".intercalate d.qualifiers) ++ "</p>\n") ++
  tableHead d.rows ++
  String.join (d.rows.map (tableRow d.rows)) ++
  "</tbody>\n</table>\n</div>\n" ++
  -- The basis of the count is stated with it.
  "<p class=\"total\"><b>" ++ count d.flows ++ "</b> flows <span class=\"proj\">(" ++
    esc DirectionReport.PROJECTION ++ ")</span></p>\n" ++
  (if d.omittedRows > 0 then
    "<p class=\"note\">&hellip; " ++ toString d.omittedRows ++ " further " ++
      entries d.omittedRows ++ " omitted, covering " ++ count d.omittedFlows ++ " flows</p>\n"
    else "") ++
  (if d.cellsTruncated then
    "<p class=\"warn\">&hellip; attribution cell cap reached; some of the delta is not listed" ++
      "</p>\n"
    else "") ++
  (if d.incomplete then
    "<p class=\"warn\">Enumeration hit a work limit; the list above is incomplete.</p>\n"
    else "")

def heading (d : DirectionReport) (nested : Bool) : String :=
  ("<" ++ headingTag nested ++ ">") ++ esc d.direction.heading.1 ++ " <span class=\"sub\">" ++
    esc d.direction.heading.2 ++ "</span>" ++ ("</" ++ headingTag nested ++ ">\n")

def direction (d : DirectionReport) (nested : Bool) : String :=
  heading d nested ++ (if d.isEmpty then none else listing d)

def structuralRow (r : StructuralRow) : String :=
  "<tr><td>" ++ Text.twoDigits r.number ++ "</td><td>" ++ esc r.what ++
    "</td><td class=\"note wrap\">" ++ esc r.why ++ "</td></tr>\n"

def structural (rows : List StructuralRow) (nested : Bool) : String :=
  ("<" ++ headingTag nested ++ ">") ++ "Structural" ++ ("</" ++ headingTag nested ++ ">\n") ++
  "<div class=\"scroll\">\n<table>\n" ++
  "<thead><tr><th>rule</th><th>change</th><th>detail</th></tr></thead>\n<tbody>\n" ++
  String.join (rows.map structuralRow) ++
  "</tbody>\n</table>\n</div>\n"

def outcomeClass (a : AssertionRow) : String :=
  if a.isPass then "pass" else if a.isFail then "fail" else "vac"

def assertionRow (a : AssertionRow) : String :=
  ("<tr><td><span class=\"tag " ++ outcomeClass a ++ "\">") ++ esc a.outcome ++
    "</span></td><td>" ++ esc a.name ++ "</td><td class=\"note\">" ++ esc a.kind ++
    "</td><td class=\"wrap\">" ++ esc a.detail ++ "</td></tr>\n"

def intent (r : DiffReport) : String :=
  "<h2>Intent</h2>\n<div class=\"scroll\">\n<table>\n" ++
  "<thead><tr><th>outcome</th><th>assertion</th><th>kind</th><th>detail</th></tr></thead>\n" ++
    "<tbody>\n" ++
  String.join (r.assertions.map assertionRow) ++
  "</tbody>\n</table>\n</div>\n" ++
  "<p class=\"total\">" ++ toString r.assertions.length ++ " assertions checked, " ++
    toString r.passed ++ " passed, " ++ toString r.failed ++ " failed, " ++
    toString r.vacuous ++ " vacuous.</p>\n" ++
  (if r.vacuous > 0 then
    "<p class=\"warn\">A vacuous assertion held trivially: nothing in the ruleset " ++
      "decides the packets it describes, so it established nothing. It is not a pass.</p>\n"
    else "")

def boundaries : String :=
  "<h2>What this analysis did not cover</h2>\n<div class=\"bounds\">\n<dl>\n" ++
  String.join (modelBoundaries.map (fun b =>
    "<dt>" ++ esc b.1 ++ "</dt>\n<dd>" ++ esc b.2 ++ "</dd>\n")) ++
  "</dl>\n<p><b>A passing run does not establish:</b></p>\n<ul>\n" ++
  String.join (doesNotEstablish.map (fun item => "<li>" ++ esc item ++ "</li>\n")) ++
  "</ul>\n</div>\n"

def chain (multi : Bool) (c : ChainReport) : String :=
  (if multi then "<h2>Chain <span class=\"sub\">" ++ esc c.name ++ "</span></h2>\n" else "") ++
    direction c.blocked multi ++ direction c.allowed multi ++
    (if c.structural.isEmpty then "" else structural c.structural multi)

def header (r : DiffReport) : String :=
  "<!doctype html>\n<html lang=\"en\">\n<head>\n" ++
    "<meta charset=\"utf-8\">\n" ++
    "<meta name=\"viewport\" content=\"width=device-width, initial-scale=1\">\n" ++
    "<title>fwdelta: " ++ esc r.baseLabel ++ " .. " ++ esc r.headLabel ++ "</title>\n" ++
    "<style>" ++ STYLE ++ "</style>\n</head>\n<body>\n<main>\n" ++
    "<h1>Ruleset delta</h1>\n<p class=\"meta\">\n" ++
    "base <b>" ++ esc r.baseLabel ++ "</b> &rarr; head <b>" ++ esc r.headLabel ++ "</b><br>\n" ++
    "fwdelta " ++ esc r.toolVersion ++ " &middot; generated " ++ esc r.generatedAt ++ "\n" ++
    "</p>\n"

def footer : String :=
  "<footer>\n" ++
    "Generated by fwdelta. This file is self-contained: no scripts, no external " ++
      "stylesheets, no remote assets, no network access at any point.\n" ++
    "</footer>\n</main>\n</body>\n</html>\n"

/-- Render the whole report as one self-contained document. -/
def render (r : DiffReport) : String :=
  let multi := decide (r.chains.length > 1)
  header r ++ summary r ++
    String.join (r.chains.map (chain multi)) ++
    String.join (r.notes.map (fun n => "<p class=\"warn\">" ++ esc n ++ "</p>\n")) ++
    (if r.assertions.isEmpty then "" else intent r) ++
    boundaries ++ footer

/-- The page says whether a direction lists anything. -/
theorem direction_eq_none_iff (d : DirectionReport) (nested : Bool) :
    direction d nested = heading d nested ++ none ↔ d.isEmpty = true := by
  have long : none.length < (listing d).length := by
    have short : none.length = 25 := by decide
    have opening : "<p class=\"total\"><b>".length = 20 := by decide
    have basis : "</b> flows <span class=\"proj\">(".length = 31 := by decide
    simp only [listing, String.length_append, short, opening, basis]
    omega
  unfold direction
  rw [String.append_right_inj]
  split
  · next empty => simp [empty]
  · next listed =>
      apply iff_of_false _ listed
      intro same
      rw [same] at long
      exact lt_irrefl _ long

end Html

end Fwdelta
