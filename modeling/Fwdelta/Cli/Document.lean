import Fwdelta.Cli.Listing
import Fwdelta.JsonReader

/-
The machine-readable document of a comparison, and a reader of it.

The document lists every compared chain with both of its deltas and the rules whose
status changed.  The reader takes the fields by their names, the terms as they are
printed, and gets all of the data.
-/

namespace Fwdelta.Cli

open JsonGrammar

/-! ### What is written -/

def VERSION : String := "0.1.0"

def toolJson : Json :=
  .obj [("name", .str "fwdelta"), ("version", .str VERSION)]

/-- How a status change is called, and the rules it names besides. -/
def structuralTerms : Structural → String × List Nat
  | .nowReachable _ previouslyCoveredBy => ("now_reachable", previouslyCoveredBy)
  | .nowUnreachable _ coveredBy => ("now_unreachable", coveredBy)
  | .nowRedundant _ => ("now_redundant", [])
  | .noLongerRedundant _ => ("no_longer_redundant", [])
  | .added _ => ("added", [])
  | .removed _ => ("removed", [])
  | .modified _ => ("modified", [])

def structuralJson (s : Structural) : Json :=
  let terms := structuralTerms s
  .obj [
    ("rule", .num s.number),
    ("change", .str terms.1),
    ("covered_by", .arr (terms.2.map Json.num))]

def rulesetJson (rs : Ruleset) : Json :=
  .obj [
    ("label", .str rs.label),
    ("chains", .num rs.chains.length),
    ("rules", .num rs.ruleCount)]

section Written

variable {B : Type} [DecisionDiagram.PathLibrary HEADER_BITS B]

def sectionJson (layout : Layout) (syms : SymbolTable) (s : Section B) : Json :=
  .obj [
    ("name", .str s.name),
    ("newly_blocked", deltaJson layout syms s.base s.head s.diff.newlyBlocked),
    ("newly_allowed", deltaJson layout syms s.base s.head s.diff.newlyAllowed),
    ("structural", .arr (s.diff.structural.map structuralJson))]

def diffJson (layout : Layout) (base head : Ruleset) (out : Comparison B) : Json :=
  .obj [
    ("tool", toolJson),
    ("base", rulesetJson base),
    ("head", rulesetJson head),
    ("interfaces", .arr (out.syms.names.map Json.str)),
    ("chains", .arr (out.sections.map (sectionJson layout out.syms))),
    ("unmatched_chains", .arr (out.unmatched.map Json.str)),
    ("exit", .num out.exit)]

end Written

/-! ### Listings are read back -/

namespace Json

theorem treeItems_eq (items : List Json) : treeItems items = items.map tree := by
  induction items with
  | nil => rfl
  | cons item rest ih => rw [treeItems, ih, List.map_cons]

/-- A list of items is read when each of them is. -/
theorem items_tree {α : Type} {read : Value → Option α} {write : α → Json} {list : List α}
    (reads : ∀ a ∈ list, read (write a).tree = some a) :
    (Json.arr (list.map write)).tree.items read = some list := by
  rw [tree, treeItems_eq, List.map_map]
  exact Value.items_arr reads

end Json

def readTerms : Value → Option (Option (List String)) :=
  Value.orNull (Value.items Value.text)

theorem readTerms_termsJson (terms : Option (List String)) :
    readTerms (termsJson terms).tree = some terms := by
  cases terms with
  | none => rfl
  | some list =>
      have whole : (Json.arr (list.map Json.str)).tree.items Value.text = some list :=
        Json.items_tree fun _ _ => rfl
      exact congrArg (Option.map some) whole

def readBig (v : Value) : Option Nat :=
  v.text.bind readNatural

theorem readBig_toString (n : Nat) : readBig (.str (toString n)) = some n :=
  readNatural_toString n

def readEntry (v : Value) : Option Entry := do
  let was ← v.get "was" Value.text
  let now ← v.get "now" Value.text
  let src ← v.get "src" readTerms
  let dst ← v.get "dst" readTerms
  let sport ← v.get "sport" readTerms
  let dport ← v.get "dport" readTerms
  let proto ← v.get "proto" readTerms
  let iif ← v.get "iif" readTerms
  let oif ← v.get "oif" readTerms
  let packets ← v.get "packets" readBig
  some ⟨was, now, src, dst, sport, dport, proto, iif, oif, packets⟩

def readListing (v : Value) : Option Listing := do
  let packets ← v.get "packets" readBig
  let flows ← v.get "flows" readBig
  let entries ← v.get "entries" (Value.items readEntry)
  let complete ← v.get "complete" Value.flag
  some ⟨packets, flows, entries, complete⟩

theorem readEntry_json (e : Entry) : readEntry e.json.tree = some e := by
  rw [Entry.json]
  simp only [readEntry, Json.tree, Json.treeFields, Json.big]
  simp (disch := decide) only [Value.get_first, Value.get_later, readBig_toString, Value.text,
    readTerms_termsJson, Option.bind_eq_bind, Option.bind_some]

theorem readListing_json (l : Listing) : readListing l.json.tree = some l := by
  have entries := Json.items_tree fun (e : Entry) (_ : e ∈ l.entries) => readEntry_json e
  rw [Json.tree] at entries
  rw [Listing.json]
  simp only [readListing, Json.tree, Json.treeFields, Json.big]
  simp (disch := decide) only [Value.get_first, Value.get_later, readBig_toString, Value.flag_bool,
    entries, Option.bind_eq_bind, Option.bind_some]

/-! ### The document is read back -/

structure RulesetLine where
  label : String
  chains : Nat
  rules : Nat

structure StructuralLine where
  rule : Nat
  change : String
  coveredBy : List Nat

structure ChainLine where
  name : String
  newlyBlocked : Listing
  newlyAllowed : Listing
  structural : List StructuralLine

structure DiffDocument where
  base : RulesetLine
  head : RulesetLine
  interfaces : List String
  chains : List ChainLine
  unmatched : List String
  exit : Nat

def readRuleset (v : Value) : Option RulesetLine := do
  let label ← v.get "label" Value.text
  let chains ← v.get "chains" Value.natural
  let rules ← v.get "rules" Value.natural
  some ⟨label, chains, rules⟩

def readStructural (v : Value) : Option StructuralLine := do
  let rule ← v.get "rule" Value.natural
  let change ← v.get "change" Value.text
  let coveredBy ← v.get "covered_by" (Value.items Value.natural)
  some ⟨rule, change, coveredBy⟩

def readChain (v : Value) : Option ChainLine := do
  let name ← v.get "name" Value.text
  let newlyBlocked ← v.get "newly_blocked" readListing
  let newlyAllowed ← v.get "newly_allowed" readListing
  let structural ← v.get "structural" (Value.items readStructural)
  some ⟨name, newlyBlocked, newlyAllowed, structural⟩

def readDocument (v : Value) : Option DiffDocument := do
  let base ← v.get "base" readRuleset
  let head ← v.get "head" readRuleset
  let interfaces ← v.get "interfaces" (Value.items Value.text)
  let chains ← v.get "chains" (Value.items readChain)
  let unmatched ← v.get "unmatched_chains" (Value.items Value.text)
  let exit ← v.get "exit" Value.natural
  some ⟨base, head, interfaces, chains, unmatched, exit⟩

def rulesetLine (rs : Ruleset) : RulesetLine :=
  ⟨rs.label, rs.chains.length, rs.ruleCount⟩

def structuralLine (s : Structural) : StructuralLine :=
  ⟨s.number, (structuralTerms s).1, (structuralTerms s).2⟩

theorem items_text (texts : List String) :
    (Value.arr (Json.treeItems (texts.map Json.str))).items Value.text = some texts := by
  rw [Json.treeItems_eq, List.map_map]
  exact Value.items_arr fun text _ => Value.text_str text

theorem items_natural (numbers : List Nat) :
    (Value.arr (Json.treeItems (numbers.map Json.num))).items Value.natural = some numbers := by
  rw [Json.treeItems_eq, List.map_map]
  exact Value.items_arr fun n _ => Value.natural_num n

theorem readRuleset_json (rs : Ruleset) :
    readRuleset (rulesetJson rs).tree = some (rulesetLine rs) := by
  rw [rulesetJson]
  simp only [readRuleset, Json.tree, Json.treeFields]
  simp (disch := decide) only [Value.get_first, Value.get_later, Value.text_str,
    Value.natural_num, Option.bind_eq_bind, Option.bind_some]
  rfl

theorem readStructural_json (s : Structural) :
    readStructural (structuralJson s).tree = some (structuralLine s) := by
  have covered := items_natural (structuralTerms s).2
  rw [structuralJson]
  simp only [readStructural, Json.tree, Json.treeFields]
  simp (disch := decide) only [Value.get_first, Value.get_later, Value.text_str,
    Value.natural_num, covered, Option.bind_eq_bind, Option.bind_some]
  rfl

section Read

variable {B : Type} [DecisionDiagram.PathLibrary HEADER_BITS B]

def chainLine (layout : Layout) (syms : SymbolTable) (s : Section B) : ChainLine where
  name := s.name
  newlyBlocked := deltaListing layout syms s.base s.head s.diff.newlyBlocked
  newlyAllowed := deltaListing layout syms s.base s.head s.diff.newlyAllowed
  structural := s.diff.structural.map structuralLine

def documentOf (layout : Layout) (base head : Ruleset) (out : Comparison B) : DiffDocument where
  base := rulesetLine base
  head := rulesetLine head
  interfaces := out.syms.names
  chains := out.sections.map (chainLine layout out.syms)
  unmatched := out.unmatched
  exit := out.exit

theorem readListing_delta (layout : Layout) (syms : SymbolTable) (base head : ChainModel B)
    (set : B) : readListing (deltaJson layout syms base head set).tree =
      some (deltaListing layout syms base head set) :=
  readListing_json _

theorem readChain_json (layout : Layout) (syms : SymbolTable) (s : Section B) :
    readChain (sectionJson layout syms s).tree = some (chainLine layout syms s) := by
  have structural : (Value.arr (Json.treeItems (s.diff.structural.map structuralJson))).items
      readStructural = some (s.diff.structural.map structuralLine) := by
    rw [Json.treeItems_eq, List.map_map]
    exact Value.items_map fun change _ => readStructural_json change
  rw [sectionJson]
  simp only [readChain, Json.tree, Json.treeFields]
  simp (disch := decide) only [Value.get_first, Value.get_later, Value.text_str,
    readListing_delta, structural, Option.bind_eq_bind, Option.bind_some]
  rfl

theorem readDocument_json (layout : Layout) (base head : Ruleset) (out : Comparison B) :
    readDocument (diffJson layout base head out).tree =
      some (documentOf layout base head out) := by
  have interfaces := items_text out.syms.names
  have unmatched := items_text out.unmatched
  have chains : (Value.arr (Json.treeItems (out.sections.map (sectionJson layout out.syms)))).items
      readChain = some (out.sections.map (chainLine layout out.syms)) := by
    rw [Json.treeItems_eq, List.map_map]
    exact Value.items_map fun s _ => readChain_json layout out.syms s
  rw [diffJson]
  simp only [readDocument, Json.tree, Json.treeFields]
  simp (disch := decide) only [Value.get_first, Value.get_later, readRuleset_json, interfaces,
    unmatched, chains, Value.natural_num, Option.bind_eq_bind, Option.bind_some]
  rfl

/-- The text of a document stands for its tree. -/
theorem Json.document_render (j : Json) : JsonGrammar.Document j.render.toList j.tree := by
  have reads := Json.reads_write 0 j (endsNumber_cons (by decide) (by decide) (by decide) [] :
    EndsNumber ['\n'])
  refine ⟨['\n'], ?_, rfl⟩
  rw [render, String.toList_append, show "\n".toList = ['\n'] by simp, reads.skip_eq]
  exact reads

/-- Whatever value the text of the document stands for, all of the data is read off it. -/
theorem readDocument_render (layout : Layout) (base head : Ruleset) {out : Comparison B} {v : Value}
    (decoded : JsonGrammar.Document (diffJson layout base head out).render.toList v) :
    readDocument v = some (documentOf layout base head out) := by
  rw [decoded.unique (Json.document_render _)]
  exact readDocument_json layout base head out

end Read

end Fwdelta.Cli
