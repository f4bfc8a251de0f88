import Fwdelta.Engine.Diff
import Fwdelta.Policy.Eval

/-
The `diff` command between two parsed rulesets.

Chains are paired by name: those in both rulesets are compared, those in one
are listed.  Loading the files before that and rendering the result after it
are left out.  The theorems say which chains the pairing leaves out, when an
empty report means that no hook filters differently, and which chains the
assertions are checked against.
-/

namespace Fwdelta.Cli

open DecisionDiagram
open DecisionDiagram.Library

structure Options where
  chain : Option String
  allowVacuous : Bool
  failOnNewlyBlocked : Bool
  verify : Bool
  deriving DecidableEq, Repr

structure Section (B : Type) where
  name : String
  base : ChainModel B
  head : ChainModel B
  diff : ChainDiff B

/-- What the command hands to the renderers, and its exit code. -/
structure Comparison (B : Type) where
  syms : SymbolTable
  sections : List (Section B)
  unmatched : List String
  assertions : List Report
  exit : Nat

/-! ### Chain names -/

/-- Keep one of each run of equal names. -/
def dedup : List String → List String
  | [] => []
  | [name] => [name]
  | name :: next :: rest =>
      if name = next then dedup (next :: rest) else name :: dedup (next :: rest)

def chainNames (base head : Ruleset) : List String :=
  dedup (((base.chains ++ head.chains).map Chain.name).insertionSort (· ≤ ·))

def comparedNames (o : Options) (base head : Ruleset) : Except String (List String) :=
  match o.chain with
  | none => .ok (chainNames base head)
  | some only =>
      let names := (chainNames base head).filter (· == only)
      if names.isEmpty then .error s!"no chain named `{only}` in either ruleset" else .ok names

/-- The table spans both revisions and the assertion file. -/
def symbols (base head : Ruleset) (policy : Option Policy) :
    Except TooManyInterfaces SymbolTable :=
  SymbolTable.fromNames
    (base.interfaceNames ++ head.interfaceNames ++ policy.toList.flatMap Policy.interfaceNames)

def removedText (name : String) : String :=
  "chain `" ++ name ++ "` was removed"

def addedText (name : String) : String :=
  "chain `" ++ name ++ "` was added"

section Compare

variable {B : Type} [Library HEADER_BITS B]

def verifyModels (o : Options) (name : String) (bm hm : ChainModel B) : Except String Unit :=
  if o.verify then do
    bm.verify.mapError (fun e => s!"base chain `{name}`: {e}")
    hm.verify.mapError (fun e => s!"head chain `{name}`: {e}")
  else .ok ()

variable [ContentHasher]

/-- The loop over the names: compared chains, and chains in one ruleset only. -/
def compare (o : Options) (layout : Layout) (syms : SymbolTable) (base head : Ruleset) :
    List String → Except String (List (Section B) × List String)
  | [] => .ok ([], [])
  | name :: rest =>
      match base.chain name, head.chain name with
      | some b, some h => do
          let bm := analyse layout syms b
          let hm := analyse layout syms h
          verifyModels o name bm hm
          let later ← compare o layout syms base head rest
          .ok (⟨name, bm, hm, diff bm hm⟩ :: later.1, later.2)
      | some _, none => do
          let later ← compare o layout syms base head rest
          .ok (later.1, removedText name :: later.2)
      | none, some _ => do
          let later ← compare o layout syms base head rest
          .ok (later.1, addedText name :: later.2)
      | none, none => compare o layout syms base head rest

/-- Assertions are checked against the head models of the compared chains. -/
def checkAssertions (layout : Layout) (syms : SymbolTable) (base head : Ruleset)
    (policy : Option Policy) (sections : List (Section B)) : Except String (List Report) :=
  match policy with
  | none => .ok []
  | some p =>
      (p.evaluate layout syms (sections.map Section.head) (Mentioned.of [base, head])).mapError
        PolicyError.text

def exitCode (o : Options) (sections : List (Section B)) (assertions : List Report) : Nat :=
  let lost := sections.any (fun s => !isFalse s.diff.newlyBlocked)
  let failed := assertions.any (fun a => match a.outcome with | .fail _ => true | _ => false)
  let vacuous := !o.allowVacuous &&
    assertions.any (fun a => match a.outcome with | .vacuous _ => true | _ => false)
  if failed || vacuous || (o.failOnNewlyBlocked && lost) then 1 else 0

def layout : Layout := ⟨.addrInterleaved⟩

/-- The command from the parsed rulesets to what is rendered. -/
def cmdDiff (o : Options) (base head : Ruleset) (policy : Option Policy) :
    Except String (Comparison B) := do
  let syms ← (symbols base head policy).mapError TooManyInterfaces.message
  let names ← comparedNames o base head
  let compared ← compare o layout syms base head names
  let assertions ← checkAssertions layout syms base head policy compared.1
  .ok {
    syms := syms
    sections := compared.1
    unmatched := compared.2
    assertions := assertions
    exit := exitCode o compared.1 assertions }

end Compare

/-! ### Which names are compared -/

theorem mem_dedup {name : String} {names : List String} : name ∈ dedup names ↔ name ∈ names := by
  fun_induction dedup names with
  | case1 => rfl
  | case2 => rfl
  | case3 first rest ih =>
      rw [ih]
      simp
  | case4 first next rest different ih => rw [List.mem_cons, ih, ← List.mem_cons]

theorem dedup_pairwise {names : List String} (sorted : names.Pairwise (· ≤ ·)) :
    (dedup names).Pairwise (· < ·) := by
  fun_induction dedup names with
  | case1 => exact List.Pairwise.nil
  | case2 => exact List.pairwise_singleton _ _
  | case3 first rest ih => exact ih sorted.of_cons
  | case4 first next rest different ih =>
      refine List.pairwise_cons.mpr ⟨fun later member => ?_, ih sorted.of_cons⟩
      obtain ⟨aboveAll, tail⟩ := List.pairwise_cons.mp sorted
      -- The next name is above the first one, and no later name is below it.
      have below : first < next := lt_of_le_of_ne (aboveAll next List.mem_cons_self) different
      rcases List.mem_cons.mp (mem_dedup.mp member) with rfl | further
      · exact below
      · exact lt_of_lt_of_le below ((List.pairwise_cons.mp tail).1 later further)

theorem mem_chainNames {base head : Ruleset} {name : String} :
    name ∈ chainNames base head ↔
      name ∈ base.chains.map Chain.name ∨ name ∈ head.chains.map Chain.name := by
  rw [chainNames, mem_dedup, List.mem_insertionSort, List.map_append, List.mem_append]

theorem chainNames_pairwise (base head : Ruleset) : (chainNames base head).Pairwise (· < ·) :=
  dedup_pairwise (List.pairwise_insertionSort (· ≤ ·) _)

theorem chainNames_nodup (base head : Ruleset) : (chainNames base head).Nodup :=
  (chainNames_pairwise base head).imp (fun below => below.ne)

/-! ### What the comparison is made of -/

theorem chain_isSome_iff {rs : Ruleset} {name : String} :
    (rs.chain name).isSome = true ↔ name ∈ rs.chains.map Chain.name := by
  rw [Ruleset.chain, List.find?_isSome, List.mem_map]
  simp only [beq_iff_eq]

theorem name_of_chain {rs : Ruleset} {name : String} {c : Chain} (found : rs.chain name = some c) :
    c.name = name := by
  simpa using List.find?_some found

section Parts

variable {B : Type} [Library HEADER_BITS B] [ContentHasher]

def sectionOf (layout : Layout) (syms : SymbolTable) (base head : Ruleset) (name : String) :
    Option (Section B) :=
  match base.chain name, head.chain name with
  | some b, some h =>
      some ⟨name, analyse layout syms b, analyse layout syms h,
        diff (analyse layout syms b) (analyse layout syms h)⟩
  | _, _ => none

omit [Library HEADER_BITS B] [ContentHasher] in
def unmatchedOf (base head : Ruleset) (name : String) : Option String :=
  match base.chain name, head.chain name with
  | some _, none => some (removedText name)
  | none, some _ => some (addedText name)
  | _, _ => none

theorem compare_spec {o : Options} {layout : Layout} {syms : SymbolTable} {base head : Ruleset}
    {names : List String} {sections : List (Section B)} {unmatched : List String}
    (compared : compare o layout syms base head names = .ok (sections, unmatched)) :
    sections = names.filterMap (sectionOf layout syms base head) ∧
      unmatched = names.filterMap (unmatchedOf base head) := by
  induction names generalizing sections unmatched with
  | nil =>
      obtain ⟨rfl, rfl⟩ := Prod.mk.inj (Except.ok.inj compared)
      exact ⟨rfl, rfl⟩
  | cons name rest ih =>
      unfold compare at compared
      split at compared
      · next b h baseHas headHas =>
          obtain ⟨_, _, compared⟩ := Fallible.bind_eq_ok_iff.mp compared
          obtain ⟨later, laterOk, last⟩ := Fallible.bind_eq_ok_iff.mp compared
          obtain ⟨rfl, rfl⟩ := Prod.mk.inj (Except.ok.inj last)
          obtain ⟨rests, left⟩ := ih laterOk
          simp only [List.filterMap_cons, sectionOf, unmatchedOf, baseHas, headHas]
          exact ⟨congrArg _ rests, left⟩
      · next b baseHas headLacks =>
          obtain ⟨later, laterOk, last⟩ := Fallible.bind_eq_ok_iff.mp compared
          obtain ⟨rfl, rfl⟩ := Prod.mk.inj (Except.ok.inj last)
          obtain ⟨rests, left⟩ := ih laterOk
          simp only [List.filterMap_cons, sectionOf, unmatchedOf, baseHas, headLacks]
          exact ⟨rests, congrArg _ left⟩
      · next h baseLacks headHas =>
          obtain ⟨later, laterOk, last⟩ := Fallible.bind_eq_ok_iff.mp compared
          obtain ⟨rfl, rfl⟩ := Prod.mk.inj (Except.ok.inj last)
          obtain ⟨rests, left⟩ := ih laterOk
          simp only [List.filterMap_cons, sectionOf, unmatchedOf, baseLacks, headHas]
          exact ⟨rests, congrArg _ left⟩
      · next baseLacks headLacks =>
          simp only [List.filterMap_cons, sectionOf, unmatchedOf, baseLacks, headLacks]
          exact ih compared

/-- Without the self-checks, the loop succeeds. -/
theorem exists_compare {o : Options} (unverified : o.verify = false) (layout : Layout)
    (syms : SymbolTable) (base head : Ruleset) (names : List String) :
    ∃ compared, compare (B := B) o layout syms base head names = .ok compared := by
  induction names with
  | nil => exact ⟨_, rfl⟩
  | cons name rest ih =>
      obtain ⟨later, laterOk⟩ := ih
      unfold compare
      split
      · simp only [verifyModels, unverified, laterOk, bind, Except.bind]
        exact ⟨_, rfl⟩
      · simp only [laterOk, bind, Except.bind]
        exact ⟨_, rfl⟩
      · simp only [laterOk, bind, Except.bind]
        exact ⟨_, rfl⟩
      · exact ⟨later, laterOk⟩

/-- A run of the command over all chains. -/
structure Comparison.Of (out : Comparison B) (base head : Ruleset) (policy : Option Policy) :
    Prop where
  syms : symbols base head policy = .ok out.syms
  sections : out.sections = (chainNames base head).filterMap (sectionOf layout out.syms base head)
  unmatched : out.unmatched = (chainNames base head).filterMap (unmatchedOf base head)
  assertions : checkAssertions layout out.syms base head policy out.sections = .ok out.assertions

theorem cmdDiff_spec {o : Options} {base head : Ruleset} {policy : Option Policy}
    {out : Comparison B} (ran : cmdDiff o base head policy = .ok out) (all : o.chain = none) :
    out.Of base head policy := by
  obtain ⟨syms, symsOk, ran⟩ := Fallible.bind_eq_ok_iff.mp ran
  obtain ⟨names, namesOk, ran⟩ := Fallible.bind_eq_ok_iff.mp ran
  obtain ⟨⟨sections, unmatched⟩, compared, ran⟩ := Fallible.bind_eq_ok_iff.mp ran
  obtain ⟨assertions, assertionsOk, last⟩ := Fallible.bind_eq_ok_iff.mp ran
  obtain rfl := Except.ok.inj last
  rw [comparedNames, all] at namesOk
  obtain rfl := Except.ok.inj namesOk
  obtain ⟨rfl, rfl⟩ := compare_spec compared
  exact ⟨Fallible.mapError_eq_ok_iff.mp symsOk, rfl, rfl, assertionsOk⟩

/-- Without the self-checks, the command succeeds when the interface names fit in
a table and the assertions are evaluated. -/
theorem exists_cmdDiff {o : Options} (all : o.chain = none) (unverified : o.verify = false)
    {base head : Ruleset} {policy : Option Policy} {syms : SymbolTable}
    (named : symbols base head policy = .ok syms)
    (evaluated : ∃ reports, checkAssertions (B := B) layout syms base head policy
      ((chainNames base head).filterMap (sectionOf layout syms base head)) = .ok reports) :
    ∃ out : Comparison B, cmdDiff o base head policy = .ok out := by
  obtain ⟨⟨sections, unmatched⟩, compared⟩ :=
    exists_compare (B := B) unverified layout syms base head (chainNames base head)
  obtain ⟨rfl, rfl⟩ := compare_spec compared
  obtain ⟨reports, checked⟩ := evaluated
  let sections := (chainNames base head).filterMap (sectionOf (B := B) layout syms base head)
  let unmatched := (chainNames base head).filterMap (unmatchedOf base head)
  refine ⟨⟨syms, sections, unmatched, reports, exitCode o sections reports⟩, ?_⟩
  rw [cmdDiff, named, comparedNames, all]
  simp only [bind, Except.bind, Except.mapError, compared, checked, sections, unmatched]

end Parts

/-! ### Rulesets without rules -/

def plain : Options where
  chain := none
  allowVacuous := false
  failOnNewlyBlocked := false
  verify := false

def bare (chains : List (String × Hook × Action)) : Ruleset where
  label := "f"
  chains := chains.map (fun c => Chain.new c.1 c.2.1 c.2.2)

/-- The source of such a chain, in a table of its own. -/
def bareSource (table name hook policy : String) : String :=
  "table ip " ++ table ++ " \x7b\nchain " ++ name ++ " \x7b\ntype filter hook " ++ hook ++
    " priority 0; policy " ++ policy ++ ";\n\x7d\n\x7d\n"

theorem symbols_bare (base head : List (String × Hook × Action)) (policy : Option Policy)
    (unnamed : policy.toList.flatMap Policy.interfaceNames = []) :
    ∃ syms, symbols (bare base) (bare head) policy = .ok syms := by
  have noNames (chains : List (String × Hook × Action)) : (bare chains).interfaceNames = [] := by
    simp [Ruleset.interfaceNames, bare, Chain.new, List.flatMap_map]
  apply SymbolTable.exists_fromNames
  rw [noNames, noNames, unnamed]
  simp [MAX_INTERFACES]

theorem bare_ran {B : Type} [Library HEADER_BITS B] [ContentHasher]
    (base head : List (String × Hook × Action)) :
    ∃ out : Comparison B, cmdDiff plain (bare base) (bare head) none = .ok out := by
  obtain ⟨syms, named⟩ := symbols_bare base head none rfl
  exact exists_cmdDiff rfl rfl named ⟨[], rfl⟩

end Fwdelta.Cli
