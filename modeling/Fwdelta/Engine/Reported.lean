import Fwdelta.Engine.Html
import Fwdelta.Engine.ReportText

/-
When a delta is reported as nothing.

A direction is empty when no attribution cell within the cap has a cube that
expands within the cap.  So a delta of one wide pattern of single addresses is
reported as nothing, although traffic is lost.
-/

namespace Fwdelta

open DecisionDiagram
open DecisionDiagram.Library
open DecisionDiagram.PathLibrary

section Reported

variable {B : Type} [PathLibrary HEADER_BITS B]

/-- Some cell within the cap has, among the cubes visited, one whose fields all
expand within the cap. -/
def Reportable (layout : Layout) (base head : ChainModel B) (delta : B)
    (opts : ReportOptions) : Prop :=
  ∃ cell ∈ (attributeDelta base head delta opts.maxCells).1,
    ∃ cube ∈ visitedCubes cell.set opts.enumeration,
      Usable layout opts.enumeration.maskExpandCap cube

theorem isEmpty_direction_iff_not_reportable (layout : Layout) (syms : SymbolTable)
    (base head : ChainModel B) (delta : B) (dir : Direction) (opts : ReportOptions) :
    (direction layout syms base head delta dir opts).isEmpty = true ↔
      isFalse delta = true ∨ ¬ Reportable layout base head delta opts := by
  rw [isEmpty_direction_iff]
  simp only [mergedRegions_eq_nil_iff, Reportable, not_exists, not_and]

theorem isEmpty_iff_isFalse_iff (layout : Layout) (syms : SymbolTable)
    (base head : ChainModel B) (delta : B) (dir : Direction) (opts : ReportOptions) :
    ((direction layout syms base head delta dir opts).isEmpty = true ↔ isFalse delta = true) ↔
      isFalse delta = true ∨ Reportable layout base head delta opts := by
  rw [isEmpty_direction_iff_not_reportable]
  tauto

/-- Traffic is lost when some chain blocks packets that it let through before. -/
def lost (chains : List (ChainInput B)) : Bool :=
  chains.any (fun c => !isFalse c.diff.newlyBlocked)

theorem trafficLost_build_iff (layout : Layout) (syms : SymbolTable)
    (chains : List (ChainInput B)) (labels : String × String) (assertions : List AssertionRow)
    (notes : List String) (opts : ReportOptions) (timestamp : String) :
    (build layout syms chains labels assertions notes opts timestamp).trafficLost = true ↔
      ∃ c ∈ chains, isFalse c.diff.newlyBlocked = false ∧
        Reportable layout c.base c.head c.diff.newlyBlocked opts := by
  simp only [DiffReport.trafficLost, build, List.any_map, List.any_eq_true, Function.comp,
    chainReport, Bool.not_eq_true', ← Bool.not_eq_true, isEmpty_direction_iff_not_reportable,
    not_or, not_not]

/-- A delta is reported as nothing exactly when it is empty, provided that it is
empty or some cell of it can be listed: then the terminal and the page say `none`
for empty deltas only.  Lost traffic is reported exactly when none is lost, or
the loss of some chain can be listed. -/
theorem reported_as_nothing_iff (layout : Layout) (syms : SymbolTable) (opts : ReportOptions) :
    (∀ (base head : ChainModel B) (delta : B) (dir : Direction),
      let d := direction layout syms base head delta dir opts
      let listed := isFalse delta = true ∨ Reportable layout base head delta opts
      ((d.isEmpty = true ↔ isFalse delta = true) ↔ listed) ∧
      ((ReportText.direction d = ReportText.heading d ++ ReportText.none ↔
        isFalse delta = true) ↔ listed) ∧
      (∀ nested, (Html.direction d nested = Html.heading d nested ++ Html.none ↔
        isFalse delta = true) ↔ listed)) ∧
    (∀ (chains : List (ChainInput B)) (labels : String × String) (assertions : List AssertionRow)
      (notes : List String) (timestamp : String),
      (build layout syms chains labels assertions notes opts timestamp).trafficLost = lost chains ↔
        lost chains = false ∨ ∃ c ∈ chains, isFalse c.diff.newlyBlocked = false ∧
          Reportable layout c.base c.head c.diff.newlyBlocked opts) := by
  constructor
  · intro base head delta dir d listed
    have exact_ := isEmpty_iff_isFalse_iff layout syms base head delta dir opts
    refine ⟨exact_, ?_, ?_⟩
    · rw [ReportText.direction_eq_none_iff]
      exact exact_
    · intro nested
      rw [Html.direction_eq_none_iff]
      exact exact_
  · intro chains labels assertions notes timestamp
    have reported := trafficLost_build_iff layout syms chains labels assertions notes opts timestamp
    rw [← reported, Bool.eq_iff_iff]
    have some_ : (build layout syms chains labels assertions notes opts timestamp).trafficLost =
        true → lost chains = true := by
      rw [reported, lost, List.any_eq_true]
      intro found
      obtain ⟨c, member, inhabited, _⟩ := found
      exact ⟨c, member, by rw [inhabited]; rfl⟩
    rw [← Bool.not_eq_true]
    tauto

end Reported

/-! ### A loss that is reported as nothing -/

/-- The first odd addresses from 10.0.0.0 on. -/
def oddAddresses (count : Nat) : IntervalSet 32 :=
  IntervalSet.fromRanges 32
    ((List.range count).map (fun i => (167772161 + 2 * i, 167772161 + 2 * i)))

/-- The odd addresses of 10.0.0.0/18: 8192 single addresses. -/
@[irreducible] def oddHosts : IntervalSet 32 :=
  oddAddresses 8192

def oddHostsOrigin : Origin where
  file := "f"
  line := 1
  column := 1
  text := "ip saddr @odd accept"

def fromOddHosts : Match :=
  { Match.any with srcAddr := oddHosts }

/-- A chain that accepts these sources only. -/
def acceptsOddHosts : Chain :=
  (Chain.new "input" .input .drop).push fromOddHosts .accept oddHostsOrigin

def acceptsNothing : Chain :=
  Chain.new "input" .input .drop

theorem contains_oddAddresses {count : Nat} (few : count ≤ 8192) (x : Nat) :
    (oddAddresses count).contains x = true ↔ ∃ i < count, x = 167772161 + 2 * i := by
  have inDomain : ∀ range ∈ (List.range count).map
      (fun i => (167772161 + 2 * i, 167772161 + 2 * i)), range.2 ≤ domainMax 32 := by
    intro range member
    obtain ⟨i, small, rfl⟩ := List.mem_map.mp member
    have top : domainMax 32 = 4294967295 := by decide
    have bound := List.mem_range.mp small
    simp only
    omega
  rw [oddAddresses, IntervalSet.contains_fromRanges inDomain]
  simp only [Covers, List.mem_map, List.mem_range, exists_exists_and_eq_and]
  apply exists_congr
  intro i
  apply and_congr_right
  intro _
  omega

theorem contains_oddHosts (x : Nat) :
    oddHosts.contains x = true ↔ x / 16384 = 10240 ∧ x % 2 = 1 := by
  unfold oddHosts
  rw [contains_oddAddresses (le_refl _)]
  constructor
  · intro found
    obtain ⟨i, small, rfl⟩ := found
    omega
  · intro given
    exact ⟨(x - 167772161) / 2, by omega, by omega⟩

/-- The first 18 bits of the source and its last one are fixed. -/
def oddHostsCube (layout : Layout) : Clause HEADER_BITS := fun index =>
  match layout.sequence[index.val]? with
  | some (.srcAddr, bit) =>
      if bit < 18 ∨ bit = 31 then some ((167772161 : Nat).testBit (31 - bit)) else none
  | _ => none

theorem fixes_oddHosts (x : Nat) (below : x < 2 ^ 32) :
    (∀ bit < 32, bit < 18 ∨ bit = 31 → x.testBit (31 - bit) = (167772161 : Nat).testBit (31 - bit))
      ↔ x / 16384 = 10240 ∧ x % 2 = 1 := by
  constructor
  · intro fixed
    constructor
    · apply Nat.eq_of_testBit_eq
      intro i
      have shifted : (x / 2 ^ 14).testBit i = x.testBit (i + 14) := Nat.testBit_div_two_pow x i
      have known : (167772161 / 2 ^ 14 : Nat).testBit i = (167772161 : Nat).testBit (i + 14) :=
        Nat.testBit_div_two_pow _ i
      rw [show x / 16384 = x / 2 ^ 14 from rfl, show (10240 : Nat) = 167772161 / 2 ^ 14 from rfl,
        shifted, known]
      by_cases inField : i < 18
      · have here := fixed (17 - i) (by omega) (by omega)
        rwa [show 31 - (17 - i) = i + 14 by omega] at here
      · have high : 2 ^ 32 ≤ 2 ^ (i + 14) := Nat.pow_le_pow_right (by omega) (by omega)
        rw [Nat.testBit_lt_two_pow (by omega), Nat.testBit_lt_two_pow (by omega)]
    · have last := fixed 31 (by omega) (by omega)
      rw [Nat.testBit_zero] at last
      simpa using last
  · intro given bit inField fixed
    rcases fixed with high | rfl
    · have shifted : (x / 2 ^ 14).testBit (17 - bit) = x.testBit (17 - bit + 14) :=
        Nat.testBit_div_two_pow x _
      have known : (167772161 / 2 ^ 14 : Nat).testBit (17 - bit) =
          (167772161 : Nat).testBit (17 - bit + 14) :=
        Nat.testBit_div_two_pow _ _
      rw [show 31 - bit = 17 - bit + 14 by omega, ← shifted, ← known,
        show x / 2 ^ 14 = x / 16384 from rfl, given.1]
      rfl
    · rw [Nat.testBit_zero, given.2]
      rfl

theorem holds_oddHostsCube_iff (layout : Layout) (p : Packet) :
    (oddHostsCube layout).Holds (layout.encode p) ↔ oddHosts.contains p.src.toNat = true := by
  rw [contains_oddHosts, ← fixes_oddHosts _ p.src.isLt]
  constructor
  · intro holds bit inField fixed
    have inSource : bit < Field.srcAddr.bits := inField
    have here := holds (layout.var .srcAddr bit) ((167772161 : Nat).testBit (31 - bit)) (by
      simp only [oddHostsCube, layout.sequence_getElem_var inSource, if_pos fixed])
    rw [layout.encode_var p inSource] at here
    exact here
  · intro fixed index value at_
    obtain ⟨field, bit, inField, rfl⟩ := layout.exists_var index
    unfold oddHostsCube at at_
    rw [layout.sequence_getElem_var inField] at at_
    rw [layout.encode_var p inField]
    cases field with
    | srcAddr =>
        simp only at at_
        split at at_
        · next within =>
            rw [← Option.some.inj at_]
            exact fixed bit inField within
        · contradiction
    | dstAddr => contradiction
    | srcPort => contradiction
    | dstPort => contradiction
    | proto => contradiction
    | ifIn => contradiction
    | ifOut => contradiction

theorem not_usable_oddHostsCube :
    ¬ Usable ⟨.addrInterleaved⟩ EnumOptions.default.maskExpandCap
      (oddHostsCube ⟨.addrInterleaved⟩) := by
  intro usable
  have source := usable .srcAddr
  revert source
  decide +kernel

theorem holdsAt_oddHosts (p : Packet) :
    fromOddHosts.holdsAt .empty p.value =
      oddHosts.contains p.src.toNat := by
  have others (field : Field) := p.value_le_domainMax field
  rw [Bool.eq_iff_iff, Match.holdsAt_iff]
  simp only [Match.Contains, fromOddHosts, Match.any, IfMatch.resolve, IntervalSet.contains_full]
  exact and_iff_left ⟨others .dstAddr, others .srcPort, others .dstPort, others .proto,
    others .ifIn, others .ifOut⟩

theorem decidingRule_acceptsOddHosts (p : Packet) :
    acceptsOddHosts.decidingRule .empty p =
      if oddHosts.contains p.src.toNat = true then
        some ⟨1, fromOddHosts, .accept, oddHostsOrigin⟩
      else none := by
  have rules : acceptsOddHosts.rules =
      [⟨1, fromOddHosts, .accept, oddHostsOrigin⟩] := rfl
  unfold Chain.decidingRule
  rw [rules, List.find?_singleton, holdsAt_oddHosts]

theorem decider_of_decidingRule {chain : Chain} {syms : SymbolTable} {p : Packet} {rule : Rule}
    (found : chain.decidingRule syms p = some rule) :
    chain.decider syms p = .rule rule.number := by
  unfold Chain.decider
  rw [found]

theorem decider_acceptsOddHosts {p : Packet} (inside : oddHosts.contains p.src.toNat = true) :
    acceptsOddHosts.decider .empty p = .rule 1 :=
  decider_of_decidingRule ((decidingRule_acceptsOddHosts p).trans (if_pos inside))

section Loss

variable [ContentHasher]

/-- The two revisions, and what the second one blocks. -/
def oddHostsInput : ChainInput (Diagram HEADER_BITS) where
  name := "input"
  base := analyse ⟨.addrInterleaved⟩ .empty acceptsOddHosts
  head := analyse ⟨.addrInterleaved⟩ .empty acceptsNothing
  diff := diff (analyse ⟨.addrInterleaved⟩ .empty acceptsOddHosts)
    (analyse ⟨.addrInterleaved⟩ .empty acceptsNothing)

theorem mem_newlyBlocked_oddHosts (p : Packet) :
    (⟨.addrInterleaved⟩ : Layout).mem oddHostsInput.diff.newlyBlocked p =
      oddHosts.contains p.src.toNat := by
  have after : (acceptsNothing.verdict .empty p).permits = false := rfl
  rw [oddHostsInput, mem_newlyBlocked, after, Chain.verdict, decidingRule_acceptsOddHosts]
  cases oddHosts.contains p.src.toNat <;> simp [Action.permits, acceptsOddHosts, Chain.push,
    Chain.new]

theorem not_reportable_oddHosts :
    ¬ Reportable ⟨.addrInterleaved⟩ oddHostsInput.base oddHostsInput.head
      oddHostsInput.diff.newlyBlocked ReportOptions.default := by
  intro reportable
  obtain ⟨cell, member, cube, visited, usable⟩ := reportable
  have baseBuilt : acceptsOddHosts.Built := (Chain.Built.new _ _ _).push _ _ _
  have headBuilt : acceptsNothing.Built := .new _ _ _
  let layout : Layout := ⟨.addrInterleaved⟩
  have cut := allCells_cut layout .empty baseBuilt headBuilt oddHostsInput.diff.newlyBlocked
  rw [oddHostsInput, attributeDelta_analyse layout .empty baseBuilt] at member
  obtain ⟨source, kept, rfl⟩ := List.mem_map.mp member
  have among := List.mem_of_mem_take kept
  -- All packets of the delta are decided alike, so the cell is the whole delta.
  have label {p : Packet} (inside : layout.mem oddHostsInput.diff.newlyBlocked p = true) :
      (acceptsOddHosts.decider .empty p, acceptsNothing.decider .empty p) =
        (Decider.rule 1, Decider.policy) := by
    rw [mem_newlyBlocked_oddHosts] at inside
    rw [decider_acceptsOddHosts inside]
    rfl
  obtain ⟨q, inCell⟩ := cut.inhabited source among
  have atCell := (cut.exact source among q).mp inCell
  have whole (v : Valuation) : eval source.2 v = true ↔ (oddHostsCube layout).Holds v := by
    have exact_ := cut.exact source among (layout.decode v)
    rw [← atCell.2, label atCell.1] at exact_
    have cube := holds_oddHostsCube_iff layout (layout.decode v)
    rw [layout.encode_decode] at cube
    have sameSet : layout.mem source.2 (layout.decode v) = eval source.2 v := by
      rw [Layout.mem, layout.encode_decode]
    rw [cube, ← mem_newlyBlocked_oddHosts, ← sameSet, exact_]
    constructor
    · exact And.left
    · exact fun inside => ⟨inside, label inside⟩
  have paths : satClauses source.2 = [oddHostsCube layout] := Diagram.satClauses_of_cube whole
  have only := List.mem_of_mem_take visited
  rw [show (Attribution.ofCell source).set = source.2 from rfl, paths,
    List.mem_singleton] at only
  rw [only] at usable
  exact not_usable_oddHostsCube usable

end Loss

/-- 8192 sources lose access; the report of it is empty, prints `none` and says
that no traffic is lost. -/
theorem loss_reported_as_nothing : letI : ContentHasher := ⟨fun _ _ => 0⟩
    let blocked := direction ⟨.addrInterleaved⟩ .empty oddHostsInput.base oddHostsInput.head
      oddHostsInput.diff.newlyBlocked .blocked ReportOptions.default
    let report := build ⟨.addrInterleaved⟩ .empty [oddHostsInput] ("a", "b") [] []
      ReportOptions.default "1970-01-01T00:00:00Z"
    isFalse oddHostsInput.diff.newlyBlocked = false ∧ blocked.isEmpty = true ∧
      ReportText.direction blocked = ReportText.heading blocked ++ ReportText.none ∧
      lost [oddHostsInput] = true ∧ report.trafficLost = false := by
  let _ : ContentHasher := ⟨fun _ _ => 0⟩
  have inhabited : isFalse oddHostsInput.diff.newlyBlocked = false := by
    rw [(⟨.addrInterleaved⟩ : Layout).isFalse_eq_false_iff_mem]
    refine ⟨⟨167772161, 0, 0, 0, 0, 0, 0⟩, ?_⟩
    rw [mem_newlyBlocked_oddHosts, contains_oddHosts]
    decide
  have unlisted := not_reportable_oddHosts
  have empty : (direction ⟨.addrInterleaved⟩ .empty oddHostsInput.base oddHostsInput.head
      oddHostsInput.diff.newlyBlocked .blocked ReportOptions.default).isEmpty = true := by
    rw [isEmpty_direction_iff_not_reportable]
    exact Or.inr unlisted
  refine ⟨inhabited, empty, (ReportText.direction_eq_none_iff _).mpr empty, ?_, ?_⟩
  · simp [lost, inhabited]
  · rw [← Bool.not_eq_true, trafficLost_build_iff]
    intro found
    obtain ⟨c, member, _, reportable⟩ := found
    rw [List.mem_singleton.mp member] at reportable
    exact unlisted reportable

end Fwdelta
