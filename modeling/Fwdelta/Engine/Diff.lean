import Fwdelta.Engine.Accept
import Fwdelta.Fibres
import Mathlib.Data.List.Sort

/-
The behavioural delta between two revisions.

Two exact sets, an attribution of each to the rules responsible on both sides,
and the list of rules whose status changed.  The theorems say that attribution
cuts a delta into the fibres of its pair of deciders, up to the cell cap.
-/

namespace Fwdelta

open DecisionDiagram
open DecisionDiagram.Library

structure Attribution (B : Type) where
  was : Decider
  now : Decider
  set : B

inductive Structural
  | nowUnreachable (number : Nat) (coveredBy : List Nat)
  | nowReachable (number : Nat) (previouslyCoveredBy : List Nat)
  | nowRedundant (number : Nat)
  | noLongerRedundant (number : Nat)
  | added (number : Nat)
  | removed (number : Nat)
  | modified (number : Nat)
  deriving DecidableEq, Repr

namespace Structural

def number : Structural → Nat
  | .nowUnreachable number _ | .nowReachable number _ | .nowRedundant number
  | .noLongerRedundant number | .added number | .removed number | .modified number => number

def debugList (numbers : List Nat) : String :=
  "[" ++ ", ".intercalate (numbers.map toString) ++ "]"

def debug : Structural → String
  | .nowUnreachable number coveredBy =>
      "NowUnreachable \x7b number: " ++ toString number ++ ", covered_by: " ++
        debugList coveredBy ++ " \x7d"
  | .nowReachable number previouslyCoveredBy =>
      "NowReachable \x7b number: " ++ toString number ++ ", previously_covered_by: " ++
        debugList previouslyCoveredBy ++ " \x7d"
  | .nowRedundant number => "NowRedundant \x7b number: " ++ toString number ++ " \x7d"
  | .noLongerRedundant number =>
      "NoLongerRedundant \x7b number: " ++ toString number ++ " \x7d"
  | .added number => "Added \x7b number: " ++ toString number ++ " \x7d"
  | .removed number => "Removed \x7b number: " ++ toString number ++ " \x7d"
  | .modified number => "Modified \x7b number: " ++ toString number ++ " \x7d"

def le (a b : Structural) : Bool :=
  a.number < b.number || (a.number == b.number && decide (a.debug ≤ b.debug))

end Structural

structure ChainDiff (B : Type) where
  name : String
  newlyAllowed : B
  newlyBlocked : B
  structural : List Structural

section Diff

variable {B : Type} [Library HEADER_BITS B]

def ChainDiff.isBehaviourallyIdentical (delta : ChainDiff B) : Bool :=
  isFalse delta.newlyAllowed && isFalse delta.newlyBlocked

def claimKey (key : BitVec 64) :
    List (BitVec 64 × Nat) → Option (Nat × List (BitVec 64 × Nat))
  | [] => none
  | entry :: rest =>
      if entry.1 = key then some (entry.2, rest)
      else (claimKey key rest).map (fun found => (found.1, entry :: found.2))

/-- The loop of `pair_rules` over the base rules: pairs, unmatched base rules,
and the head rules left unclaimed. -/
def pairFrom (unclaimed : List (BitVec 64 × Nat)) :
    List (RuleModel B) → List (Nat × Nat) × List Nat × List (BitVec 64 × Nat)
  | [] => ([], [], unclaimed)
  | r :: rest =>
      match claimKey r.contentKey unclaimed with
      | some (h, left) =>
          let later := pairFrom left rest
          ((r.number, h) :: later.1, later.2)
      | none =>
          let later := pairFrom unclaimed rest
          (later.1, r.number :: later.2.1, later.2.2)

/-- Pair rules between revisions by what they say, not where they sit.  The map
of the source holds one queue of head rules for each content; here it is one
list in file order. -/
def pairRules (base head : ChainModel B) : List (Nat × Nat) × List Nat × List Nat :=
  let pairing := pairFrom (head.rules.map (fun r => (r.contentKey, r.number))) base.rules
  let added := (pairing.2.2.map Prod.snd).insertionSort (· ≤ ·)
  (pairing.1, pairing.2.1, added)

def pairChanges (base head : ChainModel B) (pair : Nat × Nat) : List Structural :=
  match base.rules.find? (fun r => r.number == pair.1),
      head.rules.find? (fun r => r.number == pair.2) with
  | some bi, some hi =>
      (match bi.shadowed, hi.shadowed with
        | false, true => [.nowUnreachable pair.2 (head.explainShadow pair.2)]
        | true, false => [.nowReachable pair.2 (base.explainShadow pair.1)]
        | _, _ => []) ++
      -- Shadowed rules are trivially redundant, and only reported as shadowed.
      (if !bi.shadowed && !hi.shadowed then
        match bi.redundant, hi.redundant with
        | false, true => [.nowRedundant pair.2]
        | true, false => [.noLongerRedundant pair.2]
        | _, _ => []
      else [])
  | _, _ => []

/-- An addition and a removal at one number are one modification. -/
def mergeModified (addedLeft : List Nat) : List Nat → List Structural × List Nat × List Nat
  | [] => ([], [], addedLeft)
  | number :: rest =>
      if number ∈ addedLeft then
        let later := mergeModified (addedLeft.erase number) rest
        (.modified number :: later.1, later.2)
      else
        let later := mergeModified addedLeft rest
        (later.1, number :: later.2.1, later.2.2)

def structuralChanges (base head : ChainModel B) : List Structural :=
  let (paired, removed, added) := pairRules base head
  let (modified, removedLeft, addedLeft) := mergeModified added removed
  let out := paired.flatMap (pairChanges base head) ++ modified ++
    removedLeft.map .removed ++ addedLeft.map .added
  out.insertionSort (fun a b => a.le b = true)

def diff (base head : ChainModel B) : ChainDiff B where
  name := head.name
  newlyAllowed := andNot head.accept base.accept
  newlyBlocked := andNot base.accept head.accept
  structural := structuralChanges base head

/-- The inner loop of `attribute`: push cells until the cap stops it. -/
def pushCells (maxCells : Nat) (was : Decider) (out : List (Attribution B)) :
    List (Decider × B) → List (Attribution B) × Bool
  | [] => (out, false)
  | (now, both) :: rest =>
      if out.length ≥ maxCells then (out, true)
      else pushCells maxCells was (out ++ [{ was := was, now := now, set := both }]) rest

/-- The outer loop of `attribute`, over the parts of the base. -/
def pushParts (head : ChainModel B) (maxCells : Nat) (out : List (Attribution B)) :
    List (Decider × B) → List (Attribution B) × Bool
  | [] => (out, false)
  | (was, basePart) :: rest =>
      let pushed := pushCells maxCells was out (head.attribute basePart)
      if pushed.2 then (pushed.1, true) else pushParts head maxCells pushed.1 rest

/-- Split a delta into parts, each with the rule responsible on both sides (the
function `attribute` of the source).  The flag is true when the cap was reached. -/
def attributeDelta (base head : ChainModel B) (delta : B) (maxCells : Nat) :
    List (Attribution B) × Bool :=
  if isFalse delta then ([], false)
  else pushParts head maxCells [] (base.attribute delta)

end Diff

/-! ### Attribution cuts a set by its deciders -/

section Attribute

variable {B : Type} [Library HEADER_BITS B]

def ChainModel.deciderCells (model : ChainModel B) : List (Decider × B) :=
  model.rules.map (fun r => (.rule r.number, r.effective)) ++ [(.policy, model.fallthrough)]

def restrictTo (set cell : B) : Option B :=
  if isFalse (and set cell) then none else some (and set cell)

theorem attributePart_eq_map (set : B) (label : Decider) (cell : B) :
    ChainModel.attributePart set label cell =
      (restrictTo set cell).map (fun part => (label, part)) := by
  by_cases empty : isFalse (and set cell) = true
  · simp [ChainModel.attributePart, restrictTo, empty]
  · simp [ChainModel.attributePart, restrictTo, empty]

theorem restrictTo_eq_none_of_isFalse (set : B) {cell : B} (empty : isFalse cell = true) :
    restrictTo set cell = none := by
  unfold restrictTo
  rw [if_pos]
  rw [isFalse_iff] at empty ⊢
  intro v
  rw [eval_and, empty v, Bool.and_false]

theorem restrictTo_eq_some (layout : Layout) {set cell part : B}
    (found : restrictTo set cell = some part) :
    (∀ p, layout.mem part p = true ↔ layout.mem set p = true ∧ layout.mem cell p = true) ∧
      ∃ p, layout.mem part p = true := by
  unfold restrictTo at found
  split at found
  · contradiction
  · next inhabited =>
      rw [Option.some.injEq] at found
      subst found
      rw [Bool.not_eq_true, layout.isFalse_eq_false_iff_mem] at inhabited
      exact ⟨fun p => by simp, inhabited⟩

theorem restrictTo_eq_none (layout : Layout) {set cell : B}
    (missing : restrictTo set cell = none) (p : Packet) :
    ¬ (layout.mem set p = true ∧ layout.mem cell p = true) := by
  intro both
  unfold restrictTo at missing
  split at missing
  · next empty =>
      rw [layout.isFalse_iff_mem] at empty
      have := empty p
      simp [both.1, both.2] at this
  · contradiction

/-- Skipping shadowed rules is no more than skipping empty parts. -/
theorem ChainModel.attribute_eq_filterMap (model : ChainModel B)
    (consistent : ∀ r ∈ model.rules, r.shadowed = isFalse r.effective) (set : B) :
    model.attribute set =
      model.deciderCells.filterMap
        (fun cell => (restrictTo set cell.2).map (fun part => (cell.1, part))) := by
  unfold ChainModel.attribute ChainModel.deciderCells
  rw [List.filterMap_append, List.filterMap_map]
  congr 1
  · apply List.filterMap_congr
    intro r member
    rw [consistent r member, attributePart_eq_map]
    split
    · next empty => simp [restrictTo_eq_none_of_isFalse set empty]
    · rfl
  · rw [attributePart_eq_map]
    cases found : restrictTo set model.fallthrough <;> simp [found]

section Exact

variable [ContentHasher] (layout : Layout) (syms : SymbolTable) {chain : Chain}

theorem analyse_shadowed_consistent (chain : Chain) :
    ∀ r ∈ (analyse layout syms chain : ChainModel B).rules,
      r.shadowed = isFalse r.effective := by
  intro r member
  obtain ⟨i, modelAt⟩ := List.mem_iff_getElem?.mp member
  obtain ⟨_, _, described⟩ := exists_described layout syms chain modelAt
  exact described.shadowed

theorem deciderCells_exact (built : chain.Built) :
    ∀ cell ∈ (analyse layout syms chain : ChainModel B).deciderCells, ∀ p,
      layout.mem cell.2 p = true ↔ chain.decider syms p = cell.1 := by
  intro cell member p
  rcases List.mem_append.mp member with ruled | policy
  · obtain ⟨r, modelMember, rfl⟩ := List.mem_map.mp ruled
    obtain ⟨i, modelAt⟩ := List.mem_iff_getElem?.mp modelMember
    obtain ⟨rule, ruleAt, described⟩ := exists_described layout syms chain modelAt
    rw [described.effective p, described.number, built.decider_eq_rule_iff syms ruleAt p,
      decide_eq_true_iff]
  · rw [List.mem_singleton.mp policy, mem_fallthrough, decide_eq_true_iff]

theorem analyse_rules_numbers (chain : Chain) :
    (analyse layout syms chain : ChainModel B).rules.map RuleModel.number =
      chain.rules.map Rule.number := by
  apply List.ext_getElem
  · rw [List.length_map, List.length_map, analyse_rules_length]
  · intro i bound ruleBound
    rw [List.length_map] at bound ruleBound
    rw [List.getElem_map, List.getElem_map]
    exact (analyse_describes layout syms chain (List.getElem?_eq_getElem bound)
      (List.getElem?_eq_getElem ruleBound)).number

theorem deciderCells_labels (chain : Chain) :
    (analyse layout syms chain : ChainModel B).deciderCells.map Prod.fst =
      (chain.rules.map Rule.number).map Decider.rule ++ [.policy] := by
  rw [← analyse_rules_numbers (B := B) layout syms chain]
  simp [ChainModel.deciderCells]

theorem deciderCells_distinct (built : chain.Built) :
    ((analyse layout syms chain : ChainModel B).deciderCells.map Prod.fst).Nodup := by
  rw [deciderCells_labels, List.nodup_append]
  refine ⟨built.numbers_nodup.map (fun a b same => Decider.rule.inj same), by simp, ?_⟩
  simp

theorem deciderCells_covers (chain : Chain) (p : Packet) :
    ∃ cell ∈ (analyse layout syms chain : ChainModel B).deciderCells,
      chain.decider syms p = cell.1 := by
  have labelled : chain.decider syms p ∈
      (analyse layout syms chain : ChainModel B).deciderCells.map Prod.fst := by
    rw [deciderCells_labels, Chain.decider]
    cases decided : chain.decidingRule syms p with
    | none => simp
    | some rule =>
        have member := List.mem_of_find?_eq_some decided
        simp only [List.mem_append, List.mem_map]
        exact Or.inl ⟨rule.number, ⟨rule, member, rfl⟩, rfl⟩
  obtain ⟨cell, member, same⟩ := List.mem_map.mp labelled
  exact ⟨cell, member, same.symm⟩

/-- `ChainModel::attribute` cuts a set into the packets of each decider. -/
theorem attribute_cut (built : chain.Built) (set : B) :
    Fibres.Cut (fun (s : B) p => layout.mem s p = true) (chain.decider syms) set
      ((analyse layout syms chain : ChainModel B).attribute set) := by
  rw [ChainModel.attribute_eq_filterMap _ (analyse_shadowed_consistent layout syms chain)]
  apply Fibres.Cut.of_restrict
  · exact fun cell part => restrictTo_eq_some layout
  · exact fun cell => restrictTo_eq_none layout
  · exact deciderCells_exact layout syms built
  · exact deciderCells_distinct layout syms built
  · exact deciderCells_covers layout syms chain

end Exact

/-! ### The capped traversal -/

/-- The cells under their pair of deciders, as the nested loops visit them. -/
def allCells (base head : ChainModel B) (delta : B) : List ((Decider × Decider) × B) :=
  (base.attribute delta).flatMap
    (fun cell => (head.attribute cell.2).map (fun part => ((cell.1, part.1), part.2)))

def Attribution.ofCell (cell : (Decider × Decider) × B) : Attribution B where
  was := cell.1.1
  now := cell.1.2
  set := cell.2

omit [Library HEADER_BITS B] in
theorem pushCells_eq (maxCells : Nat) (was : Decider) (out : List (Attribution B))
    (cells : List (Decider × B)) (below : out.length ≤ maxCells) :
    pushCells maxCells was out cells =
      let all := out ++ cells.map (fun part => ⟨was, part.1, part.2⟩)
      (all.take maxCells, decide (maxCells < all.length)) := by
  induction cells generalizing out with
  | nil => simp [pushCells, List.take_of_length_le below, below]
  | cons part rest ih =>
      simp only [pushCells, List.map_cons]
      split
      · next full =>
          have atCap : out.length = maxCells := by omega
          simp [← atCap]
      · next room =>
          rw [ih _ (by rw [List.length_append, List.length_singleton]; omega)]
          simp

theorem pushParts_eq (head : ChainModel B) (maxCells : Nat) (out : List (Attribution B))
    (parts : List (Decider × B)) (below : out.length ≤ maxCells) :
    pushParts head maxCells out parts =
      let all := out ++ parts.flatMap
        (fun cell => (head.attribute cell.2).map (fun part => ⟨cell.1, part.1, part.2⟩))
      (all.take maxCells, decide (maxCells < all.length)) := by
  induction parts generalizing out with
  | nil => simp [pushParts, List.take_of_length_le below, below]
  | cons cell rest ih =>
      simp only [pushParts, pushCells_eq maxCells cell.1 out _ below, List.flatMap_cons]
      split
      · next full =>
          -- The cap falls inside the cells of this part: the rest adds nothing.
          have beyond := of_decide_eq_true full
          rw [← List.append_assoc, List.take_append_of_le_length (Nat.le_of_lt beyond)]
          simp only [Prod.mk.injEq, true_and]
          rw [List.length_append]
          exact (decide_eq_true (Nat.lt_of_lt_of_le beyond (Nat.le_add_right _ _))).symm
      · next room =>
          rw [Bool.not_eq_true, decide_eq_false_iff_not, Nat.not_lt] at room
          rw [ih _ (by rw [List.length_take]; omega), List.take_of_length_le room,
            List.append_assoc]

/-- Attribution keeps the first cells up to the cap, and says whether it left
any out. -/
theorem attributeDelta_eq (base head : ChainModel B) (delta : B) (maxCells : Nat)
    (nothing : isFalse delta = true → base.attribute delta = []) :
    attributeDelta base head delta maxCells =
      (((allCells base head delta).take maxCells).map Attribution.ofCell,
        decide (maxCells < (allCells base head delta).length)) := by
  have allEq : (base.attribute delta).flatMap
      (fun cell => (head.attribute cell.2).map
        (fun part => (⟨cell.1, part.1, part.2⟩ : Attribution B))) =
      (allCells base head delta).map Attribution.ofCell := by
    rw [allCells, List.map_flatMap]
    simp only [List.map_map]
    rfl
  unfold attributeDelta
  split
  · next empty => simp [allCells, nothing empty]
  · rw [pushParts_eq head maxCells [] _ (Nat.zero_le _)]
    simp only [List.nil_append, allEq, List.map_take, List.length_map]

theorem allCells_cut [ContentHasher] (layout : Layout) (syms : SymbolTable)
    {base head : Chain} (baseBuilt : base.Built) (headBuilt : head.Built) (delta : B) :
    Fibres.Cut (fun (s : B) p => layout.mem s p = true)
      (fun p => (base.decider syms p, head.decider syms p)) delta
      (allCells (analyse layout syms base) (analyse layout syms head) delta) :=
  (attribute_cut layout syms baseBuilt delta).product
    (fun cell _ => attribute_cut layout syms headBuilt cell.2)

/-- Between analysed chains, attribution keeps the first of the non-empty cells. -/
theorem attributeDelta_analyse [ContentHasher] (layout : Layout) (syms : SymbolTable)
    {base : Chain} (baseBuilt : base.Built) (head : Chain) (delta : B) (maxCells : Nat) :
    attributeDelta (analyse layout syms base) (analyse layout syms head) delta maxCells =
      (((allCells (analyse layout syms base) (analyse layout syms head) delta).take maxCells).map
          Attribution.ofCell,
        decide (maxCells <
          (allCells (analyse layout syms base) (analyse layout syms head) delta).length)) := by
  apply attributeDelta_eq
  intro empty
  apply (attribute_cut layout syms baseBuilt delta).eq_nil_of_empty
  intro p inDelta
  rw [(layout.isFalse_iff_mem delta).mp empty p] at inDelta
  contradiction

end Attribute

/-! ### The delta is exact -/

section DeltaExact

variable {B : Type} [Library HEADER_BITS B] [ContentHasher]

theorem mem_newlyAllowed (layout : Layout) (syms : SymbolTable) (base head : Chain)
    (p : Packet) :
    layout.mem (diff (analyse layout syms base : ChainModel B)
        (analyse layout syms head)).newlyAllowed p =
      ((head.verdict syms p).permits && !(base.verdict syms p).permits) := by
  simp only [diff, Layout.mem_andNot, mem_accept]

theorem mem_newlyBlocked (layout : Layout) (syms : SymbolTable) (base head : Chain)
    (p : Packet) :
    layout.mem (diff (analyse layout syms base : ChainModel B)
        (analyse layout syms head)).newlyBlocked p =
      ((base.verdict syms p).permits && !(head.verdict syms p).permits) := by
  simp only [diff, Layout.mem_andNot, mem_accept]

/-- Attribution between analysed chains: disjoint non-empty cells, one for each
pair of deciders, with a flag that says whether the cap left any out. -/
theorem attribution_exact (layout : Layout) (syms : SymbolTable)
    {base head : Chain} (baseBuilt : base.Built) (headBuilt : head.Built) (delta : B)
    (maxCells : Nat) :
    let parts := attributeDelta (analyse layout syms base : ChainModel B)
      (analyse layout syms head) delta maxCells
    parts.1.Pairwise (fun a b => ∀ p, ¬ (layout.mem a.set p = true ∧
      layout.mem b.set p = true)) ∧
    (∀ cell ∈ parts.1, ∃ p, layout.mem cell.set p = true) ∧
    (parts.1.map (fun cell => (cell.was, cell.now))).Nodup ∧
    (∀ cell ∈ parts.1, ∀ p, layout.mem cell.set p = true ↔
      layout.mem delta p = true ∧ base.decider syms p = cell.was ∧
        head.decider syms p = cell.now) ∧
    (parts.2 = true ↔
      ¬ ∀ p, (∃ cell ∈ parts.1, layout.mem cell.set p = true) ↔
        layout.mem delta p = true) := by
  have cut := allCells_cut layout syms baseBuilt headBuilt delta
  rw [attributeDelta_analyse layout syms baseBuilt head delta maxCells]
  simp only
  generalize allCells (analyse layout syms base : ChainModel B) (analyse layout syms head) delta =
    cells at cut
  have kept : ∀ cell ∈ cells.take maxCells, cell ∈ cells :=
    fun cell member => List.mem_of_mem_take member
  refine ⟨?_, ?_, ?_, ?_, ?_⟩
  · exact List.pairwise_map.mpr (cut.disjoint.sublist (List.take_sublist maxCells cells))
  · intro cell member
    obtain ⟨source, sourceMember, rfl⟩ := List.mem_map.mp member
    exact cut.inhabited source (kept source sourceMember)
  · have labels : ((cells.take maxCells).map Prod.fst).Nodup :=
      cut.distinct.sublist ((List.take_sublist maxCells cells).map Prod.fst)
    rw [List.map_map]
    exact labels
  · intro cell member p
    obtain ⟨source, sourceMember, rfl⟩ := List.mem_map.mp member
    rw [Attribution.ofCell, cut.exact source (kept source sourceMember) p]
    rw [Prod.ext_iff]
  · have union (p : Packet) :
        (∃ cell ∈ (cells.take maxCells).map Attribution.ofCell,
            layout.mem cell.set p = true) ↔
          ∃ cell ∈ cells.take maxCells, layout.mem cell.2 p = true := by
      constructor
      · intro listed
        rcases listed with ⟨_, member, inCell⟩
        obtain ⟨source, sourceMember, rfl⟩ := List.mem_map.mp member
        exact ⟨source, sourceMember, inCell⟩
      · intro listed
        rcases listed with ⟨source, sourceMember, inCell⟩
        exact ⟨_, List.mem_map_of_mem sourceMember, inCell⟩
    simp only [union]
    rw [decide_eq_true_iff, ← Nat.not_le, not_iff_not, ← cut.take_covers_iff maxCells]

/-- Both directions of the delta are exact, and attribution cuts any set into
non-empty disjoint cells, one for each pair of deciders, with a flag that says
whether the cap left any out. -/
theorem diff_and_attribution_exact (layout : Layout) (syms : SymbolTable)
    {base head : Chain} (baseBuilt : base.Built) (headBuilt : head.Built) :
    let bm : ChainModel B := analyse layout syms base
    let hm : ChainModel B := analyse layout syms head
    (∀ p, layout.mem (diff bm hm).newlyAllowed p = true ↔
      (base.verdict syms p).permits = false ∧ (head.verdict syms p).permits = true) ∧
    (∀ p, layout.mem (diff bm hm).newlyBlocked p = true ↔
      (base.verdict syms p).permits = true ∧ (head.verdict syms p).permits = false) ∧
    ∀ (delta : B) (maxCells : Nat),
      let parts := attributeDelta bm hm delta maxCells
      parts.1.Pairwise (fun a b => ∀ p, ¬ (layout.mem a.set p = true ∧
        layout.mem b.set p = true)) ∧
      (∀ cell ∈ parts.1, ∃ p, layout.mem cell.set p = true) ∧
      (parts.1.map (fun cell => (cell.was, cell.now))).Nodup ∧
      (∀ cell ∈ parts.1, ∀ p, layout.mem cell.set p = true ↔
        layout.mem delta p = true ∧ base.decider syms p = cell.was ∧
          head.decider syms p = cell.now) ∧
      (parts.2 = true ↔
        ¬ ∀ p, (∃ cell ∈ parts.1, layout.mem cell.set p = true) ↔
          layout.mem delta p = true) := by
  intro bm hm
  refine ⟨fun p => ?_, fun p => ?_, fun delta maxCells => ?_⟩
  · rw [mem_newlyAllowed, Bool.and_eq_true, Bool.not_eq_true', and_comm]
  · rw [mem_newlyBlocked, Bool.and_eq_true, Bool.not_eq_true']
  · exact attribution_exact layout syms baseBuilt headBuilt delta maxCells

end DeltaExact

/-- Pushing `accept` onto an empty chain that drops newly allows a packet. -/
theorem push_accept_newlyAllowed : letI : ContentHasher := ⟨fun _ _ => 0⟩
    let base := Chain.new "input" .input .drop
    let head := base.push Match.any .accept ⟨"f", 1, 1, "accept"⟩
    (⟨.fieldMajor⟩ : Layout).mem (diff
      (analyse ⟨.fieldMajor⟩ .empty base : ChainModel (Diagram HEADER_BITS))
      (analyse ⟨.fieldMajor⟩ .empty head)).newlyAllowed ⟨0, 0, 0, 0, 0, 0, 0⟩ = true := by
  let _ : ContentHasher := ⟨fun _ _ => 0⟩
  have built : (Chain.new "input" .input .drop).Built := .new _ _ _
  exact ((diff_and_attribution_exact (B := Diagram HEADER_BITS) ⟨.fieldMajor⟩ .empty built
    (built.push Match.any .accept ⟨"f", 1, 1, "accept"⟩)).1 _).mpr
    ⟨by decide +kernel, by decide +kernel⟩

end Fwdelta
