import Fwdelta.Engine.Diff
import Fwdelta.Matching

/-
What is said about single rules.

Rules are paired by content, first come first served, so equal rules pair in file
order and no matching of equal rules has more pairs.  Then each rule without a
partner is reported once, and each pair whose status differs is reported.
-/

namespace Fwdelta

open DecisionDiagram
open DecisionDiagram.Library

section Pairing

variable {B : Type}

/-- What `pair_rules` keeps of a head rule. -/
def RuleModel.entry (r : RuleModel B) : BitVec 64 × Nat :=
  (r.contentKey, r.number)

theorem claimKey_eq_none {key : BitVec 64} {rules : List (RuleModel B)}
    (missing : claimKey key (rules.map RuleModel.entry) = none) :
    ∀ q ∈ rules, q.contentKey ≠ key := by
  induction rules with
  | nil => simp
  | cons q rest ih =>
      rw [List.map_cons, claimKey] at missing
      split at missing
      · contradiction
      · next other => exact List.forall_mem_cons.mpr ⟨other, ih (Option.map_eq_none_iff.mp missing)⟩

/-- What is claimed is the first rule of that key. -/
theorem claimKey_eq_some {key : BitVec 64} {rules : List (RuleModel B)} {number : Nat}
    {left : List (BitVec 64 × Nat)}
    (found : claimKey key (rules.map RuleModel.entry) = some (number, left)) :
    ∃ before q after, rules = before ++ q :: after ∧ key = q.contentKey ∧
      (∀ c ∈ before, c.contentKey ≠ key) ∧ number = q.number ∧
        left = (before ++ after).map RuleModel.entry := by
  induction rules generalizing left with
  | nil => contradiction
  | cons q rest ih =>
      rw [List.map_cons, claimKey] at found
      split at found
      · next here =>
          rw [Option.some.injEq, Prod.mk.injEq] at found
          exact ⟨[], q, rest, rfl, here.symm, by simp, found.1.symm, found.2.symm⟩
      · next other =>
          obtain ⟨⟨_, later⟩, claimed, same⟩ := Option.map_eq_some_iff.mp found
          rw [Prod.mk.injEq] at same
          obtain ⟨rfl, rfl⟩ := same
          obtain ⟨before, q', after, rfl, here, first, rfl, rfl⟩ := ih claimed
          exact ⟨q :: before, q', after, rfl, here, List.forall_mem_cons.mpr ⟨other, first⟩,
            rfl, rfl⟩

def RuleModel.numbers (pair : RuleModel B × RuleModel B) : Nat × Nat :=
  (pair.1.number, pair.2.number)

/-- The loop over the base rules is a first come first served matching by key. -/
theorem pairFrom_greedy (rules unclaimed : List (RuleModel B)) :
    ∃ pairs lostLeft lostRight,
      Matching.Greedy RuleModel.contentKey RuleModel.contentKey rules unclaimed pairs lostLeft
        lostRight ∧
      pairFrom (unclaimed.map RuleModel.entry) rules =
        (pairs.map RuleModel.numbers, lostLeft.map RuleModel.number,
          lostRight.map RuleModel.entry) := by
  induction rules generalizing unclaimed with
  | nil => exact ⟨[], [], unclaimed, .done unclaimed, rfl⟩
  | cons r rest ih =>
      rw [pairFrom]
      cases claimed : claimKey r.contentKey (unclaimed.map RuleModel.entry) with
      | none =>
          obtain ⟨pairs, lostLeft, lostRight, run, later⟩ := ih unclaimed
          refine ⟨pairs, r :: lostLeft, lostRight, .skip (claimKey_eq_none claimed) run, ?_⟩
          simp only [later, List.map_cons]
      | some found =>
          obtain ⟨before, q, after, rfl, same, first, number, left⟩ := claimKey_eq_some claimed
          obtain ⟨pairs, lostLeft, lostRight, run, later⟩ := ih (before ++ after)
          refine ⟨(r, q) :: pairs, lostLeft, lostRight, .pair same first run, ?_⟩
          simp only [left, later, number, List.map_cons]
          rfl

theorem pairRules_greedy (base head : ChainModel B) :
    ∃ pairs lostLeft lostRight,
      Matching.Greedy RuleModel.contentKey RuleModel.contentKey base.rules head.rules pairs
        lostLeft lostRight ∧
      (pairRules base head).1 = pairs.map RuleModel.numbers ∧
      (pairRules base head).2.1 = lostLeft.map RuleModel.number ∧
      (pairRules base head).2.2.Perm (lostRight.map RuleModel.number) := by
  obtain ⟨pairs, lostLeft, lostRight, run, result⟩ := pairFrom_greedy base.rules head.rules
  have entries : pairFrom (head.rules.map (fun r => (r.contentKey, r.number))) base.rules = _ :=
    result
  refine ⟨pairs, lostLeft, lostRight, run, ?_, ?_, ?_⟩
  · simp only [pairRules, entries]
  · simp only [pairRules, entries]
  · simp only [pairRules, entries, List.map_map]
    exact List.perm_insertionSort _ _

theorem pairRules_left (base head : ChainModel B) :
    ((pairRules base head).1.map Prod.fst ++ (pairRules base head).2.1).Perm
      (base.rules.map RuleModel.number) := by
  obtain ⟨pairs, lostLeft, lostRight, run, paired, lost, _⟩ := pairRules_greedy base head
  have parts := run.left_perm.map RuleModel.number
  rw [List.map_append, List.map_map] at parts
  rw [paired, lost, List.map_map]
  exact parts

theorem pairRules_right (base head : ChainModel B) :
    ((pairRules base head).1.map Prod.snd ++ (pairRules base head).2.2).Perm
      (head.rules.map RuleModel.number) := by
  obtain ⟨pairs, lostLeft, lostRight, run, paired, _, gained⟩ := pairRules_greedy base head
  have parts := run.right_perm.map RuleModel.number
  rw [List.map_append, List.map_map] at parts
  rw [paired, List.map_map]
  exact (gained.append_left _).trans parts

/-- Each rule of the base is paired or left over, once. -/
theorem left_nodup {base : ChainModel B} (head : ChainModel B)
    (baseOnce : (base.rules.map RuleModel.number).Nodup) :
    ((pairRules base head).1.map Prod.fst).Nodup ∧ (pairRules base head).2.1.Nodup ∧
      ∀ n ∈ (pairRules base head).1.map Prod.fst, ∀ m ∈ (pairRules base head).2.1, n ≠ m :=
  List.nodup_append.mp ((pairRules_left base head).nodup_iff.mpr baseOnce)

theorem right_nodup {head : ChainModel B} (base : ChainModel B)
    (headOnce : (head.rules.map RuleModel.number).Nodup) :
    ((pairRules base head).1.map Prod.snd).Nodup ∧ (pairRules base head).2.2.Nodup ∧
      ∀ n ∈ (pairRules base head).1.map Prod.snd, ∀ m ∈ (pairRules base head).2.2, n ≠ m :=
  List.nodup_append.mp ((pairRules_right base head).nodup_iff.mpr headOnce)

theorem pairRules_models (base head : ChainModel B) :
    ∀ pair ∈ (pairRules base head).1, ∃ r ∈ base.rules, ∃ q ∈ head.rules,
      pair = (r.number, q.number) ∧ r.contentKey = q.contentKey := by
  obtain ⟨pairs, lostLeft, lostRight, run, paired, _⟩ := pairRules_greedy base head
  rw [paired]
  intro pair member
  obtain ⟨⟨r, q⟩, modelMember, rfl⟩ := List.mem_map.mp member
  exact ⟨r, run.fst_sublist.subset (List.mem_map_of_mem modelMember), q,
    run.right_perm.subset (List.mem_append_left _ (List.mem_map_of_mem modelMember)), rfl,
    run.same_key _ modelMember⟩

/-! ### Equal rules -/

def Rule.content (rule : Rule) : Match × Action :=
  (rule.predicate, rule.action)

/-- The numbers of the rules that say the same. -/
def numbersOf (content : Match × Action) (rules : List Rule) : List Nat :=
  (rules.filter (fun rule => rule.content = content)).map Rule.number

/-- Pairs of rules with one predicate and one action, none in two pairs. -/
structure ContentMatching (old new : List Rule) (pairs : List (Nat × Nat)) : Prop where
  left : (pairs.map Prod.fst).Nodup
  right : (pairs.map Prod.snd).Nodup
  same : ∀ pair ∈ pairs, ∃ r ∈ old, ∃ q ∈ new,
    pair = (r.number, q.number) ∧ r.content = q.content

/-- A matching of a part of the old rules with a part of the new ones, equal rules
in file order, and as large as any. -/
structure BestMatching (old new : List Rule) (pairs : List (Nat × Nat)) : Prop extends
    ContentMatching old new pairs where
  fst_sublist : (pairs.map Prod.fst).Sublist (old.map Rule.number)
  snd_subperm : (pairs.map Prod.snd).Subperm (new.map Rule.number)
  inOrder : ∀ content, pairs.filter (fun pair => pair.1 ∈ numbersOf content old) =
    (numbersOf content old).zip (numbersOf content new)
  largest : ∀ other, ContentMatching old new other → other.length ≤ pairs.length

variable [ContentHasher]

/-- The model has these rules, under their numbers and keys. -/
def ChainModel.Lists (model : ChainModel B) (rules : List Rule) : Prop :=
  List.Forall₂ (fun r rule => r.number = rule.number ∧
    r.contentKey = contentKey rule.predicate rule.action) model.rules rules

/-- No two of the rules have one key and different contents. -/
def CollisionFree (rules : List Rule) : Prop :=
  ∀ r ∈ rules, ∀ q ∈ rules,
    contentKey r.predicate r.action = contentKey q.predicate q.action → r.content = q.content

theorem analyse_lists [Library HEADER_BITS B] (layout : Layout) (syms : SymbolTable)
    (chain : Chain) : (analyse layout syms chain : ChainModel B).Lists chain.rules := by
  unfold ChainModel.Lists
  rw [List.forall₂_iff_get]
  refine ⟨analyse_rules_length layout syms chain, ?_⟩
  intro i bound ruleBound
  have described := analyse_describes layout syms chain (List.getElem?_eq_getElem bound)
    (List.getElem?_eq_getElem ruleBound)
  exact ⟨described.number, described.key⟩

namespace ChainModel.Lists

variable {model : ChainModel B} {rules : List Rule}

theorem numbers (lists : model.Lists rules) :
    model.rules.map RuleModel.number = rules.map Rule.number :=
  lists.map_eq (fun _ _ same => same.1)

/-- Among rules without collisions, those of one content are those of its key. -/
theorem filter_key (lists : model.Lists rules) {shown : Rule}
    (free : ∀ r ∈ rules, contentKey r.predicate r.action =
      contentKey shown.predicate shown.action → r.content = shown.content) :
    (model.rules.filter (fun r => r.contentKey = contentKey shown.predicate shown.action)).map
      RuleModel.number = numbersOf shown.content rules := by
  apply lists.filter_map_eq
  intro r rule member same
  refine ⟨?_, same.1⟩
  rw [decide_eq_decide, same.2]
  constructor
  · exact free rule member
  · intro equal
    simp only [Rule.content, Prod.mk.injEq] at equal
    rw [equal.1, equal.2]

end ChainModel.Lists

section Best

variable {base head : ChainModel B} {old new : List Rule}

/-- A pair of numbers with equal contents is a pair of rule models with equal keys. -/
theorem exists_models (baseLists : base.Lists old) (headLists : head.Lists new)
    {pairs : List (Nat × Nat)} (matching : ContentMatching old new pairs) :
    ∃ models : List (RuleModel B × RuleModel B), models.map RuleModel.numbers = pairs ∧
      ∀ pair ∈ models, pair.1 ∈ base.rules ∧ pair.2 ∈ head.rules ∧
        pair.1.contentKey = pair.2.contentKey := by
  have each : ∀ pair ∈ pairs, ∃ model : RuleModel B × RuleModel B,
      model.1 ∈ base.rules ∧ model.2 ∈ head.rules ∧
        model.1.contentKey = model.2.contentKey ∧ RuleModel.numbers model = pair := by
    intro pair member
    obtain ⟨rule, ruleMember, other, otherMember, rfl, same⟩ := matching.same pair member
    obtain ⟨r, rMember, rNumber, rKey⟩ := baseLists.exists_left ruleMember
    obtain ⟨q, qMember, qNumber, qKey⟩ := headLists.exists_left otherMember
    simp only [Rule.content, Prod.mk.injEq] at same
    refine ⟨(r, q), rMember, qMember, ?_, Prod.ext rNumber qNumber⟩
    rw [rKey, qKey, same.1, same.2]
  obtain ⟨models, related⟩ := List.Forall₂.exists_of_forall each
  refine ⟨models, (related.flip.map_eq (f := RuleModel.numbers) (g := id)
    (fun _ _ found => found.2.2.2)).trans (List.map_id _), ?_⟩
  intro model member
  obtain ⟨pair, _, found⟩ := related.exists_left member
  exact ⟨found.1, found.2.1, found.2.2.1⟩

omit [ContentHasher] in
/-- Models with different numbers are taken from their list at most once each. -/
theorem subperm_of_numbers {α : Type} {items : List α} {side : α → RuleModel B}
    {rules : List (RuleModel B)} (once : (items.map (RuleModel.number ∘ side)).Nodup)
    (among : ∀ item ∈ items, side item ∈ rules) : (items.map side).Subperm rules := by
  apply List.subperm_of_subset
  · rw [← List.map_map] at once
    exact List.Nodup.of_map RuleModel.number once
  · intro r member
    obtain ⟨item, itemMember, rfl⟩ := List.mem_map.mp member
    exact among item itemMember

/-- The pairs of one content are those of its key. -/
theorem filter_numbers (baseLists : base.Lists old) (baseOnce : (old.map Rule.number).Nodup)
    {shown : Rule} (free : ∀ r ∈ old, contentKey r.predicate r.action =
      contentKey shown.predicate shown.action → r.content = shown.content)
    {pairs : List (RuleModel B × RuleModel B)} (among : ∀ pair ∈ pairs, pair.1 ∈ base.rules) :
    (pairs.map RuleModel.numbers).filter
        (fun pair => pair.1 ∈ numbersOf shown.content old) =
      (pairs.filter (fun pair => pair.1.contentKey =
        contentKey shown.predicate shown.action)).map RuleModel.numbers := by
  rw [List.filter_map]
  congr 1
  apply List.filter_congr
  intro pair member
  obtain ⟨rule, ruleMember, number, key⟩ := baseLists.exists_right (among pair member)
  rw [Function.comp, decide_eq_decide, key]
  constructor
  · intro inContent
    obtain ⟨other, otherMember, same⟩ := List.mem_map.mp inContent
    obtain ⟨otherListed, content⟩ := List.mem_filter.mp otherMember
    have equal := List.inj_on_of_nodup_map baseOnce otherListed ruleMember (same.trans number)
    subst equal
    simp only [Rule.content, Prod.mk.injEq, decide_eq_true_eq] at content
    rw [content.1, content.2]
  · intro sameKey
    exact List.mem_map.mpr ⟨rule, List.mem_filter.mpr
      ⟨ruleMember, decide_eq_true (free rule ruleMember sameKey)⟩, number.symm⟩

theorem pairRules_best (baseLists : base.Lists old) (headLists : head.Lists new)
    (baseOnce : (old.map Rule.number).Nodup) (headOnce : (new.map Rule.number).Nodup)
    (free : CollisionFree (old ++ new)) : BestMatching old new (pairRules base head).1 := by
  obtain ⟨pairs, lostLeft, lostRight, run, paired, _, _⟩ := pairRules_greedy base head
  have left : ((pairRules base head).1.map Prod.fst).Sublist (old.map Rule.number) := by
    rw [paired, List.map_map, ← baseLists.numbers]
    have kept := run.fst_sublist.map RuleModel.number
    rw [List.map_map] at kept
    exact kept
  have right : ((pairRules base head).1.map Prod.snd).Subperm (new.map Rule.number) := by
    rw [← headLists.numbers]
    exact (List.sublist_append_left _ _).subperm.trans (pairRules_right base head).subperm
  constructor
  · constructor
    · exact left.nodup baseOnce
    · obtain ⟨chosen, same, among⟩ := right
      exact same.nodup_iff.mp (among.nodup headOnce)
    · intro pair member
      obtain ⟨r, rMember, q, qMember, rfl, sameKey⟩ := pairRules_models base head pair member
      obtain ⟨rule, ruleMember, rNumber, rKey⟩ := baseLists.exists_right rMember
      obtain ⟨other, otherMember, qNumber, qKey⟩ := headLists.exists_right qMember
      refine ⟨rule, ruleMember, other, otherMember, Prod.ext rNumber qNumber, ?_⟩
      apply free rule (List.mem_append_left _ ruleMember) other
        (List.mem_append_right _ otherMember)
      rw [← rKey, ← qKey, sameKey]
  · exact left
  · exact right
  · intro content
    by_cases listed : ∃ shown ∈ old, shown.content = content
    · obtain ⟨shown, member, rfl⟩ := listed
      have freeOld : ∀ r ∈ old, contentKey r.predicate r.action =
          contentKey shown.predicate shown.action → r.content = shown.content :=
        fun r rMember => free r (List.mem_append_left _ rMember) shown
          (List.mem_append_left _ member)
      have freeNew : ∀ q ∈ new, contentKey q.predicate q.action =
          contentKey shown.predicate shown.action → q.content = shown.content :=
        fun q qMember => free q (List.mem_append_right _ qMember) shown
          (List.mem_append_left _ member)
      rw [paired, filter_numbers baseLists baseOnce freeOld
        (fun pair inPairs => run.fst_sublist.subset (List.mem_map_of_mem inPairs)),
        run.filter_eq_zip, ← baseLists.filter_key freeOld, ← headLists.filter_key freeNew,
        List.zip_map]
      rfl
    · -- No old rule says this, so nothing is paired for it.
      have none : numbersOf content old = [] := by
        rw [numbersOf, List.map_eq_nil_iff, List.filter_eq_nil_iff]
        intro rule member
        rw [decide_eq_true_eq]
        exact fun same => listed ⟨rule, member, same⟩
      simp [none]
  · intro other matching
    obtain ⟨models, rfl, each⟩ := exists_models baseLists headLists matching
    rw [paired, List.length_map, List.length_map]
    apply run.length_le
    · have once := matching.left
      rw [List.map_map] at once
      exact subperm_of_numbers once fun pair member => (each pair member).1
    · have once := matching.right
      rw [List.map_map] at once
      exact subperm_of_numbers once fun pair member => (each pair member).2.1
    · exact fun pair member => (each pair member).2.2

end Best

end Pairing

/-! ### The changes reported -/

section Report

/-- Removals and additions at one number become one modification, and the others
stay. -/
theorem mergeModified_eq {added removed : List Nat} (addedOnce : added.Nodup)
    (removedOnce : removed.Nodup) :
    mergeModified added removed =
      ((removed.filter (fun n => n ∈ added)).map .modified,
        removed.filter (fun n => n ∉ added), added.filter (fun n => n ∉ removed)) := by
  induction removed generalizing added with
  | nil => simp [mergeModified]
  | cons number rest ih =>
      obtain ⟨fresh, restOnce⟩ := List.nodup_cons.mp removedOnce
      rw [mergeModified]
      split
      · next both =>
          have erased {n : Nat} (member : n ∈ rest) : n ∈ added.erase number ↔ n ∈ added :=
            List.mem_erase_of_ne (fun same => fresh (same ▸ member))
          have kept : rest.filter (fun n => n ∈ added.erase number) =
              rest.filter (fun n => n ∈ added) :=
            List.filter_congr (fun n member => by rw [decide_eq_decide]; exact erased member)
          have gone : rest.filter (fun n => n ∉ added.erase number) =
              rest.filter (fun n => n ∉ added) :=
            List.filter_congr (fun n member => by
              rw [decide_eq_decide, not_iff_not]; exact erased member)
          have left : (added.erase number).filter (fun n => n ∉ rest) =
              added.filter (fun n => n ∉ number :: rest) := by
            rw [addedOnce.erase_eq_filter, List.filter_filter]
            apply List.filter_congr
            intro n _
            rw [Bool.eq_iff_iff]
            simp [and_comm]
          rw [ih (addedOnce.erase number) restOnce, kept, gone, left,
            List.filter_cons_of_pos (by simpa using both),
            List.filter_cons_of_neg (by simpa using both)]
          rfl
      · next only =>
          have left : added.filter (fun n => n ∉ rest) =
              added.filter (fun n => n ∉ number :: rest) := by
            apply List.filter_congr
            intro n member
            have other : n ≠ number := fun same => only (same ▸ member)
            simp [other]
          rw [ih addedOnce restOnce, List.filter_cons_of_neg (by simpa using only),
            List.filter_cons_of_pos (by simpa using only), left]

variable {B : Type} [Library HEADER_BITS B] {base head : ChainModel B}

/-- What is said about a pair of rules: its status, before and after. -/
theorem mem_pairChanges_iff (baseOnce : (base.rules.map RuleModel.number).Nodup)
    (headOnce : (head.rules.map RuleModel.number).Nodup) {r q : RuleModel B}
    (rMember : r ∈ base.rules) (qMember : q ∈ head.rules) (change : Structural) :
    change ∈ pairChanges base head (r.number, q.number) ↔
      (r.shadowed = false ∧ q.shadowed = true ∧
        change = .nowUnreachable q.number (head.explainShadow q.number)) ∨
      (r.shadowed = true ∧ q.shadowed = false ∧
        change = .nowReachable q.number (base.explainShadow r.number)) ∨
      (r.shadowed = false ∧ q.shadowed = false ∧ r.redundant = false ∧ q.redundant = true ∧
        change = .nowRedundant q.number) ∨
      (r.shadowed = false ∧ q.shadowed = false ∧ r.redundant = true ∧ q.redundant = false ∧
        change = .noLongerRedundant q.number) := by
  unfold pairChanges
  simp only [Matching.find?_key baseOnce rMember, Matching.find?_key headOnce qMember]
  cases r.shadowed <;> cases q.shadowed <;> cases r.redundant <;> cases q.redundant <;> simp

theorem length_pairChanges_le (baseOnce : (base.rules.map RuleModel.number).Nodup)
    (headOnce : (head.rules.map RuleModel.number).Nodup) {r q : RuleModel B}
    (rMember : r ∈ base.rules) (qMember : q ∈ head.rules) :
    (pairChanges base head (r.number, q.number)).length ≤ 1 := by
  unfold pairChanges
  simp only [Matching.find?_key baseOnce rMember, Matching.find?_key headOnce qMember]
  cases r.shadowed <;> cases q.shadowed <;> cases r.redundant <;> cases q.redundant <;> simp

/-- What a list of changes says about two models and the pairs of their rules. -/
structure StructuralReport (base head : ChainModel B) (pairs : List (Nat × Nat))
    (out : List Structural) : Prop where
  once : out.Nodup
  removed : ∀ n, .removed n ∈ out ∨ .modified n ∈ out ↔
    n ∈ base.rules.map RuleModel.number ∧ n ∉ pairs.map Prod.fst
  added : ∀ n, .added n ∈ out ∨ .modified n ∈ out ↔
    n ∈ head.rules.map RuleModel.number ∧ n ∉ pairs.map Prod.snd
  apart : ∀ n, ¬ (.removed n ∈ out ∧ .modified n ∈ out) ∧
    ¬ (.added n ∈ out ∧ .modified n ∈ out) ∧ ¬ (.added n ∈ out ∧ .removed n ∈ out)
  nowUnreachable : ∀ n covers, .nowUnreachable n covers ∈ out ↔
    ∃ r ∈ base.rules, ∃ q ∈ head.rules, (r.number, q.number) ∈ pairs ∧ n = q.number ∧
      covers = head.explainShadow n ∧ r.shadowed = false ∧ q.shadowed = true
  nowReachable : ∀ n covers, .nowReachable n covers ∈ out ↔
    ∃ r ∈ base.rules, ∃ q ∈ head.rules, (r.number, q.number) ∈ pairs ∧ n = q.number ∧
      covers = base.explainShadow r.number ∧ r.shadowed = true ∧ q.shadowed = false
  nowRedundant : ∀ n, .nowRedundant n ∈ out ↔
    ∃ r ∈ base.rules, ∃ q ∈ head.rules, (r.number, q.number) ∈ pairs ∧ n = q.number ∧
      r.shadowed = false ∧ q.shadowed = false ∧ r.redundant = false ∧ q.redundant = true
  noLongerRedundant : ∀ n, .noLongerRedundant n ∈ out ↔
    ∃ r ∈ base.rules, ∃ q ∈ head.rules, (r.number, q.number) ∈ pairs ∧ n = q.number ∧
      r.shadowed = false ∧ q.shadowed = false ∧ r.redundant = true ∧ q.redundant = false

/-- The changes of the pairs, then those of the rules without a partner. -/
theorem structuralChanges_perm (addedOnce : (pairRules base head).2.2.Nodup)
    (removedOnce : (pairRules base head).2.1.Nodup) :
    let removed := (pairRules base head).2.1
    let added := (pairRules base head).2.2
    (structuralChanges base head).Perm
      ((pairRules base head).1.flatMap (pairChanges base head) ++
        (removed.filter (fun n => n ∈ added)).map .modified ++
        (removed.filter (fun n => n ∉ added)).map .removed ++
        (added.filter (fun n => n ∉ removed)).map .added) := by
  intro removed added
  unfold structuralChanges
  simp only [mergeModified_eq addedOnce removedOnce]
  exact List.perm_insertionSort _ _

/-- What is said about the pairs. -/
theorem exists_pairChanges_iff (change : Structural) :
    (∃ pair ∈ (pairRules base head).1, change ∈ pairChanges base head pair) ↔
      ∃ r ∈ base.rules, ∃ q ∈ head.rules, (r.number, q.number) ∈ (pairRules base head).1 ∧
        change ∈ pairChanges base head (r.number, q.number) := by
  constructor
  · intro found
    obtain ⟨pair, member, said⟩ := found
    obtain ⟨r, rMember, q, qMember, rfl, _⟩ := pairRules_models base head pair member
    exact ⟨r, rMember, q, qMember, member, said⟩
  · intro found
    obtain ⟨r, _, q, _, member, said⟩ := found
    exact ⟨_, member, said⟩

section Changes

variable (baseOnce : (base.rules.map RuleModel.number).Nodup)
  (headOnce : (head.rules.map RuleModel.number).Nodup)

include baseOnce headOnce

theorem mem_structuralChanges_iff (change : Structural) :
    change ∈ structuralChanges base head ↔
      (∃ pair ∈ (pairRules base head).1, change ∈ pairChanges base head pair) ∨
      (∃ n ∈ (pairRules base head).2.1, n ∈ (pairRules base head).2.2 ∧ change = .modified n) ∨
      (∃ n ∈ (pairRules base head).2.1, n ∉ (pairRules base head).2.2 ∧ change = .removed n) ∨
      (∃ n ∈ (pairRules base head).2.2, n ∉ (pairRules base head).2.1 ∧ change = .added n) := by
  have removedOnce := (left_nodup head baseOnce).2.1
  have addedOnce := (right_nodup base headOnce).2.1
  rw [(structuralChanges_perm addedOnce removedOnce).mem_iff]
  simp only [List.mem_append, List.mem_flatMap, List.mem_map, List.mem_filter,
    decide_eq_true_eq, or_assoc, and_assoc, @eq_comm _ _ change]

/-- A change said of a pair is one of the four statuses, under the number of the head
rule. -/
theorem number_of_pairChanges {pair : Nat × Nat} (member : pair ∈ (pairRules base head).1)
    {change : Structural} (said : change ∈ pairChanges base head pair) :
    change.number = pair.2 ∧ ∀ n, change ≠ .modified n ∧ change ≠ .removed n ∧
      change ≠ .added n := by
  obtain ⟨r, rMember, q, qMember, rfl, _⟩ := pairRules_models base head pair member
  rw [mem_pairChanges_iff baseOnce headOnce rMember qMember] at said
  rcases said with ⟨_, _, rfl⟩ | ⟨_, _, rfl⟩ | ⟨_, _, _, _, rfl⟩ | ⟨_, _, _, _, rfl⟩ <;>
    exact ⟨rfl, fun n => by simp⟩

theorem nodup_flatMap_pairChanges :
    ((pairRules base head).1.flatMap (pairChanges base head)).Nodup := by
  rw [List.nodup_flatMap]
  constructor
  · intro pair member
    obtain ⟨r, rMember, q, qMember, rfl, _⟩ := pairRules_models base head pair member
    have short := length_pairChanges_le baseOnce headOnce rMember qMember
    match pairChanges base head (r.number, q.number), short with
    | [], _ => exact List.nodup_nil
    | [only], _ => exact List.nodup_singleton only
  · -- Changes of two pairs have different numbers.
    have seconds := (right_nodup base headOnce).1
    apply (List.pairwise_map.mp seconds).imp_of_mem
    intro pair other member otherMember different change said saidToo
    exact different ((number_of_pairChanges baseOnce headOnce member said).1.symm.trans
      (number_of_pairChanges baseOnce headOnce otherMember saidToo).1)

theorem nodup_structuralChanges : (structuralChanges base head).Nodup := by
  have removedOnce := (left_nodup head baseOnce).2.1
  have addedOnce := (right_nodup base headOnce).2.1
  rw [(structuralChanges_perm addedOnce removedOnce).nodup_iff]
  have statuses {change : Structural}
      (said : change ∈ (pairRules base head).1.flatMap (pairChanges base head)) (n : Nat) :
      change ≠ .modified n ∧ change ≠ .removed n ∧ change ≠ .added n := by
    obtain ⟨pair, member, here⟩ := List.mem_flatMap.mp said
    exact (number_of_pairChanges baseOnce headOnce member here).2 n
  have modifiedOnce := (removedOnce.filter (fun n => n ∈ (pairRules base head).2.2)).map
    (f := Structural.modified) (fun _ _ => Structural.modified.inj)
  have removedLeft := (removedOnce.filter (fun n => n ∉ (pairRules base head).2.2)).map
    (f := Structural.removed) (fun _ _ => Structural.removed.inj)
  have addedLeft := (addedOnce.filter (fun n => n ∉ (pairRules base head).2.1)).map
    (f := Structural.added) (fun _ _ => Structural.added.inj)
  rw [List.nodup_append, List.nodup_append, List.nodup_append]
  refine ⟨⟨⟨nodup_flatMap_pairChanges baseOnce headOnce, modifiedOnce, ?_⟩, removedLeft, ?_⟩,
    addedLeft, ?_⟩
  · intro change said other member
    obtain ⟨n, _, rfl⟩ := List.mem_map.mp member
    exact (statuses said n).1
  · intro change member other otherMember
    obtain ⟨n, _, rfl⟩ := List.mem_map.mp otherMember
    rcases List.mem_append.mp member with said | modified
    · exact (statuses said n).2.1
    · obtain ⟨m, _, rfl⟩ := List.mem_map.mp modified
      simp
  · intro change member other otherMember
    obtain ⟨n, _, rfl⟩ := List.mem_map.mp otherMember
    rcases List.mem_append.mp member with earlier | removed
    · rcases List.mem_append.mp earlier with said | modified
      · exact (statuses said n).2.2
      · obtain ⟨m, _, rfl⟩ := List.mem_map.mp modified
        simp
    · obtain ⟨m, _, rfl⟩ := List.mem_map.mp removed
      simp

theorem modified_mem_iff (n : Nat) : .modified n ∈ structuralChanges base head ↔
    n ∈ (pairRules base head).2.1 ∧ n ∈ (pairRules base head).2.2 := by
  rw [mem_structuralChanges_iff baseOnce headOnce]
  have noPair : ¬ ∃ pair ∈ (pairRules base head).1, .modified n ∈ pairChanges base head pair :=
    fun ⟨_, member, said⟩ =>
      ((number_of_pairChanges baseOnce headOnce member said).2 n).1 rfl
  simp [noPair]

theorem removed_mem_iff (n : Nat) : .removed n ∈ structuralChanges base head ↔
    n ∈ (pairRules base head).2.1 ∧ n ∉ (pairRules base head).2.2 := by
  rw [mem_structuralChanges_iff baseOnce headOnce]
  have noPair : ¬ ∃ pair ∈ (pairRules base head).1, .removed n ∈ pairChanges base head pair :=
    fun ⟨_, member, said⟩ =>
      ((number_of_pairChanges baseOnce headOnce member said).2 n).2.1 rfl
  simp [noPair]

theorem added_mem_iff (n : Nat) : .added n ∈ structuralChanges base head ↔
    n ∈ (pairRules base head).2.2 ∧ n ∉ (pairRules base head).2.1 := by
  rw [mem_structuralChanges_iff baseOnce headOnce]
  have noPair : ¬ ∃ pair ∈ (pairRules base head).1, .added n ∈ pairChanges base head pair :=
    fun ⟨_, member, said⟩ =>
      ((number_of_pairChanges baseOnce headOnce member said).2 n).2.2 rfl
  simp [noPair]

/-- A change that is neither an addition, a removal nor a modification is said of a
pair. -/
theorem status_mem_iff {change : Structural}
    (status : ∀ n, change ≠ .modified n ∧ change ≠ .removed n ∧ change ≠ .added n)
    {differs : RuleModel B → RuleModel B → Prop}
    (meaning : ∀ r ∈ base.rules, ∀ q ∈ head.rules,
      (change ∈ pairChanges base head (r.number, q.number) ↔ differs r q)) :
    change ∈ structuralChanges base head ↔
      ∃ r ∈ base.rules, ∃ q ∈ head.rules, (r.number, q.number) ∈ (pairRules base head).1 ∧
        differs r q := by
  rw [mem_structuralChanges_iff baseOnce headOnce, exists_pairChanges_iff]
  simp only [status, and_false, exists_false, or_false]
  constructor
  · intro found
    obtain ⟨r, rMember, q, qMember, matched, said⟩ := found
    exact ⟨r, rMember, q, qMember, matched, (meaning r rMember q qMember).mp said⟩
  · intro found
    obtain ⟨r, rMember, q, qMember, matched, said⟩ := found
    exact ⟨r, rMember, q, qMember, matched, (meaning r rMember q qMember).mpr said⟩

/-- Each rule without a partner is reported once, and each pair whose status differs. -/
theorem structuralChanges_report :
    StructuralReport base head (pairRules base head).1 (structuralChanges base head) where
  once := nodup_structuralChanges baseOnce headOnce
  removed n := by
    have apart := (left_nodup head baseOnce).2.2
    rw [removed_mem_iff baseOnce headOnce, modified_mem_iff baseOnce headOnce,
      ← (pairRules_left base head).mem_iff, List.mem_append]
    have clear : n ∈ (pairRules base head).2.1 → n ∉ (pairRules base head).1.map Prod.fst :=
      fun lost matched => apart n matched n lost rfl
    tauto
  added n := by
    have apart := (right_nodup base headOnce).2.2
    rw [added_mem_iff baseOnce headOnce, modified_mem_iff baseOnce headOnce,
      ← (pairRules_right base head).mem_iff, List.mem_append]
    have clear : n ∈ (pairRules base head).2.2 → n ∉ (pairRules base head).1.map Prod.snd :=
      fun lost matched => apart n matched n lost rfl
    tauto
  apart n := by
    rw [removed_mem_iff baseOnce headOnce, modified_mem_iff baseOnce headOnce,
      added_mem_iff baseOnce headOnce]
    tauto
  nowUnreachable n covers := by
    apply status_mem_iff baseOnce headOnce (by simp)
    intro r rMember q qMember
    rw [mem_pairChanges_iff baseOnce headOnce rMember qMember]
    simp only [Structural.nowUnreachable.injEq, reduceCtorEq, and_false, or_false]
    constructor
    · rintro ⟨before, after, rfl, rfl⟩
      exact ⟨rfl, rfl, before, after⟩
    · rintro ⟨rfl, rfl, before, after⟩
      exact ⟨before, after, rfl, rfl⟩
  nowReachable n covers := by
    apply status_mem_iff baseOnce headOnce (by simp)
    intro r rMember q qMember
    rw [mem_pairChanges_iff baseOnce headOnce rMember qMember]
    simp only [Structural.nowReachable.injEq, reduceCtorEq, and_false, or_false, false_or]
    tauto
  nowRedundant n := by
    apply status_mem_iff baseOnce headOnce (by simp)
    intro r rMember q qMember
    rw [mem_pairChanges_iff baseOnce headOnce rMember qMember]
    simp only [Structural.nowRedundant.injEq, reduceCtorEq, and_false, or_false, false_or]
    tauto
  noLongerRedundant n := by
    apply status_mem_iff baseOnce headOnce (by simp)
    intro r rMember q qMember
    rw [mem_pairChanges_iff baseOnce headOnce rMember qMember]
    simp only [Structural.noLongerRedundant.injEq, reduceCtorEq, and_false, false_or]
    tauto

end Changes

/-- Rules with one predicate and one action are paired in file order, as many as can
be.  Each of the others is reported once, and of the pairs those whose status
differs, and nothing else. -/
theorem structural_reporting_exact [ContentHasher] {old new : List Rule}
    (baseLists : base.Lists old) (headLists : head.Lists new)
    (baseOnce : (old.map Rule.number).Nodup) (headOnce : (new.map Rule.number).Nodup)
    (free : CollisionFree (old ++ new)) :
    BestMatching old new (pairRules base head).1 ∧
      StructuralReport base head (pairRules base head).1 (structuralChanges base head) :=
  ⟨pairRules_best baseLists headLists baseOnce headOnce free,
    structuralChanges_report (baseLists.numbers ▸ baseOnce) (headLists.numbers ▸ headOnce)⟩

/-- A rule keeps its partner when another one is inserted before it. -/
theorem inserted_rule_keeps_partner :
    letI : ContentHasher := ⟨fun _ action => if action = .accept then 1 else 0⟩
    let old := (Chain.new "input" .input .drop).push Match.any .accept ⟨"f", 1, 1, "accept"⟩
    let new := ((Chain.new "input" .input .drop).push Match.any .drop ⟨"f", 1, 1, "drop"⟩).push
      Match.any .accept ⟨"f", 2, 1, "accept"⟩
    [(1, 2)].length ≤ (pairRules
      (analyse ⟨.fieldMajor⟩ .empty old : ChainModel (Diagram HEADER_BITS))
      (analyse ⟨.fieldMajor⟩ .empty new)).1.length := by
  let _ : ContentHasher := ⟨fun _ action => if action = .accept then 1 else 0⟩
  intro old new
  refine (structural_reporting_exact (analyse_lists ⟨.fieldMajor⟩ .empty old)
    (analyse_lists ⟨.fieldMajor⟩ .empty new) (by decide) (by decide) ?_).1.largest [(1, 2)] ?_
  · unfold CollisionFree
    decide
  · exact ⟨by decide, by decide, by decide⟩

end Report

end Fwdelta
