import Fwdelta.Engine.Accept

/-
Deleting rules from a chain.

A redundant rule rules on every packet it decides as the rest of the chain would,
so that deleting it leaves the accept set.  A shadowed rule decides no packet, so
that any number of them can be deleted at once.
-/

namespace Fwdelta

open DecisionDiagram
open DecisionDiagram.Library

/-- What is left of a chain when only the rules at some positions are kept.  The
numbers and origins of what is left are free. -/
structure Chain.Remains (chain : Chain) (kept : List Nat) (shorter : Chain) : Prop where
  policy : shorter.policy = chain.policy
  rules : List.Forall₂ (fun i rule => ∃ original, chain.rules[i]? = some original ∧
    rule.predicate = original.predicate ∧ rule.action = original.action) kept shorter.rules

namespace Chain

theorem Remains.predicates {chain shorter : Chain} {kept : List Nat}
    (remains : chain.Remains kept shorter) (syms : SymbolTable) :
    List.Forall₂ (fun i predicate => (chain.predicates syms)[i]? = some predicate) kept
      (shorter.predicates syms) := by
  unfold Chain.predicates
  rw [List.forall₂_map_right_iff]
  apply remains.rules.imp
  intro i rule kept
  obtain ⟨original, at_, predicate, _⟩ := kept
  rw [List.getElem?_map, at_, Option.map_some, predicate]

theorem Remains.rulings {chain shorter : Chain} {kept : List Nat}
    (remains : chain.Remains kept shorter) (syms : SymbolTable) :
    List.Forall₂ (fun i ruling => (chain.rulings syms)[i]? = some ruling) kept
      (shorter.rulings syms) := by
  unfold Chain.rulings
  rw [List.forall₂_map_right_iff]
  apply remains.rules.imp
  intro i rule kept
  obtain ⟨original, at_, predicate, action⟩ := kept
  rw [List.getElem?_map, at_, Option.map_some, predicate, action]

/-- When the deciding rule is kept, it decides what is left, and as before. -/
theorem Remains.decides_alike {chain shorter : Chain} {kept : List Nat}
    (remains : chain.Remains kept shorter) (ordered : kept.Pairwise (· < ·))
    {syms : SymbolTable} {p : Packet}
    (decides : ∀ i, FirstMatch.decider (chain.predicates syms) p = some i → i ∈ kept) :
    (FirstMatch.decider (shorter.predicates syms) p).bind (fun k => kept[k]?) =
        FirstMatch.decider (chain.predicates syms) p ∧
      shorter.verdict syms p = chain.verdict syms p := by
  have positions := FirstMatch.decider_of_kept (remains.predicates syms) ordered decides
  refine ⟨positions, ?_⟩
  unfold Chain.verdict
  rw [decidingRule_eq_getElem?, decidingRule_eq_getElem?, ← positions]
  cases found : FirstMatch.decider (shorter.predicates syms) p with
  | none => exact remains.policy
  | some k =>
      simp only [Option.bind_some]
      have here := remains.rules.getElem?_rel k
      obtain ⟨bound, _⟩ := List.findIdx?_eq_some_iff_getElem.mp found
      rw [Chain.predicates, List.length_map] at bound
      rw [List.getElem?_eq_getElem bound] at here ⊢
      cases keptAt : kept[k]? with
      | none =>
          rw [keptAt] at here
          contradiction
      | some i =>
          rw [keptAt] at here
          cases here with
          | some related =>
              obtain ⟨original, at_, _, action⟩ := related
              simp only [Option.bind_some, at_]
              exact action

end Chain

section Shadowed

variable {B : Type} [Library HEADER_BITS B] [ContentHasher]

theorem shadowed_iff_never_decides (layout : Layout) (syms : SymbolTable) (chain : Chain)
    {i : Nat} {r : RuleModel B}
    (at_ : (analyse layout syms chain : ChainModel B).rules[i]? = some r) :
    r.shadowed = true ↔ ∀ p, FirstMatch.decider (chain.predicates syms) p ≠ some i := by
  obtain ⟨_, _, describes⟩ := exists_described layout syms chain at_
  rw [describes.shadowed, layout.isFalse_iff_mem]
  simp only [describes.effective, decide_eq_false_iff_not, ne_eq]

/-- The positions left when the dead ones are deleted. -/
def Chain.alive (chain : Chain) (dead : Nat → Bool) : List Nat :=
  (List.range chain.rules.length).filter (fun i => !dead i)

/-- Shadowed rules are those that decide no packet, and any number of them can be
deleted at once: every packet keeps its verdict and its deciding rule. -/
theorem shadowed_rules_deletable (layout : Layout) (syms : SymbolTable) (chain : Chain) :
    (∀ i r, (analyse layout syms chain : ChainModel B).rules[i]? = some r →
      (r.shadowed = true ↔ ∀ p, FirstMatch.decider (chain.predicates syms) p ≠ some i)) ∧
    ∀ (dead : Nat → Bool) (shorter : Chain), chain.Remains (chain.alive dead) shorter →
      (∀ i r, dead i = true → (analyse layout syms chain : ChainModel B).rules[i]? = some r →
        r.shadowed = true) →
      ∀ p, shorter.verdict syms p = chain.verdict syms p ∧
        (FirstMatch.decider (shorter.predicates syms) p).bind (fun k => (chain.alive dead)[k]?) =
          FirstMatch.decider (chain.predicates syms) p := by
  refine ⟨fun i r at_ => shadowed_iff_never_decides layout syms chain at_, ?_⟩
  intro dead shorter remains shadowed p
  have ordered : (chain.alive dead).Pairwise (· < ·) := List.pairwise_lt_range.filter _
  have decides (i : Nat) (found : FirstMatch.decider (chain.predicates syms) p = some i) :
      i ∈ chain.alive dead := by
    obtain ⟨bound, _⟩ := List.findIdx?_eq_some_iff_getElem.mp found
    rw [Chain.predicates, List.length_map] at bound
    rw [Chain.alive, List.mem_filter, List.mem_range, Bool.not_eq_true']
    refine ⟨bound, ?_⟩
    by_contra deleted
    rw [← analyse_rules_length (B := B) layout syms chain] at bound
    have modelAt := List.getElem?_eq_getElem bound
    have never := (shadowed_iff_never_decides layout syms chain modelAt).mp
      (shadowed i _ (by simpa using deleted) modelAt)
    exact never p found
  have alike := remains.decides_alike ordered decides
  exact ⟨alike.2, alike.1⟩

end Shadowed

section Redundant

variable {B : Type} [Library HEADER_BITS B]

/-- The flag of the backward pass compares what a rule decides with the accept set
of the rules after it. -/
theorem analyseBackward_redundant (layout : Layout) (policyAccept : B)
    (rules : List (RuleModel B)) {i : Nat} {r : RuleModel B}
    (at_ : (analyseBackward policyAccept rules).1[i]? = some r) :
    r.redundant = true ↔ ∀ p, layout.mem r.effective p = true →
      r.action.permits =
        layout.mem (analyseBackward policyAccept (rules.drop (i + 1))).2 p := by
  induction rules generalizing i with
  | nil => contradiction
  | cons first rest ih =>
      cases i with
      | succ i => exact ih at_
      | zero =>
          simp only [analyseBackward, List.getElem?_cons_zero, Option.some.injEq] at at_
          subst at_
          simp only [Nat.zero_add, List.drop_succ_cons, List.drop_zero]
          cases permits : first.action.permits with
          | true =>
              rw [if_pos rfl, layout.isFalse_iff_mem]
              apply forall_congr'
              intro p
              rw [layout.mem_andNot]
              cases layout.mem first.effective p <;> simp
          | false =>
              rw [if_neg (by simp), layout.isFalse_iff_mem]
              apply forall_congr'
              intro p
              rw [layout.mem_and]
              cases layout.mem first.effective p <;> simp

variable [ContentHasher]

theorem analyse_redundant_iff (layout : Layout) (syms : SymbolTable) (chain : Chain)
    {i : Nat} {r : RuleModel B} {rule : Rule}
    (at_ : (analyse layout syms chain : ChainModel B).rules[i]? = some r)
    (ruleAt : chain.rules[i]? = some rule) :
    r.redundant = true ↔ ∀ p, FirstMatch.decider (chain.predicates syms) p = some i →
      rule.action.permits =
        FirstMatch.verdict chain.policy.permits ((chain.rulings syms).drop (i + 1)) p := by
  have describes := analyse_describes layout syms chain at_ ruleAt
  rw [analyseBackward_redundant layout _ _ at_, describes.action]
  apply forall_congr'
  intro p
  have start : layout.mem (if chain.policy.permits then Layout.tt else (Layout.ff : B)) p =
      chain.policy.permits := by
    cases chain.policy.permits <;> simp
  rw [describes.effective, decide_eq_true_eq,
    analyseBackward_accept layout _ chain.policy.permits _ p start, List.map_drop,
    rulings_analyseForward, FirstMatch.suffixAccept_eq_verdict]

omit [Library HEADER_BITS B] [ContentHasher] in
theorem Chain.Remains.rulings_eraseIdx {chain shorter : Chain} {i : Nat}
    (remains : chain.Remains ((List.range chain.rules.length).eraseIdx i) shorter)
    (syms : SymbolTable) :
    shorter.rulings syms = (chain.rulings syms).eraseIdx i := by
  have position (k : Nat) : (List.range chain.rules.length)[k]?.bind
      (fun k => (chain.rulings syms)[k]?) = (chain.rulings syms)[k]? := by
    have length : (chain.rulings syms).length = chain.rules.length := List.length_map _
    by_cases inside : k < chain.rules.length
    · rw [List.getElem?_range inside, Option.bind_some]
    · rw [List.getElem?_eq_none (by simpa using inside), Option.bind_none,
        List.getElem?_eq_none (by omega)]
  apply List.ext_getElem?
  intro j
  rw [(remains.rulings syms).getElem?_of_listed j, List.getElem?_eraseIdx,
    List.getElem?_eraseIdx]
  split
  · exact position j
  · exact position (j + 1)

/-- A rule is redundant exactly when without it the same packets are permitted. -/
theorem redundant_iff_permits (layout : Layout) (syms : SymbolTable) {chain shorter : Chain}
    {i : Nat} {r : RuleModel B}
    (at_ : (analyse layout syms chain : ChainModel B).rules[i]? = some r)
    (remains : chain.Remains ((List.range chain.rules.length).eraseIdx i) shorter) :
    r.redundant = true ↔
      ∀ p, (shorter.verdict syms p).permits = (chain.verdict syms p).permits := by
  obtain ⟨bound, _⟩ := List.getElem?_eq_some_iff.mp at_
  rw [analyse_rules_length] at bound
  have ruleAt := List.getElem?_eq_getElem bound
  let ruling : FirstMatch.Ruling Packet :=
    ⟨fun p => chain.rules[i].predicate.holdsAt syms p.value, chain.rules[i].action.permits⟩
  have length : (chain.rulings syms).length = chain.rules.length := List.length_map _
  have whole : chain.rulings syms =
      (chain.rulings syms).take i ++ ruling :: (chain.rulings syms).drop (i + 1) := by
    have inRange : i < (chain.rulings syms).length := by omega
    have here : (chain.rulings syms)[i] = ruling := List.getElem_map _
    rw [← here, ← List.drop_eq_getElem_cons, List.take_append_drop]
  have rest : shorter.rulings syms =
      (chain.rulings syms).take i ++ (chain.rulings syms).drop (i + 1) := by
    rw [remains.rulings_eraseIdx, List.eraseIdx_eq_take_drop_succ]
  have decides (p : Packet) : FirstMatch.decider (chain.predicates syms) p = some i ↔
      (∀ earlier ∈ (chain.rulings syms).take i, earlier.holds p = false) ∧
        ruling.holds p = true := by
    have listed : chain.predicates syms = (chain.rulings syms).map FirstMatch.Ruling.holds := by
      rw [Chain.rulings, List.map_map]
      rfl
    have position : ((chain.rulings syms).take i).length = i := by
      rw [List.length_take, length]
      omega
    have decided := FirstMatch.decider_eq_some_iff ((chain.rulings syms).take i) ruling
      ((chain.rulings syms).drop (i + 1)) p
    rwa [← whole, ← listed, position] at decided
  have deleted := FirstMatch.verdict_delete_iff chain.policy.permits
    ((chain.rulings syms).take i) ruling ((chain.rulings syms).drop (i + 1))
  rw [← rest, ← whole] at deleted
  simp only [Chain.verdict_permits, remains.policy]
  rw [deleted, analyse_redundant_iff layout syms chain at_ ruleAt]
  apply forall_congr'
  intro p
  rw [decides, and_imp]

/-- A rule is redundant exactly when deleting it leaves the accept set. -/
theorem redundant_iff_deletable (layout : Layout) (syms : SymbolTable) {chain shorter : Chain}
    {i : Nat} {r : RuleModel B}
    (at_ : (analyse layout syms chain : ChainModel B).rules[i]? = some r)
    (remains : chain.Remains ((List.range chain.rules.length).eraseIdx i) shorter) :
    r.redundant = true ↔
      (analyse layout syms shorter : ChainModel B).accept = (analyse layout syms chain).accept := by
  rw [redundant_iff_permits layout syms at_ remains, layout.eq_iff_mem]
  apply forall_congr'
  intro p
  rw [mem_accept, mem_accept]

end Redundant

/-! ### A rule stated twice -/

def statedOnce : Chain :=
  (Chain.new "input" .input .drop).push Match.any .accept ⟨"a.nft", 1, 1, "accept"⟩

def statedTwice : Chain :=
  statedOnce.push Match.any .accept ⟨"a.nft", 2, 1, "accept"⟩

theorem statedTwice_remains_first : statedTwice.Remains ((List.range 2).eraseIdx 0) statedOnce where
  policy := rfl
  rules := .cons ⟨_, rfl, rfl, rfl⟩ .nil

theorem statedTwice_remains_second :
    statedTwice.Remains (statedTwice.alive (fun i => i == 1)) statedOnce where
  policy := rfl
  rules := .cons ⟨_, rfl, rfl, rfl⟩ .nil

theorem first_statement_decides (p : Packet) :
    FirstMatch.decider (statedTwice.predicates .empty) p = some 0 := by
  have all : Match.any.holdsAt .empty p.value = true :=
    (Match.holdsAt_iff _ _ _).mpr ((Match.contains_iff _ _ _).mpr
      ⟨Match.containsHeader_any p, by
        simp only [Match.any, IfMatch.resolve, IntervalSet.contains_full]
        exact ⟨p.value_le_domainMax .ifIn, p.value_le_domainMax .ifOut⟩⟩)
  exact List.findIdx?_cons.trans (if_pos all)

/-- The first of the two statements is redundant: deleting it changes nothing. -/
theorem first_statement_redundant : letI : ContentHasher := ⟨fun _ _ => 0⟩
    ∃ r, (analyse ⟨.fieldMajor⟩ .empty statedTwice :
        ChainModel (Diagram HEADER_BITS)).rules[0]? = some r ∧
      (r.redundant = true ↔
        (analyse ⟨.fieldMajor⟩ .empty statedOnce : ChainModel (Diagram HEADER_BITS)).accept =
          (analyse ⟨.fieldMajor⟩ .empty statedTwice).accept) := by
  let _ : ContentHasher := ⟨fun _ _ => 0⟩
  have length := analyse_rules_length (B := Diagram HEADER_BITS) ⟨.fieldMajor⟩ .empty statedTwice
  have at_ := List.getElem?_eq_getElem (show 0 < (analyse ⟨.fieldMajor⟩ .empty statedTwice :
    ChainModel (Diagram HEADER_BITS)).rules.length by rw [length]; decide)
  exact ⟨_, at_, redundant_iff_deletable _ _ at_ statedTwice_remains_first⟩

/-- The second one is shadowed, and deleting it keeps every verdict. -/
theorem second_statement_deletable : letI : ContentHasher := ⟨fun _ _ => 0⟩
    statedOnce.verdict .empty ⟨0, 0, 0, 0, 0, 0, 0⟩ =
      statedTwice.verdict .empty ⟨0, 0, 0, 0, 0, 0, 0⟩ := by
  let _ : ContentHasher := ⟨fun _ _ => 0⟩
  obtain ⟨shadowed, deletable⟩ :=
    shadowed_rules_deletable (B := Diagram HEADER_BITS) ⟨.fieldMajor⟩ .empty statedTwice
  refine (deletable _ statedOnce statedTwice_remains_second ?_ ⟨0, 0, 0, 0, 0, 0, 0⟩).1
  intro i r second at_
  rw [shadowed i r at_, beq_iff_eq.mp second]
  intro p
  rw [first_statement_decides]
  simp

end Fwdelta
