import Fwdelta.Engine.Diff

/-
Inserting one rule into a chain.

Only packets that the inserted rule decides can get another verdict.  So the delta
goes one way only, and each of its cells names the inserted rule on one side, and
a rule that used to be at or after its place, or the policy, on the other.
-/

namespace Fwdelta

open DecisionDiagram
open DecisionDiagram.Library

namespace Chain

def pushAll (chain : Chain) (rules : List (Match × Action × Origin)) : Chain :=
  rules.foldl (fun chain rule => chain.push rule.1 rule.2.1 rule.2.2) chain

/-- The chain with one more rule at a position, and the later rules renumbered. -/
def insertRule (chain : Chain) (position : Nat) (predicate : Match) (action : Action)
    (origin : Origin) : Chain :=
  let rules := chain.rules.map (fun rule => (rule.predicate, rule.action, rule.origin))
  (Chain.new chain.name chain.hook chain.policy).pushAll
    (rules.take position ++ (predicate, action, origin) :: rules.drop position)

theorem policy_pushAll (chain : Chain) (rules : List (Match × Action × Origin)) :
    (chain.pushAll rules).policy = chain.policy := by
  induction rules generalizing chain with
  | nil => rfl
  | cons rule rest ih => exact ih (chain.push rule.1 rule.2.1 rule.2.2)

theorem built_pushAll {chain : Chain} (built : chain.Built)
    (rules : List (Match × Action × Origin)) : (chain.pushAll rules).Built := by
  induction rules generalizing chain with
  | nil => exact built
  | cons rule rest ih => exact ih (built.push rule.1 rule.2.1 rule.2.2)

/-- What a rule says of a packet. -/
def rulingOf (syms : SymbolTable) (predicate : Match) (action : Action) :
    FirstMatch.Ruling Packet :=
  ⟨fun p => predicate.holdsAt syms p.value, action.permits⟩

theorem rules_pushAll (chain : Chain) (rules : List (Match × Action × Origin)) :
    (chain.pushAll rules).rules = chain.rules ++ rules.mapIdx (fun i rule =>
      { number := chain.rules.length + i + 1, predicate := rule.1, action := rule.2.1,
        origin := rule.2.2 }) := by
  induction rules generalizing chain with
  | nil => simp [pushAll]
  | cons rule rest ih =>
      rw [pushAll, List.foldl_cons]
      apply (ih _).trans
      rw [List.mapIdx_cons, push, List.length_append, List.append_assoc, List.singleton_append]
      have next (i : Nat) : chain.rules.length + 1 + i + 1 = chain.rules.length + (i + 1) + 1 := by
        omega
      simp only [List.length_singleton, Nat.add_zero, next]

theorem rulings_pushAll (chain : Chain) (syms : SymbolTable)
    (rules : List (Match × Action × Origin)) :
    (chain.pushAll rules).rulings syms =
      chain.rulings syms ++ rules.map (fun rule => rulingOf syms rule.1 rule.2.1) := by
  rw [rulings, rules_pushAll, List.map_append, rulings]
  congr 1
  apply List.ext_getElem
  · simp
  · intro i _ _
    simp [rulingOf]

theorem rulings_insertRule (chain : Chain) (syms : SymbolTable) (position : Nat)
    (predicate : Match) (action : Action) (origin : Origin) :
    (chain.insertRule position predicate action origin).rulings syms =
      (chain.rulings syms).take position ++
        rulingOf syms predicate action :: (chain.rulings syms).drop position := by
  rw [insertRule, rulings_pushAll]
  simp [rulings, new, rulingOf, Function.comp_def]

theorem insertRule_at (chain : Chain) {position : Nat} (inside : position ≤ chain.rules.length)
    (predicate : Match) (action : Action) (origin : Origin) :
    (chain.insertRule position predicate action origin).rules[position]? =
      some { number := position + 1, predicate := predicate, action := action,
             origin := origin } := by
  have length : ((chain.rules.map (fun rule => (rule.predicate, rule.action, rule.origin))).take
      position).length = position := by
    rw [List.length_take, List.length_map]
    omega
  rw [insertRule, rules_pushAll]
  simp only [new, List.nil_append, List.length_nil, Nat.zero_add, List.getElem?_mapIdx]
  rw [List.getElem?_append_right (by omega), length, Nat.sub_self]
  rfl

theorem built_insertRule (chain : Chain) (position : Nat) (predicate : Match) (action : Action)
    (origin : Origin) : (chain.insertRule position predicate action origin).Built :=
  built_pushAll (.new _ _ _) _

theorem predicates_eq_map_holds (chain : Chain) (syms : SymbolTable) :
    chain.predicates syms = (chain.rulings syms).map FirstMatch.Ruling.holds := by
  rw [rulings, List.map_map]
  rfl

/-- The rule that decides a packet, where its number says its position. -/
theorem Built.decider_eq_of_position {chain : Chain} (built : chain.Built) {syms : SymbolTable}
    {p : Packet} {i : Nat} (decides : FirstMatch.decider (chain.predicates syms) p = some i) :
    chain.decider syms p = .rule (i + 1) := by
  obtain ⟨bound, _⟩ := List.findIdx?_eq_some_iff_getElem.mp decides
  rw [predicates, List.length_map] at bound
  have at_ := List.getElem?_eq_getElem bound
  rw [← built.number_at at_]
  exact (built.decider_eq_rule_iff syms at_ p).mpr decides

/-- A packet that gets another verdict is decided by the inserted rule, and was
decided at or after its place. -/
theorem insertRule_decides {chain : Chain} (built : chain.Built) (syms : SymbolTable)
    {position : Nat} (inside : position ≤ chain.rules.length) (predicate : Match)
    (action : Action) (origin : Origin) {p : Packet}
    (differ : ((chain.insertRule position predicate action origin).verdict syms p).permits ≠
      (chain.verdict syms p).permits) :
    ((chain.insertRule position predicate action origin).verdict syms p).permits =
        action.permits ∧
      (chain.insertRule position predicate action origin).decider syms p =
        .rule (position + 1) ∧
      (chain.decider syms p = .policy ∨
        ∃ rule ∈ chain.rules, position < rule.number ∧
          chain.decider syms p = .rule rule.number) := by
  have policy : (chain.insertRule position predicate action origin).policy = chain.policy :=
    policy_pushAll _ _
  have length : ((chain.rulings syms).take position).length = position := by
    rw [List.length_take, rulings, List.length_map]
    omega
  have split : chain.rulings syms =
      (chain.rulings syms).take position ++ (chain.rulings syms).drop position :=
    (List.take_append_drop _ _).symm
  rw [verdict_permits, verdict_permits, rulings_insertRule, policy] at differ
  rw [verdict_permits, rulings_insertRule, policy]
  nth_rewrite 3 [split] at differ
  obtain ⟨clear, holds, rules_⟩ := FirstMatch.decides_of_verdict_ne differ
  refine ⟨rules_, ?_, ?_⟩
  · apply (built_insertRule chain position predicate action origin).decider_eq_of_position
    rw [predicates_eq_map_holds, rulings_insertRule]
    have decided := (FirstMatch.decider_eq_some_iff _ _
      ((chain.rulings syms).drop position) p).mpr ⟨clear, holds⟩
    rwa [length] at decided
  · cases was : FirstMatch.decider (chain.predicates syms) p with
    | none =>
        left
        rw [decider, decidingRule_eq_getElem?, was]
        rfl
    | some i =>
        right
        obtain ⟨bound, _⟩ := List.findIdx?_eq_some_iff_getElem.mp was
        rw [Chain.predicates, List.length_map] at bound
        have at_ := List.getElem?_eq_getElem bound
        have number := built.number_at at_
        refine ⟨_, List.getElem_mem bound, ?_, (built.decider_eq_rule_iff syms at_ p).mpr was⟩
        rw [predicates_eq_map_holds, split] at was
        have after := FirstMatch.length_le_of_decider clear was
        omega

end Chain

section Blame

variable {B : Type} [Library HEADER_BITS B] [ContentHasher]

/-- An inserted rule gets the blame: the delta only allows if the rule accepts and
only blocks if it denies, and each of its cells names the inserted rule in the new
chain, and the policy or a rule at or after its place in the old one. -/
theorem insertion_blamed_on_rule (layout : Layout) (syms : SymbolTable) {base : Chain}
    (built : base.Built) {position : Nat} (inside : position ≤ base.rules.length)
    (predicate : Match) (action : Action) (origin : Origin) :
    let bm : ChainModel B := analyse layout syms base
    let hm : ChainModel B :=
      analyse layout syms (base.insertRule position predicate action origin)
    (base.insertRule position predicate action origin).rules[position]? =
      some ⟨position + 1, predicate, action, origin⟩ ∧
    (action.permits = true → isFalse (diff bm hm).newlyBlocked = true) ∧
    (action.permits = false → isFalse (diff bm hm).newlyAllowed = true) ∧
    ∀ delta, delta = (diff bm hm).newlyAllowed ∨ delta = (diff bm hm).newlyBlocked →
      ∀ maxCells, ∀ cell ∈ (attributeDelta bm hm delta maxCells).1,
        cell.now = .rule (position + 1) ∧
        (cell.was = .policy ∨
          ∃ rule ∈ base.rules, position < rule.number ∧ cell.was = .rule rule.number) := by
  intro bm hm
  have decides (p : Packet) := Chain.insertRule_decides built syms inside predicate action origin
    (p := p)
  refine ⟨base.insertRule_at inside predicate action origin, ?_, ?_, ?_⟩
  · intro accepts
    rw [layout.isFalse_iff_mem]
    intro p
    rw [mem_newlyBlocked]
    by_contra blocked
    rw [Bool.not_eq_false, Bool.and_eq_true, Bool.not_eq_true'] at blocked
    obtain ⟨same, _⟩ := decides p (by rw [blocked.1, blocked.2]; exact Bool.false_ne_true)
    rw [blocked.2, accepts] at same
    contradiction
  · intro denies
    rw [layout.isFalse_iff_mem]
    intro p
    rw [mem_newlyAllowed]
    by_contra allowed
    rw [Bool.not_eq_false, Bool.and_eq_true, Bool.not_eq_true'] at allowed
    obtain ⟨same, _⟩ := decides p (by rw [allowed.1, allowed.2]; exact Bool.false_ne_true.symm)
    rw [allowed.1, denies] at same
    contradiction
  · intro delta isDelta maxCells cell member
    have headBuilt := base.built_insertRule position predicate action origin
    obtain ⟨_, inhabited, _, exact_, _⟩ :=
      attribution_exact layout syms built headBuilt delta maxCells
    obtain ⟨p, inCell⟩ := inhabited cell member
    obtain ⟨inDelta, was, now⟩ := (exact_ cell member p).mp inCell
    have differ : ((base.insertRule position predicate action origin).verdict syms p).permits ≠
        (base.verdict syms p).permits := by
      intro same
      rcases isDelta with rfl | rfl
      · rw [mem_newlyAllowed, same, Bool.and_not_self] at inDelta
        contradiction
      · rw [mem_newlyBlocked, same, Bool.and_not_self] at inDelta
        contradiction
    obtain ⟨_, head, old⟩ := decides p differ
    rw [← was, ← now]
    exact ⟨head, old⟩

end Blame

/-- A rule that accepts, inserted before the only rule of a chain, blocks nothing. -/
theorem inserted_accept_blocks_nothing : letI : ContentHasher := ⟨fun _ _ => 0⟩
    let base := (Chain.new "input" .input .accept).push Match.any .drop ⟨"f", 1, 1, "drop"⟩
    let head := base.insertRule 0 Match.any .accept ⟨"f", 1, 1, "accept"⟩
    isFalse (diff (analyse ⟨.fieldMajor⟩ .empty base : ChainModel (Diagram HEADER_BITS))
      (analyse ⟨.fieldMajor⟩ .empty head)).newlyBlocked = true :=
  letI : ContentHasher := ⟨fun _ _ => 0⟩
  (insertion_blamed_on_rule ⟨.fieldMajor⟩ .empty ((Chain.Built.new _ _ _).push _ _ _)
    (Nat.zero_le _) Match.any .accept ⟨"f", 1, 1, "accept"⟩).2.1 rfl

end Fwdelta
