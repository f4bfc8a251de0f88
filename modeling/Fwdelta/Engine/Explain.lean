import Fwdelta.Engine.Deletion
import Fwdelta.Engine.Diff

/-
Explaining a shadowed rule.

A shadowed rule is covered by the rules before it.  The explanation names the
first of them that covers it alone; if none does, it names those that overlap it,
in order, until they cover it together.
-/

namespace Fwdelta

open DecisionDiagram
open DecisionDiagram.Library

section Contributors

variable {B : Type} [Library HEADER_BITS B]

/-- Rules picked to cover a set, beyond what is covered already.  Without the last
of them they do not cover it. -/
structure Picks (layout : Layout) (target acc : B) (rules picked : List (RuleModel B)) :
    Prop where
  sublist : picked.Sublist rules
  overlap : ∀ r ∈ picked, ∃ p, layout.mem target p = true ∧ layout.mem r.matched p = true
  covers : ∀ p, layout.mem target p = true →
    layout.mem acc p = true ∨ ∃ r ∈ picked, layout.mem r.matched p = true
  tight : ∃ p, layout.mem target p = true ∧ layout.mem acc p = false ∧
    ∀ r ∈ picked.dropLast, layout.mem r.matched p = false

theorem Picks.ne_nil {layout : Layout} {target acc : B} {rules picked : List (RuleModel B)}
    (picks : Picks layout target acc rules picked) : picked ≠ [] := by
  intro nothing
  obtain ⟨p, inside, uncovered, _⟩ := picks.tight
  rcases picks.covers p inside with already | listed
  · rw [uncovered] at already
    contradiction
  · obtain ⟨r, member, _⟩ := listed
    rw [nothing] at member
    contradiction

section Step

variable {layout : Layout} {target acc : B} {rest picked : List (RuleModel B)}
variable {earlier : RuleModel B}

theorem Picks.pass (picks : Picks layout target acc rest picked) :
    Picks layout target acc (earlier :: rest) picked :=
  ⟨picks.sublist.cons earlier, picks.overlap, picks.covers, picks.tight⟩

theorem Picks.last
    (overlaps : ∃ p, layout.mem target p = true ∧ layout.mem earlier.matched p = true)
    (uncovered : ∃ p, layout.mem target p = true ∧ layout.mem acc p = false)
    (done : ∀ p, layout.mem target p = true → layout.mem (or acc earlier.matched) p = true) :
    Picks layout target acc (earlier :: rest) [earlier] := by
  refine ⟨List.singleton_sublist.mpr List.mem_cons_self, by simpa using overlaps, ?_,
    by simpa using uncovered⟩
  intro p inside
  have covered := done p inside
  rw [layout.mem_or, Bool.or_eq_true] at covered
  rcases covered with already | here
  · exact Or.inl already
  · exact Or.inr ⟨earlier, List.mem_singleton_self _, here⟩

theorem Picks.pick
    (overlaps : ∃ p, layout.mem target p = true ∧ layout.mem earlier.matched p = true)
    (picks : Picks layout target (or acc earlier.matched) rest picked) :
    Picks layout target acc (earlier :: rest) (earlier :: picked) := by
  refine ⟨picks.sublist.cons_cons earlier, List.forall_mem_cons.mpr ⟨overlaps, picks.overlap⟩,
    ?_, ?_⟩
  · intro p inside
    have covered := picks.covers p inside
    rw [layout.mem_or, Bool.or_eq_true, or_assoc] at covered
    simpa only [List.mem_cons, exists_eq_or_imp] using covered
  · obtain ⟨p, inside, outside, clear⟩ := picks.tight
    rw [layout.mem_or, Bool.or_eq_false_iff] at outside
    refine ⟨p, inside, outside.1, ?_⟩
    rw [List.dropLast_cons_of_ne_nil picks.ne_nil]
    exact List.forall_mem_cons.mpr ⟨outside.2, clear⟩

end Step

/-- The second pass picks overlapping rules until they cover the target. -/
theorem contributors_picks (layout : Layout) {target acc : B} {rules : List (RuleModel B)}
    (enough : ∀ p, layout.mem target p = true →
      layout.mem acc p = true ∨ ∃ r ∈ rules, layout.mem r.matched p = true)
    (uncovered : ∃ p, layout.mem target p = true ∧ layout.mem acc p = false) :
    ∃ picked, Picks layout target acc rules picked ∧
      ChainModel.contributors target acc rules = picked.map RuleModel.number := by
  induction rules generalizing acc with
  | nil =>
      obtain ⟨p, inside, outside⟩ := uncovered
      rcases enough p inside with covered | listed
      · rw [outside] at covered
        contradiction
      · obtain ⟨r, member, _⟩ := listed
        contradiction
  | cons earlier rest ih =>
      simp only [List.mem_cons, exists_eq_or_imp] at enough
      unfold ChainModel.contributors
      by_cases apart : isFalse (and target earlier.matched) = true
      · rw [if_pos apart]
        rw [layout.isFalse_iff_mem] at apart
        have still (p : Packet) (inside : layout.mem target p = true) :
            layout.mem acc p = true ∨ ∃ r ∈ rest, layout.mem r.matched p = true := by
          have clear := apart p
          rw [layout.mem_and, inside, Bool.true_and] at clear
          rcases enough p inside with covered | here | later
          · exact Or.inl covered
          · rw [clear] at here
            contradiction
          · exact Or.inr later
        obtain ⟨picked, picks, same⟩ := ih still uncovered
        exact ⟨picked, picks.pass, same⟩
      · rw [if_neg apart]
        rw [Bool.not_eq_true, layout.isFalse_eq_false_iff_mem] at apart
        simp only [layout.mem_and, Bool.and_eq_true] at apart
        simp only
        by_cases done : isFalse (andNot target (or acc earlier.matched)) = true
        · rw [if_pos done]
          rw [layout.isFalse_iff_mem] at done
          refine ⟨[earlier], Picks.last apart uncovered ?_, rfl⟩
          intro p inside
          have covered := done p
          rwa [layout.mem_andNot, inside, Bool.true_and, Bool.not_eq_false'] at covered
        · rw [if_neg done]
          rw [Bool.not_eq_true, layout.isFalse_eq_false_iff_mem] at done
          have grown (p : Packet) (inside : layout.mem target p = true) :
              layout.mem (or acc earlier.matched) p = true ∨
                ∃ r ∈ rest, layout.mem r.matched p = true := by
            rw [layout.mem_or, Bool.or_eq_true, or_assoc]
            exact enough p inside
          have left : ∃ p, layout.mem target p = true ∧
              layout.mem (or acc earlier.matched) p = false := by
            simpa using done
          obtain ⟨picked, picks, same⟩ := ih grown left
          refine ⟨earlier :: picked, picks.pick apart, ?_⟩
          rw [same, List.map_cons]

end Contributors

/-- The rules of these numbers together match every packet that the rule matches. -/
def Chain.Covers (chain : Chain) (syms : SymbolTable) (numbers : List Nat) (rule : Rule) : Prop :=
  ∀ p, rule.predicate.Contains syms p →
    ∃ earlier ∈ chain.rules, earlier.number ∈ numbers ∧ earlier.predicate.Contains syms p

section Explain

variable {B : Type} [Library HEADER_BITS B] [ContentHasher]

/-- A rule of the model describes the rule of the chain with its number. -/
theorem describes_of_mem (layout : Layout) (syms : SymbolTable) (chain : Chain) {k : Nat}
    {q : RuleModel B} (member : q ∈ (analyse layout syms chain : ChainModel B).rules.take k) :
    ∃ j rule, j < k ∧ chain.rules[j]? = some rule ∧ q.Describes layout syms chain j rule := by
  obtain ⟨j, bound, at_⟩ := List.mem_iff_getElem.mp member
  rw [List.getElem_take] at at_
  rw [List.length_take] at bound
  have modelAt : (analyse layout syms chain : ChainModel B).rules[j]? = some q := by
    rw [← at_]
    exact List.getElem?_eq_getElem _
  obtain ⟨rule, ruleAt, describes⟩ := exists_described layout syms chain modelAt
  exact ⟨j, rule, by omega, ruleAt, describes⟩

theorem RuleModel.Describes.mem_matched {layout : Layout} {syms : SymbolTable} {chain : Chain}
    {i : Nat} {r : RuleModel B} {rule : Rule} (describes : r.Describes layout syms chain i rule)
    (p : Packet) : layout.mem r.matched p = true ↔ rule.predicate.Contains syms p := by
  rw [describes.matched, Match.holdsAt_iff]

/-- Covering by numbers is covering by the match sets of the model's rules. -/
theorem covers_numbers_iff (layout : Layout) {syms : SymbolTable} {chain : Chain}
    (built : chain.Built) {picked : List (RuleModel B)}
    (among : ∀ q ∈ picked, q ∈ (analyse layout syms chain : ChainModel B).rules) (rule : Rule) :
    chain.Covers syms (picked.map RuleModel.number) rule ↔
      ∀ p, rule.predicate.Contains syms p → ∃ q ∈ picked, layout.mem q.matched p = true := by
  have located {q : RuleModel B} (member : q ∈ picked) :
      ∃ j earlier, chain.rules[j]? = some earlier ∧ q.Describes layout syms chain j earlier := by
    have whole := among q member
    rw [← List.take_length (l := (analyse layout syms chain : ChainModel B).rules)] at whole
    obtain ⟨j, earlier, _, at_, describes⟩ := describes_of_mem layout syms chain whole
    exact ⟨j, earlier, at_, describes⟩
  apply forall₂_congr
  intro p _
  constructor
  · intro found
    obtain ⟨earlier, member, listed, holds⟩ := found
    obtain ⟨q, picks, number⟩ := List.mem_map.mp listed
    obtain ⟨j, other, otherAt, describes⟩ := located picks
    obtain ⟨k, at_⟩ := List.mem_iff_getElem?.mp member
    -- Numbers are positions plus one, so both are the same rule.
    have here := built.number_at at_
    have there := built.number_at otherAt
    rw [describes.number] at number
    have same : j = k := by omega
    rw [same, at_, Option.some.injEq] at otherAt
    subst otherAt
    exact ⟨q, picks, (describes.mem_matched p).mpr holds⟩
  · intro found
    obtain ⟨q, picks, matched⟩ := found
    obtain ⟨j, earlier, at_, describes⟩ := located picks
    refine ⟨earlier, List.mem_of_getElem? at_, ?_, (describes.mem_matched p).mp matched⟩
    rw [← describes.number]
    exact List.mem_map_of_mem picks

/-- The rules before a shadowed one cover it. -/
theorem shadowed_covered (layout : Layout) (syms : SymbolTable) (chain : Chain) {i : Nat}
    {r : RuleModel B} (at_ : (analyse layout syms chain : ChainModel B).rules[i]? = some r)
    (shadowed : r.shadowed = true) (p : Packet) (matched : layout.mem r.matched p = true) :
    ∃ q ∈ (analyse layout syms chain : ChainModel B).rules.take i,
      layout.mem q.matched p = true := by
  have never := (shadowed_iff_never_decides layout syms chain at_).mp shadowed p
  obtain ⟨rule, ruleAt, describes⟩ := exists_described layout syms chain at_
  obtain ⟨bound, same⟩ := List.getElem?_eq_some_iff.mp ruleAt
  by_contra uncovered
  apply never
  unfold FirstMatch.decider Chain.predicates
  rw [List.findIdx?_map, List.findIdx?_eq_some_iff_getElem]
  refine ⟨bound, ?_, ?_⟩
  · rw [same, ← matched, describes.matched]
    rfl
  · intro j before holds
    obtain ⟨q, modelAt, earlier⟩ := exists_describing (B := B) layout syms chain
      (List.getElem?_eq_getElem (show j < chain.rules.length by omega))
    refine uncovered
      ⟨q, List.mem_of_getElem? ((List.getElem?_take_of_lt before).trans modelAt), ?_⟩
    rw [earlier.matched]
    exact holds

theorem analyse_number_at (layout : Layout) (syms : SymbolTable) {chain : Chain}
    (built : chain.Built) {i : Nat} {r : RuleModel B}
    (at_ : (analyse layout syms chain : ChainModel B).rules[i]? = some r) :
    r.number = i + 1 := by
  obtain ⟨_, ruleAt, describes⟩ := exists_described layout syms chain at_
  exact describes.number.trans (built.number_at ruleAt)

theorem explainShadow_analyse (layout : Layout) (syms : SymbolTable) {chain : Chain}
    (built : chain.Built) {i : Nat} {r : RuleModel B}
    (at_ : (analyse layout syms chain : ChainModel B).rules[i]? = some r)
    (inhabited : isFalse r.matched = false) :
    (analyse layout syms chain : ChainModel B).explainShadow r.number =
      match ((analyse layout syms chain : ChainModel B).rules.take i).find?
          (fun earlier => isFalse (andNot r.matched earlier.matched)) with
      | some earlier => [earlier.number]
      | none => ChainModel.contributors r.matched (andNot r.matched r.matched)
          ((analyse layout syms chain : ChainModel B).rules.take i) := by
  have position : (analyse layout syms chain : ChainModel B).rules.findIdx?
      (fun other => other.number == r.number) = some i := by
    obtain ⟨bound, same⟩ := List.getElem?_eq_some_iff.mp at_
    rw [List.findIdx?_eq_some_iff_getElem]
    refine ⟨bound, by simp [same], ?_⟩
    intro j before
    have here := analyse_number_at layout syms built (List.getElem?_eq_getElem (before.trans bound))
    have there := analyse_number_at layout syms built at_
    rw [beq_iff_eq]
    omega
  unfold ChainModel.explainShadow
  rw [position]
  simp only [at_]
  exact if_neg (by rw [inhabited]; exact Bool.false_ne_true)

/-- What is named when the explanation picks some of the rules before. -/
theorem named_picked (layout : Layout) (syms : SymbolTable) {chain : Chain}
    (built : chain.Built) {i : Nat} {r : RuleModel B} {rule : Rule}
    (ruleAt : chain.rules[i]? = some rule) (describes : r.Describes layout syms chain i rule)
    {picked : List (RuleModel B)}
    (sublist : picked.Sublist ((analyse layout syms chain : ChainModel B).rules.take i))
    (overlap : ∀ q ∈ picked, ∃ p, layout.mem r.matched p = true ∧
      layout.mem q.matched p = true) :
    (picked.map RuleModel.number).Pairwise (· < ·) ∧
      ∀ n ∈ picked.map RuleModel.number, n < rule.number ∧
        ∃ earlier ∈ chain.rules, earlier.number = n ∧
          ∃ p, earlier.predicate.Contains syms p ∧ rule.predicate.Contains syms p := by
  constructor
  · have whole : ((analyse layout syms chain : ChainModel B).rules.map
        RuleModel.number).Pairwise (· < ·) := by
      rw [analyse_rules_numbers, built.numbers]
      exact List.pairwise_lt_range'
    exact whole.sublist ((sublist.trans (List.take_sublist i _)).map _)
  · intro n member
    obtain ⟨q, picks, rfl⟩ := List.mem_map.mp member
    obtain ⟨j, earlier, before, at_, found⟩ :=
      describes_of_mem layout syms chain (sublist.subset picks)
    have here := built.number_at at_
    have there := built.number_at ruleAt
    obtain ⟨p, inside, matched⟩ := overlap q picks
    rw [found.number]
    exact ⟨by omega, earlier, List.mem_of_getElem? at_, rfl, p,
      (found.mem_matched p).mp matched, (describes.mem_matched p).mp inside⟩

/-- Covering alone is what the first pass tests. -/
theorem covers_number_iff (layout : Layout) {syms : SymbolTable} {chain : Chain}
    (built : chain.Built) {i : Nat} {r q : RuleModel B} {rule : Rule}
    (describes : r.Describes layout syms chain i rule)
    (member : q ∈ (analyse layout syms chain : ChainModel B).rules) :
    chain.Covers syms [q.number] rule ↔ isFalse (andNot r.matched q.matched) = true := by
  have among : ∀ other ∈ [q], other ∈ (analyse layout syms chain : ChainModel B).rules := by
    simpa using member
  have covers := covers_numbers_iff layout built among rule
  rw [List.map_singleton] at covers
  rw [covers, layout.isFalse_iff_mem]
  apply forall_congr'
  intro p
  rw [← describes.mem_matched, layout.mem_andNot]
  cases layout.mem r.matched p <;> simp

/-- A number that covers the rule alone is that of a rule before it. -/
theorem exists_before_of_covers (layout : Layout) {syms : SymbolTable} {chain : Chain}
    (built : chain.Built) {i : Nat} {rule : Rule} (ruleAt : chain.rules[i]? = some rule)
    (inhabited : ∃ p, rule.predicate.Contains syms p) {n : Nat} (less : n < rule.number)
    (covers : chain.Covers syms [n] rule) :
    ∃ k q, k < i ∧ (analyse layout syms chain : ChainModel B).rules[k]? = some q ∧
      q.number = n := by
  obtain ⟨p, inside⟩ := inhabited
  obtain ⟨earlier, member, named, _⟩ := covers p inside
  obtain ⟨k, earlierAt⟩ := List.mem_iff_getElem?.mp member
  have here := built.number_at earlierAt
  have there := built.number_at ruleAt
  rw [List.mem_singleton.mp named] at here
  obtain ⟨q, at_, describes⟩ := exists_describing (B := B) layout syms chain earlierAt
  have numbered := describes.number.trans (built.number_at earlierAt)
  exact ⟨k, q, by omega, at_, by omega⟩

/-- What the first pass finds is the least number that covers the rule alone. -/
theorem first_covering_spec (layout : Layout) {syms : SymbolTable} {chain : Chain}
    (built : chain.Built) {i : Nat} {r first : RuleModel B} {rule : Rule}
    (ruleAt : chain.rules[i]? = some rule) (describes : r.Describes layout syms chain i rule)
    (inhabited : ∃ p, rule.predicate.Contains syms p)
    (found : ((analyse layout syms chain : ChainModel B).rules.take i).find?
      (fun earlier => isFalse (andNot r.matched earlier.matched)) = some first) :
    first ∈ (analyse layout syms chain : ChainModel B).rules.take i ∧
      first.number < rule.number ∧ chain.Covers syms [first.number] rule ∧
        ∀ m < first.number, ¬ chain.Covers syms [m] rule := by
  have listed := List.mem_of_find?_eq_some found
  obtain ⟨alone, j, bound, same, earliest⟩ := List.find?_eq_some_iff_getElem.mp found
  rw [List.length_take] at bound
  have firstAt : (analyse layout syms chain : ChainModel B).rules[j]? = some first := by
    rw [← same, List.getElem_take]
    exact List.getElem?_eq_getElem _
  have here := analyse_number_at layout syms built firstAt
  have there := built.number_at ruleAt
  have covers := (covers_number_iff layout built describes (List.mem_of_mem_take listed)).mpr alone
  refine ⟨listed, by omega, covers, ?_⟩
  intro m less coversAlone
  obtain ⟨k, q, before, at_, rfl⟩ :=
    exists_before_of_covers (B := B) layout built ruleAt inhabited (by omega) coversAlone
  have numbered := analyse_number_at layout syms built at_
  have refused := earliest k (by omega)
  obtain ⟨inRules, equal⟩ := List.getElem?_eq_some_iff.mp at_
  rw [List.getElem_take, equal, (covers_number_iff layout built describes
    (List.mem_of_getElem? at_)).mp coversAlone] at refused
  contradiction

/-- What the rules named do for a shadowed rule. -/
structure Explains (chain : Chain) (syms : SymbolTable) (rule : Rule) (named : List Nat) :
    Prop where
  nonempty : named ≠ []
  sorted : named.Pairwise (· < ·)
  overlapping : ∀ n ∈ named, n < rule.number ∧ ∃ earlier ∈ chain.rules, earlier.number = n ∧
    ∃ p, earlier.predicate.Contains syms p ∧ rule.predicate.Contains syms p
  covers : chain.Covers syms named rule
  first : ∀ n < rule.number, chain.Covers syms [n] rule →
    (∀ m < n, ¬ chain.Covers syms [m] rule) → named = [n]
  needed : (∀ n < rule.number, ¬ chain.Covers syms [n] rule) →
    ¬ chain.Covers syms named.dropLast rule

/-- The first pass names the first rule that covers the shadowed one alone. -/
theorem explains_first (layout : Layout) {syms : SymbolTable} {chain : Chain}
    (built : chain.Built) {i : Nat} {r first : RuleModel B} {rule : Rule}
    (ruleAt : chain.rules[i]? = some rule) (describes : r.Describes layout syms chain i rule)
    (inhabited : ∃ p, rule.predicate.Contains syms p)
    (single : ((analyse layout syms chain : ChainModel B).rules.take i).find?
      (fun earlier => isFalse (andNot r.matched earlier.matched)) = some first) :
    Explains chain syms rule [first.number] := by
  have matches_ := describes.mem_matched
  obtain ⟨listed, less, covers, least⟩ :=
    first_covering_spec layout built ruleAt describes inhabited single
  have overlap : ∀ q ∈ [first],
      ∃ p, layout.mem r.matched p = true ∧ layout.mem q.matched p = true := by
    obtain ⟨p, inside⟩ := inhabited
    have among : ∀ other ∈ [first], other ∈ (analyse layout syms chain : ChainModel B).rules := by
      simpa using List.mem_of_mem_take listed
    obtain ⟨q, member, matched⟩ :=
      (covers_numbers_iff layout built among rule).mp covers p inside
    rw [List.mem_singleton.mp member] at matched
    simpa using ⟨p, (matches_ p).mpr inside, matched⟩
  have facts := named_picked layout syms built ruleAt describes
    (List.singleton_sublist.mpr listed) overlap
  refine ⟨List.cons_ne_nil _ _, facts.1, facts.2, covers, ?first, ?needed⟩
  case first =>
    intro n _ coversAlone leastToo
    rw [List.cons.injEq, and_iff_left rfl]
    rcases Nat.lt_trichotomy first.number n with sooner | same | later
    · exact absurd covers (leastToo _ sooner)
    · exact same
    · exact absurd coversAlone (least n later)
  case needed =>
    intro none
    exact absurd covers (none _ less)

/-- The second pass names rules that cover the shadowed one together, the last of them
needed, when none does it alone. -/
theorem explains_picked (layout : Layout) {syms : SymbolTable} {chain : Chain}
    (built : chain.Built) {i : Nat} {r : RuleModel B} {rule : Rule}
    {nothing : B} {picked : List (RuleModel B)}
    (ruleAt : chain.rules[i]? = some rule) (describes : r.Describes layout syms chain i rule)
    (inhabited : ∃ p, rule.predicate.Contains syms p)
    (single : ((analyse layout syms chain : ChainModel B).rules.take i).find?
      (fun earlier => isFalse (andNot r.matched earlier.matched)) = none)
    (empty : ∀ p, layout.mem nothing p = false)
    (picks : Picks layout r.matched nothing
      ((analyse layout syms chain : ChainModel B).rules.take i) picked) :
    Explains chain syms rule (picked.map RuleModel.number) := by
  have matches_ := describes.mem_matched
  have among : ∀ q ∈ picked, q ∈ (analyse layout syms chain : ChainModel B).rules :=
    fun q member => List.mem_of_mem_take (picks.sublist.subset member)
  have facts := named_picked layout syms built ruleAt describes picks.sublist picks.overlap
  refine ⟨?nonempty, facts.1, facts.2, ?covers, ?first, ?needed⟩
  case nonempty =>
    rw [ne_eq, List.map_eq_nil_iff]
    exact picks.ne_nil
  case covers =>
    rw [covers_numbers_iff layout built among]
    intro p inside
    have covered := picks.covers p ((matches_ p).mpr inside)
    rwa [empty p, Bool.false_eq_true, false_or] at covered
  case first =>
    intro n less coversAlone _
    obtain ⟨k, q, before, earlierAt, rfl⟩ :=
      exists_before_of_covers (B := B) layout built ruleAt inhabited less coversAlone
    have refused := List.find?_eq_none.mp single q
      (List.mem_of_getElem? ((List.getElem?_take_of_lt before).trans earlierAt))
    exact absurd ((covers_number_iff layout built describes
      (List.mem_of_getElem? earlierAt)).mp coversAlone) refused
  case needed =>
    intro _ covers
    obtain ⟨p, inside, _, clear⟩ := picks.tight
    rw [← List.map_dropLast, covers_numbers_iff layout built
      (fun q member => among q (List.mem_of_mem_dropLast member))] at covers
    obtain ⟨q, member, matched⟩ := covers p ((matches_ p).mp inside)
    rw [clear q member] at matched
    contradiction

/-- What `explain_shadow` names explains the shadowed rule. -/
theorem explains_shadow (layout : Layout) (syms : SymbolTable) {chain : Chain}
    (built : chain.Built) {i : Nat} {r : RuleModel B} {rule : Rule}
    (at_ : (analyse layout syms chain : ChainModel B).rules[i]? = some r)
    (ruleAt : chain.rules[i]? = some rule) (shadowed : r.shadowed = true)
    (inhabited : ∃ p, rule.predicate.Contains syms p) :
    Explains chain syms rule
      ((analyse layout syms chain : ChainModel B).explainShadow r.number) := by
  have describes := analyse_describes layout syms chain at_ ruleAt
  have matches_ := describes.mem_matched
  have target : isFalse r.matched = false := by
    rw [layout.isFalse_eq_false_iff_mem]
    simpa only [matches_] using inhabited
  have explained := explainShadow_analyse layout syms built at_ target
  cases single : ((analyse layout syms chain : ChainModel B).rules.take i).find?
      (fun earlier => isFalse (andNot r.matched earlier.matched)) with
  | some first =>
      have named_eq := explained.trans (show _ = [first.number] by rw [single])
      rw [named_eq]
      exact explains_first layout built ruleAt describes inhabited single
  | none =>
      have nothing (p : Packet) : layout.mem (andNot r.matched r.matched) p = false := by
        rw [layout.mem_andNot, Bool.and_not_self]
      have enough (p : Packet) (inside : layout.mem r.matched p = true) :
          layout.mem (andNot r.matched r.matched) p = true ∨
            ∃ q ∈ (analyse layout syms chain : ChainModel B).rules.take i,
              layout.mem q.matched p = true :=
        Or.inr (shadowed_covered layout syms chain at_ shadowed p inside)
      have uncovered : ∃ p, layout.mem r.matched p = true ∧
          layout.mem (andNot r.matched r.matched) p = false := by
        obtain ⟨p, inside⟩ := inhabited
        exact ⟨p, (matches_ p).mpr inside, nothing p⟩
      obtain ⟨picked, picks, same⟩ := contributors_picks layout enough uncovered
      have named_eq := (explained.trans (by rw [single])).trans same
      rw [named_eq]
      exact explains_picked layout built ruleAt describes inhabited single nothing picks

/-- The explanation of a shadowed rule: earlier rules in order, all overlapping it,
that together cover it.  It is the first rule that covers it alone, if there is
one; otherwise the last rule named is needed. -/
theorem explain_shadow_exact (layout : Layout) (syms : SymbolTable) {chain : Chain}
    (built : chain.Built) {i : Nat} {r : RuleModel B} {rule : Rule}
    (at_ : (analyse layout syms chain : ChainModel B).rules[i]? = some r)
    (ruleAt : chain.rules[i]? = some rule) (shadowed : r.shadowed = true)
    (inhabited : ∃ p, rule.predicate.Contains syms p) :
    let named := (analyse layout syms chain : ChainModel B).explainShadow r.number
    named ≠ [] ∧ named.Pairwise (· < ·) ∧
    (∀ n ∈ named, n < rule.number ∧ ∃ earlier ∈ chain.rules, earlier.number = n ∧
      ∃ p, earlier.predicate.Contains syms p ∧ rule.predicate.Contains syms p) ∧
    chain.Covers syms named rule ∧
    (∀ n < rule.number, chain.Covers syms [n] rule →
      (∀ m < n, ¬ chain.Covers syms [m] rule) → named = [n]) ∧
    ((∀ n < rule.number, ¬ chain.Covers syms [n] rule) →
      ¬ chain.Covers syms named.dropLast rule) := by
  intro named
  have explains := explains_shadow layout syms built at_ ruleAt shadowed inhabited
  exact ⟨explains.nonempty, explains.sorted, explains.overlapping, explains.covers,
    explains.first, explains.needed⟩

end Explain

/-- The second of two equal statements is explained by the first. -/
theorem second_statement_explained : letI : ContentHasher := ⟨fun _ _ => 0⟩
    (analyse ⟨.fieldMajor⟩ .empty statedTwice :
      ChainModel (Diagram HEADER_BITS)).explainShadow 2 = [1] := by
  let _ : ContentHasher := ⟨fun _ _ => 0⟩
  have built : statedTwice.Built := ((Chain.Built.new _ _ _).push _ _ _).push _ _ _
  have length := analyse_rules_length (B := Diagram HEADER_BITS) ⟨.fieldMajor⟩ .empty statedTwice
  have at_ := List.getElem?_eq_getElem (show 1 < (analyse ⟨.fieldMajor⟩ .empty statedTwice :
    ChainModel (Diagram HEADER_BITS)).rules.length by rw [length]; decide)
  have number := analyse_number_at _ _ built at_
  have shadowed := (shadowed_iff_never_decides _ _ _ at_).mpr
    (fun p => by rw [first_statement_decides]; simp)
  have first : (⟨1, Match.any, .accept, ⟨"a.nft", 1, 1, "accept"⟩⟩ : Rule) ∈ statedTwice.rules :=
    List.mem_cons_self
  have explained := explain_shadow_exact ⟨.fieldMajor⟩ .empty built at_
    (show statedTwice.rules[1]? = some ⟨2, Match.any, .accept, ⟨"a.nft", 2, 1, "accept"⟩⟩ from rfl)
    shadowed ⟨⟨0, 0, 0, 0, 0, 0, 0⟩, (Match.holdsAt_iff _ _ _).mp (by decide)⟩
  rw [number] at explained
  refine explained.2.2.2.2.1 1 (by decide) (fun p inside => ⟨_, first, by simp, inside⟩) ?_
  intro m zero covers
  obtain ⟨earlier, member, listed, _⟩ :=
    covers ⟨0, 0, 0, 0, 0, 0, 0⟩ ((Match.holdsAt_iff _ _ _).mp (by decide))
  obtain ⟨k, earlierAt⟩ := List.mem_iff_getElem?.mp member
  have here := built.number_at earlierAt
  rw [List.mem_singleton.mp listed] at here
  omega

end Fwdelta
