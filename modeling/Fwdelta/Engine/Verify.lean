import Fwdelta.Engine.Accept

/-
The engine's self-checks.

The effective sets and the fall-through set are the classes of one function: the
position of the rule that decides a packet, or the number of rules when the
policy does.  Both self-checks follow from that.
-/

namespace Fwdelta

open DecisionDiagram
open DecisionDiagram.Library

/-- The position of the deciding rule, one past the last rule for the policy. -/
def Chain.decidedAt (chain : Chain) (syms : SymbolTable) (p : Packet) : Nat :=
  (FirstMatch.decider (chain.predicates syms) p).getD chain.rules.length

theorem Chain.decidedAt_le (chain : Chain) (syms : SymbolTable) (p : Packet) :
    chain.decidedAt syms p ≤ chain.rules.length := by
  unfold decidedAt
  cases first : FirstMatch.decider (chain.predicates syms) p with
  | none => exact le_refl _
  | some i =>
      have bound := (List.findIdx?_eq_some_iff_getElem.mp first).1
      rw [predicates, List.length_map] at bound
      exact bound.le

theorem Chain.decidingRule_eq_getElem?_decidedAt (chain : Chain) (syms : SymbolTable)
    (p : Packet) : chain.decidingRule syms p = chain.rules[chain.decidedAt syms p]? := by
  rw [decidingRule_eq_getElem?, decidedAt]
  cases FirstMatch.decider (chain.predicates syms) p with
  | none => simp
  | some i => rfl

section Cells

variable {B : Type} [Library HEADER_BITS B]

/-- The effective sets, and the fall-through set after them. -/
def ChainModel.cells (model : ChainModel B) : List B :=
  model.rules.map RuleModel.effective ++ [model.fallthrough]

/-- The loop of `partition_holds` keeps "the seen packets are those of an earlier
position". -/
theorem partitionFrom_of_position (layout : Layout) (model : ChainModel B)
    (position : Packet → Nat) (k : Nat) (seen : B) (rules : List (RuleModel B))
    (earlier : ∀ p, layout.mem seen p = decide (position p < k))
    (located : ∀ i r, rules[i]? = some r →
      ∀ p, layout.mem r.effective p = decide (position p = k + i))
    (last : ∀ p, layout.mem model.fallthrough p = decide (position p = k + rules.length))
    (bounded : ∀ p, position p ≤ k + rules.length) :
    model.partitionFrom seen rules = true := by
  induction rules generalizing k seen with
  | nil =>
      simp only [List.length_nil, Nat.add_zero] at last bounded
      simp only [ChainModel.partitionFrom, Bool.and_eq_true]
      constructor
      · rw [layout.isFalse_iff_mem]
        intro p
        rw [layout.mem_and, earlier, last, Bool.and_eq_false_iff]
        simp only [decide_eq_false_iff_not]
        omega
      · rw [layout.isTrue_iff_mem]
        intro p
        have within := bounded p
        rw [layout.mem_or, earlier, last, Bool.or_eq_true]
        simp only [decide_eq_true_eq]
        omega
  | cons r rest ih =>
      have first (p : Packet) : layout.mem r.effective p = decide (position p = k) :=
        located 0 r rfl p
      have apart : isFalse (and seen r.effective) = true := by
        rw [layout.isFalse_iff_mem]
        intro p
        rw [layout.mem_and, earlier, first, Bool.and_eq_false_iff]
        simp only [decide_eq_false_iff_not]
        omega
      have length : k + (r :: rest).length = k + 1 + rest.length := by
        rw [List.length_cons]
        omega
      rw [length] at last bounded
      simp only [ChainModel.partitionFrom, if_pos apart]
      apply ih (k + 1)
      · intro p
        rw [layout.mem_or, earlier, first, ← Bool.decide_or, decide_eq_decide]
        omega
      · intro i later at_ p
        rw [located (i + 1) later at_ p, decide_eq_decide]
        omega
      · exact last
      · exact bounded

theorem mem_foldl_permitted (layout : Layout) (rules : List (RuleModel B)) (start : B)
    (p : Packet) :
    layout.mem (rules.foldl
      (fun acc r => if r.action.permits then or acc r.effective else acc) start) p =
      (layout.mem start p ||
        rules.any (fun r => r.action.permits && layout.mem r.effective p)) := by
  induction rules generalizing start with
  | nil => simp
  | cons r rest ih =>
      rw [List.foldl_cons, ih, List.any_cons]
      cases r.action.permits with
      | false => simp
      | true => simp [Bool.or_assoc]

theorem mem_forwardAccept (layout : Layout) (model : ChainModel B) (p : Packet) :
    layout.mem model.forwardAccept p =
      (model.rules.any (fun r => r.action.permits && layout.mem r.effective p) ||
        (model.policy.permits && layout.mem model.fallthrough p)) := by
  unfold ChainModel.forwardAccept
  cases permits : model.policy.permits with
  | false => simp [mem_foldl_permitted]
  | true => simp [mem_foldl_permitted]

section Exact

variable [ContentHasher] (layout : Layout) (syms : SymbolTable) (chain : Chain)

theorem mem_effective_iff_decidedAt {i : Nat} {r : RuleModel B}
    (at_ : (analyse layout syms chain : ChainModel B).rules[i]? = some r) (p : Packet) :
    layout.mem r.effective p = decide (chain.decidedAt syms p = i) := by
  obtain ⟨_, ruleAt, describes⟩ := exists_described layout syms chain at_
  obtain ⟨bound, _⟩ := List.getElem?_eq_some_iff.mp ruleAt
  rw [describes.effective, decide_eq_decide, Chain.decidedAt]
  cases FirstMatch.decider (chain.predicates syms) p with
  | none =>
      simp only [reduceCtorEq, Option.getD_none, false_iff]
      omega
  | some j => simp

theorem mem_fallthrough_iff_decidedAt (p : Packet) :
    layout.mem (analyse layout syms chain : ChainModel B).fallthrough p =
      decide (chain.decidedAt syms p = chain.rules.length) := by
  have decided := chain.decidingRule_eq_getElem?_decidedAt syms p
  have within := chain.decidedAt_le syms p
  rw [mem_fallthrough, decide_eq_decide, chain.decider_eq_policy_iff,
    ← chain.decidingRule_eq_none_iff, decided, List.getElem?_eq_none_iff]
  omega

/-- Each cell holds the packets decided at its position. -/
theorem mem_cells {i : Nat} {cell : B}
    (at_ : (analyse layout syms chain : ChainModel B).cells[i]? = some cell) (p : Packet) :
    layout.mem cell p = decide (chain.decidedAt syms p = i) := by
  have length := analyse_rules_length (B := B) layout syms chain
  unfold ChainModel.cells at at_
  rw [List.getElem?_append, List.length_map, length] at at_
  split at at_
  · rw [List.getElem?_map] at at_
    obtain ⟨r, ruleAt, rfl⟩ := Option.map_eq_some_iff.mp at_
    exact mem_effective_iff_decidedAt layout syms chain ruleAt p
  · next beyond =>
      obtain ⟨only, found⟩ := List.getElem?_eq_some_iff.mp at_
      rw [List.length_singleton] at only
      have here : i = chain.rules.length := by omega
      simp only [here, Nat.sub_self, List.getElem_cons_zero] at found
      rw [← found, here]
      exact mem_fallthrough_iff_decidedAt layout syms chain p

theorem length_cells :
    (analyse layout syms chain : ChainModel B).cells.length = chain.rules.length + 1 := by
  rw [ChainModel.cells, List.length_append, List.length_map, analyse_rules_length]
  rfl

theorem cells_apart :
    (analyse layout syms chain : ChainModel B).cells.Pairwise
      (fun a b => ∀ p, ¬ (layout.mem a p = true ∧ layout.mem b p = true)) := by
  rw [List.pairwise_iff_getElem]
  intro i j iBound jBound before p both
  rw [mem_cells layout syms chain (List.getElem?_eq_getElem iBound),
    mem_cells layout syms chain (List.getElem?_eq_getElem jBound)] at both
  simp only [decide_eq_true_eq] at both
  omega

theorem cells_cover (p : Packet) :
    ∃ cell ∈ (analyse layout syms chain : ChainModel B).cells, layout.mem cell p = true := by
  have within : chain.decidedAt syms p <
      (analyse layout syms chain : ChainModel B).cells.length := by
    rw [length_cells]
    exact Nat.lt_succ_of_le (chain.decidedAt_le syms p)
  refine ⟨_, List.getElem_mem within, ?_⟩
  rw [mem_cells layout syms chain (List.getElem?_eq_getElem within), decide_eq_true_eq]

theorem partitionHolds_analyse :
    (analyse layout syms chain : ChainModel B).partitionHolds = true := by
  have length := analyse_rules_length (B := B) layout syms chain
  unfold ChainModel.partitionHolds
  apply partitionFrom_of_position layout _ (chain.decidedAt syms) 0
  · intro p
    simp
  · intro i r at_ p
    rw [Nat.zero_add]
    exact mem_effective_iff_decidedAt layout syms chain at_ p
  · intro p
    rw [Nat.zero_add, length]
    exact mem_fallthrough_iff_decidedAt layout syms chain p
  · intro p
    rw [Nat.zero_add, length]
    exact chain.decidedAt_le syms p

/-- Both derivations of the accept set give the packets that first-match
evaluation permits. -/
theorem forwardAccept_analyse :
    (analyse layout syms chain : ChainModel B).forwardAccept =
      (analyse layout syms chain : ChainModel B).accept := by
  apply layout.ext_mem
  intro p
  rw [mem_accept, mem_forwardAccept, Chain.verdict, chain.decidingRule_eq_getElem?_decidedAt,
    mem_fallthrough_iff_decidedAt, Bool.eq_iff_iff, Bool.or_eq_true, List.any_eq_true]
  simp only [Bool.and_eq_true, decide_eq_true_eq]
  have policy : (analyse layout syms chain : ChainModel B).policy = chain.policy := rfl
  rw [policy]
  have decides {r : RuleModel B} {i : Nat} (at_ : (analyse layout syms chain :
      ChainModel B).rules[i]? = some r) : layout.mem r.effective p = true ↔
        chain.decidedAt syms p = i := by
    rw [mem_effective_iff_decidedAt layout syms chain at_, decide_eq_true_eq]
  cases decided : chain.rules[chain.decidedAt syms p]? with
  | none =>
      have last : chain.decidedAt syms p = chain.rules.length :=
        Nat.le_antisymm (chain.decidedAt_le syms p) (List.getElem?_eq_none_iff.mp decided)
      constructor
      · intro permitted
        rcases permitted with ⟨r, member, _, effective⟩ | ⟨permits, _⟩
        · obtain ⟨i, at_⟩ := List.mem_iff_getElem?.mp member
          obtain ⟨bound, _⟩ := List.getElem?_eq_some_iff.mp at_
          rw [analyse_rules_length, ← (decides at_).mp effective] at bound
          omega
        · exact permits
      · exact fun permits => Or.inr ⟨permits, last⟩
  | some rule =>
      obtain ⟨bound, _⟩ := List.getElem?_eq_some_iff.mp decided
      obtain ⟨deciding, modelAt, describes⟩ :=
        exists_describing (B := B) layout syms chain decided
      have action := describes.action
      constructor
      · intro permitted
        rcases permitted with ⟨r, member, permits, effective⟩ | ⟨_, last⟩
        · obtain ⟨i, at_⟩ := List.mem_iff_getElem?.mp member
          rw [← (decides at_).mp effective, modelAt, Option.some.injEq] at at_
          rw [← at_, action] at permits
          exact permits
        · omega
      · intro permits
        refine Or.inl ⟨_, List.mem_of_getElem? modelAt, ?_, (decides modelAt).mpr rfl⟩
        rw [action]
        exact permits

/-- The model of every chain passes its self-checks: the effective sets and the
fall-through set are disjoint and cover, `matched_any` is the union of the match
sets, and the two derivations of the accept set agree. -/
theorem analyse_verifies :
    (analyse layout syms chain : ChainModel B).verify = .ok () ∧
      (analyse layout syms chain : ChainModel B).cells.Pairwise
        (fun a b => ∀ p, ¬ (layout.mem a p = true ∧ layout.mem b p = true)) ∧
      (∀ p, ∃ cell ∈ (analyse layout syms chain : ChainModel B).cells,
        layout.mem cell p = true) ∧
      (∀ p, layout.mem (analyse layout syms chain : ChainModel B).matchedAny p = true ↔
        ∃ rule ∈ chain.rules, layout.mem (layout.matchBdd rule.predicate syms : B) p = true) ∧
      (analyse layout syms chain : ChainModel B).forwardAccept =
        (analyse layout syms chain : ChainModel B).accept := by
  have agree := forwardAccept_analyse (B := B) layout syms chain
  refine ⟨?_, cells_apart layout syms chain, cells_cover layout syms chain, ?_, agree⟩
  · have same := (beq_iff _ _).mpr agree
    simp [ChainModel.verify, partitionHolds_analyse, same]
  · intro p
    rw [mem_matchedAny, List.any_eq_true]
    simp only [layout.mem_matchBdd]

end Exact

end Cells

end Fwdelta
