import Fwdelta.Engine.Packet
import Fwdelta.FirstMatch

/-
First-match evaluation as set algebra.

Two linear passes over a chain.  The forward pass accumulates what is matched
and cuts off the packets each rule decides; the backward pass computes the
accept set of every suffix.  The theorems here say what both compute, in terms
of first-match evaluation of the chain itself.
-/

namespace Fwdelta

open DecisionDiagram
open DecisionDiagram.Library

inductive Decider
  | rule (number : Nat)
  | policy
  deriving DecidableEq, Repr

/-- The hasher behind `content_key`.  It is part of the standard library of the
source, and its keys are opaque to everything built on them. -/
class ContentHasher where
  finish : Match → Action → BitVec 64

def contentKey [ContentHasher] (m : Match) (action : Action) : BitVec 64 :=
  ContentHasher.finish m action

structure RuleModel (B : Type) where
  number : Nat
  action : Action
  contentKey : BitVec 64
  matched : B
  effective : B
  shadowed : Bool
  redundant : Bool

structure ChainModel (B : Type) where
  name : String
  hook : Hook
  policy : Action
  accept : B
  matchedAny : B
  fallthrough : B
  rules : List (RuleModel B)

section Analyse

variable {B : Type} [Library HEADER_BITS B]

def ChainModel.attributePart (set : B) (label : Decider) (cell : B) : Option (Decider × B) :=
  let part := and set cell
  if isFalse part then none else some (label, part)

def ChainModel.attribute (model : ChainModel B) (set : B) : List (Decider × B) :=
  model.rules.filterMap (fun r =>
    if r.shadowed then none else ChainModel.attributePart set (.rule r.number) r.effective) ++
  (ChainModel.attributePart set .policy model.fallthrough).toList

/-- The second pass of `explain_shadow`: overlapping rules until they cover. -/
def ChainModel.contributors (target acc : B) : List (RuleModel B) → List Nat
  | [] => []
  | earlier :: rest =>
      if isFalse (and target earlier.matched) then
        ChainModel.contributors target acc rest
      else
        let grown := or acc earlier.matched
        if isFalse (andNot target grown) then [earlier.number]
        else earlier.number :: ChainModel.contributors target grown rest

def ChainModel.explainShadow (model : ChainModel B) (number : Nat) : List Nat :=
  match model.rules.findIdx? (fun r => r.number == number) with
  | none => []
  | some position =>
      match model.rules[position]? with
      | none => []
      | some target =>
          if isFalse target.matched then []
          else
            let before := model.rules.take position
            match before.find? (fun earlier =>
                isFalse (andNot target.matched earlier.matched)) with
            | some earlier => [earlier.number]
            | none =>
                ChainModel.contributors target.matched (andNot target.matched target.matched) before

def ChainModel.forwardAccept (model : ChainModel B) : B :=
  let ruled := model.rules.foldl
    (fun acc r => if r.action.permits then or acc r.effective else acc) Layout.ff
  if model.policy.permits then or ruled model.fallthrough else ruled

/-- The loop of `partition_holds`: no cell meets the union of those before. -/
def ChainModel.partitionFrom (model : ChainModel B) (seen : B) : List (RuleModel B) → Bool
  | [] => isFalse (and seen model.fallthrough) && isTrue (or seen model.fallthrough)
  | r :: rest =>
      if isFalse (and seen r.effective) then model.partitionFrom (or seen r.effective) rest
      else false

def ChainModel.partitionHolds (model : ChainModel B) : Bool :=
  model.partitionFrom Layout.ff model.rules

def ChainModel.verify (model : ChainModel B) : Except String Unit :=
  if !model.partitionHolds then
    .error "effective sets do not partition the header space"
  else if !(beq model.forwardAccept model.accept) then
    .error "forward and backward accept sets disagree"
  else
    .ok ()


variable [ContentHasher]

/-- The forward pass, from the set matched so far.  Once that set is the whole
space every later effective set is empty. -/
def analyseForward (layout : Layout) (syms : SymbolTable) (matchedAny : B)
    (saturated : Bool) : List Rule → List (RuleModel B) × B
  | [] => ([], matchedAny)
  | rule :: rest =>
      let m := layout.matchBdd rule.predicate syms
      let effective := if saturated then Layout.ff else andNot m matchedAny
      let grown := if saturated then matchedAny else or matchedAny m
      let full := if saturated then true else isTrue grown
      let later := analyseForward layout syms grown full rest
      ({ number := rule.number
         action := rule.action
         contentKey := contentKey rule.predicate rule.action
         matched := m
         effective := effective
         shadowed := isFalse effective
         redundant := false } :: later.1, later.2)

/-- The backward pass: redundancy against the accept set of each suffix, and
the accept set of the whole chain. -/
def analyseBackward (policyAccept : B) : List (RuleModel B) → List (RuleModel B) × B
  | [] => ([], policyAccept)
  | r :: rest =>
      let later := analyseBackward policyAccept rest
      let redundant :=
        if r.action.permits then isFalse (andNot r.effective later.2)
        else isFalse (and r.effective later.2)
      let suffix :=
        if r.action.permits then or r.matched later.2 else and (not r.matched) later.2
      ({ r with redundant := redundant } :: later.1, suffix)

/-- Compile a chain into its accept set and per-rule structure. -/
def analyse (layout : Layout) (syms : SymbolTable) (chain : Chain) : ChainModel B :=
  let forward := analyseForward layout syms (Layout.ff : B) false chain.rules
  let policyAccept := if chain.policy.permits then Layout.tt else Layout.ff
  let backward := analyseBackward policyAccept forward.1
  { name := chain.name
    hook := chain.hook
    policy := chain.policy
    accept := backward.2
    matchedAny := forward.2
    fallthrough := not forward.2
    rules := backward.1 }

end Analyse

/-! ### First-match evaluation of a chain -/

/-- The five interval sets hold the packet's fields, and the interface matches
resolved against the table hold its interface indices. -/
def Match.Contains (m : Match) (syms : SymbolTable) (p : Packet) : Prop :=
  m.srcAddr.contains p.src.toNat = true ∧ m.dstAddr.contains p.dst.toNat = true ∧
    m.srcPort.contains p.sport.toNat = true ∧ m.dstPort.contains p.dport.toNat = true ∧
      m.proto.contains p.proto.toNat = true ∧
        (m.iif.resolve syms).contains p.iif.toNat = true ∧
          (m.oif.resolve syms).contains p.oif.toNat = true

theorem Match.holdsAt_iff (m : Match) (syms : SymbolTable) (p : Packet) :
    m.holdsAt syms p.value = true ↔ m.Contains syms p := by
  unfold Match.holdsAt Match.Contains
  simp only [Field.all, List.all_cons, List.all_nil, Bool.and_true, Bool.and_eq_true]
  rfl

def Match.ContainsHeader (m : Match) (p : Packet) : Prop :=
  m.srcAddr.contains p.src.toNat = true ∧ m.dstAddr.contains p.dst.toNat = true ∧
    m.srcPort.contains p.sport.toNat = true ∧ m.dstPort.contains p.dport.toNat = true ∧
      m.proto.contains p.proto.toNat = true

theorem Match.contains_iff (m : Match) (syms : SymbolTable) (p : Packet) :
    m.Contains syms p ↔ m.ContainsHeader p ∧ (m.iif.resolve syms).contains p.iif.toNat = true ∧
      (m.oif.resolve syms).contains p.oif.toNat = true := by
  unfold Match.Contains Match.ContainsHeader
  tauto

theorem Match.containsHeader_any (p : Packet) : Match.any.ContainsHeader p := by
  simp only [Match.ContainsHeader, Match.any, IntervalSet.contains_full]
  exact ⟨p.value_le_domainMax .srcAddr, p.value_le_domainMax .dstAddr,
    p.value_le_domainMax .srcPort, p.value_le_domainMax .dstPort, p.value_le_domainMax .proto⟩

theorem Match.containsHeader_constrain (m : Match) (field : Field)
    (set : IntervalSet field.bits) (packet : field.isInterface = false) (p : Packet) :
    (m.constrain field set packet).ContainsHeader p ↔
      m.ContainsHeader p ∧ set.contains (p.value field) = true := by
  have split {bits : Nat} (a b : IntervalSet bits) (x : Nat) :
      (a.intersect b).contains x = true ↔ a.contains x = true ∧ b.contains x = true := by
    rw [IntervalSet.contains_intersect, Bool.and_eq_true]
  unfold Match.ContainsHeader
  cases field with
  | srcAddr =>
      have narrowed := split m.srcAddr set p.src.toNat
      simp only [Match.constrain, Packet.value, narrowed]
      tauto
  | dstAddr =>
      have narrowed := split m.dstAddr set p.dst.toNat
      simp only [Match.constrain, Packet.value, narrowed]
      tauto
  | srcPort =>
      have narrowed := split m.srcPort set p.sport.toNat
      simp only [Match.constrain, Packet.value, narrowed]
      tauto
  | dstPort =>
      have narrowed := split m.dstPort set p.dport.toNat
      simp only [Match.constrain, Packet.value, narrowed]
      tauto
  | proto =>
      have narrowed := split m.proto set p.proto.toNat
      simp only [Match.constrain, Packet.value, narrowed]
      tauto
  | ifIn => contradiction
  | ifOut => contradiction

/-- A match that no dimension rules out holds of some header. -/
theorem Match.exists_containsHeader {m : Match} (satisfiable : m.isUnsatisfiable = false) :
    ∃ p : Packet, m.ContainsHeader p := by
  have member {bits : Nat} (narrow : bits < 64) {set : IntervalSet bits}
      (inhabited : set.isEmpty = false) : ∃ x : BitVec bits, set.contains x.toNat = true := by
    obtain ⟨value, inside⟩ := set.isEmpty_eq_false_iff.mp inhabited
    have within := IntervalSet.contains_le inside
    have positive := Nat.two_pow_pos bits
    rw [domainMax_eq narrow] at within
    refine ⟨BitVec.ofNat bits value, ?_⟩
    rwa [BitVec.toNat_ofNat, Nat.mod_eq_of_lt (by omega)]
  obtain ⟨src, dst, sport, dport, proto⟩ := m.isUnsatisfiable_eq_false.mp satisfiable
  obtain ⟨a, inA⟩ := member (by decide) src
  obtain ⟨b, inB⟩ := member (by decide) dst
  obtain ⟨c, inC⟩ := member (by decide) sport
  obtain ⟨d, inD⟩ := member (by decide) dport
  obtain ⟨e, inE⟩ := member (by decide) proto
  exact ⟨⟨a, b, c, d, e, 0, 0⟩, inA, inB, inC, inD, inE⟩

namespace Chain

def decidingRule (chain : Chain) (syms : SymbolTable) (p : Packet) : Option Rule :=
  chain.rules.find? (fun rule => rule.predicate.holdsAt syms p.value)

def verdict (chain : Chain) (syms : SymbolTable) (p : Packet) : Action :=
  match chain.decidingRule syms p with
  | some rule => rule.action
  | none => chain.policy

def decider (chain : Chain) (syms : SymbolTable) (p : Packet) : Decider :=
  match chain.decidingRule syms p with
  | some rule => .rule rule.number
  | none => .policy

/-- The rule at a position is the earliest one that matches. -/
def FirstMatchAt (chain : Chain) (syms : SymbolTable) (p : Packet) (i : Nat) (rule : Rule) :
    Prop :=
  chain.rules[i]? = some rule ∧ rule.predicate.Contains syms p ∧
    ∀ j < i, ∀ earlier, chain.rules[j]? = some earlier → ¬ earlier.predicate.Contains syms p

def predicates (chain : Chain) (syms : SymbolTable) : List (Packet → Bool) :=
  chain.rules.map (fun rule p => rule.predicate.holdsAt syms p.value)

def rulings (chain : Chain) (syms : SymbolTable) : List (FirstMatch.Ruling Packet) :=
  chain.rules.map (fun rule =>
    { holds := fun p => rule.predicate.holdsAt syms p.value
      permits := rule.action.permits })

theorem decidingRule_eq_none_iff (chain : Chain) (syms : SymbolTable) (p : Packet) :
    chain.decidingRule syms p = none ↔
      chain.rules.any (fun rule => rule.predicate.holdsAt syms p.value) = false := by
  simp [decidingRule]

theorem decider_eq_policy_iff (chain : Chain) (syms : SymbolTable) (p : Packet) :
    chain.decider syms p = .policy ↔
      chain.rules.any (fun rule => rule.predicate.holdsAt syms p.value) = false := by
  rw [← decidingRule_eq_none_iff]
  unfold decider
  cases chain.decidingRule syms p <;> simp

/-- First-match evaluation picks the rule at the position of the first predicate
that holds. -/
theorem decidingRule_eq_getElem? (chain : Chain) (syms : SymbolTable) (p : Packet) :
    chain.decidingRule syms p =
      (FirstMatch.decider (chain.predicates syms) p).bind (fun i => chain.rules[i]?) := by
  unfold decidingRule FirstMatch.decider predicates
  rw [List.findIdx?_map, List.find?_eq_bind_findIdx?_getElem?]
  rfl

theorem Built.number_at {chain : Chain} (built : chain.Built) {i : Nat} {rule : Rule}
    (at_ : chain.rules[i]? = some rule) : rule.number = i + 1 := by
  have numbered := congrArg (fun list => list[i]?) built.numbers
  obtain ⟨bound, _⟩ := List.getElem?_eq_some_iff.mp at_
  simp only [List.getElem?_map, at_, Option.map_some] at numbered
  rw [List.getElem?_range' bound, Option.some.injEq] at numbered
  omega

/-- Rule numbers are distinct in a built chain, so the label of a decider
determines its position. -/
theorem Built.decider_eq_rule_iff {chain : Chain} (built : chain.Built)
    (syms : SymbolTable) {i : Nat} {rule : Rule} (at_ : chain.rules[i]? = some rule)
    (p : Packet) :
    chain.decider syms p = .rule rule.number ↔
      FirstMatch.decider (chain.predicates syms) p = some i := by
  unfold decider
  rw [decidingRule_eq_getElem?]
  cases first : FirstMatch.decider (chain.predicates syms) p with
  | none => simp
  | some j =>
      rw [Option.bind_some]
      cases decidedAt : chain.rules[j]? with
      | none =>
          -- A position the predicates decide is a position of the rule list.
          have bound := (List.findIdx?_eq_some_iff_getElem.mp first).1
          rw [predicates, List.length_map] at bound
          rw [List.getElem?_eq_getElem bound] at decidedAt
          contradiction
      | some decided =>
          have number := built.number_at at_
          have decidedNumber := built.number_at decidedAt
          simp only [Decider.rule.injEq, Option.some.injEq]
          omega

theorem decidingRule_eq_some_iff (chain : Chain) (syms : SymbolTable) (p : Packet)
    (rule : Rule) :
    chain.decidingRule syms p = some rule ↔ ∃ i, chain.FirstMatchAt syms p i rule := by
  unfold decidingRule
  rw [List.find?_eq_some_iff_getElem]
  constructor
  · intro matched
    rcases matched with ⟨holds, i, bound, rfl, none⟩
    refine ⟨i, List.getElem?_eq_getElem bound, (Match.holdsAt_iff _ _ _).mp holds, ?_⟩
    intro j before earlier at_
    obtain ⟨_, rfl⟩ := List.getElem?_eq_some_iff.mp at_
    rw [← Match.holdsAt_iff]
    simpa using none j before
  · intro located
    rcases located with ⟨i, at_, holds, none⟩
    obtain ⟨bound, found⟩ := List.getElem?_eq_some_iff.mp at_
    refine ⟨(Match.holdsAt_iff _ _ _).mpr holds, i, bound, found, ?_⟩
    intro j before
    have apart := none j before _ (List.getElem?_eq_getElem (by omega))
    rw [← Match.holdsAt_iff] at apart
    simpa using apart

theorem decidingRule_eq_none_iff_contains (chain : Chain) (syms : SymbolTable) (p : Packet) :
    chain.decidingRule syms p = none ↔
      ∀ rule ∈ chain.rules, ¬ rule.predicate.Contains syms p := by
  unfold decidingRule
  rw [List.find?_eq_none]
  simp only [Match.holdsAt_iff]

theorem verdict_permits (chain : Chain) (syms : SymbolTable) (p : Packet) :
    (chain.verdict syms p).permits =
      FirstMatch.verdict chain.policy.permits (chain.rulings syms) p := by
  unfold verdict decidingRule FirstMatch.verdict rulings
  rw [List.find?_map]
  simp only [Function.comp_def]
  cases chain.rules.find? (fun rule => rule.predicate.holdsAt syms p.value) <;> rfl

end Chain

/-! ### What the two passes compute -/

section Passes

variable {B : Type} [Library HEADER_BITS B]

def RuleModel.settled (r : RuleModel B) : Nat × Action × BitVec 64 × B × B × Bool :=
  (r.number, r.action, r.contentKey, r.matched, r.effective, r.shadowed)

theorem analyseBackward_settled (policyAccept : B) (rules : List (RuleModel B)) :
    (analyseBackward policyAccept rules).1.map RuleModel.settled =
      rules.map RuleModel.settled := by
  induction rules with
  | nil => rfl
  | cons r rest ih =>
      simp only [analyseBackward, List.map_cons, ih]
      rfl

/-- The step of the forward pass: whether or not the short-cut fires, the
accumulated set grows by the rule's match set. -/
theorem mem_grown (layout : Layout) (matchedAny m : B) (saturated : Bool)
    (whole : saturated = true → ∀ p, layout.mem matchedAny p = true) (p : Packet) :
    layout.mem (if saturated then matchedAny else or matchedAny m) p =
      (layout.mem matchedAny p || layout.mem m p) := by
  cases saturated with
  | false => simp
  | true => simp [whole rfl p]

theorem mem_effective (layout : Layout) (matchedAny m : B) (saturated : Bool)
    (whole : saturated = true → ∀ p, layout.mem matchedAny p = true) (p : Packet) :
    layout.mem (if saturated then Layout.ff else andNot m matchedAny) p =
      (layout.mem m p && !layout.mem matchedAny p) := by
  cases saturated with
  | false => simp
  | true => simp [whole rfl p]

theorem whole_of_full (layout : Layout) (matchedAny m : B) (saturated : Bool)
    (whole : saturated = true → ∀ p, layout.mem matchedAny p = true)
    (full : (if saturated then true
      else isTrue (if saturated then matchedAny else or matchedAny m)) = true) (p : Packet) :
    layout.mem (if saturated then matchedAny else or matchedAny m) p = true := by
  cases saturated with
  | false => exact (layout.isTrue_iff_mem _).mp full p
  | true => exact whole rfl p

/-- The run of the backward pass: the suffix recurrence of first-match. -/
theorem analyseBackward_accept (layout : Layout) (policyAccept : B) (policy : Bool)
    (rules : List (RuleModel B)) (p : Packet)
    (start : layout.mem policyAccept p = policy) :
    layout.mem (analyseBackward policyAccept rules).2 p =
      FirstMatch.suffixAccept policy
        (rules.map (fun r => ⟨layout.mem r.matched, r.action.permits⟩)) p := by
  induction rules with
  | nil => exact start
  | cons r rest ih =>
      simp only [analyseBackward, List.map_cons, FirstMatch.suffixAccept]
      cases r.action.permits with
      | true => simp [ih]
      | false => simp [ih]

end Passes

section Correctness

variable {B : Type} [Library HEADER_BITS B] [ContentHasher]

theorem analyseForward_static (layout : Layout) (syms : SymbolTable) (matchedAny : B)
    (saturated : Bool) (rules : List Rule) :
    (analyseForward layout syms matchedAny saturated rules).1.map
        (fun r => (r.number, r.action, r.contentKey, r.matched)) =
      rules.map (fun rule =>
        (rule.number, rule.action, contentKey rule.predicate rule.action,
          layout.matchBdd rule.predicate syms)) := by
  induction rules generalizing matchedAny saturated with
  | nil => rfl
  | cons rule rest ih => simp only [analyseForward, List.map_cons, ih]

theorem analyseForward_shadowed (layout : Layout) (syms : SymbolTable) (matchedAny : B)
    (saturated : Bool) (rules : List Rule) :
    ∀ r ∈ (analyseForward layout syms matchedAny saturated rules).1,
      r.shadowed = isFalse r.effective := by
  induction rules generalizing matchedAny saturated with
  | nil => simp [analyseForward]
  | cons rule rest ih =>
      intro r member
      simp only [analyseForward, List.mem_cons] at member
      rcases member with rfl | member
      · rfl
      · exact ih _ _ r member

/-- The run of the forward pass: the effective sets are the cells of first-match
evaluation. -/
theorem analyseForward_effective (layout : Layout) (syms : SymbolTable) (matchedAny : B)
    (saturated : Bool) (rules : List Rule)
    (whole : saturated = true → ∀ p, layout.mem matchedAny p = true) :
    (analyseForward layout syms matchedAny saturated rules).1.map
        (fun r p => layout.mem r.effective p) =
      FirstMatch.cells (layout.mem matchedAny)
        (rules.map (fun rule p => rule.predicate.holdsAt syms p.value)) := by
  induction rules generalizing matchedAny saturated with
  | nil => rfl
  | cons rule rest ih =>
      simp only [analyseForward, List.map_cons, FirstMatch.cells]
      congr 1
      · funext p
        rw [mem_effective layout _ _ _ whole, layout.mem_matchBdd]
      · rw [ih _ _ (fun full p => whole_of_full layout _ _ _ whole full p)]
        congr 1
        funext p
        rw [mem_grown layout _ _ _ whole, layout.mem_matchBdd]

theorem analyseForward_matchedAny (layout : Layout) (syms : SymbolTable) (matchedAny : B)
    (saturated : Bool) (rules : List Rule)
    (whole : saturated = true → ∀ p, layout.mem matchedAny p = true) (p : Packet) :
    layout.mem (analyseForward layout syms matchedAny saturated rules).2 p =
      (layout.mem matchedAny p ||
        rules.any (fun rule => rule.predicate.holdsAt syms p.value)) := by
  induction rules generalizing matchedAny saturated with
  | nil => simp [analyseForward]
  | cons rule rest ih =>
      simp only [analyseForward, List.any_cons]
      rw [ih _ _ (fun full p => whole_of_full layout _ _ _ whole full p),
        mem_grown layout _ _ _ whole, layout.mem_matchBdd, Bool.or_assoc]

theorem rulings_analyseForward (layout : Layout) (syms : SymbolTable) (chain : Chain) :
    (analyseForward layout syms (Layout.ff : B) false chain.rules).1.map
        (fun r => (⟨layout.mem r.matched, r.action.permits⟩ : FirstMatch.Ruling Packet)) =
      chain.rulings syms := by
  have static := congrArg
    (List.map (fun (facts : Nat × Action × BitVec 64 × B) =>
      (⟨layout.mem facts.2.2.2, facts.2.1.permits⟩ : FirstMatch.Ruling Packet)))
    (analyseForward_static layout syms (Layout.ff : B) false chain.rules)
  rw [List.map_map, List.map_map] at static
  apply static.trans
  unfold Chain.rulings
  apply List.map_congr_left
  intro rule _
  simp only [Function.comp_apply, FirstMatch.Ruling.mk.injEq, and_true]
  funext p
  exact layout.mem_matchBdd rule.predicate syms p

theorem mem_accept (layout : Layout) (syms : SymbolTable) (chain : Chain) (p : Packet) :
    layout.mem (analyse layout syms chain : ChainModel B).accept p =
      (chain.verdict syms p).permits := by
  unfold analyse
  simp only
  rw [analyseBackward_accept layout _ chain.policy.permits, rulings_analyseForward,
    FirstMatch.suffixAccept_eq_verdict, chain.verdict_permits]
  cases chain.policy.permits <;> simp

theorem mem_matchedAny (layout : Layout) (syms : SymbolTable) (chain : Chain) (p : Packet) :
    layout.mem (analyse layout syms chain : ChainModel B).matchedAny p =
      chain.rules.any (fun rule => rule.predicate.holdsAt syms p.value) := by
  unfold analyse
  simp only
  rw [analyseForward_matchedAny layout syms _ false _ (by simp), Layout.mem_ff, Bool.false_or]

theorem mem_fallthrough (layout : Layout) (syms : SymbolTable) (chain : Chain) (p : Packet) :
    layout.mem (analyse layout syms chain : ChainModel B).fallthrough p =
      decide (chain.decider syms p = .policy) := by
  have complement : layout.mem (analyse layout syms chain : ChainModel B).fallthrough p =
      !layout.mem (analyse layout syms chain : ChainModel B).matchedAny p := by
    unfold analyse
    exact layout.mem_not _ p
  rw [complement, mem_matchedAny, Bool.eq_iff_iff, Bool.not_eq_true', decide_eq_true_eq,
    chain.decider_eq_policy_iff]

/-- The backward recurrence computes first-match evaluation: a packet is in the
accept set when the earliest rule that matches it accepts, or when no rule
matches and the policy does. -/
theorem analyse_accept_exact (layout : Layout) (syms : SymbolTable) (chain : Chain)
    (p : Packet) :
    layout.mem (analyse layout syms chain : ChainModel B).accept p = true ↔
      (∃ i rule, chain.FirstMatchAt syms p i rule ∧ rule.action = .accept) ∨
        ((∀ rule ∈ chain.rules, ¬ rule.predicate.Contains syms p) ∧
          chain.policy = .accept) := by
  rw [mem_accept, Chain.verdict, ← chain.decidingRule_eq_none_iff_contains]
  cases decided : chain.decidingRule syms p with
  | none =>
      have undecided (i : Nat) (rule : Rule) : ¬ chain.FirstMatchAt syms p i rule := by
        intro first
        rw [(chain.decidingRule_eq_some_iff syms p rule).mpr ⟨i, first⟩] at decided
        contradiction
      simp [undecided, Action.permits_iff]
  | some rule =>
      obtain ⟨i, first⟩ := (chain.decidingRule_eq_some_iff syms p rule).mp decided
      simp only [Action.permits_iff, reduceCtorEq, false_and, or_false]
      constructor
      · exact fun accepts => ⟨i, rule, first, accepts⟩
      · intro given
        rcases given with ⟨j, other, otherFirst, accepts⟩
        have same := (chain.decidingRule_eq_some_iff syms p other).mpr ⟨j, otherFirst⟩
        rw [decided, Option.some.injEq] at same
        rwa [same]

/-- What the model says about the rule at a position. -/
structure RuleModel.Describes (layout : Layout) (syms : SymbolTable) (chain : Chain)
    (i : Nat) (r : RuleModel B) (rule : Rule) : Prop where
  number : r.number = rule.number
  action : r.action = rule.action
  key : r.contentKey = Fwdelta.contentKey rule.predicate rule.action
  matched : ∀ p, layout.mem r.matched p = rule.predicate.holdsAt syms p.value
  effective : ∀ p, layout.mem r.effective p =
    decide (FirstMatch.decider (chain.predicates syms) p = some i)
  shadowed : r.shadowed = isFalse r.effective

theorem analyse_rules_settled (layout : Layout) (syms : SymbolTable) (chain : Chain) :
    (analyse layout syms chain : ChainModel B).rules.map RuleModel.settled =
      (analyseForward layout syms (Layout.ff : B) false chain.rules).1.map
        RuleModel.settled :=
  analyseBackward_settled _ _

theorem analyse_rules_length (layout : Layout) (syms : SymbolTable) (chain : Chain) :
    (analyse layout syms chain : ChainModel B).rules.length = chain.rules.length := by
  have settled := congrArg List.length (analyse_rules_settled (B := B) layout syms chain)
  have static := congrArg List.length
    (analyseForward_static layout syms (Layout.ff : B) false chain.rules)
  simp only [List.length_map] at settled static
  exact settled.trans static

/-- Position by position, the model describes the chain's rules. -/
theorem analyse_describes (layout : Layout) (syms : SymbolTable) (chain : Chain)
    {i : Nat} {r : RuleModel B} {rule : Rule}
    (modelAt : (analyse layout syms chain : ChainModel B).rules[i]? = some r)
    (ruleAt : chain.rules[i]? = some rule) :
    r.Describes layout syms chain i rule := by
  have settled := congrArg (fun list => list[i]?)
    (analyse_rules_settled (B := B) layout syms chain)
  simp only [List.getElem?_map, modelAt, Option.map_some] at settled
  cases forwardAt :
      (analyseForward layout syms (Layout.ff : B) false chain.rules).1[i]? with
  | none => simp [forwardAt] at settled
  | some f =>
      rw [forwardAt, Option.map_some, Option.some.injEq] at settled
      simp only [RuleModel.settled, Prod.mk.injEq] at settled
      obtain ⟨number, action, key, matched, effective, shadowed⟩ := settled
      have static := congrArg (fun list => list[i]?)
        (analyseForward_static layout syms (Layout.ff : B) false chain.rules)
      simp only [List.getElem?_map, forwardAt, ruleAt, Option.map_some, Option.some.injEq,
        Prod.mk.injEq] at static
      have cell := congrArg (fun list => list[i]?)
        (analyseForward_effective layout syms (Layout.ff : B) false chain.rules (by simp))
      simp only [List.getElem?_map, forwardAt, Option.map_some] at cell
      constructor
      · exact number.trans static.1
      · exact action.trans static.2.1
      · exact key.trans static.2.2.1
      · intro p
        rw [matched, static.2.2.2, layout.mem_matchBdd]
      · intro p
        rw [effective]
        have decided := FirstMatch.cells_apply cell.symm p
        rwa [Layout.mem_ff, Bool.not_false, Bool.true_and] at decided
      · rw [shadowed, effective]
        exact analyseForward_shadowed layout syms _ _ _ f (List.mem_of_getElem? forwardAt)

theorem exists_described (layout : Layout) (syms : SymbolTable) (chain : Chain) {i : Nat}
    {r : RuleModel B}
    (modelAt : (analyse layout syms chain : ChainModel B).rules[i]? = some r) :
    ∃ rule, chain.rules[i]? = some rule ∧ r.Describes layout syms chain i rule := by
  obtain ⟨bound, _⟩ := List.getElem?_eq_some_iff.mp modelAt
  rw [analyse_rules_length] at bound
  have ruleAt := List.getElem?_eq_getElem bound
  exact ⟨_, ruleAt, analyse_describes layout syms chain modelAt ruleAt⟩

theorem exists_describing (layout : Layout) (syms : SymbolTable) (chain : Chain) {i : Nat}
    {rule : Rule} (ruleAt : chain.rules[i]? = some rule) :
    ∃ r, (analyse layout syms chain : ChainModel B).rules[i]? = some r ∧
      r.Describes layout syms chain i rule := by
  obtain ⟨bound, _⟩ := List.getElem?_eq_some_iff.mp ruleAt
  rw [← analyse_rules_length (B := B) layout syms chain] at bound
  have modelAt := List.getElem?_eq_getElem bound
  exact ⟨_, modelAt, analyse_describes layout syms chain modelAt ruleAt⟩

/-! ### Packets no rule tells apart -/

/-- Packets that no rule of the chain tells apart are in the same cells of the
model. -/
theorem analyse_congr (layout : Layout) (syms : SymbolTable) (chain : Chain) {p q : Packet}
    (agree : ∀ rule ∈ chain.rules,
      rule.predicate.holdsAt syms p.value = rule.predicate.holdsAt syms q.value) :
    (∀ r ∈ (analyse layout syms chain : ChainModel B).rules,
      layout.mem r.effective p = layout.mem r.effective q) ∧
    layout.mem (analyse layout syms chain : ChainModel B).fallthrough p =
      layout.mem (analyse layout syms chain : ChainModel B).fallthrough q ∧
    layout.mem (analyse layout syms chain : ChainModel B).accept p =
      layout.mem (analyse layout syms chain : ChainModel B).accept q := by
  have samePosition : FirstMatch.decider (chain.predicates syms) p =
      FirstMatch.decider (chain.predicates syms) q := by
    have listed (x : Packet) : FirstMatch.decider (chain.predicates syms) x =
        ((chain.rules.map (fun rule => rule.predicate.holdsAt syms x.value)).findIdx? id) := by
      unfold FirstMatch.decider Chain.predicates
      rw [List.findIdx?_map, List.findIdx?_map]
      rfl
    rw [listed, listed, List.map_congr_left agree]
  have sameRule : chain.decidingRule syms p = chain.decidingRule syms q := by
    rw [Chain.decidingRule_eq_getElem?, Chain.decidingRule_eq_getElem?, samePosition]
  refine ⟨fun r member => ?_, ?_, ?_⟩
  · obtain ⟨i, modelAt⟩ := List.mem_iff_getElem?.mp member
    obtain ⟨_, _, describes⟩ := exists_described layout syms chain modelAt
    rw [describes.effective, describes.effective, samePosition]
  · rw [mem_fallthrough, mem_fallthrough, Chain.decider, Chain.decider, sameRule]
  · rw [mem_accept, mem_accept, Chain.verdict, Chain.verdict, sameRule]

end Correctness

end Fwdelta
