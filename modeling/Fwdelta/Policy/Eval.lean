import Fwdelta.Engine.Accept
import Fwdelta.Policy.Parse

/-
Checking assertions against the model.

Isolation asks that the assertion's packets miss the accept set, reachability
that they lie in it.  An assertion whose packets no rule matches is reported as
vacuous, which says nothing about the default policy: the theorems say what
each outcome establishes, and when a vacuous assertion holds.
-/

namespace Fwdelta

open DecisionDiagram
open DecisionDiagram.Library

inductive Outcome
  | pass
  | fail (counterexample : Packet)
  | vacuous (reason : String)
  deriving DecidableEq, Repr

structure Report where
  name : String
  kind : Kind
  summary : String
  outcome : Outcome
  chain : String
  deriving DecidableEq

/-- Addresses any rule in either revision talks about. -/
structure Mentioned where
  addresses : IntervalSet 32

namespace Mentioned

/-- A dimension that a rule leaves open mentions no address. -/
def add (addresses set : IntervalSet 32) : IntervalSet 32 :=
  if set.isFull then addresses else addresses.union set

def addRule (addresses : IntervalSet 32) (rule : Rule) : IntervalSet 32 :=
  add (add addresses rule.predicate.srcAddr) rule.predicate.dstAddr

def of (rulesets : List Ruleset) : Mentioned where
  addresses := ((rulesets.flatMap Ruleset.chains).flatMap Chain.rules).foldl addRule
    (IntervalSet.empty 32)

def covers (mentioned : Mentioned) (set : IntervalSet 32) : Bool :=
  !(mentioned.addresses.intersect set).isEmpty

end Mentioned

namespace Policy

def constrainBy (m : Match) (field : Field) (packet : field.isInterface = false) :
    Option (IntervalSet field.bits) → Match
  | none => m
  | some set => m.constrain field set packet

def resolveEnd (policy : Policy) : Option Endpoint → Except PolicyError (Option (IntervalSet 32))
  | none => .ok none
  | some e => do
      let set ← policy.resolve e
      .ok (some set)

def assertionMatch (policy : Policy) (a : Assertion) : Except PolicyError Match := do
  let src ← policy.resolveEnd a.from_
  let dst ← policy.resolveEnd a.to_
  let m := constrainBy Match.any .srcAddr Field.srcAddr_packet src
  let m := constrainBy m .dstAddr Field.dstAddr_packet dst
  let m := constrainBy m .proto Field.proto_packet a.proto
  let m := constrainBy m .srcPort Field.srcPort_packet a.sport
  let m := constrainBy m .dstPort Field.dstPort_packet a.dport
  .ok ((m.withIif a.iifMatch).withOif a.oifMatch)

/-- The part of the hint about one end, when no rule mentions its addresses. -/
def unmentionedSide (policy : Policy) (mentioned : Mentioned) (side : String) :
    Option Endpoint → Except PolicyError (List String)
  | none => .ok []
  | some e => do
      let set ← policy.resolve e
      if mentioned.covers set then .ok []
      else
        match e with
        | .zone n => .ok [s!"{side} zone `{n}`"]
        | .literal n => .ok [s!"{side} `{n}`"]

/-- A diagnostic hint, not the vacuity test itself. -/
def unmentionedEndpoint (policy : Policy) (a : Assertion) (mentioned : Mentioned) :
    Except PolicyError (Option String) := do
  let source ← policy.unmentionedSide mentioned "from" a.from_
  let target ← policy.unmentionedSide mentioned "to" a.to_
  let found := source ++ target
  if found.isEmpty then .ok none
  else
    let listed := " or ".intercalate found
    .ok (some (s!"No address in {listed} appears anywhere in either revision, " ++
      "which usually means a typo in the zone definition"))

section Check

variable {B : Type} [Library HEADER_BITS B]

def assertionSet (layout : Layout) (syms : SymbolTable) (policy : Policy) (a : Assertion) :
    Except PolicyError B := do
  let m ← policy.assertionMatch a
  .ok (layout.matchBdd m syms)

def noPacketReason : String :=
  "the assertion describes no packet; its constraints contradict each other"

/-- Why an assertion that no rule matches is vacuous, with the hint. -/
def noRuleReason (policy : Policy) (name : String) (a : Assertion) (mentioned : Mentioned) :
    Except PolicyError String := do
  let reason :=
    s!"no rule in chain `{name}` matches any packet this assertion describes, " ++
      "so the result comes from the default policy rather than from the rules"
  match ← policy.unmentionedEndpoint a mentioned with
  | some hint => .ok (reason ++ s!". {hint}")
  | none => .ok reason

def offending (set : B) (model : ChainModel B) : Kind → B
  | .isolation => and set model.accept
  | .reachability => andNot set model.accept

def outcome (layout : Layout) (policy : Policy) (model : ChainModel B) (mentioned : Mentioned)
    (a : Assertion) (set : B) : Except PolicyError Outcome :=
  if isFalse set then .ok (.vacuous noPacketReason)
  else if isFalse (and set model.matchedAny) then do
    let reason ← policy.noRuleReason model.name a mentioned
    .ok (.vacuous reason)
  else
    match layout.witness (offending set model a.kind) with
    | some counterexample => .ok (.fail counterexample)
    | none => .ok .pass

/-- Check one assertion against one chain's accept set. -/
def check (layout : Layout) (syms : SymbolTable) (policy : Policy) (model : ChainModel B)
    (mentioned : Mentioned) (a : Assertion) : Except PolicyError Report := do
  let set ← assertionSet layout syms policy a
  let found ← policy.outcome layout model mentioned a (set : B)
  .ok {
    name := a.name
    kind := a.kind
    summary := a.summary
    outcome := found
    chain := model.name }

def targets (models : List (ChainModel B)) (a : Assertion) : List (ChainModel B) :=
  match a.chain with
  | some name => models.filter (fun m => m.name == name)
  | none => models

/-- Check an assertion against every chain it applies to, which must exist. -/
def evaluateAssertion (layout : Layout) (syms : SymbolTable) (policy : Policy)
    (models : List (ChainModel B)) (mentioned : Mentioned) (a : Assertion) :
    Except PolicyError (List Report) :=
  let targets := targets models a
  if targets.isEmpty then
    let named := a.chain.getD ""
    .error ((PolicyError.new s!"no chain named `{named}`").located s!"assertion `{a.name}`")
  else targets.mapM (fun model => check layout syms policy model mentioned a)

/-- Check every assertion against every chain it applies to. -/
def evaluate (layout : Layout) (syms : SymbolTable) (policy : Policy)
    (models : List (ChainModel B)) (mentioned : Mentioned) : Except PolicyError (List Report) := do
  let reports ← policy.assertions.mapM (evaluateAssertion layout syms policy models mentioned)
  .ok reports.flatten

end Check

end Policy

/-! ### What an assertion describes -/

def Kind.wanted : Kind → Bool
  | .isolation => false
  | .reachability => true

structure Policy.Describes (policy : Policy) (syms : SymbolTable) (a : Assertion) (p : Packet) :
    Prop where
  src : ∀ e ∈ a.from_, ∃ set, policy.resolve e = .ok set ∧ set.contains p.src.toNat = true
  dst : ∀ e ∈ a.to_, ∃ set, policy.resolve e = .ok set ∧ set.contains p.dst.toNat = true
  proto : ∀ set ∈ a.proto, set.contains p.proto.toNat = true
  sport : ∀ set ∈ a.sport, set.contains p.sport.toNat = true
  dport : ∀ set ∈ a.dport, set.contains p.dport.toNat = true
  iif : ∀ name ∈ a.iif, syms.nameOf p.iif.toNat = some name
  oif : ∀ name ∈ a.oif, syms.nameOf p.oif.toNat = some name

/-- The chain gives every packet the assertion describes the verdict it asks for. -/
def Policy.Holds (policy : Policy) (syms : SymbolTable) (chain : Chain) (a : Assertion) : Prop :=
  ∀ p, policy.Describes syms a p → (chain.verdict syms p).permits = a.kind.wanted

def Policy.Decides (policy : Policy) (syms : SymbolTable) (chain : Chain) (a : Assertion) : Prop :=
  ∃ p, policy.Describes syms a p ∧ ∃ rule ∈ chain.rules, rule.predicate.Contains syms p

namespace Policy

theorem containsHeader_constrainBy (m : Match) (field : Field) (packet : field.isInterface = false)
    (set : Option (IntervalSet field.bits)) (p : Packet) :
    (constrainBy m field packet set).ContainsHeader p ↔
      m.ContainsHeader p ∧ ∀ s ∈ set, s.contains (p.value field) = true := by
  cases set with
  | none => simp [constrainBy]
  | some s => simp [constrainBy, Match.containsHeader_constrain]

/-- An interface constraint holds of the one name it gives. -/
theorem contains_interface (syms : SymbolTable) (name : Option String) (index : BitVec 8) :
    ((match name with
      | none => IfMatch.any
      | some n => IfMatch.one n).resolve syms).contains index.toNat = true ↔
      ∀ n ∈ name, syms.nameOf index.toNat = some n := by
  cases name with
  | none =>
      have within : index.toNat ≤ domainMax IF_BITS := by
        have top : domainMax IF_BITS = 255 := by decide
        have below := index.isLt
        omega
      simp [IfMatch.resolve, within]
  | some n => simp [IfMatch.resolve, IfMatch.one, IfMatch.contains_resolveNames]

section Resolved

variable {policy : Policy} {a : Assertion}

theorem resolveEnd_spec (policy : Policy) {e : Option Endpoint} (resolves : ∀ x ∈ e.toList, ∃ set,
    policy.resolve x = .ok set) :
    ∃ set, policy.resolveEnd e = .ok set ∧ ∀ x, (∀ s ∈ set, s.contains x = true) ↔
      ∀ y ∈ e, ∃ s, policy.resolve y = .ok s ∧ s.contains x = true := by
  cases e with
  | none => exact ⟨none, rfl, by simp⟩
  | some y =>
      obtain ⟨set, resolved⟩ := resolves y (by simp)
      refine ⟨some set, ?_, ?_⟩
      · simp [resolveEnd, resolved, bind, Except.bind]
      · simp [resolved]

theorem assertionMatch_spec (resolves : policy.Resolves a) :
    ∃ m, policy.assertionMatch a = .ok m ∧
      ∀ syms p, m.Contains syms p ↔ policy.Describes syms a p := by
  obtain ⟨src, srcOk, srcSays⟩ := policy.resolveEnd_spec (e := a.from_)
    (fun x member => resolves x (List.mem_append_left _ member))
  obtain ⟨dst, dstOk, dstSays⟩ := policy.resolveEnd_spec (e := a.to_)
    (fun x member => resolves x (List.mem_append_right _ member))
  refine ⟨_, by
    rw [assertionMatch, srcOk, dstOk]
    rfl, fun syms p => ?_⟩
  apply (Match.contains_iff _ _ _).trans
  -- The constraints, the last one first.
  have header (m : Match) :
      (constrainBy (constrainBy (constrainBy (constrainBy (constrainBy m
        .srcAddr Field.srcAddr_packet src) .dstAddr Field.dstAddr_packet dst)
        .proto Field.proto_packet a.proto) .srcPort Field.srcPort_packet a.sport)
        .dstPort Field.dstPort_packet a.dport).ContainsHeader p ↔
      ((((m.ContainsHeader p ∧ ∀ s ∈ src, s.contains p.src.toNat = true) ∧
        ∀ s ∈ dst, s.contains p.dst.toNat = true) ∧
        ∀ s ∈ a.proto, s.contains p.proto.toNat = true) ∧
        ∀ s ∈ a.sport, s.contains p.sport.toNat = true) ∧
        ∀ s ∈ a.dport, s.contains p.dport.toNat = true := by
    refine (containsHeader_constrainBy _ .dstPort _ a.dport p).trans (and_congr_left' ?_)
    refine (containsHeader_constrainBy _ .srcPort _ a.sport p).trans (and_congr_left' ?_)
    refine (containsHeader_constrainBy _ .proto _ a.proto p).trans (and_congr_left' ?_)
    refine (containsHeader_constrainBy _ .dstAddr _ dst p).trans (and_congr_left' ?_)
    exact containsHeader_constrainBy _ .srcAddr _ src p
  apply (and_congr_left' (header Match.any)).trans
  have iif : (a.iifMatch.resolve syms).contains p.iif.toNat = true ↔
      ∀ n ∈ a.iif, syms.nameOf p.iif.toNat = some n := contains_interface syms a.iif p.iif
  have oif : (a.oifMatch.resolve syms).contains p.oif.toNat = true ↔
      ∀ n ∈ a.oif, syms.nameOf p.oif.toNat = some n := contains_interface syms a.oif p.oif
  constructor
  · intro agreed
    rcases agreed with ⟨⟨⟨⟨⟨⟨_, inSrc⟩, inDst⟩, inProto⟩, inSport⟩, inDport⟩, inIif, inOif⟩
    exact ⟨(srcSays _).mp inSrc, (dstSays _).mp inDst, inProto, inSport, inDport, iif.mp inIif,
      oif.mp inOif⟩
  · intro agreed
    rcases agreed with ⟨inSrc, inDst, inProto, inSport, inDport, inIif, inOif⟩
    exact ⟨⟨⟨⟨⟨⟨Match.containsHeader_any p, (srcSays _).mpr inSrc⟩, (dstSays _).mpr inDst⟩,
      inProto⟩, inSport⟩, inDport⟩, iif.mpr inIif, oif.mpr inOif⟩

theorem unmentionedSide_ok (mentioned : Mentioned) (side : String) {e : Option Endpoint}
    (resolves : ∀ x ∈ e.toList, ∃ set, policy.resolve x = .ok set) :
    ∃ found, policy.unmentionedSide mentioned side e = .ok found := by
  cases e with
  | none => exact ⟨[], rfl⟩
  | some y =>
      obtain ⟨set, resolved⟩ := resolves y (by simp)
      simp only [unmentionedSide, resolved, bind, Except.bind]
      split
      · exact ⟨_, rfl⟩
      · split <;> exact ⟨_, rfl⟩

theorem noRuleReason_ok (resolves : policy.Resolves a) (name : String) (mentioned : Mentioned) :
    ∃ reason, policy.noRuleReason name a mentioned = .ok reason := by
  obtain ⟨source, sourceOk⟩ := unmentionedSide_ok (e := a.from_) mentioned "from"
    (fun x member => resolves x (List.mem_append_left _ member))
  obtain ⟨target, targetOk⟩ := unmentionedSide_ok (e := a.to_) mentioned "to"
    (fun x member => resolves x (List.mem_append_right _ member))
  have hinted : ∃ hint, policy.unmentionedEndpoint a mentioned = .ok hint := by
    simp only [unmentionedEndpoint, sourceOk, targetOk, bind, Except.bind]
    split <;> exact ⟨_, rfl⟩
  obtain ⟨hint, hintOk⟩ := hinted
  simp only [noRuleReason, hintOk, bind, Except.bind]
  cases hint <;> exact ⟨_, rfl⟩

end Resolved

section CheckSpec

variable {B : Type} [Library HEADER_BITS B] {policy : Policy} {a : Assertion}

theorem assertionSet_spec (layout : Layout) (syms : SymbolTable) (resolves : policy.Resolves a) :
    ∃ set : B, assertionSet layout syms policy a = .ok set ∧
      ∀ p, layout.mem set p = true ↔ policy.Describes syms a p := by
  obtain ⟨m, built, exact_⟩ := assertionMatch_spec resolves
  refine ⟨layout.matchBdd m syms, ?_, fun p => ?_⟩
  · rw [assertionSet, built]
    rfl
  · rw [layout.mem_matchBdd, Match.holdsAt_iff, exact_]

theorem mem_offending (layout : Layout) (set : B) (model : ChainModel B) (kind : Kind)
    (p : Packet) : layout.mem (offending set model kind) p = true ↔
      layout.mem set p = true ∧ layout.mem model.accept p ≠ kind.wanted := by
  cases kind <;> simp [offending, Kind.wanted]

/-- What each outcome of an assertion establishes. -/
def Establishes (policy : Policy) (syms : SymbolTable) (chain : Chain) (a : Assertion) :
    Outcome → Prop
  | .pass => policy.Decides syms chain a ∧ policy.Holds syms chain a
  | .fail p => policy.Decides syms chain a ∧ policy.Describes syms a p ∧
      (chain.verdict syms p).permits ≠ a.kind.wanted
  | .vacuous _ => ¬ policy.Decides syms chain a

theorem Establishes.exists_vacuous {syms : SymbolTable} {chain : Chain} {found : Outcome}
    (establishes : policy.Establishes syms chain a found)
    (undecided : ¬ policy.Decides syms chain a) : ∃ reason, found = .vacuous reason := by
  cases found with
  | pass => exact absurd establishes.1 undecided
  | fail counterexample => exact absurd establishes.1 undecided
  | vacuous reason => exact ⟨reason, rfl⟩

variable [ContentHasher]

/-- Checking an assertion whose endpoints resolve succeeds, and its outcome
establishes what it says. -/
theorem check_spec (layout : Layout) (syms : SymbolTable) (chain : Chain) (mentioned : Mentioned)
    (resolves : policy.Resolves a) :
    ∃ report, check layout syms policy (analyse layout syms chain : ChainModel B) mentioned a =
      .ok report ∧ report.chain = chain.name ∧
        policy.Establishes syms chain a report.outcome := by
  obtain ⟨set, built, described⟩ := assertionSet_spec (B := B) layout syms resolves
  obtain ⟨reason, reasonOk⟩ := noRuleReason_ok resolves chain.name mentioned
  let model : ChainModel B := analyse layout syms chain
  have matched (p : Packet) : layout.mem model.matchedAny p = true ↔
      ∃ rule ∈ chain.rules, rule.predicate.Contains syms p := by
    rw [mem_matchedAny, List.any_eq_true]
    simp only [Match.holdsAt_iff]
  have decides : isFalse (and set model.matchedAny) = false ↔ policy.Decides syms chain a := by
    rw [layout.isFalse_eq_false_iff_mem]
    simp only [Layout.mem_and, Bool.and_eq_true, described, matched]
    rfl
  suffices found : ∃ outcome, policy.outcome layout model mentioned a set = .ok outcome ∧
      policy.Establishes syms chain a outcome by
    obtain ⟨outcome, ok, establishes⟩ := found
    refine ⟨⟨a.name, a.kind, a.summary, outcome, chain.name⟩, ?_, rfl, establishes⟩
    rw [check, built]
    simp only [bind, Except.bind, model] at ok ⊢
    rw [ok]
    rfl
  unfold outcome
  split
  · next empty =>
      refine ⟨_, rfl, ?_⟩
      intro given
      rcases given with ⟨p, describes, _⟩
      rw [layout.isFalse_iff_mem] at empty
      rw [← described, empty p] at describes
      contradiction
  · split
    · next apart =>
        refine ⟨.vacuous reason, ?_, ?_⟩
        · have named : model.name = chain.name := rfl
          rw [named, reasonOk]
          rfl
        · intro decided
          rw [← decides, apart] at decided
          contradiction
    · next met =>
        have decided := decides.mp (Bool.eq_false_iff.mpr met)
        split
        · next counterexample found =>
            have offends := layout.witness_eq_some found
            rw [mem_offending, described, mem_accept] at offends
            exact ⟨_, rfl, decided, offends⟩
        · next none =>
            refine ⟨_, rfl, decided, fun p describes => ?_⟩
            rw [layout.witness_eq_none_iff, layout.isFalse_iff_mem] at none
            by_contra broken
            have offends := (mem_offending layout set model a.kind p).mpr
              ⟨(described p).mpr describes, by rwa [mem_accept]⟩
            rw [none p] at offends
            contradiction

/-- Pass and Fail are exact: a counterexample is a described packet with the
forbidden verdict, a pass speaks of every described packet, and a violation that
the rules can see is found. -/
theorem pass_and_fail_exact (layout : Layout) (syms : SymbolTable) (chain : Chain)
    (mentioned : Mentioned) (resolves : policy.Resolves a) :
    ∃ report, check layout syms policy (analyse layout syms chain : ChainModel B) mentioned a =
      .ok report ∧
        (∀ q, report.outcome = .fail q →
          policy.Describes syms a q ∧ (chain.verdict syms q).permits = !a.kind.wanted) ∧
        (report.outcome = .pass →
          (∃ p, policy.Describes syms a p) ∧
          (∃ rule ∈ chain.rules, ∃ p, policy.Describes syms a p ∧
            rule.predicate.Contains syms p) ∧
          ∀ p, policy.Describes syms a p → (chain.verdict syms p).permits = a.kind.wanted) ∧
        ((∃ rule ∈ chain.rules, ∃ p, policy.Describes syms a p ∧
            rule.predicate.Contains syms p) →
          (∃ p, policy.Describes syms a p ∧
            (chain.verdict syms p).permits = !a.kind.wanted) →
          ∃ q, report.outcome = .fail q) := by
  obtain ⟨report, checked, _, establishes⟩ :=
    check_spec (B := B) layout syms chain mentioned resolves
  refine ⟨report, checked, ?_, ?_, ?_⟩
  · intro q failed
    rw [failed] at establishes
    obtain ⟨_, describes, broken⟩ := establishes
    exact ⟨describes, Bool.eq_not.mpr broken⟩
  · intro passed
    rw [passed] at establishes
    obtain ⟨⟨p, describes, rule, member, inside⟩, holds⟩ := establishes
    exact ⟨⟨p, describes⟩, ⟨rule, member, p, describes, inside⟩, holds⟩
  · intro met violated
    obtain ⟨rule, member, p, describes, inside⟩ := met
    obtain ⟨q, described, broken⟩ := violated
    cases found : report.outcome with
    | pass =>
        rw [found] at establishes
        have required := establishes.2 q described
        rw [broken] at required
        exact absurd required (Bool.not_ne_self _)
    | fail counterexample => exact ⟨counterexample, rfl⟩
    | vacuous reason =>
        rw [found] at establishes
        exact absurd ⟨p, describes, rule, member, inside⟩ establishes

omit [Library HEADER_BITS B] [ContentHasher] in
theorem mem_of_mem_targets {models : List (ChainModel B)} {a : Assertion} {model : ChainModel B}
    (member : model ∈ targets models a) : model ∈ models := by
  unfold targets at member
  split at member
  · exact List.mem_of_mem_filter member
  · exact member

/-- A policy whose endpoints resolve is evaluated, unless an assertion applies to
no chain. -/
theorem exists_evaluate (layout : Layout) (syms : SymbolTable) (mentioned : Mentioned)
    {chains : List Chain} (ready : ∀ a ∈ policy.assertions, policy.Resolves a ∧
      targets (chains.map (analyse layout syms : Chain → ChainModel B)) a ≠ []) :
    ∃ reports, policy.evaluate layout syms
      (chains.map (analyse layout syms : Chain → ChainModel B)) mentioned = .ok reports := by
  have blocks : ∃ blocks, policy.assertions.mapM (policy.evaluateAssertion layout syms
      (chains.map (analyse layout syms : Chain → ChainModel B)) mentioned) = .ok blocks := by
    refine Fallible.exists_mapM fun a member => ?_
    obtain ⟨resolves, applies⟩ := ready a member
    unfold evaluateAssertion
    rw [if_neg (by simpa using applies)]
    refine Fallible.exists_mapM fun model among => ?_
    obtain ⟨chain, _, rfl⟩ := List.mem_map.mp (mem_of_mem_targets among)
    obtain ⟨report, checked, _⟩ := check_spec (B := B) layout syms chain mentioned resolves
    exact ⟨report, checked⟩
  obtain ⟨blocks, evaluated⟩ := blocks
  refine ⟨blocks.flatten, ?_⟩
  rw [evaluate, evaluated]
  rfl

/-! ### When a vacuous assertion holds -/

omit [Library HEADER_BITS B] [ContentHasher] in
/-- Where no rule matches a described packet, the policy decides them all. -/
theorem holds_iff_of_not_decides {syms : SymbolTable} {chain : Chain}
    (undecided : ¬ policy.Decides syms chain a) :
    policy.Holds syms chain a ↔
      (¬ ∃ p, policy.Describes syms a p) ∨ chain.policy.permits = a.kind.wanted := by
  have byPolicy (p : Packet) (describes : policy.Describes syms a p) :
      chain.verdict syms p = chain.policy := by
    have none : chain.decidingRule syms p = none := by
      rw [chain.decidingRule_eq_none_iff_contains]
      exact fun rule member inside => undecided ⟨p, describes, rule, member, inside⟩
    rw [Chain.verdict, none]
  constructor
  · intro holds
    by_cases described : ∃ p, policy.Describes syms a p
    · obtain ⟨p, describes⟩ := described
      rw [← byPolicy p describes]
      exact Or.inr (holds p describes)
    · exact Or.inl described
  · rintro (empty | agrees) p describes
    · exact absurd ⟨p, describes⟩ empty
    · rw [byPolicy p describes, agrees]

/-- A vacuous assertion holds exactly when it describes no packet, or the default
policy gives its packets the verdict it asks for: vacuity looks at the rules
alone. -/
theorem vacuous_holds_iff (layout : Layout) (syms : SymbolTable) (chain : Chain)
    (mentioned : Mentioned) (resolves : policy.Resolves a) :
    ∃ report, check layout syms policy (analyse layout syms chain : ChainModel B) mentioned a =
      .ok report ∧
        ((∀ reason, report.outcome = .vacuous reason → policy.Holds syms chain a) ↔
          (¬ ∃ p, policy.Describes syms a p) ∨ policy.Decides syms chain a ∨
            chain.policy.permits = a.kind.wanted) := by
  obtain ⟨report, checked, _, establishes⟩ :=
    check_spec (B := B) layout syms chain mentioned resolves
  refine ⟨report, checked, ?_⟩
  by_cases decided : policy.Decides syms chain a
  · refine iff_of_true (fun reason vacuous => ?_) (Or.inr (Or.inl decided))
    rw [vacuous] at establishes
    exact absurd decided establishes
  · have vacuous := establishes.exists_vacuous decided
    rw [or_iff_right decided, ← holds_iff_of_not_decides decided]
    exact ⟨fun sound => vacuous.elim sound, fun holds _ _ => holds⟩

end CheckSpec

/-- `[[assert]]` with `name = "iso"` and `kind = "isolation"` -/
def isolationDoc : Toml.Table :=
  [("assert", .array [.table [("kind", .string "isolation"), ("name", .string "iso")]])]

def isolation : Assertion where
  name := "iso"
  kind := .isolation
  from_ := none
  to_ := none
  proto := none
  sport := none
  dport := none
  iif := none
  oif := none
  chain := none
  summary := "any -> any"

example [Toml.Library] :
    parseDocument isolationDoc = .ok { zones := [], assertions := [isolation] } := by
  rfl

theorem resolves_isolation (policy : Policy) : policy.Resolves isolation :=
  fun _ member => absurd member List.not_mem_nil

theorem describes_isolation (policy : Policy) (syms : SymbolTable) (p : Packet) :
    policy.Describes syms isolation p :=
  ⟨nofun, nofun, nofun, nofun, nofun, nofun, nofun⟩

/-- One rule that accepts every packet. -/
def acceptEverything : Chain :=
  (Chain.new "input" .input .drop).push Match.any .accept ⟨"a.nft", 1, 1, "accept"⟩

/-- A chain that accepts everything fails isolation with some packet. -/
theorem isolation_fails_over_accept : ∃ report q,
    check ⟨.fieldMajor⟩ .empty { zones := [], assertions := [isolation] }
      (@analyse (Diagram HEADER_BITS) _ ⟨fun _ _ => 0⟩ ⟨.fieldMajor⟩ .empty acceptEverything)
      (Mentioned.of []) isolation = .ok report ∧ report.outcome = .fail q := by
  obtain ⟨report, checked, _, _, finds⟩ := @pass_and_fail_exact (Diagram HEADER_BITS) _
    { zones := [], assertions := [isolation] } isolation ⟨fun _ _ => 0⟩ ⟨.fieldMajor⟩ .empty
    acceptEverything (Mentioned.of []) (resolves_isolation _)
  have matched (p : Packet) : Match.any.Contains .empty p :=
    (Match.contains_iff _ _ _).mpr ⟨Match.containsHeader_any p,
      (contains_interface .empty none p.iif).mpr nofun,
      (contains_interface .empty none p.oif).mpr nofun⟩
  have first : acceptEverything.decidingRule .empty ⟨0, 0, 0, 0, 0, 0, 0⟩ =
      acceptEverything.rules.head? :=
    List.find?_cons_of_pos ((Match.holdsAt_iff _ _ _).mpr (matched _))
  have permitted : (acceptEverything.verdict .empty ⟨0, 0, 0, 0, 0, 0, 0⟩).permits = true := by
    rw [Chain.verdict, first]
    rfl
  obtain ⟨q, failed⟩ := finds
    ⟨_, List.mem_singleton.mpr rfl, ⟨0, 0, 0, 0, 0, 0, 0⟩, describes_isolation _ _ _, matched _⟩
    ⟨⟨0, 0, 0, 0, 0, 0, 0⟩, describes_isolation _ _ _, permitted⟩
  exact ⟨report, q, checked, failed⟩

/-- Over a chain without rules that drops by default, isolation is vacuous and
holds. -/
theorem vacuous_isolation_holds_over_drop : ∃ report,
    check ⟨.fieldMajor⟩ .empty { zones := [], assertions := [isolation] }
      (@analyse (Diagram HEADER_BITS) _ ⟨fun _ _ => 0⟩ ⟨.fieldMajor⟩ .empty
        (Chain.new "input" .input .drop)) (Mentioned.of []) isolation = .ok report ∧
      ∀ reason, report.outcome = .vacuous reason →
        Policy.Holds { zones := [], assertions := [isolation] } .empty
          (Chain.new "input" .input .drop) isolation := by
  obtain ⟨report, checked, exactly⟩ := @vacuous_holds_iff (Diagram HEADER_BITS) _
    { zones := [], assertions := [isolation] } isolation ⟨fun _ _ => 0⟩ ⟨.fieldMajor⟩ .empty
    (Chain.new "input" .input .drop) (Mentioned.of []) (resolves_isolation _)
  exact ⟨report, checked, exactly.mpr (Or.inr (Or.inr rfl))⟩

/-- Over a chain without rules that accepts by default, isolation is vacuous, and
every packet breaks it. -/
theorem vacuous_isolation_broken_over_accept : ∃ report reason,
    check ⟨.fieldMajor⟩ .empty { zones := [], assertions := [isolation] }
      (@analyse (Diagram HEADER_BITS) _ ⟨fun _ _ => 0⟩ ⟨.fieldMajor⟩ .empty
        (Chain.new "input" .input .accept)) (Mentioned.of []) isolation = .ok report ∧
      report.outcome = .vacuous reason ∧
        ¬ Policy.Holds { zones := [], assertions := [isolation] } .empty
          (Chain.new "input" .input .accept) isolation := by
  have undecided : ¬ Policy.Decides { zones := [], assertions := [isolation] } .empty
      (Chain.new "input" .input .accept) isolation := by
    intro listed
    rcases listed with ⟨_, _, rule, member, _⟩
    contradiction
  obtain ⟨report, checked, _, establishes⟩ := @check_spec (Diagram HEADER_BITS) _
    { zones := [], assertions := [isolation] } isolation ⟨fun _ _ => 0⟩ ⟨.fieldMajor⟩ .empty
    (Chain.new "input" .input .accept) (Mentioned.of []) (resolves_isolation _)
  obtain ⟨reason, vacuous⟩ := establishes.exists_vacuous undecided
  refine ⟨report, reason, checked, vacuous, ?_⟩
  intro holds
  have permitted := holds ⟨0, 0, 0, 0, 0, 0, 0⟩ (describes_isolation _ _ _)
  contradiction

end Policy

end Fwdelta
