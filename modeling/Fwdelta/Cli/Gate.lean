import Fwdelta.Cli.Coverage
import Fwdelta.Engine.Named

/-
What the exit code of a comparison says about traffic.

The gate looks at diagrams over indices.  Its meaning is one about traffic on named
interfaces: which chains were compared, which assertions were asked of them, and
whether any traffic lost access.
-/

namespace Fwdelta

open DecisionDiagram

namespace Policy

/-- The assertion describes the traffic, by the names of its interfaces. -/
structure DescribesTraffic (policy : Policy) (a : Assertion) (t : Traffic) : Prop where
  src : ∀ e ∈ a.from_, ∃ set, policy.resolve e = .ok set ∧
    set.contains t.header.src.toNat = true
  dst : ∀ e ∈ a.to_, ∃ set, policy.resolve e = .ok set ∧
    set.contains t.header.dst.toNat = true
  proto : ∀ set ∈ a.proto, set.contains t.header.proto.toNat = true
  sport : ∀ set ∈ a.sport, set.contains t.header.sport.toNat = true
  dport : ∀ set ∈ a.dport, set.contains t.header.dport.toNat = true
  iif : ∀ name ∈ a.iif, t.iif = name
  oif : ∀ name ∈ a.oif, t.oif = name

/-- A rule of the chain meets some of the traffic that the assertion describes. -/
def MetBy (policy : Policy) (c : Chain) (a : Assertion) : Prop :=
  ∃ t, policy.DescribesTraffic a t ∧ ∃ rule ∈ c.rules, rule.predicate.Meets t

/-- The chain rules all described traffic as the assertion wants. -/
def KeptBy (policy : Policy) (c : Chain) (a : Assertion) : Prop :=
  ∀ t, policy.DescribesTraffic a t → (c.ruling t).permits = a.kind.wanted

end Policy

/-! ### Assertions about traffic -/

section Traffic

variable {syms : SymbolTable} {policy : Policy} {a : Assertion}

theorem IfMatch.represents_eq_iff {name other : String} {index : BitVec 8}
    (represents : IfMatch.Represents syms name index.toNat) (known : other ∈ syms.names) :
    syms.nameOf index.toNat = some other ↔ name = other := by
  have one : ∀ n ∈ (IfMatch.one other).names, n ∈ syms.names := by
    intro n member
    rwa [Finset.mem_singleton.mp member]
  have same := represents.2 (IfMatch.one other) one
  have named := Policy.contains_interface syms (some other) index
  simp only [Option.mem_some_iff, forall_eq'] at named
  rw [← named, same]
  exact Finset.mem_singleton

theorem Traffic.SeenAs.describes_iff {t : Traffic} {p : Packet} (seen : t.SeenAs syms p)
    (known : ∀ name ∈ a.interfaceNames, name ∈ syms.names) :
    policy.Describes syms a p ↔ policy.DescribesTraffic a t := by
  have src : t.header.src.toNat = p.src.toNat := seen.header .srcAddr rfl
  have dst : t.header.dst.toNat = p.dst.toNat := seen.header .dstAddr rfl
  have sport : t.header.sport.toNat = p.sport.toNat := seen.header .srcPort rfl
  have dport : t.header.dport.toNat = p.dport.toNat := seen.header .dstPort rfl
  have proto : t.header.proto.toNat = p.proto.toNat := seen.header .proto rfl
  have iif : (∀ name ∈ a.iif, syms.nameOf p.iif.toNat = some name) ↔
      ∀ name ∈ a.iif, t.iif = name := forall₂_congr fun name given =>
    IfMatch.represents_eq_iff seen.iif
      (known name (List.mem_append_left _ (Option.mem_toList.mpr given)))
  have oif : (∀ name ∈ a.oif, syms.nameOf p.oif.toNat = some name) ↔
      ∀ name ∈ a.oif, t.oif = name := forall₂_congr fun name given =>
    IfMatch.represents_eq_iff seen.oif
      (known name (List.mem_append_right _ (Option.mem_toList.mpr given)))
  constructor
  · rintro ⟨inSrc, inDst, inProto, inSport, inDport, inIif, inOif⟩
    rw [← src] at inSrc
    rw [← dst] at inDst
    rw [← proto] at inProto
    rw [← sport] at inSport
    rw [← dport] at inDport
    exact ⟨inSrc, inDst, inProto, inSport, inDport, iif.mp inIif, oif.mp inOif⟩
  · rintro ⟨inSrc, inDst, inProto, inSport, inDport, inIif, inOif⟩
    rw [src] at inSrc
    rw [dst] at inDst
    rw [proto] at inProto
    rw [sport] at inSport
    rw [dport] at inDport
    exact ⟨inSrc, inDst, inProto, inSport, inDport, iif.mpr inIif, oif.mpr inOif⟩

variable {c : Chain} (room : syms.names.length < MAX_INTERFACES) (chainKnown : c.Known syms)
variable (known : ∀ name ∈ a.interfaceNames, name ∈ syms.names)

include room chainKnown known

theorem Policy.decides_iff_metBy : policy.Decides syms c a ↔ policy.MetBy c a := by
  refine exists_packet_iff_exists_traffic room fun t p seen => ?_
  refine and_congr (seen.describes_iff known) ?_
  exact exists_congr fun rule => and_congr_right fun member =>
    seen.contains_iff (chainKnown rule member)

theorem Policy.holds_iff_keptBy : policy.Holds syms c a ↔ policy.KeptBy c a := by
  have broken := exists_packet_iff_exists_traffic room
    (P := fun p => policy.Describes syms a p ∧ (c.verdict syms p).permits ≠ a.kind.wanted)
    (T := fun t => policy.DescribesTraffic a t ∧ (c.ruling t).permits ≠ a.kind.wanted)
    fun t p seen => by rw [seen.describes_iff known, seen.verdict_eq chainKnown]
  have negated := not_congr broken
  push Not at negated
  exact negated

end Traffic

/-! ### What a check needs -/

namespace Policy

variable {policy : Policy} {a : Assertion}

theorem resolves_of_resolveEnd {e : Option Endpoint} {set : Option (IntervalSet 32)}
    (ran : policy.resolveEnd e = .ok set) :
    ∀ x ∈ e.toList, ∃ set, policy.resolve x = .ok set := by
  cases e with
  | none => exact nofun
  | some y =>
      obtain ⟨found, resolved, _⟩ := Fallible.bind_eq_ok_iff.mp ran
      intro x member
      rw [Option.toList_some, List.mem_singleton] at member
      exact ⟨found, member ▸ resolved⟩

/-- A check that ends with a report resolved the endpoints. -/
theorem resolves_of_check {B : Type} [Library HEADER_BITS B] {layout : Layout}
    {syms : SymbolTable} {model : ChainModel B} {mentioned : Mentioned} {report : Report}
    (ran : check layout syms policy model mentioned a = .ok report) : policy.Resolves a := by
  obtain ⟨set, built, _⟩ := Fallible.bind_eq_ok_iff.mp ran
  obtain ⟨m, matched, _⟩ := Fallible.bind_eq_ok_iff.mp built
  obtain ⟨src, srcOk, later⟩ := Fallible.bind_eq_ok_iff.mp matched
  obtain ⟨dst, dstOk, _⟩ := Fallible.bind_eq_ok_iff.mp later
  intro e member
  rcases List.mem_append.mp member with from_ | to_
  · exact resolves_of_resolveEnd srcOk e from_
  · exact resolves_of_resolveEnd dstOk e to_

section Evaluate

variable {B : Type} [Library HEADER_BITS B] {layout : Layout} {syms : SymbolTable}
variable {models : List (ChainModel B)} {mentioned : Mentioned} {reports : List Report}

/-- An assertion is checked on each model that it targets. -/
theorem mem_evaluateAssertion
    (ran : policy.evaluateAssertion layout syms models mentioned a = .ok reports) :
    (∀ r, r ∈ reports ↔ ∃ model ∈ targets models a,
      check layout syms policy model mentioned a = .ok r) ∧
    ∀ model ∈ targets models a, ∃ r ∈ reports,
      check layout syms policy model mentioned a = .ok r := by
  unfold evaluateAssertion at ran
  dsimp only at ran
  split at ran
  · contradiction
  · exact ⟨Fallible.mem_of_mapM ran, fun model among =>
      (Fallible.mapM_eq_ok_iff.mp ran).exists_right among⟩

/-- The reports are those of the assertions on the models they target. -/
theorem mem_evaluate (ran : policy.evaluate layout syms models mentioned = .ok reports) :
    (∀ r, r ∈ reports ↔ ∃ a ∈ policy.assertions, ∃ model ∈ targets models a,
      check layout syms policy model mentioned a = .ok r) ∧
    ∀ a ∈ policy.assertions, ∀ model ∈ targets models a, ∃ r ∈ reports,
      check layout syms policy model mentioned a = .ok r := by
  obtain ⟨blocks, evaluated, last⟩ := Fallible.bind_eq_ok_iff.mp ran
  obtain rfl := Except.ok.inj last
  have asked {a : Assertion} (member : a ∈ policy.assertions) :=
    (Fallible.mapM_eq_ok_iff.mp evaluated).exists_right member
  refine ⟨fun r => ?_, fun a member model among => ?_⟩
  · simp only [List.mem_flatten, Fallible.mem_of_mapM evaluated]
    constructor
    · rintro ⟨block, ⟨a, member, ran⟩, listed⟩
      exact ⟨a, member, ((mem_evaluateAssertion ran).1 r).mp listed⟩
    · rintro ⟨a, member, checked⟩
      obtain ⟨block, _, ran⟩ := asked member
      exact ⟨block, ⟨a, member, ran⟩, ((mem_evaluateAssertion ran).1 r).mpr checked⟩
  · obtain ⟨block, among', ran⟩ := asked member
    obtain ⟨r, listed, checked⟩ := (mem_evaluateAssertion ran).2 model among
    exact ⟨r, List.mem_flatten.mpr ⟨block, among', listed⟩, checked⟩

end Evaluate

end Policy

namespace Cli

/-! ### What a comparison compares -/

/-- The chains of that name in both revisions, unless another chain was asked for. -/
structure Compared (o : Options) (base head : Ruleset) (name : String) (b h : Chain) : Prop where
  base : base.chain name = some b
  head : head.chain name = some h
  asked : ∀ only ∈ o.chain, name = only

/-- Some traffic through a compared chain lost access. -/
def LosesAccess (o : Options) (base head : Ruleset) : Prop :=
  ∃ name b h, Compared o base head name b h ∧
    ∃ t, (b.ruling t).permits = true ∧ (h.ruling t).permits = false

/-- An assertion of the policy is asked of the head of a compared chain. -/
structure Asks (o : Options) (base head : Ruleset) (policy : Policy) (a : Assertion) (c : Chain) :
    Prop where
  listed : a ∈ policy.assertions
  compared : ∃ b, Compared o base head c.name b c
  named : ∀ name ∈ a.chain, c.name = name

theorem mem_comparedNames {o : Options} {base head : Ruleset} {names : List String}
    (compared : comparedNames o base head = .ok names) (name : String) :
    name ∈ names ↔ name ∈ chainNames base head ∧ ∀ only ∈ o.chain, name = only := by
  unfold comparedNames at compared
  cases asked : o.chain with
  | none =>
      rw [asked] at compared
      obtain rfl := Except.ok.inj compared
      simp
  | some only =>
      rw [asked] at compared
      dsimp only at compared
      split at compared
      · contradiction
      · obtain rfl := Except.ok.inj compared
        simp

theorem comparedNames_pairwise {o : Options} {base head : Ruleset} {names : List String}
    (compared : comparedNames o base head = .ok names) : names.Pairwise (· < ·) := by
  have sorted := chainNames_pairwise base head
  unfold comparedNames at compared
  split at compared
  · obtain rfl := Except.ok.inj compared
    exact sorted
  · dsimp only at compared
    split at compared
    · contradiction
    · obtain rfl := Except.ok.inj compared
      exact sorted.filter _

section Run

variable {B : Type} [Library HEADER_BITS B] [ContentHasher]
variable {o : Options} {base head : Ruleset} {policy : Option Policy} {out : Comparison B}

/-- A run with all its options. -/
structure Comparison.Ran (out : Comparison B) (o : Options) (base head : Ruleset)
    (policy : Option Policy) : Prop where
  syms : symbols base head policy = .ok out.syms
  ordered : (out.sections.map Section.name).Pairwise (· < ·)
  sections : ∀ s, s ∈ out.sections ↔ ∃ b h, Compared o base head s.name b h ∧
    s = ⟨s.name, analyse layout out.syms b, analyse layout out.syms h,
      diff (analyse layout out.syms b) (analyse layout out.syms h)⟩
  assertions : checkAssertions layout out.syms base head policy out.sections = .ok out.assertions
  exit : out.exit = exitCode o out.sections out.assertions

theorem cmdDiff_ran (ran : cmdDiff o base head policy = .ok out) :
    out.Ran o base head policy := by
  obtain ⟨syms, symsOk, ran⟩ := Fallible.bind_eq_ok_iff.mp ran
  obtain ⟨names, namesOk, ran⟩ := Fallible.bind_eq_ok_iff.mp ran
  obtain ⟨⟨sections, unmatched⟩, compared, ran⟩ := Fallible.bind_eq_ok_iff.mp ran
  obtain ⟨assertions, assertionsOk, last⟩ := Fallible.bind_eq_ok_iff.mp ran
  obtain rfl := Except.ok.inj last
  obtain ⟨rfl, rfl⟩ := compare_spec compared
  refine ⟨Fallible.mapError_eq_ok_iff.mp symsOk, ?_, fun s => ?_, assertionsOk, rfl⟩
  · rw [List.pairwise_map, List.pairwise_filterMap]
    refine (comparedNames_pairwise namesOk).imp fun below s made other alsoMade => ?_
    obtain ⟨_, _, _, _, rfl⟩ := sectionOf_eq_some_iff.mp made
    obtain ⟨_, _, _, _, rfl⟩ := sectionOf_eq_some_iff.mp alsoMade
    exact below
  rw [List.mem_filterMap]
  constructor
  · rintro ⟨name, member, made⟩
    obtain ⟨b, h, baseHas, headHas, rfl⟩ := sectionOf_eq_some_iff.mp made
    exact ⟨b, h, ⟨baseHas, headHas, ((mem_comparedNames namesOk name).mp member).2⟩, rfl⟩
  · rintro ⟨b, h, compared, same⟩
    refine ⟨s.name, (mem_comparedNames namesOk s.name).mpr ⟨?_, compared.asked⟩, ?_⟩
    · refine mem_chainNames.mpr (Or.inl ?_)
      rw [← chain_isSome_iff, compared.base]
      rfl
    · exact sectionOf_eq_some_iff.mpr ⟨b, h, compared.base, compared.head, same⟩

/-- The table has the names of the chains that are compared. -/
theorem Comparison.Ran.known (ran : out.Ran o base head policy) {rs : Ruleset}
    (side : rs = base ∨ rs = head) {name : String} {c : Chain} (found : rs.chain name = some c) :
    c.Known out.syms := by
  intro rule member n among
  rw [SymbolTable.mem_of_fromNames ran.syms]
  have inRuleset : n ∈ rs.interfaceNames :=
    List.mem_flatMap.mpr ⟨rule, List.mem_flatMap.mpr ⟨c, List.mem_of_find?_eq_some found, member⟩,
      among⟩
  rcases side with rfl | rfl
  · exact List.mem_append_left _ (List.mem_append_left _ inRuleset)
  · exact List.mem_append_left _ (List.mem_append_right _ inRuleset)

theorem Comparison.Ran.assertion_known (ran : out.Ran o base head policy) {p : Policy}
    (given : policy = some p) {a : Assertion} (listed : a ∈ p.assertions) :
    ∀ name ∈ a.interfaceNames, name ∈ out.syms.names := by
  intro name member
  rw [SymbolTable.mem_of_fromNames ran.syms, given]
  refine List.mem_append_right _ (List.mem_flatMap.mpr ⟨p, by simp, ?_⟩)
  exact List.mem_flatMap.mpr ⟨a, listed, member⟩

/-- Some diagram of lost access is not empty exactly when some traffic lost access. -/
theorem Comparison.Ran.lost_iff (ran : out.Ran o base head policy)
    (room : out.syms.names.length < MAX_INTERFACES) :
    out.sections.any (fun s => !Library.isFalse s.diff.newlyBlocked) = true ↔
      LosesAccess o base head := by
  have lost {name : String} {b h : Chain} (compared : Compared o base head name b h) :
      Library.isFalse (diff (analyse layout out.syms b : ChainModel B)
          (analyse layout out.syms h)).newlyBlocked = false ↔
        ∃ t, (b.ruling t).permits = true ∧ (h.ruling t).permits = false := by
    rw [layout.isFalse_eq_false_iff_mem]
    refine exists_packet_iff_exists_traffic room fun t p seen => ?_
    rw [mem_newlyBlocked, Bool.and_eq_true, Bool.not_eq_true',
      seen.verdict_eq (ran.known (Or.inl rfl) compared.base),
      seen.verdict_eq (ran.known (Or.inr rfl) compared.head)]
  rw [List.any_eq_true]
  constructor
  · rintro ⟨s, member, nonempty⟩
    obtain ⟨b, h, compared, same⟩ := (ran.sections s).mp member
    rw [same, Bool.not_eq_true'] at nonempty
    exact ⟨s.name, b, h, compared, (lost compared).mp nonempty⟩
  · rintro ⟨name, b, h, compared, traffic⟩
    refine ⟨_, (ran.sections ⟨name, _, _, _⟩).mpr ⟨b, h, compared, rfl⟩, ?_⟩
    rw [Bool.not_eq_true']
    exact (lost compared).mpr traffic

theorem Comparison.Ran.mem_targets (ran : out.Ran o base head policy) {a : Assertion}
    {model : ChainModel B} :
    model ∈ Policy.targets (out.sections.map Section.head) a ↔
      ∃ b c, Compared o base head c.name b c ∧ (∀ name ∈ a.chain, c.name = name) ∧
        model = analyse layout out.syms c := by
  have heads : model ∈ out.sections.map Section.head ↔
      ∃ b c, Compared o base head c.name b c ∧ model = analyse layout out.syms c := by
    rw [List.mem_map]
    constructor
    · rintro ⟨s, member, rfl⟩
      obtain ⟨b, h, compared, same⟩ := (ran.sections s).mp member
      rw [← name_of_chain compared.head] at compared
      exact ⟨b, h, compared, by rw [same]⟩
    · rintro ⟨b, c, compared, rfl⟩
      exact ⟨_, (ran.sections ⟨c.name, _, _, _⟩).mpr ⟨b, c, compared, rfl⟩, rfl⟩
  unfold Policy.targets
  cases named : a.chain with
  | none =>
      simp only [heads, Option.not_mem_none, false_imp_iff, implies_true, true_and]
  | some name =>
      simp only [List.mem_filter, heads, Option.mem_some_iff, forall_eq', beq_iff_eq]
      constructor
      · rintro ⟨⟨b, c, compared, rfl⟩, same⟩
        exact ⟨b, c, compared, same, rfl⟩
      · rintro ⟨b, c, compared, same, rfl⟩
        exact ⟨⟨b, c, compared, rfl⟩, same⟩

/-- Each report establishes its outcome for an assertion and a chain it was asked of, and
every assertion has one for every such chain. -/
theorem Comparison.Ran.reports (ran : out.Ran o base head policy) {p : Policy}
    (given : policy = some p) :
    (∀ r ∈ out.assertions, ∃ a c, Asks o base head p a c ∧
      p.Establishes out.syms c a r.outcome) ∧
    ∀ a c, Asks o base head p a c → ∃ r ∈ out.assertions,
      p.Establishes out.syms c a r.outcome := by
  have checked := ran.assertions
  rw [given, checkAssertions, Fallible.mapError_eq_ok_iff] at checked
  obtain ⟨each, all⟩ := Policy.mem_evaluate checked
  have establishes {a : Assertion} {c : Chain} {r : Report}
      (ran : Policy.check layout out.syms p (analyse layout out.syms c : ChainModel B)
        (Mentioned.of [base, head]) a = .ok r) : p.Establishes out.syms c a r.outcome := by
    obtain ⟨report, made, _, established⟩ := Policy.check_spec (B := B) layout out.syms c
      (Mentioned.of [base, head]) (Policy.resolves_of_check ran)
    obtain rfl := Except.ok.inj (made.symm.trans ran)
    exact established
  constructor
  · intro r member
    obtain ⟨a, listed, model, among, made⟩ := (each r).mp member
    obtain ⟨b, c, compared, named, rfl⟩ := ran.mem_targets.mp among
    exact ⟨a, c, ⟨listed, ⟨b, compared⟩, named⟩, establishes made⟩
  · intro a c asks
    obtain ⟨b, compared⟩ := asks.compared
    obtain ⟨r, member, made⟩ := all a asks.listed _
      (ran.mem_targets.mpr ⟨b, c, compared, asks.named, rfl⟩)
    exact ⟨r, member, establishes made⟩

/-! ### The exit code -/

/-- The rules of the chain establish the assertion, or they meet none of the traffic and
that is allowed. -/
def Settled (o : Options) (policy : Policy) (a : Assertion) (c : Chain) : Prop :=
  (policy.MetBy c a ∧ policy.KeptBy c a) ∨ (o.allowVacuous = true ∧ ¬ policy.MetBy c a)

/-- An outcome that does not fail the run. -/
def Acceptable (o : Options) : Outcome → Prop
  | .pass => True
  | .fail _ => False
  | .vacuous _ => o.allowVacuous = true

omit [ContentHasher] in
theorem acceptable_iff_settled {syms : SymbolTable} (room : syms.names.length < MAX_INTERFACES)
    {p : Policy} {a : Assertion} {c : Chain} (chainKnown : c.Known syms)
    (known : ∀ name ∈ a.interfaceNames, name ∈ syms.names) {outcome : Outcome}
    (establishes : p.Establishes syms c a outcome) : Acceptable o outcome ↔ Settled o p a c := by
  unfold Settled
  rw [← Policy.decides_iff_metBy room chainKnown known,
    ← Policy.holds_iff_keptBy room chainKnown known]
  cases outcome with
  | pass => exact iff_of_true trivial (Or.inl establishes)
  | fail q =>
      obtain ⟨decides, describes, differ⟩ := establishes
      refine iff_of_false id ?_
      rintro (⟨_, holds⟩ | ⟨_, undecided⟩)
      · exact differ (holds q describes)
      · exact undecided decides
  | vacuous reason =>
      have undecided : ¬ p.Decides syms c a := establishes
      simp only [Acceptable, undecided, false_and, false_or, not_false_eq_true, and_true]

omit [ContentHasher] in
/-- The assertion was broken. -/
def failed : Outcome → Bool
  | .fail _ => true
  | _ => false

def vacuous : Outcome → Bool
  | .vacuous _ => true
  | _ => false

omit [ContentHasher] in
theorem acceptable_iff (outcome : Outcome) : Acceptable o outcome ↔
    failed outcome = false ∧ (!o.allowVacuous && vacuous outcome) = false := by
  unfold Acceptable
  cases outcome <;> simp [failed, vacuous]

omit [ContentHasher] in
theorem all_acceptable_iff (reports : List Report) :
    (∀ r ∈ reports, Acceptable o r.outcome) ↔
      reports.any (fun r => failed r.outcome) = false ∧
        (!o.allowVacuous && reports.any (fun r => vacuous r.outcome)) = false := by
  simp only [acceptable_iff]
  cases o.allowVacuous <;> simp [List.any_eq_false, forall_and]

omit [ContentHasher] in
theorem exitCode_eq_zero_iff (sections : List (Section B)) (reports : List Report) :
    exitCode o sections reports = 0 ↔ (∀ r ∈ reports, Acceptable o r.outcome) ∧
      (o.failOnNewlyBlocked = true →
        ¬ sections.any (fun s => !Library.isFalse s.diff.newlyBlocked) = true) := by
  have zero {condition : Bool} : (if condition then 1 else 0) = 0 ↔ condition = false := by
    cases condition <;> simp
  have unfolded : exitCode o sections reports =
      if reports.any (fun r => failed r.outcome) ||
          (!o.allowVacuous && reports.any (fun r => vacuous r.outcome)) ||
          (o.failOnNewlyBlocked && sections.any (fun s => !Library.isFalse s.diff.newlyBlocked))
        then 1 else 0 := rfl
  rw [unfolded, zero, all_acceptable_iff, Bool.or_eq_false_iff, Bool.or_eq_false_iff]
  refine and_congr_right' ?_
  rw [Bool.and_eq_false_imp, Bool.not_eq_true]

/-- A comparison exits with 0 exactly when every assertion asked of a compared chain is
settled by traffic on named interfaces and, where the gate is closed, no traffic lost
access.  Otherwise it exits with 1. -/
theorem exit_zero_iff (ran : cmdDiff o base head policy = .ok out)
    (room : out.syms.names.length < MAX_INTERFACES) :
    (out.exit = 0 ∨ out.exit = 1) ∧
      (out.exit = 0 ↔
        (∀ p, policy = some p → ∀ a c, Asks o base head p a c → Settled o p a c) ∧
          (o.failOnNewlyBlocked = true → ¬ LosesAccess o base head)) := by
  have of := cmdDiff_ran ran
  constructor
  · rw [of.exit]
    unfold exitCode
    dsimp only
    split
    · exact Or.inr rfl
    · exact Or.inl rfl
  · rw [of.exit, exitCode_eq_zero_iff, of.lost_iff room]
    refine and_congr_left' ?_
    cases given : policy with
    | none =>
        have none_ := of.assertions
        rw [given] at none_
        rw [← Except.ok.inj none_]
        simp
    | some p =>
        obtain ⟨each, all⟩ := of.reports given
        have settled {a : Assertion} {c : Chain} (asks : Asks o base head p a c)
            {outcome : Outcome} (establishes : p.Establishes out.syms c a outcome) :
            Acceptable o outcome ↔ Settled o p a c := by
          obtain ⟨b, compared⟩ := asks.compared
          exact acceptable_iff_settled room (of.known (Or.inr rfl) compared.head)
            (of.assertion_known given asks.listed) establishes
        constructor
        · intro acceptable q same a c asks
          obtain rfl := Option.some.inj same
          obtain ⟨r, member, establishes⟩ := all a c asks
          exact (settled asks establishes).mp (acceptable r member)
        · intro keeps r member
          obtain ⟨a, c, asks, establishes⟩ := each r member
          exact (settled asks establishes).mpr (keeps p rfl a c asks)

end Run

/-! ### Changes in a row -/

/-- Traffic that lost access over two changes lost it in one of them, unless the change
between removed the chain. -/
theorem LosesAccess.split {o : Options} {base middle head : Ruleset}
    (kept : ∀ name, (base.chain name).isSome = true → (head.chain name).isSome = true →
      (middle.chain name).isSome = true) (lost : LosesAccess o base head) :
    LosesAccess o base middle ∨ LosesAccess o middle head := by
  obtain ⟨name, b, h, compared, t, permitted, denied⟩ := lost
  have present := kept name (by rw [compared.base]; rfl) (by rw [compared.head]; rfl)
  obtain ⟨m, found⟩ := Option.isSome_iff_exists.mp present
  cases between : (m.ruling t).permits with
  | true => exact Or.inr ⟨name, m, h, ⟨found, compared.head, compared.asked⟩, t, between, denied⟩
  | false =>
      exact Or.inl ⟨name, b, m, ⟨compared.base, found, compared.asked⟩, t, permitted, between⟩

/-- The gate on lost access. -/
def gated : Options :=
  { plain with failOnNewlyBlocked := true }

theorem symbols_empty {syms : SymbolTable} {base head : List (String × Hook × Action)}
    {policy : Option Policy} (silent : policy.toList.flatMap Policy.interfaceNames = [])
    (named : symbols (bare base) (bare head) policy = .ok syms) : syms.names = [] := by
  have unnamed (chains : List (String × Hook × Action)) : (bare chains).interfaceNames = [] := by
    simp [Ruleset.interfaceNames, bare, Chain.new]
  rw [symbols, unnamed, unnamed, silent] at named
  refine List.eq_nil_iff_forall_not_mem.mpr fun name member => ?_
  rw [SymbolTable.mem_of_fromNames named] at member
  simp at member

theorem gated_ran {B : Type} [Library HEADER_BITS B] [ContentHasher]
    (base head : List (String × Hook × Action)) :
    ∃ out : Comparison B, cmdDiff gated (bare base) (bare head) none = .ok out := by
  obtain ⟨syms, named⟩ := symbols_bare base head none rfl
  exact exists_cmdDiff rfl rfl named ⟨[], rfl⟩

/-- Rulesets without rules leave room in the table. -/
theorem bare_room {B : Type} [Library HEADER_BITS B] [ContentHasher] {o : Options}
    {base head : List (String × Hook × Action)} {policy : Option Policy} {out : Comparison B}
    (silent : policy.toList.flatMap Policy.interfaceNames = [])
    (ran : cmdDiff o (bare base) (bare head) policy = .ok out) :
    out.syms.names.length < MAX_INTERFACES := by
  rw [symbols_empty silent (cmdDiff_ran ran).syms]
  decide

/-- Without `--chain`, every chain is asked for. -/
theorem gated_asked (name : String) : ∀ only ∈ gated.chain, name = only := by
  simp [gated, plain]

theorem turned_losesAccess (name : String) :
    LosesAccess gated (bare [(name, .input, .accept)]) (bare [(name, .input, .drop)]) := by
  have only (action : Action) : (bare [(name, .input, action)]).chain name =
      some (Chain.new name .input action) := by
    simp [Ruleset.chain, bare, Chain.new]
  exact ⟨name, _, _, ⟨only .accept, only .drop, gated_asked name⟩,
    ⟨⟨0, 0, 0, 0, 0, 0, 0⟩, "lo", "lo"⟩, rfl, rfl⟩

/-- A chain that turns its policy from accept to drop fails the gate. -/
theorem dropping_policy_fails_the_gate : letI : ContentHasher := ⟨fun _ _ => 0⟩
    ∃ out : Comparison (Diagram HEADER_BITS), cmdDiff gated (bare [("input", .input, .accept)])
      (bare [("input", .input, .drop)]) none = .ok out ∧ out.exit = 1 := by
  let _ : ContentHasher := ⟨fun _ _ => 0⟩
  obtain ⟨out, ran⟩ := gated_ran (B := Diagram HEADER_BITS) [("input", .input, .accept)]
    [("input", .input, .drop)]
  obtain ⟨either, zero⟩ := exit_zero_iff ran (bare_room rfl ran)
  refine ⟨out, ran, either.resolve_left fun passed => ?_⟩
  exact (zero.mp passed).2 rfl (turned_losesAccess "input")

end Cli

end Fwdelta
