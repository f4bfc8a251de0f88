import Fwdelta.Nft.Meaning

/-
What every accepted file keeps to.

A rule means the conjunction of its statements, no match is dead by hook, and
ports only matter for protocols that have them.  The first two hold of the
files that avoid one form each; the theorems say exactly which.
-/

namespace Fwdelta.Nft

open Lookahead

/-! ### A rule is a conjunction -/

namespace RuleText

def interfaces (r : RuleText) : List IfMatch :=
  r.stmts.filterMap Stmt.interfaces

/-- The match is the conjunction of the rule's statements: it holds of a packet
that comes in through a named interface when all of them do, and all of them
hold of some packet. -/
def IsConjunction (r : RuleText) (m : Match) : Prop :=
  (∀ (syms : SymbolTable) (p : Packet) (name : String), syms.nameOf p.iif.toNat = some name →
    (m.Contains syms p ↔ ∀ stmt ∈ r.stmts, stmt.Holds p name)) ∧
  ∃ (p : Packet) (name : String), ∀ stmt ∈ r.stmts, stmt.Holds p name

/-- Every name the last statement about the interface admits is admitted by the
others as well. -/
def LastInterfaceNarrows (r : RuleText) : Prop :=
  ∀ last, r.interfaces.getLast? = some last →
    ∀ name, last.Admits name → ∀ m ∈ r.interfaces, m.Admits name

theorem forall_holds_iff (r : RuleText) (p : Packet) (name : String) :
    (∀ stmt ∈ r.stmts, stmt.Holds p name) ↔
      (∀ stmt ∈ r.stmts, stmt.HoldsOfHeader p) ∧ ∀ m ∈ r.interfaces, m.Admits name := by
  simp only [Stmt.holds_iff, interfaces, List.mem_filterMap]
  constructor
  · intro all
    refine ⟨fun stmt member => (all stmt member).1, ?_⟩
    rintro m ⟨stmt, member, said⟩
    exact (all stmt member).2 m said
  · rintro ⟨headers, names⟩ stmt member
    exact ⟨headers stmt member, fun m said => names m ⟨stmt, member, said⟩⟩

/-- The compiled match holds where the header says so and the last statement
about the interface admits the name. -/
theorem contains_compiled_iff {hook : Hook} {r : RuleText} {m : Match} {action : Action}
    (compiled : r.compile hook = some (m, action)) {syms : SymbolTable} {p : Packet}
    {name : String} (named : syms.nameOf p.iif.toNat = some name) :
    m.Contains syms p ↔ (∀ stmt ∈ r.stmts, stmt.HoldsOfHeader p) ∧
      (r.interfaces.getLastD .any).Admits name := by
  obtain ⟨_, rfl, _⟩ := compile_spec compiled
  rw [Match.contains_iff, containsHeader_foldl_narrow, iif_foldl_narrow, oif_foldl_narrow,
    IfMatch.contains_resolve_of_named syms _ named]
  have oif : (Match.any.oif.resolve syms).contains p.oif.toNat = true :=
    IntervalSet.contains_full _ |>.mpr (p.value_le_domainMax .ifOut)
  simp only [Match.containsHeader_any, true_and, oif, and_true]
  rfl

theorem exists_header {hook : Hook} {r : RuleText} {m : Match} {action : Action}
    (compiled : r.compile hook = some (m, action)) :
    ∃ p : Packet, ∀ stmt ∈ r.stmts, stmt.HoldsOfHeader p := by
  obtain ⟨_, rfl, _, satisfiable, _⟩ := compile_spec compiled
  obtain ⟨p, inside⟩ := Match.exists_containsHeader satisfiable
  exact ⟨p, ((containsHeader_foldl_narrow _ _ _).mp inside).2⟩

end RuleText

/-- There are more interface names than any list mentions. -/
theorem exists_unlisted_name (names : List String) : ∃ name, name ∉ names := by
  have injective : Function.Injective (fun n => String.ofList (List.replicate n 'a')) := by
    intro m n same
    have lists := congrArg String.toList same
    simp only [String.toList_ofList] at lists
    simpa using congrArg List.length lists
  have : Infinite String := Infinite.of_injective _ injective
  obtain ⟨name, unlisted⟩ := Infinite.exists_notMem_finset names.toFinset
  exact ⟨name, by simpa using unlisted⟩

theorem Spec.exists_admits (spec : Spec IfAtom) : ∃ name, spec.interfaces.Admits name := by
  simp only [Spec.admits_interfaces, Spec.Holds]
  cases spec.negation.negated with
  | false =>
      cases spec.value with
      | single atom => exact ⟨atom.name, atom, by simp [Value.atoms], rfl⟩
      | set first rest => exact ⟨first.atom.name, first.atom, by simp [Value.atoms], rfl⟩
  | true =>
      obtain ⟨name, unlisted⟩ := exists_unlisted_name (spec.value.atoms.map IfAtom.name)
      exact ⟨name, by simpa using unlisted⟩

theorem RuleText.exists_admits_of_mem {r : RuleText} {m : IfMatch} (member : m ∈ r.interfaces) :
    ∃ name, m.Admits name := by
  obtain ⟨stmt, _, said⟩ := List.mem_filterMap.mp member
  cases stmt <;> simp only [Stmt.interfaces, reduceCtorEq, Option.some.injEq] at said
  · obtain rfl := said
    exact Spec.exists_admits _
  · obtain rfl := said
    exact Spec.exists_admits _

/-- A table that names one interface, at index 0. -/
def oneName (name : String) : SymbolTable where
  names := [name]
  sorted := List.pairwise_singleton _ _
  capacity := by simp [MAX_INTERFACES]

theorem RuleText.isConjunction_iff {hook : Hook} {r : RuleText} {m : Match} {action : Action}
    (compiled : r.compile hook = some (m, action)) :
    r.IsConjunction m ↔ r.LastInterfaceNarrows := by
  constructor
  · rintro ⟨exact, _⟩ last isLast name admits
    obtain ⟨p, header⟩ := exists_header compiled
    have named : (oneName name).nameOf ({ p with iif := 0 } : Packet).iif.toNat = some name := rfl
    have sameHeader (stmt : Stmt) :
        stmt.HoldsOfHeader { p with iif := 0 } ↔ stmt.HoldsOfHeader p := by
      cases stmt with
      | ports l4 side spec => cases side <;> rfl
      | _ => rfl
    have inside : m.Contains (oneName name) { p with iif := 0 } := by
      rw [contains_compiled_iff compiled named, List.getLastD_eq_getLast?, isLast]
      exact ⟨fun stmt member => (sameHeader stmt).mpr (header stmt member), admits⟩
    have all := (exact _ _ name named).mp inside
    exact ((r.forall_holds_iff _ name).mp all).2
  · intro narrows
    -- The last statement admits a name only where all of them do.
    have lastIff (name : String) :
        (r.interfaces.getLastD .any).Admits name ↔ ∀ m ∈ r.interfaces, m.Admits name := by
      cases isLast : r.interfaces.getLast? with
      | none =>
          rw [List.getLast?_eq_none_iff] at isLast
          simp [isLast, IfMatch.Admits]
      | some last =>
          rw [List.getLastD_eq_getLast?, isLast, Option.getD_some]
          exact ⟨narrows last isLast name, fun all => all last (List.mem_of_getLast? isLast)⟩
    constructor
    · intro syms p name named
      rw [contains_compiled_iff compiled named, forall_holds_iff, lastIff]
    · obtain ⟨p, header⟩ := exists_header compiled
      obtain ⟨name, admitted⟩ : ∃ name, ∀ m ∈ r.interfaces, m.Admits name := by
        cases isLast : r.interfaces.getLast? with
        | none =>
            rw [List.getLast?_eq_none_iff] at isLast
            exact ⟨"", by simp [isLast]⟩
        | some last =>
            obtain ⟨name, admits⟩ := exists_admits_of_mem (List.mem_of_getLast? isLast)
            exact ⟨name, narrows last isLast name admits⟩
      exact ⟨p, name, (r.forall_holds_iff p name).mpr ⟨header, admitted⟩⟩

/-- In an accepted file, the match of a rule is the conjunction of its
statements exactly when no statement about the interface takes back what an
earlier one narrowed: the last one replaces the others. -/
theorem accepted_rule_isConjunction_iff {fileName source : String} {ruleset : Ruleset}
    (parsed : parse fileName source = .ok ruleset) :
    (∃ f : FileText, f.Reads fileName source ruleset) ∧
      ∀ f : FileText, f.Reads fileName source ruleset →
        ∀ i j chain rule, ruleset.chains[i]? = some chain → chain.rules[j]? = some rule →
          ∃ r, f.ruleAt i j = some r ∧
            (r.IsConjunction rule.predicate ↔ r.LastInterfaceNarrows) := by
  refine ⟨(parse_eq_ok_iff fileName source ruleset).mp parsed, ?_⟩
  intro f reads i j chain rule chainAt ruleAt
  obtain ⟨r, textAt, compiled⟩ := reads.ruleAt chainAt ruleAt
  exact ⟨r, textAt, RuleText.isConjunction_iff compiled⟩

/-- `iifname "eth0" iifname "eth1" accept` -/
def twoInterfaces : RuleText where
  first := ⟨.word "iifname", 4, 1⟩
  rest := [⟨.str "eth0", 4, 9⟩, ⟨.word "iifname", 4, 16⟩, ⟨.str "eth1", 4, 24⟩,
    ⟨.word "accept", 4, 31⟩]
  stmts := [.iifname ⟨.absent, .single eth0⟩,
    .iifname ⟨.absent, .single ⟨"eth1", true, by decide⟩⟩, .accept]
  spelled := rfl

/-- With one statement about the interface, the match is the conjunction. -/
theorem accepted_sshFromEth0_isConjunction : ∃ ruleset chain rule,
    parse "f" (oneRuleSource .input "iifname \"eth0\" tcp dport 22 accept") = .ok ruleset ∧
    ruleset.chains[0]? = some chain ∧ chain.rules[0]? = some rule ∧
      sshFromEth0.IsConjunction rule.predicate := by
  obtain ⟨ruleset, chain, rule, reads, chainAt, ruleAt, _⟩ := sshFromEth0_reads
  have parsed := (parse_eq_ok_iff _ _ _).mpr ⟨_, reads⟩
  obtain ⟨r, textAt, exactly⟩ :=
    (accepted_rule_isConjunction_iff parsed).2 _ reads 0 0 chain rule chainAt ruleAt
  obtain rfl : sshFromEth0 = r := Option.some.inj textAt
  refine ⟨ruleset, chain, rule, parsed, chainAt, ruleAt, exactly.mpr ?_⟩
  intro last isLast name admits m member
  have one : sshFromEth0.interfaces = [.oneOf {"eth0"}] := rfl
  rw [one] at isLast member
  obtain rfl := Option.some.inj isLast
  rwa [List.mem_singleton.mp member]

/-- `iifname "eth0" iifname "eth1" accept` is accepted and matches the packets
that come in through `eth1`, of which its first statement does not hold. -/
theorem accepted_twoInterfaces_not_isConjunction : ∃ ruleset chain rule,
    parse "f" (oneRuleSource .input "iifname \"eth0\" iifname \"eth1\" accept") = .ok ruleset ∧
    (oneRule .input twoInterfaces 37).Reads "f"
      (oneRuleSource .input "iifname \"eth0\" iifname \"eth1\" accept") ruleset ∧
    ruleset.chains[0]? = some chain ∧ chain.rules[0]? = some rule ∧
      (oneRule .input twoInterfaces 37).ruleAt 0 0 = some twoInterfaces ∧
        ¬ twoInterfaces.IsConjunction rule.predicate := by
  have lexed : lex "f" (oneRuleSource .input "iifname \"eth0\" iifname \"eth1\" accept") =
      .ok ((oneRule .input twoInterfaces 37).tokens, ⟨.eof, 7, 1⟩) := by
    decide +kernel
  have follow : Followed Stmt.yield Stmt.Follow twoInterfaces.stmts .brk :=
    ⟨nofun, nofun, trivial, trivial⟩
  obtain ⟨ruleset, chain, rule, reads, chainAt, ruleAt, _, compiled⟩ :=
    oneRule_reads .input twoInterfaces 37 lexed follow (by decide) (by decide +kernel)
  refine ⟨ruleset, chain, rule, (parse_eq_ok_iff _ _ _).mpr ⟨_, reads⟩, reads, chainAt, ruleAt,
    rfl, ?_⟩
  rw [RuleText.isConjunction_iff compiled]
  intro narrows
  have both : twoInterfaces.interfaces = [.oneOf {"eth0"}, .oneOf {"eth1"}] := rfl
  have admitted := narrows (.oneOf {"eth1"}) (by rw [both]; rfl) "eth1"
    (Finset.mem_singleton_self _) (.oneOf {"eth0"}) (by rw [both]; simp)
  exact absurd (Finset.mem_singleton.mp admitted) (by decide)

/-! ### No match is dead by hook -/

def RuleText.UsesMetaIifname (r : RuleText) : Prop :=
  ∃ spec, Stmt.metaIifname spec ∈ r.stmts

theorem Spec.interfaces_ne_any (spec : Spec IfAtom) : spec.interfaces ≠ .any := by
  unfold Spec.interfaces ifFinish
  split <;> simp

/-- On the output hook, only `meta iifname` constrains the input interface. -/
theorem RuleText.iif_eq_any_iff {r : RuleText} {m : Match} {action : Action}
    (compiled : r.compile .output = some (m, action)) : m.iif = .any ↔ ¬ r.UsesMetaIifname := by
  obtain ⟨allowed, rfl, _⟩ := compile_spec compiled
  rw [iif_foldl_narrow]
  constructor
  · rintro unconstrained ⟨spec, member⟩
    have listed : spec.interfaces ∈ r.stmts.filterMap Stmt.interfaces :=
      List.mem_filterMap.mpr ⟨_, member, rfl⟩
    have nonempty : r.stmts.filterMap Stmt.interfaces ≠ [] := List.ne_nil_of_mem listed
    rw [List.getLastD_eq_getLast?, List.getLast?_eq_some_getLast nonempty,
      Option.getD_some] at unconstrained
    obtain ⟨stmt, _, said⟩ := List.mem_filterMap.mp (List.getLast_mem nonempty)
    rw [unconstrained] at said
    cases stmt <;> simp only [Stmt.interfaces, reduceCtorEq, Option.some.injEq] at said
    · exact Spec.interfaces_ne_any _ said
    · exact Spec.interfaces_ne_any _ said
  · intro unused
    have none : r.stmts.filterMap Stmt.interfaces = [] := by
      rw [List.filterMap_eq_nil_iff]
      intro stmt member
      cases stmt with
      | metaIifname spec => exact absurd ⟨spec, member⟩ unused
      | iifname spec => exact absurd (allowed _ member) (by simp [Stmt.allowedOn])
      | _ => rfl
    rw [none]
    rfl

theorem RuleText.oif_eq_any {hook : Hook} {r : RuleText} {m : Match} {action : Action}
    (compiled : r.compile hook = some (m, action)) : m.oif = .any := by
  obtain ⟨_, rfl, _⟩ := compile_spec compiled
  rw [oif_foldl_narrow]
  rfl

/-- In an accepted file, rules on the output hook leave the input interface
open, and all rules the output interface, exactly when no rule of an output
chain matches `meta iifname`, which does not look at the hook. -/
theorem accepted_interfaces_open_iff {fileName source : String} {ruleset : Ruleset}
    (parsed : parse fileName source = .ok ruleset) :
    (∃ f : FileText, f.Reads fileName source ruleset) ∧
      ∀ f : FileText, f.Reads fileName source ruleset →
        ((∀ chain ∈ ruleset.chains, ∀ rule ∈ chain.rules,
            (chain.hook = .output → rule.predicate.iif = .any) ∧ rule.predicate.oif = .any) ↔
          ∀ c ∈ f.chainTexts, c.declaration.hook = .output →
            ∀ r ∈ c.ruleTexts, ¬ r.UsesMetaIifname) := by
  refine ⟨(parse_eq_ok_iff fileName source ruleset).mp parsed, fun f reads => ?_⟩
  refine (reads.chains.forall_iff fun c chain compiled => ?_).symm
  obtain ⟨_, _, hook, _, rules⟩ := ChainText.compile_spec compiled
  rw [← hook]
  by_cases output : chain.hook = .output
  · simp only [output, true_imp_iff]
    refine rules.forall_iff fun r rule ruleCompiled => ?_
    rw [output] at ruleCompiled
    rw [RuleText.iif_eq_any_iff ruleCompiled, and_iff_left (RuleText.oif_eq_any ruleCompiled)]
  · simp only [output, false_imp_iff, true_and, true_iff]
    refine (rules.forall_iff (P := fun _ => True) fun r rule ruleCompiled => ?_).mp
      (fun _ _ => trivial)
    exact (iff_of_true trivial (RuleText.oif_eq_any ruleCompiled))

theorem accepted_sshFromEth0_interfaces_open : ∃ ruleset,
    parse "f" (oneRuleSource .input "iifname \"eth0\" tcp dport 22 accept") = .ok ruleset ∧
    ∀ chain ∈ ruleset.chains, ∀ rule ∈ chain.rules,
      (chain.hook = .output → rule.predicate.iif = .any) ∧ rule.predicate.oif = .any := by
  obtain ⟨ruleset, _, _, reads, _⟩ := sshFromEth0_reads
  have parsed := (parse_eq_ok_iff _ _ _).mpr ⟨_, reads⟩
  refine ⟨ruleset, parsed, ((accepted_interfaces_open_iff parsed).2 _ reads).mpr ?_⟩
  intro c member output
  rw [hook_of_mem_oneRule member] at output
  exact Hook.noConfusion output

/-- `meta iifname "eth0" accept` -/
def metaEth0 : RuleText where
  first := ⟨.word "meta", 4, 1⟩
  rest := [⟨.word "iifname", 4, 6⟩, ⟨.str "eth0", 4, 14⟩, ⟨.word "accept", 4, 21⟩]
  stmts := [.metaIifname ⟨.absent, .single eth0⟩, .accept]
  spelled := rfl

/-- On the output hook, where the kernel sets no input interface, the rule is
accepted and its match constrained all the same. -/
theorem accepted_metaEth0_constrains_output : ∃ ruleset chain rule,
    parse "f" (oneRuleSource .output "meta iifname \"eth0\" accept") = .ok ruleset ∧
    ruleset.chains[0]? = some chain ∧ chain.rules[0]? = some rule ∧ chain.hook = .output ∧
      rule.predicate.iif ≠ .any := by
  have lexed : lex "f" (oneRuleSource .output "meta iifname \"eth0\" accept") =
      .ok ((oneRule .output metaEth0 27).tokens, ⟨.eof, 7, 1⟩) := by
    decide +kernel
  have follow : Followed Stmt.yield Stmt.Follow metaEth0.stmts .brk := ⟨nofun, trivial, trivial⟩
  obtain ⟨ruleset, chain, rule, reads, chainAt, ruleAt, hook, compiled⟩ :=
    oneRule_reads .output metaEth0 27 lexed follow (by decide) (by decide +kernel)
  refine ⟨ruleset, chain, rule, (parse_eq_ok_iff _ _ _).mpr ⟨_, reads⟩, chainAt, ruleAt, hook, ?_⟩
  rw [Ne, RuleText.iif_eq_any_iff compiled, not_not]
  exact ⟨_, List.mem_cons_self⟩

/-! ### Ports need a protocol that has them -/

structure SameButPorts (p q : Packet) : Prop where
  src : p.src = q.src
  dst : p.dst = q.dst
  proto : p.proto = q.proto
  iif : p.iif = q.iif
  oif : p.oif = q.oif

theorem mem_portBearing {proto : IntervalSet 8} (bearing : allPortBearing proto = true) {x : Nat}
    (inside : proto.contains x = true) : x ∈ PORT_BEARING := by
  simp only [allPortBearing, Bool.and_eq_true, List.all_eq_true, List.contains_iff_mem] at bearing
  obtain ⟨range, member, above, below⟩ := (proto.contains_iff x).mp inside
  refine bearing.2 x (List.mem_flatMap.mpr ⟨range, member, ?_⟩)
  rw [List.mem_range'_1]
  omega

theorem Stmt.holdsOfHeader_congr {stmt : Stmt} (portless : stmt.isPorts = false) {p q : Packet}
    (same : SameButPorts p q) : stmt.HoldsOfHeader p ↔ stmt.HoldsOfHeader q := by
  cases stmt with
  | ports l4 side spec => contradiction
  | _ => simp only [Stmt.HoldsOfHeader, Stmt.Holds, same.src, same.dst, same.proto]

/-- A rule the parser accepts looks at the ports only of packets whose protocol
has them. -/
theorem RuleText.holdsAt_congr {hook : Hook} {r : RuleText} {m : Match} {action : Action}
    (compiled : r.compile hook = some (m, action)) (syms : SymbolTable) {p q : Packet}
    (same : SameButPorts p q) (portless : p.proto.toNat ∉ PORT_BEARING) :
    m.holdsAt syms p.value = m.holdsAt syms q.value := by
  rw [Bool.eq_iff_iff, Match.holdsAt_iff, Match.holdsAt_iff, Match.contains_iff,
    Match.contains_iff, same.iif, same.oif]
  suffices header : m.ContainsHeader p ↔ m.ContainsHeader q by rw [header]
  obtain ⟨_, built, _, _, portBearing⟩ := compile_spec compiled
  by_cases constrained : r.stmts.any Stmt.isPorts = true
  · -- The protocol is pinned to one with ports, so neither packet matches.
    have outside {x : Packet} (proto : x.proto.toNat ∉ PORT_BEARING) : ¬ m.ContainsHeader x :=
      fun inside => proto (mem_portBearing (portBearing constrained) inside.2.2.2.2)
    have portlessQ : q.proto.toNat ∉ PORT_BEARING := same.proto ▸ portless
    exact iff_of_false (outside portless) (outside portlessQ)
  · rw [built, containsHeader_foldl_narrow, containsHeader_foldl_narrow]
    apply and_congr (iff_of_true (Match.containsHeader_any p) (Match.containsHeader_any q))
    refine forall₂_congr fun stmt member => Stmt.holdsOfHeader_congr ?_ same
    rw [Bool.not_eq_true, List.any_eq_false] at constrained
    simpa using constrained stmt member

/-- In an accepted file, the ports of a packet without a port-bearing protocol
change neither who decides it nor the verdict. -/
theorem accepted_ports_irrelevant {fileName source : String} {ruleset : Ruleset}
    (parsed : parse fileName source = .ok ruleset) {B : Type}
    [DecisionDiagram.Library HEADER_BITS B] [ContentHasher] (layout : Layout)
    (syms : SymbolTable) {chain : Chain} (member : chain ∈ ruleset.chains) {p q : Packet}
    (same : SameButPorts p q) (portless : p.proto.toNat ≠ 6 ∧ p.proto.toNat ≠ 17 ∧
      p.proto.toNat ≠ 132) :
    (∀ r ∈ (analyse layout syms chain : ChainModel B).rules,
      layout.mem r.effective p = layout.mem r.effective q) ∧
    layout.mem (analyse layout syms chain : ChainModel B).fallthrough p =
      layout.mem (analyse layout syms chain : ChainModel B).fallthrough q ∧
    layout.mem (analyse layout syms chain : ChainModel B).accept p =
      layout.mem (analyse layout syms chain : ChainModel B).accept q := by
  apply analyse_congr
  intro rule ruleMember
  obtain ⟨f, reads⟩ := (parse_eq_ok_iff fileName source ruleset).mp parsed
  obtain ⟨i, chainAt⟩ := List.getElem?_of_mem member
  obtain ⟨j, ruleAt⟩ := List.getElem?_of_mem ruleMember
  obtain ⟨r, _, compiled⟩ := reads.ruleAt chainAt ruleAt
  exact RuleText.holdsAt_congr compiled syms same (by simpa [PORT_BEARING] using portless)

theorem accepted_sshFromEth0_ports_irrelevant : ∃ ruleset chain,
    parse "f" (oneRuleSource .input "iifname \"eth0\" tcp dport 22 accept") = .ok ruleset ∧
    ruleset.chains[0]? = some chain ∧
      let model := @analyse (DecisionDiagram.Diagram HEADER_BITS) _ ⟨fun _ _ => 0⟩
        ⟨.fieldMajor⟩ (oneName "eth0") chain
      (⟨.fieldMajor⟩ : Layout).mem model.accept ⟨1, 2, 3, 22, 1, 0, 0⟩ =
        (⟨.fieldMajor⟩ : Layout).mem model.accept ⟨1, 2, 4, 23, 1, 0, 0⟩ := by
  obtain ⟨ruleset, chain, _, reads, chainAt, _⟩ := sshFromEth0_reads
  have parsed := (parse_eq_ok_iff _ _ _).mpr ⟨_, reads⟩
  have pings : SameButPorts ⟨1, 2, 3, 22, 1, 0, 0⟩ ⟨1, 2, 4, 23, 1, 0, 0⟩ :=
    ⟨rfl, rfl, rfl, rfl, rfl⟩
  exact ⟨ruleset, chain, parsed, chainAt, (@accepted_ports_irrelevant _ _ _ parsed _ _
    ⟨fun _ _ => 0⟩ ⟨.fieldMajor⟩ (oneName "eth0") _ (List.mem_of_getElem? chainAt) _ _ pings
    (by decide)).2.2⟩

end Fwdelta.Nft
