import Fwdelta.Nft.File
import Fwdelta.Pointwise
import Fwdelta.Engine.Accept

/-
What the statements of a rule mean, and what the parser makes of them.

The parser folds the statements of a rule into one match.  What a whole rule
builds is read off what one statement does; the rules of a ruleset are traced
back to the text they were read from, position by position.
-/

namespace Fwdelta.Nft

open Lookahead

/-! ### Values -/

theorem Spec.contains_set {α : Type} {bits : Nat} (form : Form α (IntervalSet bits))
    {has : α → Nat → Prop} (exact : ∀ a x, (form.value a).contains x = true ↔ has a x)
    (spec : Spec α) {x : Nat} (within : x ≤ domainMax bits) :
    (spec.set form).contains x = true ↔ spec.Holds (fun a => has a x) := by
  have positive : (spec.value.eval form id (IntervalSet.empty bits) IntervalSet.union).contains x
      = true ↔ ∃ atom ∈ spec.value.atoms, has atom x := by
    cases spec.value with
    | single atom => simp [Value.eval, Value.atoms, exact]
    | set first rest =>
        unfold Value.eval Value.atoms
        rw [IntervalSet.contains_foldl_union (fun member : Member α => form.value member.atom)]
        simp only [exact, IntervalSet.contains_empty, Bool.false_eq_true, false_or,
          List.mem_map, exists_exists_and_eq_and]
  unfold Spec.set complementIf Spec.Holds
  cases spec.negation.negated with
  | false => exact positive
  | true =>
      simp only [if_true, IntervalSet.contains_complement, within, true_and]
      rw [← Bool.not_eq_true, positive]

theorem mem_foldl_insert (members : List (Member IfAtom)) (start : Finset String)
    (name : String) :
    name ∈ members.foldl (fun names member => insert (IfAtom.form.value member.atom) names) start ↔
      name ∈ start ∨ ∃ member ∈ members, member.atom.name = name := by
  induction members generalizing start with
  | nil => simp
  | cons member rest ih =>
      rw [List.foldl_cons, ih, Finset.mem_insert, eq_comm (a := name)]
      simp only [List.mem_cons, exists_eq_or_imp, or_comm, or_assoc]
      rfl

theorem Spec.admits_interfaces (spec : Spec IfAtom) (name : String) :
    spec.interfaces.Admits name ↔ spec.Holds (fun atom => atom.name = name) := by
  have positive : name ∈ spec.value.eval IfAtom.form (fun name => ({name} : Finset String)) ∅
      (fun names name => insert name names) ↔ ∃ atom ∈ spec.value.atoms, atom.name = name := by
    cases spec.value with
    | single atom =>
        simp only [Value.eval, Value.atoms, Finset.mem_singleton, List.mem_singleton,
          exists_eq_left]
        exact eq_comm
    | set first rest =>
        unfold Value.eval Value.atoms
        rw [mem_foldl_insert]
        simp
  unfold Spec.interfaces ifFinish Spec.Holds
  cases spec.negation.negated with
  | false => exact positive
  | true => exact not_congr positive

/-! ### Statements -/

def PortSide.value (p : Packet) : PortSide → Nat
  | .sport => p.sport.toNat
  | .dport => p.dport.toNat

/-- What a statement says about a packet whose input interface has the name. -/
def Stmt.Holds (p : Packet) (name : String) : Stmt → Prop
  | .saddr spec => spec.Holds (fun atom => atom.Has p.src.toNat)
  | .daddr spec => spec.Holds (fun atom => atom.Has p.dst.toNat)
  | .protocol spec | .l4proto spec => spec.Holds (fun atom => atom.Has p.proto.toNat)
  | .ports l4 side spec =>
      p.proto.toNat = l4.number ∧ spec.Holds (fun atom => atom.Has (side.value p))
  | .metaIifname spec | .iifname spec => spec.Holds (fun atom => atom.name = name)
  | _ => True

def Stmt.interfaces : Stmt → Option IfMatch
  | .metaIifname spec | .iifname spec => some spec.interfaces
  | _ => none

/-- What a statement says about the header fields alone. -/
def Stmt.HoldsOfHeader (p : Packet) : Stmt → Prop
  | .metaIifname _ | .iifname _ => True
  | stmt => stmt.Holds p ""

theorem Stmt.holds_iff (stmt : Stmt) (p : Packet) (name : String) :
    stmt.Holds p name ↔
      stmt.HoldsOfHeader p ∧ ∀ m, stmt.interfaces = some m → m.Admits name := by
  cases stmt <;>
    simp [Stmt.Holds, Stmt.HoldsOfHeader, Stmt.interfaces, Spec.admits_interfaces]

/-- One statement narrows the header part of the match by what it says. -/
theorem Stmt.containsHeader_narrow (stmt : Stmt) (m : Match) (p : Packet) :
    (stmt.narrow m).ContainsHeader p ↔ m.ContainsHeader p ∧ stmt.HoldsOfHeader p := by
  have constrain := Match.containsHeader_constrain (p := p)
  cases stmt with
  | saddr spec =>
      exact (constrain m .srcAddr (spec.set AddrAtom.form) rfl).trans (and_congr_right'
        (spec.contains_set AddrAtom.form AddrAtom.contains_set (p.value_le_domainMax .srcAddr)))
  | daddr spec =>
      exact (constrain m .dstAddr (spec.set AddrAtom.form) rfl).trans (and_congr_right'
        (spec.contains_set AddrAtom.form AddrAtom.contains_set (p.value_le_domainMax .dstAddr)))
  | protocol spec =>
      exact (constrain m .proto (spec.set ProtoAtom.form) rfl).trans (and_congr_right'
        (spec.contains_set ProtoAtom.form ProtoAtom.contains_set (p.value_le_domainMax .proto)))
  | l4proto spec =>
      exact (constrain m .proto (spec.set ProtoAtom.form) rfl).trans (and_congr_right'
        (spec.contains_set ProtoAtom.form ProtoAtom.contains_set (p.value_le_domainMax .proto)))
  | ports l4 side spec =>
      have proto := (constrain m .proto (IntervalSet.point 8 l4.number l4.number_le)
        Field.proto_packet).trans
        (and_congr_right' (IntervalSet.contains_point l4.number p.proto.toNat l4.number_le))
      have pinned (field : Field) (set : IntervalSet field.bits)
          (packet : field.isInterface = false) :
          (l4Constrain m l4 field set packet).ContainsHeader p ↔ m.ContainsHeader p ∧
            p.proto.toNat = l4.number ∧ set.contains (p.value field) = true := by
        rw [← and_assoc, ← proto]
        exact constrain _ field set packet
      cases side with
      | sport =>
          exact (pinned .srcPort (spec.set PortAtom.form) rfl).trans (and_congr_right'
            (and_congr_right' (spec.contains_set PortAtom.form PortAtom.contains_set
              (p.value_le_domainMax .srcPort))))
      | dport =>
          exact (pinned .dstPort (spec.set PortAtom.form) rfl).trans (and_congr_right'
            (and_congr_right' (spec.contains_set PortAtom.form PortAtom.contains_set
              (p.value_le_domainMax .dstPort))))
  | _ => exact (and_iff_left trivial).symm

theorem containsHeader_foldl_narrow (stmts : List Stmt) (m : Match) (p : Packet) :
    (stmts.foldl (fun m stmt => stmt.narrow m) m).ContainsHeader p ↔
      m.ContainsHeader p ∧ ∀ stmt ∈ stmts, stmt.HoldsOfHeader p := by
  induction stmts generalizing m with
  | nil => simp
  | cons stmt rest ih =>
      rw [List.foldl_cons, ih, stmt.containsHeader_narrow, and_assoc]
      simp only [List.mem_cons, forall_eq_or_imp]

/-- The input interface of the match is what the last statement about it says. -/
theorem iif_foldl_narrow (stmts : List Stmt) (m : Match) :
    (stmts.foldl (fun m stmt => stmt.narrow m) m).iif =
      (stmts.filterMap Stmt.interfaces).getLastD m.iif := by
  induction stmts generalizing m with
  | nil => rfl
  | cons stmt rest ih =>
      rw [List.foldl_cons, ih]
      have narrowed : (stmt.narrow m).iif = stmt.interfaces.getD m.iif := by
        cases stmt with
        | ports l4 side spec => cases side <;> rfl
        | _ => rfl
      rw [narrowed]
      cases interfaces : stmt.interfaces with
      | none => rw [List.filterMap_cons_none interfaces, Option.getD_none]
      | some names => rw [List.filterMap_cons_some interfaces, List.getLastD_cons, Option.getD_some]

theorem oif_foldl_narrow (stmts : List Stmt) (m : Match) :
    (stmts.foldl (fun m stmt => stmt.narrow m) m).oif = m.oif := by
  induction stmts generalizing m with
  | nil => rfl
  | cons stmt rest ih =>
      rw [List.foldl_cons, ih]
      cases stmt with
      | ports l4 side spec => cases side <;> rfl
      | _ => rfl

/-! ### Rules -/

theorem Stmt.apply_spec {hook : Hook} {st st' : RuleState} {stmt : Stmt}
    (applied : stmt.apply hook st = some st') :
    stmt.allowedOn hook = true ∧ st'.m = stmt.narrow st.m ∧
      st'.action.toList = st.action.toList ++ stmt.verdict.toList ∧
        st'.portsConstrained = (st.portsConstrained || stmt.isPorts) := by
  unfold Stmt.apply at applied
  split at applied
  · contradiction
  · next allowed =>
      split at applied
      · contradiction
      · next notTwo =>
          obtain rfl := Option.some.inj applied
          refine ⟨by simpa using allowed, rfl, ?_, rfl⟩
          cases verdict : stmt.verdict with
          | none => simp
          | some new =>
              cases taken : st.action with
              | none => rfl
              | some old => exact absurd taken (notTwo new old verdict)

theorem foldlM_apply_spec {hook : Hook} {stmts : List Stmt} {st st' : RuleState}
    (applied : stmts.foldlM (Stmt.apply hook) st = some st') :
    (∀ stmt ∈ stmts, stmt.allowedOn hook = true) ∧
      st'.m = stmts.foldl (fun m stmt => stmt.narrow m) st.m ∧
        st'.action.toList = st.action.toList ++ stmts.filterMap Stmt.verdict ∧
          st'.portsConstrained = (st.portsConstrained || stmts.any Stmt.isPorts) := by
  induction stmts generalizing st with
  | nil =>
      obtain rfl := Option.some.inj applied
      simp
  | cons stmt rest ih =>
      rw [List.foldlM_cons, Option.bind_eq_bind, Option.bind_eq_some_iff] at applied
      obtain ⟨middle, first, applied⟩ := applied
      obtain ⟨allowed, m, action, ports⟩ := Stmt.apply_spec first
      obtain ⟨allowedRest, mRest, actionRest, portsRest⟩ := ih applied
      refine ⟨?_, ?_, ?_, ?_⟩
      · simpa using ⟨allowed, allowedRest⟩
      · rw [mRest, m, List.foldl_cons]
      · rw [actionRest, action, List.append_assoc]
        cases verdict : stmt.verdict with
        | none => rw [List.filterMap_cons_none verdict]; rfl
        | some new => rw [List.filterMap_cons_some verdict]; rfl
      · rw [portsRest, ports, Bool.or_assoc, List.any_cons]

/-- What the parser makes of a rule it accepts. -/
theorem RuleText.compile_spec {hook : Hook} {r : RuleText} {m : Match} {action : Action}
    (compiled : r.compile hook = some (m, action)) :
    (∀ stmt ∈ r.stmts, stmt.allowedOn hook = true) ∧
      m = r.stmts.foldl (fun m stmt => stmt.narrow m) Match.any ∧
        r.stmts.filterMap Stmt.verdict = [action] ∧ m.isUnsatisfiable = false ∧
          (r.stmts.any Stmt.isPorts = true → allPortBearing m.proto = true) := by
  obtain ⟨st, built, verdict, rfl, satisfiable, portBearing⟩ := compile_eq_some_iff.mp compiled
  obtain ⟨allowed, m, action, ports⟩ := foldlM_apply_spec built
  refine ⟨allowed, m, ?_, satisfiable, fun constrained => portBearing ?_⟩
  · rw [verdict] at action
    exact action.symm
  · rw [ports, constrained, Bool.or_true]

/-- Statements that may stand on the hook, with at most one verdict, have an effect. -/
theorem exists_foldlM_apply {hook : Hook} {stmts : List Stmt} (st : RuleState)
    (allowed : ∀ stmt ∈ stmts, stmt.allowedOn hook = true)
    (single : (st.action.toList ++ stmts.filterMap Stmt.verdict).length ≤ 1) :
    ∃ st', stmts.foldlM (Stmt.apply hook) st = some st' := by
  induction stmts generalizing st with
  | nil => exact ⟨st, rfl⟩
  | cons stmt rest ih =>
      have applied : ∃ middle, stmt.apply hook st = some middle := by
        unfold Stmt.apply
        rw [if_neg (by rw [allowed stmt (by simp)]; simp)]
        split
        · next new old verdict taken =>
            rw [List.filterMap_cons_some verdict, taken] at single
            simp at single
        · exact ⟨_, rfl⟩
      obtain ⟨middle, applied⟩ := applied
      obtain ⟨_, _, action, _⟩ := Stmt.apply_spec applied
      have later : (middle.action.toList ++ rest.filterMap Stmt.verdict).length ≤ 1 := by
        rw [action]
        cases verdict : stmt.verdict with
        | none => simpa [List.filterMap_cons_none verdict] using single
        | some new => simpa [List.filterMap_cons_some verdict] using single
      obtain ⟨st', built⟩ := ih middle (fun other member => allowed other (by simp [member])) later
      refine ⟨st', ?_⟩
      rw [List.foldlM_cons, applied]
      exact built

/-- A rule with one verdict compiles when its match is sound. -/
theorem RuleText.compile_of_spec {hook : Hook} {r : RuleText} {action : Action}
    (allowed : ∀ stmt ∈ r.stmts, stmt.allowedOn hook = true)
    (verdict : r.stmts.filterMap Stmt.verdict = [action]) {m : Match}
    (built : r.stmts.foldl (fun m stmt => stmt.narrow m) Match.any = m)
    (satisfiable : m.isUnsatisfiable = false)
    (portBearing : r.stmts.any Stmt.isPorts = true → allPortBearing m.proto = true) :
    r.compile hook = some (m, action) := by
  obtain ⟨st, folded⟩ := exists_foldlM_apply RuleState.start allowed
    (by rw [verdict]; exact Nat.le_refl 1)
  obtain ⟨_, narrowed, taken, ports⟩ := foldlM_apply_spec folded
  have narrowedTo : st.m = m := narrowed.trans built
  rw [verdict] at taken
  refine compile_eq_some_iff.mpr ⟨st, folded, ?_, narrowedTo, satisfiable, ?_⟩
  · cases given : st.action with
    | none =>
        rw [given] at taken
        contradiction
    | some found =>
        rw [given] at taken
        rw [(List.cons.inj taken).1]
  · intro constrained
    apply portBearing
    rw [ports] at constrained
    exact constrained

/-! ### From the text to the ruleset -/

def FileText.chainTexts (f : FileText) : List ChainText :=
  f.tables.flatMap (fun item => item.table.chains.map ChainItem.chain)

def ChainText.ruleTexts (c : ChainText) : List RuleText :=
  c.rules.map RuleItem.rule

section Correspondence

variable {s : Source}

/-- Pushing rules keeps the head of the chain, and pushes one rule for each. -/
theorem foldlM_push_rules {items : List RuleItem} {chain out : Chain}
    (built : chain.Built) (pushed : items.foldlM (RuleItem.push s) chain = some out) :
    out.Built ∧ out.name = chain.name ∧ out.hook = chain.hook ∧ out.policy = chain.policy ∧
      ∃ rules, out.rules = chain.rules ++ rules ∧ List.Forall₂ (fun (item : RuleItem) rule =>
        item.rule.compile chain.hook = some (rule.predicate, rule.action) ∧
          rule.origin = item.rule.origin s) items rules := by
  induction items generalizing chain with
  | nil =>
      obtain rfl := Option.some.inj pushed
      exact ⟨built, rfl, rfl, rfl, [], (List.append_nil _).symm, .nil⟩
  | cons item rest ih =>
      rw [List.foldlM_cons, Option.bind_eq_bind, Option.bind_eq_some_iff] at pushed
      obtain ⟨middle, first, pushed⟩ := pushed
      obtain ⟨⟨m, action⟩, compiled, first⟩ := Option.bind_eq_some_iff.mp first
      obtain rfl := Option.some.inj first
      obtain ⟨builtOut, name, hook, policy, rules, appended, each⟩ :=
        ih (built.push m action (item.rule.origin s)) pushed
      let rule : Rule := ⟨chain.rules.length + 1, m, action, item.rule.origin s⟩
      refine ⟨builtOut, name, hook, policy, rule :: rules, ?_,
        List.Forall₂.cons ⟨compiled, rfl⟩ each⟩
      rw [appended]
      exact List.append_assoc chain.rules [rule] rules

theorem ChainText.compile_spec {c : ChainText} {chain : Chain}
    (compiled : c.compile s = some chain) :
    chain.Built ∧ chain.name = c.declaration.name ∧ chain.hook = c.declaration.hook ∧
      chain.policy = c.declaration.value ∧ List.Forall₂ (fun (r : RuleText) rule =>
        r.compile chain.hook = some (rule.predicate, rule.action)) c.ruleTexts chain.rules := by
  obtain ⟨built, name, hook, policy, rules, appended, each⟩ :=
    foldlM_push_rules (Chain.Built.new _ _ _) compiled
  refine ⟨built, name, hook, policy, ?_⟩
  rw [ChainText.ruleTexts, List.forall₂_map_left_iff, hook, appended]
  exact each.imp (fun _ _ both => both.1)

/-- Every rule of a chain is traced back to its text. -/
theorem ChainText.compile_origins {c : ChainText} {chain : Chain}
    (compiled : c.compile s = some chain) :
    List.Forall₂ (fun (r : RuleText) rule => rule.origin = r.origin s) c.ruleTexts chain.rules := by
  obtain ⟨_, _, _, _, rules, appended, each⟩ :=
    foldlM_push_rules (Chain.Built.new _ _ _) compiled
  rw [ChainText.ruleTexts, List.forall₂_map_left_iff, appended]
  exact each.imp (fun _ _ both => both.2)

theorem foldlM_push_chains {items : List ChainItem} {found out : List Chain}
    (pushed : items.foldlM (ChainItem.push s) found = some out) :
    ∃ more, out = found ++ more ∧ List.Forall₂ (fun (c : ChainText) chain =>
      c.compile s = some chain) (items.map ChainItem.chain) more := by
  induction items generalizing found with
  | nil =>
      obtain rfl := Option.some.inj pushed
      exact ⟨[], (List.append_nil _).symm, .nil⟩
  | cons item rest ih =>
      rw [List.foldlM_cons, Option.bind_eq_bind, Option.bind_eq_some_iff] at pushed
      obtain ⟨middle, first, pushed⟩ := pushed
      obtain ⟨chain, compiled, first⟩ := Option.bind_eq_some_iff.mp first
      obtain rfl := Option.some.inj first
      obtain ⟨more, rfl, each⟩ := ih pushed
      exact ⟨chain :: more, List.append_assoc _ _ _, .cons compiled each⟩

theorem foldlM_push_tables {items : List TableItem} {found out : List Chain}
    (pushed : items.foldlM (TableItem.push s) found = some out) :
    ∃ more, out = found ++ more ∧ List.Forall₂ (fun (c : ChainText) chain =>
      c.compile s = some chain)
        (items.flatMap (fun item => item.table.chains.map ChainItem.chain)) more := by
  induction items generalizing found with
  | nil =>
      obtain rfl := Option.some.inj pushed
      exact ⟨[], (List.append_nil _).symm, .nil⟩
  | cons item rest ih =>
      rw [List.foldlM_cons, Option.bind_eq_bind, Option.bind_eq_some_iff] at pushed
      obtain ⟨middle, first, pushed⟩ := pushed
      obtain ⟨chains, compiled, first⟩ := Option.bind_eq_some_iff.mp first
      obtain rfl := Option.some.inj first
      obtain ⟨_, rfl, eachHere⟩ := foldlM_push_chains compiled
      obtain ⟨more, rfl, each⟩ := ih pushed
      refine ⟨chains ++ more, List.append_assoc _ _ _, ?_⟩
      rw [List.flatMap_cons]
      exact List.rel_append eachHere each

end Correspondence

/-- Chain by chain, the ruleset is what the texts of the chains compile to. -/
theorem FileText.Reads.chains {f : FileText} {fileName source : String} {ruleset : Ruleset}
    (reads : f.Reads fileName source ruleset) :
    List.Forall₂ (fun (c : ChainText) chain =>
      c.compile { file := fileName, src := source } = some chain) f.chainTexts ruleset.chains := by
  obtain ⟨found, folded, compiled⟩ := Option.bind_eq_some_iff.mp reads.compiled
  obtain ⟨more, rfl, each⟩ := foldlM_push_tables folded
  rw [← Option.some.inj compiled]
  exact each

def FileText.ruleAt (f : FileText) (i j : Nat) : Option RuleText := do
  let c ← f.chainTexts[i]?
  c.ruleTexts[j]?

/-- Every rule of the ruleset has a text, which compiles to it. -/
theorem FileText.Reads.ruleAt {f : FileText} {fileName source : String} {ruleset : Ruleset}
    (reads : f.Reads fileName source ruleset) {i j : Nat} {chain : Chain} {rule : Rule}
    (chainAt : ruleset.chains[i]? = some chain) (ruleAt : chain.rules[j]? = some rule) :
    ∃ r, f.ruleAt i j = some r ∧
      r.compile chain.hook = some (rule.predicate, rule.action) := by
  obtain ⟨c, textAt, compiled⟩ := reads.chains.getElem?_left chainAt
  obtain ⟨_, _, _, _, rules⟩ := ChainText.compile_spec compiled
  obtain ⟨r, found, ruleCompiled⟩ := rules.getElem?_left ruleAt
  exact ⟨r, by simp [FileText.ruleAt, textAt, found], ruleCompiled⟩

theorem FileText.Reads.originAt {f : FileText} {fileName source : String} {ruleset : Ruleset}
    (reads : f.Reads fileName source ruleset) {i j : Nat} {chain : Chain} {rule : Rule}
    (chainAt : ruleset.chains[i]? = some chain) (ruleAt : chain.rules[j]? = some rule) :
    ∃ r, f.ruleAt i j = some r ∧ rule.origin = r.origin { file := fileName, src := source } := by
  obtain ⟨c, textAt, compiled⟩ := reads.chains.getElem?_left chainAt
  obtain ⟨r, found, origin⟩ := (ChainText.compile_origins compiled).getElem?_left ruleAt
  exact ⟨r, by simp [FileText.ruleAt, textAt, found], origin⟩

theorem FileText.first_mem_tokens {f : FileText} {i j : Nat} {r : RuleText}
    (textAt : f.ruleAt i j = some r) : r.first ∈ f.tokens := by
  obtain ⟨c, chainAt, ruleAt⟩ := Option.bind_eq_some_iff.mp textAt
  have inFile := List.mem_of_getElem? chainAt
  have inChain := List.mem_of_getElem? ruleAt
  obtain ⟨table, isTable, inTable⟩ := List.mem_flatMap.mp inFile
  obtain ⟨chain, isChain, rfl⟩ := List.mem_map.mp inTable
  obtain ⟨item, isRule, rfl⟩ := List.mem_map.mp inChain
  have here : item.rule.first ∈ item.tokens := by simp [RuleItem.tokens, RuleText.tokens]
  have inBody : item.rule.first ∈ chain.tokens := by
    simp only [ChainItem.tokens, ChainText.tokens, ChainText.body, List.mem_append,
      List.mem_cons, List.mem_flatMap]
    exact Or.inr (Or.inr (Or.inr (Or.inl ⟨item, isRule, here⟩)))
  have inItem : item.rule.first ∈ table.tokens := by
    simp only [TableItem.tokens, TableText.tokens, List.mem_append, List.mem_cons,
      List.mem_flatMap]
    exact Or.inr (Or.inl (Or.inr (Or.inl ⟨chain, isChain, inBody⟩)))
  exact List.mem_append_right _ (List.mem_flatMap.mpr ⟨table, isTable, inItem⟩)

/-! ### Files with one rule -/

section OneRule

/-- The source of a file with one rule, which is written on one line. -/
def oneRuleSource (hook : Hook) (line : String) : String :=
  "table ip t \x7b\nchain c \x7b\ntype filter hook " ++ hookText hook ++ " priority 0;\n" ++
    line ++ "\n\x7d\n\x7d\n"

/-- That source as it is written: one table, one chain and one rule, which stands
on the fourth line and ends before the column. -/
def oneRule (hook : Hook) (r : RuleText) (column : Nat) : FileText where
  before := ⟨[], by simp⟩
  tables := [{
    keyword := ⟨.word "table", 1, 1⟩
    isTable := rfl
    table := {
      head := [⟨.word "ip", 1, 7⟩, ⟨.word "t", 1, 10⟩, ⟨.sym '{', 1, 12⟩]
      name := "t"
      headed := rfl
      chains := [{
        before := ⟨[⟨.brk, 1, 13⟩], by simp⟩
        keyword := ⟨.word "chain", 2, 1⟩
        isChain := rfl
        chain := {
          head := [⟨.word "c", 2, 7⟩, ⟨.sym '{', 2, 9⟩, ⟨.brk, 2, 10⟩, ⟨.word "type", 3, 1⟩,
            ⟨.word "filter", 3, 6⟩, ⟨.word "hook", 3, 13⟩, ⟨.word (hookText hook), 3, 18⟩,
            ⟨.word "priority", 3, (hookText hook).length + 19⟩,
            ⟨.num 0, 3, (hookText hook).length + 28⟩, ⟨.brk, 3, (hookText hook).length + 29⟩]
          declaration := {
            name := "c", before := 1, hook := hook, device := none, negative := false,
            priority := .num 0, isPriority := Or.inl ⟨0, rfl⟩, after := 1, policy := none }
          declared := rfl
          rules := [⟨⟨[], by simp⟩, r⟩]
          close := ⟨⟨[⟨.brk, 4, column⟩], by simp⟩, ⟨.sym '}', 5, 1⟩, rfl⟩ } }]
      close := ⟨⟨[⟨.brk, 5, 2⟩], by simp⟩, ⟨.sym '}', 6, 1⟩, rfl⟩ }
    after := ⟨[⟨.brk, 6, 2⟩], by simp⟩ }]

theorem hook_of_mem_oneRule {hook : Hook} {r : RuleText} {column : Nat} {c : ChainText}
    (member : c ∈ (oneRule hook r column).chainTexts) : c.declaration.hook = hook := by
  simp only [FileText.chainTexts, oneRule, List.flatMap_cons, List.flatMap_nil, List.map_cons,
    List.map_nil, List.append_nil, List.mem_singleton] at member
  rw [member]

/-- A source that is lexed to one rule the parser can read is accepted. -/
theorem oneRule_reads (hook : Hook) (r : RuleText) (column : Nat) {fileName source : String}
    {last : Token} (lexed : lex fileName source = .ok ((oneRule hook r column).tokens, last))
    (follow : Followed Stmt.yield Stmt.Follow r.stmts .brk)
    (noPolicy : r.first.tok ≠ .word "policy") (compiles : (r.compile hook).isSome = true) :
    ∃ ruleset chain rule, (oneRule hook r column).Reads fileName source ruleset ∧
      ruleset.chains[0]? = some chain ∧ chain.rules[0]? = some rule ∧ chain.hook = hook ∧
        r.compile hook = some (rule.predicate, rule.action) := by
  obtain ⟨⟨m, action⟩, compiled⟩ := Option.isSome_iff_exists.mp compiles
  let s : Source := { file := fileName, src := source }
  let chain := (Chain.new "c" hook .accept).push m action (r.origin s)
  refine ⟨{ label := fileName, chains := [chain] }, chain, _, ⟨⟨last, lexed⟩, ?_, ?_⟩,
    rfl, rfl, rfl, compiled⟩
  · intro item member item' member'
    obtain rfl := List.mem_singleton.mp member
    obtain rfl := List.mem_singleton.mp member'
    obtain ⟨w, isWord⟩ := r.first_isWord
    refine ⟨⟨?_, fun _ => noPolicy⟩, ⟨follow, rfl⟩, trivial⟩
    exact fun isBreak => absurd (isWord.symm.trans isBreak) (by simp)
  · have pushed : RuleItem.push s (Chain.new "c" hook .accept) ⟨⟨[], by simp⟩, r⟩ =
        some chain := by
      simp [RuleItem.push, Chain.new, compiled, chain]
    simp only [FileText.compile, oneRule, TableItem.push, TableText.compile, ChainItem.push,
      ChainText.compile, Declaration.chain, Declaration.value, List.foldlM_cons, List.foldlM_nil,
      Option.bind_eq_bind]
    rw [pushed]
    rfl

def eth0 : IfAtom :=
  ⟨"eth0", true, by decide⟩

/-- `iifname "eth0" tcp dport 22 accept` -/
def sshFromEth0 : RuleText where
  first := ⟨.word "iifname", 4, 1⟩
  rest := [⟨.str "eth0", 4, 9⟩, ⟨.word "tcp", 4, 16⟩, ⟨.word "dport", 4, 20⟩, ⟨.num 22, 4, 26⟩,
    ⟨.word "accept", 4, 29⟩]
  stmts := [.iifname ⟨.absent, .single eth0⟩,
    .ports .tcp .dport ⟨.absent, .single (.one 22 (by decide))⟩, .accept]
  spelled := rfl

theorem sshFromEth0_reads : ∃ ruleset chain rule,
    (oneRule .input sshFromEth0 35).Reads "f"
      (oneRuleSource .input "iifname \"eth0\" tcp dport 22 accept") ruleset ∧
    ruleset.chains[0]? = some chain ∧ chain.rules[0]? = some rule ∧ chain.hook = .input ∧
      sshFromEth0.compile .input = some (rule.predicate, rule.action) := by
  have lexed : lex "f" (oneRuleSource .input "iifname \"eth0\" tcp dport 22 accept") =
      .ok ((oneRule .input sshFromEth0 35).tokens, ⟨.eof, 7, 1⟩) := by
    decide +kernel
  have follow : Followed Stmt.yield Stmt.Follow sshFromEth0.stmts .brk :=
    ⟨nofun, nofun, trivial, trivial⟩
  exact oneRule_reads .input sshFromEth0 35 lexed follow (by decide) (by decide +kernel)

end OneRule

end Fwdelta.Nft
