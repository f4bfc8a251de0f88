import Fwdelta.Cli.Answers
import Fwdelta.Engine.Explain

/-
The `check` command on one parsed ruleset.

Every chain is analysed on its own, and the rules that decide nothing or are not needed
are listed.  The theorems say what the lists tell about traffic, in the document and in
the printed lines.  A printed line looks its rule up by the name of the chain, so that it
may cite another chain of that name.
-/

namespace Fwdelta

/-! ### Rules that are not needed -/

namespace Chain

/-- The rule of that number decides no traffic. -/
def Unreached (chain : Chain) (number : Nat) : Prop :=
  ∀ t, chain.rulingDecider t ≠ .rule number

/-- The other rules, under the numbers they have. -/
def without (chain : Chain) (number : Nat) : Chain :=
  { chain with rules := chain.rules.filter (fun rule => rule.number != number) }

/-- Without the rule of that number, the same traffic is permitted. -/
def Dispensable (chain : Chain) (number : Nat) : Prop :=
  ∀ t, ((chain.without number).ruling t).permits = (chain.ruling t).permits

/-- What meets the rule meets one of these before it. -/
def CoveredBy (chain : Chain) (rule : Rule) (numbers : List Nat) : Prop :=
  ∀ t, rule.predicate.Meets t → ∃ earlier ∈ chain.rules, earlier.number ∈ numbers ∧
    earlier.number < rule.number ∧ earlier.predicate.Meets t

theorem Known.without {syms : SymbolTable} {chain : Chain} (known : chain.Known syms)
    (number : Nat) : (chain.without number).Known syms :=
  fun rule member => known rule (List.mem_of_mem_filter member)

/-- Rules have the number of their position, so that the others are those elsewhere. -/
theorem Built.without_rules {chain : Chain} (built : chain.Built) {i : Nat} {rule : Rule}
    (at_ : chain.rules[i]? = some rule) :
    (chain.without rule.number).rules = chain.rules.eraseIdx i := by
  have number := built.number_at at_
  obtain ⟨bound, here⟩ := List.getElem?_eq_some_iff.mp at_
  have before : (chain.rules.take i).filter (fun other => other.number != rule.number) =
      chain.rules.take i := by
    refine List.filter_eq_self.mpr fun other member => ?_
    obtain ⟨j, otherAt⟩ := List.mem_iff_getElem?.mp member
    have inside : j < i := by
      have within := (List.getElem?_eq_some_iff.mp otherAt).1
      rw [List.length_take] at within
      omega
    rw [List.getElem?_take_of_lt inside] at otherAt
    have there := built.number_at otherAt
    simp only [bne_iff_ne]
    omega
  have after : (chain.rules.drop (i + 1)).filter (fun other => other.number != rule.number) =
      chain.rules.drop (i + 1) := by
    refine List.filter_eq_self.mpr fun other member => ?_
    obtain ⟨j, otherAt⟩ := List.mem_iff_getElem?.mp member
    rw [List.getElem?_drop] at otherAt
    have there := built.number_at otherAt
    simp only [bne_iff_ne]
    omega
  calc (chain.without rule.number).rules
      = (chain.rules.take i ++ rule :: chain.rules.drop (i + 1)).filter
          (fun other => other.number != rule.number) := by
        rw [← here, ← List.drop_eq_getElem_cons bound, List.take_append_drop, here]
        rfl
    _ = chain.rules.eraseIdx i := by
        rw [List.filter_append, List.filter_cons_of_neg (by simp), before, after,
          List.eraseIdx_eq_take_drop_succ]

theorem Built.remains_without {chain : Chain} (built : chain.Built) {i : Nat} {rule : Rule}
    (at_ : chain.rules[i]? = some rule) :
    chain.Remains ((List.range chain.rules.length).eraseIdx i) (chain.without rule.number) where
  policy := rfl
  rules := by
    have whole : List.Forall₂ (fun k rule => ∃ original, chain.rules[k]? = some original ∧
        rule.predicate = original.predicate ∧ rule.action = original.action)
        (List.range chain.rules.length) chain.rules := by
      refine List.forall₂_iff_get.mpr ⟨List.length_range, fun k inRange bound => ?_⟩
      exact ⟨_, by simp [List.getElem?_eq_getElem bound], rfl, rfl⟩
    rw [built.without_rules at_, List.eraseIdx_eq_take_drop_succ, List.eraseIdx_eq_take_drop_succ]
    exact List.rel_append (List.forall₂_take _ whole) (List.forall₂_drop _ whole)

end Chain

section Analysed

variable {B : Type} [DecisionDiagram.Library HEADER_BITS B] [ContentHasher]
variable (layout : Layout) {syms : SymbolTable} (room : syms.names.length < MAX_INTERFACES)
variable {chain : Chain} (built : chain.Built) (known : chain.Known syms) {i : Nat}
  {r : RuleModel B} (at_ : (analyse layout syms chain : ChainModel B).rules[i]? = some r)

include room built known at_

theorem shadowed_iff_unreached : r.shadowed = true ↔ chain.Unreached r.number := by
  obtain ⟨rule, ruleAt, describes⟩ := exists_described layout syms chain at_
  rw [shadowed_iff_never_decides layout syms chain at_, describes.number]
  refine forall_packet_iff_forall_traffic room fun t p seen => ?_
  rw [ne_eq, ← built.decider_eq_rule_iff syms ruleAt, seen.decider_eq known]

theorem redundant_iff_dispensable : r.redundant = true ↔ chain.Dispensable r.number := by
  obtain ⟨rule, ruleAt, describes⟩ := exists_described layout syms chain at_
  rw [redundant_iff_permits layout syms at_ (built.remains_without ruleAt), describes.number]
  refine forall_packet_iff_forall_traffic room fun t p seen => ?_
  rw [seen.verdict_eq known, seen.verdict_eq (known.without rule.number)]

/-- The rules named for a shadowed one cover it. -/
theorem explainShadow_covers (shadowed : r.shadowed = true) {rule : Rule}
    (ruleAt : chain.rules[i]? = some rule) :
    chain.CoveredBy rule ((analyse layout syms chain : ChainModel B).explainShadow r.number) := by
  intro t meets
  obtain ⟨p, seen⟩ := t.exists_packet (Or.inr room) (Or.inr room)
  have inside := (seen.contains_iff (known rule (List.mem_of_getElem? ruleAt))).mpr meets
  have explains := explains_shadow layout syms built at_ ruleAt shadowed ⟨p, inside⟩
  obtain ⟨earlier, member, named, holds⟩ := explains.covers p inside
  exact ⟨earlier, member, named, (explains.overlapping _ named).1,
    (seen.contains_iff (known earlier member)).mp holds⟩

end Analysed

/-! ### What is printed -/

def Origin.display (o : Origin) : String :=
  o.file ++ ":" ++ toString o.line ++ ":" ++ toString o.column

namespace ChainModel

variable {B : Type}

def shadowed (m : ChainModel B) : List (RuleModel B) :=
  m.rules.filter (fun r => r.shadowed)

/-- Shadowed rules are left to the other list. -/
def redundant (m : ChainModel B) : List (RuleModel B) :=
  m.rules.filter (fun r => r.redundant && !r.shadowed)

end ChainModel

namespace Cli

open JsonGrammar

inductive Format
  | text
  | json
  | html
  deriving DecidableEq, Repr

structure CheckedChain where
  name : String
  rules : Nat
  unreachable : List Nat
  redundant : List Nat

structure CheckFinding where
  chain : String
  number : Nat
  what : String
  covered : List Nat

structure Checked where
  syms : SymbolTable
  chains : List CheckedChain
  findings : List CheckFinding

section Command

variable {B : Type} [DecisionDiagram.Library HEADER_BITS B]

def checkedChain (chain : Chain) (m : ChainModel B) : CheckedChain where
  name := chain.name
  rules := chain.rules.length
  unreachable := m.shadowed.map RuleModel.number
  redundant := m.redundant.map RuleModel.number

def checkFindings (chain : Chain) (m : ChainModel B) : List CheckFinding :=
  m.shadowed.map (fun r => ⟨chain.name, r.number, "unreachable", m.explainShadow r.number⟩) ++
    m.redundant.map (fun r => ⟨chain.name, r.number, "redundant", []⟩)

def verifyChain (verify : Bool) (name : String) (m : ChainModel B) : Except String Unit :=
  if verify then m.verify.mapError (fun e => s!"chain `{name}`: {e}") else .ok ()

variable [ContentHasher]

variable (B) in
/-- One round of the loop over the chains. -/
def checkChain (verify : Bool) (syms : SymbolTable) (chain : Chain) :
    Except String (CheckedChain × List CheckFinding) := do
  let m : ChainModel B := analyse layout syms chain
  verifyChain verify chain.name m
  .ok (checkedChain chain m, checkFindings chain m)

variable (B) in
/-- The command from the parsed ruleset to what is printed. -/
def cmdCheck (verify : Bool) (rs : Ruleset) : Except String Checked := do
  let syms ← (SymbolTable.fromNames rs.interfaceNames).mapError TooManyInterfaces.message
  let rows ← rs.chains.mapM (checkChain B verify syms)
  .ok ⟨syms, rows.map Prod.fst, rows.flatMap Prod.snd⟩

end Command

def checkedJson (c : CheckedChain) : Json :=
  .obj [
    ("name", .str c.name),
    ("rules", .num c.rules),
    ("unreachable", .arr (c.unreachable.map Json.num)),
    ("redundant", .arr (c.redundant.map Json.num))]

def checkJson (rs : Ruleset) (out : Checked) : Json :=
  .obj [
    ("tool", toolJson),
    ("ruleset", .str rs.label),
    ("chains", .arr (out.chains.map checkedJson))]

/-- The rule a finding cites: the chain is looked up by its name. -/
def CheckFinding.cited (rs : Ruleset) (f : CheckFinding) : Option Rule :=
  (rs.chain f.chain).bind (fun c => c.rules.find? (fun rule => rule.number == f.number))

def coveredText : List Nat → String
  | [] => ""
  | [one] => "  covered by rule " ++ Text.twoDigits one
  | many => "  covered by rules " ++ ", ".intercalate (many.map Text.twoDigits)

def findingLines (rs : Ruleset) (f : CheckFinding) : List String :=
  let origin := ((f.cited rs).map (fun rule => rule.origin.display)).getD ""
  ("  " ++ origin ++ "  rule " ++ Text.twoDigits f.number ++ " " ++ f.what ++
      coveredText f.covered) ::
    (((f.cited rs).map (fun rule => rule.origin.text)).toList.filter (fun text => text != "")).map
      (fun text => "      " ++ text)

def checkLines (rs : Ruleset) (out : Checked) : List String :=
  (rs.label ++ ": " ++ toString rs.chains.length ++ " chains, " ++ toString rs.ruleCount ++
      " rules") ::
    if out.findings.isEmpty then ["no unreachable or redundant rules"]
    else out.findings.flatMap (findingLines rs)

def printChecked (format : Format) (rs : Ruleset) (out : Checked) : Except String String :=
  match format with
  | .json => .ok (checkJson rs out).render
  | .html => .error "check does not produce html; use diff --format html"
  | .text => .ok (String.join ((checkLines rs out).map (fun line => line ++ "\n")))

/-! ### What a run found -/

section Ran

variable {B : Type} [DecisionDiagram.Library HEADER_BITS B] [ContentHasher]
variable {verify : Bool} {rs : Ruleset} {out : Checked} (ran : cmdCheck B verify rs = .ok out)

include ran

theorem cmdCheck_syms : SymbolTable.fromNames rs.interfaceNames = .ok out.syms := by
  obtain ⟨syms, named, later⟩ := Fallible.bind_eq_ok_iff.mp ran
  obtain ⟨rows, _, last⟩ := Fallible.bind_eq_ok_iff.mp later
  obtain rfl := Except.ok.inj last
  exact Fallible.mapError_eq_ok_iff.mp named

theorem cmdCheck_rows :
    out.chains = rs.chains.map (fun c =>
        checkedChain c (analyse layout out.syms c : ChainModel B)) ∧
      out.findings = rs.chains.flatMap (fun c =>
        checkFindings c (analyse layout out.syms c : ChainModel B)) := by
  obtain ⟨syms, _, later⟩ := Fallible.bind_eq_ok_iff.mp ran
  obtain ⟨rows, checked, last⟩ := Fallible.bind_eq_ok_iff.mp later
  obtain rfl := Except.ok.inj last
  have each := (Fallible.mapM_eq_ok_iff.mp checked).map_eq (f := fun c =>
    (checkedChain c (analyse layout syms c : ChainModel B),
      checkFindings c (analyse layout syms c : ChainModel B))) (g := id) fun c row found => by
    obtain ⟨_, _, found⟩ := Fallible.bind_eq_ok_iff.mp found
    exact Except.ok.inj found
  rw [List.map_id] at each
  subst each
  constructor
  · rw [List.map_map]
    rfl
  · rw [List.flatMap_map]

theorem cmdCheck_known {chain : Chain} (member : chain ∈ rs.chains) : chain.Known out.syms := by
  intro rule among name named
  rw [SymbolTable.mem_of_fromNames (cmdCheck_syms ran)]
  exact List.mem_flatMap.mpr ⟨rule, List.mem_flatMap.mpr ⟨chain, member, among⟩, named⟩

end Ran

section Told

variable {B : Type} [DecisionDiagram.Library HEADER_BITS B] [ContentHasher]
variable {syms : SymbolTable} {chain : Chain}

/-- The numbers of the rules of a flag, when the flag is a property of the number. -/
theorem mem_flagged (layout : Layout) {flag : RuleModel B → Bool} {holds : Nat → Prop}
    (means : ∀ (i : Nat) (r : RuleModel B),
      (analyse layout syms chain : ChainModel B).rules[i]? = some r →
        (flag r = true ↔ holds r.number)) (number : Nat) :
    number ∈ ((analyse layout syms chain : ChainModel B).rules.filter flag).map RuleModel.number ↔
      (∃ rule ∈ chain.rules, rule.number = number) ∧ holds number := by
  simp only [List.mem_map, List.mem_filter]
  constructor
  · rintro ⟨r, ⟨member, flagged⟩, rfl⟩
    obtain ⟨i, at_⟩ := List.mem_iff_getElem?.mp member
    obtain ⟨rule, ruleAt, describes⟩ := exists_described layout syms chain at_
    exact ⟨⟨rule, List.mem_of_getElem? ruleAt, describes.number.symm⟩, (means i r at_).mp flagged⟩
  · rintro ⟨⟨rule, member, rfl⟩, holdsOf⟩
    obtain ⟨i, ruleAt⟩ := List.mem_iff_getElem?.mp member
    obtain ⟨r, at_, describes⟩ := exists_describing (B := B) layout syms chain ruleAt
    refine ⟨r, ⟨List.mem_of_getElem? at_, (means i r at_).mpr ?_⟩, describes.number⟩
    rwa [describes.number]

/-- The row of a chain, as the document has it, is true of all traffic. -/
structure CheckedChain.Answers (line : CheckedChain) (chain : Chain) : Prop where
  name : line.name = chain.name
  rules : line.rules = chain.rules.length
  unreachable : ∀ n, n ∈ line.unreachable ↔
    (∃ rule ∈ chain.rules, rule.number = n) ∧ chain.Unreached n
  redundant : ∀ n, n ∈ line.redundant ↔
    (∃ rule ∈ chain.rules, rule.number = n) ∧ chain.Dispensable n ∧ ¬ chain.Unreached n

variable (room : syms.names.length < MAX_INTERFACES) (built : chain.Built)
  (known : chain.Known syms)

include room built known

theorem answers_checkedChain (layout : Layout) :
    (checkedChain chain (analyse layout syms chain : ChainModel B)).Answers chain where
  name := rfl
  rules := rfl
  unreachable := mem_flagged layout fun _ _ at_ =>
    shadowed_iff_unreached layout room built known at_
  redundant := mem_flagged layout
    fun i r at_ => by
      rw [Bool.and_eq_true, Bool.not_eq_true', ← Bool.not_eq_true,
        redundant_iff_dispensable layout room built known at_,
        shadowed_iff_unreached layout room built known at_]

end Told

/-- Nothing is listed of a chain when all its rules decide something and are needed. -/
theorem CheckedChain.Answers.nothing_iff {line : CheckedChain} {chain : Chain}
    (answers : line.Answers chain) : line.unreachable = [] ∧ line.redundant = [] ↔
      ∀ rule ∈ chain.rules, ¬ chain.Unreached rule.number ∧ ¬ chain.Dispensable rule.number := by
  simp only [List.eq_nil_iff_forall_not_mem, answers.unreachable, answers.redundant]
  constructor
  · rintro ⟨reached, needed⟩ rule member
    have decides : ¬ chain.Unreached rule.number :=
      fun unreached => reached rule.number ⟨⟨rule, member, rfl⟩, unreached⟩
    exact ⟨decides, fun spare => needed rule.number ⟨⟨rule, member, rfl⟩, spare, decides⟩⟩
  · intro each
    constructor
    · rintro _ ⟨⟨rule, member, rfl⟩, unreached⟩
      exact (each rule member).1 unreached
    · rintro _ ⟨⟨rule, member, rfl⟩, spare, _⟩
      exact (each rule member).2 spare

/-- What a finding says of a rule is true of all traffic. -/
structure CheckFinding.Tells (f : CheckFinding) (chain : Chain) (rule : Rule) : Prop where
  named : f.chain = chain.name
  numbered : f.number = rule.number
  told : (f.what = "unreachable" ∧ chain.Unreached rule.number ∧
      chain.CoveredBy rule f.covered) ∨
    (f.what = "redundant" ∧ chain.Dispensable rule.number ∧ ¬ chain.Unreached rule.number ∧
      f.covered = [])

section Findings

variable {B : Type} [DecisionDiagram.Library HEADER_BITS B] [ContentHasher]
variable {syms : SymbolTable} {chain : Chain}

omit [ContentHasher] in
theorem checkFindings_eq_nil_iff (m : ChainModel B) : checkFindings chain m = [] ↔
    (checkedChain chain m).unreachable = [] ∧ (checkedChain chain m).redundant = [] := by
  simp only [checkFindings, checkedChain, List.append_eq_nil_iff, List.map_eq_nil_iff]

theorem tells_of_mem (room : syms.names.length < MAX_INTERFACES) (built : chain.Built)
    (known : chain.Known syms) (layout : Layout) {f : CheckFinding}
    (member : f ∈ checkFindings chain (analyse layout syms chain : ChainModel B)) :
    ∃ rule ∈ chain.rules, f.Tells chain rule := by
  rcases List.mem_append.mp member with listed | listed
  · obtain ⟨r, among, rfl⟩ := List.mem_map.mp listed
    obtain ⟨inModel, shadowed⟩ := List.mem_filter.mp among
    obtain ⟨i, at_⟩ := List.mem_iff_getElem?.mp inModel
    obtain ⟨rule, ruleAt, describes⟩ := exists_described layout syms chain at_
    refine ⟨rule, List.mem_of_getElem? ruleAt, rfl, describes.number, Or.inl ⟨rfl, ?_, ?_⟩⟩
    · rw [← describes.number]
      exact (shadowed_iff_unreached layout room built known at_).mp shadowed
    · exact explainShadow_covers layout room built known at_ shadowed ruleAt
  · obtain ⟨r, among, rfl⟩ := List.mem_map.mp listed
    obtain ⟨inModel, flags⟩ := List.mem_filter.mp among
    rw [Bool.and_eq_true, Bool.not_eq_true', ← Bool.not_eq_true] at flags
    obtain ⟨i, at_⟩ := List.mem_iff_getElem?.mp inModel
    obtain ⟨rule, ruleAt, describes⟩ := exists_described layout syms chain at_
    refine ⟨rule, List.mem_of_getElem? ruleAt, rfl, describes.number,
      Or.inr ⟨rfl, ?_, ?_, rfl⟩⟩
    · rw [← describes.number]
      exact (redundant_iff_dispensable layout room built known at_).mp flags.1
    · rw [← describes.number]
      exact fun unreached =>
        flags.2 ((shadowed_iff_unreached layout room built known at_).mpr unreached)

omit [ContentHasher] in
/-- Where no two chains have one name, a finding cites the rule it is about. -/
theorem cited_of_tells {rs : Ruleset} (unique : (rs.chains.map Chain.name).Nodup)
    (member : chain ∈ rs.chains) (built : chain.Built) {rule : Rule} (among : rule ∈ chain.rules)
    {f : CheckFinding} (tells : f.Tells chain rule) : f.cited rs = some rule := by
  rw [CheckFinding.cited, tells.named, tells.numbered, chain_of_mem unique member, Option.bind_some]
  exact Matching.find?_key built.numbers_nodup among

end Findings

/-! ### The document is read back -/

structure CheckDocument where
  ruleset : String
  chains : List CheckedChain

def readChecked (v : Value) : Option CheckedChain := do
  let name ← v.get "name" Value.text
  let rules ← v.get "rules" Value.natural
  let unreachable ← v.get "unreachable" (Value.items Value.natural)
  let redundant ← v.get "redundant" (Value.items Value.natural)
  some ⟨name, rules, unreachable, redundant⟩

def readCheck (v : Value) : Option CheckDocument := do
  let ruleset ← v.get "ruleset" Value.text
  let chains ← v.get "chains" (Value.items readChecked)
  some ⟨ruleset, chains⟩

theorem readChecked_json (c : CheckedChain) : readChecked (checkedJson c).tree = some c := by
  have unreachable := items_natural c.unreachable
  have redundant := items_natural c.redundant
  rw [checkedJson]
  simp only [readChecked, Json.tree, Json.treeFields]
  simp (disch := decide) only [Value.get_first, Value.get_later, Value.text_str,
    Value.natural_num, unreachable, redundant, Option.bind_eq_bind, Option.bind_some]

theorem readCheck_json (rs : Ruleset) (out : Checked) :
    readCheck (checkJson rs out).tree = some ⟨rs.label, out.chains⟩ := by
  have chains := Json.items_tree fun c (_ : c ∈ out.chains) => readChecked_json c
  rw [Json.tree] at chains
  rw [checkJson]
  simp only [readCheck, Json.tree, Json.treeFields]
  simp (disch := decide) only [Value.get_first, Value.get_later, Value.text_str, chains,
    Option.bind_eq_bind, Option.bind_some]

/-! ### What the command tells -/

/-- All traffic is accepted twice over. -/
def acceptedTwice : Chain :=
  ((Chain.new "c" .input .drop).push Match.any .accept ⟨"f", 4, 1, "accept"⟩).push Match.any
    .accept ⟨"f", 5, 1, "accept"⟩

def acceptedTwiceSource : String :=
  "table ip t \x7b\nchain c \x7b\ntype filter hook input priority 0; policy drop;\n" ++
    "accept\naccept\n\x7d\n\x7d\n"

theorem acceptedTwice_parsed :
    Nft.parse "f" acceptedTwiceSource = .ok ⟨"f", [acceptedTwice]⟩ := by decide +kernel

theorem acceptedTwice_unreached : acceptedTwice.Unreached 2 := by
  intro t
  have meets : Match.any.Meets t := ⟨Match.containsHeader_any t.header, trivial, trivial⟩
  have first : acceptedTwice.meetingRule t = some ⟨1, Match.any, .accept, ⟨"f", 4, 1, "accept"⟩⟩ :=
    List.find?_cons_of_pos (by simpa using meets)
  rw [Chain.rulingDecider, first]
  decide

section Run

variable {B : Type} [DecisionDiagram.Library HEADER_BITS B] [ContentHasher]

/-- Without the self-checks the command fails only over too many names. -/
theorem exists_cmdCheck {rs : Ruleset} {syms : SymbolTable}
    (named : SymbolTable.fromNames rs.interfaceNames = .ok syms) :
    ∃ out, cmdCheck B false rs = .ok out ∧ out.syms = syms := by
  obtain ⟨rows, checked⟩ : ∃ rows, rs.chains.mapM (checkChain B false syms) = .ok rows :=
    Fallible.exists_mapM fun chain _ => ⟨_, rfl⟩
  refine ⟨⟨syms, rows.map Prod.fst, rows.flatMap Prod.snd⟩, ?_, rfl⟩
  rw [cmdCheck, named]
  simp only [Except.mapError, bind, Except.bind, checked]

theorem acceptedTwice_checked :
    ∃ out, cmdCheck B false ⟨"f", [acceptedTwice]⟩ = .ok out ∧
      out.syms.names.length < MAX_INTERFACES := by
  have unnamed : (⟨"f", [acceptedTwice]⟩ : Ruleset).interfaceNames = [] := by
    simp [Ruleset.interfaceNames, acceptedTwice, Chain.push, Chain.new, Match.interfaceNames,
      Match.any, IfMatch.names, sortNames]
  obtain ⟨syms, named⟩ := SymbolTable.exists_fromNames
    (show ([] : List String).toFinset.card ≤ MAX_INTERFACES by decide)
  have none : syms.names = [] := List.eq_nil_iff_forall_not_mem.mpr fun name member => by
    simpa using (SymbolTable.mem_of_fromNames named name).mp member
  rw [← unnamed] at named
  obtain ⟨out, ran, rfl⟩ := exists_cmdCheck (B := B) named
  exact ⟨out, ran, by rw [none]; decide⟩

/-- The text of the document tells of every chain, in order, which rules decide no traffic
and which others could go without any traffic being treated otherwise. -/
theorem check_answers {fileName source : String} {rs : Ruleset}
    (parsed : Nft.parse fileName source = .ok rs) {verify : Bool} {out : Checked}
    (ran : cmdCheck B verify rs = .ok out) (room : out.syms.names.length < MAX_INTERFACES)
    {text : String} (printed : printChecked .json rs out = .ok text) {v : Value}
    (decoded : JsonGrammar.Document text.toList v) :
    ∃ doc, readCheck v = some doc ∧ doc.ruleset = rs.label ∧
      List.Forall₂ CheckedChain.Answers doc.chains rs.chains := by
  obtain rfl := Except.ok.inj printed
  rw [decoded.unique (Json.document_render _)]
  refine ⟨_, readCheck_json rs out, rfl, ?_⟩
  rw [(cmdCheck_rows ran).1, List.forall₂_map_left_iff]
  refine List.forall₂_same.mpr fun chain member => ?_
  exact answers_checkedChain room (Nft.built_of_parse parsed chain member)
    (cmdCheck_known ran member) layout

end Run

/-- The document on two equal rules lists the second as unreachable. -/
theorem second_accept_listed : letI : ContentHasher := ⟨fun _ _ => 0⟩
    ∃ out text v, cmdCheck (DecisionDiagram.Diagram HEADER_BITS) false ⟨"f", [acceptedTwice]⟩ =
        .ok out ∧ printChecked .json ⟨"f", [acceptedTwice]⟩ out = .ok text ∧
      JsonGrammar.Document text.toList v ∧
        ∃ doc, readCheck v = some doc ∧ ∃ line ∈ doc.chains, 2 ∈ line.unreachable := by
  let _ : ContentHasher := ⟨fun _ _ => 0⟩
  obtain ⟨out, ran, room⟩ := acceptedTwice_checked (B := DecisionDiagram.Diagram HEADER_BITS)
  have decoded := Json.document_render (checkJson ⟨"f", [acceptedTwice]⟩ out)
  obtain ⟨doc, read, _, answers⟩ := check_answers acceptedTwice_parsed ran room rfl decoded
  obtain ⟨line, listed, told⟩ := answers.exists_left (List.mem_singleton_self acceptedTwice)
  exact ⟨out, _, _, ran, rfl, decoded, doc, read, line, listed,
    (told.unreachable 2).mpr ⟨⟨_, List.mem_of_getElem? (i := 1) rfl, rfl⟩, acceptedTwice_unreached⟩⟩

section Run

variable {B : Type} [DecisionDiagram.Library HEADER_BITS B] [ContentHasher]

/-- The command finds nothing exactly when every rule decides some traffic and is needed.
What it finds is true of a rule, which is the one it cites where no two chains have one
name. -/
theorem check_findings_exact {fileName source : String} {rs : Ruleset}
    (parsed : Nft.parse fileName source = .ok rs) {verify : Bool} {out : Checked}
    (ran : cmdCheck B verify rs = .ok out) (room : out.syms.names.length < MAX_INTERFACES) :
    (out.findings = [] ↔ ∀ chain ∈ rs.chains, ∀ rule ∈ chain.rules,
      ¬ chain.Unreached rule.number ∧ ¬ chain.Dispensable rule.number) ∧
    ∀ f ∈ out.findings, ∃ chain ∈ rs.chains, ∃ rule ∈ chain.rules, f.Tells chain rule ∧
      ((rs.chains.map Chain.name).Nodup → f.cited rs = some rule) := by
  have built := Nft.built_of_parse parsed
  rw [(cmdCheck_rows ran).2]
  constructor
  · rw [List.flatMap_eq_nil_iff]
    refine forall₂_congr fun chain member => ?_
    rw [checkFindings_eq_nil_iff]
    exact (answers_checkedChain room (built chain member) (cmdCheck_known ran member)
      layout).nothing_iff
  · intro f found
    obtain ⟨chain, member, listed⟩ := List.mem_flatMap.mp found
    obtain ⟨rule, among, tells⟩ :=
      tells_of_mem room (built chain member) (cmdCheck_known ran member) layout listed
    exact ⟨chain, member, rule, among, tells,
      fun unique => cited_of_tells unique member (built chain member) among tells⟩

end Run

/-- Something is found about the two equal rules, and each finding cites its rule. -/
theorem accepted_twice_found : letI : ContentHasher := ⟨fun _ _ => 0⟩
    ∃ out, cmdCheck (DecisionDiagram.Diagram HEADER_BITS) false ⟨"f", [acceptedTwice]⟩ =
        .ok out ∧ out.findings ≠ [] ∧ ∀ f ∈ out.findings, ∃ rule ∈ acceptedTwice.rules,
          f.Tells acceptedTwice rule ∧ f.cited ⟨"f", [acceptedTwice]⟩ = some rule := by
  let _ : ContentHasher := ⟨fun _ _ => 0⟩
  obtain ⟨out, ran, room⟩ := acceptedTwice_checked (B := DecisionDiagram.Diagram HEADER_BITS)
  obtain ⟨nothing, told⟩ := check_findings_exact acceptedTwice_parsed ran room
  refine ⟨out, ran, fun none => ?_, fun f found => ?_⟩
  · have second := nothing.mp none acceptedTwice (List.mem_singleton_self _) _
      (List.mem_of_getElem? (i := 1) rfl)
    exact second.1 acceptedTwice_unreached
  · obtain ⟨chain, member, rule, among, tells, cites⟩ := told f found
    obtain rfl := List.mem_singleton.mp member
    exact ⟨rule, among, tells, cites (List.nodup_singleton _)⟩

end Cli

end Fwdelta
