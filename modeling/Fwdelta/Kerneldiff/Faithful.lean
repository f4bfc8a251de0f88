import Fwdelta.Kerneldiff.Escapes
import Mathlib.Algebra.Order.BigOperators.Group.Finset

/-
When an emitted chain reads back as itself.

The emitter refuses no parsed chain.  Its text reads back as the chain exactly
when each rule leaves the input interface open or names interfaces that need no
escapes on a hook that has one, and leaves the protocol open or pins one.
-/

namespace Fwdelta.Emit

open Nft
open Lookahead

/-! ### The chain that comes back -/

/-- The text is a file of one chain, with these rules on the hook of the chain. -/
def ReadsAs (rules : List (Match × Action)) (c : Chain) (text : String) : Prop :=
  ∀ fileName, ∃ ruleset back, parse fileName text = .ok ruleset ∧ ruleset.chains = [back] ∧
    back.hook = c.hook ∧ back.policy = c.policy ∧
      back.rules.map (fun r => (r.predicate, r.action)) = rules

theorem echo_satisfiable {m : Match} (image : Emittable m) :
    (echo m).isUnsatisfiable = false := by
  obtain ⟨src, dst, sport, dport, proto⟩ := m.isUnsatisfiable_eq_false.mp image.satisfiable
  refine (echo m).isUnsatisfiable_eq_false.mpr ⟨src, dst, sport, dport, ?_⟩
  rw [echo, echoProto]
  split
  · exact proto
  · rfl

/-- Names that can stand between quotes come back as their bytes, and a negated
match or several protocols do not come back. -/
theorem reads_echo {table : String} (tableWord : isWord table.toList = true) {c : Chain}
    (parsed : Parsed c) (quotable : ∀ r ∈ c.rules, QuotableNames r.predicate.iif)
    (inputless : c.hook = .output → ∀ r ∈ c.rules, ∀ names, r.predicate.iif ≠ .oneOf names) :
    ∃ text, chainWith table c false = some text ∧
      ReadsAs (c.rules.map (fun r => (echo r.predicate, r.action))) c text := by
  obtain ⟨text, sentences, written, lexes, renders⟩ :=
    exists_text tableWord parsed.name parsed.emittable quotable
  refine ⟨text, written, fun fileName => ?_⟩
  obtain ⟨tokens, last, lexed, spelled⟩ := lexes.lex fileName
  have sound : ∀ s ∈ sentences, Sound c.hook s := by
    intro s member
    obtain ⟨r, listed, built, _, pinned, _, iif⟩ := renders.exists_left member
    refine ⟨pinned, ?_, fun output => iif.mpr (inputless output r listed)⟩
    rw [built]
    exact echo_satisfiable (parsed.emittable r listed)
  obtain ⟨f, back, rfl, accepted, compiled, hook, policy, rules⟩ :=
    exists_file { file := fileName, src := text } parsed.plain sound spelled
  refine ⟨_, back, (parse_eq_ok_iff _ _ _).mpr ⟨f, ⟨last, lexed⟩, accepted, compiled⟩, rfl, hook,
    policy, ?_⟩
  have echoed := renders.flip.meet rules (T := fun r r' =>
    (echo r.predicate, r.action) = (r'.predicate, r'.action)) (by
      intro s r r' rendered same
      rw [same.1, same.2, rendered.built, rendered.action])
  rw [← List.forall₂_eq_eq_eq, List.forall₂_map_left_iff, List.forall₂_map_right_iff]
  exact echoed.flip.imp (fun _ _ same => same.symm)

/-! ### Predicates that come back unchanged -/

theorem echoProto_eq_iff (set : IntervalSet 8) :
    echoProto set = set ↔ set.isFull = true ∨ ∃ v within, set = IntervalSet.point 8 v within := by
  unfold echoProto
  cases value : protoValue set with
  | none =>
      have several : ¬ ∃ v within, set = IntervalSet.point 8 v within := by
        rintro ⟨v, pinned⟩
        rw [protoValue_eq_some_iff.mpr pinned] at value
        contradiction
      simp only [Option.isSome_none, Bool.false_eq_true, if_false, several, or_false]
      constructor
      · intro same
        rw [← same]
        exact IntervalSet.isFull_full 8
      · intro full
        exact optSet_none ProtoAtom.form full
  | some v => simpa using Or.inr ⟨v, protoValue_eq_some_iff.mp value⟩

/-- A set of names that is its own image under reading back is read back name by
name, as no name gets shorter. -/
theorem image_rereadName_eq_iff (names : Finset String) :
    names.image rereadName = names ↔ ∀ name ∈ names, ∀ c ∈ name.toList, c.toNat < 128 := by
  constructor
  · intro same
    have injective : Set.InjOn rereadName names := by
      rw [← Finset.card_image_iff, same]
    have lengths : ∑ name ∈ names, name.toList.length =
        ∑ name ∈ names, (rereadName name).toList.length := by
      conv_lhs => rw [← same]
      exact Finset.sum_image injective
    have grows (name : String) : name.toList.length ≤ (rereadName name).toList.length := by
      rw [rereadName, String.toList_ofList]
      exact Utf8.length_le_length_reread _
    intro name member
    have kept := (Finset.sum_eq_sum_iff_of_le fun other _ => grows other).mp lengths name member
    rw [rereadName, String.toList_ofList] at kept
    exact Utf8.all_of_length_reread kept.symm
  · intro low
    have fixed (name : String) (member : name ∈ names) : rereadName name = name := by
      rw [rereadName, Utf8.reread_of_all (low name member), String.ofList_toList]
    calc names.image rereadName = names.image id := Finset.image_congr fixed
      _ = names := Finset.image_id

theorem echoIif_eq_iff (m : IfMatch) :
    echoIif m = m ↔ m = .any ∨
      ∃ names, m = .oneOf names ∧ ∀ name ∈ names, ∀ c ∈ name.toList, c.toNat < 128 := by
  cases m with
  | any => simp [echoIif]
  | noneOf names => simp [echoIif]
  | oneOf names => simp [echoIif, image_rereadName_eq_iff]

theorem echo_eq_iff {m : Match} (oif : m.oif = .any) :
    echo m = m ↔ echoProto m.proto = m.proto ∧ echoIif m.iif = m.iif := by
  constructor
  · intro same
    exact ⟨congrArg Match.proto same, congrArg Match.iif same⟩
  · intro both
    rw [echo, both.1, both.2, ← oif]

/-! ### Names that need escapes do not come back -/

/-- The quotes and backslashes of the names of the match. -/
def ifMarks : IfMatch → Nat
  | .oneOf names => ∑ name ∈ names, (name.toList.count '\\' + name.toList.count '"')
  | _ => 0

theorem ifEscapes_eq (m : IfMatch) : ifEscapes m = ifBackslashes m + ifMarks m := by
  cases m with
  | any => rfl
  | noneOf names => rfl
  | oneOf names =>
      rw [ifEscapes, ifBackslashes, ifMarks, ← Finset.sum_add_distrib]
      apply Finset.sum_congr rfl
      intro name _
      rw [escapes, backslashes]
      omega

theorem quotableNames_of_ifMarks {m : IfMatch} (none : ifMarks m = 0) : QuotableNames m := by
  rintro names rfl name member
  have marks := (Finset.sum_eq_zero_iff.mp none) name member
  exact ⟨List.count_eq_zero.mp (by omega), List.count_eq_zero.mp (by omega)⟩

/-- A chain that reads back has names that can stand between quotes: its text has
too few backslashes to escape any other. -/
theorem quotable_of_readsAs {table : String} (tableWord : isWord table.toList = true) {c : Chain}
    (parsed : Parsed c) {text : String} (written : chainWith table c false = some text)
    (reads : ReadsAs (c.rules.map (fun r => (r.predicate, r.action))) c text) :
    ∀ r ∈ c.rules, QuotableNames r.predicate.iif := by
  obtain ⟨ruleset, back, accepted, sole, _, _, same⟩ := reads ""
  have spent := ifEscapes_le_of_parse accepted (c := back) (by simp [sole])
  have names : back.rules.map (fun r => ifEscapes r.predicate.iif) =
      c.rules.map (fun r => ifEscapes r.predicate.iif) := by
    have predicates := congrArg (List.map (fun rule : Match × Action => ifEscapes rule.1.iif)) same
    simpa only [List.map_map, Function.comp_def] using predicates
  have written := backslashes_chainWith tableWord parsed.name written
  rw [backslashes] at written
  rw [names, written] at spent
  simp only [ifEscapes_eq, List.sum_map_add] at spent
  have none : (c.rules.map (fun r => ifMarks r.predicate.iif)).sum = 0 := by omega
  intro r member
  apply quotableNames_of_ifMarks
  exact (List.sum_eq_zero_iff_forall_eq_nat.mp none) _
    (List.mem_map_of_mem (f := fun r : Rule => ifMarks r.predicate.iif) member)

/-! ### An output chain reads back no interface -/

theorem sober_headToks {table : String} {c : Chain} {rest : List Tok} (sober : Sober rest) :
    Sober (headToks table c ++ rest) := by
  unfold headToks
  refine ⟨by simp, by simp, ?_, by simp, by simp, by simp, ?_, by simp, by simp, by simp, by simp,
    by simp, ?_, by simp, by simp, by simp, by simp, ?_, by simp, sober⟩
  · exact fun _ => ⟨_, _, rfl, by simp⟩
  · exact fun _ => ⟨_, _, rfl, by simp⟩
  · cases c.hook <;> simp [hookText]
  · cases c.policy <;> simp [policyText]

theorem sober_bodyToks {sentences : List Sentence} (clean : ∀ s ∈ sentences, s.Clean) :
    Sober (bodyToks sentences) :=
  sober_flatMap fun s member => (clean s member).sober.append (sober_of_not_mem (by simp))

/-- The tokens of an emitted chain hold no `meta iifname`, which is what an
output chain names its input interfaces with. -/
theorem inputless_of_readsAs {table : String} (tableWord : isWord table.toList = true) {c : Chain}
    (parsed : Parsed c) (quotable : ∀ r ∈ c.rules, QuotableNames r.predicate.iif) {text : String}
    (written : chainWith table c false = some text)
    (reads : ReadsAs (c.rules.map (fun r => (r.predicate, r.action))) c text)
    (output : c.hook = .output) : ∀ r ∈ c.rules, r.predicate.iif = .any := by
  obtain ⟨_, sentences, emitted, lexes, renders⟩ :=
    exists_text tableWord parsed.name parsed.emittable quotable
  obtain rfl := Option.some.inj (written.symm.trans emitted)
  obtain ⟨ruleset, back, accepted, sole, hook, _, same⟩ := reads ""
  obtain ⟨f, reading⟩ := (parse_eq_ok_iff _ _ _).mp accepted
  obtain ⟨tokens, last, lexed, spelled⟩ := lexes.lex ""
  obtain ⟨last', lexed'⟩ := reading.lexed
  obtain ⟨rfl, _⟩ := Prod.mk.inj (Except.ok.inj (lexed.symm.trans lexed'))
  have sober : Sober (f.tokens.map Token.tok) := by
    rw [spelled]
    apply sober_headToks
    apply (sober_bodyToks ?_).append (sober_of_not_mem (by simp [tailToks]))
    intro s member
    obtain ⟨_, _, rendered⟩ := renders.exists_left member
    exact rendered.clean
  have open_ : ∀ r' ∈ back.rules, r'.predicate.iif = .any := by
    intro r' member
    obtain ⟨t, listed, compiled⟩ := reading.chains.exists_left
      (b := back) (by simp [sole])
    obtain ⟨_, _, _, _, rules⟩ := ChainText.compile_spec compiled
    obtain ⟨r, inText, ruleCompiled⟩ := rules.exists_left member
    rw [hook, output] at ruleCompiled
    rw [RuleText.iif_eq_any_iff ruleCompiled]
    rintro ⟨spec, stated⟩
    have inRule : [.word "meta", .word "iifname"] <:+: r.tokens.map Token.tok := by
      have yielded : Stmt.yield (.metaIifname spec) <:+: r.stmts.flatMap Stmt.yield :=
        infix_flatMap stated
      rw [RuleText.tokens, r.spelled]
      exact List.IsInfix.trans ⟨[], spec.yield IfAtom.form, rfl⟩ yielded
    exact sober.not_infix (inRule.trans
      (((infix_of_mem_ruleTexts inText).trans (infix_of_mem_chainTexts listed)).map Token.tok))
  intro r member
  have found : (r.predicate, r.action) ∈ back.rules.map (fun r => (r.predicate, r.action)) := by
    rw [same]
    exact List.mem_map_of_mem (f := fun r : Rule => (r.predicate, r.action)) member
  obtain ⟨r', inBack, equal⟩ := List.mem_map.mp found
  rw [← (Prod.mk.inj equal).1]
  exact open_ r' inBack

/-! ### The emitter on parsed chains -/

/-- The emitted text, if any, reads back as the chain. -/
def Faithful (table : String) (c : Chain) : Prop :=
  ∀ text, chainWith table c false = some text →
    ReadsAs (c.rules.map (fun r => (r.predicate, r.action))) c text

/-- What the emitter can write of a predicate on the hook. -/
structure Expressible (hook : Hook) (m : Match) : Prop where
  iif : m.iif = .any ∨ (hook ≠ .output ∧ ∃ names, m.iif = .oneOf names ∧
    ∀ name ∈ names, ∀ c ∈ name.toList, c.toNat < 128 ∧ c ≠ '"' ∧ c ≠ '\\')
  proto : m.proto.isFull = true ∨ ∃ v within, m.proto = IntervalSet.point 8 v within

theorem Expressible.quotable {hook : Hook} {m : Match} (expressible : Expressible hook m) :
    QuotableNames m.iif := by
  intro names named name member
  rcases expressible.iif with any | ⟨_, names', named', plain⟩
  · rw [any] at named
    contradiction
  · obtain rfl := IfMatch.oneOf.inj (named.symm.trans named')
    exact ⟨fun quote => (plain name member _ quote).2.1 rfl,
      fun escape => (plain name member _ escape).2.2 rfl⟩

theorem expressible_iff {hook : Hook} {m : Match} (oif : m.oif = .any)
    (quotable : QuotableNames m.iif) (open_ : hook = .output → m.iif = .any) :
    Expressible hook m ↔ echo m = m := by
  rw [echo_eq_iff oif, echoProto_eq_iff, echoIif_eq_iff]
  constructor
  · intro expressible
    refine ⟨expressible.proto, expressible.iif.imp id ?_⟩
    intro named
    obtain ⟨_, names, same, plain⟩ := named
    exact ⟨names, same, fun name member c inside => (plain name member c inside).1⟩
  · intro both
    obtain ⟨proto, iif⟩ := both
    refine ⟨?_, proto⟩
    rcases iif with any | ⟨names, named, low⟩
    · exact Or.inl any
    · refine Or.inr ⟨fun output => ?_, names, named, fun name member c inside => ?_⟩
      · rw [open_ output] at named
        contradiction
      · have plain := quotable names named name member
        refine ⟨low name member c inside, ?_, ?_⟩
        · rintro rfl
          exact plain.noQuote inside
        · rintro rfl
          exact plain.noEscape inside

/-- The emitter refuses no parsed chain. -/
theorem chainWith_isSome (table : String) {c : Chain} (parsed : Parsed c) (sentinel : Bool) :
    (chainWith table c sentinel).isSome = true := by
  have lines : ∀ rules : List Rule, (∀ r ∈ rules, Emittable r.predicate) →
      (rules.mapM rule).isSome = true := by
    intro rules
    induction rules with
    | nil => exact fun _ => rfl
    | cons r later ih =>
        intro image
        obtain ⟨line, first⟩ := Option.isSome_iff_exists.mp (rule_isSome (image r (by simp)))
        obtain ⟨rest, others⟩ :=
          Option.isSome_iff_exists.mp (ih fun other member => image other (by simp [member]))
        rw [List.mapM_cons, first, others]
        rfl
  obtain ⟨written, found⟩ := Option.isSome_iff_exists.mp (lines c.rules parsed.emittable)
  unfold chainWith
  rw [found]
  rfl

/-- A parsed chain reads back from its emitted text exactly when each of its
predicates is one that the emitter can write. -/
theorem faithful_iff_expressible {table : String} (tableWord : isWord table.toList = true)
    {c : Chain} (parsed : Parsed c) :
    Faithful table c ↔ ∀ r ∈ c.rules, Expressible c.hook r.predicate := by
  constructor
  · intro faithful
    obtain ⟨text, written⟩ :=
      Option.isSome_iff_exists.mp (chainWith_isSome table parsed false)
    have reads := faithful text written
    have quotable := quotable_of_readsAs tableWord parsed written reads
    have open_ := inputless_of_readsAs tableWord parsed quotable written reads
    obtain ⟨_, emitted, echoed⟩ := reads_echo tableWord parsed quotable
      (fun output r member names named => by
        rw [open_ output r member] at named
        contradiction)
    obtain rfl := Option.some.inj (written.symm.trans emitted)
    obtain ⟨ruleset, back, accepted, sole, _, _, same⟩ := reads ""
    obtain ⟨ruleset', back', accepted', sole', _, _, same'⟩ := echoed ""
    obtain rfl := Except.ok.inj (accepted.symm.trans accepted')
    obtain rfl := List.singleton_inj.mp (sole.symm.trans sole')
    intro r member
    rw [expressible_iff (parsed.oif r member) (quotable r member)
      (fun output => open_ output r member)]
    have rules := List.map_inj_left.mp (same'.symm.trans same) r member
    exact (Prod.mk.inj rules).1
  · intro expressible text written
    have quotable : ∀ r ∈ c.rules, QuotableNames r.predicate.iif :=
      fun r member => (expressible r member).quotable
    have open_ : c.hook = .output → ∀ r ∈ c.rules, r.predicate.iif = .any := by
      intro output r member
      rcases (expressible r member).iif with any | ⟨inputs, _⟩
      · exact any
      · exact absurd output inputs
    obtain ⟨_, emitted, echoed⟩ := reads_echo tableWord parsed quotable
      (fun output r member names named => by
        rw [open_ output r member] at named
        contradiction)
    obtain rfl := Option.some.inj (written.symm.trans emitted)
    have same : c.rules.map (fun r => (echo r.predicate, r.action)) =
        c.rules.map (fun r => (r.predicate, r.action)) := by
      apply List.map_congr_left
      intro r member
      rw [(expressible_iff (parsed.oif r member) (quotable r member)
        (fun output => open_ output r member)).mp (expressible r member)]
    rw [← same]
    exact echoed

/-- For an accepted source, the chain reads back from its emitted text exactly
when each of its predicates is one that the emitter can write. -/
theorem emitted_round_trip_iff {fileName source : String} {ruleset : Ruleset}
    (parsed : parse fileName source = .ok ruleset) {c : Chain} (member : c ∈ ruleset.chains)
    {table : String} (identifier : isWord table.toList = true) :
    Faithful table c ↔ ∀ r ∈ c.rules, Expressible c.hook r.predicate :=
  faithful_iff_expressible identifier (parsed_of_parse parsed member)

theorem rules_of_mem_oneRule {hook : Hook} {text : RuleText} {column : Nat}
    {fileName source : String} {ruleset : Ruleset}
    (reads : (oneRule hook text column).Reads fileName source ruleset) {chain : Chain}
    (member : chain ∈ ruleset.chains) :
    ∃ r, chain.rules = [r] ∧ text.compile chain.hook = some (r.predicate, r.action) := by
  obtain ⟨c, inFile, compiled⟩ := reads.chains.exists_left member
  obtain ⟨_, _, _, _, rules⟩ := ChainText.compile_spec compiled
  simp only [FileText.chainTexts, oneRule, List.flatMap_cons, List.flatMap_nil, List.map_cons,
    List.map_nil, List.append_nil, List.mem_singleton] at inFile
  have texts : c.ruleTexts = [text] := by
    rw [inFile]
    rfl
  rw [texts, List.forall₂_cons_left_iff] at rules
  obtain ⟨r, rest, ruleCompiled, none, listed⟩ := rules
  rw [List.forall₂_nil_left_iff.mp none] at listed
  exact ⟨r, listed, ruleCompiled⟩

theorem emitted_sshFromEth0_round_trip : ∃ ruleset chain,
    parse "f" (oneRuleSource .input "iifname \"eth0\" tcp dport 22 accept") = .ok ruleset ∧
      chain ∈ ruleset.chains ∧ Faithful "t" chain := by
  obtain ⟨ruleset, chain, rule, reads, chainAt, _, hook, _⟩ := sshFromEth0_reads
  have parsed := (parse_eq_ok_iff _ _ _).mpr ⟨_, reads⟩
  have member := List.mem_of_getElem? chainAt
  refine ⟨ruleset, chain, parsed, member,
    (emitted_round_trip_iff parsed member (by decide)).mpr ?_⟩
  obtain ⟨r, sole, compiled⟩ := rules_of_mem_oneRule reads member
  rw [sole]
  simp only [List.mem_singleton, forall_eq]
  obtain ⟨_, built, _⟩ := RuleText.compile_spec compiled
  have iif : r.predicate.iif = .oneOf {"eth0"} := by
    rw [built]
    rfl
  have proto : r.predicate.proto = IntervalSet.point 8 6 (by decide) := by
    rw [built]
    decide +kernel
  refine ⟨Or.inr ⟨by rw [hook]; decide, {"eth0"}, iif, ?_⟩, Or.inr ⟨6, _, proto⟩⟩
  intro name named
  rw [Finset.mem_singleton.mp named, show "eth0".toList = ['e', 't', 'h', '0'] from rfl]
  simp

/-- `iifname != "eth0" accept` -/
def notFromEth0 : RuleText where
  first := ⟨.word "iifname", 4, 1⟩
  rest := [⟨.sym '!', 4, 9⟩, ⟨.sym '=', 4, 10⟩, ⟨.str "eth0", 4, 12⟩, ⟨.word "accept", 4, 19⟩]
  stmts := [.iifname ⟨.bangEqual, .single eth0⟩, .accept]
  spelled := rfl

/-- The chain that accepts from all interfaces but one comes back as one that
accepts from all. -/
theorem negated_interface_comes_back_wider : ∃ ruleset chain text,
    parse "f" (oneRuleSource .input "iifname != \"eth0\" accept") = .ok ruleset ∧
      chain ∈ ruleset.chains ∧ chainWith "t" chain false = some text ∧
        chain.rules.map (fun r => r.predicate) = [Match.any.withIif (.noneOf {"eth0"})] ∧
          ReadsAs [(Match.any, .accept)] chain text ∧ ¬ Faithful "t" chain := by
  have lexed : lex "f" (oneRuleSource .input "iifname != \"eth0\" accept") =
      .ok ((oneRule .input notFromEth0 25).tokens, ⟨.eof, 7, 1⟩) := by
    decide +kernel
  have follow : Followed Stmt.yield Stmt.Follow notFromEth0.stmts .brk :=
    ⟨nofun, trivial, trivial⟩
  obtain ⟨ruleset, chain, rule, reads, chainAt, _, hook, compiled⟩ :=
    oneRule_reads .input notFromEth0 25 lexed follow (by decide) (by decide +kernel)
  have member := List.mem_of_getElem? chainAt
  have accepted := (parse_eq_ok_iff _ _ _).mpr ⟨_, reads⟩
  have parsed := parsed_of_parse accepted member
  obtain ⟨r, sole, compiled⟩ := rules_of_mem_oneRule reads member
  obtain ⟨_, built, verdict, _⟩ := RuleText.compile_spec compiled
  have negated : r.predicate = Match.any.withIif (.noneOf {"eth0"}) := by
    rw [built]
    rfl
  have accepts : r.action = .accept := (List.singleton_inj.mp verdict).symm
  have widened : echo (Match.any.withIif (.noneOf {"eth0"})) = Match.any := by
    have proto : echoProto (IntervalSet.full 8) = IntervalSet.full 8 :=
      (echoProto_eq_iff _).mpr (Or.inl (IntervalSet.isFull_full 8))
    exact congrArg (fun proto => ({ Match.any with proto := proto } : Match)) proto
  have unnamed : ∀ r ∈ chain.rules, ∀ names, r.predicate.iif ≠ .oneOf names := by
    rw [sole]
    simp only [List.mem_singleton, forall_eq]
    rw [negated]
    exact nofun
  have identifier : isWord "t".toList = true := by decide
  obtain ⟨text, written, echoed⟩ := reads_echo identifier parsed
    (fun r member names named => absurd named (unnamed r member names))
    (fun _ r member => unnamed r member)
  refine ⟨ruleset, chain, text, accepted, member, written, ?_, ?_, ?_⟩
  · rw [sole, List.map_singleton, negated]
  · rwa [sole, List.map_singleton, negated, accepts, widened] at echoed
  · intro faithful
    have listed : r ∈ chain.rules := by simp [sole]
    have expressible := (faithful_iff_expressible identifier parsed).mp faithful r listed
    have iif : r.predicate.iif = .noneOf {"eth0"} := by
      rw [negated]
      rfl
    rcases expressible.iif with any | ⟨_, names, named, _⟩
    · exact IfMatch.noConfusion (iif.symm.trans any)
    · exact IfMatch.noConfusion (iif.symm.trans named)

end Fwdelta.Emit
