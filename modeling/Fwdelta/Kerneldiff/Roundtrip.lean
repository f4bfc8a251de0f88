import Fwdelta.Kerneldiff.Sentence

/-
An emitted chain, read back.

The text of a chain is lexed to known tokens when its interface names can stand
between quotes, and those tokens are a file of one table and one chain.
-/

namespace Fwdelta.Emit

open Nft
open Lookahead

/-! ### The tokens of an emitted chain -/

theorem lexes_line {text : List Char} {ks : List Tok} (spells : Spells text ks) {c : Char}
    (breaks : c = '\n' ∨ c = ';') {rest : List Char} {more : List Tok}
    (lexes : Lexes rest true more) (separated : Bool) :
    Lexes (text ++ c :: rest) separated (ks ++ .brk :: more) := by
  have halts : Halts (c :: rest) := by
    rcases breaks with rfl | rfl
    · exact halts_of_mem (by decide) rest
    · exact halts_of_mem (by decide) rest
  exact spells _ _ separated halts (lexes.break breaks false)

def headToks (table : String) (c : Chain) : List Tok :=
  [.word "table", .word "ip", .word table, .sym '{', .brk, .word "chain", .word c.name,
    .sym '{', .brk, .word "type", .word "filter", .word "hook", .word (hookText c.hook),
    .word "priority", .word "filter", .brk, .word "policy", .word (policyText c.policy), .brk]

def bodyToks (sentences : List Sentence) : List Tok :=
  sentences.flatMap (fun s => s.stmts.flatMap Stmt.yield ++ [.brk])

def tailToks : List Tok :=
  [.sym '}', .brk, .sym '}', .brk]

theorem lexes_tail : Lexes "  \x7d\n\x7d\n".toList true tailToks := by
  have brace := spells_sym (c := '}') (by decide)
  have close := lexes_line brace (Or.inl rfl) (lexes_nil true) true
  exact (lexes_line brace (Or.inl rfl) close true).blank.blank

theorem lexes_body {lines : List String} {sentences : List Sentence}
    (each : List.Forall₂ (fun line (s : Sentence) =>
      Spells line.toList (s.stmts.flatMap Stmt.yield)) lines sentences)
    {rest : List Char} {more : List Tok} (lexes : Lexes rest true more) :
    Lexes ((String.join (lines.map (fun line => line ++ "\n"))).toList ++ rest) true
      (bodyToks sentences ++ more) := by
  induction each with
  | nil => exact lexes
  | @cons line s lines sentences first _ ih =>
      have joined := lexes_line first (Or.inl rfl) ih true
      rw [bodyToks, List.flatMap_cons, List.append_assoc, List.append_assoc, List.singleton_append]
      rw [List.map_cons, String.join_cons, String.toList_append, String.toList_append,
        List.append_assoc, List.append_assoc]
      exact joined

theorem isWord_hookText (hook : Hook) : isWord (hookText hook).toList = true := by
  cases hook <;> decide

theorem isWord_policyText (policy : Action) : isWord (policyText policy).toList = true := by
  cases policy <;> decide

theorem lexes_head {table : String} (tableWord : isWord table.toList = true) {c : Chain}
    (nameWord : isWord c.name.toList = true) {rest : List Char} {more : List Tok}
    (lexes : Lexes rest true more) :
    Lexes (("table ip " ++ table ++ " \x7b\n  chain " ++ c.name ++ " \x7b\n").toList ++
      (("    type filter hook " ++ hookText c.hook ++ " priority filter; policy " ++
        policyText c.policy ++ ";\n").toList ++ rest)) true (headToks table c ++ more) := by
  have brace := spells_sym (c := '{') (by decide)
  have filter := spells_keyword "filter" (by decide)
  have priority := (spells_keyword "priority" (by decide)).then_blank filter
  have hook := (spells_keyword "hook" (by decide)).then_blank
    ((spells_word (isWord_hookText c.hook)).then_blank priority)
  have type := (spells_keyword "type" (by decide)).then_blank (filter.then_blank hook)
  have value := spells_word (isWord_policyText c.policy)
  have policy := lexes_line ((spells_keyword "policy" (by decide)).then_blank value).blank
    (Or.inr rfl) (lexes.break (Or.inl rfl) true) true
  have declaration := lexes_line type.blank.blank.blank.blank (Or.inr rfl) policy true
  have chain := lexes_line ((spells_keyword "chain" (by decide)).then_blank
    ((spells_word nameWord).then_blank brace)).blank.blank (Or.inl rfl) declaration true
  have whole := lexes_line ((spells_keyword "table" (by decide)).then_blank
    ((spells_keyword "ip" (by decide)).then_blank ((spells_word tableWord).then_blank brace)))
    (Or.inl rfl) chain true
  convert whole using 1
  · simp
  · simp [headToks]

/-- The sentence of a rule. -/
structure Renders (r : Rule) (s : Sentence) : Prop where
  built : s.built = echo r.predicate
  action : s.action = r.action
  pinned : s.Pinned
  clean : s.Clean
  iif : s.iif = none ↔ ∀ names, r.predicate.iif ≠ .oneOf names

theorem exists_lines {rules : List Rule} (image : ∀ r ∈ rules, Emittable r.predicate)
    (quotable : ∀ r ∈ rules, QuotableNames r.predicate.iif) :
    ∃ lines sentences, rules.mapM rule = some lines ∧
      List.Forall₂ (fun line (s : Sentence) =>
        Spells line.toList (s.stmts.flatMap Stmt.yield)) lines sentences ∧
          List.Forall₂ Renders rules sentences := by
  induction rules with
  | nil => exact ⟨[], [], rfl, .nil, .nil⟩
  | cons r later ih =>
      obtain ⟨s, line, written, spelled, built, action, pinned, clean, iif⟩ :=
        exists_sentence (image r (by simp)) (quotable r (by simp))
      obtain ⟨lines, sentences, others, spelledLater, renders⟩ :=
        ih (fun other member => image other (by simp [member]))
          (fun other member => quotable other (by simp [member]))
      refine ⟨line :: lines, s :: sentences, ?_, .cons spelled spelledLater,
        .cons ⟨built, action, pinned, clean, iif⟩ renders⟩
      rw [List.mapM_cons, written, others]
      rfl

/-- The emitter never refuses a rule of the parser. -/
theorem rule_isSome {r : Rule} (image : Emittable r.predicate) : (rule r).isSome = true := by
  obtain ⟨_, _, _, parts, found, _⟩ := exists_ports image
  unfold rule
  simp [found, bind, Option.bind]

theorem exists_text {table : String} (tableWord : isWord table.toList = true) {c : Chain}
    (nameWord : isWord c.name.toList = true) (image : ∀ r ∈ c.rules, Emittable r.predicate)
    (quotable : ∀ r ∈ c.rules, QuotableNames r.predicate.iif) :
    ∃ text sentences, chainWith table c false = some text ∧
      Lexes text.toList true (headToks table c ++ (bodyToks sentences ++ tailToks)) ∧
        List.Forall₂ Renders c.rules sentences := by
  obtain ⟨lines, sentences, written, spelled, renders⟩ := exists_lines image quotable
  have lexes := lexes_head tableWord nameWord (lexes_body spelled lexes_tail)
  unfold chainWith
  simp only [written, bind, Option.bind, Bool.false_eq_true, if_false]
  refine ⟨_, sentences, rfl, ?_, renders⟩
  simpa only [String.toList_append, List.append_assoc, String.toList_empty, List.nil_append]
    using lexes

/-! ### The tokens are a file -/

theorem stmts_ne_nil (s : Sentence) : s.stmts ≠ [] := by
  simp [Sentence.stmts, Sentence.ending]

/-- The lines of sentences, up to the closing brace, are rule items. -/
theorem exists_items {sentences : List Sentence} (gap : List Token)
    (blank : ∀ t ∈ gap, t.tok = .brk) {tokens : List Token} {brace : Token}
    (spelled : tokens.map Token.tok = bodyToks sentences) (closes : brace.tok = .sym '}') :
    ∃ (items : List RuleItem) (close : Closing),
      gap ++ (tokens ++ [brace]) = items.flatMap RuleItem.tokens ++ close.tokens ∧
        List.Forall₂ (fun (item : RuleItem) (s : Sentence) => item.rule.stmts = s.stmts)
          items sentences ∧
        Followed RuleItem.tokens RuleItem.Follow items (close.tokens.headD close.brace) := by
  induction sentences generalizing gap tokens with
  | nil =>
      obtain rfl := List.map_eq_nil_iff.mp spelled
      exact ⟨[], ⟨⟨gap, blank⟩, brace, closes⟩, rfl, .nil, trivial⟩
  | cons s later ih =>
      rw [bodyToks, List.flatMap_cons, List.append_assoc, List.singleton_append] at spelled
      obtain ⟨line, more, rfl, lineSpelled, moreSpelled⟩ := List.map_eq_append_iff.mp spelled
      obtain ⟨b, rest, rfl, isBreak, restSpelled⟩ := List.map_eq_cons_iff.mp moreSpelled
      cases line with
      | nil =>
          cases stmts : s.stmts with
          | nil => exact absurd stmts (stmts_ne_nil s)
          | cons stmt others =>
              rw [stmts] at lineSpelled
              contradiction
      | cons first line =>
          let r : RuleText := ⟨first, line, s.stmts, lineSpelled⟩
          obtain ⟨items, close, split, each, followed⟩ :=
            ih [b] (by simpa using isBreak) restSpelled
          refine ⟨⟨⟨gap, blank⟩, r⟩ :: items, close, ?_, .cons rfl each, ?_, followed⟩
          · have tail : items.flatMap RuleItem.tokens ++ close.tokens = b :: (rest ++ [brace]) :=
              split.symm
            simp only [List.flatMap_cons, List.append_assoc, tail, RuleItem.tokens,
              RuleText.tokens, r, List.cons_append]
          · have next : (items.flatMap RuleItem.tokens).headD (close.tokens.headD close.brace) =
                b := by
              rw [← headD_append, ← split]
              rfl
            rw [next]
            refine ⟨?_, ?_⟩
            · rw [isBreak]
              exact followed_of_written s.written
            · rw [isBreak]
              rfl

theorem head_bodyToks (sentences : List Sentence) (rest : List Tok) (next : Tok) :
    (bodyToks sentences ++ .sym '}' :: rest).headD next ≠ .brk := by
  cases sentences with
  | nil => simp [bodyToks]
  | cons s later =>
      cases stmts : s.stmts with
      | nil => exact absurd stmts (stmts_ne_nil s)
      | cons stmt others => simp [bodyToks, stmts, Stmt.yield]

def declared (c : Chain) (plain : c.policy ≠ .reject) : Declaration where
  name := c.name
  before := 1
  hook := c.hook
  device := none
  negative := false
  priority := .word "filter"
  isPriority := Or.inr ⟨_, rfl⟩
  after := 1
  policy := some ⟨c.policy, plain, 1⟩

theorem headToks_eq (table : String) {c : Chain} (plain : c.policy ≠ .reject) :
    headToks table c = .word "table" :: ([.word "ip", .word table, .sym '{'] ++
      .brk :: .word "chain" :: (declared c plain).yield) := by
  have same : policyText c.policy = c.policy.text := by
    cases policy : c.policy with
    | reject => exact absurd policy plain
    | _ => rfl
  rw [headToks, same]
  rfl

/-- Rules that compile are pushed onto the chain. -/
theorem exists_pushed (s : Source) {items : List RuleItem} (chain : Chain)
    (compiles : ∀ item ∈ items, (item.rule.compile chain.hook).isSome = true) :
    ∃ out, items.foldlM (RuleItem.push s) chain = some out := by
  induction items generalizing chain with
  | nil => exact ⟨chain, rfl⟩
  | cons item rest ih =>
      obtain ⟨⟨m, action⟩, compiled⟩ :=
        Option.isSome_iff_exists.mp (compiles item (by simp))
      obtain ⟨out, pushed⟩ := ih (chain.push m action (item.rule.origin s))
        (fun other member => compiles other (by simp [member]))
      refine ⟨out, ?_⟩
      rw [List.foldlM_cons]
      simp only [RuleItem.push, compiled, bind, Option.bind]
      exact pushed

/-- A sentence that compiles, on the hook. -/
structure Sound (hook : Hook) (s : Sentence) : Prop where
  pinned : s.Pinned
  satisfiable : s.built.isUnsatisfiable = false
  inputless : hook = .output → s.iif = none

theorem items_compile {hook : Hook} {items : List RuleItem} {sentences : List Sentence}
    (each : List.Forall₂ (fun (item : RuleItem) (s : Sentence) => item.rule.stmts = s.stmts)
      items sentences) (sound : ∀ s ∈ sentences, Sound hook s) :
    List.Forall₂ (fun (item : RuleItem) (s : Sentence) =>
      item.rule.compile hook = some (s.built, s.action)) items sentences := by
  induction each with
  | nil => exact .nil
  | @cons item s items sentences same _ ih =>
      obtain ⟨pinned, satisfiable, inputless⟩ := sound s (by simp)
      exact .cons (Sentence.compile same inputless pinned satisfiable)
        (ih (fun other member => sound other (by simp [member])))

/-- The text of a chain, when its sentences compile. -/
theorem exists_chainText (s : Source) {c : Chain} (plain : c.policy ≠ .reject)
    {sentences : List Sentence} (sound : ∀ sentence ∈ sentences, Sound c.hook sentence)
    {head body : List Token} {brace : Token}
    (declaredHead : head.map Token.tok = (declared c plain).yield)
    (spelled : body.map Token.tok = bodyToks sentences) (closes : brace.tok = .sym '}') :
    ∃ (text : ChainText) (back : Chain), text.tokens = head ++ (body ++ [brace]) ∧
      text.Accepted ∧ text.compile s = some back ∧ back.hook = c.hook ∧
        back.policy = c.policy ∧ List.Forall₂ (fun (sentence : Sentence) (r : Rule) =>
          r.predicate = sentence.built ∧ r.action = sentence.action) sentences back.rules := by
  obtain ⟨items, close, split, each, followed⟩ :=
    exists_items [] (by simp) spelled closes
  let text : ChainText := ⟨head, declared c plain, declaredHead, items, close⟩
  have whole : text.body = body ++ [brace] := split.symm
  have compiles := items_compile each sound
  have each_compiles : ∀ item ∈ items, (item.rule.compile c.hook).isSome = true := by
    intro item member
    obtain ⟨sentence, _, compiled⟩ := compiles.exists_right member
    rw [compiled]
    rfl
  obtain ⟨back, pushed⟩ := exists_pushed s (declared c plain).chain each_compiles
  have compiled : text.compile s = some back := pushed
  obtain ⟨_, _, hook, policy, rules⟩ := ChainText.compile_spec compiled
  have sameHook : back.hook = c.hook := hook
  refine ⟨text, back, ?_, ⟨⟨?_, nofun⟩, followed⟩, compiled, sameHook, policy, ?_⟩
  · rw [ChainText.tokens, whole]
  · have first : (text.body.headD text.close.brace).tok =
        (bodyToks sentences ++ [Tok.sym '}']).headD text.close.brace.tok := by
      rw [whole, ← spelled, ← closes]
      cases body <;> rfl
    rw [first]
    exact head_bodyToks sentences [] _
  · rw [ChainText.ruleTexts, List.forall₂_map_left_iff, sameHook] at rules
    apply compiles.meet rules
    intro item sentence r here there
    obtain ⟨built, action⟩ := Prod.mk.inj (Option.some.inj (here.symm.trans there))
    exact ⟨built.symm, action.symm⟩

/-- The tokens of a chain are a file of that chain, when its sentences compile. -/
theorem exists_file (s : Source) {table : String} {c : Chain} (plain : c.policy ≠ .reject)
    {sentences : List Sentence} (sound : ∀ sentence ∈ sentences, Sound c.hook sentence)
    {tokens : List Token}
    (spelled : tokens.map Token.tok = headToks table c ++ (bodyToks sentences ++ tailToks)) :
    ∃ (f : FileText) (back : Chain), f.tokens = tokens ∧ f.Accepted ∧
      f.compile s = some { label := s.file, chains := [back] } ∧ back.hook = c.hook ∧
        back.policy = c.policy ∧ List.Forall₂ (fun (sentence : Sentence) (r : Rule) =>
          r.predicate = sentence.built ∧ r.action = sentence.action) sentences back.rules := by
  rw [headToks_eq table plain, List.cons_append] at spelled
  obtain ⟨keyword, rest, rfl, isTable, spelled⟩ := List.map_eq_cons_iff.mp spelled
  rw [List.append_assoc] at spelled
  obtain ⟨tableHead, rest, rfl, headed, spelled⟩ := List.map_eq_append_iff.mp spelled
  rw [List.cons_append, List.cons_append] at spelled
  obtain ⟨before, rest, rfl, isBreak, spelled⟩ := List.map_eq_cons_iff.mp spelled
  obtain ⟨chainWord, rest, rfl, isChain, spelled⟩ := List.map_eq_cons_iff.mp spelled
  obtain ⟨head, rest, rfl, declaredHead, spelled⟩ := List.map_eq_append_iff.mp spelled
  obtain ⟨body, rest, rfl, bodySpelled, spelled⟩ := List.map_eq_append_iff.mp spelled
  obtain ⟨brace, rest, rfl, closes, spelled⟩ := List.map_eq_cons_iff.mp spelled
  obtain ⟨gap, rest, rfl, isGap, spelled⟩ := List.map_eq_cons_iff.mp spelled
  obtain ⟨tableBrace, rest, rfl, closesTable, spelled⟩ := List.map_eq_cons_iff.mp spelled
  obtain ⟨after, rest, rfl, isAfter, spelled⟩ := List.map_eq_cons_iff.mp spelled
  obtain rfl := List.map_eq_nil_iff.mp spelled
  obtain ⟨text, back, whole, accepted, compiled, hook, policy, rules⟩ :=
    exists_chainText s plain sound declaredHead bodySpelled closes
  let f : FileText := {
    before := ⟨[], by simp⟩
    tables := [{
      keyword := keyword
      isTable := isTable
      table := {
        head := tableHead
        name := table
        headed := headed
        chains := [⟨⟨[before], by simpa using isBreak⟩, chainWord, isChain, text⟩]
        close := ⟨⟨[gap], by simpa using isGap⟩, tableBrace, closesTable⟩ }
      after := ⟨[after], by simpa using isAfter⟩ }] }
  refine ⟨f, back, ?_, ?_, ?_, hook, policy, rules⟩
  · simp [f, FileText.tokens, TableItem.tokens, TableText.tokens, ChainItem.tokens, whole,
      Closing.tokens]
  · intro item member item' member'
    obtain rfl := List.mem_singleton.mp member
    obtain rfl := List.mem_singleton.mp member'
    exact accepted
  · simp [f, FileText.compile, TableItem.push, TableText.compile, ChainItem.push, compiled]

end Fwdelta.Emit
