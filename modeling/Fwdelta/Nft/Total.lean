import Fwdelta.Nft.Counters
import Fwdelta.Nft.Panics
import Fwdelta.Nft.Termination

/-
The frontend as a whole: on every source it returns, and nothing in it panics.

What could go wrong is listed with the place where it could: a loop that does not
advance, an assertion, a counter that overflows.
-/

namespace Fwdelta.Nft

open Lookahead

/-- Every loop of the parser consumes a token in each round that goes on. -/
structure LoopsAdvance (s : Source) : Prop where
  tables : Advances (tableRound s)
  chains : Advances (chainRound s)
  rules : Advances (ruleRound s)
  statements : ∀ hook, Advances (statementRound s hook)
  addresses : Advances (memberRound s (addrAtom s) IntervalSet.union)
  ports : Advances (memberRound s (portAtom s) IntervalSet.union)
  protocols : Advances (memberRound s (protoAtom s) IntervalSet.union)
  names : Advances (memberRound s (ifName s)
    (fun (names : Finset String) name => insert name names))
  breaks : Advances (skipRound (fun t : Token => t.tok == .brk) : Unit → Parser (Unit ⊕ Unit))
  reason : Advances
    (skipRound (fun t : Token => !endsStatement t.tok) : Unit → Parser (Unit ⊕ Unit))
  logOptions : Advances logRound

theorem loopsAdvance (s : Source) : LoopsAdvance s where
  tables := tableRound_advances s
  chains := chainRound_advances s
  rules := ruleRound_advances s
  statements := statementRound_advances s
  addresses := memberRound_advances s (reads_addrAtom s) _
  ports := memberRound_advances s (reads_portAtom s) _
  protocols := memberRound_advances s (reads_protoAtom s) _
  names := memberRound_advances s (reads_ifName s) _
  breaks := skipRound_advances _ break_inner
  reason := skipRound_advances _ reason_inner
  logOptions := logRound_advances

/-- Every function that asserts does what the one without assertions does. -/
structure AssertionsHold (s : Source) : Prop where
  addrAtom : Asserting.addrAtom s = plainly (IntervalSet.raw <$> addrAtom s)
  union : ∀ bits (set other : IntervalSet bits),
    set.raw.union other.raw = some (set.union other).raw
  complement : ∀ bits (set : IntervalSet bits), set.raw.complement = some set.complement.raw
  ipMatch : ∀ m : Match, Asserting.ipMatch s m.raw = plainly (Match.raw <$> ipMatch s m)
  metaMatch : ∀ (m : Match) keyword,
    Asserting.metaMatch s m.raw keyword = plainly (Match.raw <$> metaMatch s m keyword)
  l4Match : ∀ (m : Match) l4,
    Asserting.l4Match s m.raw l4.text = plainly (Match.raw <$> l4Match s m l4)
  checkSoundness : ∀ (m : Match) portsConstrained start,
    Asserting.checkSoundness s m.raw portsConstrained start =
      plainly (checkSoundness s m portsConstrained start)

theorem assertionsHold (s : Source) : AssertionsHold s where
  addrAtom := addrAtom_asserts s
  union _ := IntervalSet.raw_union
  complement _ := IntervalSet.raw_complement
  ipMatch := ipMatch_asserts s
  metaMatch := metaMatch_asserts s
  l4Match := l4Match_asserts s
  checkSoundness := checkSoundness_asserts s

/-! ### Rule numbers -/

/-- A round of a chain pushes one rule, for a token at least. -/
theorem ruleRound_pushes {s : Source} {chain chain' : Chain} {c d : Cursor}
    (step : ruleRound s chain c = .ok (.inl chain', d)) :
    chain'.rules.length = chain.rules.length + 1 ∧ d.ahead.length < c.ahead.length := by
  refine ⟨?_, ruleRound_advances s chain c chain' d step⟩
  obtain ⟨ts, _, item, _, _, pushed⟩ := (reads_ruleRound s chain c _ d).mp step
  obtain ⟨_, _, pushed⟩ := Option.bind_eq_some_iff.mp pushed
  rw [← Option.some.inj pushed, Chain.push]
  simp

theorem length_rules_le {s : Source} {name : String} {hook : Hook} {policy : Action}
    {chain : Chain} {c d : Cursor}
    (visited : Visits (ruleRound s) (Chain.new name hook policy) c chain d) :
    chain.rules.length ≤ c.ahead.length := by
  let Inv : Chain → Cursor → Prop := fun chain d =>
    chain.rules.length + d.ahead.length ≤ c.ahead.length
  have keeps : ∀ chain d chain' d', Inv chain d →
      ruleRound s chain d = .ok (.inl chain', d') → Inv chain' d' := by
    intro chain d chain' d' bound step
    obtain ⟨pushed, shorter⟩ := ruleRound_pushes step
    dsimp only [Inv] at *
    omega
  have first : Inv (Chain.new name hook policy) c := by
    simp [Inv, Chain.new]
  exact Nat.le_trans (Nat.le_add_right _ _) (Visits.invariant keeps visited first)

/-! ### The frontend -/

/-- The frontend returns on the source and does not panic on the way. -/
structure Total (file source : String) : Prop where
  returns : (∃ ruleset, parse file source = .ok ruleset) ∨
    ∃ error, parse file source = .error (.rejected error)
  /-- The bounds on the rounds of the lexer's loops end neither of them. -/
  lexer : ∀ fuel, source.utf8ByteSize ≤ fuel →
    lexFrom file fuel { rest := source.toUTF8.data.toList, pos := { line := 1, col := 1 } } true =
      lex file source
  octets : ∀ start lx octets fuel, lx.rest.length ≤ fuel →
    scanOctets file start fuel lx octets = scanOctets file start lx.rest.length lx octets
  loops : LoopsAdvance { file := file, src := source }
  assertions : AssertionsHold { file := file, src := source }
  /-- The line and the column do not overflow, however much the lexer has taken. -/
  counters : ∀ taken, taken <+: source.toUTF8.data.toList →
    taken.foldlM Position.advance { line := 1, col := 1 } = some (positionAfter taken)
  tokens : ∀ tokens last, lex file source = .ok (tokens, last) →
    tokens.length ≤ source.utf8ByteSize ∧
      ∀ t ∈ last :: tokens, ∃ taken, taken <+: source.toUTF8.data.toList ∧
        positionAfter taken = { line := t.line, col := t.column }
  /-- Nor does the number of a rule. -/
  numbers : ∀ name hook policy (c : Cursor) chain d, c.ahead.length ≤ source.utf8ByteSize →
    Visits (ruleRound { file := file, src := source }) (Chain.new name hook policy) c chain d →
      chain.rules.length < 2 ^ 32

theorem length_bytes (source : String) :
    source.toUTF8.data.toList.length = source.utf8ByteSize := rfl

theorem countP_newline (source : String) :
    source.toUTF8.data.toList.countP isNewline = source.toList.count '\n' := by
  rw [Utf8.toUTF8_toList]
  exact Utf8.count_encode (n := 10) (by decide) source.toList

/-- A character that is not a newline has a byte that is not one. -/
theorem countP_newline_lt {source : String} {c : Char} (member : c ∈ source.toList)
    (other : c ≠ '\n') :
    source.toUTF8.data.toList.countP isNewline < source.toUTF8.data.toList.length := by
  have fewer : source.toList.count '\n' < source.toList.length := by
    apply Nat.lt_of_le_of_ne List.count_le_length
    intro all
    exact other (List.count_eq_length.mp all c member).symm
  have chars := Utf8.length_le_length_reread source.toList
  rw [Utf8.length_reread, ← Utf8.toUTF8_toList] at chars
  rw [countP_newline]
  omega

theorem foldlM_advance_source {source : String} (short : source.utf8ByteSize < 2 ^ 32)
    (mixed : source.utf8ByteSize + 1 = 2 ^ 32 →
      '\n' ∈ source.toList ∧ ∃ c ∈ source.toList, c ≠ '\n') {taken : List UInt8}
    (within : taken <+: source.toUTF8.data.toList) :
    taken.foldlM Position.advance { line := 1, col := 1 } = some (positionAfter taken) := by
  have lines := within.sublist.countP_le (p := isNewline)
  have columns := within.sublist.countP_le (p := fun c => !isNewline c)
  have parts := List.length_eq_countP_add_countP isNewline (l := source.toUTF8.data.toList)
  have newlines := countP_newline source
  have size := length_bytes source
  simp only [Bool.not_eq_true, Bool.decide_eq_false] at parts
  by_cases longest : source.utf8ByteSize + 1 = 2 ^ 32
  · obtain ⟨newline, c, member, other⟩ := mixed longest
    have some_ := List.count_pos_iff.mpr newline
    have more := countP_newline_lt member other
    exact foldlM_advance taken (by omega) (by omega)
  · exact foldlM_advance taken (by omega) (by omega)

theorem frontend_total (file source : String) (short : source.utf8ByteSize < 2 ^ 32)
    (mixed : source.utf8ByteSize + 1 = 2 ^ 32 →
      '\n' ∈ source.toList ∧ ∃ c ∈ source.toList, c ≠ '\n') : Total file source where
  returns := parse_returns file source
  lexer fuel enough := by
    obtain ⟨extra, rfl⟩ := Nat.exists_eq_add_of_le enough
    exact lexFrom_enough file extra _ _ true (Nat.le_refl _)
  octets start lx octets fuel enough := by
    obtain ⟨extra, rfl⟩ := Nat.exists_eq_add_of_le enough
    exact scanOctets_enough file start extra _ lx octets (Nat.le_refl _)
  loops := loopsAdvance _
  assertions := assertionsHold _
  counters taken within := foldlM_advance_source short mixed within
  tokens tokens last lexed := by
    obtain ⟨ahead, count⟩ := lexFrom_ahead lexed
    refine ⟨count, ?_⟩
    intro t member
    obtain ⟨at_, ⟨taken, split, follows⟩, place⟩ := ahead t member
    exact ⟨taken, ⟨at_.rest, split.symm⟩, follows.symm.trans place⟩
  numbers name hook policy c chain d fits visited := by
    have bound := length_rules_le visited
    omega

theorem one_rule_total : Total "t.nft"
    ("table ip filter \x7b\n chain input \x7b\n  type filter hook input priority 0;\n" ++
      "  tcp dport \x7b 22, 80 \x7d accept\n \x7d\n\x7d\n") :=
  frontend_total _ _ (by decide) (by
    intro longest
    exact absurd longest (by decide))

/-- The counter of the columns overflows at the end of the longest line of blanks. -/
theorem longest_line_overflows :
    (blankLine 4294967295).utf8ByteSize < 2 ^ 32 ∧
      lex "t.nft" (blankLine 4294967295) =
        .ok ([], { tok := .eof, line := 1, column := 2 ^ 32 }) ∧
      ¬ Total "t.nft" (blankLine 4294967295) := by
  have overflows (n : Nat) (longest : n + 1 = 2 ^ 32) :
      (blankLine n).utf8ByteSize < 2 ^ 32 ∧
        lex "t.nft" (blankLine n) = .ok ([], { tok := .eof, line := 1, column := 2 ^ 32 }) ∧
        ¬ Total "t.nft" (blankLine n) := by
    have bytes : (blankLine n).toUTF8.data.toList = List.replicate n (ascii ' ') := by
      rw [Utf8.toUTF8_toList, encode_blankLine]
    refine ⟨?_, ?_, ?_⟩
    · rw [← length_bytes, bytes, List.length_replicate]
      omega
    · rw [lex_blankLine, longest]
    · intro total
      have counted := total.counters _ (List.prefix_refl _)
      rw [bytes] at counted
      obtain ⟨m, rfl⟩ : ∃ m, n = m + 1 := ⟨n - 1, by omega⟩
      rw [List.replicate_succ', List.foldlM_append] at counted
      obtain ⟨middle, _, step⟩ := Option.bind_eq_some_iff.mp counted
      rw [← List.replicate_succ', positionAfter_blanks] at step
      obtain ⟨q, advanced, same⟩ := Option.bind_eq_some_iff.mp step
      obtain rfl := Option.some.inj same
      obtain ⟨_, _, fits⟩ := advance_eq_some_iff.mp advanced
      dsimp only at fits
      omega
  exact overflows 4294967295 (by norm_num)

end Fwdelta.Nft
