import Fwdelta.Nft.Spelling
import Mathlib.Algebra.GroupWithZero.Nat

/-
What lexed tokens are made of.

The words among the tokens are identifiers, and a string holds no more quotes
and backslashes than the source has escapes for.
-/

namespace Fwdelta.Nft

open Fallible (bind_eq_ok_iff)

/-! ### What a scanner takes -/

namespace Lexer

/-- The lexer takes bytes from the front, and its position follows them. -/
def Moves (lx lx' : Lexer) : Prop :=
  ∃ taken, lx.rest = taken ++ lx'.rest ∧ lx'.pos = taken.foldl Position.after lx.pos

theorem Moves.refl (lx : Lexer) : lx.Moves lx := ⟨[], rfl, rfl⟩

theorem Moves.trans {lx middle lx' : Lexer} (first : lx.Moves middle)
    (second : middle.Moves lx') : lx.Moves lx' := by
  obtain ⟨taken, split, at_⟩ := first
  obtain ⟨more, splitMore, atMore⟩ := second
  refine ⟨taken ++ more, ?_, ?_⟩
  · rw [split, splitMore, List.append_assoc]
  · rw [atMore, at_, List.foldl_append]

theorem Moves.byte {c : UInt8} {rest : List UInt8} {p : Position} {lx : Lexer}
    (later : Moves { rest := rest, pos := p.after c } lx) :
    Moves { rest := c :: rest, pos := p } lx :=
  Moves.trans ⟨[c], rfl, rfl⟩ later

theorem Moves.suffix {lx lx' : Lexer} (moves : lx.Moves lx') : lx'.rest <:+ lx.rest := by
  obtain ⟨taken, split, _⟩ := moves
  exact ⟨taken, split.symm⟩

end Lexer

open Lexer (Moves)

theorem skipBlank_moves (bytes : List UInt8) (p : Position) (comment : Bool) :
    Moves { rest := bytes, pos := p } (Lexer.skipBlank bytes p comment) := by
  fun_induction Lexer.skipBlank bytes p comment with
  | case1 => exact .refl _
  | case2 => exact .refl _
  | case3 _ _ _ _ ih => exact ih.byte
  | case4 _ _ _ _ ih => exact ih.byte
  | case5 _ _ _ _ _ ih => exact ih.byte
  | case6 => exact .refl _
  | case7 _ _ _ _ _ _ _ _ ih => exact ih.byte.byte
  | case8 => exact .refl _
  | case9 => exact .refl _

theorem scanString_moves {bytes : List UInt8} {p : Position} {acc text : List Char} {lx : Lexer}
    (scanned : Lexer.scanString bytes p acc = some (text, lx)) :
    Moves { rest := bytes, pos := p } lx := by
  fun_induction Lexer.scanString bytes p acc with
  | case1 => contradiction
  | case2 =>
      obtain ⟨_, rfl⟩ := Prod.mk.inj (Option.some.inj scanned)
      exact Moves.byte (.refl _)
  | case3 => contradiction
  | case4 _ _ _ _ _ _ _ ih => exact (ih scanned).byte.byte
  | case5 _ _ _ _ _ _ ih => exact (ih scanned).byte

theorem scanDigits_moves {bytes : List UInt8} {p : Position} {n value : Nat} {lx : Lexer}
    (scanned : Lexer.scanDigits bytes p n = some (value, lx)) :
    Moves { rest := bytes, pos := p } lx := by
  induction bytes generalizing p n with
  | nil =>
      obtain ⟨_, rfl⟩ := Prod.mk.inj (Option.some.inj scanned)
      exact .refl _
  | cons c rest ih =>
      rw [Lexer.scanDigits] at scanned
      split at scanned
      · dsimp only at scanned
        split at scanned
        · exact (ih scanned).byte
        · contradiction
      · obtain ⟨_, rfl⟩ := Prod.mk.inj (Option.some.inj scanned)
        exact .refl _

/-- A number starts with a digit, so at least that is taken. -/
theorem scanU64_moves {file : String} {lx lx' : Lexer} {start : Position} {value : Nat}
    (scanned : scanU64 file lx start = .ok (value, lx')) :
    lx.Moves lx' ∧ lx'.rest.length < lx.rest.length := by
  unfold scanU64 at scanned
  split at scanned
  · contradiction
  · next found digits =>
      split at scanned
      · next starts =>
          rw [Except.ok.inj scanned] at digits
          refine ⟨scanDigits_moves digits, ?_⟩
          cases bytes : lx.rest with
          | nil =>
              rw [bytes] at starts
              contradiction
          | cons c rest =>
              rw [bytes] at starts digits
              have digit : isDigit c = true := by simpa using starts
              rw [Lexer.scanDigits, if_pos digit] at digits
              dsimp only at digits
              split at digits
              · have shorter := (scanDigits_moves digits).suffix.length_le
                exact Nat.lt_succ_of_le shorter
              · contradiction
      · contradiction

theorem bump_moves (lx : Lexer) : lx.Moves lx.bump := by
  unfold Lexer.bump
  split
  · exact .refl _
  · next c rest bytes => exact ⟨[c], bytes, rfl⟩

theorem scanOctets_moves {file : String} {start : Position} {fuel : Nat} {lx lx' : Lexer}
    {octets octets' : List Nat}
    (scanned : scanOctets file start fuel lx octets = .ok (octets', lx')) : lx.Moves lx' := by
  induction fuel generalizing lx octets with
  | zero =>
      obtain ⟨_, rfl⟩ := Prod.mk.inj (Except.ok.inj scanned)
      exact .refl _
  | succ fuel ih =>
      rw [scanOctets] at scanned
      split at scanned
      · obtain ⟨⟨octet, middle⟩, first, scanned⟩ := bind_eq_ok_iff.mp scanned
        exact (bump_moves lx).trans ((scanU64_moves first).1.trans (ih scanned))
      · obtain ⟨_, rfl⟩ := Prod.mk.inj (Except.ok.inj scanned)
        exact .refl _

theorem scanNumberOrIp_moves {file : String} {lx lx' : Lexer} {start : Position} {tok : Tok}
    (scanned : scanNumberOrIp file lx start = .ok (tok, lx')) :
    lx.Moves lx' ∧ lx'.rest.length < lx.rest.length ∧
      ((∃ n, tok = .num n) ∨ ∃ address, tok = .ip address) := by
  unfold scanNumberOrIp at scanned
  obtain ⟨⟨first, afterFirst⟩, number, scanned⟩ := bind_eq_ok_iff.mp scanned
  obtain ⟨moves, shorter⟩ := scanU64_moves number
  dsimp only at scanned
  split at scanned
  · obtain ⟨⟨octets, afterOctets⟩, more, scanned⟩ := bind_eq_ok_iff.mp scanned
    dsimp only at scanned
    split at scanned
    · contradiction
    · obtain ⟨v, _, scanned⟩ := bind_eq_ok_iff.mp scanned
      obtain ⟨rfl, rfl⟩ := Prod.mk.inj (Except.ok.inj scanned)
      have later := scanOctets_moves more
      exact ⟨moves.trans later, Nat.lt_of_le_of_lt later.suffix.length_le shorter,
        Or.inr ⟨_, rfl⟩⟩
  · obtain ⟨rfl, rfl⟩ := Prod.mk.inj (Except.ok.inj scanned)
    exact ⟨moves, shorter, Or.inl ⟨_, rfl⟩⟩

theorem scanWord_moves (bytes : List UInt8) (p : Position) :
    Moves { rest := bytes, pos := p } (Lexer.scanWord bytes p).2 := by
  induction bytes generalizing p with
  | nil => exact .refl _
  | cons c rest ih =>
      rw [Lexer.scanWord]
      split
      · split
        · exact .refl _
        · exact (ih _).byte
      · exact .refl _

/-- The first byte of a word is in the word. -/
theorem scanWord_cons {c : UInt8} (starts : (isAlphabetic c || c == ascii '_') = true)
    (rest : List UInt8) (p : Position) :
    Lexer.scanWord (c :: rest) p = (byteChar c :: (Lexer.scanWord rest (p.after c)).1,
      (Lexer.scanWord rest (p.after c)).2) := by
  have inWord : (isAlphabetic c || isDigit c || c == ascii '_' || c == ascii '-' ||
      c == ascii '.') = true := by
    rcases Bool.or_eq_true_iff.mp starts with letter | underscore
    · simp [letter]
    · simp [underscore]
  have noHyphen : ¬ (c == ascii '-' && rest.head?.any isDigit) = true := by
    intro both
    rw [Bool.and_eq_true, beq_iff_eq] at both
    rw [both.1] at starts
    contradiction
  rw [Lexer.scanWord, if_pos inWord, if_neg noHyphen]

/-- A token takes its first byte at least. -/
theorem scanToken_moves {file : String} {start : Position} {c : UInt8} {rest : List UInt8}
    {k : Tok} {lx : Lexer} (scanned : scanToken file start c rest = .ok (k, lx)) :
    Moves { rest := c :: rest, pos := start } lx ∧ lx.rest.length ≤ rest.length := by
  unfold scanToken at scanned
  split at scanned
  · split at scanned
    · next text lx' string =>
        obtain ⟨_, rfl⟩ := Prod.mk.inj (Except.ok.inj scanned)
        have moves := scanString_moves string
        exact ⟨moves.byte, moves.suffix.length_le⟩
    · contradiction
  · split at scanned
    · obtain ⟨moves, shorter, _⟩ := scanNumberOrIp_moves scanned
      exact ⟨moves, Nat.le_of_lt_succ shorter⟩
    · split at scanned
      · next starts =>
          obtain ⟨_, rfl⟩ := Prod.mk.inj (Except.ok.inj scanned)
          refine ⟨scanWord_moves (c :: rest) start, ?_⟩
          rw [scanWord_cons starts]
          exact (scanWord_moves rest (start.after c)).suffix.length_le
      · split at scanned
        · obtain ⟨_, rfl⟩ := Prod.mk.inj (Except.ok.inj scanned)
          exact ⟨Moves.byte (.refl _), Nat.le_refl _⟩
        · contradiction

/-! ### Words -/

theorem wordByte_low : ∀ b : UInt8, wordByte b = true → b.toNat < 128 :=
  forall_byte (by decide +kernel)

theorem ascii_byteChar (b : UInt8) : ascii (byteChar b) = b :=
  Utf8.ofNat_toNat_latin1 b

theorem isIdent_byteChar {b : UInt8} (inWord : wordByte b = true) :
    isIdent (byteChar b) = true := by
  refine isIdent_iff.mpr ⟨?_, by rwa [ascii_byteChar]⟩
  rw [show (byteChar b).toNat = b.toNat from Utf8.toNat_latin1 b]
  exact wordByte_low b inWord

theorem byteChar_eq_iff {b : UInt8} {c : Char} (low : c.toNat < 128) :
    byteChar b = c ↔ b = ascii c := by
  constructor
  · rintro rfl
    rw [ascii_byteChar]
  · rintro rfl
    exact Utf8.latin1_ofNat low

/-- The word starts with the byte that the lexer stood at, if with any. -/
theorem scanWord_head (bytes : List UInt8) (p : Position) :
    (Lexer.scanWord bytes p).1 = [] ∨
      (Lexer.scanWord bytes p).1.head? = bytes.head?.map byteChar := by
  cases bytes with
  | nil => exact Or.inl rfl
  | cons c rest =>
      rw [Lexer.scanWord]
      split
      · split
        · exact Or.inl rfl
        · exact Or.inr rfl
      · exact Or.inl rfl

theorem scanWord_continues (bytes : List UInt8) (p : Position) :
    continues (Lexer.scanWord bytes p).1 = true := by
  induction bytes generalizing p with
  | nil => rfl
  | cons c rest ih =>
      rw [Lexer.scanWord]
      split
      · next inWord =>
          split
          · rfl
          · next noRange =>
              simp only [continues, isIdent_byteChar inWord, ih, Bool.true_and, Bool.and_true,
                Bool.not_eq_true', Bool.and_eq_false_iff]
              simp only [Bool.and_eq_true, not_and, Bool.not_eq_true] at noRange
              by_cases hyphen : c = ascii '-'
              · refine Or.inr ?_
                have stops := noRange (by simpa using hyphen)
                rcases scanWord_head rest (p.after c) with none | same
                · rw [none]
                  rfl
                · rw [same, Option.any_map]
                  simpa only [Function.comp_def, ascii_byteChar] using stops
              · refine Or.inl ?_
                rw [beq_eq_false_iff_ne, Ne, byteChar_eq_iff (by decide)]
                exact hyphen
      · rfl

theorem isWord_scanWord {c : UInt8} {rest : List UInt8} {p : Position}
    (starts : (isAlphabetic c || c == ascii '_') = true) :
    isWord (Lexer.scanWord (c :: rest) p).1 = true := by
  have word := scanWord_continues (c :: rest) p
  rw [scanWord_cons starts] at word ⊢
  simp only [isWord, word, Bool.and_true]
  rw [ascii_byteChar]
  rcases Bool.or_eq_true_iff.mp starts with letter | underscore
  · simp [letter]
  · have same : byteChar c = '_' := (byteChar_eq_iff (by decide)).mpr (beq_iff_eq.mp underscore)
    simp [same]

/-! ### Escapes -/

/-- The escapes that the text needs between quotes: one for a quote, two for a
backslash. -/
def escapes (text : List Char) : Nat :=
  2 * text.count '\\' + text.count '"'

@[simp] theorem escapes_nil : escapes [] = 0 := rfl

@[simp] theorem escapes_append (front back : List Char) :
    escapes (front ++ back) = escapes front + escapes back := by
  simp only [escapes, List.count_append]
  omega

theorem escapes_reverse (text : List Char) : escapes text.reverse = escapes text := by
  simp only [escapes, List.count_reverse]

theorem escapes_cons (c : Char) (text : List Char) :
    escapes (c :: text) = escapes [c] + escapes text :=
  escapes_append [c] text

theorem escapes_singleton_le (c : Char) : escapes [c] ≤ [c].count '\\' + 1 := by
  by_cases escape : c = '\\'
  · subst escape
    decide
  · have none : [c].count '\\' = 0 := List.count_eq_zero_of_not_mem (by simpa using Ne.symm escape)
    have quotes : [c].count '"' ≤ 1 := List.count_le_length
    simp only [escapes, none]
    omega

theorem escapes_eq_zero {text : List Char} (noQuote : '"' ∉ text) (noEscape : '\\' ∉ text) :
    escapes text = 0 := by
  rw [escapes, List.count_eq_zero_of_not_mem noEscape, List.count_eq_zero_of_not_mem noQuote]

/-- The escapes that the source has. -/
abbrev budget (bytes : List UInt8) : Nat :=
  bytes.count (ascii '\\')

theorem budget_le_of_suffix {rest bytes : List UInt8} (suffix : rest <:+ bytes) :
    budget rest ≤ budget bytes :=
  suffix.sublist.count_le _

theorem count_byteChar (n : UInt8) :
    [byteChar n].count '\\' = [n].count (ascii '\\') := by
  by_cases escape : n = ascii '\\'
  · subst escape
    rfl
  · have other : byteChar n ≠ '\\' := mt (byteChar_eq_iff (by decide)).mp escape
    rw [List.count_eq_zero_of_not_mem (by simpa using other.symm),
      List.count_eq_zero_of_not_mem (by simpa using Ne.symm escape)]

/-- Each quote and each backslash of a string was written with escapes. -/
theorem scanString_escapes {bytes : List UInt8} {p : Position} {acc text : List Char} {lx : Lexer}
    (scanned : Lexer.scanString bytes p acc = some (text, lx)) :
    escapes text + budget lx.rest ≤ escapes acc + budget bytes := by
  fun_induction Lexer.scanString bytes p acc with
  | case1 => contradiction
  | case2 c rest p acc quote =>
      obtain ⟨rfl, rfl⟩ := Prod.mk.inj (Option.some.inj scanned)
      have suffix := budget_le_of_suffix (List.suffix_cons c rest)
      rw [escapes_reverse]
      exact Nat.add_le_add_left suffix _
  | case3 => contradiction
  | case4 c p acc noQuote escape n later ih =>
      have bound := ih scanned
      have cost := escapes_singleton_le (byteChar n)
      rw [count_byteChar] at cost
      have spent : budget (c :: n :: later) = budget later + [n].count (ascii '\\') + 1 := by
        rw [budget, beq_iff_eq.mp escape, List.count_cons_self, List.count_cons,
          List.count_singleton]
      rw [escapes_cons] at bound
      omega
  | case5 c rest p acc noQuote noEscape ih =>
      have bound := ih scanned
      have free : escapes [byteChar c] = 0 := by
        apply escapes_eq_zero
        · rw [List.mem_singleton, eq_comm, byteChar_eq_iff (by decide)]
          simpa using noQuote
        · rw [List.mem_singleton, eq_comm, byteChar_eq_iff (by decide)]
          simpa using noEscape
      have suffix := budget_le_of_suffix (List.suffix_cons c rest)
      rw [escapes_cons, free] at bound
      omega

/-! ### Tokens -/

/-- A name may be a string or a word; the text of a word needs no escapes. -/
def Tok.escapes : Tok → Nat
  | .str text | .word text => Nft.escapes text.toList
  | _ => 0

theorem isIdent_of_continues {text : List Char} (word : continues text = true) :
    ∀ c ∈ text, isIdent c = true := by
  induction text with
  | nil => simp
  | cons c rest ih =>
      simp only [continues, Bool.and_eq_true] at word
      intro d member
      rcases List.mem_cons.mp member with rfl | later
      · exact word.1.1
      · exact ih word.2 d later

theorem not_mem_of_continues {text : List Char} (word : continues text = true) {c : Char}
    (foreign : isIdent c = false) : c ∉ text := by
  intro member
  rw [isIdent_of_continues word c member] at foreign
  contradiction

theorem continues_of_isWord {text : List Char} (word : isWord text = true) :
    continues text = true := by
  cases text with
  | nil => contradiction
  | cons c rest =>
      simp only [isWord, Bool.and_eq_true] at word
      exact word.2

/-- What the lexer says about one token. -/
structure Tok.Lexed (k : Tok) (before after : List UInt8) : Prop where
  word : ∀ w, k = .word w → isWord w.toList = true
  escapes : k.escapes + budget after ≤ budget before

theorem scanToken_lexed {file : String} {start : Position} {c : UInt8} {rest : List UInt8}
    {k : Tok} {lx : Lexer} (scanned : scanToken file start c rest = .ok (k, lx)) :
    k.Lexed (c :: rest) lx.rest := by
  unfold scanToken at scanned
  split at scanned
  · split at scanned
    · next text lx' string =>
        obtain ⟨rfl, rfl⟩ := Prod.mk.inj (Except.ok.inj scanned)
        refine ⟨nofun, ?_⟩
        have bound := scanString_escapes string
        have suffix := budget_le_of_suffix (List.suffix_cons c rest)
        rw [Tok.escapes, String.toList_ofList]
        rw [escapes_nil, Nat.zero_add] at bound
        exact Nat.le_trans bound suffix
    · contradiction
  · split at scanned
    · obtain ⟨moves, _, number⟩ := scanNumberOrIp_moves scanned
      rcases number with ⟨n, rfl⟩ | ⟨address, rfl⟩
      · exact ⟨nofun, by simpa [Tok.escapes] using budget_le_of_suffix moves.suffix⟩
      · exact ⟨nofun, by simpa [Tok.escapes] using budget_le_of_suffix moves.suffix⟩
    · split at scanned
      · next starts =>
          obtain ⟨rfl, rfl⟩ := Prod.mk.inj (Except.ok.inj scanned)
          have word := scanWord_continues (c :: rest) start
          refine ⟨?_, ?_⟩
          · rintro w same
            rw [← Tok.word.inj same, String.toList_ofList]
            exact isWord_scanWord starts
          · rw [Tok.escapes, String.toList_ofList, escapes_eq_zero
              (not_mem_of_continues word (by decide)) (not_mem_of_continues word (by decide)),
              Nat.zero_add]
            exact budget_le_of_suffix (scanWord_moves (c :: rest) start).suffix
      · split at scanned
        · obtain ⟨rfl, rfl⟩ := Prod.mk.inj (Except.ok.inj scanned)
          exact ⟨nofun, by simpa [Tok.escapes] using budget_le_of_suffix (List.suffix_cons c rest)⟩
        · contradiction

/-- The words are identifiers, and the strings are paid for by the source. -/
theorem lexFrom_lexed {file : String} {fuel : Nat} {lx : Lexer} {separated : Bool}
    {tokens : List Token} {last : Token}
    (lexed : lexFrom file fuel lx separated = .ok (tokens, last)) :
    (∀ t ∈ tokens, ∀ w, t.tok = .word w → isWord w.toList = true) ∧
      (tokens.map (fun t => t.tok.escapes)).sum ≤ budget lx.rest := by
  induction fuel generalizing lx separated tokens last with
  | zero =>
      obtain ⟨rfl, _⟩ := Prod.mk.inj (Except.ok.inj lexed)
      simp
  | succ fuel ih =>
      rw [lexFrom] at lexed
      dsimp only at lexed
      have blank : budget (Lexer.skipBlank lx.rest lx.pos false).rest ≤ budget lx.rest :=
        budget_le_of_suffix (skipBlank_moves lx.rest lx.pos false).suffix
      split at lexed
      · obtain ⟨rfl, _⟩ := Prod.mk.inj (Except.ok.inj lexed)
        simp
      · next c rest remains =>
          rw [remains] at blank
          split at lexed
          · obtain ⟨⟨later, final⟩, found, lexed⟩ := bind_eq_ok_iff.mp lexed
            obtain ⟨words, spent⟩ := ih found
            have suffix := budget_le_of_suffix (List.suffix_cons c rest)
            have bound := Nat.le_trans spent (Nat.le_trans suffix blank)
            dsimp only at lexed
            split at lexed
            · obtain ⟨rfl, _⟩ := Prod.mk.inj (Except.ok.inj lexed)
              exact ⟨words, bound⟩
            · obtain ⟨rfl, _⟩ := Prod.mk.inj (Except.ok.inj lexed)
              refine ⟨?_, by simpa [Tok.escapes] using bound⟩
              simpa using words
          · obtain ⟨⟨k, next⟩, scanned, lexed⟩ := bind_eq_ok_iff.mp lexed
            obtain ⟨⟨later, final⟩, found, lexed⟩ := bind_eq_ok_iff.mp lexed
            obtain ⟨words, spent⟩ := ih found
            obtain ⟨word, cost⟩ := scanToken_lexed scanned
            obtain ⟨rfl, _⟩ := Prod.mk.inj (Except.ok.inj lexed)
            refine ⟨?_, ?_⟩
            · intro t member
              rcases List.mem_cons.mp member with rfl | inLater
              · exact word
              · exact words t inLater
            · rw [List.map_cons, List.sum_cons]
              dsimp only at spent cost ⊢
              omega

theorem lex_lexed {file source : String} {tokens : List Token} {last : Token}
    (lexed : lex file source = .ok (tokens, last)) :
    (∀ t ∈ tokens, ∀ w, t.tok = .word w → isWord w.toList = true) ∧
      (tokens.map (fun t => t.tok.escapes)).sum ≤ source.toList.count '\\' := by
  obtain ⟨words, spent⟩ := lexFrom_lexed lexed
  refine ⟨words, Nat.le_trans spent (Nat.le_of_eq ?_)⟩
  rw [budget, Utf8.toUTF8_toList]
  exact Utf8.count_encode (n := 92) (by decide) _

end Fwdelta.Nft
