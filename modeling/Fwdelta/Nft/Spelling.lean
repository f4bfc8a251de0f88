import Fwdelta.Nft.Lex
import Fwdelta.Utf8

/-
Text that spells tokens.

A text lexes to a list of kinds of tokens, whatever position it stands at.  The
lemmas take a text apart from its front: a blank, a break, or the text of one
token and what may follow it.
-/

namespace Fwdelta.Nft

open Utf8 (encode)

def Lexes (text : List Char) (separated : Bool) (ks : List Tok) : Prop :=
  ∀ file p fuel, (encode text).length ≤ fuel → ∃ tokens last,
    lexFrom file fuel { rest := encode text, pos := p } separated = .ok (tokens, last) ∧
      tokens.map Token.tok = ks

theorem Lexes.lex {text : String} {ks : List Tok} (lexes : Lexes text.toList true ks)
    (file : String) :
    ∃ tokens last, lex file text = .ok (tokens, last) ∧ tokens.map Token.tok = ks := by
  unfold Nft.lex
  rw [Utf8.toUTF8_toList]
  exact lexes file _ _ (Nat.le_refl _)

theorem lexes_nil (separated : Bool) : Lexes [] separated [] := by
  intro file p fuel _
  cases fuel with
  | zero => exact ⟨[], _, rfl, rfl⟩
  | succ fuel => exact ⟨[], _, rfl, rfl⟩

theorem skipBlank_space (rest : List UInt8) (p : Position) :
    Lexer.skipBlank (ascii ' ' :: rest) p false =
      Lexer.skipBlank rest (p.after (ascii ' ')) false := by
  rw [Lexer.skipBlank.eq_def]
  rfl

theorem skipBlank_of_not_blank {b : UInt8}
    (space : (b == ascii ' ' || b == ascii '\t' || b == ascii '\r') = false)
    (hash : (b == ascii '#') = false) (escape : (b == ascii '\\') = false)
    (rest : List UInt8) (p : Position) :
    Lexer.skipBlank (b :: rest) p false = { rest := b :: rest, pos := p } := by
  rw [Lexer.skipBlank.eq_def]
  simp only [space, hash, escape, Bool.false_eq_true, if_false]

theorem length_encode_ascii {c : Char} (low : c.toNat < 128) {text : List Char} {fuel : Nat}
    (bound : (encode (c :: text)).length ≤ fuel) :
    ∃ fuel', fuel = fuel' + 1 ∧ (encode text).length ≤ fuel' := by
  rw [Utf8.encode_cons_of_lt low, List.length_cons] at bound
  exact ⟨fuel - 1, by omega, by omega⟩

theorem Lexes.blank {text : List Char} {separated : Bool} {ks : List Tok}
    (lexes : Lexes text separated ks) : Lexes (' ' :: text) separated ks := by
  intro file p fuel bound
  obtain ⟨fuel, rfl, bound⟩ := length_encode_ascii (by decide) bound
  obtain ⟨tokens, last, lexed, same⟩ := lexes file (p.after (ascii ' ')) (fuel + 1) (by omega)
  refine ⟨tokens, last, ?_, same⟩
  rw [← lexed, Utf8.encode_cons_of_lt (by decide)]
  rw [lexFrom, lexFrom]
  simp only [show UInt8.ofNat ' '.toNat = ascii ' ' from rfl, skipBlank_space]

/-- A newline or a semicolon ends a statement, once. -/
theorem Lexes.break {c : Char} (breaks : c = '\n' ∨ c = ';') {text : List Char}
    {ks : List Tok} (lexes : Lexes text true ks) (separated : Bool) :
    Lexes (c :: text) separated (if separated then ks else .brk :: ks) := by
  have step (b : UInt8) (blank : ∀ rest p, Lexer.skipBlank (b :: rest) p false = ⟨b :: rest, p⟩)
      (isBreak : (b == ascii '\n' || b == ascii ';') = true)
      (encoded : encode (c :: text) = b :: encode text) :
      Lexes (c :: text) separated (if separated then ks else .brk :: ks) := by
    intro file p fuel bound
    rw [encoded] at bound ⊢
    obtain ⟨fuel, rfl⟩ : ∃ fuel', fuel = fuel' + 1 := ⟨fuel - 1, by
      rw [List.length_cons] at bound
      omega⟩
    rw [List.length_cons] at bound
    obtain ⟨tokens, last, lexed, same⟩ := lexes file (p.after b) fuel (by omega)
    rw [lexFrom]
    simp only [blank, isBreak, if_true, lexed]
    cases separated with
    | true => exact ⟨tokens, last, rfl, same⟩
    | false => exact ⟨_, last, rfl, by rw [List.map_cons, same]; rfl⟩
  rcases breaks with rfl | rfl
  · exact step 10 (skipBlank_of_not_blank rfl rfl rfl) rfl rfl
  · exact step 59 (skipBlank_of_not_blank rfl rfl rfl) rfl rfl

/-! ### One token -/

/-- A byte at which the lexer scans a token. -/
def startsToken (b : UInt8) : Bool :=
  !(b == ascii ' ' || b == ascii '\t' || b == ascii '\r' || b == ascii '#' ||
    b == ascii '\\' || b == ascii '\n' || b == ascii ';')

/-- In front of the rest, the text is scanned as one token. -/
structure Scans (text : List Char) (k : Tok) (rest : List Char) : Prop where
  scanned : ∃ b bytes, encode (text ++ rest) = b :: bytes ∧ startsToken b = true ∧
    (encode rest).length ≤ bytes.length ∧
    ∀ file p, ∃ p', scanToken file p b bytes = .ok (k, { rest := encode rest, pos := p' })

theorem Lexes.token {text rest : List Char} {k : Tok} {ks : List Tok}
    (scans : Scans text k rest) (lexes : Lexes rest false ks) (separated : Bool) :
    Lexes (text ++ rest) separated (k :: ks) := by
  intro file p fuel bound
  obtain ⟨b, bytes, encoded, starts, shorter, scanned⟩ := scans.scanned
  rw [encoded, List.length_cons] at bound
  obtain ⟨fuel, rfl⟩ : ∃ fuel', fuel = fuel' + 1 := ⟨fuel - 1, by omega⟩
  simp only [startsToken, Bool.not_eq_true', Bool.or_eq_false_iff] at starts
  obtain ⟨⟨⟨⟨⟨⟨space, tab⟩, back⟩, hash⟩, escape⟩, newline⟩, semicolon⟩ := starts
  have noBlank := skipBlank_of_not_blank (by rw [space, tab, back]; rfl) hash escape bytes p
  obtain ⟨p', found⟩ := scanned file p
  obtain ⟨tokens, last, lexed, same⟩ := lexes file p' fuel (by omega)
  rw [encoded, lexFrom]
  simp only [noBlank, newline, semicolon, Bool.or_self, Bool.false_eq_true, if_false, found,
    bind, Except.bind, lexed]
  exact ⟨_, last, rfl, by rw [List.map_cons, same]⟩

/-! ### Symbols and strings -/

theorem scans_sym {c : Char} (symbol : c ∈ ['{', '}', ',', '/', '-']) (rest : List Char) :
    Scans [c] (.sym c) rest := by
  simp only [List.mem_cons, List.not_mem_nil, or_false] at symbol
  have low : c.toNat < 128 := by
    rcases symbol with rfl | rfl | rfl | rfl | rfl <;> decide
  refine ⟨ascii c, encode rest, Utf8.encode_cons_of_lt low rest, ?_, Nat.le_refl _, ?_⟩
  · rcases symbol with rfl | rfl | rfl | rfl | rfl <;> rfl
  · intro file p
    refine ⟨p.after (ascii c), ?_⟩
    rcases symbol with rfl | rfl | rfl | rfl | rfl <;> rfl

/-- Bytes without a quote or an escape are taken as they are. -/
theorem scanString_append {bytes : List UInt8} (noQuote : ascii '"' ∉ bytes)
    (noEscape : ascii '\\' ∉ bytes) (more : List UInt8) (p : Position) (acc : List Char) :
    ∃ p', Lexer.scanString (bytes ++ more) p acc =
      Lexer.scanString more p' ((bytes.map byteChar).reverse ++ acc) := by
  induction bytes generalizing p acc with
  | nil => exact ⟨p, rfl⟩
  | cons b later ih =>
      rw [List.mem_cons, not_or] at noQuote noEscape
      obtain ⟨notQuote, noQuote⟩ := noQuote
      obtain ⟨notEscape, noEscape⟩ := noEscape
      obtain ⟨p', scanned⟩ := ih noQuote noEscape (p.after b) (byteChar b :: acc)
      refine ⟨p', ?_⟩
      have quote : (b == ascii '"') = false := by simpa using Ne.symm notQuote
      have escape : (b == ascii '\\') = false := by simpa using Ne.symm notEscape
      rw [List.cons_append, Lexer.scanString.eq_def]
      simp only [quote, escape, Bool.false_eq_true, if_false, scanned]
      simp

/-- A character between quotes: quotes and backslashes have a backslash before them. -/
def quotedChar (c : Char) : List Char :=
  if c = '"' ∨ c = '\\' then ['\\', c] else [c]

theorem scanString_quotedChar (c : Char) (more : List UInt8) (p : Position) (acc : List Char) :
    ∃ p', Lexer.scanString (encode (quotedChar c) ++ more) p acc =
      Lexer.scanString more p' ((Utf8.reread [c]).reverse ++ acc) := by
  unfold quotedChar
  split
  · next marked =>
      have low : c.toNat < 128 := by rcases marked with rfl | rfl <;> decide
      have bytes : encode ['\\', c] ++ more = ascii '\\' :: ascii c :: more := by
        rw [Utf8.encode_cons_of_lt (by decide), Utf8.encode_cons_of_lt low]
        rfl
      have escaped : (ascii '\\' == ascii '"') = false := by decide
      refine ⟨(p.after (ascii '\\')).after (ascii c), ?_⟩
      rw [bytes, Lexer.scanString.eq_def]
      simp only [escaped, Bool.false_eq_true, if_false, beq_self_eq_true, if_true]
      rw [Utf8.reread_cons_of_lt low, show byteChar (ascii c) = c from Utf8.latin1_ofNat low]
      rfl
  · next plain =>
      rw [not_or] at plain
      apply scanString_append
      · rw [show ascii '"' = UInt8.ofNat 34 from rfl, Utf8.mem_encode_iff (by decide)]
        exact fun member => plain.1 (List.mem_singleton.mp member).symm
      · rw [show ascii '\\' = UInt8.ofNat 92 from rfl, Utf8.mem_encode_iff (by decide)]
        exact fun member => plain.2 (List.mem_singleton.mp member).symm

/-- A string is taken byte by byte up to its closing quote. -/
theorem scanString_quoted (content : List Char) (rest : List UInt8) (p : Position)
    (acc : List Char) :
    ∃ p', Lexer.scanString (encode (content.flatMap quotedChar) ++ ascii '"' :: rest) p acc =
      some (acc.reverse ++ Utf8.reread content, { rest := rest, pos := p' }) := by
  induction content generalizing p acc with
  | nil =>
      refine ⟨p.after (ascii '"'), ?_⟩
      rw [List.flatMap_nil, Lexer.scanString.eq_def]
      simp [encode, Utf8.reread]
  | cons c later ih =>
      rw [List.flatMap_cons, Utf8.encode_append, List.append_assoc]
      obtain ⟨middle, first⟩ := scanString_quotedChar c
        (encode (later.flatMap quotedChar) ++ ascii '"' :: rest) p acc
      obtain ⟨p', scanned⟩ := ih middle ((Utf8.reread [c]).reverse ++ acc)
      refine ⟨p', ?_⟩
      rw [first, scanned]
      simp [Utf8.reread, encode]

theorem scans_quoted (content rest : List Char) :
    Scans ('"' :: (content.flatMap quotedChar ++ ['"']))
      (.str (String.ofList (Utf8.reread content))) rest := by
  refine ⟨ascii '"', encode (content.flatMap quotedChar ++ '"' :: rest), ?_, rfl, ?_, ?_⟩
  · rw [List.cons_append, List.append_assoc]
    exact Utf8.encode_cons_of_lt (by decide) _
  · rw [Utf8.encode_append, Utf8.encode_cons_of_lt (by decide), List.length_append,
      List.length_cons]
    omega
  · intro file p
    obtain ⟨p', scanned⟩ := scanString_quoted content (encode rest) (p.after (ascii '"')) []
    refine ⟨p', ?_⟩
    rw [scanToken, if_pos (by rfl), Utf8.encode_append, Utf8.encode_cons_of_lt (by decide)]
    rw [show UInt8.ofNat '"'.toNat = ascii '"' from rfl, scanned]
    rfl

theorem flatMap_quotedChar {content : List Char} (noQuote : '"' ∉ content)
    (noEscape : '\\' ∉ content) : content.flatMap quotedChar = content := by
  induction content with
  | nil => rfl
  | cons c later ih =>
      rw [List.mem_cons, not_or] at noQuote noEscape
      have plain : quotedChar c = [c] :=
        if_neg (fun either => either.elim (Ne.symm noQuote.1) (Ne.symm noEscape.1))
      rw [List.flatMap_cons, plain, ih noQuote.2 noEscape.2, List.singleton_append]

theorem scans_str {content : List Char} (noQuote : '"' ∉ content) (noEscape : '\\' ∉ content)
    (rest : List Char) :
    Scans ('"' :: (content ++ ['"'])) (.str (String.ofList (Utf8.reread content))) rest := by
  have scans := scans_quoted content rest
  rwa [flatMap_quotedChar noQuote noEscape] at scans

/-! ### Words -/

/-- The bytes of an identifier. -/
def wordByte (b : UInt8) : Bool :=
  isAlphabetic b || isDigit b || b == ascii '_' || b == ascii '-' || b == ascii '.'

def isIdent (c : Char) : Bool :=
  decide (c.toNat < 128) && wordByte (ascii c)

/-- No hyphen stands before a digit. -/
def continues : List Char → Bool
  | [] => true
  | c :: rest =>
      isIdent c && !(c == '-' && rest.head?.any (fun d => isDigit (ascii d))) && continues rest

/-- A text that is one identifier. -/
def isWord : List Char → Bool
  | [] => false
  | c :: rest => (isAlphabetic (ascii c) || c == '_') && continues (c :: rest)

/-- What follows a word or a number: nothing that would continue it. -/
def Halts (rest : List Char) : Prop :=
  ∀ b ∈ (encode rest).head?, wordByte b = false

theorem halts_cons {c : Char} (low : c.toNat < 128) (delimits : wordByte (ascii c) = false)
    (rest : List Char) : Halts (c :: rest) := by
  intro b first
  rw [Utf8.encode_cons_of_lt low, List.head?_cons, Option.mem_some_iff] at first
  rw [← first]
  exact delimits

theorem isIdent_iff {c : Char} :
    isIdent c = true ↔ c.toNat < 128 ∧ wordByte (ascii c) = true := by
  simp [isIdent]

theorem eq_of_ascii_eq {c d : Char} (low : c.toNat < 128) (lowOther : d.toNat < 128)
    (same : ascii c = ascii d) : c = d := by
  rw [← Utf8.latin1_ofNat low, ← Utf8.latin1_ofNat lowOther]
  exact congrArg Utf8.latin1 same

/-- The byte after a hyphen is no digit, whether the word goes on or ends. -/
theorem no_range_ahead {later rest : List Char} (word : continues ('-' :: later) = true)
    (halts : Halts rest) : (encode (later ++ rest)).head?.any isDigit = false := by
  simp only [continues, Bool.and_eq_true, Bool.not_eq_true', beq_self_eq_true,
    Bool.true_and] at word
  obtain ⟨⟨_, noRange⟩, word⟩ := word
  cases later with
  | nil =>
      rw [List.nil_append, Option.any_eq_false]
      intro b first
      have stop := halts b first
      simp only [wordByte, Bool.or_eq_false_iff] at stop
      exact stop.1.1.1.2
  | cons d more =>
      simp only [continues, Bool.and_eq_true] at word
      have low := (isIdent_iff.mp word.1.1).1
      rw [List.cons_append, Utf8.encode_cons_of_lt low]
      exact noRange

theorem scanWord_of_continues {text rest : List Char} (word : continues text = true)
    (halts : Halts rest) (p : Position) :
    ∃ p', Lexer.scanWord (encode (text ++ rest)) p =
      (text, { rest := encode rest, pos := p' }) := by
  induction text generalizing p with
  | nil =>
      refine ⟨p, ?_⟩
      rw [List.nil_append]
      unfold Halts at halts
      cases bytes : encode rest with
      | nil => rfl
      | cons b later =>
          have stop : wordByte b = false := halts b (by rw [bytes]; rfl)
          unfold wordByte at stop
          rw [Lexer.scanWord, if_neg (by rw [stop]; simp)]
  | cons c later ih =>
      have whole := word
      simp only [continues, Bool.and_eq_true] at word
      obtain ⟨low, inWord⟩ := isIdent_iff.mp word.1.1
      obtain ⟨p', scanned⟩ := ih word.2 (p.after (ascii c))
      refine ⟨p', ?_⟩
      have noHyphen : ¬ (ascii c == ascii '-' &&
          (encode (later ++ rest)).head?.any isDigit) = true := by
        intro both
        rw [Bool.and_eq_true, beq_iff_eq] at both
        obtain ⟨hyphen, digit⟩ := both
        obtain rfl := eq_of_ascii_eq low (by decide) hyphen
        rw [no_range_ahead whole halts] at digit
        contradiction
      unfold wordByte at inWord
      rw [List.cons_append, Utf8.encode_cons_of_lt low, Lexer.scanWord]
      rw [show UInt8.ofNat c.toNat = ascii c from rfl, if_pos inWord, if_neg noHyphen, scanned]
      simp only [Prod.mk.injEq, List.cons.injEq, and_true]
      exact Utf8.latin1_ofNat low

/-- A property of bytes, checked value by value. -/
theorem forall_byte {P : UInt8 → Prop} (all : ∀ n < 256, P (UInt8.ofNat n)) (b : UInt8) : P b := by
  rw [← UInt8.ofNat_toNat (x := b)]
  exact all _ b.toNat_lt

theorem starts_word : ∀ b : UInt8, (isAlphabetic b || b == ascii '_') = true →
    startsToken b = true ∧ (b == ascii '"') = false ∧ isDigit b = false :=
  forall_byte (by decide +kernel)

theorem scans_word {text rest : List Char} (word : isWord text = true) (halts : Halts rest) :
    Scans text (.word (String.ofList text)) rest := by
  cases text with
  | nil => contradiction
  | cons c later =>
      simp only [isWord, Bool.and_eq_true] at word
      obtain ⟨starts, word⟩ := word
      have ident := word
      simp only [continues, Bool.and_eq_true] at ident
      have low := (isIdent_iff.mp ident.1.1).1
      have encoded := Utf8.encode_cons_of_lt low (later ++ rest)
      have first : (isAlphabetic (ascii c) || ascii c == ascii '_') = true := by
        rw [Bool.or_eq_true] at starts ⊢
        rcases starts with letter | underscore
        · exact Or.inl letter
        · rw [beq_iff_eq.mp underscore]
          exact Or.inr rfl
      obtain ⟨startsToken, noQuote, noDigit⟩ := starts_word _ first
      refine ⟨ascii c, encode (later ++ rest), encoded, startsToken, ?_, ?_⟩
      · rw [Utf8.encode_append, List.length_append]
        omega
      · intro file p
        obtain ⟨p', scanned⟩ := scanWord_of_continues word halts p
        refine ⟨p', ?_⟩
        rw [List.cons_append, encoded, show UInt8.ofNat c.toNat = ascii c from rfl] at scanned
        rw [scanToken, noQuote, noDigit, if_neg (by simp), if_neg (by simp), if_pos first,
          scanned]

/-! ### Numbers and addresses -/

/-- What follows the last digit of an octet, which may be a dot. -/
def EndsDigits (rest : List Char) : Prop :=
  ∀ b ∈ (encode rest).head?, isDigit b = false

/-- What follows the last digit of a number. -/
def EndsNumber (rest : List Char) : Prop :=
  ∀ b ∈ (encode rest).head?, isDigit b = false ∧ b ≠ ascii '.'

theorem EndsNumber.digits {rest : List Char} (stop : EndsNumber rest) : EndsDigits rest :=
  fun b first => (stop b first).1

theorem Halts.endsNumber {rest : List Char} (halts : Halts rest) : EndsNumber rest := by
  intro b first
  have stop := halts b first
  simp only [wordByte, Bool.or_eq_false_iff] at stop
  exact ⟨stop.1.1.1.2, by simpa using stop.2⟩

theorem endsNumber_hyphen (rest : List Char) : EndsNumber ('-' :: rest) := by
  intro b first
  rw [Utf8.encode_cons_of_lt (by decide), List.head?_cons, Option.mem_some_iff] at first
  rw [← first]
  decide

theorem le_ofDigitChars (digits : List Char) (n : Nat) : n ≤ Nat.ofDigitChars 10 digits n := by
  induction digits generalizing n with
  | nil => exact Nat.le_refl n
  | cons d later ih =>
      rw [Nat.ofDigitChars_cons]
      have grows := ih (10 * n + (d.toNat - '0'.toNat))
      omega

theorem digit_byte {d : Char} (digit : d.isDigit = true) :
    d.toNat < 128 ∧ isDigit (ascii d) = true ∧
      (ascii d - 48).toNat = d.toNat - '0'.toNat := by
  have values : ∀ n < 58, 48 ≤ n → (Char.ofNat n).toNat < 128 ∧
      isDigit (ascii (Char.ofNat n)) = true ∧
        (ascii (Char.ofNat n) - 48).toNat = (Char.ofNat n).toNat - '0'.toNat := by
    decide +kernel
  have bounds : 48 ≤ d.toNat ∧ d.toNat ≤ 57 := by
    simpa [Char.isDigit, UInt32.le_iff_toNat_le] using digit
  rw [← Char.ofNat_toNat d]
  exact values _ (by omega) bounds.1

theorem scanDigits_of_all {digits rest : List Char} (all : ∀ d ∈ digits, d.isDigit = true)
    (stop : EndsDigits rest) {n : Nat} (small : Nat.ofDigitChars 10 digits n < 2 ^ 64)
    (p : Position) :
    ∃ p', Lexer.scanDigits (encode (digits ++ rest)) p n =
      some (Nat.ofDigitChars 10 digits n, { rest := encode rest, pos := p' }) := by
  induction digits generalizing n p with
  | nil =>
      refine ⟨p, ?_⟩
      rw [List.nil_append]
      unfold EndsDigits at stop
      cases bytes : encode rest with
      | nil => rfl
      | cons b later =>
          have ends := stop b (by rw [bytes]; rfl)
          rw [Lexer.scanDigits, if_neg (by rw [ends]; simp)]
          rfl
  | cons d later ih =>
      obtain ⟨low, digit, value⟩ := digit_byte (all d (by simp))
      rw [Nat.ofDigitChars_cons] at small ⊢
      have grown : n * 10 + (ascii d - 48).toNat = 10 * n + (d.toNat - '0'.toNat) := by
        rw [value]
        omega
      have fits := le_ofDigitChars later (10 * n + (d.toNat - '0'.toNat))
      obtain ⟨p', scanned⟩ := ih (fun e member => all e (by simp [member])) small
        (p.after (ascii d))
      refine ⟨p', ?_⟩
      rw [List.cons_append, Utf8.encode_cons_of_lt low, Lexer.scanDigits]
      rw [show UInt8.ofNat d.toNat = ascii d from rfl, if_pos digit]
      simp only [grown]
      rw [if_pos (by omega), scanned]

theorem toDigits_eq_cons (n : Nat) :
    ∃ d later, Nat.toDigits 10 n = d :: later ∧ d.isDigit = true := by
  cases digits : Nat.toDigits 10 n with
  | nil => exact absurd digits Nat.toDigits_ne_nil
  | cons d later =>
      refine ⟨d, later, rfl, Text.isDigit_of_mem_toDigits (n := n) ?_⟩
      rw [digits]
      exact List.mem_cons_self

theorem scanU64_toDigits (file : String) {n : Nat} (small : n < 2 ^ 64) {rest : List Char}
    (stop : EndsDigits rest) (start p : Position) :
    ∃ p', scanU64 file { rest := encode (Nat.toDigits 10 n ++ rest), pos := p } start =
      .ok (n, { rest := encode rest, pos := p' }) := by
  have value : Nat.ofDigitChars 10 (Nat.toDigits 10 n) 0 = n := Nat.ofDigitChars_ten_toDigits
  have fits : Nat.ofDigitChars 10 (Nat.toDigits 10 n) 0 < 2 ^ 64 := by
    rw [value]
    exact small
  obtain ⟨p', scanned⟩ := scanDigits_of_all (fun _ => Text.isDigit_of_mem_toDigits) stop fits p
  obtain ⟨d, later, digits, digit⟩ := toDigits_eq_cons n
  obtain ⟨low, isDigit, _⟩ := digit_byte digit
  refine ⟨p', ?_⟩
  rw [value] at scanned
  unfold scanU64
  simp only [scanned]
  rw [if_pos]
  rw [digits, List.cons_append, Utf8.encode_cons_of_lt low]
  exact isDigit

theorem atOctet_eq_false {rest : List Char} (stop : EndsNumber rest) (p : Position) :
    Lexer.atOctet { rest := encode rest, pos := p } = false := by
  unfold EndsNumber at stop
  unfold Lexer.atOctet
  cases bytes : encode rest with
  | nil => rfl
  | cons b later =>
      have notDot := (stop b (by rw [bytes]; rfl)).2
      cases later with
      | nil => rfl
      | cons d more => simp [notDot]

theorem starts_digit : ∀ b : UInt8, isDigit b = true →
    startsToken b = true ∧ (b == ascii '"') = false :=
  forall_byte (by decide +kernel)

/-- A text that starts with a digit is scanned as a number or an address. -/
theorem scans_numeric {text rest : List Char} {d : Char} {later : List Char} {k : Tok}
    (digits : text = d :: later) (digit : d.isDigit = true)
    (scanned : ∀ file p, ∃ p', scanNumberOrIp file { rest := encode (text ++ rest), pos := p } p =
      .ok (k, { rest := encode rest, pos := p' })) :
    Scans text k rest := by
  obtain ⟨low, isDigit, _⟩ := digit_byte digit
  obtain ⟨startsToken, noQuote⟩ := starts_digit _ isDigit
  have encoded : encode (text ++ rest) = ascii d :: encode (later ++ rest) := by
    rw [digits]
    exact Utf8.encode_cons_of_lt low _
  refine ⟨ascii d, _, encoded, startsToken, ?_, ?_⟩
  · rw [Utf8.encode_append, List.length_append]
    omega
  · intro file p
    obtain ⟨p', found⟩ := scanned file p
    refine ⟨p', ?_⟩
    rw [scanToken, noQuote, if_neg (by simp), if_pos isDigit, ← encoded, found]

theorem scans_num {n : Nat} (small : n < 2 ^ 64) {rest : List Char} (stop : EndsNumber rest) :
    Scans (Nat.toDigits 10 n) (.num n) rest := by
  obtain ⟨d, later, digits, digit⟩ := toDigits_eq_cons n
  apply scans_numeric digits digit
  intro file p
  obtain ⟨p', scanned⟩ := scanU64_toDigits file small stop.digits p p
  refine ⟨p', ?_⟩
  unfold scanNumberOrIp
  simp only [scanned, bind, Except.bind, atOctet_eq_false stop, Bool.false_eq_true, if_false]

/-- Octets after the first, each after a dot. -/
def dotted (octets : List Nat) : List Char :=
  octets.flatMap (fun octet => '.' :: Nat.toDigits 10 octet)

theorem dotted_cons_append (octet : Nat) (later : List Nat) (rest : List Char) :
    dotted (octet :: later) ++ rest =
      '.' :: (Nat.toDigits 10 octet ++ (dotted later ++ rest)) := by
  simp [dotted]

theorem length_le_dotted (octets : List Nat) (rest : List Char) :
    octets.length ≤ (encode (dotted octets ++ rest)).length := by
  induction octets with
  | nil => exact Nat.zero_le _
  | cons octet later ih =>
      rw [dotted_cons_append, Utf8.encode_cons_of_lt (by decide), Utf8.encode_append,
        List.length_cons, List.length_cons, List.length_append]
      omega

theorem endsDigits_dotted {rest : List Char} (stop : EndsDigits rest) (octets : List Nat) :
    EndsDigits (dotted octets ++ rest) := by
  cases octets with
  | nil => exact stop
  | cons octet later =>
      intro b first
      rw [dotted_cons_append, Utf8.encode_cons_of_lt (by decide), List.head?_cons,
        Option.mem_some_iff] at first
      rw [← first]
      rfl

theorem atOctet_dotted (octet : Nat) (rest : List Char) (p : Position) :
    Lexer.atOctet { rest := encode ('.' :: (Nat.toDigits 10 octet ++ rest)), pos := p } = true := by
  obtain ⟨d, later, digits, digit⟩ := toDigits_eq_cons octet
  obtain ⟨low, isDigit, _⟩ := digit_byte digit
  rw [digits, List.cons_append, Utf8.encode_cons_of_lt (by decide), Utf8.encode_cons_of_lt low]
  exact isDigit

theorem scanOctets_dotted (file : String) {octets : List Nat}
    (small : ∀ octet ∈ octets, octet < 2 ^ 64) {rest : List Char} (stop : EndsNumber rest)
    (start p : Position) {fuel : Nat} (enough : octets.length ≤ fuel) (found : List Nat) :
    ∃ p', scanOctets file start fuel { rest := encode (dotted octets ++ rest), pos := p } found =
      .ok (found ++ octets, { rest := encode rest, pos := p' }) := by
  induction octets generalizing fuel p found with
  | nil =>
      refine ⟨p, ?_⟩
      have noOctet := atOctet_eq_false stop p
      rw [show dotted [] ++ rest = rest from rfl, List.append_nil]
      cases fuel with
      | zero => rfl
      | succ fuel =>
          rw [scanOctets, noOctet]
          rfl
  | cons octet later ih =>
      rw [List.length_cons] at enough
      obtain ⟨fuel, rfl⟩ : ∃ fuel', fuel = fuel' + 1 := ⟨fuel - 1, by omega⟩
      obtain ⟨p₁, first⟩ := scanU64_toDigits file (small octet (by simp))
        (endsDigits_dotted stop.digits later) start (p.after (ascii '.'))
      have enough : later.length ≤ fuel := by omega
      obtain ⟨p', scanned⟩ := ih (fun other member => small other (by simp [member])) p₁
        enough (found ++ [octet])
      refine ⟨p', ?_⟩
      rw [dotted_cons_append, scanOctets, atOctet_dotted, if_pos rfl]
      rw [Utf8.encode_cons_of_lt (by decide)]
      simp only [Lexer.bump, show UInt8.ofNat '.'.toNat = ascii '.' from rfl, first, bind,
        Except.bind, scanned, List.append_assoc, List.singleton_append]

def octets (v : Nat) : List Nat :=
  [(v >>> 16) &&& 0xff, (v >>> 8) &&& 0xff, v &&& 0xff]

/-- An address in dotted decimals. -/
def quad (v : Nat) : List Char :=
  Nat.toDigits 10 ((v >>> 24) &&& 0xff) ++ dotted (octets v)

theorem octet_eq (v shift : Nat) : (v >>> shift) &&& 0xff = v / 2 ^ shift % 256 := by
  rw [show 0xff = 2 ^ 8 - 1 from rfl, Nat.and_two_pow_sub_one_eq_mod, Nat.shiftRight_eq_div_pow]

theorem packOctets_cons (file : String) (start : Position) {octet : Nat} (small : octet < 256)
    (later : List Nat) (v : Nat) :
    packOctets file start (octet :: later) v =
      packOctets file start later (v * 256 + octet) := by
  have joined := Nat.shiftLeft_add_eq_or_of_lt (show octet < 2 ^ 8 from small) v
  rw [Nat.shiftLeft_eq] at joined
  rw [packOctets, if_neg (by omega), Nat.shiftLeft_eq, ← joined]

theorem packOctets_octets (file : String) (start : Position) {v : Nat} (small : v < 2 ^ 32) :
    packOctets file start (((v >>> 24) &&& 0xff) :: octets v) 0 = .ok v := by
  have last : v &&& 0xff = v % 256 := Nat.and_two_pow_sub_one_eq_mod v 8
  unfold octets
  rw [octet_eq, octet_eq, octet_eq, last]
  rw [packOctets_cons _ _ (by omega), packOctets_cons _ _ (by omega),
    packOctets_cons _ _ (by omega), packOctets_cons _ _ (by omega), packOctets]
  congr 1
  omega

theorem scans_ip {v : Nat} (small : v < 2 ^ 32) {rest : List Char} (stop : EndsNumber rest) :
    Scans (quad v) (.ip (BitVec.ofNat 32 v)) rest := by
  have octet_lt (shift : Nat) : (v >>> shift) &&& 0xff < 2 ^ 64 := by
    rw [octet_eq]
    omega
  obtain ⟨d, later, digits, digit⟩ := toDigits_eq_cons ((v >>> 24) &&& 0xff)
  refine scans_numeric (by rw [quad, digits, List.cons_append]) digit ?_
  intro file p
  obtain ⟨p₁, first⟩ := scanU64_toDigits file (octet_lt 24)
    (endsDigits_dotted stop.digits (octets v)) p p
  have small_octets : ∀ octet ∈ octets v, octet < 2 ^ 64 := by
    intro octet member
    simp only [octets, List.mem_cons, List.not_mem_nil, or_false] at member
    rcases member with rfl | rfl | rfl
    · exact octet_lt 16
    · exact octet_lt 8
    · exact octet_lt 0
  obtain ⟨p', others⟩ := scanOctets_dotted file small_octets stop p p₁
    (length_le_dotted (octets v) rest) [(v >>> 24) &&& 0xff]
  refine ⟨p', ?_⟩
  have atOctet :
      Lexer.atOctet { rest := encode (dotted (octets v) ++ rest), pos := p₁ } = true := by
    rw [octets, dotted_cons_append]
    exact atOctet_dotted _ _ _
  rw [quad, List.append_assoc]
  unfold scanNumberOrIp
  simp only [first, bind, Except.bind, atOctet, if_true, others]
  rw [if_neg (by simp [octets])]
  simp only [List.singleton_append, packOctets_octets file p small]

/-! ### Phrases -/

/-- The text spells the tokens, before anything that ends a word. -/
def Spells (text : List Char) (ks : List Tok) : Prop :=
  ∀ rest more separated, Halts rest → Lexes rest false more →
    Lexes (text ++ rest) separated (ks ++ more)

theorem halts_of_mem {c : Char} (delimits : c ∈ [' ', '\n', ',', ';', '/', '{', '}'])
    (rest : List Char) : Halts (c :: rest) := by
  simp only [List.mem_cons, List.not_mem_nil, or_false] at delimits
  apply halts_cons
  · rcases delimits with rfl | rfl | rfl | rfl | rfl | rfl | rfl <;> decide
  · rcases delimits with rfl | rfl | rfl | rfl | rfl | rfl | rfl <;> rfl

theorem Spells.of_scans {text : List Char} {k : Tok}
    (scans : ∀ rest, Halts rest → Scans text k rest) : Spells text [k] :=
  fun rest _ separated halts lexes => Lexes.token (scans rest halts) lexes separated

theorem spells_word {text : String} (word : isWord text.toList = true) :
    Spells text.toList [.word text] := by
  apply Spells.of_scans
  intro rest halts
  have scans := scans_word word halts
  rwa [String.ofList_toList] at scans

theorem spells_keyword (text : String) (word : isWord text.toList = true) :
    Spells text.toList [.word text] :=
  spells_word word

theorem spells_str {content : List Char} (noQuote : '"' ∉ content) (noEscape : '\\' ∉ content) :
    Spells ('"' :: (content ++ ['"'])) [.str (String.ofList (Utf8.reread content))] :=
  Spells.of_scans (fun rest _ => scans_str noQuote noEscape rest)

theorem spells_num {n : Nat} (small : n < 2 ^ 64) : Spells (toString n).toList [.num n] := by
  rw [Text.toList_toString]
  exact Spells.of_scans (fun _ halts => scans_num small halts.endsNumber)

theorem spells_ip {v : Nat} (small : v < 2 ^ 32) : Spells (quad v) [.ip (BitVec.ofNat 32 v)] :=
  Spells.of_scans (fun _ halts => scans_ip small halts.endsNumber)

theorem Spells.blank {text : List Char} {ks : List Tok} (spells : Spells text ks) :
    Spells (' ' :: text) ks :=
  fun rest more separated halts lexes => (spells rest more separated halts lexes).blank

/-- A symbol needs nothing in particular after it. -/
theorem Spells.sym_cons {c : Char} (symbol : c ∈ ['{', '}', ',', '/', '-']) {text : List Char}
    {ks : List Tok} (spells : Spells text ks) : Spells (c :: text) (.sym c :: ks) :=
  fun rest more separated halts lexes =>
    Lexes.token (scans_sym symbol (text ++ rest)) (spells rest more false halts lexes) separated

theorem spells_sym {c : Char} (symbol : c ∈ ['{', '}', ',', '/', '-']) : Spells [c] [.sym c] :=
  Spells.of_scans (fun rest _ => scans_sym symbol rest)

/-- One phrase after another, when the second starts with what ends a word. -/
theorem Spells.append {front back : List Char} {ks ls : List Tok} (first : Spells front ks)
    (second : Spells back ls) (delimited : ∀ rest, Halts (back ++ rest)) :
    Spells (front ++ back) (ks ++ ls) := by
  intro rest more separated halts lexes
  rw [List.append_assoc, List.append_assoc]
  exact first _ _ separated (delimited rest) (second rest more false halts lexes)

theorem Spells.then_blank {front back : List Char} {ks ls : List Tok} (first : Spells front ks)
    (second : Spells back ls) : Spells (front ++ ' ' :: back) (ks ++ ls) :=
  first.append second.blank (fun rest => halts_of_mem (by decide) (back ++ rest))

theorem Spells.then_comma {front back : List Char} {ks ls : List Tok} (first : Spells front ks)
    (second : Spells back ls) : Spells (front ++ ',' :: ' ' :: back) (ks ++ .sym ',' :: ls) :=
  first.append (second.blank.sym_cons (by decide))
    (fun rest => halts_of_mem (by decide) (' ' :: back ++ rest))

theorem Spells.then_slash {front back : List Char} {ks ls : List Tok} (first : Spells front ks)
    (second : Spells back ls) : Spells (front ++ '/' :: back) (ks ++ .sym '/' :: ls) :=
  first.append (second.sym_cons (by decide)) (fun rest => halts_of_mem (by decide) (back ++ rest))

/-- A range of numbers: the hyphen would continue a word, but ends a number. -/
theorem spells_range {lo hi : Nat} (small : lo < 2 ^ 64) (smallHi : hi < 2 ^ 64) :
    Spells ((toString lo).toList ++ '-' :: (toString hi).toList)
      [.num lo, .sym '-', .num hi] := by
  intro rest more separated halts lexes
  have later := (spells_num smallHi).sym_cons (c := '-') (by decide) rest more false halts lexes
  rw [List.append_assoc, Text.toList_toString lo]
  exact Lexes.token (scans_num small (endsNumber_hyphen _)) later separated

/-- Phrases joined by a separator, which spells some tokens of its own. -/
theorem spells_intercalate {separator : String} {glue : List Tok}
    (join : ∀ {front back : List Char} {ks ls : List Tok}, Spells front ks → Spells back ls →
      Spells (front ++ (separator.toList ++ back)) (ks ++ (glue ++ ls)))
    {parts : List String} {kss : List (List Tok)}
    (each : List.Forall₂ (fun part ks => Spells part.toList ks) parts kss) {part : String}
    {ks : List Tok} (first : Spells part.toList ks) :
    Spells (separator.intercalate (part :: parts)).toList
      (ks ++ kss.flatMap (fun ls => glue ++ ls)) := by
  induction each generalizing part ks with
  | nil =>
      rw [String.intercalate_singleton, List.flatMap_nil, List.append_nil]
      exact first
  | cons spells _ ih =>
      rw [String.intercalate_cons_cons, String.toList_append, String.toList_append,
        List.flatMap_cons, List.append_assoc, List.append_assoc]
      exact join first (ih spells)

end Fwdelta.Nft
