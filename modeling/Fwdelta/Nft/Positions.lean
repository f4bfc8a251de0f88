import Fwdelta.Lines
import Fwdelta.Nft.Meaning
import Fwdelta.Nft.Total

/-
Where tokens stand.

A source is laid out as tokens with blanks between them: white space, comments,
continued lines, and separators that collapse into the one before.  Every token
has the position of its first byte, and every rule cites the line of its first
token.
-/

namespace Fwdelta.Nft

open Fallible (bind_eq_ok_iff)

/-! ### Places -/

def newlines (before : List UInt8) : Nat :=
  before.countP isNewline

/-- The bytes after the last newline. -/
def sinceNewline (before : List UInt8) : List UInt8 :=
  before.rtakeWhile (fun c => !isNewline c)

/-- A token at the place that these bytes lead to. -/
def tokenAt (k : Tok) (before : List UInt8) : Token where
  tok := k
  line := newlines before + 1
  column := (sinceNewline before).length + 1

theorem col_positionAfter (before : List UInt8) :
    (positionAfter before).col = (sinceNewline before).length + 1 := by
  induction before using List.reverseRecOn with
  | nil => rfl
  | append_singleton front c ih =>
      rw [positionAfter_concat, Position.after, sinceNewline]
      by_cases newline : isNewline c = true
      · rw [if_pos (show (c == ascii '\n') = true from newline),
          List.rtakeWhile_concat_neg _ _ _ (by simpa using newline)]
        rfl
      · rw [if_neg (show ¬ (c == ascii '\n') = true from newline),
          List.rtakeWhile_concat_pos _ _ _ (by simpa using newline), List.length_append]
        exact congrArg (· + 1) ih

/-- The counters say where the lexer is. -/
theorem positionAfter_eq (before : List UInt8) :
    positionAfter before =
      { line := newlines before + 1, col := (sinceNewline before).length + 1 } := by
  rw [newlines, ← line_positionAfter, ← col_positionAfter]

/-! ### The layout of a source -/

/-- Bytes that are passed over, and those that follow.  A comment runs up to the end
of its line. -/
inductive Blank : List UInt8 → List UInt8 → Prop
  | nil (rest : List UInt8) : Blank [] rest
  | space {c : UInt8} {bytes rest : List UInt8}
      (white : c = ascii ' ' ∨ c = ascii '\t' ∨ c = ascii '\r') (later : Blank bytes rest) :
      Blank (c :: bytes) rest
  | continued {bytes rest : List UInt8} (later : Blank bytes rest) :
      Blank (ascii '\\' :: ascii '\n' :: bytes) rest
  | comment {bytes rest : List UInt8} (oneLine : ∀ c ∈ bytes, c ≠ ascii '\n')
      (ends : ∀ c ∈ rest.head?, c = ascii '\n') : Blank (ascii '#' :: bytes) rest

/-- The inside of a string, and the text it is read as. -/
inductive Quotes : List UInt8 → List Char → Prop
  | nil : Quotes [] []
  | plain {c : UInt8} {bytes : List UInt8} {text : List Char} (noQuote : c ≠ ascii '"')
      (noEscape : c ≠ ascii '\\') (later : Quotes bytes text) :
      Quotes (c :: bytes) (byteChar c :: text)
  | escaped {c : UInt8} {bytes : List UInt8} {text : List Char} (later : Quotes bytes text) :
      Quotes (ascii '\\' :: c :: bytes) (byteChar c :: text)

/-- A number in decimal digits. -/
structure Decimal (bytes : List UInt8) (n : Nat) : Prop where
  nonempty : bytes ≠ []
  digits : ∀ c ∈ bytes, isDigit c = true
  value : n = bytes.foldl (fun n c => n * 10 + (c - 48).toNat) 0

/-- The bytes of one token. -/
inductive Spelled : List UInt8 → Tok → Prop
  | word {c : UInt8} {bytes : List UInt8} (starts : isAlphabetic c = true ∨ c = ascii '_')
      (continues : ∀ b ∈ bytes, wordByte b = true) :
      Spelled (c :: bytes) (.word (String.ofList ((c :: bytes).map byteChar)))
  | num {bytes : List UInt8} {n : Nat} (decimal : Decimal bytes n) : Spelled bytes (.num n)
  | ip {bytes : List UInt8} {n : Nat} {parts : List (List UInt8)} {octets : List Nat}
      (first : Decimal bytes n) (others : List.Forall₂ Decimal parts octets)
      (quad : octets.length = 3) (small : ∀ octet ∈ n :: octets, octet ≤ 255) :
      Spelled (bytes ++ parts.flatMap (fun part => ascii '.' :: part))
        (.ip (BitVec.ofNat 32 ((n :: octets).foldl (fun v octet => v * 256 + octet) 0)))
  | str {bytes : List UInt8} {text : List Char} (inside : Quotes bytes text) :
      Spelled (ascii '"' :: (bytes ++ [ascii '"'])) (.str (String.ofList text))
  | sym {c : UInt8} (symbol : isSymbol c = true) : Spelled [c] (.sym (byteChar c))
  | brk {c : UInt8} (separates : c = ascii '\n' ∨ c = ascii ';') : Spelled [c] .brk

/-- The bytes that are left, as tokens at their places.  After a separator, and at
the start, the next one is passed over. -/
inductive Laid : Bool → List UInt8 → List UInt8 → List Token → Token → Prop
  | ends {separated : Bool} {before gap : List UInt8} (blank : Blank gap []) :
      Laid separated before gap [] (tokenAt .eof (before ++ gap))
  | collapsed {before gap rest : List UInt8} {c : UInt8} {tokens : List Token} {last : Token}
      (blank : Blank gap (c :: rest)) (separates : c = ascii '\n' ∨ c = ascii ';')
      (later : Laid true (before ++ gap ++ [c]) rest tokens last) :
      Laid true before (gap ++ c :: rest) tokens last
  | separator {before gap rest : List UInt8} {c : UInt8} {tokens : List Token} {last : Token}
      (blank : Blank gap (c :: rest)) (separates : c = ascii '\n' ∨ c = ascii ';')
      (later : Laid true (before ++ gap ++ [c]) rest tokens last) :
      Laid false before (gap ++ c :: rest) (tokenAt .brk (before ++ gap) :: tokens) last
  | token {separated : Bool} {before gap bytes rest : List UInt8} {k : Tok}
      {tokens : List Token} {last : Token} (blank : Blank gap (bytes ++ rest))
      (spelled : Spelled bytes k) (plain : k ≠ .brk)
      (later : Laid false (before ++ gap ++ bytes) rest tokens last) :
      Laid separated before (gap ++ (bytes ++ rest)) (tokenAt k (before ++ gap) :: tokens) last

/-! ### What the scanners take -/

theorem skipBlank_comment (bytes : List UInt8) (p : Position) :
    ∃ taken, bytes = taken ++ (Lexer.skipBlank bytes p true).rest ∧
      (∀ c ∈ taken, c ≠ ascii '\n') ∧
      ∀ c ∈ (Lexer.skipBlank bytes p true).rest.head?, c = ascii '\n' := by
  induction bytes generalizing p with
  | nil => exact ⟨[], rfl, by simp, by simp [Lexer.skipBlank]⟩
  | cons c rest ih =>
      rw [Lexer.skipBlank]
      by_cases newline : (c == ascii '\n') = true
      · rw [if_pos newline]
        exact ⟨[], rfl, by simp, by simpa using eq_of_beq newline⟩
      · rw [if_neg newline]
        obtain ⟨taken, split, oneLine, ends⟩ := ih (p.after c)
        exact ⟨c :: taken, congrArg (c :: ·) split,
          List.forall_mem_cons.mpr ⟨by simpa using newline, oneLine⟩, ends⟩

/-- What the lexer passes over is blank. -/
theorem skipBlank_blank (bytes : List UInt8) (p : Position) :
    ∃ gap, bytes = gap ++ (Lexer.skipBlank bytes p false).rest ∧
      Blank gap (Lexer.skipBlank bytes p false).rest := by
  generalize mode : false = comment
  fun_induction Lexer.skipBlank bytes p comment with
  | case1 p comment => exact ⟨[], rfl, .nil _⟩
  | case2 | case3 => contradiction
  | case4 c rest p white ih =>
      obtain ⟨gap, split, blank⟩ := ih mode
      refine ⟨c :: gap, congrArg (c :: ·) split, .space ?_ blank⟩
      simpa [or_assoc] using white
  | case5 c rest p _ hash ih =>
      obtain rfl := eq_of_beq hash
      obtain ⟨gap, split, oneLine, ends⟩ := skipBlank_comment rest (p.after (ascii '#'))
      exact ⟨ascii '#' :: gap, congrArg (ascii '#' :: ·) split, .comment oneLine ends⟩
  | case6 => exact ⟨[], rfl, .nil _⟩
  | case7 c p _ _ escape n later newline ih =>
      obtain ⟨gap, split, blank⟩ := ih mode
      obtain rfl := eq_of_beq escape
      obtain rfl := eq_of_beq newline
      exact ⟨_, congrArg (ascii '\\' :: ascii '\n' :: ·) split, .continued blank⟩
  | case8 => exact ⟨[], rfl, .nil _⟩
  | case9 => exact ⟨[], rfl, .nil _⟩

theorem scanString_quotes {bytes : List UInt8} {p : Position} {acc text : List Char} {lx : Lexer}
    (scanned : Lexer.scanString bytes p acc = some (text, lx)) :
    ∃ body inside, bytes = body ++ ascii '"' :: lx.rest ∧ Quotes body inside ∧
      text = acc.reverse ++ inside := by
  fun_induction Lexer.scanString bytes p acc with
  | case1 => contradiction
  | case2 c rest p acc quote =>
      obtain ⟨rfl, rfl⟩ := Prod.mk.inj (Option.some.inj scanned)
      refine ⟨[], [], ?_, .nil, (List.append_nil _).symm⟩
      rw [eq_of_beq quote]
      rfl
  | case3 => contradiction
  | case4 c p acc _ escape n later ih =>
      obtain ⟨body, inside, rfl, quotes, rfl⟩ := ih scanned
      rw [eq_of_beq escape]
      exact ⟨_, _, rfl, .escaped quotes, by simp⟩
  | case5 c rest p acc noQuote noEscape ih =>
      obtain ⟨body, inside, rfl, quotes, rfl⟩ := ih scanned
      exact ⟨_, _, rfl, .plain (by simpa using noQuote) (by simpa using noEscape) quotes,
        by simp⟩

theorem scanDigits_decimal {bytes : List UInt8} {p : Position} {n value : Nat} {lx : Lexer}
    (scanned : Lexer.scanDigits bytes p n = some (value, lx)) :
    ∃ taken, bytes = taken ++ lx.rest ∧ (∀ c ∈ taken, isDigit c = true) ∧
      value = taken.foldl (fun n c => n * 10 + (c - 48).toNat) n := by
  induction bytes generalizing p n with
  | nil =>
      obtain ⟨rfl, rfl⟩ := Prod.mk.inj (Option.some.inj scanned)
      exact ⟨[], rfl, by simp, rfl⟩
  | cons c rest ih =>
      rw [Lexer.scanDigits] at scanned
      split at scanned
      · next digit =>
          dsimp only at scanned
          split at scanned
          · obtain ⟨taken, rfl, digits, rfl⟩ := ih scanned
            exact ⟨c :: taken, rfl, List.forall_mem_cons.mpr ⟨digit, digits⟩, rfl⟩
          · contradiction
      · obtain ⟨rfl, rfl⟩ := Prod.mk.inj (Option.some.inj scanned)
        exact ⟨[], rfl, by simp, rfl⟩

theorem scanU64_decimal {file : String} {lx lx' : Lexer} {start : Position} {value : Nat}
    (scanned : scanU64 file lx start = .ok (value, lx')) :
    ∃ taken, lx.rest = taken ++ lx'.rest ∧ Decimal taken value := by
  have shorter := (scanU64_moves scanned).2
  unfold scanU64 at scanned
  split at scanned
  · contradiction
  · next found digits =>
      split at scanned
      · rw [Except.ok.inj scanned] at digits
        obtain ⟨taken, split, all, same⟩ := scanDigits_decimal digits
        refine ⟨taken, split, ⟨?_, all, same⟩⟩
        rintro rfl
        rw [split, List.nil_append] at shorter
        exact Nat.lt_irrefl _ shorter
      · contradiction

theorem scanOctets_decimals {file : String} {start : Position} {fuel : Nat} {lx lx' : Lexer}
    {octets octets' : List Nat}
    (scanned : scanOctets file start fuel lx octets = .ok (octets', lx')) :
    ∃ parts values, octets' = octets ++ values ∧ List.Forall₂ Decimal parts values ∧
      lx.rest = parts.flatMap (fun part => ascii '.' :: part) ++ lx'.rest := by
  induction fuel generalizing lx octets with
  | zero =>
      obtain ⟨rfl, rfl⟩ := Prod.mk.inj (Except.ok.inj scanned)
      exact ⟨[], [], (List.append_nil _).symm, .nil, rfl⟩
  | succ fuel ih =>
      rw [scanOctets] at scanned
      split at scanned
      · next atOctet =>
          obtain ⟨⟨octet, middle⟩, first, scanned⟩ := bind_eq_ok_iff.mp scanned
          obtain ⟨part, split, decimal⟩ := scanU64_decimal first
          obtain ⟨parts, values, rfl, decimals, others⟩ := ih scanned
          refine ⟨part :: parts, octet :: values, by simp, .cons decimal decimals, ?_⟩
          have dot : lx.rest = ascii '.' :: lx.bump.rest := by
            unfold Lexer.atOctet at atOctet
            unfold Lexer.bump
            split at atOctet
            · next c d rest bytes =>
                rw [Bool.and_eq_true, beq_iff_eq] at atOctet
                rw [bytes, atOctet.1]
            · contradiction
          rw [dot, split, others, List.flatMap_cons, List.append_assoc, List.cons_append]
      · obtain ⟨rfl, rfl⟩ := Prod.mk.inj (Except.ok.inj scanned)
        exact ⟨[], [], (List.append_nil _).symm, .nil, rfl⟩

theorem packOctets_eq_ok {file : String} {start : Position} {octets : List Nat} {v packed : Nat}
    (found : packOctets file start octets v = .ok packed) :
    (∀ octet ∈ octets, octet ≤ 255) ∧
      packed = octets.foldl (fun v octet => v * 256 + octet) v := by
  induction octets generalizing v with
  | nil => exact ⟨by simp, (Except.ok.inj found).symm⟩
  | cons octet rest ih =>
      by_cases large : octet > 255
      · rw [packOctets, if_pos large] at found
        contradiction
      · rw [packOctets_cons file start (by omega)] at found
        obtain ⟨small, same⟩ := ih found
        exact ⟨List.forall_mem_cons.mpr ⟨by omega, small⟩, same⟩

theorem scanNumberOrIp_spelled {file : String} {lx lx' : Lexer} {start : Position} {k : Tok}
    (scanned : scanNumberOrIp file lx start = .ok (k, lx')) :
    ∃ taken, lx.rest = taken ++ lx'.rest ∧ Spelled taken k ∧ k ≠ .brk := by
  unfold scanNumberOrIp at scanned
  obtain ⟨⟨n, middle⟩, number, scanned⟩ := bind_eq_ok_iff.mp scanned
  obtain ⟨taken, split, first⟩ := scanU64_decimal number
  dsimp only at scanned
  split at scanned
  · obtain ⟨⟨octets, middle'⟩, more, scanned⟩ := bind_eq_ok_iff.mp scanned
    obtain ⟨parts, values, rfl, others, dotted⟩ := scanOctets_decimals more
    dsimp only at scanned
    split at scanned
    · contradiction
    · next quad =>
        obtain ⟨v, packed, scanned⟩ := bind_eq_ok_iff.mp scanned
        obtain ⟨rfl, rfl⟩ := Prod.mk.inj (Except.ok.inj scanned)
        obtain ⟨small, rfl⟩ := packOctets_eq_ok packed
        have three : values.length = 3 := by simpa using quad
        refine ⟨_, ?_, .ip first others three small, by simp⟩
        rw [split, dotted, List.append_assoc]
  · obtain ⟨rfl, rfl⟩ := Prod.mk.inj (Except.ok.inj scanned)
    exact ⟨taken, split, .num first, by simp⟩

theorem scanWord_bytes (bytes : List UInt8) (p : Position) :
    ∃ taken, bytes = taken ++ (Lexer.scanWord bytes p).2.rest ∧
      (∀ b ∈ taken, wordByte b = true) ∧ (Lexer.scanWord bytes p).1 = taken.map byteChar := by
  induction bytes generalizing p with
  | nil => exact ⟨[], rfl, by simp, rfl⟩
  | cons c rest ih =>
      rw [Lexer.scanWord]
      split
      · next inWord =>
          split
          · exact ⟨[], rfl, by simp, rfl⟩
          · obtain ⟨taken, split, all, text⟩ := ih (p.after c)
            exact ⟨c :: taken, congrArg (c :: ·) split, List.forall_mem_cons.mpr ⟨inWord, all⟩,
              congrArg (byteChar c :: ·) text⟩
      · exact ⟨[], rfl, by simp, rfl⟩

/-- The scanner takes the bytes of the token. -/
theorem scanToken_spelled {file : String} {start : Position} {c : UInt8} {rest : List UInt8}
    {k : Tok} {lx : Lexer} (scanned : scanToken file start c rest = .ok (k, lx)) :
    ∃ taken, c :: rest = taken ++ lx.rest ∧ Spelled taken k ∧ k ≠ .brk := by
  unfold scanToken at scanned
  split at scanned
  · next quote =>
      split at scanned
      · next text lx' string =>
          obtain ⟨rfl, rfl⟩ := Prod.mk.inj (Except.ok.inj scanned)
          obtain ⟨body, inside, rfl, quotes, rfl⟩ := scanString_quotes string
          rw [eq_of_beq quote]
          exact ⟨_, by simp, .str quotes, by simp⟩
      · contradiction
  · split at scanned
    · exact scanNumberOrIp_spelled scanned
    · split at scanned
      · next starts =>
          obtain ⟨rfl, rfl⟩ := Prod.mk.inj (Except.ok.inj scanned)
          obtain ⟨taken, split, all, text⟩ := scanWord_bytes rest (start.after c)
          rw [scanWord_cons starts, text]
          refine ⟨c :: taken, congrArg (c :: ·) split, .word ?_ all, by simp⟩
          simpa using starts
      · split at scanned
        · next symbol =>
            obtain ⟨rfl, rfl⟩ := Prod.mk.inj (Except.ok.inj scanned)
            exact ⟨[c], rfl, .sym symbol, by simp⟩
        · contradiction

/-- What is taken is what lies between, and the position follows it. -/
theorem Lexer.Moves.position {lx lx' : Lexer} (moves : lx.Moves lx') {before taken : List UInt8}
    (place : lx.pos = positionAfter before) (split : lx.rest = taken ++ lx'.rest) :
    lx'.pos = positionAfter (before ++ taken) := by
  obtain ⟨taken', split', follows⟩ := moves
  obtain rfl := List.append_cancel_right (split.symm.trans split')
  rw [follows, place, positionAfter, positionAfter, List.foldl_append]

theorem tokenAt_eq {k : Tok} {p : Position} {before : List UInt8}
    (place : p = positionAfter before) :
    ({ tok := k, line := p.line, column := p.col } : Token) = tokenAt k before := by
  rw [place, positionAfter_eq]
  rfl

/-- The lexer lays its input out as the tokens it yields: each round takes a blank and
then a separator or a token, and the position follows the bytes taken. -/
theorem lexFrom_laid {file : String} {fuel : Nat} {lx : Lexer} {separated : Bool}
    {tokens : List Token} {last : Token} (enough : lx.rest.length ≤ fuel) {before : List UInt8}
    (place : lx.pos = positionAfter before)
    (lexed : lexFrom file fuel lx separated = .ok (tokens, last)) :
    Laid separated before lx.rest tokens last := by
  induction fuel generalizing lx separated tokens last before with
  | zero =>
      obtain ⟨rfl, rfl⟩ := Prod.mk.inj (Except.ok.inj lexed)
      have empty : lx.rest = [] := List.length_eq_zero_iff.mp (Nat.le_zero.mp enough)
      have atEnd : Laid separated before [] [] (tokenAt .eof (before ++ [])) := .ends (.nil [])
      rwa [List.append_nil, ← tokenAt_eq place, ← empty] at atEnd
  | succ fuel ih =>
      obtain ⟨gap, split, blank⟩ := skipBlank_blank lx.rest lx.pos
      have here := (skipBlank_moves lx.rest lx.pos false).position place split
      rw [lexFrom] at lexed
      dsimp only at lexed
      generalize Lexer.skipBlank lx.rest lx.pos false = middle at lexed split blank here
      rw [split, List.length_append] at enough
      split at lexed
      · next atEnd =>
          obtain ⟨rfl, rfl⟩ := Prod.mk.inj (Except.ok.inj lexed)
          rw [atEnd] at split blank
          rw [split, List.append_nil, tokenAt_eq here]
          exact .ends blank
      · next c rest bytes =>
          rw [bytes] at split blank
          rw [bytes, List.length_cons] at enough
          split at lexed
          · next separates =>
              have separates : c = ascii '\n' ∨ c = ascii ';' := by simpa using separates
              obtain ⟨⟨later, final⟩, found, lexed⟩ := bind_eq_ok_iff.mp lexed
              have after : middle.pos.after c = positionAfter (before ++ gap ++ [c]) := by
                rw [positionAfter_concat, here]
              have laid := ih (by dsimp only; omega) after found
              dsimp only at lexed laid
              rw [split]
              split at lexed
              · next collapses =>
                  obtain ⟨rfl, rfl⟩ := Prod.mk.inj (Except.ok.inj lexed)
                  rw [collapses]
                  exact .collapsed blank separates laid
              · next stands =>
                  obtain ⟨rfl, rfl⟩ := Prod.mk.inj (Except.ok.inj lexed)
                  rw [Bool.not_eq_true] at stands
                  rw [stands, tokenAt_eq here]
                  exact .separator blank separates laid
          · obtain ⟨⟨k, next⟩, scanned, lexed⟩ := bind_eq_ok_iff.mp lexed
            obtain ⟨⟨later, final⟩, found, lexed⟩ := bind_eq_ok_iff.mp lexed
            obtain ⟨taken, takes, spelled, plain⟩ := scanToken_spelled scanned
            obtain ⟨moves, shorter⟩ := scanToken_moves scanned
            have laid := ih (by omega) (moves.position here takes) found
            obtain ⟨rfl, rfl⟩ := Prod.mk.inj (Except.ok.inj lexed)
            rw [split, takes, tokenAt_eq here]
            rw [takes] at blank
            exact .token blank spelled plain laid

/-! ### The place of a token -/

/-- The bytes of the token stand in the source where its position says. -/
def Stands (source : List UInt8) (t : Token) : Prop :=
  ∃ before bytes after, source = before ++ (bytes ++ after) ∧ Spelled bytes t.tok ∧
    t = tokenAt t.tok before

theorem Laid.stands {separated : Bool} {before rest : List UInt8} {tokens : List Token}
    {last : Token} (laid : Laid separated before rest tokens last) :
    (∀ t ∈ tokens, Stands (before ++ rest) t) ∧ last = tokenAt .eof (before ++ rest) := by
  induction laid with
  | ends blank => exact ⟨by simp, rfl⟩
  | @collapsed before gap rest c _ _ _ _ _ ih =>
      have whole : before ++ gap ++ [c] ++ rest = before ++ (gap ++ c :: rest) := by simp
      rwa [whole] at ih
  | @separator before gap rest c tokens last _ separates _ ih =>
      have whole : before ++ gap ++ [c] ++ rest = before ++ (gap ++ c :: rest) := by simp
      rw [whole] at ih
      refine ⟨List.forall_mem_cons.mpr ⟨?_, ih.1⟩, ih.2⟩
      exact ⟨before ++ gap, [c], rest, by simp, .brk separates, rfl⟩
  | @token _ before gap bytes rest k tokens last _ spelled _ _ ih =>
      have whole : before ++ gap ++ bytes ++ rest = before ++ (gap ++ (bytes ++ rest)) := by simp
      rw [whole] at ih
      refine ⟨List.forall_mem_cons.mpr ⟨?_, ih.1⟩, ih.2⟩
      exact ⟨before ++ gap, bytes, rest, by simp, spelled, rfl⟩

/-- The tokens of a source lie in it as its grammar says, from its first byte on. -/
theorem lex_laid {file source : String} {tokens : List Token} {last : Token}
    (lexed : lex file source = .ok (tokens, last)) :
    Laid true [] source.toUTF8.data.toList tokens last := by
  unfold lex at lexed
  refine lexFrom_laid ?_ rfl lexed
  exact Nat.le_refl _

theorem Spelled.ne_nil {bytes : List UInt8} {k : Tok} (spelled : Spelled bytes k) : bytes ≠ [] := by
  cases spelled with
  | word => exact List.cons_ne_nil _ _
  | num decimal => exact decimal.nonempty
  | ip first =>
      intro empty
      exact first.nonempty (List.append_eq_nil_iff.mp empty).1
  | str => exact List.cons_ne_nil _ _
  | sym => exact List.cons_ne_nil _ _
  | brk => exact List.cons_ne_nil _ _

/-- The token has the position of its first byte, and the counters of the lexer reach
it without an overflow. -/
def Counted (source : List UInt8) (t : Token) : Prop :=
  ∃ before bytes after, source = before ++ (bytes ++ after) ∧ Spelled bytes t.tok ∧
    t.line = newlines before + 1 ∧ t.column = (sinceNewline before).length + 1 ∧
      before.foldlM Position.advance { line := 1, col := 1 } =
        some { line := t.line, col := t.column }

/-- A token has a byte of its own, so the counters do not overflow before it. -/
theorem Stands.counted {source : List UInt8} {t : Token} (stands : Stands source t)
    (short : source.length < 2 ^ 32) : Counted source t := by
  obtain ⟨before, bytes, after, rfl, spelled, place⟩ := stands
  have positive := List.length_pos_iff.mpr spelled.ne_nil
  have lines := List.countP_le_length (p := isNewline) (l := before)
  have columns := List.countP_le_length (p := fun c => !isNewline c) (l := before)
  rw [List.length_append, List.length_append] at short
  have line := congrArg Token.line place
  have column := congrArg Token.column place
  refine ⟨before, bytes, after, rfl, spelled, line, column, ?_⟩
  rw [foldlM_advance before (by omega) (by omega), positionAfter_eq, line, column]
  rfl

/-! ### The line of a rule -/

/-- The line that the byte after `before` is on. -/
def lineAround (before rest : List UInt8) : List UInt8 :=
  sinceNewline before ++ rest.takeWhile (fun c => !isNewline c)

/-- The rule is cited with the place of the token and the line its first byte is on,
without white space at the ends. -/
def Cites (source : String) (origin : Origin) (t : Token) : Prop :=
  ∃ before bytes after line,
    source.toUTF8.data.toList = before ++ (bytes ++ after) ∧ Spelled bytes t.tok ∧
      origin.line = newlines before + 1 ∧
        origin.column = (sinceNewline before).length + 1 ∧
          line.toUTF8.data.toList = lineAround before (bytes ++ after) ∧
            origin.text = Text.trim line

theorem starts_ascii {c : UInt8} (starts : isAlphabetic c = true ∨ c = ascii '_') :
    c.toNat < 128 ∧ c ≠ ascii '\n' := by
  rcases starts with letter | rfl
  · simp only [isAlphabetic, Bool.or_eq_true, Bool.and_eq_true, decide_eq_true_eq,
      UInt8.le_iff_toNat_le] at letter
    have low : c.toNat < 128 := by
      rcases letter with ⟨_, upper⟩ | ⟨_, upper⟩
      · exact Nat.lt_of_le_of_lt upper (by decide)
      · exact Nat.lt_of_le_of_lt upper (by decide)
    refine ⟨low, ?_⟩
    rintro rfl
    rcases letter with ⟨lower, _⟩ | ⟨lower, _⟩
    · exact absurd lower (by decide)
    · exact absurd lower (by decide)
  · exact ⟨by decide, by decide⟩

/-- The line that a 7-bit character stands on is the one that `lines` yields at its
number. -/
theorem exists_line_around {source : String} {before after : List UInt8} {c : UInt8}
    (low : c.toNat < 128) (other : c ≠ ascii '\n')
    (split : source.toUTF8.data.toList = before ++ c :: after) :
    ∃ line : String, line.toUTF8.data.toList = lineAround before (c :: after) ∧
      Text.trim ((Text.lines source)[newlines before]?.getD "") = Text.trim line := by
  rw [Utf8.toUTF8_toList] at split
  obtain ⟨front, back, chars, rfl, rfl⟩ := Utf8.encode_eq_append_cons low split
  have byte : UInt8.ofNat (Utf8.latin1 c).toNat = c := Utf8.ofNat_toNat_latin1 c
  have small : (Utf8.latin1 c).toNat < 128 := by rwa [Utf8.toNat_latin1]
  have char : Utf8.latin1 c ≠ '\n' := by
    intro same
    rw [same] at byte
    exact other byte.symm
  have counted : newlines (Utf8.encode front) = front.count '\n' :=
    Utf8.count_encode (n := 10) (by decide) front
  have whole : c :: Utf8.encode back = Utf8.encode (Utf8.latin1 c :: back) := by
    rw [Utf8.encode_cons_of_lt small, byte]
  refine ⟨String.ofList (front.rtakeWhile Text.otherThanNewline ++
    (Utf8.latin1 c :: back).takeWhile Text.otherThanNewline), ?bytes, ?text⟩
  case bytes =>
    rw [Utf8.toUTF8_toList, String.toList_ofList, Utf8.encode_append, lineAround, whole]
    exact congrArg₂ (· ++ ·) (Utf8.rtakeWhile_encode (n := 10) (by decide) front).symm
      (Utf8.takeWhile_encode (n := 10) (by decide) (Utf8.latin1 c :: back)).symm
  case text =>
    rw [counted]
    exact Text.trim_lines_around char chars

theorem Stands.cited {source : String} {t : Token} {w : String} (isWord : t.tok = .word w)
    (stands : Stands source.toUTF8.data.toList t) (file : String) :
    Cites source (originAt { file := file, src := source } (t.line, t.column)) t := by
  obtain ⟨before, bytes, after, split, spelled, place⟩ := stands
  obtain ⟨c, more, rfl, starts⟩ : ∃ c more, bytes = c :: more ∧
      (isAlphabetic c = true ∨ c = ascii '_') := by
    rw [isWord] at spelled
    cases spelled with
    | word starts => exact ⟨_, _, rfl, starts⟩
  obtain ⟨low, other⟩ := starts_ascii starts
  obtain ⟨line, lineBytes, text⟩ := exists_line_around low other split
  have at_ := congrArg Token.line place
  refine ⟨before, c :: more, after, line, split, spelled, at_, congrArg Token.column place,
    lineBytes, ?_⟩
  rw [← text, originAt, at_]
  rfl

/-! ### The tokens and the rules of a source -/

/-- Every rule is traced back to its first token, and cites the line that is on. -/
def Traced (source : String) (ruleset : Ruleset) (f : FileText) : Prop :=
  ∀ i j chain rule, ruleset.chains[i]? = some chain → chain.rules[j]? = some rule →
    ∃ r, f.ruleAt i j = some r ∧ r.first ∈ f.tokens ∧ rule.origin.line = r.first.line ∧
      rule.origin.column = r.first.column ∧ Cites source rule.origin r.first

theorem FileText.Reads.traced {f : FileText} {file source : String} {ruleset : Ruleset}
    (reads : f.Reads file source ruleset) : Traced source ruleset f := by
  intro i j chain rule chainAt ruleAt
  obtain ⟨r, textAt, origin⟩ := reads.originAt chainAt ruleAt
  obtain ⟨last, lexed⟩ := reads.lexed
  obtain ⟨w, isWord⟩ := r.first_isWord
  have member := FileText.first_mem_tokens textAt
  have stands := (lex_laid lexed).stands.1 _ member
  rw [origin]
  exact ⟨r, textAt, member, rfl, rfl, stands.cited isWord file⟩

/-- The positions of tokens are true, and so is what the rules cite. -/
theorem positions_true {file source : String} {tokens : List Token} {last : Token}
    (short : source.utf8ByteSize < 2 ^ 32) (lexed : lex file source = .ok (tokens, last)) :
    Laid true [] source.toUTF8.data.toList tokens last ∧
    (∀ t ∈ tokens, Counted source.toUTF8.data.toList t) ∧
    last = tokenAt .eof source.toUTF8.data.toList ∧
    ((source.utf8ByteSize + 1 = 2 ^ 32 →
        '\n' ∈ source.toList ∧ ∃ c ∈ source.toList, c ≠ '\n') →
      source.toUTF8.data.toList.foldlM Position.advance { line := 1, col := 1 } =
        some { line := last.line, col := last.column }) ∧
    ∀ ruleset, parse file source = .ok ruleset →
      (∃ f : FileText, f.Reads file source ruleset) ∧
        ∀ f : FileText, f.Reads file source ruleset →
          f.tokens = tokens ∧ Traced source ruleset f := by
  have laid := lex_laid lexed
  obtain ⟨stands, atEnd⟩ := laid.stands
  rw [List.nil_append] at stands atEnd
  refine ⟨laid, ?tokens, atEnd, ?counters, ?rules⟩
  case tokens =>
    intro t member
    exact (stands t member).counted short
  case counters =>
    intro mixed
    rw [foldlM_advance_source short mixed (List.prefix_refl _), positionAfter_eq, atEnd]
    rfl
  case rules =>
    intro ruleset parsed
    refine ⟨(parse_eq_ok_iff file source ruleset).mp parsed, ?_⟩
    intro f reads
    obtain ⟨last', lexed'⟩ := reads.lexed
    rw [lexed] at lexed'
    exact ⟨(Prod.mk.inj (Except.ok.inj lexed')).1.symm, reads.traced⟩

theorem positions_true_ssh : ∃ ruleset chain rule,
    parse "f" (oneRuleSource .input "iifname \"eth0\" tcp dport 22 accept") = .ok ruleset ∧
    ruleset.chains[0]? = some chain ∧ chain.rules[0]? = some rule ∧
      rule.origin.line = 4 ∧ rule.origin.column = 1 ∧
        Cites (oneRuleSource .input "iifname \"eth0\" tcp dport 22 accept") rule.origin
          sshFromEth0.first := by
  obtain ⟨ruleset, chain, rule, reads, chainAt, ruleAt, _⟩ := sshFromEth0_reads
  have parsed := (parse_eq_ok_iff _ _ _).mpr ⟨_, reads⟩
  obtain ⟨last, lexed⟩ := reads.lexed
  obtain ⟨_, _, _, _, rules⟩ := positions_true (by decide) lexed
  obtain ⟨r, textAt, _, line, column, cites⟩ :=
    ((rules ruleset parsed).2 _ reads).2 0 0 chain rule chainAt ruleAt
  obtain rfl : sshFromEth0 = r := Option.some.inj textAt
  exact ⟨ruleset, chain, rule, parsed, chainAt, ruleAt, line, column, cites⟩

/-- `accept`, after two blanks -/
def indentedAccept : RuleText where
  first := ⟨.word "accept", 4, 3⟩
  rest := []
  stmts := [.accept]
  spelled := rfl

/-- A rule cites its line without the blanks it begins with, and the counter of the
columns overflows at the end of the longest line. -/
theorem indented_rule_is_trimmed :
    (∃ ruleset chain rule,
      parse "f" (oneRuleSource .input "  accept") = .ok ruleset ∧
        ruleset.chains[0]? = some chain ∧ chain.rules[0]? = some rule ∧
          rule.origin.line = 4 ∧
            (Text.lines (oneRuleSource .input "  accept"))[3]? = some "  accept" ∧
              rule.origin.text = "accept") ∧
    ∃ n, (blankLine n).utf8ByteSize < 2 ^ 32 ∧
      lex "f" (blankLine n) = .ok ([], { tok := .eof, line := 1, column := 2 ^ 32 }) := by
  constructor
  · have lexed : lex "f" (oneRuleSource .input "  accept") =
        .ok ((oneRule .input indentedAccept 9).tokens, ⟨.eof, 7, 1⟩) := by
      decide +kernel
    have follow : Lookahead.Followed Stmt.yield Stmt.Follow indentedAccept.stmts .brk :=
      ⟨trivial, trivial⟩
    obtain ⟨ruleset, chain, rule, reads, chainAt, ruleAt, _⟩ :=
      oneRule_reads .input indentedAccept 9 lexed follow (by decide) (by decide)
    obtain ⟨r, textAt, origin⟩ := reads.originAt chainAt ruleAt
    obtain rfl : indentedAccept = r := Option.some.inj textAt
    refine ⟨ruleset, chain, rule, (parse_eq_ok_iff _ _ _).mpr ⟨_, reads⟩, chainAt, ruleAt, ?_⟩
    rw [origin]
    exact ⟨rfl, by decide, by decide⟩
  · refine ⟨2 ^ 32 - 1, ?_, ?_⟩
    · rw [← length_bytes, Utf8.toUTF8_toList, encode_blankLine, List.length_replicate]
      norm_num
    · rw [lex_blankLine]
      norm_num

end Fwdelta.Nft
