import Fwdelta.Nft.Error
import Fwdelta.Lookahead
import Mathlib.Algebra.Group.Nat.Defs

/-
The tokeniser.

It runs over the bytes of the source and carries the position of the next byte.
Its loops are bounded by the number of bytes left: when the bound is reached no
byte is left, and the loop would stop there anyway.
-/

namespace Fwdelta.Nft

open Fallible (bind_eq_ok_iff)

inductive Tok
  | word (text : String)
  | num (value : Nat)
  | ip (address : BitVec 32)
  | str (text : String)
  | sym (c : Char)
  | brk
  | eof
  deriving DecidableEq, Repr

namespace Tok

def describe : Tok → String
  | .word text => "`" ++ text ++ "`"
  | .num value => "`" ++ toString value ++ "`"
  | .ip address =>
      let v := address.toNat
      "`" ++ toString (v >>> 24) ++ "." ++ toString ((v >>> 16) &&& 0xff) ++ "." ++
        toString ((v >>> 8) &&& 0xff) ++ "." ++ toString (v &&& 0xff) ++ "`"
  | .str text => "`\"" ++ text ++ "\"`"
  | .sym c => "`" ++ c.toString ++ "`"
  | .brk => "end of statement"
  | .eof => "end of file"

end Tok

structure Token where
  tok : Tok
  line : Nat
  column : Nat
  deriving DecidableEq, Repr

/-! ### Bytes and positions -/

def isDigit (c : UInt8) : Bool := 48 ≤ c && c ≤ 57

def isAlphabetic (c : UInt8) : Bool := (65 ≤ c && c ≤ 90) || (97 ≤ c && c ≤ 122)

/-- A byte as a character, one for each of the 256 values. -/
def byteChar (c : UInt8) : Char := Char.ofNat c.toNat

def ascii (c : Char) : UInt8 := UInt8.ofNat c.toNat

structure Position where
  line : Nat
  col : Nat
  deriving DecidableEq, Repr

def Position.after (p : Position) (c : UInt8) : Position :=
  if c == ascii '\n' then { line := p.line + 1, col := 1 }
  else { line := p.line, col := p.col + 1 }

structure Lexer where
  rest : List UInt8
  pos : Position

namespace Lexer

/-- Whitespace, comments and line continuations.  A comment runs up to a newline,
which is not blank and so ends the run as well. -/
def skipBlank : List UInt8 → Position → Bool → Lexer
  | [], p, _ => { rest := [], pos := p }
  | c :: rest, p, true =>
      if c == ascii '\n' then { rest := c :: rest, pos := p }
      else skipBlank rest (p.after c) true
  | c :: rest, p, false =>
      if c == ascii ' ' || c == ascii '\t' || c == ascii '\r' then
        skipBlank rest (p.after c) false
      else if c == ascii '#' then skipBlank rest (p.after c) true
      else if c == ascii '\\' then
        match rest with
        | [] => { rest := [c], pos := p }
        | n :: later =>
            if n == ascii '\n' then skipBlank later ((p.after c).after n) false
            else { rest := c :: n :: later, pos := p }
      else { rest := c :: rest, pos := p }

def scanString : List UInt8 → Position → List Char → Option (List Char × Lexer)
  | [], _, _ => none
  | c :: rest, p, acc =>
      if c == ascii '"' then some (acc.reverse, { rest := rest, pos := p.after c })
      else if c == ascii '\\' then
        match rest with
        | [] => none
        | n :: later => scanString later ((p.after c).after n) (byteChar n :: acc)
      else scanString rest (p.after c) (byteChar c :: acc)

/-- The digit loop of `scan_u64`; nothing when the value passes 64 bits. -/
def scanDigits : List UInt8 → Position → Nat → Option (Nat × Lexer)
  | [], p, n => some (n, { rest := [], pos := p })
  | c :: rest, p, n =>
      if isDigit c then
        let grown := n * 10 + (c - 48).toNat
        if grown < 2 ^ 64 then scanDigits rest (p.after c) grown else none
      else some (n, { rest := c :: rest, pos := p })

/-- An identifier.  A hyphen before a digit separates a range and ends it. -/
def scanWord : List UInt8 → Position → List Char × Lexer
  | [], p => ([], { rest := [], pos := p })
  | c :: rest, p =>
      if isAlphabetic c || isDigit c || c == ascii '_' || c == ascii '-' || c == ascii '.' then
        if c == ascii '-' && rest.head?.any isDigit then
          ([], { rest := c :: rest, pos := p })
        else
          let later := scanWord rest (p.after c)
          (byteChar c :: later.1, later.2)
      else ([], { rest := c :: rest, pos := p })

end Lexer

/-! ### Tokens -/

section Scan

variable (file : String)

def lexError (start : Position) (message : String) : ParseError :=
  ParseError.new file start.line start.col .syntaxError message

def scanU64 (lx : Lexer) (start : Position) : Except ParseError (Nat × Lexer) :=
  match Lexer.scanDigits lx.rest lx.pos 0 with
  | none => .error (lexError file start "number too large")
  | some found =>
      if lx.rest.head?.any isDigit then .ok found
      else .error (lexError file start "expected a number")

def Lexer.atOctet (lx : Lexer) : Bool :=
  match lx.rest with
  | c :: d :: _ => c == ascii '.' && isDigit d
  | _ => false

def Lexer.bump (lx : Lexer) : Lexer :=
  match lx.rest with
  | [] => lx
  | c :: rest => { rest := rest, pos := lx.pos.after c }

/-- The octet loop of `scan_number_or_ip`, octets in order. -/
def scanOctets (start : Position) :
    Nat → Lexer → List Nat → Except ParseError (List Nat × Lexer)
  | 0, lx, octets => .ok (octets, lx)
  | fuel + 1, lx, octets => do
      if lx.atOctet then
        let (octet, lx') ← scanU64 file lx.bump start
        scanOctets start fuel lx' (octets ++ [octet])
      else
        .ok (octets, lx)

def packOctets (start : Position) : List Nat → Nat → Except ParseError Nat
  | [], v => .ok v
  | octet :: rest, v =>
      if octet > 255 then
        .error (lexError file start ("octet " ++ toString octet ++ " is larger than 255"))
      else packOctets start rest ((v <<< 8) ||| octet)

def scanNumberOrIp (lx : Lexer) (start : Position) : Except ParseError (Tok × Lexer) := do
  let (first, lx) ← scanU64 file lx start
  if lx.atOctet then
    let (octets, lx) ← scanOctets file start lx.rest.length lx [first]
    if octets.length != 4 then
      .error (lexError file start
        ("expected a dotted quad, found " ++ toString octets.length ++ " parts"))
    else
      let v ← packOctets file start octets 0
      .ok (.ip (BitVec.ofNat 32 v), lx)
  else
    .ok (.num first, lx)

def isSymbol (c : UInt8) : Bool :=
  ['{', '}', ',', '/', '-', '!', '=', '@', '*', '(', ')'].any (fun s => c == ascii s)

def scanToken (start : Position) (c : UInt8) (rest : List UInt8) :
    Except ParseError (Tok × Lexer) :=
  if c == ascii '"' then
    match Lexer.scanString rest (start.after c) [] with
    | some (text, lx) => .ok (.str (String.ofList text), lx)
    | none => .error (lexError file start "unterminated string")
  else if isDigit c then
    scanNumberOrIp file { rest := c :: rest, pos := start } start
  else if isAlphabetic c || c == ascii '_' then
    let found := Lexer.scanWord (c :: rest) start
    .ok (.word (String.ofList found.1), found.2)
  else if isSymbol c then
    .ok (.sym (byteChar c), { rest := rest, pos := start.after c })
  else
    .error (lexError file start ("unexpected character `" ++ (byteChar c).toString ++ "`"))

/-- The main loop: the tokens from here on, and the one that ends the file.
`separated` says that the last token was a separator, or that there is none. -/
def lexFrom : Nat → Lexer → Bool → Except ParseError (List Token × Token)
  | 0, lx, _ => .ok ([], { tok := .eof, line := lx.pos.line, column := lx.pos.col })
  | fuel + 1, lx, separated =>
      let lx := Lexer.skipBlank lx.rest lx.pos false
      match lx.rest with
      | [] => .ok ([], { tok := .eof, line := lx.pos.line, column := lx.pos.col })
      | c :: rest =>
          if c == ascii '\n' || c == ascii ';' then do
            let (tokens, last) ← lexFrom fuel { rest := rest, pos := lx.pos.after c } true
            -- Runs of separators collapse, and none stands first.
            if separated then .ok (tokens, last)
            else .ok ({ tok := .brk, line := lx.pos.line, column := lx.pos.col } :: tokens, last)
          else do
            let (tok, later) ← scanToken file lx.pos c rest
            let (tokens, last) ← lexFrom fuel later false
            .ok ({ tok := tok, line := lx.pos.line, column := lx.pos.col } :: tokens, last)

/-- Split source into tokens: those before the end of the file, and that one. -/
def lex (src : String) : Except ParseError (List Token × Token) :=
  let bytes := src.toUTF8.data.toList
  lexFrom file bytes.length { rest := bytes, pos := { line := 1, col := 1 } } true

end Scan

/-! ### The end of the file is the last token -/

theorem scanNumberOrIp_ne_eof {file : String} {lx lx' : Lexer} {start : Position} {tok : Tok}
    (scanned : scanNumberOrIp file lx start = .ok (tok, lx')) : tok ≠ .eof := by
  unfold scanNumberOrIp at scanned
  obtain ⟨⟨first, afterFirst⟩, _, scanned⟩ := bind_eq_ok_iff.mp scanned
  simp only at scanned
  split at scanned
  · obtain ⟨⟨octets, afterOctets⟩, _, scanned⟩ := bind_eq_ok_iff.mp scanned
    simp only at scanned
    split at scanned
    · contradiction
    · obtain ⟨v, _, scanned⟩ := bind_eq_ok_iff.mp scanned
      injection scanned with same
      rw [← (Prod.mk.inj same).1]
      exact Tok.noConfusion
  · injection scanned with same
    rw [← (Prod.mk.inj same).1]
    exact Tok.noConfusion

theorem scanToken_ne_eof {file : String} {start : Position} {c : UInt8} {rest : List UInt8}
    {tok : Tok} {lx : Lexer} (scanned : scanToken file start c rest = .ok (tok, lx)) :
    tok ≠ .eof := by
  unfold scanToken at scanned
  split at scanned
  · split at scanned
    · injection scanned with same
      rw [← (Prod.mk.inj same).1]
      exact Tok.noConfusion
    · contradiction
  · split at scanned
    · exact scanNumberOrIp_ne_eof scanned
    · split at scanned
      · injection scanned with same
        rw [← (Prod.mk.inj same).1]
        exact Tok.noConfusion
      · split at scanned
        · injection scanned with same
          rw [← (Prod.mk.inj same).1]
          exact Tok.noConfusion
        · contradiction

/-- The lexer ends with the end of the file and puts it nowhere else. -/
theorem lexFrom_eof {file : String} {fuel : Nat} {lx : Lexer} {separated : Bool}
    {tokens : List Token} {last : Token}
    (lexed : lexFrom file fuel lx separated = .ok (tokens, last)) :
    (∀ t ∈ tokens, t.tok ≠ .eof) ∧ last.tok = .eof := by
  induction fuel generalizing lx separated tokens last with
  | zero =>
      injection lexed with same
      obtain ⟨rfl, rfl⟩ := Prod.mk.inj same
      simp
  | succ fuel ih =>
      rw [lexFrom] at lexed
      simp only at lexed
      split at lexed
      · injection lexed with same
        obtain ⟨rfl, rfl⟩ := Prod.mk.inj same
        simp
      · split at lexed
        · obtain ⟨⟨later, final⟩, found, lexed⟩ := bind_eq_ok_iff.mp lexed
          obtain ⟨inner, ends⟩ := ih found
          simp only at lexed
          split at lexed
          · injection lexed with same
            obtain ⟨rfl, rfl⟩ := Prod.mk.inj same
            exact ⟨inner, ends⟩
          · injection lexed with same
            obtain ⟨rfl, rfl⟩ := Prod.mk.inj same
            exact ⟨by simpa using inner, ends⟩
        · obtain ⟨⟨tok, next⟩, scanned, lexed⟩ := bind_eq_ok_iff.mp lexed
          obtain ⟨⟨later, final⟩, found, lexed⟩ := bind_eq_ok_iff.mp lexed
          obtain ⟨inner, ends⟩ := ih found
          injection lexed with same
          obtain ⟨rfl, rfl⟩ := Prod.mk.inj same
          exact ⟨by simpa using ⟨scanToken_ne_eof scanned, inner⟩, ends⟩

theorem lex_eof {file src : String} {tokens : List Token} {last : Token}
    (lexed : lex file src = .ok (tokens, last)) :
    (∀ t ∈ tokens, t.tok ≠ .eof) ∧ last.tok = .eof :=
  lexFrom_eof lexed

example : (lex "t.nft" "1024-65535 veth-b # a comment\n\n").toOption.map
    (fun found => found.1.map Token.tok) =
      some [.num 1024, .sym '-', .num 65535, .word "veth-b", .brk] := by
  decide +kernel

end Fwdelta.Nft
