import Fwdelta.Nft.Lexed
import Mathlib.Data.List.Induction

/-
How far the lexer gets.

Every round of its two loops takes a byte, so the bound on the rounds never ends
them.  The line and the column are 32-bit counters that follow the bytes taken: a
source shorter than 4 GiB overflows them in one case only, when it is one byte
short of that and has a single line, or nothing but newlines.
-/

namespace Fwdelta.Nft

open Fallible (bind_eq_ok_iff)
open Lexer (Moves)

/-! ### The loops end by themselves -/

theorem Lexer.length_bump_lt {lx : Lexer} (atOctet : lx.atOctet = true) :
    lx.bump.rest.length < lx.rest.length := by
  unfold Lexer.atOctet at atOctet
  unfold Lexer.bump
  split at atOctet
  · next c d rest bytes =>
      rw [bytes]
      exact Nat.lt_succ_self _
  · contradiction

/-- More rounds than there are bytes left change nothing. -/
theorem scanOctets_enough (file : String) (start : Position) (extra fuel : Nat) (lx : Lexer)
    (octets : List Nat) (enough : lx.rest.length ≤ fuel) :
    scanOctets file start (fuel + extra) lx octets = scanOctets file start fuel lx octets := by
  induction fuel generalizing lx octets with
  | zero =>
      have empty : lx.rest = [] := List.length_eq_zero_iff.mp (Nat.le_zero.mp enough)
      have atOctet : lx.atOctet = false := by
        unfold Lexer.atOctet
        rw [empty]
      cases extra with
      | zero => rfl
      | succ extra =>
          rw [Nat.zero_add, scanOctets, scanOctets, if_neg (Bool.eq_false_iff.mp atOctet)]
  | succ fuel ih =>
      rw [Nat.succ_add, scanOctets, scanOctets]
      split
      · next atOctet =>
          have shorter := Lexer.length_bump_lt atOctet
          cases first : scanU64 file lx.bump start with
          | error e => rfl
          | ok found =>
              have later := (scanU64_moves first).2
              exact ih found.2 _ (by omega)
      · rfl

theorem lexFrom_enough (file : String) (extra fuel : Nat) (lx : Lexer) (separated : Bool)
    (enough : lx.rest.length ≤ fuel) :
    lexFrom file (fuel + extra) lx separated = lexFrom file fuel lx separated := by
  induction fuel generalizing lx separated with
  | zero =>
      have empty : lx.rest = [] := List.length_eq_zero_iff.mp (Nat.le_zero.mp enough)
      cases extra with
      | zero => rfl
      | succ extra =>
          rw [Nat.zero_add, lexFrom, lexFrom, empty, Lexer.skipBlank]
  | succ fuel ih =>
      have blank : (Lexer.skipBlank lx.rest lx.pos false).rest.length ≤ lx.rest.length :=
        (skipBlank_moves lx.rest lx.pos false).suffix.length_le
      rw [Nat.succ_add, lexFrom, lexFrom]
      dsimp only
      split
      · rfl
      · next c rest bytes =>
          rw [bytes, List.length_cons] at blank
          split
          · rw [ih _ true (by dsimp only; omega)]
          · cases scanned : scanToken file (Lexer.skipBlank lx.rest lx.pos false).pos c rest with
            | error e => rfl
            | ok found =>
                have later := (scanToken_moves scanned).2
                have same := ih found.2 false (by omega)
                simp only [bind, Except.bind, same]

/-! ### Lines and columns -/

/-- Where the lexer is once it has taken these bytes. -/
def positionAfter (taken : List UInt8) : Position :=
  taken.foldl Position.after { line := 1, col := 1 }

/-- `bump` on the counters, which panics when one of them overflows. -/
def Position.advance (p : Position) (c : UInt8) : Option Position :=
  let next := p.after c
  if next.line < 2 ^ 32 ∧ next.col < 2 ^ 32 then some next else none

theorem positionAfter_concat (taken : List UInt8) (c : UInt8) :
    positionAfter (taken ++ [c]) = (positionAfter taken).after c := by
  rw [positionAfter, List.foldl_append]
  rfl

theorem advance_eq_some_iff {p q : Position} {c : UInt8} :
    p.advance c = some q ↔ q = p.after c ∧ q.line < 2 ^ 32 ∧ q.col < 2 ^ 32 := by
  unfold Position.advance
  dsimp only
  split
  · next fits =>
      constructor
      · intro same
        obtain rfl := Option.some.inj same
        exact ⟨rfl, fits⟩
      · rintro ⟨rfl, _⟩
        rfl
  · next overflows =>
      constructor
      · intro absent
        contradiction
      · rintro ⟨rfl, fits⟩
        exact absurd fits overflows

def isNewline (c : UInt8) : Bool := c == ascii '\n'

theorem line_positionAfter (taken : List UInt8) :
    (positionAfter taken).line = taken.countP isNewline + 1 := by
  induction taken using List.reverseRecOn with
  | nil => rfl
  | append_singleton front c ih =>
      rw [positionAfter_concat, List.countP_append, List.countP_singleton, Position.after]
      by_cases newline : (c == ascii '\n') = true
      · rw [if_pos newline, if_pos (show isNewline c = true from newline)]
        dsimp only
        omega
      · rw [if_neg newline, if_neg (show ¬ isNewline c = true from newline)]
        exact ih

theorem col_positionAfter_le (taken : List UInt8) :
    (positionAfter taken).col ≤ taken.countP (fun c => !isNewline c) + 1 := by
  induction taken using List.reverseRecOn with
  | nil => exact Nat.le_refl _
  | append_singleton front c ih =>
      rw [positionAfter_concat, List.countP_append, List.countP_singleton, Position.after]
      by_cases newline : (c == ascii '\n') = true
      · rw [if_pos newline]
        exact Nat.le_add_left _ _
      · have other : (!isNewline c) = true := by
          rw [Bool.not_eq_true', isNewline]
          exact Bool.eq_false_iff.mpr newline
        rw [if_neg newline, if_pos other]
        dsimp only
        omega

/-- The counters do not overflow while neither the newlines nor the other bytes
taken fill a 32-bit number. -/
theorem foldlM_advance (taken : List UInt8) (lines : taken.countP isNewline + 1 < 2 ^ 32)
    (columns : taken.countP (fun c => !isNewline c) + 1 < 2 ^ 32) :
    taken.foldlM Position.advance { line := 1, col := 1 } = some (positionAfter taken) := by
  induction taken using List.reverseRecOn with
  | nil => rfl
  | append_singleton front c ih =>
      have line := line_positionAfter (front ++ [c])
      have column := col_positionAfter_le (front ++ [c])
      have part := List.sublist_append_left front [c]
      have fewer := part.countP_le (p := isNewline)
      have fewerOthers := part.countP_le (p := fun c => !isNewline c)
      rw [List.foldlM_append, ih (by omega) (by omega)]
      have step : (positionAfter front).advance c = some (positionAfter (front ++ [c])) := by
        rw [advance_eq_some_iff]
        exact ⟨positionAfter_concat front c, by omega, by omega⟩
      exact congrArg (· >>= fun p => pure p) step

/-! ### The tokens of a source -/

/-- The lexer comes by the place of the token. -/
def Token.Ahead (lx : Lexer) (t : Token) : Prop :=
  ∃ at_ : Lexer, lx.Moves at_ ∧ at_.pos = { line := t.line, col := t.column }

theorem Token.Ahead.before {lx middle : Lexer} {t : Token} (ahead : t.Ahead middle)
    (moves : lx.Moves middle) : t.Ahead lx := by
  obtain ⟨at_, later, place⟩ := ahead
  exact ⟨at_, moves.trans later, place⟩

/-- Every token stands at a place that the lexer comes by, and costs a byte. -/
theorem lexFrom_ahead {file : String} {fuel : Nat} {lx : Lexer} {separated : Bool}
    {tokens : List Token} {last : Token}
    (lexed : lexFrom file fuel lx separated = .ok (tokens, last)) :
    (∀ t ∈ last :: tokens, t.Ahead lx) ∧ tokens.length ≤ lx.rest.length := by
  induction fuel generalizing lx separated tokens last with
  | zero =>
      obtain ⟨rfl, rfl⟩ := Prod.mk.inj (Except.ok.inj lexed)
      simpa using ⟨lx, Moves.refl lx, rfl⟩
  | succ fuel ih =>
      have blank : lx.Moves (Lexer.skipBlank lx.rest lx.pos false) :=
        skipBlank_moves lx.rest lx.pos false
      rw [lexFrom] at lexed
      dsimp only at lexed
      generalize Lexer.skipBlank lx.rest lx.pos false = middle at lexed blank
      have shorter := blank.suffix.length_le
      -- A token found here, before those of the rest.
      have here (k : Tok) :
          Token.Ahead lx { tok := k, line := middle.pos.line, column := middle.pos.col } :=
        ⟨middle, blank, rfl⟩
      split at lexed
      · obtain ⟨rfl, rfl⟩ := Prod.mk.inj (Except.ok.inj lexed)
        simpa using here .eof
      · next c rest bytes =>
          have whole : middle = { rest := c :: rest, pos := middle.pos } := by rw [← bytes]
          rw [bytes, List.length_cons] at shorter
          split at lexed
          · obtain ⟨⟨later, final⟩, found, lexed⟩ := bind_eq_ok_iff.mp lexed
            obtain ⟨ahead, count⟩ := ih found
            have over_ : lx.Moves { rest := rest, pos := middle.pos.after c } := by
              rw [whole] at blank
              exact blank.trans (Moves.byte (.refl _))
            have after (t : Token) (member : t ∈ final :: later) : t.Ahead lx :=
              (ahead t member).before over_
            dsimp only at lexed count
            split at lexed
            · obtain ⟨rfl, rfl⟩ := Prod.mk.inj (Except.ok.inj lexed)
              exact ⟨after, by omega⟩
            · obtain ⟨rfl, rfl⟩ := Prod.mk.inj (Except.ok.inj lexed)
              rw [List.forall_mem_cons] at after
              simpa [here] using ⟨after, by omega⟩
          · obtain ⟨⟨k, next⟩, scanned, lexed⟩ := bind_eq_ok_iff.mp lexed
            obtain ⟨⟨later, final⟩, found, lexed⟩ := bind_eq_ok_iff.mp lexed
            obtain ⟨moves, taken⟩ := scanToken_moves scanned
            obtain ⟨ahead, count⟩ := ih found
            have after (t : Token) (member : t ∈ final :: later) : t.Ahead lx := by
              rw [whole] at blank
              exact (ahead t member).before (blank.trans moves)
            dsimp only at taken count
            obtain ⟨rfl, rfl⟩ := Prod.mk.inj (Except.ok.inj lexed)
            rw [List.forall_mem_cons] at after
            simpa [here] using ⟨after, by omega⟩

/-! ### A source with one line -/

/-- A line of `n` blanks. -/
def blankLine (n : Nat) : String :=
  String.ofList (List.replicate n ' ')

theorem encode_blankLine (n : Nat) :
    Utf8.encode (blankLine n).toList = List.replicate n (ascii ' ') := by
  unfold blankLine
  rw [String.toList_ofList]
  induction n with
  | zero => rfl
  | succ n ih =>
      rw [List.replicate_succ, Utf8.encode_cons_of_lt (by decide), ih]
      rfl

theorem positionAfter_blanks (n : Nat) :
    positionAfter (List.replicate n (ascii ' ')) = { line := 1, col := n + 1 } := by
  induction n with
  | zero => rfl
  | succ n ih =>
      rw [List.replicate_succ', positionAfter_concat, ih]
      rfl

theorem skipBlank_blanks (n : Nat) (p : Position) :
    Lexer.skipBlank (List.replicate n (ascii ' ')) p false =
      { rest := [], pos := (List.replicate n (ascii ' ')).foldl Position.after p } := by
  induction n generalizing p with
  | zero => rfl
  | succ n ih =>
      rw [List.replicate_succ, skipBlank_space, ih]
      rfl

/-- The lexer takes a line of blanks to its end. -/
theorem lex_blankLine (file : String) (n : Nat) :
    lex file (blankLine n) = .ok ([], { tok := .eof, line := 1, column := n + 1 }) := by
  have place := positionAfter_blanks n
  have swept : Lexer.skipBlank (List.replicate n (ascii ' ')) { line := 1, col := 1 } false =
      { rest := [], pos := { line := 1, col := n + 1 } } := by
    rw [← place]
    exact skipBlank_blanks n _
  unfold lex
  dsimp only
  rw [Utf8.toUTF8_toList, encode_blankLine, List.length_replicate]
  cases n with
  | zero => rfl
  | succ n =>
      rw [lexFrom]
      simp only [swept]

end Fwdelta.Nft
