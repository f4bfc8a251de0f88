import Fwdelta.Nft.Unambiguous
import Fwdelta.Nft.Meaning

/-
The documented statement grammar.

The parser reads more than the documentation says: it drops the errors of the
numbers after `counter`, takes a lone `!` for `!=`, knows options of `log` that
are not documented, and lets `log` take any word for the value of an option.  The
documented grammar is given here on its own, and a rule is derivable in it exactly
when the parser's reading has none of these.
-/

namespace Fwdelta.Nft

open Lookahead

/-! ### The grammar -/

/-- The words that start a supported match, statement or verdict. -/
def statementKeywords : List String :=
  ["ip", "meta", "tcp", "udp", "iifname", "counter", "comment", "log", "accept", "drop", "reject"]

/-- The words that start a match or a verdict that is rejected. -/
def rejectedKeywords : List String :=
  ["sctp", "dccp", "udplite", "oifname", "iif", "oif", "ct", "limit", "quota", "jump", "goto",
    "return", "queue", "dup", "fwd", "notrack", "snat", "dnat", "masquerade", "redirect"]

def documentedOptions : List String :=
  ["prefix", "level", "flags"]

/-- A value of a `log` option: a string, a number, or a word that is no keyword. -/
def isPlainLogValue : Tok → Bool
  | .word w => !(statementKeywords ++ rejectedKeywords).contains w
  | .str _ | .num _ => true
  | _ => false

structure DocOption where
  name : String
  documented : name ∈ documentedOptions
  value : Option Tok
  plain : ∀ t ∈ value, isPlainLogValue t = true

def DocOption.yield (option : DocOption) : List Tok :=
  .word option.name :: option.value.toList

inductive DocStmt
  | saddr (negated : Bool) (value : Value AddrAtom)
  | daddr (negated : Bool) (value : Value AddrAtom)
  | protocol (negated : Bool) (value : Value ProtoAtom)
  | l4proto (negated : Bool) (value : Value ProtoAtom)
  | metaIifname (negated : Bool) (value : Value IfAtom)
  | ports (l4 : L4) (side : PortSide) (negated : Bool) (value : Value PortAtom)
  | iifname (negated : Bool) (value : Value IfAtom)
  | counter
  | counterPackets (packets : Nat)
  | counterBytes (packets bytes : Nat)
  | comment (text : String)
  | log (options : List DocOption)
  | accept
  | drop
  | reject
  | rejectWith (reason : Reason)

def notEqual (negated : Bool) : List Tok :=
  if negated then [.sym '!', .sym '='] else []

namespace DocStmt

def yield : DocStmt → List Tok
  | .saddr negated value =>
      .word "ip" :: .word "saddr" :: (notEqual negated ++ value.yield AddrAtom.form)
  | .daddr negated value =>
      .word "ip" :: .word "daddr" :: (notEqual negated ++ value.yield AddrAtom.form)
  | .protocol negated value =>
      .word "ip" :: .word "protocol" :: (notEqual negated ++ value.yield ProtoAtom.form)
  | .l4proto negated value =>
      .word "meta" :: .word "l4proto" :: (notEqual negated ++ value.yield ProtoAtom.form)
  | .metaIifname negated value =>
      .word "meta" :: .word "iifname" :: (notEqual negated ++ value.yield IfAtom.form)
  | .ports l4 side negated value =>
      .word l4.text :: .word side.text :: (notEqual negated ++ value.yield PortAtom.form)
  | .iifname negated value => .word "iifname" :: (notEqual negated ++ value.yield IfAtom.form)
  | .counter => [.word "counter"]
  | .counterPackets packets => [.word "counter", .word "packets", .num packets]
  | .counterBytes packets bytes =>
      [.word "counter", .word "packets", .num packets, .word "bytes", .num bytes]
  | .comment text => [.word "comment", .str text]
  | .log options => .word "log" :: options.flatMap DocOption.yield
  | .accept => [.word "accept"]
  | .drop => [.word "drop"]
  | .reject => [.word "reject"]
  | .rejectWith reason => .word "reject" :: .word "with" :: reason.tokens

/-- An option of `log` has its value whenever the token after it can be one, and
`reject with` takes everything to the end of the statement. -/
def Follow : DocStmt → Tok → Prop
  | .log options, next => Followed DocOption.yield
      (fun option next => option.value = none → isLogValue next = false) options next
  | .rejectWith _, next => endsStatement next = true
  | _, _ => True

def verdict : DocStmt → Option Action
  | .accept => some .accept
  | .drop => some .drop
  | .reject | .rejectWith _ => some .reject
  | _ => none

end DocStmt

def LogOption.Documented (option : LogOption) : Prop :=
  option.name ∈ documentedOptions ∧ ∀ t ∈ option.value, isPlainLogValue t = true

/-- A token that ends a statement: the end of the line, or the next keyword. -/
def Boundary (next : Tok) : Prop :=
  endsStatement next = true ∨ ∃ w ∈ statementKeywords, next = .word w

theorem Boundary.ne_sym {next : Tok} (boundary : Boundary next) {c : Char} (notBrace : c ≠ '}') :
    next ≠ .sym c := by
  rintro rfl
  rcases boundary with ends | ⟨w, _, same⟩
  · unfold endsStatement at ends
    split at ends
    · contradiction
    · contradiction
    · next same => exact notBrace (Tok.sym.inj same)
    · contradiction
  · contradiction

theorem Boundary.ne_word {next : Tok} (boundary : Boundary next) {w : String}
    (noKeyword : w ∉ statementKeywords) : next ≠ .word w := by
  rintro rfl
  rcases boundary with ends | ⟨w, listed, same⟩
  · contradiction
  · exact noKeyword (Tok.word.inj same ▸ listed)

section ValueFollow

variable {α β : Type} {form : Form α β} {next : Tok}

end ValueFollow

end Fwdelta.Nft
