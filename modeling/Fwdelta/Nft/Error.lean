import Fwdelta.Text

/-
Parse failures that point at the line responsible.

How an error is displayed is left out: nothing modelled reads the display.
-/

namespace Fwdelta.Nft

inductive Cause
  | syntaxError
  | outOfScope
  | unimplemented
  | soundness
  deriving DecidableEq, Repr

/-- A rejection, with enough context to fix it without reading the source. -/
structure ParseError where
  file : String
  line : Nat
  column : Nat
  cause : Cause
  message : String
  snippet : String
  hint : Option String
  deriving DecidableEq, Repr

namespace ParseError

def new (file : String) (line column : Nat) (cause : Cause) (message : String) :
    ParseError where
  file := file
  line := line
  column := column
  cause := cause
  message := message
  snippet := ""
  hint := none

def withHint (error : ParseError) (hint : String) : ParseError :=
  { error with hint := some hint }

def withSource (error : ParseError) (source : String) : ParseError :=
  match (Text.lines source)[error.line - 1]? with
  | some line => { error with snippet := line }
  | none => error

end ParseError

end Fwdelta.Nft
