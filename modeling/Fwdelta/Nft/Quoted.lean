import Fwdelta.Nft.Spelling

/-
Quoted strings.

The lexer takes the bytes of a string for characters.  A string of 7-bit characters
keeps its contents, and no other does.
-/

namespace Fwdelta.Nft

/-- The text in double quotes, with its quotes and backslashes escaped. -/
def quotedForm (text : String) : String :=
  String.ofList ('"' :: (text.toList.flatMap quotedChar ++ ['"']))

/-- The text lexes to these kinds of tokens, the last of them included. -/
def LexesTo (file src : String) (kinds : List Tok) : Prop :=
  ∃ tokens last, lex file src = .ok (tokens, last) ∧ (tokens ++ [last]).map Token.tok = kinds

theorem LexesTo.unique {file src : String} {kinds others : List Tok}
    (first : LexesTo file src kinds) (second : LexesTo file src others) : kinds = others := by
  obtain ⟨tokens, last, lexed, rfl⟩ := first
  obtain ⟨tokens', last', lexed', rfl⟩ := second
  rw [lexed] at lexed'
  obtain ⟨rfl, rfl⟩ := Prod.mk.inj (Except.ok.inj lexed')
  rfl

/-- What the lexer makes of a quoted string: each of its bytes as a character. -/
theorem lexesTo_quotedForm (file text : String) :
    LexesTo file (quotedForm text) [.str (String.ofList (Utf8.reread text.toList)), .eof] := by
  have lexes : Lexes (quotedForm text).toList true
      [.str (String.ofList (Utf8.reread text.toList))] := by
    have scanned := Lexes.token (scans_quoted text.toList []) (lexes_nil false) true
    rw [List.append_nil] at scanned
    rwa [quotedForm, String.toList_ofList]
  obtain ⟨tokens, last, lexed, kinds⟩ := lexes.lex file
  refine ⟨tokens, last, lexed, ?_⟩
  rw [List.map_append, List.map_singleton, kinds, (lex_eof lexed).2]
  rfl

theorem reread_eq_iff (text : String) :
    String.ofList (Utf8.reread text.toList) = text ↔ ∀ c ∈ text.toList, c.toNat < 128 := by
  rw [← String.toList_inj, String.toList_ofList]
  constructor
  · intro same
    exact Utf8.all_of_length_reread (congrArg List.length same)
  · exact Utf8.reread_of_all

/-- A quoted string keeps its contents exactly when its characters are 7-bit ones. -/
theorem quoted_string_survives_iff (file text : String) :
    LexesTo file (quotedForm text) [.str text, .eof] ↔ ∀ c ∈ text.toList, c.toNat < 128 := by
  rw [← reread_eq_iff]
  constructor
  · intro kept
    have same := (lexesTo_quotedForm file text).unique kept
    exact Tok.str.inj (List.cons.inj same).1
  · intro same
    have kept := lexesTo_quotedForm file text
    rwa [same] at kept

/-- The name of an interface that is one letter outside of ASCII. -/
theorem accented_name_is_garbled :
    ¬ ∀ file text : String, LexesTo file (quotedForm text) [.str text, .eof] := by
  intro kept
  have same := (lexesTo_quotedForm "t.nft" "é").unique (kept "t.nft" "é")
  have low := (reread_eq_iff "é").mp (Tok.str.inj (List.cons.inj same).1) 'é' (by simp)
  exact absurd low (by decide)

end Fwdelta.Nft
