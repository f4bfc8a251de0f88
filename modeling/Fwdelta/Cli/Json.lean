import Fwdelta.JsonGrammar

/-
The JSON writer.

One value to a line, two blanks for each level, and empty containers on one line.
Whatever is written is a document of the JSON grammar, and the value that it stands
for is the one that was written.
-/

namespace Fwdelta.Cli

open JsonGrammar

inductive Json
  | null
  | bool (value : Bool)
  | num (value : Nat)
  | str (text : String)
  | arr (items : List Json)
  | obj (fields : List (String × Json))

namespace Json

/-- A count that may not survive a double is printed as a string. -/
def big (value : Nat) : Json :=
  .str (toString value)

def opt (value : Option Json) : Json :=
  value.getD .null

/-! ### Writing -/

def pad (depth : Nat) : String :=
  String.join (List.replicate depth "  ")

/-- Four digits at least, in base 16. -/
def hex4 (n : Nat) : List Char :=
  List.replicate (4 - (Nat.toDigits 16 n).length) '0' ++ Nat.toDigits 16 n

def escapeChar : Char → String
  | '"' => "\\\""
  | '\\' => "\\\\"
  | '\n' => "\\n"
  | '\r' => "\\r"
  | '\t' => "\\t"
  | c => if c.toNat < 0x20 then "\\u" ++ String.ofList (hex4 c.toNat) else String.singleton c

def escape (s : String) : String :=
  "\"" ++ String.join (s.toList.map escapeChar) ++ "\""

/-- Between two lines, but not after the last one. -/
def comma {α : Type} (rest : List α) : String :=
  if rest.isEmpty then "" else ","

mutual

def write (depth : Nat) : Json → String
  | .null => "null"
  | .bool value => toString value
  | .num value => toString value
  | .str text => escape text
  | .arr items =>
      if items.isEmpty then "[]"
      else "[\n" ++ writeItems (depth + 1) items ++ pad depth ++ "]"
  | .obj fields =>
      if fields.isEmpty then "\x7b\x7d"
      else "\x7b\n" ++ writeFields (depth + 1) fields ++ pad depth ++ "\x7d"

def writeItems (depth : Nat) : List Json → String
  | [] => ""
  | item :: rest =>
      pad depth ++ write depth item ++ comma rest ++ "\n" ++ writeItems depth rest

def writeFields (depth : Nat) : List (String × Json) → String
  | [] => ""
  | (k, v) :: rest =>
      pad depth ++ escape k ++ ": " ++ write depth v ++ comma rest ++ "\n" ++
        writeFields depth rest

end

def render (j : Json) : String :=
  write 0 j ++ "\n"

/-! ### The value written -/

mutual

def tree : Json → Value
  | .null => .null
  | .bool value => .bool value
  | .num value => .num ⟨false, value, 0⟩
  | .str text => .str text
  | .arr items => .arr (treeItems items)
  | .obj fields => .obj (treeFields fields)

def treeItems : List Json → List Value
  | [] => []
  | item :: rest => item.tree :: treeItems rest

def treeFields : List (String × Json) → List (String × Value)
  | [] => []
  | (k, v) :: rest => (k, v.tree) :: treeFields rest

end

/-! ### Strings -/

theorem hex4_control : ∀ n < 32,
    hex4 n = ['0', '0', Nat.digitChar (n / 16), Nat.digitChar (n % 16)] := by
  decide

theorem hexValue_digitChar : ∀ n < 16, hexValue (Nat.digitChar n) = some n := by
  decide

theorem readUnicode_hex4 {n : Nat} (control : n < 32) (rest : List Char) :
    readUnicode (hex4 n ++ rest) = some (Char.ofNat n, rest) := by
  have zero : hexValue '0' = some 0 := by decide
  have value : (0 * 16 + 0) * 16 + n / 16 = n / 16 := by omega
  have whole : n / 16 * 16 + n % 16 = n := by omega
  rw [hex4_control n control]
  simp only [List.cons_append, List.nil_append, readUnicode, readHex, zero,
    hexValue_digitChar (n / 16) (by omega), hexValue_digitChar (n % 16) (by omega),
    Option.bind_eq_bind, Option.bind_some, value, whole]
  rw [if_neg (by omega), if_neg (by omega)]

theorem readChar_plain {c : Char} (printed : ¬ c.toNat < 0x20) (noQuote : c ≠ '"')
    (noBackslash : c ≠ '\\') (rest : List Char) : readChar (c :: rest) = some (c, rest) := by
  unfold readChar
  split
  · next text same => exact absurd (List.cons.inj same).1 noBackslash
  · next d text _ same => exact absurd (List.cons.inj same).1 noBackslash
  · next d text _ _ same =>
      obtain ⟨rfl, rfl⟩ := List.cons.inj same
      rw [if_neg]
      exact fun either => either.elim printed (fun mark => mark.elim noQuote noBackslash)
  · next same => exact absurd same (List.cons_ne_nil c rest)

/-- Every character is read back, escaped or not. -/
theorem readChar_escapeChar (c : Char) (rest : List Char) :
    readChar ((escapeChar c).toList ++ rest) = some (c, rest) := by
  unfold escapeChar
  split
  · simp [readChar, shortEscape]
  · simp [readChar, shortEscape]
  · simp [readChar, shortEscape]
  · simp [readChar, shortEscape]
  · simp [readChar, shortEscape]
  · next noQuote noBackslash _ _ _ =>
      split
      · next control =>
          have escaped := readUnicode_hex4 control rest
          rw [Char.ofNat_toNat] at escaped
          simpa [readChar] using escaped
      · next printed =>
          rw [String.toList_singleton]
          exact readChar_plain printed noQuote noBackslash rest

theorem readsChars_escape (cs rest : List Char) :
    ReadsChars ((String.join (cs.map escapeChar)).toList ++ '"' :: rest) cs rest := by
  induction cs with
  | nil => exact .close rest
  | cons c cs ih =>
      rw [List.map_cons, String.join_cons, String.toList_append, List.append_assoc]
      exact .char (readChar_escapeChar c _) ih

theorem toList_escape (s : String) :
    (escape s).toList = '"' :: ((String.join (s.toList.map escapeChar)).toList ++ ['"']) := by
  simp [escape]

/-! ### Values -/

theorem skip_pad (depth : Nat) (text : List Char) :
    skip ((pad depth).toList ++ text) = skip text := by
  apply skip_append
  intro c member
  unfold pad at member
  induction depth with
  | zero => simp at member
  | succ depth ih =>
      rw [List.replicate_succ, String.join_cons, String.toList_append, List.mem_append] at member
      rcases member with blank | later
      · simp at blank
        rw [blank]
        rfl
      · exact ih later

/-- A line of a container ends where the next one starts. -/
def lineEnd {α : Type} (rest : List α) (more : List Char) : List Char :=
  (comma rest).toList ++ '\n' :: more

theorem lineEnd_nil {α : Type} (more : List Char) : lineEnd ([] : List α) more = '\n' :: more := by
  simp [lineEnd, comma]

theorem lineEnd_cons {α : Type} (next : α) (later : List α) (more : List Char) :
    lineEnd (next :: later) more = ',' :: '\n' :: more := by
  simp [lineEnd, comma]

theorem endsNumber_lineEnd {α : Type} (rest : List α) (more : List Char) :
    EndsNumber (lineEnd rest more) := by
  cases rest with
  | nil =>
      rw [lineEnd_nil]
      exact endsNumber_cons (by decide) (by decide) (by decide) more
  | cons next later =>
      rw [lineEnd_cons]
      exact endsNumber_cons (by decide) (by decide) (by decide) _

theorem skip_newline (more : List Char) : skip ('\n' :: more) = skip more :=
  skip_cons_space (by decide) more

theorem toList_writeItems_cons (depth : Nat) (item : Json) (later : List Json)
    (close : List Char) :
    (writeItems depth (item :: later)).toList ++ close =
      (pad depth).toList ++ ((item.write depth).toList ++
        lineEnd later ((writeItems depth later).toList ++ close)) := by
  simp [writeItems, lineEnd]

theorem toList_writeFields_cons (depth : Nat) (k : String) (v : Json)
    (later : List (String × Json)) (close : List Char) :
    (writeFields depth ((k, v) :: later)).toList ++ close =
      (pad depth).toList ++ ((escape k).toList ++ ':' :: ' ' :: ((v.write depth).toList ++
        lineEnd later ((writeFields depth later).toList ++ close))) := by
  simp [writeFields, lineEnd]

theorem readsField_escape (k : String) {text rest : List Char} {v : Value}
    (value : Reads text v rest) :
    ReadsField ((escape k).toList ++ ':' :: ' ' :: text) (k, v) rest := by
  rw [toList_escape, List.cons_append, List.append_assoc]
  have spaced : Reads (skip (' ' :: text)) v rest := by
    rwa [skip_cons_space (by decide), value.skip_eq]
  have field := ReadsField.field (readsChars_escape k.toList _) (skip_cons (by decide) _) spaced
  rwa [String.ofList_toList] at field

mutual

/-- Whatever cannot continue a number may follow a value. -/
theorem reads_write (depth : Nat) (j : Json) {rest : List Char} (ends : EndsNumber rest) :
    Reads ((j.write depth).toList ++ rest) j.tree rest := by
  cases j with
  | null => simpa [write, tree] using Reads.null rest
  | bool value =>
      cases value with
      | true => simpa [write, tree, toString] using Reads.yes rest
      | false => simpa [write, tree, toString] using Reads.no rest
  | num value =>
      rw [write, tree, Nat.toString_eq_ofList_toDigits, String.toList_ofList]
      exact .num (readNumber_toDigits value ends)
  | str text =>
      rw [write, tree, toList_escape, List.cons_append, List.append_assoc]
      have reads := Reads.str (readsChars_escape text.toList rest)
      rwa [String.ofList_toList] at reads
  | arr items =>
      rw [write, tree]
      by_cases empty : items = []
      · rw [empty]
        simpa [treeItems] using Reads.noItems (skip_cons (by decide) rest)
      · have close : skip ((pad depth).toList ++ ']' :: rest) = ']' :: rest := by
          rw [skip_pad, skip_cons (by decide)]
        have inner := readsItems_writeItems (depth + 1) items empty close
        have text : (if items.isEmpty then "[]"
            else "[\n" ++ writeItems (depth + 1) items ++ pad depth ++ "]").toList ++ rest =
            '[' :: '\n' :: ((writeItems (depth + 1) items).toList ++
              ((pad depth).toList ++ ']' :: rest)) := by
          simp [empty]
        rw [text]
        apply Reads.arr
        rwa [skip_newline]
  | obj fields =>
      rw [write, tree]
      by_cases empty : fields = []
      · rw [empty]
        simpa [treeFields] using Reads.noFields (skip_cons (by decide) rest)
      · have close : skip ((pad depth).toList ++ '}' :: rest) = '}' :: rest := by
          rw [skip_pad, skip_cons (by decide)]
        have inner := readsFields_writeFields (depth + 1) fields empty close
        have text : (if fields.isEmpty then "\x7b\x7d"
            else "\x7b\n" ++ writeFields (depth + 1) fields ++ pad depth ++ "\x7d").toList ++ rest =
            '{' :: '\n' :: ((writeFields (depth + 1) fields).toList ++
              ((pad depth).toList ++ '}' :: rest)) := by
          simp [empty]
        rw [text]
        apply Reads.obj
        rwa [skip_newline]

/-- The lines of an array, and then its closing bracket. -/
theorem readsItems_writeItems (depth : Nat) (items : List Json) (nonempty : items ≠ [])
    {close rest : List Char} (closed : skip close = ']' :: rest) :
    ReadsItems (skip ((writeItems depth items).toList ++ close)) (treeItems items) rest := by
  cases items with
  | nil => contradiction
  | cons item later =>
      have first := reads_write depth item (endsNumber_lineEnd later
        ((writeItems depth later).toList ++ close))
      rw [toList_writeItems_cons, skip_pad, first.skip_eq, treeItems]
      by_cases last : later = []
      · subst last
        rw [lineEnd_nil] at first ⊢
        apply ReadsItems.last first
        rw [skip_newline]
        simpa [writeItems] using closed
      · have rest := readsItems_writeItems depth later last closed
        cases later with
        | nil => contradiction
        | cons next more =>
            rw [lineEnd_cons] at first ⊢
            apply ReadsItems.next first (skip_cons (by decide) _)
            rwa [skip_newline]

/-- The lines of an object, and then its closing brace. -/
theorem readsFields_writeFields (depth : Nat) (fields : List (String × Json))
    (nonempty : fields ≠ []) {close rest : List Char} (closed : skip close = '}' :: rest) :
    ReadsFields (skip ((writeFields depth fields).toList ++ close)) (treeFields fields) rest := by
  cases fields with
  | nil => contradiction
  | cons field later =>
      obtain ⟨k, v⟩ := field
      have value := reads_write depth v (endsNumber_lineEnd later
        ((writeFields depth later).toList ++ close))
      have first := readsField_escape k value
      rw [toList_writeFields_cons, skip_pad, first.skip_eq, treeFields]
      by_cases last : later = []
      · subst last
        rw [lineEnd_nil] at first ⊢
        apply ReadsFields.last first
        rw [skip_newline]
        simpa [writeFields] using closed
      · have rest := readsFields_writeFields depth later last closed
        cases later with
        | nil => contradiction
        | cons next more =>
            rw [lineEnd_cons] at first ⊢
            apply ReadsFields.next first (skip_cons (by decide) _)
            rwa [skip_newline]

end

/-- A rendered value is a document that stands for the value, and for nothing else. -/
theorem render_decodes (j : Json) (v : Value) : Document j.render.toList v ↔ v = j.tree := by
  have reads := reads_write 0 j (endsNumber_cons (by decide) (by decide) (by decide) [] :
    EndsNumber ['\n'])
  have document : Document j.render.toList j.tree := by
    refine ⟨['\n'], ?_, rfl⟩
    rw [render, String.toList_append, show "\n".toList = ['\n'] by simp, reads.skip_eq]
    exact reads
  constructor
  · exact fun other => other.unique document
  · intro same
    rw [same]
    exact document

end Json

end Fwdelta.Cli
