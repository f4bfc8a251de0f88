import Mathlib.Data.List.TakeWhile
import Mathlib.Data.Nat.Notation
import Mathlib.Tactic.Common

/-
The JSON grammar, and what its texts stand for.

The tokens are read by functions, each of which returns what follows the token; the
values are read by relations over them.  White space is skipped as far as it goes and
a number is read as far as it goes, since no token begins with white space and no
number is followed by a character of a number.  A text stands for one value at most.
-/

namespace JsonGrammar

/-- The digits of a number without its point, and the power of ten they count. -/
structure Number where
  negative : Bool
  digits : Nat
  exponent : Int
  deriving DecidableEq, Repr

inductive Value
  | null
  | bool (value : Bool)
  | num (value : Number)
  | str (text : String)
  | arr (items : List Value)
  | obj (fields : List (String × Value))

/-! ### White space and numbers -/

def isSpace (c : Char) : Bool :=
  c == ' ' || c == '\t' || c == '\n' || c == '\r'

def skip (text : List Char) : List Char :=
  text.dropWhile isSpace

/-- One digit or more. -/
def readDigits (text : List Char) : Option (List Char × List Char) :=
  if (text.takeWhile Char.isDigit).isEmpty then none
  else some (text.takeWhile Char.isDigit, text.dropWhile Char.isDigit)

/-- Zero, or digits that do not begin with zero. -/
def readInteger (text : List Char) : Option (List Char × List Char) :=
  match readDigits text with
  | some ('0' :: _ :: _, _) => none
  | other => other

def readFraction : List Char → Option (List Char × List Char)
  | '.' :: text => readDigits text
  | text => some ([], text)

def readPower (negative : Bool) (text : List Char) : Option (Int × List Char) := do
  let (digits, rest) ← readDigits text
  let power : Int := Nat.ofDigitChars 10 digits 0
  some (if negative then -power else power, rest)

def readSigned : List Char → Option (Int × List Char)
  | '+' :: text => readPower false text
  | '-' :: text => readPower true text
  | text => readPower false text

def readExponent : List Char → Option (Int × List Char)
  | 'e' :: text => readSigned text
  | 'E' :: text => readSigned text
  | text => some (0, text)

def readUnsigned (negative : Bool) (text : List Char) : Option (Number × List Char) := do
  let (integer, text) ← readInteger text
  let (fraction, text) ← readFraction text
  let (exponent, rest) ← readExponent text
  some (⟨negative, Nat.ofDigitChars 10 (integer ++ fraction) 0, exponent - fraction.length⟩, rest)

def readNumber : List Char → Option (Number × List Char)
  | '-' :: text => readUnsigned true text
  | text => readUnsigned false text

/-! ### Strings -/

def hexValue (c : Char) : Option Nat :=
  if '0' ≤ c ∧ c ≤ '9' then some (c.toNat - '0'.toNat)
  else if 'a' ≤ c ∧ c ≤ 'f' then some (c.toNat - 'a'.toNat + 10)
  else if 'A' ≤ c ∧ c ≤ 'F' then some (c.toNat - 'A'.toNat + 10)
  else none

def readHex : List Char → Option (Nat × List Char)
  | a :: b :: c :: d :: rest => do
      let a ← hexValue a
      let b ← hexValue b
      let c ← hexValue c
      let d ← hexValue d
      some (((a * 16 + b) * 16 + c) * 16 + d, rest)
  | _ => none

/-- The second half of a pair of surrogates. -/
def readLow (high : Nat) : List Char → Option (Char × List Char)
  | '\\' :: 'u' :: text => do
      let (low, rest) ← readHex text
      if 0xDC00 ≤ low ∧ low ≤ 0xDFFF then
        some (Char.ofNat (0x10000 + (high - 0xD800) * 0x400 + (low - 0xDC00)), rest)
      else none
  | _ => none

/-- A character by its code units.  A surrogate without its partner is no character. -/
def readUnicode (text : List Char) : Option (Char × List Char) := do
  let (unit, rest) ← readHex text
  if 0xD800 ≤ unit ∧ unit ≤ 0xDBFF then readLow unit rest
  else if 0xDC00 ≤ unit ∧ unit ≤ 0xDFFF then none
  else some (Char.ofNat unit, rest)

def shortEscape : Char → Option Char
  | '"' => some '"'
  | '\\' => some '\\'
  | '/' => some '/'
  | 'b' => some '\x08'
  | 'f' => some '\x0c'
  | 'n' => some '\n'
  | 'r' => some '\r'
  | 't' => some '\t'
  | _ => none

/-- One character of a string, as it is or escaped. -/
def readChar : List Char → Option (Char × List Char)
  | '\\' :: 'u' :: text => readUnicode text
  | '\\' :: c :: rest => (shortEscape c).map (fun meant => (meant, rest))
  | c :: rest => if c.toNat < 0x20 ∨ c = '"' ∨ c = '\\' then none else some (c, rest)
  | [] => none

/-- The characters of a string up to its closing quote. -/
inductive ReadsChars : List Char → List Char → List Char → Prop
  | close (rest : List Char) : ReadsChars ('"' :: rest) [] rest
  | char {text more rest : List Char} {c : Char} {cs : List Char}
      (first : readChar text = some (c, more)) (later : ReadsChars more cs rest) :
      ReadsChars text (c :: cs) rest

/-! ### Values -/

mutual

/-- The text starts with a value, and the rest follows it. -/
inductive Reads : List Char → Value → List Char → Prop
  | null (rest : List Char) : Reads ('n' :: 'u' :: 'l' :: 'l' :: rest) .null rest
  | yes (rest : List Char) : Reads ('t' :: 'r' :: 'u' :: 'e' :: rest) (.bool true) rest
  | no (rest : List Char) : Reads ('f' :: 'a' :: 'l' :: 's' :: 'e' :: rest) (.bool false) rest
  | num {text rest : List Char} {n : Number} (number : readNumber text = some (n, rest)) :
      Reads text (.num n) rest
  | str {text cs rest : List Char} (chars : ReadsChars text cs rest) :
      Reads ('"' :: text) (.str (String.ofList cs)) rest
  | noItems {text rest : List Char} (closed : skip text = ']' :: rest) :
      Reads ('[' :: text) (.arr []) rest
  | arr {text rest : List Char} {items : List Value} (inner : ReadsItems (skip text) items rest) :
      Reads ('[' :: text) (.arr items) rest
  | noFields {text rest : List Char} (closed : skip text = '}' :: rest) :
      Reads ('{' :: text) (.obj []) rest
  | obj {text rest : List Char} {fields : List (String × Value)}
      (inner : ReadsFields (skip text) fields rest) : Reads ('{' :: text) (.obj fields) rest

/-- One item or more, up to the closing bracket. -/
inductive ReadsItems : List Char → List Value → List Char → Prop
  | last {text more rest : List Char} {v : Value} (item : Reads text v more)
      (closed : skip more = ']' :: rest) : ReadsItems text [v] rest
  | next {text more after rest : List Char} {v : Value} {items : List Value}
      (item : Reads text v more) (comma : skip more = ',' :: after)
      (later : ReadsItems (skip after) items rest) : ReadsItems text (v :: items) rest

inductive ReadsField : List Char → String × Value → List Char → Prop
  | field {text key named after rest : List Char} {v : Value}
      (name : ReadsChars text key named) (colon : skip named = ':' :: after)
      (value : Reads (skip after) v rest) : ReadsField ('"' :: text) (String.ofList key, v) rest

/-- One field or more, up to the closing brace. -/
inductive ReadsFields : List Char → List (String × Value) → List Char → Prop
  | last {text more rest : List Char} {f : String × Value} (field : ReadsField text f more)
      (closed : skip more = '}' :: rest) : ReadsFields text [f] rest
  | next {text more after rest : List Char} {f : String × Value} {fields : List (String × Value)}
      (field : ReadsField text f more) (comma : skip more = ',' :: after)
      (later : ReadsFields (skip after) fields rest) : ReadsFields text (f :: fields) rest

end

/-- A text is one value with white space around it. -/
def Document (text : List Char) (v : Value) : Prop :=
  ∃ rest, Reads (skip text) v rest ∧ skip rest = []

/-! ### One value at most -/

theorem readNumber_cons {c : Char} (noMinus : c ≠ '-') (noDigit : c.isDigit = false)
    (text : List Char) : readNumber (c :: text) = none := by
  have unsigned : readNumber (c :: text) = readUnsigned false (c :: text) := by
    unfold readNumber
    split
    · next same => exact absurd (List.cons.inj same).1 noMinus
    · rfl
  rw [unsigned, readUnsigned, readInteger, readDigits]
  simp [noDigit]

theorem ReadsChars.unique {text cs cs' rest rest' : List Char} (first : ReadsChars text cs rest)
    (second : ReadsChars text cs' rest') : cs = cs' ∧ rest = rest' := by
  induction first generalizing cs' with
  | close rest =>
      cases second with
      | close => exact ⟨rfl, rfl⟩
      | char read later => simp [readChar] at read
  | char read later ih =>
      cases second with
      | close => simp [readChar] at read
      | char read' later' =>
          rw [read] at read'
          obtain ⟨rfl, rfl⟩ := Prod.mk.inj (Option.some.inj read')
          obtain ⟨rfl, rfl⟩ := ih later'
          exact ⟨rfl, rfl⟩

theorem not_number {c : Char} {text : List Char} {n : Number} {rest : List Char}
    (noMinus : c ≠ '-') (noDigit : c.isDigit = false) :
    ¬ readNumber (c :: text) = some (n, rest) := by
  rw [readNumber_cons noMinus noDigit]
  exact nofun

theorem not_reads_bracket {text rest : List Char} {v : Value} : ¬ Reads (']' :: text) v rest := by
  intro reads
  cases reads with
  | num number => exact not_number (by decide) (by decide) number

theorem not_readsItems_bracket {text rest : List Char} {items : List Value} :
    ¬ ReadsItems (']' :: text) items rest := by
  intro reads
  cases reads with
  | last item _ => exact not_reads_bracket item
  | next item _ _ => exact not_reads_bracket item

theorem not_readsFields_brace {text rest : List Char} {fields : List (String × Value)} :
    ¬ ReadsFields ('}' :: text) fields rest := by
  intro reads
  cases reads with
  | last field _ => nomatch field
  | next field _ _ => nomatch field

mutual

theorem Reads.unique {text rest rest' : List Char} {v v' : Value} (first : Reads text v rest)
    (second : Reads text v' rest') : v = v' ∧ rest = rest' := by
  cases first with
  | null =>
      cases second with
      | null => exact ⟨rfl, rfl⟩
      | num number => exact absurd number (not_number (by decide) (by decide))
  | yes =>
      cases second with
      | yes => exact ⟨rfl, rfl⟩
      | num number => exact absurd number (not_number (by decide) (by decide))
  | no =>
      cases second with
      | no => exact ⟨rfl, rfl⟩
      | num number => exact absurd number (not_number (by decide) (by decide))
  | num number =>
      cases second with
      | num number' =>
          rw [number] at number'
          obtain ⟨rfl, rfl⟩ := Prod.mk.inj (Option.some.inj number')
          exact ⟨rfl, rfl⟩
      | _ => exact absurd number (not_number (by decide) (by decide))
  | str chars =>
      cases second with
      | str chars' =>
          obtain ⟨rfl, rfl⟩ := chars.unique chars'
          exact ⟨rfl, rfl⟩
      | num number => exact absurd number (not_number (by decide) (by decide))
  | noItems closed =>
      cases second with
      | noItems closed' =>
          rw [closed] at closed'
          exact ⟨rfl, (List.cons.inj closed').2⟩
      | arr inner =>
          rw [closed] at inner
          exact absurd inner not_readsItems_bracket
      | num number => exact absurd number (not_number (by decide) (by decide))
  | arr inner =>
      cases second with
      | noItems closed =>
          rw [closed] at inner
          exact absurd inner not_readsItems_bracket
      | arr inner' =>
          obtain ⟨rfl, rfl⟩ := inner.unique inner'
          exact ⟨rfl, rfl⟩
      | num number => exact absurd number (not_number (by decide) (by decide))
  | noFields closed =>
      cases second with
      | noFields closed' =>
          rw [closed] at closed'
          exact ⟨rfl, (List.cons.inj closed').2⟩
      | obj inner =>
          rw [closed] at inner
          exact absurd inner not_readsFields_brace
      | num number => exact absurd number (not_number (by decide) (by decide))
  | obj inner =>
      cases second with
      | noFields closed =>
          rw [closed] at inner
          exact absurd inner not_readsFields_brace
      | obj inner' =>
          obtain ⟨rfl, rfl⟩ := inner.unique inner'
          exact ⟨rfl, rfl⟩
      | num number => exact absurd number (not_number (by decide) (by decide))

theorem ReadsItems.unique {text rest rest' : List Char} {vs vs' : List Value}
    (first : ReadsItems text vs rest) (second : ReadsItems text vs' rest') :
    vs = vs' ∧ rest = rest' := by
  cases first with
  | last item closed =>
      cases second with
      | last item' closed' =>
          obtain ⟨rfl, rfl⟩ := item.unique item'
          rw [closed] at closed'
          exact ⟨rfl, (List.cons.inj closed').2⟩
      | next item' comma later =>
          obtain ⟨rfl, rfl⟩ := item.unique item'
          simp [closed] at comma
  | next item comma later =>
      cases second with
      | last item' closed =>
          obtain ⟨rfl, rfl⟩ := item.unique item'
          simp [closed] at comma
      | next item' comma' later' =>
          obtain ⟨rfl, rfl⟩ := item.unique item'
          rw [comma] at comma'
          obtain ⟨_, rfl⟩ := List.cons.inj comma'
          obtain ⟨rfl, rfl⟩ := later.unique later'
          exact ⟨rfl, rfl⟩

theorem ReadsField.unique {text rest rest' : List Char} {f f' : String × Value}
    (first : ReadsField text f rest) (second : ReadsField text f' rest') :
    f = f' ∧ rest = rest' := by
  cases first with
  | field name colon value =>
      cases second with
      | field name' colon' value' =>
          obtain ⟨rfl, rfl⟩ := name.unique name'
          rw [colon] at colon'
          obtain ⟨_, rfl⟩ := List.cons.inj colon'
          obtain ⟨rfl, rfl⟩ := value.unique value'
          exact ⟨rfl, rfl⟩

theorem ReadsFields.unique {text rest rest' : List Char} {fs fs' : List (String × Value)}
    (first : ReadsFields text fs rest) (second : ReadsFields text fs' rest') :
    fs = fs' ∧ rest = rest' := by
  cases first with
  | last field closed =>
      cases second with
      | last field' closed' =>
          obtain ⟨rfl, rfl⟩ := field.unique field'
          rw [closed] at closed'
          exact ⟨rfl, (List.cons.inj closed').2⟩
      | next field' comma later =>
          obtain ⟨rfl, rfl⟩ := field.unique field'
          simp [closed] at comma
  | next field comma later =>
      cases second with
      | last field' closed =>
          obtain ⟨rfl, rfl⟩ := field.unique field'
          simp [closed] at comma
      | next field' comma' later' =>
          obtain ⟨rfl, rfl⟩ := field.unique field'
          rw [comma] at comma'
          obtain ⟨_, rfl⟩ := List.cons.inj comma'
          obtain ⟨rfl, rfl⟩ := later.unique later'
          exact ⟨rfl, rfl⟩

end

/-- A text stands for one value at most. -/
theorem Document.unique {text : List Char} {v v' : Value} (first : Document text v)
    (second : Document text v') : v = v' := by
  obtain ⟨_, reads, _⟩ := first
  obtain ⟨_, reads', _⟩ := second
  exact (reads.unique reads').1

/-! ### Reading what was written -/

theorem skip_cons_space {c : Char} (space : isSpace c = true) (text : List Char) :
    skip (c :: text) = skip text :=
  List.dropWhile_cons_of_pos space

theorem skip_cons {c : Char} (token : isSpace c = false) (text : List Char) :
    skip (c :: text) = c :: text :=
  List.dropWhile_cons_of_neg (by rw [token]; exact Bool.false_ne_true)

theorem skip_append {blank : List Char} (space : ∀ c ∈ blank, isSpace c = true)
    (text : List Char) : skip (blank ++ text) = skip text :=
  List.dropWhile_append_of_pos space

theorem not_isSpace_of_isDigit {c : Char} (digit : c.isDigit = true) : isSpace c = false := by
  unfold isSpace
  rw [Bool.eq_false_iff]
  intro space
  simp only [Bool.or_eq_true, beq_iff_eq] at space
  rcases space with ((rfl | rfl) | rfl) | rfl <;> contradiction

/-- No value begins with white space. -/
theorem Reads.skip_eq {text rest : List Char} {v : Value} (reads : Reads text v rest) :
    skip text = text := by
  cases reads with
  | num number =>
      cases text with
      | nil => rfl
      | cons c text =>
          apply skip_cons
          by_cases minus : c = '-'
          · rw [minus]
            rfl
          · cases digit : c.isDigit with
            | true => exact not_isSpace_of_isDigit digit
            | false => exact absurd number (not_number minus digit)
  | _ => exact skip_cons (by decide) _

theorem ReadsField.skip_eq {text rest : List Char} {f : String × Value}
    (reads : ReadsField text f rest) : skip text = text := by
  cases reads with
  | field => exact skip_cons (by decide) _

/-- What may follow a number: nothing that would continue it. -/
def EndsNumber (rest : List Char) : Prop :=
  ∀ c, rest.head? = some c → c.isDigit = false ∧ c ≠ '.' ∧ c ≠ 'e' ∧ c ≠ 'E'

theorem endsNumber_cons {c : Char} (noDigit : c.isDigit = false) (noPoint : c ≠ '.')
    (noPower : c ≠ 'e' ∧ c ≠ 'E') (rest : List Char) : EndsNumber (c :: rest) := by
  intro d head
  obtain rfl := Option.some.inj head
  exact ⟨noDigit, noPoint, noPower⟩

theorem readDigits_append {digits rest : List Char} (nonempty : digits ≠ [])
    (all : ∀ c ∈ digits, c.isDigit = true) (ends : EndsNumber rest) :
    readDigits (digits ++ rest) = some (digits, rest) := by
  have taken : rest.takeWhile Char.isDigit = [] ∧ rest.dropWhile Char.isDigit = rest := by
    cases rest with
    | nil => exact ⟨rfl, rfl⟩
    | cons c rest => simp [(ends c rfl).1]
  unfold readDigits
  rw [List.takeWhile_append_of_pos all, List.dropWhile_append_of_pos all, taken.1, taken.2,
    List.append_nil, if_neg]
  rwa [List.isEmpty_iff]

theorem readFraction_of_ends {rest : List Char} (ends : EndsNumber rest) :
    readFraction rest = some ([], rest) := by
  unfold readFraction
  split
  · next text => exact absurd rfl (ends '.' rfl).2.1
  · rfl

theorem readExponent_of_ends {rest : List Char} (ends : EndsNumber rest) :
    readExponent rest = some (0, rest) := by
  unfold readExponent
  split
  · next text => exact absurd rfl (ends 'e' rfl).2.2.1
  · next text => exact absurd rfl (ends 'E' rfl).2.2.2
  · rfl

/-- Only zero is written with a leading zero. -/
theorem head_toDigits {n : Nat} (positive : 0 < n) : (Nat.toDigits 10 n).head? ≠ some '0' := by
  induction n using Nat.strongRecOn with
  | ind n ih =>
      by_cases small : n < 10
      · rw [Nat.toDigits_of_lt_base small]
        intro zero
        have value := Nat.toNat_digitChar_sub_48_of_lt_ten small
        rw [Option.some.inj zero] at value
        have none : '0'.toNat - 48 = 0 := rfl
        omega
      · have shorter := ih (n / 10) (by omega) (by omega)
        rw [Nat.toDigits_of_base_le (by decide) (by omega)]
        cases written : Nat.toDigits 10 (n / 10) with
        | nil => exact absurd written Nat.toDigits_ne_nil
        | cons first later =>
            rw [written] at shorter
            exact shorter

theorem readInteger_toDigits (n : Nat) {rest : List Char} (ends : EndsNumber rest) :
    readInteger (Nat.toDigits 10 n ++ rest) = some (Nat.toDigits 10 n, rest) := by
  have digits := readDigits_append (Nat.toDigits_ne_nil (n := n) (b := 10))
    (fun c member => Nat.isDigit_of_mem_toDigits (by decide) (by decide) member) ends
  unfold readInteger
  rw [digits]
  split
  · next second later rest' same =>
      have written := (Prod.mk.inj (Option.some.inj same)).1
      have zero : n = 0 := by
        by_contra nonzero
        apply head_toDigits (Nat.pos_of_ne_zero nonzero)
        rw [written]
        rfl
      rw [zero, Nat.toDigits_zero] at written
      simp at written
  · rfl

theorem readNumber_toDigits (n : Nat) {rest : List Char} (ends : EndsNumber rest) :
    readNumber (Nat.toDigits 10 n ++ rest) = some (⟨false, n, 0⟩, rest) := by
  have unsigned : readNumber (Nat.toDigits 10 n ++ rest) =
      readUnsigned false (Nat.toDigits 10 n ++ rest) := by
    unfold readNumber
    split
    · next text same =>
        have digit : ∀ c ∈ Nat.toDigits 10 n, c.isDigit = true :=
          fun c member => Nat.isDigit_of_mem_toDigits (by decide) (by decide) member
        cases written : Nat.toDigits 10 n with
        | nil => exact absurd written Nat.toDigits_ne_nil
        | cons first later =>
            rw [written] at same digit
            have minus := digit first List.mem_cons_self
            rw [(List.cons.inj same).1] at minus
            contradiction
    · rfl
  rw [unsigned]
  simp [readUnsigned, readInteger_toDigits n ends, readFraction_of_ends ends,
    readExponent_of_ends ends, Nat.ofDigitChars_ten_toDigits]

end JsonGrammar
