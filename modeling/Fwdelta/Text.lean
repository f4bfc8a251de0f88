import Mathlib.Data.List.TakeDrop
import Mathlib.Data.List.TakeWhile
import Mathlib.Tactic.Common

/-
String functions of the source's standard library, over lists of characters.
-/

namespace Text

/-- The characters with the Unicode property `White_Space`. -/
def isWhitespace (c : Char) : Bool :=
  let code := c.toNat
  (9 ≤ code && code ≤ 13) || code == 0x20 || code == 0x85 || code == 0xA0 ||
    code == 0x1680 || (0x2000 ≤ code && code ≤ 0x200A) || code == 0x2028 ||
      code == 0x2029 || code == 0x202F || code == 0x205F || code == 0x3000

def trimChars (chars : List Char) : List Char :=
  ((chars.dropWhile isWhitespace).reverse.dropWhile isWhitespace).reverse

def trim (text : String) : String :=
  String.ofList (trimChars text.toList)

def trimEnd (text : String) : String :=
  String.ofList ((text.toList.reverse.dropWhile isWhitespace).reverse)

/-- Left-aligned in a field: blanks up to a number of characters. -/
def padRight (width : Nat) (text : String) : String :=
  text ++ String.ofList (List.replicate (width - text.length) ' ')

/-- A number in two digits at least. -/
def twoDigits (n : Nat) : String :=
  if n < 10 then "0" ++ toString n else toString n

/-- Zeros up to a number of characters, between the sign and the digits. -/
def zeroPad (width : Nat) (n : Int) : String :=
  let sign := if n < 0 then "-" else ""
  let digits := toString n.natAbs
  sign ++ String.ofList (List.replicate (width - (sign ++ digits).length) '0') ++ digits

def linesFrom (acc : List Char) : List Char → List (List Char)
  | [] => if acc.isEmpty then [] else [acc.reverse]
  | c :: rest =>
      if c == '\n' then
        (match acc with
          | [] => []
          | first :: line => if first == '\r' then line.reverse else acc.reverse) ::
          linesFrom [] rest
      else linesFrom (c :: acc) rest

def lines (text : String) : List String :=
  (linesFrom [] text.toList).map String.ofList

def splitOnce (separator : Char) (text : String) : Option (String × String) :=
  match text.toList.span (· != separator) with
  | (_, []) => none
  | (front, _ :: back) => some (String.ofList front, String.ofList back)

def split (separator : Char) (text : String) : List String :=
  (text.toList.splitOn separator).map String.ofList

/-- What follows the first occurrence of a text, as `find` and a slice give it. -/
def after (needle : List Char) : List Char → Option (List Char)
  | [] => if needle.isEmpty then some [] else none
  | c :: rest =>
      if needle.isPrefixOf (c :: rest) then some ((c :: rest).drop needle.length)
      else after needle rest

/-- The first of the words that white space separates. -/
def firstWord (chars : List Char) : Option String :=
  match (chars.dropWhile isWhitespace).takeWhile (fun c => !isWhitespace c) with
  | [] => none
  | word => some (String.ofList word)

def digitsFrom (acc : Nat) : List Char → Option Nat
  | [] => some acc
  | c :: rest => if c.isDigit then digitsFrom (acc * 10 + (c.toNat - '0'.toNat)) rest else none

/-- `parse` at an unsigned integer type: an optional plus sign, then digits, of a
number that fits. -/
def parseUnsigned (max : Nat) (text : String) : Option Nat :=
  let digits := match text.toList with
    | '+' :: rest => rest
    | chars => chars
  if digits.isEmpty then none
  else (digitsFrom 0 digits).filter (· ≤ max)

def parseMagnitude (digits : List Char) : Option Nat :=
  if digits.isEmpty then none else digitsFrom 0 digits

/-- `parse` at a signed integer type: an optional sign, then digits, of a number that
fits. -/
def parseSigned (min max : Int) (text : String) : Option Int :=
  let number := match text.toList with
    | '-' :: rest => (parseMagnitude rest).map Int.negOfNat
    | '+' :: rest => (parseMagnitude rest).map Int.ofNat
    | chars => (parseMagnitude chars).map Int.ofNat
  number.filter (fun n => min ≤ n ∧ n ≤ max)

def U32_MAX : Nat := 4294967295

def U64_MAX : Nat := 18446744073709551615

def I64_MIN : Int := -9223372036854775808

def I64_MAX : Int := 9223372036854775807

/-! ### Reading back -/

theorem toList_toString (n : Nat) : (toString n).toList = Nat.toDigits 10 n := by
  rw [Nat.toString_eq_ofList_toDigits, String.toList_ofList]

theorem digitsFrom_of_all {chars : List Char} (digits : ∀ c ∈ chars, c.isDigit = true)
    (acc : Nat) : digitsFrom acc chars = some (Nat.ofDigitChars 10 chars acc) := by
  induction chars generalizing acc with
  | nil => rfl
  | cons c rest ih =>
      obtain ⟨digit, later⟩ := List.forall_mem_cons.mp digits
      rw [digitsFrom, if_pos digit, ih later, Nat.ofDigitChars_cons, Nat.mul_comm]

theorem isDigit_of_mem_toDigits {n : Nat} {c : Char} (member : c ∈ Nat.toDigits 10 n) :
    c.isDigit = true :=
  Nat.isDigit_of_mem_toDigits (by decide) (by decide) member

theorem isDigit_of_mem_toString {n : Nat} {c : Char} (member : c ∈ (toString n).toList) :
    c.isDigit = true := by
  rw [toList_toString] at member
  exact isDigit_of_mem_toDigits member

/-- A number is read back from its decimal digits. -/
theorem parseUnsigned_toString {max n : Nat} (fits : n ≤ max) :
    parseUnsigned max (toString n) = some n := by
  have digits (c : Char) (member : c ∈ Nat.toDigits 10 n) : c.isDigit = true :=
    isDigit_of_mem_toDigits member
  unfold parseUnsigned
  rw [toList_toString]
  cases written : Nat.toDigits 10 n with
  | nil => exact absurd written Nat.toDigits_ne_nil
  | cons first later =>
      rw [written] at digits
      have noSign : first ≠ '+' := by
        intro plus
        have digit := digits first List.mem_cons_self
        rw [plus] at digit
        contradiction
      have value : Nat.ofDigitChars 10 (first :: later) 0 = n := by
        rw [← written]
        exact Nat.ofDigitChars_ten_toDigits
      simp [noSign, digitsFrom_of_all digits, value, fits]

theorem toString_injective : Function.Injective (toString : Nat → String) := by
  intro n m same
  have read := congrArg (parseUnsigned (max n m)) same
  rw [parseUnsigned_toString (Nat.le_max_left n m),
    parseUnsigned_toString (Nat.le_max_right n m)] at read
  exact Option.some.inj read

theorem isWhitespace_of_isDigit {c : Char} (digit : c.isDigit = true) : isWhitespace c = false := by
  have range : 48 ≤ c.toNat ∧ c.toNat ≤ 57 := by
    simpa [Char.isDigit, UInt32.le_iff_toNat_le] using digit
  simp only [isWhitespace, Bool.or_eq_false_iff, Bool.and_eq_false_iff, decide_eq_false_iff_not,
    beq_eq_false_iff_ne]
  omega

/-- A number before a blank is the first word. -/
theorem firstWord_toString (n : Nat) (more : List Char) :
    firstWord ((toString n).toList ++ ' ' :: more) = some (toString n) := by
  have digits (c : Char) (member : c ∈ (toString n).toList) : isWhitespace c = false :=
    isWhitespace_of_isDigit (isDigit_of_mem_toString member)
  have some_ : (toString n).toList ≠ [] := by
    rw [toList_toString]
    exact Nat.toDigits_ne_nil
  have word : ((toString n).toList ++ ' ' :: more).takeWhile (fun c => !isWhitespace c) =
      (toString n).toList := by
    rw [List.takeWhile_append_of_pos (by simpa using digits),
      List.takeWhile_cons_of_neg (by decide), List.append_nil]
  obtain ⟨first, later, written⟩ := List.exists_cons_of_ne_nil some_
  have firstDigit : isWhitespace first = false :=
    digits first (written ▸ List.mem_cons_self)
  have start : ((toString n).toList ++ ' ' :: more).dropWhile isWhitespace =
      (toString n).toList ++ ' ' :: more := by
    rw [written, List.cons_append, List.dropWhile_cons_of_neg (by rw [firstDigit]; decide)]
  unfold firstWord
  rw [start, word, written]
  simp only
  rw [← written, String.ofList_toList]

theorem isDigit_of_mem_padded {zeros n : Nat} {c : Char}
    (member : c ∈ List.replicate zeros '0' ++ Nat.toDigits 10 n) : c.isDigit = true := by
  rcases List.mem_append.mp member with zero | digit
  · rw [(List.mem_replicate.mp zero).2]
    rfl
  · exact isDigit_of_mem_toDigits digit

/-- Leading zeros do not change a number. -/
theorem parseMagnitude_padded (zeros n : Nat) :
    parseMagnitude (List.replicate zeros '0' ++ Nat.toDigits 10 n) = some n := by
  have nonempty : (List.replicate zeros '0' ++ Nat.toDigits 10 n).isEmpty = false := by
    simp [Nat.toDigits_ne_nil]
  unfold parseMagnitude
  rw [nonempty, if_neg Bool.false_ne_true, digitsFrom_of_all (fun _ => isDigit_of_mem_padded),
    Nat.ofDigitChars_append, Nat.ofDigitChars_replicate_zero, Nat.mul_zero,
    Nat.ofDigitChars_ten_toDigits]

theorem toList_zeroPad (width : Nat) (n : Int) :
    ∃ zeros, (zeroPad width n).toList =
      (if n < 0 then ['-'] else []) ++ (List.replicate zeros '0' ++ Nat.toDigits 10 n.natAbs) := by
  refine ⟨width - ((if n < 0 then "-" else "") ++ toString n.natAbs).length, ?_⟩
  unfold zeroPad
  rw [String.toList_append, String.toList_append, toList_toString, String.toList_ofList,
    List.append_assoc]
  split <;> rfl

/-- A number is read back from its zero-padded text, whatever the width. -/
theorem parseSigned_zeroPad {min max n : Int} (low : min ≤ n) (high : n ≤ max) (width : Nat) :
    parseSigned min max (zeroPad width n) = some n := by
  obtain ⟨zeros, text⟩ := toList_zeroPad width n
  have digits := fun c => @isDigit_of_mem_padded zeros n.natAbs c
  have read := parseMagnitude_padded zeros n.natAbs
  unfold parseSigned
  rw [text]
  by_cases negative : n < 0
  · have value : Int.negOfNat n.natAbs = n := by
      rw [Int.negOfNat_eq, Int.ofNat_eq_natCast]
      omega
    simp [negative, read, value, low, high]
  · have value : (n.natAbs : Int) = n := by omega
    rw [if_neg negative, List.nil_append]
    cases written : List.replicate zeros '0' ++ Nat.toDigits 10 n.natAbs with
    | nil => simp [written, parseMagnitude] at read
    | cons first later =>
        rw [written] at read digits
        have digit := digits first List.mem_cons_self
        have noMinus : first ≠ '-' := fun minus => by simp [minus] at digit
        have noPlus : first ≠ '+' := fun plus => by simp [plus] at digit
        simp [noMinus, noPlus, read, value, low, high]

theorem zeroPad_injective (width : Nat) : Function.Injective (zeroPad width) := by
  intro n other same
  have read := parseSigned_zeroPad (Int.min_le_left n other) (Int.le_max_left n other) width
  have again := parseSigned_zeroPad (Int.min_le_right n other) (Int.le_max_right n other) width
  rw [same, again] at read
  exact (Option.some.inj read).symm

theorem length_zeroPad {width n : Nat} (fits : (Nat.toDigits 10 n).length ≤ width) :
    (zeroPad width n).toList.length = width := by
  have sign : ¬ (n : Int) < 0 := Int.not_lt.mpr (Int.natCast_nonneg n)
  have written : (toString n).length = (Nat.toDigits 10 n).length := by
    rw [← toList_toString, String.length_toList]
  unfold zeroPad
  rw [String.toList_append, String.toList_append, String.toList_ofList, if_neg sign,
    Int.natAbs_natCast, String.empty_append, toList_toString, written]
  simp
  omega

theorem splitOnce_append {separator : Char} {front : String} (absent : separator ∉ front.toList)
    (back : String) :
    splitOnce separator (front ++ String.singleton separator ++ back) = some (front, back) := by
  have before : ∀ c ∈ front.toList, (c != separator) = true := by
    intro c member
    rw [bne_iff_ne]
    exact fun same => absent (same ▸ member)
  unfold splitOnce
  rw [String.toList_append, String.toList_append, String.toList_singleton, List.append_assoc,
    List.span_eq_takeWhile_dropWhile, List.takeWhile_append_of_pos before,
    List.dropWhile_append_of_pos before]
  simp

theorem splitOnce_eq_none {separator : Char} {text : String} (absent : separator ∉ text.toList) :
    splitOnce separator text = none := by
  have all : ∀ c ∈ text.toList, (c != separator) = true := by
    intro c member
    rw [bne_iff_ne]
    exact fun same => absent (same ▸ member)
  unfold splitOnce
  rw [List.span_eq_takeWhile_dropWhile, List.dropWhile_eq_nil_iff.mpr all]

theorem split_intercalate {separator : Char} {parts : List String}
    (absent : ∀ part ∈ parts, separator ∉ part.toList) (nonempty : parts ≠ []) :
    split separator ((String.singleton separator).intercalate parts) = parts := by
  unfold split
  rw [String.toList_intercalate, String.toList_singleton, List.splitOn_intercalate]
  · simp
  · simpa using absent
  · simpa using nonempty

/-! ### Byte offsets -/

def takeBytes : Nat → List Char → List Char
  | _, [] => []
  | n, c :: rest => if c.utf8Size ≤ n then c :: takeBytes (n - c.utf8Size) rest else []

end Text
