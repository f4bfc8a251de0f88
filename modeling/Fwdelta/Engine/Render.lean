import Fwdelta.Engine.Region
import Fwdelta.Ir.Interface
import Fwdelta.Ir.Prefixes
import Fwdelta.Text

/-
Rectangles as the lines a reviewer reads.

An address set is printed as its prefixes or as an enclosing prefix with
exceptions, whichever has fewer terms; long lists of terms are cut with a count
of what is hidden.  Nothing here decides what is listed.
-/

namespace Fwdelta

namespace IntervalSet

variable {bits : Nat}

/-- The first and the last value. -/
def hull (set : IntervalSet bits) : Option (Nat × Nat) :=
  match set.ranges.head?, set.ranges.getLast? with
  | some first, some last => some (first.1, last.2)
  | _, _ => none

theorem contains_of_hull {set : IntervalSet bits} {lo hi : Nat}
    (found : set.hull = some (lo, hi)) :
    set.contains lo = true ∧ set.contains hi = true := by
  rw [contains_iff, contains_iff]
  unfold hull at found
  split at found
  · next first last atHead atLast =>
      obtain ⟨rfl, rfl⟩ := Prod.mk.inj (Option.some.inj found)
      have firstMember := List.mem_of_head? atHead
      have lastMember := List.mem_of_getLast? atLast
      exact ⟨⟨first, firstMember, le_refl _, set.canonical.proper first firstMember⟩,
        ⟨last, lastMember, set.canonical.proper last lastMember, le_refl _⟩⟩
  · contradiction

theorem hull_le {set : IntervalSet bits} {lo hi : Nat} (found : set.hull = some (lo, hi)) :
    lo ≤ domainMax bits :=
  contains_le (contains_of_hull found).1

theorem hull_ofPrefix {value len : Nat} (narrow : bits < 64) (within : value ≤ domainMax bits) :
    (ofPrefix bits value len narrow within).hull =
      some (prefixBase bits value len, prefixBase bits value len ||| prefixSpan bits len) :=
  rfl

/-- The values lie between the ends. -/
theorem le_of_hull {set : IntervalSet bits} {lo hi value : Nat} (found : set.hull = some (lo, hi))
    (inside : set.contains value = true) : lo ≤ value ∧ value ≤ hi := by
  rw [contains_iff] at inside
  unfold hull at found
  split at found
  · next first last atHead atLast =>
      obtain ⟨rfl, rfl⟩ := Prod.mk.inj (Option.some.inj found)
      have canonical := set.canonical
      constructor
      · obtain ⟨rest, ranges⟩ := List.head?_eq_some_iff.mp atHead
        rw [ranges] at canonical inside
        exact canonical.first_le inside
      · obtain ⟨front, ranges⟩ := List.getLast?_eq_some_iff.mp atLast
        rw [ranges] at canonical inside
        rcases (covers_append _ _ _).mp inside with earlier | inLast
        · obtain ⟨range, member, _, upper⟩ := earlier
          have before := (List.pairwise_append.mp canonical.apart).2.2 range member last
            List.mem_cons_self
          have proper := canonical.proper last (by simp)
          omega
        · simp only [covers_cons, covers_nil, or_false] at inLast
          exact inLast.2
  · contradiction

/-- The values, in order. -/
def values (set : IntervalSet bits) : List Nat :=
  set.ranges.flatMap (fun range => List.range' range.1 (range.2 + 1 - range.1))

end IntervalSet

namespace SymbolTable

/-- Every value in the set has a name. -/
def allNamed (syms : SymbolTable) (set : IntervalSet IF_BITS) : Bool :=
  set.ranges.all (fun range => range.2 < syms.names.length)

end SymbolTable

namespace Render

/-- How much detail a line is allowed to carry. -/
structure Style where
  maxTerms : Nat
  deriving DecidableEq, Repr

namespace Style

def default : Style where
  maxTerms := 6

/-- No truncation: as many terms as a list can have. -/
def full : Style where
  maxTerms := 2 ^ 64 - 1

def join (style : Style) (terms : List String) : String :=
  if terms.length ≤ style.maxTerms then ",".intercalate terms
  else
    ",".intercalate (terms.take style.maxTerms) ++ " +" ++
      toString (terms.length - style.maxTerms) ++ " more"

end Style

def ipv4 (v : Nat) : String :=
  toString (v / 2 ^ 24 % 256) ++ "." ++ toString (v / 2 ^ 16 % 256) ++ "." ++
    toString (v / 2 ^ 8 % 256) ++ "." ++ toString (v % 256)

def cidr (v len : Nat) : String :=
  if len = 32 then ipv4 v else ipv4 v ++ "/" ++ toString len

def leadingZeros32 (word : Nat) : Nat :=
  if word = 0 then 32 else 31 - Nat.log2 word

/-- The length of the longest prefix that holds both ends. -/
def commonBits (lo hi : Nat) : Nat :=
  leadingZeros32 (lo ^^^ hi)

def addrSet (set : IntervalSet 32) (style : Style) : String :=
  if set.isEmpty then "<none>"
  else if set.isFull then "any"
  else
    let direct := setToPrefixes set
    let directTerms := direct.map (fun block => cidr block.1 block.2)
    match found : set.hull with
    | none => style.join directTerms
    | some (lo, hi) =>
        let common := commonBits lo hi
        let enclosing := IntervalSet.ofPrefix 32 lo common address_narrow
          (IntervalSet.hull_le found)
        let holes := enclosing.difference set
        if holes.isEmpty then style.join directTerms
        else
          let holePrefixes := setToPrefixes holes
          if 1 + holePrefixes.length < direct.length then
            let base := (enclosing.hull.map Prod.fst).getD lo
            let holeTerms := holePrefixes.map (fun block => cidr block.1 block.2)
            cidr base common ++ " except " ++ style.join holeTerms
          else style.join directTerms

def rangeText (name : Nat → String) (range : Range) : String :=
  if range.1 = range.2 then name range.1
  else toString range.1 ++ "-" ++ toString range.2

/-- `None` means unconstrained, which is printed as nothing. -/
def portSet (set : IntervalSet 16) (style : Style) : Option String :=
  if set.isFull then none
  else if set.isEmpty then some "<none>"
  else some (style.join (set.ranges.map (rangeText toString)))

def protoName : Nat → String
  | 1 => "icmp"
  | 2 => "igmp"
  | 6 => "tcp"
  | 17 => "udp"
  | 41 => "ipv6"
  | 47 => "gre"
  | 50 => "esp"
  | 51 => "ah"
  | 58 => "icmpv6"
  | 89 => "ospf"
  | 112 => "vrrp"
  | 132 => "sctp"
  | other => toString other

def protoSet (set : IntervalSet 8) (style : Style) : String :=
  if set.isFull then "any"
  else if set.isEmpty then "<none>"
  else if set.count ≤ 6 then style.join (set.values.map protoName)
  else style.join (set.ranges.map (rangeText protoName))

def ifaceName (syms : SymbolTable) (v : Nat) : String :=
  match syms.nameOf v with
  | some name => name
  | none => "if#" ++ toString v

/-- A set that covers unnamed symbols is shown as an exclusion. -/
def ifaceSet (set : IntervalSet IF_BITS) (syms : SymbolTable) (style : Style) : Option String :=
  if set.isFull then none
  else if set.isEmpty then some "<none>"
  else
    let named := fun (s : IntervalSet IF_BITS) => s.values.map (ifaceName syms)
    if syms.allNamed set && set.count ≤ 8 then some (style.join (named set))
    else
      let complement := set.complement
      if syms.allNamed complement && complement.count ≤ 8 then
        some ("not " ++ style.join (named complement))
      else some (toString set.count ++ " of 256 symbols")

/-- One rendered rectangle, split into columns. -/
structure Row where
  iif : String
  oif : String
  proto : String
  src : String
  dst : String
  dport : String
  note : String
  deriving DecidableEq

/-- Source port rides with the source address. -/
def row (region : Region) (note : String) (syms : SymbolTable) (style : Style) : Row where
  iif := ((ifaceSet region.ifIn syms style).map ("in " ++ ·)).getD ""
  oif := ((ifaceSet region.ifOut syms style).map ("out " ++ ·)).getD ""
  proto := protoSet region.proto style
  src := match portSet region.srcPort style with
    | some p => addrSet region.srcAddr style ++ ":" ++ p
    | none => addrSet region.srcAddr style
  dst := addrSet region.dstAddr style
  dport := ((portSet region.dstPort style).map (":" ++ ·)).getD ""
  note := note

/-- Columns are as wide as their longest cell, in bytes. -/
def width (rows : List Row) (column : Row → String) : Nat :=
  (rows.map (fun r => (column r).utf8ByteSize)).foldl max 0

/-- Interface columns disappear when no row constrains them. -/
def tableLine (rows : List Row) (indent : String) (r : Row) : String :=
  let iif := if width rows Row.iif > 0 then Text.padRight (width rows Row.iif) r.iif ++ "  " else ""
  let oif := if width rows Row.oif > 0 then Text.padRight (width rows Row.oif) r.oif ++ "  " else ""
  indent ++ iif ++ oif ++ Text.padRight (width rows Row.proto) r.proto ++ "  " ++
    Text.padRight (width rows Row.src) r.src ++ " -> " ++
    Text.padRight (width rows Row.dst) r.dst ++ " " ++
    Text.padRight (width rows Row.dport) r.dport ++ "  " ++ r.note

def table (rows : List Row) (indent : String) : String :=
  String.join (rows.map (fun r => Text.trimEnd (tableLine rows indent r) ++ "\n"))

/-- A comma in front of every third digit from the right. -/
def groupDigits : List Char → List Char
  | [] => []
  | [c] => [c]
  | c :: next :: rest =>
      if (next :: rest).length % 3 = 0 then c :: ',' :: groupDigits (next :: rest)
      else c :: groupDigits (next :: rest)

/-- How often a number is divided by ten before it has one digit. -/
def decimalExponent (n : Nat) : Nat :=
  if n ≥ 10 then decimalExponent (n / 10) + 1 else 0
termination_by n

/-- Exact below a billion, scientific above. -/
def count (n : Nat) : String :=
  if n < 1000000000 then String.ofList (groupDigits (toString n).toList)
  else
    let exp := decimalExponent n
    let lead := n / 10 ^ min (exp - 1) 38
    toString (lead / 10) ++ "." ++ toString (lead % 10) ++ "e" ++ toString exp

end Render

end Fwdelta
