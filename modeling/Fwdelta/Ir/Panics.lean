import Fwdelta.Ir.Rule

/-
Where the sets and the matches panic.

The source stores the width of an interval set as a value and asserts what is a type
here.  A raw set is a width and some ranges, a raw match has raw sets for dimensions,
and an operation that panics has no result.  On the sets and the matches of this
development every operation the parser calls has one, the same as the typed operation.
-/

namespace Fwdelta

/-- An interval set as the source stores it. -/
@[ext]
structure RawSet where
  bits : Nat
  ranges : List Range
  deriving DecidableEq

def IntervalSet.raw {bits : Nat} (set : IntervalSet bits) : RawSet where
  bits := bits
  ranges := set.ranges

namespace RawSet

def point (bits v : Nat) : Option RawSet :=
  if v ≤ domainMax bits then some { bits := bits, ranges := [(v, v)] } else none

def ofPrefix (bits value len : Nat) : Option RawSet :=
  if len ≤ bits then
    let hostBits := bits - len
    let base := if hostBits ≥ 64 then 0 else (value >>> hostBits) <<< hostBits
    let span := if hostBits ≥ 64 then 2 ^ 64 - 1 else (1 <<< hostBits) - 1
    some { bits := bits, ranges := [(base, base ||| span)] }
  else
    none

def isEmpty (set : RawSet) : Bool :=
  set.ranges.isEmpty

def isFull (set : RawSet) : Bool :=
  match set.ranges with
  | [(0, hi)] => hi == domainMax set.bits
  | _ => false

def union (set other : RawSet) : Option RawSet :=
  if set.bits = other.bits then
    some { bits := set.bits, ranges := normalise (domainMax set.bits) (set.ranges ++ other.ranges) }
  else
    none

def intersect (set other : RawSet) : Option RawSet :=
  if set.bits = other.bits then
    some { bits := set.bits, ranges := intersectRanges set.ranges other.ranges }
  else
    none

/-- The loop of `complement`, whose cursor must stay a 64-bit number. -/
def complementFrom (max cursor : Nat) : List Range → Option (List Range)
  | [] => some [(cursor, max)]
  | (lo, hi) :: rest =>
      let gap := if lo > cursor then [(cursor, lo - 1)] else []
      if hi = max then some gap
      else if hi + 1 < 2 ^ 64 then (complementFrom max (hi + 1) rest).map (gap ++ ·)
      else none

def complement (set : RawSet) : Option RawSet := do
  let ranges ← complementFrom (domainMax set.bits) 0 set.ranges
  some { bits := set.bits, ranges := ranges }

end RawSet

namespace IntervalSet

variable {bits : Nat}

theorem raw_point {value : Nat} (within : value ≤ domainMax bits) :
    RawSet.point bits value = some (point bits value within).raw := by
  unfold RawSet.point
  rw [if_pos within]
  rfl

theorem raw_ofPrefix {value len : Nat} (narrow : bits < 64) (within : value ≤ domainMax bits)
    (fits : len ≤ bits) :
    RawSet.ofPrefix bits value len = some (ofPrefix bits value len narrow within).raw := by
  have host : ¬ bits - len ≥ 64 := by omega
  unfold RawSet.ofPrefix
  rw [if_pos fits]
  simp only [if_neg host]
  rfl

theorem raw_bits (set : IntervalSet bits) : set.raw.bits = bits := rfl

theorem raw_union (set other : IntervalSet bits) :
    set.raw.union other.raw = some (set.union other).raw := by
  unfold RawSet.union
  rw [if_pos ((raw_bits set).trans (raw_bits other).symm)]
  rfl

theorem raw_intersect (set other : IntervalSet bits) :
    set.raw.intersect other.raw = some (set.intersect other).raw := by
  unfold RawSet.intersect
  rw [if_pos ((raw_bits set).trans (raw_bits other).symm)]
  rfl

theorem domainMax_lt (bits : Nat) : domainMax bits < 2 ^ 64 := by
  unfold domainMax
  split
  · omega
  · have smaller := Nat.pow_lt_pow_right (a := 2) (by omega) (show bits < 64 by omega)
    omega

theorem raw_complementFrom {max : Nat} (small : max < 2 ^ 64) {ranges : List Range}
    (canonical : Canonical max ranges) (cursor : Nat) :
    RawSet.complementFrom max cursor ranges = some (complementFrom max cursor ranges) := by
  induction ranges generalizing cursor with
  | nil => rfl
  | cons range rest ih =>
      obtain ⟨lo, hi⟩ := range
      obtain ⟨_, bounded, _, restCanonical⟩ := canonical_cons.mp canonical
      simp only [RawSet.complementFrom, complementFrom]
      by_cases last : hi = max
      · rw [if_pos last, if_pos last]
      · have below : hi ≤ max := bounded
        rw [if_neg last, if_neg last, if_pos (by omega), ih restCanonical]
        rfl

theorem raw_complement (set : IntervalSet bits) :
    set.raw.complement = some set.complement.raw := by
  have swept : RawSet.complementFrom (domainMax bits) 0 set.ranges = _ :=
    raw_complementFrom (domainMax_lt bits) set.canonical 0
  unfold RawSet.complement
  rw [show set.raw.ranges = set.ranges from rfl, show set.raw.bits = bits from rfl, swept]
  rfl

end IntervalSet

/-- A match as the source stores it. -/
structure RawMatch where
  srcAddr : RawSet
  dstAddr : RawSet
  srcPort : RawSet
  dstPort : RawSet
  proto : RawSet
  iif : IfMatch
  oif : IfMatch

def Match.raw (m : Match) : RawMatch where
  srcAddr := m.srcAddr.raw
  dstAddr := m.dstAddr.raw
  srcPort := m.srcPort.raw
  dstPort := m.dstPort.raw
  proto := m.proto.raw
  iif := m.iif
  oif := m.oif

namespace RawMatch

def packetDim (m : RawMatch) : Field → Option RawSet
  | .srcAddr => some m.srcAddr
  | .dstAddr => some m.dstAddr
  | .srcPort => some m.srcPort
  | .dstPort => some m.dstPort
  | .proto => some m.proto
  | .ifIn | .ifOut => none

def constrain (m : RawMatch) (field : Field) (set : RawSet) : Option RawMatch :=
  if set.bits = field.bits then
    match field with
    | .srcAddr => (m.srcAddr.intersect set).map (fun slot => { m with srcAddr := slot })
    | .dstAddr => (m.dstAddr.intersect set).map (fun slot => { m with dstAddr := slot })
    | .srcPort => (m.srcPort.intersect set).map (fun slot => { m with srcPort := slot })
    | .dstPort => (m.dstPort.intersect set).map (fun slot => { m with dstPort := slot })
    | .proto => (m.proto.intersect set).map (fun slot => { m with proto := slot })
    | .ifIn | .ifOut => none
  else
    none

def withIif (m : RawMatch) (ifMatch : IfMatch) : RawMatch :=
  { m with iif := ifMatch }

def isUnsatisfiable (m : RawMatch) : Option Bool :=
  (Field.all.filter (fun field => !field.isInterface)).anyM
    (fun field => (m.packetDim field).map RawSet.isEmpty)

end RawMatch

namespace Match

theorem raw_packetDim (m : Match) (field : Field) (packet : field.isInterface = false) :
    m.raw.packetDim field = some (m.packetDim field packet).raw := by
  cases field with
  | ifIn => contradiction
  | ifOut => contradiction
  | _ => rfl

theorem raw_constrain (m : Match) (field : Field) (set : IntervalSet field.bits)
    (packet : field.isInterface = false) :
    m.raw.constrain field set.raw = some (m.constrain field set packet).raw := by
  unfold RawMatch.constrain
  rw [if_pos set.raw_bits]
  cases field with
  | srcAddr =>
      exact congrArg (Option.map fun slot => { m.raw with srcAddr := slot })
        (m.srcAddr.raw_intersect set)
  | dstAddr =>
      exact congrArg (Option.map fun slot => { m.raw with dstAddr := slot })
        (m.dstAddr.raw_intersect set)
  | srcPort =>
      exact congrArg (Option.map fun slot => { m.raw with srcPort := slot })
        (m.srcPort.raw_intersect set)
  | dstPort =>
      exact congrArg (Option.map fun slot => { m.raw with dstPort := slot })
        (m.dstPort.raw_intersect set)
  | proto =>
      exact congrArg (Option.map fun slot => { m.raw with proto := slot })
        (m.proto.raw_intersect set)
  | ifIn => contradiction
  | ifOut => contradiction

theorem raw_isUnsatisfiable (m : Match) : m.raw.isUnsatisfiable = some m.isUnsatisfiable := by
  have asked (fields : List Field) (packet : ∀ field ∈ fields, field.isInterface = false) :
      fields.anyM (fun field => (m.raw.packetDim field).map RawSet.isEmpty) =
        some (fields.any (fun field =>
          if packet : field.isInterface = false then (m.packetDim field packet).isEmpty
          else false)) := by
    induction fields with
    | nil => rfl
    | cons field rest ih =>
        have here := packet field (by simp)
        rw [List.anyM, raw_packetDim m field here, List.any_cons, dif_pos here,
          ih (fun other member => packet other (by simp [member]))]
        cases empty : (m.packetDim field here).isEmpty with
        | true =>
            have rawEmpty : (m.packetDim field here).raw.isEmpty = true := empty
            simp [rawEmpty]
        | false =>
            have rawEmpty : (m.packetDim field here).raw.isEmpty = false := empty
            simp [rawEmpty]
  unfold RawMatch.isUnsatisfiable Match.isUnsatisfiable
  rw [asked _ (by simp [List.mem_filter]), List.any_filter]
  congr 2
  funext field
  by_cases packet : field.isInterface = false
  · simp [packet]
  · simp [packet]

end Match

end Fwdelta
