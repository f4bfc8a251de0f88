import Fwdelta.Bits
import Fwdelta.Engine.Flow
import Fwdelta.Engine.Region

/-
Decision diagram to a short list of rectangles.

The paths of the diagram are mutually exclusive cubes.  A cube that expands
within the cap becomes one region, exactly; the regions are merged, sorted and
truncated.  Whatever stops the walk early, or cannot be expanded, is flagged.
-/

namespace Fwdelta

open DecisionDiagram
open DecisionDiagram.Library
open DecisionDiagram.PathLibrary

/-- Work limits for a single enumeration. -/
structure EnumOptions where
  maxCubes : Nat
  maskExpandCap : Nat
  maxRegions : Nat
  mergePasses : Nat
  deriving DecidableEq, Repr

namespace EnumOptions

def default : EnumOptions where
  maxCubes := 200000
  maskExpandCap := 4096
  maxRegions := 40
  mergePasses := 8

end EnumOptions

/-- The result of enumerating one set of packets. -/
structure Enumeration where
  regions : List Region
  totalPackets : Nat
  shownPackets : Nat
  omittedRegions : Nat
  omittedPackets : Nat
  unrenderablePackets : Nat
  cubesVisited : Nat
  regionsBeforeMerge : Nat
  incomplete : Bool
  deriving DecidableEq

/-! ### One field of one cube -/

/-- Expand a bit pattern into the exact set of values it denotes.  Words have 64
bits, and `None` means more runs than the cap. -/
def maskToIntervals (bits value mask cap : Nat) : Option (IntervalSet bits) :=
  let domain := domainMax bits
  let mask := mask &&& domain
  if mask = 0 then some (IntervalSet.full bits)
  else
    let value := value &&& mask
    let lsb := mask &&& Bits.negate 64 mask
    let lowSpan := lsb - 1
    let freeHigh := Bits.complement 64 mask &&& Bits.complement 64 lowSpan &&& domain
    let k := Bits.countOnes 64 freeHigh
    if k ≥ 64 ∨ 2 ^ k > cap then none
    else
      let positions := (List.range bits).filter freeHigh.testBit
      let ranges := (List.range (2 ^ k)).map (fun combo =>
        let base := value ||| Bits.scatter positions combo
        (base, base ||| lowSpan))
      some (IntervalSet.fromRanges bits ranges)

/-- Values a pattern denotes, without building the intervals. -/
def maskCount (bits mask : Nat) : Nat :=
  2 ^ (bits - Bits.countOnes 64 mask)

def readField (layout : Layout) (cube : Clause HEADER_BITS) (field : Field) : Nat × Nat :=
  (List.range field.bits).foldl
    (fun acc bit =>
      match cube (layout.var field bit) with
      | some v =>
          -- Bit `b` counts from the most significant; the numeric weight is the mirror.
          let weight := 1 <<< (field.bits - 1 - bit)
          (if v then acc.1 ||| weight else acc.1, acc.2 ||| weight)
      | none => acc)
    (0, 0)

/-! ### The walk -/

/-- The loop over the fields of a cube: the region, unless a field exceeds the
cap, and the packets counted up to there. -/
def readCube (layout : Layout) (cube : Clause HEADER_BITS) (cap : Nat) (packets : Nat)
    (region : Region) : List Field → Option Region × Nat
  | [] => (some region, packets)
  | field :: rest =>
      let read := readField layout cube field
      let counted := packets * maskCount field.bits read.2
      match maskToIntervals field.bits read.1 read.2 cap with
      | some set => readCube layout cube cap counted (region.withDim field set) rest
      | none => (none, counted)

/-- What the walk over the cubes has found so far. -/
structure Walk where
  visited : Nat
  raw : List Region
  skipped : Nat
  incomplete : Bool

def walkCubes (layout : Layout) (opts : EnumOptions) (state : Walk) :
    List (Clause HEADER_BITS) → Walk
  | [] => state
  | cube :: rest =>
      if state.visited ≥ opts.maxCubes then { state with incomplete := true }
      else
        match readCube layout cube opts.maskExpandCap 1 Region.full Field.all with
        | (some region, _) =>
            walkCubes layout opts
              { state with visited := state.visited + 1, raw := state.raw ++ [region] } rest
        | (none, packets) =>
            walkCubes layout opts
              { state with
                visited := state.visited + 1
                skipped := state.skipped + packets
                incomplete := true } rest

/-- Largest first, then the fewest constrained dimensions, then the derived order. -/
def displayLe (a b : Region) : Bool :=
  if a.count ≠ b.count then b.count < a.count
  else if a.constrainedDims ≠ b.constrainedDims then a.constrainedDims < b.constrainedDims
  else a.le b

section Enumerate

variable {B : Type} [PathLibrary HEADER_BITS B]

/-- Enumerate the packet set as readable rectangles. -/
def enumerate (layout : Layout) (set : B) (opts : EnumOptions) : Enumeration :=
  let total := exactCardinality set
  if isFalse set then
    { regions := []
      totalPackets := total
      shownPackets := 0
      omittedRegions := 0
      omittedPackets := 0
      unrenderablePackets := 0
      cubesVisited := 0
      regionsBeforeMerge := 0
      incomplete := false }
  else
    let walk := walkCubes layout opts
      { visited := 0, raw := [], skipped := 0, incomplete := false } (satClauses set)
    let merged := (Region.merge walk.raw opts.mergePasses).insertionSort
      (fun a b => displayLe a b = true)
    let shown := merged.take opts.maxRegions
    let shownPackets := (shown.map Region.count).sum
    { regions := shown
      totalPackets := total
      shownPackets := shownPackets
      omittedRegions := (merged.drop opts.maxRegions).length
      omittedPackets := total - shownPackets
      unrenderablePackets := walk.skipped
      cubesVisited := walk.visited
      regionsBeforeMerge := walk.raw.length
      incomplete := walk.incomplete }

end Enumerate

/-! ### What a pattern denotes -/

/-- The values that agree with the pattern on its fixed bits. -/
def Fits (bits value mask x : Nat) : Prop :=
  x ≤ domainMax bits ∧ ∀ i < bits, mask.testBit i = true → x.testBit i = value.testBit i

theorem testBit_domainMax {bits : Nat} (narrow : bits < 64) (i : Nat) :
    (domainMax bits).testBit i = decide (i < bits) := by
  rw [domainMax_eq narrow, Nat.testBit_two_pow_sub_one]

theorem le_domainMax_iff_testBit {bits : Nat} (narrow : bits < 64) (x : Nat) :
    x ≤ domainMax bits ↔ ∀ i, bits ≤ i → x.testBit i = false := by
  have positive := Nat.two_pow_pos bits
  rw [domainMax_eq narrow]
  constructor
  · intro within i beyond
    have below : x < 2 ^ bits := by omega
    exact Nat.testBit_lt_two_pow (below.trans_le (Nat.pow_le_pow_right (by omega) beyond))
  · intro clear
    have below : x < 2 ^ bits := Nat.lt_pow_two_of_testBit x clear
    omega

theorem scatter_clear {positions : List Nat} {i : Nat} (outside : i ∉ positions) (combo : Nat) :
    (Bits.scatter positions combo).testBit i = false := by
  rw [← Bool.not_eq_true]
  intro bit
  obtain ⟨j, at_, _⟩ := (Bits.testBit_scatter positions combo i).mp bit
  exact outside (List.mem_of_getElem? at_)

/-- A run starts with the fixed bits of the pattern and a choice of the others. -/
theorem testBit_run {mask : Nat} {positions : List Nat}
    (apart : ∀ i ∈ positions, mask.testBit i = false) (value combo i : Nat) :
    (value &&& mask ||| Bits.scatter positions combo).testBit i =
      if mask.testBit i then value.testBit i else (Bits.scatter positions combo).testBit i := by
  rw [Nat.testBit_or, Nat.testBit_and]
  cases fixed : mask.testBit i with
  | true =>
      have outside : i ∉ positions := by
        intro member
        rw [apart i member] at fixed
        contradiction
      simp [scatter_clear outside]
  | false => simp

/-- The runs of a pattern: one block for each choice of the free bits above the
lowest fixed bit. -/
theorem covers_runs_iff (value : Nat) {bits mask t : Nat} (narrow : bits < 64)
    (fixedWithin : ∀ i, mask.testBit i = true → i < bits) (lowest : mask.testBit t = true)
    (below : ∀ i < t, mask.testBit i = false) (positions : List Nat)
    (free : ∀ i, i ∈ positions ↔ i < bits ∧ t ≤ i ∧ mask.testBit i = false) (x : Nat) :
    Covers ((List.range (2 ^ positions.length)).map (fun combo =>
      (value &&& mask ||| Bits.scatter positions combo,
        value &&& mask ||| Bits.scatter positions combo ||| (2 ^ t - 1)))) x ↔
      Fits bits value mask x := by
  have run := testBit_run (fun i member => ((free i).mp member).2.2) value
  have open_ {i : Nat} (beyond : bits ≤ i) : ¬ mask.testBit i = true := by
    intro fixed
    have within := fixedWithin i fixed
    omega
  have aligned (combo : Nat) :
      ∀ i < t, (value &&& mask ||| Bits.scatter positions combo).testBit i = false := by
    intro i low
    have outside : i ∉ positions := by
      intro member
      have high := ((free i).mp member).2.1
      omega
    rw [run, below i low, if_neg (by simp), scatter_clear outside]
  have covered : Covers ((List.range (2 ^ positions.length)).map (fun combo =>
      (value &&& mask ||| Bits.scatter positions combo,
        value &&& mask ||| Bits.scatter positions combo ||| (2 ^ t - 1)))) x ↔
      ∃ combo < 2 ^ positions.length, ∀ i, t ≤ i →
        x.testBit i = (value &&& mask ||| Bits.scatter positions combo).testBit i := by
    simp only [Covers, List.mem_map, List.mem_range, exists_exists_and_eq_and,
      Bits.le_and_le_or_iff (aligned _)]
  rw [covered, Fits, le_domainMax_iff_testBit narrow]
  have tWithin := fixedWithin t lowest
  constructor
  · intro found
    obtain ⟨combo, _, same⟩ := found
    constructor
    · intro i beyond
      have outside : i ∉ positions := by
        intro member
        have inField := ((free i).mp member).1
        omega
      rw [same i (by omega), run, if_neg (open_ beyond), scatter_clear outside]
    · intro i _ fixed
      have high : t ≤ i := by
        by_contra low
        rw [below i (by omega)] at fixed
        contradiction
      rw [same i high, run, if_pos fixed]
  · intro fits
    obtain ⟨within, agrees⟩ := fits
    obtain ⟨combo, small, chosen⟩ := Bits.exists_scatter positions x.testBit
    refine ⟨combo, small, ?_⟩
    intro i high
    rw [run]
    by_cases fixed : mask.testBit i = true
    · rw [if_pos fixed, agrees i (fixedWithin i fixed) fixed]
    · rw [if_neg fixed, chosen i]
      by_cases inField : i < bits
      · have member : i ∈ positions := (free i).mpr ⟨inField, high, by simpa using fixed⟩
        simp [member]
      · simp [within i (by omega)]

/-- The bits that a pattern leaves free above its lowest fixed bit. -/
theorem testBit_free {bits fixed t : Nat} (narrow : bits < 64) (small : fixed < 2 ^ 64)
    (tWithin : t < bits) (i : Nat) :
    (Bits.complement 64 fixed &&& Bits.complement 64 (2 ^ t - 1) &&& domainMax bits).testBit i =
        true ↔ i < bits ∧ t ≤ i ∧ fixed.testBit i = false := by
  have positive := Nat.two_pow_pos t
  have power : 2 ^ t < 2 ^ 64 := Nat.pow_lt_pow_right (by omega) (by omega)
  rw [Nat.testBit_and, Nat.testBit_and, Bits.testBit_complement small,
    Bits.testBit_complement (by omega), testBit_domainMax narrow, Nat.testBit_two_pow_sub_one]
  simp only [Bool.and_eq_true, Bool.not_eq_true', decide_eq_true_eq, decide_eq_false_iff_not]
  constructor
  · intro given
    exact ⟨given.2, by omega, given.1.1.2⟩
  · intro given
    exact ⟨⟨⟨by omega, given.2.2⟩, by omega, by omega⟩, given.1⟩

theorem testBit_fieldMask {bits : Nat} (narrow : bits < 64) (mask i : Nat) :
    (mask &&& domainMax bits).testBit i = (mask.testBit i && decide (i < bits)) := by
  rw [Nat.testBit_and, testBit_domainMax narrow]

/-- Mask bits beyond the field change nothing. -/
theorem fits_fieldMask {bits : Nat} (narrow : bits < 64) (value mask x : Nat) :
    Fits bits value (mask &&& domainMax bits) x ↔ Fits bits value mask x := by
  unfold Fits
  apply and_congr_right
  intro _
  apply forall₂_congr
  intro i inField
  rw [testBit_fieldMask narrow, decide_eq_true inField, Bool.and_true]

/-- The free bits of a field from a place on. -/
def openAbove (bits fixed t : Nat) : List Nat :=
  (List.range bits).filter (fun i => decide (t ≤ i) && !fixed.testBit i)

theorem mem_openAbove {bits fixed t i : Nat} :
    i ∈ openAbove bits fixed t ↔ i < bits ∧ t ≤ i ∧ fixed.testBit i = false := by
  rw [openAbove, List.mem_filter, List.mem_range, Bool.and_eq_true, decide_eq_true_eq,
    Bool.not_eq_true']

/-- A pattern that fixes a bit of the field is expanded from its lowest fixed bit, one
run for each choice of the free bits above. -/
theorem maskToIntervals_of_fixed {bits mask : Nat} (value cap : Nat) (narrow : bits < 64)
    (some_ : mask &&& domainMax bits ≠ 0) :
    ∃ t < bits, (mask &&& domainMax bits).testBit t = true ∧
      (∀ i < t, (mask &&& domainMax bits).testBit i = false) ∧
      maskToIntervals bits value mask cap =
        if cap < 2 ^ (openAbove bits (mask &&& domainMax bits) t).length then none
        else some (IntervalSet.fromRanges bits
          ((List.range (2 ^ (openAbove bits (mask &&& domainMax bits) t).length)).map
            (fun combo =>
              (value &&& (mask &&& domainMax bits) |||
                  Bits.scatter (openAbove bits (mask &&& domainMax bits) t) combo,
                value &&& (mask &&& domainMax bits) |||
                  Bits.scatter (openAbove bits (mask &&& domainMax bits) t) combo |||
                    (2 ^ t - 1))))) := by
  obtain ⟨fixed, masked⟩ : ∃ fixed, fixed = mask &&& domainMax bits := ⟨_, rfl⟩
  rw [← masked] at some_ ⊢
  obtain ⟨t, lowest, below⟩ := Bits.exists_lowest_bit some_
  have fixedBit (i : Nat) : fixed.testBit i = (mask.testBit i && decide (i < bits)) := by
    rw [masked, testBit_fieldMask narrow]
  have inField : t < bits := by
    have both := lowest
    rw [fixedBit, Bool.and_eq_true, decide_eq_true_eq] at both
    exact both.2
  have small : fixed < 2 ^ 64 := by
    apply Nat.lt_pow_two_of_testBit
    intro i beyond
    rw [fixedBit, decide_eq_false (by omega), Bool.and_false]
  have freeBit := testBit_free narrow small inField
  have positions : (List.range bits).filter
      (Bits.complement 64 fixed &&& Bits.complement 64 (2 ^ t - 1) &&& domainMax bits).testBit =
        openAbove bits fixed t := by
    apply List.filter_congr
    intro i member
    rw [Bool.eq_iff_iff, freeBit, Bool.and_eq_true, decide_eq_true_eq, Bool.not_eq_true',
      and_iff_right (List.mem_range.mp member)]
  have count : Bits.countOnes 64
      (Bits.complement 64 fixed &&& Bits.complement 64 (2 ^ t - 1) &&& domainMax bits) =
        (openAbove bits fixed t).length := by
    rw [Bits.countOnes_eq_length_filter _ (show bits ≤ 64 by omega) (fun i beyond => by
      rw [← Bool.not_eq_true, freeBit]
      omega), positions]
  have few : (openAbove bits fixed t).length ≤ bits :=
    (List.length_filter_le _ _).trans List.length_range.le
  refine ⟨t, inField, lowest, below, ?_⟩
  unfold maskToIntervals
  simp only [← masked]
  rw [if_neg some_, Bits.and_negate small lowest below, positions, count]
  by_cases more : cap < 2 ^ (openAbove bits fixed t).length
  · rw [if_pos more, if_pos (Or.inr more)]
  · rw [if_neg more, if_neg (by omega)]

/-- A pattern that expands within the cap is expanded exactly. -/
theorem contains_maskToIntervals {bits value mask cap : Nat} (narrow : bits < 64)
    {set : IntervalSet bits} (found : maskToIntervals bits value mask cap = some set) (x : Nat) :
    set.contains x = true ↔ Fits bits value mask x := by
  rw [← fits_fieldMask narrow]
  by_cases some_ : mask &&& domainMax bits = 0
  · unfold maskToIntervals at found
    simp only [some_, if_true] at found
    rw [← Option.some.inj found, IntervalSet.contains_full, some_]
    simp [Fits]
  · obtain ⟨t, _, lowest, below, expanded⟩ := maskToIntervals_of_fixed value cap narrow some_
    have fixedWithin (i : Nat) (isSet : (mask &&& domainMax bits).testBit i = true) :
        i < bits := by
      rw [testBit_fieldMask narrow, Bool.and_eq_true, decide_eq_true_eq] at isSet
      exact isSet.2
    have runs := covers_runs_iff value narrow fixedWithin lowest below _ (fun _ => mem_openAbove)
    rw [expanded] at found
    split at found
    · contradiction
    · rw [← runs x, ← Option.some.inj found]
      apply IntervalSet.contains_fromRanges
      intro range member
      -- The last value of a run fits the pattern, so it is in the domain.
      obtain ⟨combo, among, rfl⟩ := List.mem_map.mp member
      have ends := (runs _).mp ⟨_, List.mem_map.mpr ⟨combo, among, rfl⟩,
        Nat.left_le_or, le_refl _⟩
      exact ends.1
/-! ### What a cube denotes -/

theorem readField_eq (layout : Layout) (cube : Clause HEADER_BITS) (field : Field) :
    readField layout cube field =
      (layout.fieldValue (fun i => cube i == some true) field,
        layout.fieldValue (fun i => (cube i).isSome) field) := by
  have folded (bits : List Nat) (start : Nat × Nat) :
      bits.foldl (fun acc bit =>
        match cube (layout.var field bit) with
        | some v =>
            let weight := 1 <<< (field.bits - 1 - bit)
            (if v then acc.1 ||| weight else acc.1, acc.2 ||| weight)
        | none => acc) start =
      (bits.foldl (fun acc bit =>
          if cube (layout.var field bit) == some true then
            acc ||| (1 <<< (field.bits - 1 - bit)) else acc) start.1,
        bits.foldl (fun acc bit =>
          if (cube (layout.var field bit)).isSome then
            acc ||| (1 <<< (field.bits - 1 - bit)) else acc) start.2) := by
    induction bits generalizing start with
    | nil => rfl
    | cons bit rest ih =>
        simp only [List.foldl_cons, ih]
        cases cube (layout.var field bit) with
        | none => rfl
        | some v => cases v <;> rfl
  exact folded _ _

/-- A field of a cube reads as a word of the field's width. -/
theorem testBit_readField_mask (layout : Layout) (cube : Clause HEADER_BITS) (field : Field)
    (i : Nat) : (readField layout cube field).2.testBit i = (decide (i < field.bits) &&
      (cube (layout.var field (field.bits - 1 - i))).isSome) := by
  rw [readField_eq, layout.testBit_fieldValue]

/-- A cube fixes, in each field, the bits of that field's pattern. -/
theorem holds_iff_fits (layout : Layout) (cube : Clause HEADER_BITS) (v : Valuation) :
    cube.Holds v ↔ ∀ field, Fits field.bits (readField layout cube field).1
      (readField layout cube field).2 (layout.fieldValue v field) := by
  have patterns (field : Field) : Fits field.bits (readField layout cube field).1
      (readField layout cube field).2 (layout.fieldValue v field) ↔
      ∀ bit < field.bits, (cube (layout.var field bit)).isSome = true →
        v (layout.var field bit) = (cube (layout.var field bit) == some true) := by
    unfold Fits
    rw [readField_eq, and_iff_right (layout.fieldValue_le_domainMax v field)]
    simp only [layout.testBit_fieldValue]
    constructor
    · intro agrees bit inField fixed
      have mirrored : field.bits - 1 - (field.bits - 1 - bit) = bit := by omega
      have here := agrees (field.bits - 1 - bit) (by omega)
      rw [mirrored] at here
      simpa [show field.bits - 1 - bit < field.bits by omega, fixed] using here
    · intro agrees i inField fixed
      rw [Bool.and_eq_true] at fixed
      simp only [decide_eq_true inField, Bool.true_and]
      exact agrees _ (by omega) fixed.2
  simp only [patterns]
  constructor
  · intro holds field bit _ fixed
    obtain ⟨value, here⟩ := Option.isSome_iff_exists.mp fixed
    rw [holds _ value here, here]
    cases value <;> rfl
  · intro agrees index value fixed
    obtain ⟨field, bit, inField, rfl⟩ := layout.exists_var index
    have here := agrees field bit inField (by rw [fixed]; rfl)
    rw [fixed] at here
    rw [here]
    cases value <;> rfl

/-- Every field of the cube expands within the cap. -/
def Usable (layout : Layout) (cap : Nat) (cube : Clause HEADER_BITS) : Prop :=
  ∀ field : Field, (maskToIntervals field.bits (readField layout cube field).1
    (readField layout cube field).2 cap).isSome = true

/-- The region of a usable cube. -/
def cubeRegion (layout : Layout) (cap : Nat) (cube : Clause HEADER_BITS) : Option Region :=
  (readCube layout cube cap 1 Region.full Field.all).1

/-- The fields read so far are expanded, the others are as at the start. -/
theorem get_readCube {layout : Layout} {cube : Clause HEADER_BITS} {cap packets : Nat}
    {start region : Region} {fields : List Field} (distinct : fields.Nodup)
    (found : (readCube layout cube cap packets start fields).1 = some region) (field : Field) :
    if field ∈ fields then
      maskToIntervals field.bits (readField layout cube field).1
        (readField layout cube field).2 cap = some (region.get field)
    else region.get field = start.get field := by
  induction fields generalizing packets start with
  | nil =>
      rw [if_neg List.not_mem_nil, ← Option.some.inj found]
  | cons first rest ih =>
      obtain ⟨outside, restDistinct⟩ := List.nodup_cons.mp distinct
      simp only [readCube] at found
      cases expanded : maskToIntervals first.bits (readField layout cube first).1
          (readField layout cube first).2 cap with
      | none =>
          rw [expanded] at found
          contradiction
      | some set =>
          rw [expanded] at found
          have here := ih restDistinct found
          by_cases same : field = first
          · subst same
            rw [if_neg outside, Region.get_withDim] at here
            rw [if_pos List.mem_cons_self, expanded, here]
          · by_cases member : field ∈ rest
            · rw [if_pos member] at here
              rw [if_pos (List.mem_cons_of_mem _ member), here]
            · rw [if_neg member, Region.get_withDim_of_ne _ _ same] at here
              rw [if_neg (by simp [same, member]), here]

theorem isSome_readCube_iff (layout : Layout) (cube : Clause HEADER_BITS) (cap packets : Nat)
    (start : Region) (fields : List Field) :
    (readCube layout cube cap packets start fields).1.isSome = true ↔
      ∀ field ∈ fields, (maskToIntervals field.bits (readField layout cube field).1
        (readField layout cube field).2 cap).isSome = true := by
  induction fields generalizing packets start with
  | nil => simp [readCube]
  | cons first rest ih =>
      rw [List.forall_mem_cons]
      simp only [readCube]
      cases expanded : maskToIntervals first.bits (readField layout cube first).1
          (readField layout cube first).2 cap with
      | none => simp
      | some set =>
          simp only [Option.isSome_some, true_and]
          exact ih _ _

theorem isSome_cubeRegion_iff (layout : Layout) (cap : Nat) (cube : Clause HEADER_BITS) :
    (cubeRegion layout cap cube).isSome = true ↔ Usable layout cap cube := by
  apply (isSome_readCube_iff layout cube cap 1 Region.full Field.all).trans
  exact ⟨fun all field => all field (Field.mem_all field), fun all field _ => all field⟩

/-- A usable cube and its region hold the same valuations. -/
theorem holds_cubeRegion {layout : Layout} {cap : Nat} {cube : Clause HEADER_BITS}
    {region : Region} (found : cubeRegion layout cap cube = some region) (v : Valuation) :
    region.Holds (layout.fieldValue v) ↔ cube.Holds v := by
  rw [holds_iff_fits layout]
  apply forall_congr'
  intro field
  have here := get_readCube Field.all_nodup found field
  rw [if_pos (Field.mem_all field)] at here
  have narrow := field.bits_le
  exact contains_maskToIntervals (by omega) here _

theorem walkCubes_spec (layout : Layout) (opts : EnumOptions) (state : Walk)
    (cubes : List (Clause HEADER_BITS)) :
    (walkCubes layout opts state cubes).raw = state.raw ++
        (cubes.take (opts.maxCubes - state.visited)).filterMap
          (cubeRegion layout opts.maskExpandCap) ∧
      (walkCubes layout opts state cubes).incomplete = (state.incomplete ||
        (cubes.take (opts.maxCubes - state.visited)).any
          (fun cube => !(cubeRegion layout opts.maskExpandCap cube).isSome) ||
        decide (opts.maxCubes - state.visited < cubes.length)) := by
  induction cubes generalizing state with
  | nil => simp [walkCubes]
  | cons cube rest ih =>
      unfold walkCubes
      split
      · next spent =>
          have none : opts.maxCubes - state.visited = 0 := by omega
          simp [none]
      · next left =>
          obtain ⟨more, room⟩ : ∃ more, opts.maxCubes - state.visited = more + 1 :=
            ⟨opts.maxCubes - state.visited - 1, by omega⟩
          have after : opts.maxCubes - (state.visited + 1) = more := by omega
          cases read : readCube layout cube opts.maskExpandCap 1 Region.full Field.all with
          | mk found packets =>
              have region : cubeRegion layout opts.maskExpandCap cube = found := by
                rw [cubeRegion, read]
              cases found with
              | some r =>
                  have later := ih { state with
                    visited := state.visited + 1, raw := state.raw ++ [r] }
                  simp only [after] at later
                  simp only [room, List.take_succ_cons, List.filterMap_cons, region,
                    List.any_cons, List.length_cons]
                  constructor
                  · rw [later.1, List.append_assoc]
                    rfl
                  · rw [later.2]
                    simp
              | none =>
                  have later := ih { state with
                    visited := state.visited + 1
                    skipped := state.skipped + packets
                    incomplete := true }
                  simp only [after] at later
                  simp only [room, List.take_succ_cons, List.filterMap_cons, region,
                    List.any_cons, List.length_cons]
                  exact ⟨later.1, by rw [later.2]; simp⟩

/-! ### What an enumeration describes -/

/-- What a region holds are packets. -/
theorem Region.exists_packet {r : Region} {value : Field → Nat} (holds : r.Holds value) :
    ∃ p : Packet, p.value = value := by
  have small (field : Field) : value field < 2 ^ field.bits := by
    have within := IntervalSet.contains_le (holds field)
    have narrow := field.bits_le
    have positive := Nat.two_pow_pos field.bits
    rw [domainMax_eq (by omega)] at within
    omega
  refine ⟨⟨BitVec.ofNat 32 (value .srcAddr), BitVec.ofNat 32 (value .dstAddr),
    BitVec.ofNat 16 (value .srcPort), BitVec.ofNat 16 (value .dstPort),
    BitVec.ofNat 8 (value .proto), BitVec.ofNat 8 (value .ifIn),
    BitVec.ofNat 8 (value .ifOut)⟩, ?_⟩
  funext field
  have below := small field
  cases field <;> exact Nat.mod_eq_of_lt below

theorem holds_cubeRegion_packet {layout : Layout} {cap : Nat} {cube : Clause HEADER_BITS}
    {region : Region} (found : cubeRegion layout cap cube = some region) (p : Packet) :
    region.Holds p.value ↔ cube.Holds (layout.encode p) := by
  have meaning := holds_cubeRegion found (layout.encode p)
  rwa [funext (layout.fieldValue_encode p)] at meaning

theorem apart_cubeRegions (layout : Layout) (cap : Nat) {cubes : List (Clause HEADER_BITS)}
    (apart : cubes.Pairwise (fun clause other => ∀ v, ¬ (clause.Holds v ∧ other.Holds v))) :
    Region.Apart (cubes.filterMap (cubeRegion layout cap)) := by
  unfold Region.Apart
  rw [List.pairwise_filterMap]
  apply apart.imp
  intro clause other clear a first b second value both
  obtain ⟨p, rfl⟩ := Region.exists_packet both.1
  rw [holds_cubeRegion_packet first, holds_cubeRegion_packet second] at both
  exact clear _ both

theorem inhabited_cubeRegions (layout : Layout) (cap : Nat) (cubes : List (Clause HEADER_BITS)) :
    ∀ r ∈ cubes.filterMap (cubeRegion layout cap), r.isEmpty = false := by
  intro r member
  obtain ⟨cube, _, found⟩ := List.mem_filterMap.mp member
  obtain ⟨v, holds⟩ := cube.exists_holds
  exact Region.isEmpty_eq_false_of_holds ((holds_cubeRegion found v).mpr holds)

section Enumeration

variable {B : Type} [PathLibrary HEADER_BITS B]

/-- The cubes the walk visits. -/
def visitedCubes (set : B) (opts : EnumOptions) : List (Clause HEADER_BITS) :=
  (satClauses set).take opts.maxCubes

/-- The regions before the display cap. -/
def mergedRegions (layout : Layout) (set : B) (opts : EnumOptions) : List Region :=
  (Region.merge ((visitedCubes set opts).filterMap (cubeRegion layout opts.maskExpandCap))
    opts.mergePasses).insertionSort (fun a b => displayLe a b = true)

theorem satClauses_eq_nil {set : B} (empty : isFalse set = true) : satClauses set = [] := by
  rw [List.eq_nil_iff_forall_not_mem]
  intro cube member
  obtain ⟨v, holds⟩ := cube.exists_holds
  have inside := (eval_iff_satClauses set v).mpr ⟨cube, member, holds⟩
  rw [(isFalse_iff set).mp empty v] at inside
  contradiction

/-- Every enumeration shows the first of the merged regions; an empty set has
none. -/
theorem enumerate_eq (layout : Layout) (set : B) (opts : EnumOptions) :
    (enumerate layout set opts).regions = (mergedRegions layout set opts).take opts.maxRegions ∧
      (enumerate layout set opts).omittedRegions =
        ((mergedRegions layout set opts).drop opts.maxRegions).length ∧
      (enumerate layout set opts).incomplete =
        ((visitedCubes set opts).any
            (fun cube => !(cubeRegion layout opts.maskExpandCap cube).isSome) ||
          decide (opts.maxCubes < (satClauses set).length)) := by
  unfold enumerate
  by_cases empty : isFalse set = true
  · have nothing : visitedCubes set opts = [] := by
      rw [visitedCubes, satClauses_eq_nil empty, List.take_nil]
    have merged : mergedRegions layout set opts = [] := by
      rw [mergedRegions, nothing, List.filterMap_nil,
        (Region.merge_eq_nil_iff opts.mergePasses (by simp)).mpr rfl]
      rfl
    simp [empty, nothing, merged, satClauses_eq_nil empty]
  · have spec := walkCubes_spec layout opts
      { visited := 0, raw := [], skipped := 0, incomplete := false } (satClauses set)
    simp only [Nat.sub_zero, List.nil_append, Bool.false_or] at spec
    rw [if_neg empty]
    refine ⟨?_, ?_, spec.2⟩
    · simp only [spec.1]
      rfl
    · simp only [spec.1]
      rfl

theorem perm_mergedRegions (layout : Layout) (set : B) (opts : EnumOptions) :
    (mergedRegions layout set opts).Perm (Region.merge
      ((visitedCubes set opts).filterMap (cubeRegion layout opts.maskExpandCap))
        opts.mergePasses) :=
  List.perm_insertionSort _ _

theorem apart_mergedRegions (layout : Layout) (set : B) (opts : EnumOptions) :
    Region.Apart (mergedRegions layout set opts) := by
  have cubes := (satClauses_apart set).sublist (List.take_sublist opts.maxCubes _)
  have apart := Region.apart_merge opts.mergePasses
    (apart_cubeRegions layout opts.maskExpandCap cubes)
  exact ((perm_mergedRegions layout set opts).pairwise_iff
    fun clear value both => clear value both.symm).mpr apart

theorem inhabited_mergedRegions (layout : Layout) (set : B) (opts : EnumOptions) :
    ∀ r ∈ mergedRegions layout set opts, r.isEmpty = false := by
  intro r member
  exact Region.inhabited_merge _ opts.mergePasses r
    ((perm_mergedRegions layout set opts).mem_iff.mp member)

/-- The merged regions cover the usable visited cubes. -/
theorem covered_mergedRegions (layout : Layout) (set : B) (opts : EnumOptions) (p : Packet) :
    Region.Covered (mergedRegions layout set opts) p.value ↔
      ∃ cube ∈ visitedCubes set opts, Usable layout opts.maskExpandCap cube ∧
        cube.Holds (layout.encode p) := by
  have sorted := (Region.Merged.of_perm (perm_mergedRegions layout set opts)).covered p.value
  rw [← sorted, Region.covered_merge]
  constructor
  · intro covered
    obtain ⟨r, member, holds⟩ := covered
    obtain ⟨cube, visited, found⟩ := List.mem_filterMap.mp member
    refine ⟨cube, visited, ?_, (holds_cubeRegion_packet found p).mp holds⟩
    rw [← isSome_cubeRegion_iff, found]
    rfl
  · intro given
    obtain ⟨cube, visited, usable, holds⟩ := given
    rw [← isSome_cubeRegion_iff] at usable
    obtain ⟨r, found⟩ := Option.isSome_iff_exists.mp usable
    exact ⟨r, List.mem_filterMap.mpr ⟨cube, visited, found⟩,
      (holds_cubeRegion_packet found p).mpr holds⟩

theorem mem_iff_satClauses (layout : Layout) (set : B) (p : Packet) :
    layout.mem set p = true ↔ ∃ cube ∈ satClauses set, cube.Holds (layout.encode p) :=
  eval_iff_satClauses set _

theorem mem_of_covered_mergedRegions {layout : Layout} {set : B} {opts : EnumOptions} {p : Packet}
    (covered : Region.Covered (mergedRegions layout set opts) p.value) :
    layout.mem set p = true := by
  obtain ⟨cube, visited, _, holds⟩ := (covered_mergedRegions layout set opts p).mp covered
  exact (mem_iff_satClauses layout set p).mpr ⟨cube, List.mem_of_mem_take visited, holds⟩

theorem length_mergedRegions_le (layout : Layout) (set : B) (opts : EnumOptions) :
    (mergedRegions layout set opts).length ≤ opts.maxCubes := by
  rw [(perm_mergedRegions layout set opts).length_eq]
  apply (Region.length_merge_le _ _).trans
  apply (List.length_filterMap_le _ _).trans
  rw [visitedCubes, List.length_take]
  exact Nat.min_le_left _ _

/-- The flag is right in both directions: the walk is incomplete exactly when
some packet of the set is in no merged region. -/
theorem incomplete_iff (layout : Layout) (set : B) (opts : EnumOptions) :
    (enumerate layout set opts).incomplete = false ↔
      ∀ p, layout.mem set p = true → Region.Covered (mergedRegions layout set opts) p.value := by
  rw [(enumerate_eq layout set opts).2.2, Bool.or_eq_false_iff, decide_eq_false_iff_not,
    List.any_eq_false]
  simp only [Bool.not_eq_true', Bool.not_eq_false, isSome_cubeRegion_iff]
  constructor
  · intro all p inside
    obtain ⟨usable, short⟩ := all
    have visited : visitedCubes set opts = satClauses set :=
      List.take_of_length_le (Nat.not_lt.mp short)
    obtain ⟨cube, member, holds⟩ := (mem_iff_satClauses layout set p).mp inside
    rw [← visited] at member
    exact (covered_mergedRegions layout set opts p).mpr ⟨cube, member, usable cube member, holds⟩
  · intro covers
    -- A cube is held by the usable visited cubes only if it is one of them.
    have among (i : Nat) (bound : i < (satClauses set).length) :
        i < opts.maxCubes ∧ Usable layout opts.maskExpandCap (satClauses set)[i] := by
      obtain ⟨v, holds⟩ := (satClauses set)[i].exists_holds
      have encoded := layout.encode_decode v
      have inside := (mem_iff_satClauses layout set (layout.decode v)).mpr
        ⟨_, List.getElem_mem bound, by rwa [encoded]⟩
      obtain ⟨cube, visited, usable, cubeHolds⟩ :=
        (covered_mergedRegions layout set opts _).mp (covers _ inside)
      rw [encoded] at cubeHolds
      obtain ⟨j, jBound, rfl⟩ := List.mem_iff_getElem.mp visited
      rw [visitedCubes, List.length_take] at jBound
      have there : (visitedCubes set opts)[j] = (satClauses set)[j] := List.getElem_take
      rw [there] at usable cubeHolds
      have apart := List.pairwise_iff_getElem.mp (satClauses_apart set)
      rcases Nat.lt_trichotomy i j with before | rfl | after
      · exact absurd ⟨holds, cubeHolds⟩ (apart i j bound (by omega) before v)
      · exact ⟨by omega, usable⟩
      · exact absurd ⟨cubeHolds, holds⟩ (apart j i (by omega) bound after v)
    constructor
    · intro cube member
      obtain ⟨i, bound, rfl⟩ := List.mem_iff_getElem.mp (List.mem_of_mem_take member)
      exact (among i bound).2
    · intro long
      have beyond := (among opts.maxCubes long).1
      omega

/-- Nothing is shown exactly when no visited cube is usable. -/
theorem mergedRegions_eq_nil_iff (layout : Layout) (set : B) (opts : EnumOptions) :
    mergedRegions layout set opts = [] ↔
      ∀ cube ∈ visitedCubes set opts, ¬ Usable layout opts.maskExpandCap cube := by
  rw [← List.length_eq_zero_iff, (perm_mergedRegions layout set opts).length_eq,
    List.length_eq_zero_iff, Region.merge_eq_nil_iff _ (inhabited_cubeRegions layout _ _),
    List.filterMap_eq_nil_iff]
  apply forall₂_congr
  intro cube _
  rw [← isSome_cubeRegion_iff, Bool.not_eq_true, Option.isSome_eq_false_iff,
    Option.isNone_iff_eq_none]

end Enumeration

end Fwdelta
