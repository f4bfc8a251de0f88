import Fwdelta.Bits
import Fwdelta.DecisionDiagram
import Fwdelta.Ir.Rule
import Mathlib.Data.Nat.Bitwise

/-
Mapping the 120-bit header space onto decision-diagram variables.

Bit positions within a field are numbered from the most significant bit, so an
address prefix is "fix bits 0..len".  The diagram library is a parameter: every
result holds of any library that meets its interface.  Variable names are left
out, since nothing reads them.
-/

namespace Fwdelta

open DecisionDiagram
open DecisionDiagram.Library

inductive VarOrder
  | fieldMajor
  | addrInterleaved
  deriving DecidableEq, Repr

def fieldBits (field : Field) : List (Field × Nat) :=
  (List.range field.bits).map (fun bit => (field, bit))

/-- The global variable sequence: position `i` is variable `i`. -/
def VarOrder.sequence : VarOrder → List (Field × Nat)
  | .fieldMajor =>
      [Field.proto, .ifIn, .ifOut].flatMap fieldBits ++
        [Field.srcAddr, .dstAddr, .srcPort, .dstPort].flatMap fieldBits
  | .addrInterleaved =>
      [Field.proto, .ifIn, .ifOut].flatMap fieldBits ++
        (List.range 32).flatMap (fun bit => [(.srcAddr, bit), (.dstAddr, bit)]) ++
        (List.range 16).flatMap (fun bit => [(.srcPort, bit), (.dstPort, bit)])

theorem sequence_length (order : VarOrder) : order.sequence.length = HEADER_BITS := by
  cases order <;> decide +kernel

theorem sequence_nodup (order : VarOrder) : order.sequence.Nodup := by
  apply List.Nodup.of_map (fun (position : Field × Nat) => 32 * position.1.index + position.2)
  cases order <;> decide +kernel

theorem mem_sequence (order : VarOrder) (field : Field) (bit : Nat) :
    (field, bit) ∈ order.sequence ↔ bit < field.bits := by
  cases order <;> cases field <;>
    simp [VarOrder.sequence, fieldBits, Field.bits]

/-- Field and bit addressing on top of the variables. -/
structure Layout where
  order : VarOrder
  deriving DecidableEq, Repr

instance : NeZero HEADER_BITS := ⟨by decide⟩

abbrev Valuation := Fin HEADER_BITS → Bool

namespace Layout

def sequence (layout : Layout) : List (Field × Nat) :=
  layout.order.sequence

/-- The global variable index of a field bit. -/
def pos (layout : Layout) (field : Field) (bit : Nat) : Nat :=
  layout.sequence.idxOf (field, bit)

/-- The variable holding bit `bit` of `field`, counted from the most
significant.  The source asserts `bit < field.bits`. -/
def var (layout : Layout) (field : Field) (bit : Nat) : Fin HEADER_BITS :=
  Fin.ofNat HEADER_BITS (layout.pos field bit)

def fieldValue (layout : Layout) (v : Valuation) (field : Field) : Nat :=
  (List.range field.bits).foldl
    (fun acc bit =>
      if v (layout.var field bit) then acc ||| (1 <<< (field.bits - 1 - bit)) else acc)
    0

section Compile

variable {B : Type} [Library HEADER_BITS B]

def tt : B := mkTrue

def ff : B := mkFalse

def lit (layout : Layout) (field : Field) (bit : Nat) (value : Bool) : B :=
  mkLiteral (layout.var field bit) value

/-- `field` matches the given prefix, `len` bits fixed from the most significant.
The source asserts that there are as many. -/
def ofPrefix (layout : Layout) (field : Field) (value len : Nat) : Option B :=
  if len ≤ field.bits then
    some ((List.range len).foldl
      (fun acc bit => and acc (layout.lit field bit (value.testBit (field.bits - 1 - bit)))) tt)
  else
    none

/-- `field == value`: all bits are fixed, and there are as many. -/
def eq (layout : Layout) (field : Field) (value : Nat) : B :=
  (layout.ofPrefix field value field.bits).getD ff

/-- `field >= lo`, built from the least significant bit. -/
def geq (layout : Layout) (field : Field) (lo : Nat) : B :=
  (List.range field.bits).foldr
    (fun bit acc =>
      if lo.testBit (field.bits - 1 - bit) then
        and (layout.lit field bit true) acc
      else
        or (layout.lit field bit true) acc)
    tt

/-- `field <= hi`.  Mirror of `geq`. -/
def leq (layout : Layout) (field : Field) (hi : Nat) : B :=
  (List.range field.bits).foldr
    (fun bit acc =>
      if hi.testBit (field.bits - 1 - bit) then
        or (layout.lit field bit false) acc
      else
        and (layout.lit field bit false) acc)
    tt

def range (layout : Layout) (field : Field) (lo hi : Nat) : B :=
  if lo > hi then
    ff
  else
    match decide (lo = 0), decide (hi ≥ domainMax field.bits) with
    | true, true => tt
    | true, false => layout.leq field hi
    | false, true => layout.geq field lo
    | false, false => and (layout.geq field lo) (layout.leq field hi)

def set (layout : Layout) (field : Field) (values : IntervalSet field.bits) : B :=
  if values.isFull then
    tt
  else
    values.ranges.foldl (fun acc range => or acc (layout.range field range.1 range.2)) ff

end Compile

end Layout

/-- The values a match admits in one dimension, the interface dimensions
resolved against the table. -/
def Match.resolved (m : Match) (syms : SymbolTable) :
    (field : Field) → IntervalSet field.bits
  | .ifIn => m.iif.resolve syms
  | .ifOut => m.oif.resolve syms
  | .srcAddr => m.packetDim .srcAddr rfl
  | .dstAddr => m.packetDim .dstAddr rfl
  | .srcPort => m.packetDim .srcPort rfl
  | .dstPort => m.packetDim .dstPort rfl
  | .proto => m.packetDim .proto rfl

namespace Layout

section Compile

variable {B : Type} [Library HEADER_BITS B]

/-- The loop of `match_bdd`: full dimensions are skipped, and an empty result
ends it. -/
def matchFrom (layout : Layout) (m : Match) (syms : SymbolTable) (acc : B) :
    List Field → B
  | [] => acc
  | field :: rest =>
      if (m.resolved syms field).isFull then
        layout.matchFrom m syms acc rest
      else
        let narrowed := and acc (layout.set field (m.resolved syms field))
        if isFalse narrowed then narrowed else layout.matchFrom m syms narrowed rest

def matchBdd (layout : Layout) (m : Match) (syms : SymbolTable) : B :=
  layout.matchFrom m syms tt Field.all

end Compile

end Layout

/-! ### Addressing -/

namespace Layout

theorem sequence_getElem_var (layout : Layout) {field : Field} {bit : Nat}
    (inField : bit < field.bits) :
    layout.sequence[(layout.var field bit).val]? = some (field, bit) := by
  have member : (field, bit) ∈ layout.sequence :=
    (mem_sequence layout.order field bit).mpr inField
  have bound := List.idxOf_lt_length_of_mem member
  have total : layout.sequence.length = HEADER_BITS := sequence_length layout.order
  have value : (layout.var field bit).val = layout.pos field bit := by
    unfold var pos
    rw [Fin.val_ofNat, Nat.mod_eq_of_lt (by omega)]
  rw [value]
  unfold pos
  rw [List.getElem?_eq_getElem bound, List.getElem_idxOf]

theorem exists_var (layout : Layout) (variable_ : Fin HEADER_BITS) :
    ∃ field bit, bit < field.bits ∧ layout.var field bit = variable_ := by
  have total : layout.sequence.length = HEADER_BITS := sequence_length layout.order
  have bound : variable_.val < layout.sequence.length := by
    rw [total]
    exact variable_.isLt
  obtain ⟨⟨field, bit⟩, at_⟩ : ∃ position, layout.sequence[variable_.val] = position :=
    ⟨_, rfl⟩
  have inField : bit < field.bits := by
    rw [← mem_sequence layout.order, ← at_]
    exact List.getElem_mem bound
  refine ⟨field, bit, inField, Fin.ext ?_⟩
  have found := layout.sequence_getElem_var inField
  obtain ⟨varBound, same⟩ := List.getElem?_eq_some_iff.mp found
  exact ((sequence_nodup layout.order).getElem_inj_iff).mp (same.trans at_.symm)

theorem var_injective (layout : Layout) {field other : Field} {bit otherBit : Nat}
    (inField : bit < field.bits) (inOther : otherBit < other.bits)
    (same : layout.var field bit = layout.var other otherBit) :
    field = other ∧ bit = otherBit := by
  have first := layout.sequence_getElem_var inField
  rw [same, layout.sequence_getElem_var inOther] at first
  injection first with first
  injection first with fieldEq bitEq
  exact ⟨fieldEq.symm, bitEq.symm⟩

private theorem testBit_foldl_or (width : Nat) (get : Nat → Bool) (bits : List Nat)
    (start k : Nat) :
    (bits.foldl (fun acc bit =>
        if get bit then acc ||| (1 <<< (width - 1 - bit)) else acc) start).testBit k =
      (start.testBit k || bits.any (fun bit => get bit && (width - 1 - bit == k))) := by
  induction bits generalizing start with
  | nil => simp
  | cons bit rest ih =>
      rw [List.foldl_cons, ih, List.any_cons]
      cases get bit with
      | false => simp
      | true =>
          simp only [if_true, Nat.testBit_or, Nat.one_shiftLeft, Nat.testBit_two_pow,
            Bool.true_and, Bool.or_assoc]
          rfl

theorem testBit_fieldValue (layout : Layout) (v : Valuation) (field : Field) (k : Nat) :
    (layout.fieldValue v field).testBit k =
      (decide (k < field.bits) && v (layout.var field (field.bits - 1 - k))) := by
  unfold fieldValue
  rw [testBit_foldl_or field.bits (fun bit => v (layout.var field bit)),
    Nat.zero_testBit, Bool.false_or, Bool.eq_iff_iff]
  simp only [List.any_eq_true, List.mem_range, Bool.and_eq_true, beq_iff_eq,
    decide_eq_true_eq]
  constructor
  · intro read
    rcases read with ⟨bit, inField, isSet, place⟩
    have mirrored : field.bits - 1 - k = bit := by omega
    exact ⟨by omega, by rw [mirrored]; exact isSet⟩
  · intro both
    rcases both with ⟨inField, isSet⟩
    exact ⟨_, by omega, isSet, by omega⟩

theorem fieldValue_lt (layout : Layout) (v : Valuation) (field : Field) :
    layout.fieldValue v field < 2 ^ field.bits := by
  apply Nat.lt_pow_two_of_testBit
  intro k beyond
  rw [testBit_fieldValue]
  simp [Nat.not_lt.mpr beyond]

theorem fieldValue_le_domainMax (layout : Layout) (v : Valuation) (field : Field) :
    layout.fieldValue v field ≤ domainMax field.bits := by
  have narrow := field.bits_le
  have below := layout.fieldValue_lt v field
  rw [domainMax_eq (by omega)]
  omega

theorem apply_var (layout : Layout) (v : Valuation) {field : Field} {bit : Nat}
    (inField : bit < field.bits) :
    v (layout.var field bit) = (layout.fieldValue v field).testBit (field.bits - 1 - bit) := by
  rw [testBit_fieldValue]
  have mirrored : field.bits - 1 - (field.bits - 1 - bit) = bit := by omega
  rw [mirrored]
  simp [show field.bits - 1 - bit < field.bits by omega]

/-! ### What the compiled sets mean -/

section Meaning

variable {B : Type} [Library HEADER_BITS B]

@[simp] theorem eval_tt (v : Valuation) : eval (tt : B) v = true := eval_mkTrue v

@[simp] theorem eval_ff (v : Valuation) : eval (ff : B) v = false := eval_mkFalse v

@[simp] theorem eval_lit (layout : Layout) (field : Field) (bit : Nat) (value : Bool)
    (v : Valuation) :
    eval (layout.lit field bit value : B) v = (v (layout.var field bit) == value) :=
  eval_mkLiteral _ _ v

/-- The loop of `prefix` keeps "the bits read so far agree". -/
private theorem eval_foldl_lit (layout : Layout) (field : Field) (value : Nat)
    (v : Valuation) (bits : List Nat) (start : B) (inField : ∀ bit ∈ bits, bit < field.bits) :
    eval (bits.foldl
      (fun acc bit => and acc (layout.lit field bit (value.testBit (field.bits - 1 - bit))))
      start) v = true ↔
      eval start v = true ∧ ∀ bit ∈ bits,
        (layout.fieldValue v field).testBit (field.bits - 1 - bit) =
          value.testBit (field.bits - 1 - bit) := by
  induction bits generalizing start with
  | nil => simp
  | cons bit rest ih =>
      rw [List.foldl_cons, ih _ (fun later member => inField later (by simp [member])),
        eval_and, Bool.and_eq_true, eval_lit, layout.apply_var v (inField bit (by simp)),
        beq_iff_eq, List.forall_mem_cons, and_assoc]

theorem eval_ofPrefix (layout : Layout) (field : Field) (value : Nat) (v : Valuation)
    {len : Nat} (within : len ≤ field.bits) :
    ∃ compiled : B, layout.ofPrefix field value len = some compiled ∧
      (eval compiled v = true ↔
        layout.fieldValue v field >>> (field.bits - len) =
          (value % 2 ^ field.bits) >>> (field.bits - len)) := by
  refine ⟨_, if_pos within, ?_⟩
  rw [eval_foldl_lit layout field value v _ _ (fun bit member => by
      have := List.mem_range.mp member
      omega),
    eval_tt, eq_self_iff_true, true_and,
    Bits.shiftRight_eq_iff within (layout.fieldValue_lt v field)]
  simp only [List.mem_range]

/-- Comparing two numbers on their low `m + 1` bits looks at bit `m` first. -/
private theorem mod_two_pow_succ_le (x y m : Nat) :
    x % 2 ^ (m + 1) ≤ y % 2 ^ (m + 1) ↔
      if x.testBit m then y.testBit m = true ∧ x % 2 ^ m ≤ y % 2 ^ m
      else y.testBit m = true ∨ x % 2 ^ m ≤ y % 2 ^ m := by
  have xBelow : x % 2 ^ m < 2 ^ m := Nat.mod_lt _ (Nat.two_pow_pos m)
  have yBelow : y % 2 ^ m < 2 ^ m := Nat.mod_lt _ (Nat.two_pow_pos m)
  have xBit := Nat.mod_two_eq_zero_or_one (x / 2 ^ m)
  have yBit := Nat.mod_two_eq_zero_or_one (y / 2 ^ m)
  rw [Nat.mod_pow_succ, Nat.mod_pow_succ, Nat.testBit_eq_decide_div_mod_eq,
    Nat.testBit_eq_decide_div_mod_eq]
  rcases xBit with xBit | xBit <;> rcases yBit with yBit | yBit <;>
    simp only [xBit, yBit] <;> simp <;> omega

theorem apply_var_low (layout : Layout) (v : Valuation) {field : Field} {m : Nat}
    (inField : m < field.bits) :
    v (layout.var field (field.bits - 1 - m)) = (layout.fieldValue v field).testBit m := by
  rw [testBit_fieldValue, decide_eq_true inField, Bool.true_and]

/-- The suffix invariant of `geq`: after the low `m` bits are read, the diagram
compares those bits. -/
theorem eval_geq (layout : Layout) (field : Field) (lo : Nat) (v : Valuation)
    (inField : lo ≤ domainMax field.bits) :
    eval (layout.geq field lo : B) v = true ↔ lo ≤ layout.fieldValue v field := by
  have narrow := field.bits_le
  have positive := Nat.two_pow_pos field.bits
  rw [domainMax_eq (by omega)] at inField
  have whole : eval (layout.geq field lo : B) v = true ↔
      lo % 2 ^ field.bits ≤ layout.fieldValue v field % 2 ^ field.bits := by
    apply Bits.foldr_range_bits
      (P := fun m acc => eval acc v = true ↔ lo % 2 ^ m ≤ layout.fieldValue v field % 2 ^ m)
    · simp [Nat.mod_one]
    · intro m acc within read
      have weight : field.bits - 1 - (field.bits - 1 - m) = m := by omega
      rw [mod_two_pow_succ_le, weight]
      split
      · rw [eval_and, Bool.and_eq_true, read, eval_lit, layout.apply_var_low v within, beq_true]
      · rw [eval_or, Bool.or_eq_true, read, eval_lit, layout.apply_var_low v within, beq_true]
  rwa [Nat.mod_eq_of_lt (a := lo) (by omega), Nat.mod_eq_of_lt (layout.fieldValue_lt v field)]
    at whole

/-- Mirror of `eval_geq`. -/
theorem eval_leq (layout : Layout) (field : Field) (hi : Nat) (v : Valuation)
    (inField : hi ≤ domainMax field.bits) :
    eval (layout.leq field hi : B) v = true ↔ layout.fieldValue v field ≤ hi := by
  have narrow := field.bits_le
  have positive := Nat.two_pow_pos field.bits
  rw [domainMax_eq (by omega)] at inField
  have whole : eval (layout.leq field hi : B) v = true ↔
      layout.fieldValue v field % 2 ^ field.bits ≤ hi % 2 ^ field.bits := by
    apply Bits.foldr_range_bits
      (P := fun m acc => eval acc v = true ↔ layout.fieldValue v field % 2 ^ m ≤ hi % 2 ^ m)
    · simp [Nat.mod_one]
    · intro m acc within read
      have weight : field.bits - 1 - (field.bits - 1 - m) = m := by omega
      rw [mod_two_pow_succ_le, weight]
      by_cases hiBit : hi.testBit m = true
      · rw [if_pos hiBit, eval_or, Bool.or_eq_true, read, eval_lit,
          layout.apply_var_low v within]
        cases (layout.fieldValue v field).testBit m <;> simp [hiBit]
      · rw [if_neg hiBit, eval_and, Bool.and_eq_true, read, eval_lit,
          layout.apply_var_low v within]
        cases (layout.fieldValue v field).testBit m <;> simp [hiBit]
  rwa [Nat.mod_eq_of_lt (a := hi) (by omega), Nat.mod_eq_of_lt (layout.fieldValue_lt v field)]
    at whole

theorem eval_range (layout : Layout) (field : Field) (lo hi : Nat) (v : Valuation)
    (inField : lo ≤ domainMax field.bits) :
    eval (layout.range field lo hi : B) v = true ↔
      lo ≤ layout.fieldValue v field ∧ layout.fieldValue v field ≤ hi := by
  have within := layout.fieldValue_le_domainMax v field
  unfold range
  split
  · rw [eval_ff]
    simp only [Bool.false_eq_true, false_iff]
    omega
  · next ordered =>
      split
      · next loZero hiMax =>
          rw [decide_eq_true_eq] at loZero hiMax
          rw [eval_tt]
          simp only [true_iff]
          omega
      · next loZero hiBelow =>
          rw [decide_eq_true_eq] at loZero
          rw [decide_eq_false_iff_not] at hiBelow
          rw [eval_leq layout field hi v (by omega)]
          omega
      · next _ hiMax =>
          rw [decide_eq_true_eq] at hiMax
          rw [eval_geq layout field lo v inField]
          omega
      · next _ hiBelow =>
          rw [decide_eq_false_iff_not] at hiBelow
          rw [eval_and, Bool.and_eq_true, eval_geq layout field lo v inField,
            eval_leq layout field hi v (by omega)]

private theorem eval_foldl_range (layout : Layout) (field : Field) (ranges : List Range)
    (v : Valuation) (start : B)
    (inField : ∀ range ∈ ranges, range.1 ≤ domainMax field.bits) :
    eval (ranges.foldl (fun acc range =>
      or acc (layout.range field range.1 range.2)) start) v = true ↔
      eval start v = true ∨ Covers ranges (layout.fieldValue v field) := by
  induction ranges generalizing start with
  | nil => simp
  | cons range rest ih =>
      rw [List.foldl_cons, ih _ (fun later member => inField later (by simp [member])),
        eval_or, Bool.or_eq_true,
        eval_range layout field range.1 range.2 v (inField range (by simp)),
        covers_cons, or_assoc]

theorem eval_set (layout : Layout) (field : Field) (values : IntervalSet field.bits)
    (v : Valuation) :
    eval (layout.set field values : B) v = values.contains (layout.fieldValue v field) := by
  rw [Bool.eq_iff_iff]
  unfold set
  split
  · next full =>
      rw [eval_tt]
      simp only [true_iff]
      exact (IntervalSet.isFull_iff values).mp full _
        (layout.fieldValue_le_domainMax v field)
  · have inField (range : Range) (member : range ∈ values.ranges) :
        range.1 ≤ domainMax field.bits :=
      (values.canonical.proper range member).trans (values.canonical.bounded range member)
    rw [eval_foldl_range layout field values.ranges v ff inField,
      eval_ff, IntervalSet.contains_iff]
    simp

/-- The loop of `match_bdd` keeps "the conjunction of the dimensions read so
far"; leaving early on an empty set changes nothing. -/
private theorem eval_matchFrom (layout : Layout) (m : Match) (syms : SymbolTable)
    (fields : List Field) (acc : B) (v : Valuation) :
    eval (layout.matchFrom m syms acc fields) v =
      (eval acc v && fields.all (fun field =>
        (m.resolved syms field).contains (layout.fieldValue v field))) := by
  induction fields generalizing acc with
  | nil => simp [matchFrom]
  | cons field rest ih =>
      simp only [matchFrom, List.all_cons]
      by_cases full : (m.resolved syms field).isFull = true
      · have inside := (IntervalSet.isFull_iff _).mp full _
          (layout.fieldValue_le_domainMax v field)
        rw [if_pos full, ih, inside, Bool.true_and]
      · rw [if_neg full]
        by_cases empty :
            isFalse (and acc (layout.set field (m.resolved syms field))) = true
        · have outside := (isFalse_iff _).mp empty v
          rw [if_pos empty, outside]
          rw [eval_and, eval_set] at outside
          rw [← Bool.and_assoc, outside, Bool.false_and]
        · rw [if_neg empty, ih, eval_and, eval_set, Bool.and_assoc]

end Meaning

end Layout

def Match.holdsAt (m : Match) (syms : SymbolTable) (value : Field → Nat) : Bool :=
  Field.all.all (fun field => (m.resolved syms field).contains (value field))

theorem Layout.eval_matchBdd {B : Type} [Library HEADER_BITS B] (layout : Layout)
    (m : Match) (syms : SymbolTable) (v : Valuation) :
    eval (layout.matchBdd m syms : B) v = m.holdsAt syms (layout.fieldValue v) := by
  unfold Layout.matchBdd Match.holdsAt
  rw [Layout.eval_matchFrom, Layout.eval_tt, Bool.true_and]

end Fwdelta
