import Fwdelta.Engine.Header
import Mathlib.Logic.Equiv.Defs

/-
A single concrete packet, and packets as points of the compiled sets.

A layout is a bijection between packets and valuations of the diagram
variables, so a compiled set is a set of packets and is empty exactly when no
packet is in it.
-/

namespace Fwdelta

open DecisionDiagram
open DecisionDiagram.Library

@[ext]
structure Packet where
  src : BitVec 32
  dst : BitVec 32
  sport : BitVec 16
  dport : BitVec 16
  proto : BitVec 8
  iif : BitVec 8
  oif : BitVec 8
  deriving DecidableEq, Repr

namespace Packet

def value (p : Packet) : Field → Nat
  | .srcAddr => p.src.toNat
  | .dstAddr => p.dst.toNat
  | .srcPort => p.sport.toNat
  | .dstPort => p.dport.toNat
  | .proto => p.proto.toNat
  | .ifIn => p.iif.toNat
  | .ifOut => p.oif.toNat

theorem value_lt (p : Packet) (field : Field) : p.value field < 2 ^ field.bits := by
  cases field <;> exact BitVec.isLt _

theorem value_le_domainMax (p : Packet) (field : Field) :
    p.value field ≤ domainMax field.bits := by
  have narrow := field.bits_le
  have below := p.value_lt field
  rw [domainMax_eq (by omega)]
  omega

theorem ext_value {p q : Packet} (same : ∀ field, p.value field = q.value field) :
    p = q := by
  apply Packet.ext
  · exact BitVec.eq_of_toNat_eq (same .srcAddr)
  · exact BitVec.eq_of_toNat_eq (same .dstAddr)
  · exact BitVec.eq_of_toNat_eq (same .srcPort)
  · exact BitVec.eq_of_toNat_eq (same .dstPort)
  · exact BitVec.eq_of_toNat_eq (same .proto)
  · exact BitVec.eq_of_toNat_eq (same .ifIn)
  · exact BitVec.eq_of_toNat_eq (same .ifOut)

end Packet

namespace Layout

def encode (layout : Layout) (p : Packet) : Valuation := fun index =>
  match layout.sequence[index.val]? with
  | some (field, bit) => (p.value field).testBit (field.bits - 1 - bit)
  | none => false

/-- The packet a valuation is: every field read back bit by bit. -/
def decode (layout : Layout) (v : Valuation) : Packet where
  src := BitVec.ofNat 32 (layout.fieldValue v .srcAddr)
  dst := BitVec.ofNat 32 (layout.fieldValue v .dstAddr)
  sport := BitVec.ofNat 16 (layout.fieldValue v .srcPort)
  dport := BitVec.ofNat 16 (layout.fieldValue v .dstPort)
  proto := BitVec.ofNat 8 (layout.fieldValue v .proto)
  iif := BitVec.ofNat 8 (layout.fieldValue v .ifIn)
  oif := BitVec.ofNat 8 (layout.fieldValue v .ifOut)

theorem encode_var (layout : Layout) (p : Packet) {field : Field} {bit : Nat}
    (inField : bit < field.bits) :
    layout.encode p (layout.var field bit) =
      (p.value field).testBit (field.bits - 1 - bit) := by
  unfold encode
  rw [layout.sequence_getElem_var inField]

@[simp] theorem fieldValue_encode (layout : Layout) (p : Packet) (field : Field) :
    layout.fieldValue (layout.encode p) field = p.value field := by
  apply Nat.eq_of_testBit_eq
  intro k
  rw [testBit_fieldValue]
  by_cases inField : k < field.bits
  · have mirrored : field.bits - 1 - (field.bits - 1 - k) = k := by omega
    rw [layout.encode_var p (by omega), mirrored]
    simp [inField]
  · have beyond : p.value field < 2 ^ k :=
      (p.value_lt field).trans_le (Nat.pow_le_pow_right (by omega) (by omega))
    rw [Nat.testBit_lt_two_pow beyond]
    simp [inField]

theorem value_decode (layout : Layout) (v : Valuation) (field : Field) :
    (layout.decode v).value field = layout.fieldValue v field := by
  have below := layout.fieldValue_lt v field
  cases field <;> exact Nat.mod_eq_of_lt below

theorem encode_decode (layout : Layout) (v : Valuation) :
    layout.encode (layout.decode v) = v := by
  funext index
  obtain ⟨field, bit, inField, rfl⟩ := layout.exists_var index
  rw [layout.encode_var _ inField, value_decode, ← layout.apply_var v inField]

theorem decode_encode (layout : Layout) (p : Packet) : layout.decode (layout.encode p) = p := by
  apply Packet.ext_value
  intro field
  rw [value_decode, fieldValue_encode]

/-- Packets are the valuations of the header variables. -/
def packets (layout : Layout) : Packet ≃ Valuation where
  toFun := layout.encode
  invFun := layout.decode
  left_inv := layout.decode_encode
  right_inv := layout.encode_decode

section Membership

variable {B : Type} [Library HEADER_BITS B]

def mem (layout : Layout) (set : B) (p : Packet) : Bool :=
  eval set (layout.encode p)

@[simp] theorem mem_tt (layout : Layout) (p : Packet) :
    layout.mem (tt : B) p = true := eval_tt _

@[simp] theorem mem_ff (layout : Layout) (p : Packet) :
    layout.mem (ff : B) p = false := eval_ff _

@[simp] theorem mem_not (layout : Layout) (a : B) (p : Packet) :
    layout.mem (not a) p = !layout.mem a p := eval_not _ _

@[simp] theorem mem_and (layout : Layout) (a b : B) (p : Packet) :
    layout.mem (and a b) p = (layout.mem a p && layout.mem b p) := eval_and _ _ _

@[simp] theorem mem_or (layout : Layout) (a b : B) (p : Packet) :
    layout.mem (or a b) p = (layout.mem a p || layout.mem b p) := eval_or _ _ _

@[simp] theorem mem_andNot (layout : Layout) (a b : B) (p : Packet) :
    layout.mem (andNot a b) p = (layout.mem a p && !layout.mem b p) := eval_andNot _ _ _

theorem forall_valuation_iff (layout : Layout) (property : Valuation → Prop) :
    (∀ v, property v) ↔ ∀ p : Packet, property (layout.encode p) := by
  constructor
  · exact fun all p => all _
  · intro all v
    rw [← layout.encode_decode v]
    exact all _

/-- Sets with the same packets are the same diagram. -/
theorem ext_mem (layout : Layout) {a b : B} (same : ∀ p, layout.mem a p = layout.mem b p) :
    a = b :=
  canonical a b ((layout.forall_valuation_iff fun v => eval a v = eval b v).mpr same)

theorem eq_iff_mem (layout : Layout) {a b : B} :
    a = b ↔ ∀ p, layout.mem a p = layout.mem b p :=
  ⟨fun same p => by rw [same], layout.ext_mem⟩

theorem isFalse_iff_mem (layout : Layout) (a : B) :
    isFalse a = true ↔ ∀ p, layout.mem a p = false := by
  rw [isFalse_iff]
  exact layout.forall_valuation_iff _

theorem isFalse_eq_false_iff_mem (layout : Layout) (a : B) :
    isFalse a = false ↔ ∃ p, layout.mem a p = true := by
  rw [← Bool.not_eq_true, layout.isFalse_iff_mem]
  simp

theorem isTrue_iff_mem (layout : Layout) (a : B) :
    isTrue a = true ↔ ∀ p, layout.mem a p = true := by
  rw [isTrue_iff]
  exact layout.forall_valuation_iff _

theorem mem_range (layout : Layout) {field : Field} {lo : Nat} (hi : Nat) (p : Packet)
    (inField : lo ≤ domainMax field.bits) :
    layout.mem (layout.range field lo hi : B) p = true ↔
      lo ≤ p.value field ∧ p.value field ≤ hi := by
  rw [mem, layout.eval_range field lo hi _ inField, layout.fieldValue_encode]

theorem mem_ofPrefix (layout : Layout) (field : Field) (value : Nat) (p : Packet) {len : Nat}
    (within : len ≤ field.bits) :
    ∃ compiled : B, layout.ofPrefix field value len = some compiled ∧
      (layout.mem compiled p = true ↔
        p.value field >>> (field.bits - len) =
          (value % 2 ^ field.bits) >>> (field.bits - len)) := by
  have meaning := layout.eval_ofPrefix (B := B) field value (layout.encode p) within
  rwa [layout.fieldValue_encode] at meaning

theorem mem_eq (layout : Layout) {field : Field} {value : Nat} (inField : value < 2 ^ field.bits)
    (p : Packet) : layout.mem (layout.eq field value : B) p = true ↔ p.value field = value := by
  obtain ⟨compiled, found, inside⟩ :=
    layout.mem_ofPrefix (B := B) field value p (le_refl field.bits)
  rw [Nat.sub_self, Nat.shiftRight_zero, Nat.shiftRight_zero, Nat.mod_eq_of_lt inField] at inside
  rw [eq, found, Option.getD_some, inside]

theorem mem_set (layout : Layout) (field : Field) (values : IntervalSet field.bits) (p : Packet) :
    layout.mem (layout.set field values : B) p = values.contains (p.value field) := by
  rw [mem, layout.eval_set, layout.fieldValue_encode]

/-- A compiled condition on one field holds the packets whose field meets it. -/
theorem field_conditions (layout : Layout) (field : Field) (p : Packet) :
    (∀ lo hi, lo ≤ domainMax field.bits →
      (layout.mem (layout.range field lo hi : B) p = true ↔
        lo ≤ p.value field ∧ p.value field ≤ hi)) ∧
    (∀ value len, len ≤ field.bits →
      ∃ compiled : B, layout.ofPrefix field value len = some compiled ∧
        (layout.mem compiled p = true ↔
          p.value field >>> (field.bits - len) =
            (value % 2 ^ field.bits) >>> (field.bits - len))) ∧
    (∀ values : IntervalSet field.bits,
      (layout.mem (layout.set field values : B) p = true ↔
        values.contains (p.value field) = true)) := by
  refine ⟨?range, ?top, ?set⟩
  case range =>
    intro lo hi inField
    exact layout.mem_range hi p inField
  case top =>
    intro value len within
    exact layout.mem_ofPrefix field value p within
  case set =>
    intro values
    rw [layout.mem_set]

theorem field_conditions_https :
    let p : Packet := ⟨0x0A010203, 0, 40000, 443, 6, 0, 0⟩
    let layout : Layout := ⟨.addrInterleaved⟩
    layout.mem (layout.range .dstPort 80 1000 : Diagram HEADER_BITS) p = true ∧
      (∃ compiled : Diagram HEADER_BITS,
        layout.ofPrefix .srcAddr 0x0A010000 16 = some compiled ∧
          layout.mem compiled p = true) ∧
      layout.mem (layout.set .proto (IntervalSet.full 8) : Diagram HEADER_BITS) p = true := by
  intro p layout
  obtain ⟨compiled, found, inside⟩ :=
    (field_conditions (B := Diagram HEADER_BITS) layout .srcAddr p).2.1 0x0A010000 16 (by decide)
  exact ⟨((field_conditions layout .dstPort p).1 80 1000 (by decide)).mpr (by decide),
    ⟨compiled, found, inside.mpr (by decide)⟩,
    ((field_conditions layout .proto p).2.2 (IntervalSet.full 8)).mpr (by decide)⟩

theorem mem_matchBdd (layout : Layout) (m : Match) (syms : SymbolTable) (p : Packet) :
    layout.mem (layout.matchBdd m syms : B) p = m.holdsAt syms p.value := by
  unfold mem
  rw [eval_matchBdd]
  congr 1
  funext field
  exact layout.fieldValue_encode p field

def witness (layout : Layout) (set : B) : Option Packet :=
  (satWitness set).map layout.decode

theorem witness_eq_some {layout : Layout} {set : B} {p : Packet}
    (found : layout.witness set = some p) : layout.mem set p = true := by
  obtain ⟨v, satisfied, rfl⟩ := Option.map_eq_some_iff.mp found
  unfold mem
  rw [layout.encode_decode]
  exact satWitness_some set v satisfied

theorem witness_eq_none_iff (layout : Layout) (set : B) :
    layout.witness set = none ↔ isFalse set = true := by
  unfold witness
  rw [Option.map_eq_none_iff, isFalse_iff]
  constructor
  · exact satWitness_none set
  · intro empty
    cases found : satWitness set with
    | none => rfl
    | some v =>
        have satisfied := satWitness_some set v found
        rw [empty v] at satisfied
        contradiction

end Membership

end Layout

end Fwdelta
