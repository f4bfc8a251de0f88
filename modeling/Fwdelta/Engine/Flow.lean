import Fwdelta.DecisionDiagram.Paths
import Fwdelta.Engine.Packet

/-
Counting flows.

A flow count quantifies source port and both interfaces away: it counts the
source, destination, destination port and protocol tuples of a set.  Counts are
at most 2^120, so they fit the 128-bit integers of the source.
-/

namespace Fwdelta

open DecisionDiagram
open DecisionDiagram.Library
open DecisionDiagram.PathLibrary

/-- The dimensions a flow count quantifies away. -/
def QUANTIFIED_DIMS : List Field :=
  [.srcPort, .ifIn, .ifOut]

def quantifiedBits : Nat :=
  (QUANTIFIED_DIMS.map Field.bits).sum

section Count

variable {B : Type} [PathLibrary HEADER_BITS B]

namespace Layout

/-- The loops of `flow_count`: every variable of the quantified dimensions. -/
def project (layout : Layout) (set : B) : B :=
  QUANTIFIED_DIMS.foldl
    (fun acc field => (List.range field.bits).foldl
      (fun acc bit => quantify acc (layout.var field bit)) acc) set

def flowCount (layout : Layout) (set : B) : Nat :=
  exactCardinality (layout.project set) >>> quantifiedBits

/-- The variables quantified away, in the order of the loops. -/
def quantifiedVars (layout : Layout) : List (Fin HEADER_BITS) :=
  QUANTIFIED_DIMS.flatMap (fun field => (List.range field.bits).map (layout.var field))

theorem project_eq_foldl (layout : Layout) (set : B) :
    layout.project set = layout.quantifiedVars.foldl quantify set := by
  unfold project quantifiedVars
  rw [List.foldl_flatMap]
  simp only [List.foldl_map]

omit [PathLibrary HEADER_BITS B] in
theorem var_mem_quantifiedVars (layout : Layout) {field : Field} {bit : Nat}
    (inField : bit < field.bits) :
    layout.var field bit ∈ layout.quantifiedVars ↔ field ∈ QUANTIFIED_DIMS := by
  unfold quantifiedVars
  simp only [List.mem_flatMap, List.mem_map, List.mem_range]
  constructor
  · intro listed
    obtain ⟨other, member, otherBit, inOther, same⟩ := listed
    rw [← (layout.var_injective inOther inField same).1]
    exact member
  · exact fun member => ⟨field, member, bit, inField, rfl⟩

end Layout

/-- Two packets of one flow differ only in the quantified dimensions. -/
def Packet.SameFlow (p q : Packet) : Prop :=
  ∀ field, field ∉ QUANTIFIED_DIMS → p.value field = q.value field

theorem Packet.sameFlow_iff (p q : Packet) :
    p.SameFlow q ↔ p.src = q.src ∧ p.dst = q.dst ∧ p.dport = q.dport ∧ p.proto = q.proto := by
  constructor
  · intro same
    exact ⟨BitVec.eq_of_toNat_eq (same .srcAddr (by decide)),
      BitVec.eq_of_toNat_eq (same .dstAddr (by decide)),
      BitVec.eq_of_toNat_eq (same .dstPort (by decide)),
      BitVec.eq_of_toNat_eq (same .proto (by decide))⟩
  · intro equal field kept
    obtain ⟨src, dst, dport, proto⟩ := equal
    cases field with
    | srcAddr => exact congrArg BitVec.toNat src
    | dstAddr => exact congrArg BitVec.toNat dst
    | dstPort => exact congrArg BitVec.toNat dport
    | proto => exact congrArg BitVec.toNat proto
    | srcPort => exact absurd (by decide) kept
    | ifIn => exact absurd (by decide) kept
    | ifOut => exact absurd (by decide) kept

/-- A packet is in the projection when some packet of its flow is in the set. -/
theorem Layout.mem_project (layout : Layout) (set : B) (p : Packet) :
    layout.mem (layout.project set) p = true ↔ ∃ q, q.SameFlow p ∧ layout.mem set q = true := by
  rw [layout.project_eq_foldl]
  unfold Layout.mem
  rw [eval_foldl_quantify]
  constructor
  · intro found
    obtain ⟨w, same, holds⟩ := found
    refine ⟨layout.decode w, ?_, by rwa [layout.encode_decode]⟩
    intro field kept
    rw [layout.value_decode, ← layout.fieldValue_encode p field]
    apply Nat.eq_of_testBit_eq
    intro k
    rw [layout.testBit_fieldValue, layout.testBit_fieldValue]
    by_cases inField : k < field.bits
    · have unquantified : layout.var field (field.bits - 1 - k) ∉ layout.quantifiedVars := by
        rw [layout.var_mem_quantifiedVars (by omega)]
        exact kept
      rw [same _ unquantified]
    · simp [inField]
  · intro found
    obtain ⟨q, same, holds⟩ := found
    refine ⟨layout.encode q, ?_, holds⟩
    intro index outside
    obtain ⟨field, bit, inField, rfl⟩ := layout.exists_var index
    rw [layout.var_mem_quantifiedVars inField] at outside
    rw [layout.encode_var q inField, layout.encode_var p inField, same field outside]

theorem Layout.exactCardinality_le (set : B) : exactCardinality set ≤ 2 ^ 120 := by
  rw [exactCardinality_eq]
  exact card_models_le _

end Count

end Fwdelta
