import Fwdelta.Engine.Enumerate
import Fwdelta.Ir.Algebra
import Mathlib.Data.FinEnum
import Mathlib.Order.CompletePartialOrder

/-
Counts of packets.

The count of an interval set is the number of its values, the count of a region
the number of packets it holds, and the exact cardinality of a compiled set the
number of its packets.  Disjoint sets are counted by summing.
-/

namespace Fwdelta

open DecisionDiagram
open DecisionDiagram.Library
open DecisionDiagram.PathLibrary

/-- Sets that are pairwise disjoint are counted by summing. -/
theorem sum_ncard_of_pairwise {α : Type} [Finite α] {sets : List (Set α)}
    (apart : sets.Pairwise Disjoint) :
    (sets.map Set.ncard).sum = {x | ∃ s ∈ sets, x ∈ s}.ncard := by
  induction sets with
  | nil => simp
  | cons first rest ih =>
      obtain ⟨fromFirst, later⟩ := List.pairwise_cons.mp apart
      have split : {x | ∃ s ∈ first :: rest, x ∈ s} = first ∪ {x | ∃ s ∈ rest, x ∈ s} := by
        ext x
        simp
      have clear : Disjoint first {x | ∃ s ∈ rest, x ∈ s} := by
        rw [Set.disjoint_left]
        intro x inFirst inRest
        obtain ⟨s, member, inside⟩ := inRest
        exact Set.disjoint_left.mp (fromFirst s member) inFirst inside
      rw [List.map_cons, List.sum_cons, ih later, split, Set.ncard_union_eq clear]

/-! ### Values -/

theorem IntervalSet.ncard_eq_count {bits : Nat} (narrow : bits < 64) (set : IntervalSet bits) :
    {x : BitVec bits | set.contains x.toNat = true}.ncard = set.count := by
  have within : ∀ x, set.contains x = true → x < 2 ^ bits := by
    intro x inside
    have bound := IntervalSet.contains_le inside
    have positive := Nat.two_pow_pos bits
    rw [domainMax_eq narrow] at bound
    omega
  rw [Bits.ncard_words within]
  simp only [IntervalSet.contains_iff]
  exact ncard_covers set.canonical

/-! ### Packets -/

instance : Finite Packet :=
  Finite.of_equiv Valuation (⟨.fieldMajor⟩ : Layout).packets.symm

def Packet.fields (p : Packet) :
    BitVec 32 × BitVec 32 × BitVec 16 × BitVec 16 × BitVec 8 × BitVec 8 × BitVec 8 :=
  (p.src, p.dst, p.sport, p.dport, p.proto, p.iif, p.oif)

theorem Packet.fields_injective : Function.Injective Packet.fields := by
  intro p q same
  simp only [Packet.fields, Prod.mk.injEq] at same
  obtain ⟨src, dst, sport, dport, proto, iif, oif⟩ := same
  exact Packet.ext src dst sport dport proto iif oif

/-- A packet is its fields, so conditions on the fields are counted by multiplying. -/
theorem Packet.ncard_product (inside : Field → Nat → Prop) :
    {p : Packet | ∀ field, inside field (p.value field)}.ncard =
      (Field.all.map (fun field => {x : BitVec field.bits | inside field x.toNat}.ncard)).prod := by
  have product : Packet.fields '' {p : Packet | ∀ field, inside field (p.value field)} =
      {x : BitVec 32 | inside .srcAddr x.toNat} ×ˢ {x : BitVec 32 | inside .dstAddr x.toNat} ×ˢ
      {x : BitVec 16 | inside .srcPort x.toNat} ×ˢ {x : BitVec 16 | inside .dstPort x.toNat} ×ˢ
      {x : BitVec 8 | inside .proto x.toNat} ×ˢ {x : BitVec 8 | inside .ifIn x.toNat} ×ˢ
      {x : BitVec 8 | inside .ifOut x.toNat} := by
    ext ⟨src, dst, sport, dport, proto, iif, oif⟩
    simp only [Set.mem_image, Set.mem_ofPred_eq, Set.mem_prod]
    constructor
    · intro found
      obtain ⟨p, holds, same⟩ := found
      simp only [Packet.fields, Prod.mk.injEq] at same
      obtain ⟨rfl, rfl, rfl, rfl, rfl, rfl, rfl⟩ := same
      exact ⟨holds .srcAddr, holds .dstAddr, holds .srcPort, holds .dstPort, holds .proto,
        holds .ifIn, holds .ifOut⟩
    · intro given
      obtain ⟨inSrc, inDst, inSport, inDport, inProto, inIif, inOif⟩ := given
      refine ⟨⟨src, dst, sport, dport, proto, iif, oif⟩, ?_, rfl⟩
      intro field
      cases field with
      | srcAddr => exact inSrc
      | dstAddr => exact inDst
      | srcPort => exact inSport
      | dstPort => exact inDport
      | proto => exact inProto
      | ifIn => exact inIif
      | ifOut => exact inOif
  rw [← Set.ncard_image_of_injective _ Packet.fields_injective, product]
  simp only [Set.ncard_prod, Field.all, List.map_cons, List.map_nil, List.prod_cons,
    List.prod_nil, Nat.mul_one]
  rfl

/-- A region counts the packets it holds. -/
theorem Region.ncard_eq_count (r : Region) : {p : Packet | r.Holds p.value}.ncard = r.count := by
  by_cases empty : r.isEmpty = true
  · have nothing : {p : Packet | r.Holds p.value} = ∅ := by
      rw [Set.eq_empty_iff_forall_notMem]
      intro p holds
      rw [Region.isEmpty_eq_false_of_holds holds] at empty
      contradiction
    rw [nothing, Set.ncard_empty, Region.count, if_pos empty]
  · have values (field : Field) :
        {x : BitVec field.bits | (r.get field).contains x.toNat = true}.ncard =
          (r.get field).count := by
      have narrow := field.bits_le
      exact IntervalSet.ncard_eq_count (by omega) _
    rw [Region.count, if_neg empty, ← funext values]
    exact Packet.ncard_product (fun field x => (r.get field).contains x = true)

theorem Layout.ncard_mem {B : Type} [PathLibrary HEADER_BITS B] (layout : Layout) (set : B) :
    {p : Packet | layout.mem set p = true}.ncard = exactCardinality set := by
  have image : layout.packets '' {p : Packet | layout.mem set p = true} =
      (models (eval set) : Set Valuation) := by
    ext v
    rw [Set.mem_image, Finset.mem_coe, mem_models]
    constructor
    · intro found
      obtain ⟨p, inside, rfl⟩ := found
      exact inside
    · intro inside
      refine ⟨layout.decode v, ?_, layout.encode_decode v⟩
      rw [Set.mem_ofPred_eq, Layout.mem, layout.encode_decode]
      exact inside
  rw [← Set.ncard_image_of_injective _ layout.packets.injective, image, Set.ncard_coe_finset,
    exactCardinality_eq]

/-! ### Flows -/

abbrev Flow := BitVec 32 × BitVec 32 × BitVec 16 × BitVec 8

namespace Packet

def flow (p : Packet) : Flow :=
  (p.src, p.dst, p.dport, p.proto)

/-- What a flow leaves open. -/
def unprojected (p : Packet) : BitVec 16 × BitVec 8 × BitVec 8 :=
  (p.sport, p.iif, p.oif)

theorem sameFlow_iff_flow (p q : Packet) : p.SameFlow q ↔ p.flow = q.flow := by
  rw [sameFlow_iff]
  simp only [flow, Prod.mk.injEq]

end Packet

theorem card_unprojected : Nat.card (BitVec 16 × BitVec 8 × BitVec 8) = 2 ^ quantifiedBits := by
  have values (bits : Nat) : Nat.card (BitVec bits) = 2 ^ bits := by
    rw [Nat.card_eq_fintype_card, ← FinEnum.card_eq_fintypeCard, FinEnum.card_bitVec]
  rw [Nat.card_prod, Nat.card_prod, values, values]
  rfl

section Flows

variable {B : Type} [PathLibrary HEADER_BITS B]

namespace Layout

/-- The flows of a set: the tuples that some source port and some interfaces
complete to a packet of it. -/
def flows (layout : Layout) (set : B) : Set Flow :=
  {t | ∃ sport iif oif,
    layout.mem set ⟨t.1, t.2.1, sport, t.2.2.1, t.2.2.2, iif, oif⟩ = true}

theorem mem_flows (layout : Layout) (set : B) (t : Flow) :
    t ∈ layout.flows set ↔ ∃ p : Packet, p.flow = t ∧ layout.mem set p = true := by
  constructor
  · intro found
    obtain ⟨sport, iif, oif, inside⟩ := found
    exact ⟨_, rfl, inside⟩
  · intro found
    obtain ⟨p, rfl, inside⟩ := found
    exact ⟨p.sport, p.iif, p.oif, inside⟩

theorem flows_eq_image (layout : Layout) (set : B) :
    layout.flows set = Packet.flow '' {p | layout.mem set p = true} := by
  ext t
  rw [mem_flows, Set.mem_image]
  apply exists_congr
  intro p
  rw [Set.mem_ofPred_eq, and_comm]

/-- Each flow stands for all values of what it leaves open. -/
theorem card_project (layout : Layout) (set : B) :
    exactCardinality (layout.project set) = (layout.flows set).ncard * 2 ^ quantifiedBits := by
  let split := fun p : Packet => (p.flow, p.unprojected)
  have injective : Function.Injective split := by
    intro p q same
    simp only [split, Packet.flow, Packet.unprojected, Prod.mk.injEq] at same
    obtain ⟨⟨src, dst, dport, proto⟩, sport, iif, oif⟩ := same
    exact Packet.ext src dst sport dport proto iif oif
  have image : split '' {p | layout.mem (layout.project set) p = true} =
      layout.flows set ×ˢ Set.univ := by
    ext ⟨t, sport, iif, oif⟩
    simp only [Set.mem_image, Set.mem_ofPred_eq, Set.mem_prod, Set.mem_univ, and_true, mem_project,
      Packet.sameFlow_iff_flow, mem_flows]
    constructor
    · intro found
      obtain ⟨p, ⟨q, same, inside⟩, here⟩ := found
      rw [Prod.mk.injEq] at here
      exact ⟨q, same.trans here.1, inside⟩
    · intro found
      obtain ⟨q, rfl, inside⟩ := found
      exact ⟨⟨q.src, q.dst, sport, q.dport, q.proto, iif, oif⟩, ⟨q, rfl, inside⟩, rfl⟩
  rw [← layout.ncard_mem, ← Set.ncard_image_of_injective _ injective, image, Set.ncard_prod,
    Set.ncard_univ, card_unprojected]

theorem flowCount_eq (layout : Layout) (set : B) :
    layout.flowCount set = (layout.flows set).ncard := by
  rw [flowCount, card_project, Nat.shiftRight_eq_div_pow,
    Nat.mul_div_cancel _ (Nat.two_pow_pos _)]

theorem flowCount_le (layout : Layout) (set : B) :
    layout.flowCount set ≤ exactCardinality set := by
  rw [flowCount_eq, flows_eq_image, ← layout.ncard_mem]
  exact Set.ncard_image_le

theorem flowCount_eq_zero_iff (layout : Layout) {set : B} :
    layout.flowCount set = 0 ↔ isFalse set = true := by
  rw [flowCount_eq, Set.ncard_eq_zero, flows_eq_image, Set.image_eq_empty,
    layout.isFalse_iff_mem, Set.eq_empty_iff_forall_notMem]
  simp only [Set.mem_ofPred_eq, Bool.not_eq_true]

theorem flowCount_mono (layout : Layout) {smaller larger : B}
    (contained : ∀ p, layout.mem smaller p = true → layout.mem larger p = true) :
    layout.flowCount smaller ≤ layout.flowCount larger := by
  rw [flowCount_eq, flowCount_eq, flows_eq_image, flows_eq_image]
  exact Set.ncard_le_ncard (Set.image_mono contained)

/-- A part has as many flows as the whole when it has a packet of each of them. -/
theorem flowCount_eq_iff (layout : Layout) {smaller larger : B}
    (contained : ∀ p, layout.mem smaller p = true → layout.mem larger p = true) :
    layout.flowCount smaller = layout.flowCount larger ↔
      ∀ p, layout.mem larger p = true →
        ∃ q : Packet, q.SameFlow p ∧ layout.mem smaller q = true := by
  have within : layout.flows smaller ⊆ layout.flows larger := by
    rw [flows_eq_image, flows_eq_image]
    exact Set.image_mono contained
  simp only [flowCount_eq, Packet.sameFlow_iff_flow, ← mem_flows]
  constructor
  · intro same p inside
    have equal := Set.eq_of_subset_of_ncard_le within same.ge
    rw [equal]
    exact (layout.mem_flows larger p.flow).mpr ⟨p, rfl, inside⟩
  · intro found
    congr 1
    apply within.antisymm
    intro t inLarger
    obtain ⟨p, rfl, inside⟩ := (layout.mem_flows larger t).mp inLarger
    exact found p inside

/-- A flow count is the number of source, destination, destination port and
protocol tuples of a set.  It grows with the set, is at most its size, and is zero
for the empty set only. -/
theorem flow_count_exact (layout : Layout) (set : B) :
    layout.flowCount set = (layout.flows set).ncard ∧
    (∀ larger : B, (∀ p, layout.mem set p = true → layout.mem larger p = true) →
      layout.flowCount set ≤ layout.flowCount larger) ∧
    layout.flowCount set ≤ exactCardinality set ∧
    (layout.flowCount set = 0 ↔ isFalse set = true) := by
  exact ⟨layout.flowCount_eq set, fun _ contained => layout.flowCount_mono contained,
    layout.flowCount_le set, layout.flowCount_eq_zero_iff⟩

end Layout

end Flows

/-- Flows to port 80 over TCP are among the flows over TCP. -/
theorem web_flows_le_tcp_flows : letI layout : Layout := ⟨.fieldMajor⟩
    layout.flowCount (Library.and (layout.eq .proto 6) (layout.eq .dstPort 80) :
        Diagram HEADER_BITS) ≤
      layout.flowCount (layout.eq .proto 6 : Diagram HEADER_BITS) :=
  letI layout : Layout := ⟨.fieldMajor⟩
  (layout.flow_count_exact _).2.1 _ fun p inside => by
    rw [layout.mem_and, Bool.and_eq_true] at inside
    exact inside.1

end Fwdelta
