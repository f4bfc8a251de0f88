import Fwdelta.Kerneldiff.Oracle
import Mathlib.Data.List.Find

/-
Models broken on purpose, and what it takes to tell them from the chain.

The kernel gets the generated chain and the model a corrupted one.  Both decide
arrivals by first match, so a probe tells a fault when the corrupted chain gives one
of its packets another verdict, or the same verdict by another rule.
-/

namespace Fwdelta.Kerneldiff

open DecisionDiagram
open Nft

inductive Fault
  | lastMatch
  | ignoreInterface
  | ignoreProtocol
  | ignorePorts
  | rejectPermits
  deriving DecidableEq, Repr

namespace Fault

def ALL : List Fault :=
  [.lastMatch, .ignoreInterface, .ignoreProtocol, .ignorePorts, .rejectPermits]

def parse : String → Option Fault
  | "last-match" => some .lastMatch
  | "ignore-interface" => some .ignoreInterface
  | "ignore-protocol" => some .ignoreProtocol
  | "ignore-ports" => some .ignorePorts
  | "reject-permits" => some .rejectPermits
  | _ => none

/-- Relaxing every rule of a chain in some dimensions. -/
def relaxRules (fields : List Field) (chain : Chain) : Chain :=
  { chain with rules := chain.rules.map (fun r =>
      { r with predicate := fields.foldl Match.relax r.predicate }) }

/-- Corrupt the chain that the model sees. -/
def corrupt : Fault → Chain → Chain
  | .lastMatch, chain => { chain with rules := chain.rules.reverse }
  | .ignoreInterface, chain => relaxRules [.ifIn] chain
  | .ignoreProtocol, chain => relaxRules [.proto] chain
  | .ignorePorts, chain => relaxRules [.srcPort, .dstPort] chain
  | .rejectPermits, chain =>
      { chain with rules := chain.rules.map (fun r =>
          if r.action = .drop then { r with action := .accept } else r) }

end Fault

/-! ### What corruption keeps -/

/-- The rules have numbers of their own and leave the output interface open. -/
structure Probeable (chain : Chain) : Prop where
  distinct : (chain.rules.map Rule.number).Nodup
  open_ : ∀ r ∈ chain.rules, r.predicate.oif = .any

theorem relax_oif {m : Match} (open_ : m.oif = .any) (field : Field) :
    (m.relax field).oif = .any := by
  cases field <;> first | exact open_ | rfl

theorem foldl_relax_oif (fields : List Field) {m : Match} (open_ : m.oif = .any) :
    (fields.foldl Match.relax m).oif = .any := by
  induction fields generalizing m with
  | nil => exact open_
  | cons field rest ih => exact ih (relax_oif open_ field)

/-- Editing the rules one by one, without their numbers. -/
theorem Probeable.map {chain : Chain} (probeable : Probeable chain) {edit : Rule → Rule}
    (number : ∀ r, (edit r).number = r.number)
    (open_ : ∀ r, r.predicate.oif = .any → (edit r).predicate.oif = .any) :
    Probeable { chain with rules := chain.rules.map edit } := by
  constructor
  · have same : (chain.rules.map edit).map Rule.number = chain.rules.map Rule.number := by
      rw [List.map_map]
      exact List.map_congr_left fun r _ => number r
    rw [same]
    exact probeable.distinct
  · intro r member
    obtain ⟨before, listed, rfl⟩ := List.mem_map.mp member
    exact open_ before (probeable.open_ before listed)

theorem Probeable.corrupt {chain : Chain} (probeable : Probeable chain) (f : Fault) :
    Probeable (f.corrupt chain) := by
  have relaxed (fields : List Field) : Probeable (Fault.relaxRules fields chain) :=
    probeable.map (fun _ => rfl) fun _ => foldl_relax_oif fields
  cases f with
  | lastMatch =>
      constructor
      · show (chain.rules.reverse.map Rule.number).Nodup
        rw [List.map_reverse, List.nodup_reverse]
        exact probeable.distinct
      · intro r member
        exact probeable.open_ r (List.mem_reverse.mp member)
  | ignoreInterface => exact relaxed _
  | ignoreProtocol => exact relaxed _
  | ignorePorts => exact relaxed _
  | rejectPermits =>
      refine probeable.map (fun r => ?_) fun r open_ => ?_
      · split <;> rfl
      · split <;> exact open_

/-! ### Packets of the model as arrivals -/

section Arrivals

variable {chain : Chain}

/-- On an index that names an interface, the model decides like first match on names. -/
theorem decidingRule_eq_arrivalRule (open_ : ∀ r ∈ chain.rules, r.predicate.oif = .any)
    {syms : SymbolTable} {q : Packet} {name : String}
    (named : syms.nameOf q.iif.toNat = some name) :
    chain.decidingRule syms q = arrivalRule chain ⟨q, name⟩ := by
  unfold Chain.decidingRule arrivalRule
  refine List.find?_congr fun r member => ?_
  have anywhere : (r.predicate.oif.resolve syms).contains q.oif.toNat = true := by
    rw [open_ r member, IfMatch.resolve, IntervalSet.contains_full]
    exact q.value_le_domainMax .ifOut
  rw [Bool.eq_iff_iff, Match.holdsAt_iff, Match.contains_iff, decide_eq_true_iff,
    IfMatch.contains_resolve_of_named syms _ named]
  exact and_congr_right fun _ => and_iff_left anywhere

theorem verdictAt_eq_arrivalVerdict (open_ : ∀ r ∈ chain.rules, r.predicate.oif = .any)
    {syms : SymbolTable} {q : Packet} {name : String}
    (named : syms.nameOf q.iif.toNat = some name) :
    verdictAt chain syms q = arrivalVerdict chain ⟨q, name⟩ := by
  unfold verdictAt Chain.decider Chain.verdict arrivalVerdict
  rw [decidingRule_eq_arrivalRule open_ named]
  cases arrivalRule chain ⟨q, name⟩ <;> rfl

/-- An arrival does not look at the index of its interface. -/
theorem arrivalVerdict_iif (header : Packet) (index : BitVec 8) (name : String) :
    arrivalVerdict chain ⟨{ header with iif := index }, name⟩ =
      arrivalVerdict chain ⟨header, name⟩ := by
  rfl

/-- An arrival of the probe, whatever it has in the dimensions that the probe leaves free. -/
structure ProbePacket.Covers (p : ProbePacket) (a : Arrival) : Prop where
  header : p.Describes a.header
  interface : a.interface = p.path.arrivalInterface

theorem ProbePacket.covers_arrival {p : ProbePacket} (protoFits : p.proto < 2 ^ 8) :
    p.Covers p.arrival := by
  refine ⟨⟨rfl, rfl, ?_, fun sp dp given => ?_⟩, rfl⟩
  · rw [ProbePacket.arrival, BitVec.toNat_ofNat, Nat.mod_eq_of_lt protoFits]
  · simp [ProbePacket.arrival, given]

theorem Drawn.protoFits {p : ProbePacket} (drawn : Drawn p) : p.proto < 2 ^ 8 := by
  rcases drawn.proto with ⟨icmp, _⟩ | ⟨tcp | udp, _⟩
  · rw [icmp]
    decide
  · rw [tcp]
    decide
  · rw [udp]
    decide

/-- The model shows the verdict that first match gives to every arrival of the probe. -/
theorem modelVerdict_ok_iff {B : Type} [Library HEADER_BITS B] [ContentHasher] (layout : Layout)
    (probeable : Probeable chain) {p : ProbePacket} (drawn : Drawn p) {syms : SymbolTable}
    (known : p.path.arrivalInterface ∈ syms.names) (v : Verdict) :
    modelVerdict layout syms (analyse layout syms chain : ChainModel B) p = .ok v ↔
      ∀ a, p.Covers a → arrivalVerdict chain a = v := by
  obtain ⟨idx, at_⟩ := List.mem_iff_getElem?.mp known
  have found : syms.indexOf p.path.arrivalInterface = some idx :=
    SymbolTable.indexOf_eq_some.mpr at_
  have inField : idx < 2 ^ 8 := Nat.lt_of_le_of_lt (SymbolTable.indexOf_le found) (by decide)
  rw [modelVerdict_ok_iff_at layout probeable.distinct drawn.protoFits found]
  constructor
  · intro all a covers
    obtain ⟨header, name⟩ := a
    obtain rfl := covers.interface
    have index : (BitVec.ofNat 8 idx).toNat = idx := by
      rw [BitVec.toNat_ofNat, Nat.mod_eq_of_lt inField]
    have same := all { header with iif := BitVec.ofNat 8 idx }
      ⟨⟨covers.header.src, covers.header.dst, covers.header.proto, covers.header.ports⟩, index⟩
    have named : syms.nameOf (BitVec.ofNat 8 idx).toNat = some p.path.arrivalInterface := by
      rw [index]
      exact at_
    rwa [verdictAt_eq_arrivalVerdict probeable.open_ named, arrivalVerdict_iif] at same
  · intro all q atIndex
    have named : syms.nameOf q.iif.toNat = some p.path.arrivalInterface := by
      rw [atIndex.2]
      exact at_
    rw [verdictAt_eq_arrivalVerdict probeable.open_ named]
    exact all ⟨q, p.path.arrivalInterface⟩ ⟨atIndex.1, rfl⟩

end Arrivals

/-! ### Generated chains -/

/-- A generated rule looks at the ports only of packets that have them. -/
theorem Generated.meets_congr {m : Match} (generated : Generated m) {p : ProbePacket}
    (drawn : Drawn p) {a b : Arrival} (coversA : p.Covers a) (coversB : p.Covers b) :
    MeetsArrival m a ↔ MeetsArrival m b := by
  have proto : a.header.proto = b.header.proto :=
    BitVec.eq_of_toNat_eq (coversA.header.proto.trans coversB.header.proto.symm)
  have src := coversA.header.src.trans coversB.header.src.symm
  have dst := coversA.header.dst.trans coversB.header.dst.symm
  have name := coversA.interface.trans coversB.interface.symm
  unfold MeetsArrival Match.ContainsHeader
  rw [src, dst, proto, name]
  rcases drawn.proto with ⟨icmp, portless⟩ | ⟨_, ⟨sp, dp⟩, given⟩
  · rcases generated.ports with ⟨sports, dports⟩ | ⟨l4, pinned⟩
    · have every (port : BitVec 16) : (IntervalSet.full 16).contains port.toNat = true := by
        rw [IntervalSet.contains_full]
        exact Nat.le_of_lt_succ port.isLt
      rw [sports, dports]
      simp only [every]
    · -- No rule for a protocol with ports holds of an ICMP packet.
      have outside : ¬ m.proto.contains b.header.proto.toNat = true := by
        rw [coversB.header.proto, icmp, pinned]
        cases l4 <;> decide
      tauto
  · obtain ⟨sportA, dportA⟩ := coversA.header.ports sp dp given
    obtain ⟨sportB, dportB⟩ := coversB.header.ports sp dp given
    rw [sportA, dportA, sportB, dportB]

theorem GeneratedChain.arrivalRule_congr {n : Nat} {chain : Chain}
    (generated : GeneratedChain n chain) {p : ProbePacket} (drawn : Drawn p) {a b : Arrival}
    (coversA : p.Covers a) (coversB : p.Covers b) : arrivalRule chain a = arrivalRule chain b := by
  unfold arrivalRule
  refine List.find?_congr fun r member => ?_
  exact decide_eq_decide.mpr ((generated.rules r member).meets_congr drawn coversA coversB)

theorem GeneratedChain.uniform {n : Nat} {chain : Chain} (generated : GeneratedChain n chain)
    {p : ProbePacket} (drawn : Drawn p) : Uniform chain p :=
  fun _ header interface => generated.arrivalRule_congr drawn ⟨header, interface⟩
    (p.covers_arrival drawn.protoFits)

theorem GeneratedChain.arrivalVerdict_eq {n : Nat} {chain : Chain}
    (generated : GeneratedChain n chain) {p : ProbePacket} (drawn : Drawn p) {a : Arrival}
    (covers : p.Covers a) : arrivalVerdict chain a = kernelVerdict chain p := by
  unfold kernelVerdict arrivalVerdict
  rw [generated.arrivalRule_congr drawn covers (p.covers_arrival drawn.protoFits)]

end Fwdelta.Kerneldiff
