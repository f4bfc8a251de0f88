import Fwdelta.Engine.Diff
import Mathlib.Data.List.Find

/-
Traffic with the names of its interfaces, and the packets that stand for it.

A host sees names and the model sees indices of a symbol table.  Every packet of the
model stands for some traffic, and while an index is left over, all traffic is seen by
some packet.  So a question about the packets of two chains is one about traffic.
-/

namespace Fwdelta

open DecisionDiagram

/-- A packet on interfaces with names.  The indices of the header are not looked at. -/
structure Traffic where
  header : Packet
  iif : String
  oif : String

namespace Match

def Meets (m : Match) (t : Traffic) : Prop :=
  m.ContainsHeader t.header ∧ m.iif.Admits t.iif ∧ m.oif.Admits t.oif

instance (m : Match) (t : Traffic) : Decidable (m.Meets t) :=
  inferInstanceAs (Decidable ((_ ∧ _ ∧ _ ∧ _ ∧ _) ∧ _ ∧ _))

/-- The names of the match are in the table. -/
def Known (syms : SymbolTable) (m : Match) : Prop :=
  ∀ name ∈ m.interfaceNames, name ∈ syms.names

end Match

namespace Chain

def meetingRule (chain : Chain) (t : Traffic) : Option Rule :=
  chain.rules.find? (fun rule => decide (rule.predicate.Meets t))

/-- First match on names. -/
def ruling (chain : Chain) (t : Traffic) : Action :=
  match chain.meetingRule t with
  | some rule => rule.action
  | none => chain.policy

def Known (syms : SymbolTable) (chain : Chain) : Prop :=
  ∀ rule ∈ chain.rules, rule.predicate.Known syms

end Chain

/-- The packet stands for the traffic: the headers agree, and no match over the table
tells the interfaces apart. -/
structure Traffic.SeenAs (syms : SymbolTable) (t : Traffic) (p : Packet) : Prop where
  header : ∀ field, field.isInterface = false → t.header.value field = p.value field
  iif : IfMatch.Represents syms t.iif p.iif.toNat
  oif : IfMatch.Represents syms t.oif p.oif.toNat

/-! ### Every packet stands for traffic, and the other way round -/

theorem IfMatch.represents_of_named {syms : SymbolTable} {name : String} {index : Nat}
    (named : syms.nameOf index = some name) : IfMatch.Represents syms name index :=
  ⟨SymbolTable.indexOf_le (SymbolTable.indexOf_eq_some.mpr named),
    fun m _ => IfMatch.contains_resolve_of_named syms m named⟩

theorem SymbolTable.exists_absent (syms : SymbolTable) : ∃ name, name ∉ syms.names := by
  obtain ⟨name, absent⟩ := Infinite.exists_notMem_finset syms.names.toFinset
  exact ⟨name, fun member => absent (List.mem_toFinset.mpr member)⟩

/-- An index without a name represents an interface outside the table. -/
theorem IfMatch.exists_represented (syms : SymbolTable) (index : BitVec 8) :
    ∃ name, IfMatch.Represents syms name index.toNat := by
  cases named : syms.nameOf index.toNat with
  | some name => exact ⟨name, represents_of_named named⟩
  | none =>
      obtain ⟨name, absent⟩ := syms.exists_absent
      have within : index.toNat ≤ domainMax IF_BITS := Nat.le_of_lt_succ index.isLt
      exact ⟨name, within,
        fun m known => contains_resolve_of_unnamed syms m named within known absent⟩

theorem IfMatch.exists_representing {syms : SymbolTable} {name : String}
    (room : name ∈ syms.names ∨ syms.names.length < MAX_INTERFACES) :
    ∃ index : BitVec 8, IfMatch.Represents syms name index.toNat := by
  have fits {index : Nat} (represents : IfMatch.Represents syms name index) :
      ∃ index : BitVec 8, IfMatch.Represents syms name index.toNat := by
    have bound : index < 2 ^ 8 := Nat.lt_succ_of_le represents.1
    refine ⟨BitVec.ofNat 8 index, ?_⟩
    rwa [BitVec.toNat_ofNat, Nat.mod_eq_of_lt bound]
  by_cases listed : name ∈ syms.names
  · obtain ⟨index, at_⟩ := List.mem_iff_getElem?.mp listed
    exact fits (represents_of_named at_)
  · have few := room.resolve_left listed
    have within : syms.names.length ≤ domainMax IF_BITS := Nat.le_of_lt_succ few
    have unnamed : syms.nameOf syms.names.length = none := by simp [SymbolTable.nameOf]
    exact fits ⟨within,
      fun m known => contains_resolve_of_unnamed syms m unnamed within known listed⟩

theorem exists_traffic (syms : SymbolTable) (p : Packet) :
    ∃ t : Traffic, t.SeenAs syms p := by
  obtain ⟨iif, input⟩ := IfMatch.exists_represented syms p.iif
  obtain ⟨oif, output⟩ := IfMatch.exists_represented syms p.oif
  exact ⟨⟨p, iif, oif⟩, fun _ _ => rfl, input, output⟩

theorem Traffic.exists_packet {syms : SymbolTable} {t : Traffic}
    (iif : t.iif ∈ syms.names ∨ syms.names.length < MAX_INTERFACES)
    (oif : t.oif ∈ syms.names ∨ syms.names.length < MAX_INTERFACES) :
    ∃ p : Packet, t.SeenAs syms p := by
  obtain ⟨input, inputSeen⟩ := IfMatch.exists_representing iif
  obtain ⟨output, outputSeen⟩ := IfMatch.exists_representing oif
  refine ⟨{ t.header with iif := input, oif := output }, fun field packet => ?_, inputSeen,
    outputSeen⟩
  cases field <;> first | rfl | contradiction

/-! ### What is seen is decided alike -/

namespace Traffic.SeenAs

variable {syms : SymbolTable} {t : Traffic} {p : Packet}

theorem containsHeader_iff (seen : t.SeenAs syms p) (m : Match) :
    m.ContainsHeader t.header ↔ m.ContainsHeader p := by
  have src := seen.header .srcAddr rfl
  have dst := seen.header .dstAddr rfl
  have sport := seen.header .srcPort rfl
  have dport := seen.header .dstPort rfl
  have proto := seen.header .proto rfl
  simp only [Packet.value] at src dst sport dport proto
  rw [Match.ContainsHeader, Match.ContainsHeader, src, dst, sport, dport, proto]

theorem contains_iff (seen : t.SeenAs syms p) {m : Match} (known : m.Known syms) :
    m.Contains syms p ↔ m.Meets t := by
  have input : ∀ n ∈ m.iif.names, n ∈ syms.names :=
    fun n member => known n (List.mem_append_left _ (mem_sortNames.mpr member))
  have output : ∀ n ∈ m.oif.names, n ∈ syms.names :=
    fun n member => known n (List.mem_append_right _ (mem_sortNames.mpr member))
  rw [Match.contains_iff, seen.iif.2 m.iif input, seen.oif.2 m.oif output, Match.Meets,
    seen.containsHeader_iff]

theorem decidingRule_eq (seen : t.SeenAs syms p) {chain : Chain} (known : chain.Known syms) :
    chain.decidingRule syms p = chain.meetingRule t := by
  unfold Chain.decidingRule Chain.meetingRule
  refine List.find?_congr fun rule member => ?_
  rw [Bool.eq_iff_iff, Match.holdsAt_iff, decide_eq_true_iff,
    seen.contains_iff (known rule member)]

theorem verdict_eq (seen : t.SeenAs syms p) {chain : Chain} (known : chain.Known syms) :
    chain.verdict syms p = chain.ruling t := by
  have same := seen.decidingRule_eq known
  unfold Chain.verdict Chain.ruling
  cases found : chain.meetingRule t with
  | none => simp only [same.trans found]
  | some rule => simp only [same.trans found]

end Traffic.SeenAs

/-- What holds of some packet and what holds of some traffic, where they agree on what is
seen. -/
theorem exists_packet_iff_exists_traffic {syms : SymbolTable}
    (room : syms.names.length < MAX_INTERFACES) {P : Packet → Prop} {T : Traffic → Prop}
    (agree : ∀ t p, t.SeenAs syms p → (P p ↔ T t)) : (∃ p, P p) ↔ ∃ t, T t := by
  constructor
  · rintro ⟨p, holds⟩
    obtain ⟨t, seen⟩ := exists_traffic syms p
    exact ⟨t, (agree t p seen).mp holds⟩
  · rintro ⟨t, holds⟩
    obtain ⟨p, seen⟩ := t.exists_packet (Or.inr room) (Or.inr room)
    exact ⟨p, (agree t p seen).mpr holds⟩

theorem forall_packet_iff_forall_traffic {syms : SymbolTable}
    (room : syms.names.length < MAX_INTERFACES) {P : Packet → Prop} {T : Traffic → Prop}
    (agree : ∀ t p, t.SeenAs syms p → (P p ↔ T t)) : (∀ p, P p) ↔ ∀ t, T t := by
  have refuted := exists_packet_iff_exists_traffic room
    (fun t p seen => not_congr (agree t p seen))
  simpa only [not_exists, not_not] using not_congr refuted

end Fwdelta
