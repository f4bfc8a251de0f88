import Fwdelta.Kerneldiff.Probe

/-
The dimensions that the probes of a run varied.

A dimension that takes one value across all probes is untested, and the model and the
kernel agree on it anyway.  So the values are counted, and a run is only complete when
every dimension that can vary took two.
-/

namespace Fwdelta.Kerneldiff

/-- The distinct values of each dimension, without their order. -/
structure Coverage where
  src : List (BitVec 32)
  dst : List (BitVec 32)
  sport : List (BitVec 16)
  dport : List (BitVec 16)
  proto : List Nat
  iif : List String
  portless : Nat
  probes : Nat

inductive Dimension
  | exercised (distinct : Nat)
  | constant (what : String)
  | notApplicable (why : String)

def Dimension.isConstant : Dimension → Bool
  | .constant _ => true
  | _ => false

namespace Coverage

def empty : Coverage where
  src := []
  dst := []
  sport := []
  dport := []
  proto := []
  iif := []
  portless := 0
  probes := 0

def record (cov : Coverage) (p : ProbePacket) : Coverage :=
  let cov := { cov with
    probes := cov.probes + 1
    src := cov.src.insert p.src
    dst := cov.dst.insert p.dst
    proto := cov.proto.insert p.proto
    iif := cov.iif.insert p.path.arrivalInterface }
  match p.ports with
  | some (sp, dp) => { cov with sport := cov.sport.insert sp, dport := cov.dport.insert dp }
  | none => { cov with portless := cov.portless + 1 }

def judge {α : Type} (debug : α → String) (set : List α) : Dimension :=
  match set with
  | [] => .constant "no values"
  | [only] => .constant (debug only)
  | several => .exercised several.length

def rows (cov : Coverage) : List (String × Dimension) :=
  [("source address", judge (fun v => toString v.toNat) cov.src),
    ("destination address", judge (fun v => toString v.toNat) cov.dst),
    ("source port", judge (fun v => toString v.toNat) cov.sport),
    ("destination port", judge (fun v => toString v.toNat) cov.dport),
    ("protocol", judge toString cov.proto),
    ("input interface", judge (fun name => "\"" ++ name ++ "\"") cov.iif),
    ("output interface", .notApplicable ("not in the supported subset; the frontend rejects " ++
      "oifname because this harness cannot validate it"))]

/-- Every dimension that can vary did. -/
def complete (cov : Coverage) : Bool :=
  cov.rows.all (fun row => !row.2.isConstant)

end Coverage

/-- Two of the packets differ in the dimension.  A packet without a value there is free
in it, not constant. -/
def Varies {α : Type} (dimension : ProbePacket → Option α) (packets : List ProbePacket) : Prop :=
  ∃ a b, a ≠ b ∧ (∃ p ∈ packets, dimension p = some a) ∧ ∃ p ∈ packets, dimension p = some b

/-- All dimensions of a probe vary. -/
structure AllVary (packets : List ProbePacket) : Prop where
  src : Varies (fun p => some p.src) packets
  dst : Varies (fun p => some p.dst) packets
  sport : Varies (fun p => p.ports.map Prod.fst) packets
  dport : Varies (fun p => p.ports.map Prod.snd) packets
  proto : Varies (fun p => some p.proto) packets
  iif : Varies (fun p => some p.path.arrivalInterface) packets

/-- The list holds the values of a dimension, each of them once. -/
structure Holds {α : Type} (set : List α) (dimension : ProbePacket → Option α)
    (packets : List ProbePacket) : Prop where
  distinct : set.Nodup
  exact : ∀ a, a ∈ set ↔ ∃ p ∈ packets, dimension p = some a

section Holds

variable {α : Type} {set : List α} {dimension : ProbePacket → Option α}
variable {packets : List ProbePacket}

theorem holds_nil : Holds [] dimension [] :=
  ⟨List.nodup_nil, by simp⟩

/-- One more packet adds its value, if it has one. -/
theorem Holds.concat_some [DecidableEq α] (holds : Holds set dimension packets)
    {p : ProbePacket} {a : α} (value : dimension p = some a) :
    Holds (set.insert a) dimension (packets ++ [p]) := by
  refine ⟨holds.distinct.insert, fun b => ?_⟩
  rw [List.mem_insert_iff, holds.exact]
  constructor
  · rintro (rfl | ⟨q, member, same⟩)
    · exact ⟨p, by simp, value⟩
    · exact ⟨q, List.mem_append_left _ member, same⟩
  · rintro ⟨q, member, same⟩
    rcases List.mem_append.mp member with earlier | last
    · exact Or.inr ⟨q, earlier, same⟩
    · rw [List.mem_singleton.mp last, value] at same
      exact Or.inl (Option.some.inj same).symm

theorem Holds.concat_none (holds : Holds set dimension packets) {p : ProbePacket}
    (free : dimension p = none) : Holds set dimension (packets ++ [p]) := by
  refine ⟨holds.distinct, fun b => ?_⟩
  rw [holds.exact]
  constructor
  · rintro ⟨q, member, same⟩
    exact ⟨q, List.mem_append_left _ member, same⟩
  · rintro ⟨q, member, same⟩
    rcases List.mem_append.mp member with earlier | last
    · exact ⟨q, earlier, same⟩
    · rw [List.mem_singleton.mp last, free] at same
      contradiction

/-- A dimension is held constant unless it varies. -/
theorem Holds.judge_isConstant (holds : Holds set dimension packets) (debug : α → String) :
    (Coverage.judge debug set).isConstant = false ↔ Varies dimension packets := by
  obtain ⟨distinct, exact_⟩ := holds
  unfold Varies
  simp only [← exact_]
  match set, distinct with
  | [], _ => simp [Coverage.judge, Dimension.isConstant]
  | [only], _ =>
      refine iff_of_false nofun ?_
      rintro ⟨a, b, differ, isA, isB⟩
      rw [List.mem_singleton.mp isA, List.mem_singleton.mp isB] at differ
      exact differ rfl
  | a :: b :: rest, distinct =>
      refine iff_of_true rfl ⟨a, b, ?_, by simp, by simp⟩
      rintro rfl
      simp at distinct

end Holds

namespace Coverage

/-- The coverage of the packets sent so far. -/
structure Of (packets : List ProbePacket) (cov : Coverage) : Prop where
  src : Holds cov.src (fun p => some p.src) packets
  dst : Holds cov.dst (fun p => some p.dst) packets
  sport : Holds cov.sport (fun p => p.ports.map Prod.fst) packets
  dport : Holds cov.dport (fun p => p.ports.map Prod.snd) packets
  proto : Holds cov.proto (fun p => some p.proto) packets
  iif : Holds cov.iif (fun p => some p.path.arrivalInterface) packets
  probes : cov.probes = packets.length

theorem of_nil : Of [] empty :=
  ⟨holds_nil, holds_nil, holds_nil, holds_nil, holds_nil, holds_nil, rfl⟩

theorem Of.record {packets : List ProbePacket} {cov : Coverage} (covers : Of packets cov)
    (p : ProbePacket) : Of (packets ++ [p]) (cov.record p) := by
  have count : cov.probes + 1 = (packets ++ [p]).length := by
    rw [List.length_append, covers.probes]
    rfl
  unfold Coverage.record
  cases given : p.ports with
  | none =>
      exact ⟨covers.src.concat_some rfl, covers.dst.concat_some rfl,
        covers.sport.concat_none (by rw [given]; rfl),
        covers.dport.concat_none (by rw [given]; rfl),
        covers.proto.concat_some rfl, covers.iif.concat_some rfl, count⟩
  | some ports =>
      obtain ⟨sp, dp⟩ := ports
      exact ⟨covers.src.concat_some rfl, covers.dst.concat_some rfl,
        covers.sport.concat_some (by rw [given]; rfl),
        covers.dport.concat_some (by rw [given]; rfl),
        covers.proto.concat_some rfl, covers.iif.concat_some rfl, count⟩

theorem Of.foldl {packets more : List ProbePacket} {cov : Coverage} (covers : Of packets cov) :
    Of (packets ++ more) (more.foldl Coverage.record cov) := by
  induction more generalizing packets cov with
  | nil => simpa using covers
  | cons p rest ih =>
      have extended := ih (covers.record p)
      rwa [List.append_assoc] at extended

/-- Coverage is complete when every dimension varied. -/
theorem Of.complete_iff {packets : List ProbePacket} {cov : Coverage} (covers : Of packets cov) :
    cov.complete = true ↔ AllVary packets := by
  have other {why : String} : (Dimension.notApplicable why).isConstant = false := rfl
  unfold complete rows
  simp only [List.all_cons, List.all_nil, Bool.and_true, Bool.and_eq_true, Bool.not_eq_true',
    covers.src.judge_isConstant, covers.dst.judge_isConstant, covers.sport.judge_isConstant,
    covers.dport.judge_isConstant, covers.proto.judge_isConstant, covers.iif.judge_isConstant,
    other, and_true]
  constructor
  · rintro ⟨src, dst, sport, dport, proto, iif⟩
    exact ⟨src, dst, sport, dport, proto, iif⟩
  · rintro ⟨src, dst, sport, dport, proto, iif⟩
    exact ⟨src, dst, sport, dport, proto, iif⟩

end Coverage

end Fwdelta.Kerneldiff
