import Fwdelta.Engine.Diff
import Fwdelta.Engine.Verify
import Fwdelta.Kerneldiff.Generate

/-
Probe packets, and what the model says about them.

A probe fixes the addresses, the protocol, the interface it arrives on and, where
the protocol has ports, both ports.  Everything else is free, so a probe is a set of
packets, and the model has to give all of them one verdict by one decider.
-/

namespace Fwdelta

open DecisionDiagram

/-! ### Deciders of chains with distinct numbers -/

/-- Where the numbers of the rules are distinct, a number says which rule decided. -/
theorem Chain.decider_eq_rule_iff_of_nodup {chain : Chain}
    (distinct : (chain.rules.map Rule.number).Nodup) (syms : SymbolTable) {i : Nat} {rule : Rule}
    (at_ : chain.rules[i]? = some rule) (p : Packet) :
    chain.decider syms p = .rule rule.number ↔ chain.decidedAt syms p = i := by
  have bound := (List.getElem?_eq_some_iff.mp at_).1
  unfold Chain.decider
  rw [chain.decidingRule_eq_getElem?_decidedAt]
  constructor
  · intro same
    split at same
    · next decided decidedAt =>
        -- Both positions hold the same number.
        have number := Decider.rule.inj same
        have left : (chain.rules.map Rule.number)[chain.decidedAt syms p]? =
            some rule.number := by
          rw [List.getElem?_map, decidedAt, Option.map_some, number]
        have right : (chain.rules.map Rule.number)[i]? = some rule.number := by
          rw [List.getElem?_map, at_, Option.map_some]
        have within := (List.getElem?_eq_some_iff.mp left).1
        exact (List.getElem?_inj within distinct).mp (left.trans right.symm)
    · contradiction
  · rintro rfl
    rw [at_]

theorem attribute_cut_of_nodup {B : Type} [Library HEADER_BITS B] [ContentHasher]
    (layout : Layout) (syms : SymbolTable) {chain : Chain}
    (distinct : (chain.rules.map Rule.number).Nodup) (set : B) :
    Fibres.Cut (fun (s : B) p => layout.mem s p = true) (chain.decider syms) set
      ((analyse layout syms chain : ChainModel B).attribute set) := by
  rw [ChainModel.attribute_eq_filterMap _ (analyse_shadowed_consistent layout syms chain)]
  apply Fibres.Cut.of_restrict
  · exact fun cell part => restrictTo_eq_some layout
  · exact fun cell => restrictTo_eq_none layout
  · intro cell member p
    rcases List.mem_append.mp member with ruled | policy
    · obtain ⟨r, modelMember, rfl⟩ := List.mem_map.mp ruled
      obtain ⟨i, modelAt⟩ := List.mem_iff_getElem?.mp modelMember
      obtain ⟨rule, ruleAt, described⟩ := exists_described layout syms chain modelAt
      rw [mem_effective_iff_decidedAt layout syms chain modelAt, decide_eq_true_iff,
        described.number, chain.decider_eq_rule_iff_of_nodup distinct syms ruleAt]
    · rw [List.mem_singleton.mp policy, mem_fallthrough, decide_eq_true_iff]
  · rw [deciderCells_labels]
    refine List.nodup_append.mpr ⟨distinct.map (fun a b same => Decider.rule.inj same),
      List.nodup_singleton _, ?_⟩
    intro label ruled last member same
    obtain ⟨n, _, rfl⟩ := List.mem_map.mp ruled
    rw [List.mem_singleton.mp member] at same
    contradiction
  · exact deciderCells_covers layout syms chain

end Fwdelta

namespace Fwdelta.Kerneldiff

open DecisionDiagram
open DecisionDiagram.Library
open Outcomes
open Rng

inductive Path
  | loopback
  | wire
  deriving DecidableEq, Repr

def Path.arrivalInterface : Path → String
  | .loopback => IF_LOOPBACK
  | .wire => IF_WIRE

/-- A packet to send.  Protocols without ports leave both port dimensions free. -/
structure ProbePacket where
  path : Path
  src : BitVec 32
  dst : BitVec 32
  ports : Option (BitVec 16 × BitVec 16)
  proto : Nat
  deriving DecidableEq, Repr

def ipString (v : BitVec 32) : String :=
  toString (v.toNat >>> 24) ++ "." ++ toString ((v.toNat >>> 16) &&& 0xff) ++ "." ++
    toString ((v.toNat >>> 8) &&& 0xff) ++ "." ++ toString (v.toNat &&& 0xff)

def ProbePacket.text (p : ProbePacket) : String :=
  let name :=
    if p.proto = ICMP then "icmp"
    else if p.proto = TCP then "tcp"
    else if p.proto = UDP then "udp"
    else "ip"
  match p.ports with
  | some (sp, dp) =>
      name ++ " " ++ ipString p.src ++ ":" ++ toString sp.toNat ++ " -> " ++ ipString p.dst ++
        ":" ++ toString dp.toNat ++ " on " ++ p.path.arrivalInterface
  | none =>
      name ++ " " ++ ipString p.src ++ " -> " ++ ipString p.dst ++ " on " ++
        p.path.arrivalInterface

/-! ### Drawing packets -/

def Path.srcs : Path → List (BitVec 32)
  | .loopback => LO_SRCS
  | .wire => WIRE_SRCS

def Path.dsts : Path → List (BitVec 32)
  | .loopback => LO_DSTS
  | .wire => WIRE_DSTS

theorem srcs_ne_nil (path : Path) : path.srcs ≠ [] := by
  cases path <;> decide

theorem dsts_ne_nil (path : Path) : path.dsts ≠ [] := by
  cases path <;> decide

def drawPath : StateM Rng Path := do
  if (← below 2) = 0 then pure .loopback else pure .wire

theorem PORTS_ne_nil : PORTS ≠ [] := by
  decide

def drawSourcePort : StateM Rng (BitVec 16) := do
  if (← below 4) = 0 then do
    let port ← pick PORTS PORTS_ne_nil
    pure port.val
  else do
    let n ← below 40000
    pure (BitVec.ofNat 16 (n + 20000))

def drawDestinationPort : StateM Rng (BitVec 16) := do
  if (← below 2) = 0 then do
    let port ← pick PORTS PORTS_ne_nil
    pure port.val
  else do
    let n ← below 65535
    pure (BitVec.ofNat 16 n)

def PROBE_PROTOS : List Nat := [UDP, UDP, TCP, ICMP]

def randomPacket : StateM Rng ProbePacket := do
  let path ← drawPath
  let proto ← pick PROBE_PROTOS (by decide)
  let ports ← (if proto.val = ICMP then pure none
    else do
      let sp ← drawSourcePort
      let dp ← drawDestinationPort
      pure (some (sp, dp)))
  let src ← pick path.srcs (srcs_ne_nil path)
  let dst ← pick path.dsts (dsts_ne_nil path)
  pure { path := path, src := src.val, dst := dst.val, ports := ports, proto := proto.val }

/-- A packet that the harness can send: its source is one of its path, and ports come
with the protocols that have them. -/
structure Drawn (p : ProbePacket) : Prop where
  src : p.src ∈ p.path.srcs
  dst : p.dst ∈ p.path.dsts
  proto : (p.proto = ICMP ∧ p.ports = none) ∨
    ((p.proto = TCP ∨ p.proto = UDP) ∧ ∃ ports, p.ports = some ports)

theorem randomPacket_drawn : Always randomPacket Drawn := by
  refine always_bind (always_of_forall fun path => ?_)
  refine always_bind (always_of_forall fun proto => ?_)
  have listed := proto.property
  refine always_bind (Always.imp (P := fun ports => (proto.val = ICMP ∧ ports = none) ∨
      ((proto.val = TCP ∨ proto.val = UDP) ∧ ∃ both, ports = some both)) ?_ fun ports known => ?_)
  · refine always_ite (fun icmp => always_pure (Or.inl ⟨icmp, rfl⟩)) (fun other => ?_)
    have ported : proto.val = TCP ∨ proto.val = UDP := by
      simp only [PROBE_PROTOS, List.mem_cons, List.not_mem_nil, or_false] at listed
      tauto
    refine always_bind (always_of_forall fun sp => ?_)
    exact always_bind (always_of_forall fun dp => always_pure (Or.inr ⟨ported, _, rfl⟩))
  · refine always_bind (always_of_forall fun src => ?_)
    refine always_bind (always_of_forall fun dst => always_pure ?_)
    exact ⟨src.property, dst.property, known⟩

/-! ### The packets of a probe -/

/-- The packet has what the probe fixes in the headers. -/
structure ProbePacket.Describes (p : ProbePacket) (q : Packet) : Prop where
  src : q.src = p.src
  dst : q.dst = p.dst
  proto : q.proto.toNat = p.proto
  ports : ∀ sp dp, p.ports = some (sp, dp) → q.sport = sp ∧ q.dport = dp

/-- Whether a rule or the policy decided, and how. -/
structure Verdict where
  decider : Option Nat
  permitted : Bool
  deriving DecidableEq, Repr

def deciderNumber : Decider → Option Nat
  | .rule n => some n
  | .policy => none

theorem deciderNumber_injective : Function.Injective deciderNumber := by
  intro a b same
  cases a <;> cases b <;> simp_all [deciderNumber]

def verdictAt (chain : Chain) (syms : SymbolTable) (q : Packet) : Verdict where
  decider := deciderNumber (chain.decider syms q)
  permitted := (chain.verdict syms q).permits

inductive ModelError
  | missing (interface : String)
  | ambiguous (p : ProbePacket)
  | deciders (p : ProbePacket) (count : Nat)

def ModelError.text : ModelError → String
  | .missing interface => "interface " ++ interface ++ " missing from the symbol table"
  | .ambiguous p =>
      "the model gives " ++ p.text ++ " more than one verdict: a rule constrains a port " ++
        "dimension without pinning a protocol that has ports"
  | .deciders p count =>
      "the model attributes " ++ p.text ++ " to " ++ toString count ++ " different deciders"

section Model

variable {B : Type} [Library HEADER_BITS B]

def ProbePacket.point (layout : Layout) (p : ProbePacket) (idx : Nat) : B :=
  let fixed := and (and (and (layout.eq .srcAddr p.src.toNat) (layout.eq .dstAddr p.dst.toNat))
    (layout.eq .proto p.proto)) (layout.eq .ifIn idx)
  match p.ports with
  | some (sp, dp) =>
      and (and fixed (layout.eq .srcPort sp.toNat)) (layout.eq .dstPort dp.toNat)
  | none => fixed

def modelVerdict (layout : Layout) (syms : SymbolTable) (model : ChainModel B)
    (p : ProbePacket) : Except ModelError Verdict :=
  match syms.indexOf p.path.arrivalInterface with
  | none => .error (.missing p.path.arrivalInterface)
  | some idx =>
      let point := p.point layout idx
      let allPermitted := isFalse (andNot point model.accept)
      let nonePermitted := isFalse (and point model.accept)
      if !allPermitted && !nonePermitted then .error (.ambiguous p)
      else
        match model.attribute point with
        | [] => .ok ⟨none, allPermitted⟩
        | [(label, _)] => .ok ⟨deciderNumber label, allPermitted⟩
        | cells => .error (.deciders p cells.length)

/-- The point is the packets of the probe that arrive on the interface. -/
theorem mem_point (layout : Layout) {p : ProbePacket} (protoFits : p.proto < 2 ^ 8) {idx : Nat}
    (inField : idx < 2 ^ 8) (q : Packet) :
    layout.mem (p.point layout idx : B) q = true ↔ p.Describes q ∧ q.iif.toNat = idx := by
  have src : layout.mem (layout.eq .srcAddr p.src.toNat : B) q = true ↔ q.src = p.src :=
    (layout.mem_eq p.src.isLt q).trans BitVec.toNat_inj
  have dst : layout.mem (layout.eq .dstAddr p.dst.toNat : B) q = true ↔ q.dst = p.dst :=
    (layout.mem_eq p.dst.isLt q).trans BitVec.toNat_inj
  have proto : layout.mem (layout.eq .proto p.proto : B) q = true ↔ q.proto.toNat = p.proto :=
    layout.mem_eq protoFits q
  have iif : layout.mem (layout.eq .ifIn idx : B) q = true ↔ q.iif.toNat = idx :=
    layout.mem_eq inField q
  unfold ProbePacket.point
  cases given : p.ports with
  | none =>
      simp only [layout.mem_and, Bool.and_eq_true, src, dst, proto, iif]
      constructor
      · rintro ⟨⟨⟨sameSrc, sameDst⟩, sameProto⟩, sameIndex⟩
        exact ⟨⟨sameSrc, sameDst, sameProto, fun sp dp some_ => by simp [given] at some_⟩,
          sameIndex⟩
      · rintro ⟨describes, sameIndex⟩
        exact ⟨⟨⟨describes.src, describes.dst⟩, describes.proto⟩, sameIndex⟩
  | some both =>
      obtain ⟨sp, dp⟩ := both
      have sport : layout.mem (layout.eq .srcPort sp.toNat : B) q = true ↔ q.sport = sp :=
        (layout.mem_eq sp.isLt q).trans BitVec.toNat_inj
      have dport : layout.mem (layout.eq .dstPort dp.toNat : B) q = true ↔ q.dport = dp :=
        (layout.mem_eq dp.isLt q).trans BitVec.toNat_inj
      simp only [layout.mem_and, Bool.and_eq_true, src, dst, proto, iif, sport, dport]
      constructor
      · rintro ⟨⟨⟨⟨⟨sameSrc, sameDst⟩, sameProto⟩, sameIndex⟩, sameSport⟩, sameDport⟩
        refine ⟨⟨sameSrc, sameDst, sameProto, fun s d some_ => ?_⟩, sameIndex⟩
        obtain ⟨rfl, rfl⟩ := Prod.mk.inj (Option.some.inj (given.symm.trans some_))
        exact ⟨sameSport, sameDport⟩
      · rintro ⟨describes, sameIndex⟩
        obtain ⟨sameSport, sameDport⟩ := describes.ports sp dp given
        exact ⟨⟨⟨⟨⟨describes.src, describes.dst⟩, describes.proto⟩, sameIndex⟩, sameSport⟩,
          sameDport⟩

end Model

/-! ### The model's verdict is exact -/

section Exact

/-- A packet of the probe on the interface with the index. -/
def ProbePacket.At (p : ProbePacket) (idx : Nat) (q : Packet) : Prop :=
  p.Describes q ∧ q.iif.toNat = idx

theorem ProbePacket.exists_at {p : ProbePacket} (protoFits : p.proto < 2 ^ 8) {idx : Nat}
    (inField : idx < 2 ^ 8) : ∃ q, p.At idx q := by
  have proto : (BitVec.ofNat 8 p.proto).toNat = p.proto := by
    rw [BitVec.toNat_ofNat, Nat.mod_eq_of_lt protoFits]
  have index : (BitVec.ofNat 8 idx).toNat = idx := by
    rw [BitVec.toNat_ofNat, Nat.mod_eq_of_lt inField]
  let ports := p.ports.getD (0, 0)
  refine ⟨⟨p.src, p.dst, ports.1, ports.2, BitVec.ofNat 8 p.proto, BitVec.ofNat 8 idx, 0⟩,
    ⟨rfl, rfl, proto, fun sp dp given => ?_⟩, index⟩
  simp [ports, given]

variable {B : Type} [Library HEADER_BITS B] [ContentHasher]
variable (layout : Layout) {syms : SymbolTable} {chain : Chain}
variable (distinct : (chain.rules.map Rule.number).Nodup)
variable {p : ProbePacket} (protoFits : p.proto < 2 ^ 8)
variable {idx : Nat} (known : syms.indexOf p.path.arrivalInterface = some idx)

include distinct protoFits known

/-- The packets of the probe get different verdicts, or one verdict by one decider, or
one verdict by several. -/
theorem modelVerdict_cases :
    let out := modelVerdict layout syms (analyse layout syms chain : ChainModel B) p
    (out = .error (.ambiguous p) ∧ ∃ q q', p.At idx q ∧ p.At idx q' ∧
      (chain.verdict syms q).permits ≠ (chain.verdict syms q').permits) ∨
    ∃ permitted, (∀ q, p.At idx q → (chain.verdict syms q).permits = permitted) ∧
      ((∃ label, out = .ok ⟨deciderNumber label, permitted⟩ ∧
          ∀ q, p.At idx q → chain.decider syms q = label) ∨
        (out = .error (.deciders p {l | ∃ q, p.At idx q ∧ chain.decider syms q = l}.ncard) ∧
          {l | ∃ q, p.At idx q ∧ chain.decider syms q = l}.ncard ≠ 1)) := by
  intro out
  have inField : idx < 2 ^ 8 :=
    Nat.lt_of_le_of_lt (SymbolTable.indexOf_le known) (by decide)
  have inside (q : Packet) : layout.mem (p.point layout idx : B) q = true ↔ p.At idx q :=
    mem_point layout protoFits inField q
  obtain ⟨first, atFirst⟩ := p.exists_at protoFits inField
  have cut := attribute_cut_of_nodup layout syms distinct (p.point layout idx : B)
  have labels : {l | ∃ q, layout.mem (p.point layout idx : B) q = true ∧
      chain.decider syms q = l} = {l | ∃ q, p.At idx q ∧ chain.decider syms q = l} := by
    simp only [inside]
  have count := cut.length_eq_ncard
  rw [labels] at count
  have single := cut.eq_singleton_iff
  simp only [inside] at single
  have all : isFalse (andNot (p.point layout idx) (analyse layout syms chain : ChainModel B).accept)
      = true ↔ ∀ q, p.At idx q → (chain.verdict syms q).permits = true := by
    rw [layout.isFalse_iff_mem]
    simp only [layout.mem_andNot, mem_accept, Bool.and_eq_false_imp, inside, Bool.not_eq_false']
  have none_ : isFalse (and (p.point layout idx) (analyse layout syms chain : ChainModel B).accept)
      = true ↔ ∀ q, p.At idx q → (chain.verdict syms q).permits = false := by
    rw [layout.isFalse_iff_mem]
    simp only [layout.mem_and, mem_accept, Bool.and_eq_false_imp, inside]
  have decided (permitted : Bool) :
      let listed : Except ModelError Verdict :=
        match (analyse layout syms chain : ChainModel B).attribute (p.point layout idx) with
        | [] => .ok ⟨none, permitted⟩
        | [(label, _)] => .ok ⟨deciderNumber label, permitted⟩
        | cells => .error (.deciders p cells.length)
      (∃ label, listed = .ok ⟨deciderNumber label, permitted⟩ ∧
          ∀ q, p.At idx q → chain.decider syms q = label) ∨
        (listed = .error (.deciders p {l | ∃ q, p.At idx q ∧ chain.decider syms q = l}.ncard) ∧
          {l | ∃ q, p.At idx q ∧ chain.decider syms q = l}.ncard ≠ 1) := by
    cases cells : (analyse layout syms chain : ChainModel B).attribute (p.point layout idx) with
    | nil =>
        obtain ⟨cell, member, _⟩ := cut.covers first ((inside first).mpr atFirst)
        rw [cells] at member
        contradiction
    | cons cell rest =>
        cases rest with
        | nil => exact Or.inl ⟨cell.1, rfl, ((single cell.1).mp ⟨cell.2, cells⟩).2⟩
        | cons other more =>
            rw [cells] at count
            rw [← count]
            exact Or.inr ⟨rfl, by simp⟩
  unfold out modelVerdict
  rw [known]
  simp only
  by_cases allow : ∀ q, p.At idx q → (chain.verdict syms q).permits = true
  · rw [all.mpr allow]
    exact Or.inr ⟨true, allow, decided true⟩
  · rw [Bool.eq_false_iff.mpr (fun found => allow (all.mp found))]
    by_cases deny : ∀ q, p.At idx q → (chain.verdict syms q).permits = false
    · rw [none_.mpr deny]
      exact Or.inr ⟨false, deny, decided false⟩
    · rw [Bool.eq_false_iff.mpr (fun found => deny (none_.mp found))]
      push Not at allow deny
      obtain ⟨q, atQ, denied⟩ := allow
      obtain ⟨q', atQ', allowed⟩ := deny
      refine Or.inl ⟨rfl, q, q', atQ, atQ', fun same => ?_⟩
      rw [same] at denied
      exact allowed (Bool.eq_false_of_not_eq_true denied)

/-- The model shows a verdict when all packets of the probe get it. -/
theorem modelVerdict_ok_iff_at (v : Verdict) :
    modelVerdict layout syms (analyse layout syms chain : ChainModel B) p = .ok v ↔
      ∀ q, p.At idx q → verdictAt chain syms q = v := by
  obtain ⟨first, atFirst⟩ := p.exists_at protoFits
    (Nat.lt_of_le_of_lt (SymbolTable.indexOf_le known) (by decide) : idx < 2 ^ 8)
  rcases modelVerdict_cases (B := B) layout distinct protoFits known with
    ⟨given, q, q', atQ, atQ', differ⟩ | ⟨permitted, same, ⟨label, given, decided⟩ | ⟨given, many⟩⟩
  · rw [given]
    refine iff_of_false nofun fun all => ?_
    exact differ (congrArg Verdict.permitted ((all q atQ).trans (all q' atQ').symm))
  · have all : ∀ q, p.At idx q → verdictAt chain syms q = ⟨deciderNumber label, permitted⟩ := by
      intro q atQ
      rw [verdictAt, decided q atQ, same q atQ]
    rw [given]
    constructor
    · intro equal q atQ
      rw [all q atQ]
      exact Except.ok.inj equal
    · intro others
      rw [← others first atFirst, all first atFirst]
  · rw [given]
    refine iff_of_false nofun fun all => many ?_
    -- One verdict names one decider.
    rw [Set.ncard_eq_one]
    refine ⟨chain.decider syms first, Set.eq_singleton_iff_unique_mem.mpr
      ⟨⟨first, atFirst, rfl⟩, ?_⟩⟩
    rintro l ⟨q, atQ, rfl⟩
    exact deciderNumber_injective
      (congrArg Verdict.decider ((all q atQ).trans (all first atFirst).symm))

theorem modelVerdict_ambiguous_iff :
    modelVerdict layout syms (analyse layout syms chain : ChainModel B) p =
        .error (.ambiguous p) ↔
      ∃ q q', p.At idx q ∧ p.At idx q' ∧
        (chain.verdict syms q).permits ≠ (chain.verdict syms q').permits := by
  have alike {permitted : Bool}
      (same : ∀ q, p.At idx q → (chain.verdict syms q).permits = permitted) :
      ¬ ∃ q q', p.At idx q ∧ p.At idx q' ∧
        (chain.verdict syms q).permits ≠ (chain.verdict syms q').permits := by
    rintro ⟨q, q', atQ, atQ', differ⟩
    exact differ ((same q atQ).trans (same q' atQ').symm)
  rcases modelVerdict_cases (B := B) layout distinct protoFits known with
    ⟨given, mixed⟩ | ⟨permitted, same, ⟨label, given, decided⟩ | ⟨given, many⟩⟩
  · exact iff_of_true given mixed
  · rw [given]
    exact iff_of_false nofun (alike same)
  · rw [given]
    exact iff_of_false nofun (alike same)

theorem modelVerdict_deciders_iff (n : Nat) :
    modelVerdict layout syms (analyse layout syms chain : ChainModel B) p =
        .error (.deciders p n) ↔
      (∃ permitted, ∀ q, p.At idx q → (chain.verdict syms q).permits = permitted) ∧
        n = {l | ∃ q, p.At idx q ∧ chain.decider syms q = l}.ncard ∧ n ≠ 1 := by
  obtain ⟨first, atFirst⟩ := p.exists_at protoFits
    (Nat.lt_of_le_of_lt (SymbolTable.indexOf_le known) (by decide) : idx < 2 ^ 8)
  rcases modelVerdict_cases (B := B) layout distinct protoFits known with
    ⟨given, q, q', atQ, atQ', differ⟩ | ⟨permitted, same, ⟨label, given, decided⟩ | ⟨given, many⟩⟩
  · rw [given]
    refine iff_of_false nofun ?_
    rintro ⟨⟨permitted, all⟩, _⟩
    exact differ ((all q atQ).trans (all q' atQ').symm)
  · rw [given]
    refine iff_of_false nofun ?_
    rintro ⟨_, count, notOne⟩
    have one : {l | ∃ q, p.At idx q ∧ chain.decider syms q = l} = {label} := by
      ext l
      constructor
      · rintro ⟨q, atQ, rfl⟩
        exact decided q atQ
      · rintro rfl
        exact ⟨first, atFirst, decided first atFirst⟩
    rw [one, Set.ncard_singleton] at count
    exact notOne count
  · rw [given]
    constructor
    · intro equal
      obtain rfl := (ModelError.deciders.inj (Except.error.inj equal)).2
      exact ⟨⟨permitted, same⟩, rfl, many⟩
    · rintro ⟨_, rfl, _⟩
      rfl

/-- The model's verdict is that of all packets of the probe.  Without one, two packets
of it are treated differently, and the error says how. -/
theorem modelVerdict_exact :
    (∀ v, modelVerdict layout syms (analyse layout syms chain : ChainModel B) p = .ok v ↔
      ∀ q, p.At idx q → verdictAt chain syms q = v) ∧
    (modelVerdict layout syms (analyse layout syms chain : ChainModel B) p =
      .error (.ambiguous p) ↔ ∃ q q', p.At idx q ∧ p.At idx q' ∧
        (chain.verdict syms q).permits ≠ (chain.verdict syms q').permits) ∧
    ∀ n, modelVerdict layout syms (analyse layout syms chain : ChainModel B) p =
        .error (.deciders p n) ↔
      (∃ permitted, ∀ q, p.At idx q → (chain.verdict syms q).permits = permitted) ∧
        n = {l | ∃ q, p.At idx q ∧ chain.decider syms q = l}.ncard ∧ n ≠ 1 :=
  ⟨modelVerdict_ok_iff_at layout distinct protoFits known,
    modelVerdict_ambiguous_iff layout distinct protoFits known,
    modelVerdict_deciders_iff layout distinct protoFits known⟩

end Exact

/-- A rule on a port without a protocol leaves the model without a verdict on a ping. -/
theorem unpinned_port_is_ambiguous : letI : ContentHasher := ⟨fun _ _ => 0⟩
    let syms : SymbolTable := ⟨["lo"], List.pairwise_singleton _ _, by decide⟩
    let chain := (Chain.new "input" .input .drop).push
      (Match.any.withValue .dstPort Field.dstPort_packet 22 (by decide)) .accept
      ⟨"f", 1, 1, "dport 22 accept"⟩
    let ping : ProbePacket := ⟨.loopback, 0x0A010001, 0x0A050001, none, ICMP⟩
    modelVerdict ⟨.addrInterleaved⟩ syms
      (analyse ⟨.addrInterleaved⟩ syms chain : ChainModel (Diagram HEADER_BITS)) ping =
        .error (.ambiguous ping) := by
  let _ : ContentHasher := ⟨fun _ _ => 0⟩
  intro syms chain ping
  have distinct : (chain.rules.map Rule.number).Nodup := List.nodup_singleton _
  have known : syms.indexOf ping.path.arrivalInterface = some 0 := by decide
  have at_ (dport : BitVec 16) : ping.At 0 ⟨0x0A010001, 0x0A050001, 0, dport, 1, 0, 0⟩ :=
    ⟨⟨rfl, rfl, rfl, nofun⟩, rfl⟩
  exact (modelVerdict_exact ⟨.addrInterleaved⟩ distinct (show ping.proto < 2 ^ 8 by decide)
    known).2.1.mpr ⟨_, _, at_ 22, at_ 23, by decide⟩

end Fwdelta.Kerneldiff
