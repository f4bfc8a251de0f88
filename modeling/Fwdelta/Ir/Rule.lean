import Fwdelta.Ir.Interface

/-
Rules, chains and rulesets.

A rule is a match predicate over the seven dimensions plus an action, with its
source position.  The five packet dimensions are stored resolved; the two
interface dimensions keep their names until the engine resolves them.
-/

namespace Fwdelta

inductive Action
  | accept
  | drop
  | reject
  deriving DecidableEq, Repr

namespace Action

def permits : Action → Bool
  | .accept => true
  | _ => false

def text : Action → String
  | .accept => "accept"
  | .drop => "drop"
  | .reject => "reject"

theorem permits_iff (action : Action) : action.permits = true ↔ action = .accept := by
  cases action <;> decide

end Action

structure Origin where
  file : String
  line : Nat
  column : Nat
  text : String
  deriving DecidableEq, Repr

structure Match where
  srcAddr : IntervalSet 32
  dstAddr : IntervalSet 32
  srcPort : IntervalSet 16
  dstPort : IntervalSet 16
  proto : IntervalSet 8
  iif : IfMatch
  oif : IfMatch
  deriving DecidableEq

namespace Match

def any : Match where
  srcAddr := IntervalSet.full 32
  dstAddr := IntervalSet.full 32
  srcPort := IntervalSet.full 16
  dstPort := IntervalSet.full 16
  proto := IntervalSet.full 8
  iif := .any
  oif := .any

/-- The value set for one of the five packet dimensions.  The source panics on
the interface dimensions; here the caller shows that the field is not one. -/
def packetDim (m : Match) :
    (field : Field) → field.isInterface = false → IntervalSet field.bits
  | .srcAddr, _ => m.srcAddr
  | .dstAddr, _ => m.dstAddr
  | .srcPort, _ => m.srcPort
  | .dstPort, _ => m.dstPort
  | .proto, _ => m.proto

def constrain (m : Match) :
    (field : Field) → IntervalSet field.bits → field.isInterface = false → Match
  | .srcAddr, set, _ => { m with srcAddr := m.srcAddr.intersect set }
  | .dstAddr, set, _ => { m with dstAddr := m.dstAddr.intersect set }
  | .srcPort, set, _ => { m with srcPort := m.srcPort.intersect set }
  | .dstPort, set, _ => { m with dstPort := m.dstPort.intersect set }
  | .proto, set, _ => { m with proto := m.proto.intersect set }

/-- Remove any constraint on one dimension. -/
def relax (m : Match) : Field → Match
  | .srcAddr => { m with srcAddr := IntervalSet.full 32 }
  | .dstAddr => { m with dstAddr := IntervalSet.full 32 }
  | .srcPort => { m with srcPort := IntervalSet.full 16 }
  | .dstPort => { m with dstPort := IntervalSet.full 16 }
  | .proto => { m with proto := IntervalSet.full 8 }
  | .ifIn => { m with iif := .any }
  | .ifOut => { m with oif := .any }

/-- Convenience for an address prefix. -/
def withPrefix (m : Match) (field : Field) (packet : field.isInterface = false)
    (value len : Nat) (within : value ≤ domainMax field.bits) : Match :=
  m.constrain field
    (IntervalSet.ofPrefix field.bits value len (by cases field <;> decide) within) packet

/-- Convenience for a single value, which the source asserts is in the domain. -/
def withValue (m : Match) (field : Field) (packet : field.isInterface = false) (value : Nat)
    (within : value ≤ domainMax field.bits) : Match :=
  m.constrain field (IntervalSet.point field.bits value within) packet

/-- Convenience for an inclusive range. -/
def withRange (m : Match) (field : Field) (packet : field.isInterface = false)
    (lo hi : Nat) : Match :=
  m.constrain field (IntervalSet.range field.bits lo hi) packet

/-- Sets the input interface match, replacing the one already there. -/
def withIif (m : Match) (ifMatch : IfMatch) : Match :=
  { m with iif := ifMatch }

def withOif (m : Match) (ifMatch : IfMatch) : Match :=
  { m with oif := ifMatch }

def isUnsatisfiable (m : Match) : Bool :=
  Field.all.any (fun field =>
    if packet : field.isInterface = false then (m.packetDim field packet).isEmpty
    else false)

def interfaceNames (m : Match) : List String :=
  sortNames m.iif.names ++ sortNames m.oif.names

theorem isUnsatisfiable_eq_false (m : Match) :
    m.isUnsatisfiable = false ↔
      m.srcAddr.isEmpty = false ∧ m.dstAddr.isEmpty = false ∧
        m.srcPort.isEmpty = false ∧ m.dstPort.isEmpty = false ∧
          m.proto.isEmpty = false := by
  have unfolded : m.isUnsatisfiable =
      (m.srcAddr.isEmpty || (m.dstAddr.isEmpty || (m.srcPort.isEmpty ||
        (m.dstPort.isEmpty || (m.proto.isEmpty || false))))) := rfl
  simp only [unfolded, Bool.or_eq_false_iff, and_true]

end Match

/-- One rule: a predicate (the field `matches` of the source), an action and a
provenance.  Rules are numbered from 1. -/
structure Rule where
  number : Nat
  predicate : Match
  action : Action
  origin : Origin
  deriving DecidableEq

inductive Hook
  | input
  | output
  | forward
  deriving DecidableEq, Repr

structure Chain where
  name : String
  hook : Hook
  policy : Action
  rules : List Rule
  deriving DecidableEq

namespace Chain

def new (name : String) (hook : Hook) (policy : Action) : Chain :=
  { name := name, hook := hook, policy := policy, rules := [] }

/-- Rule numbers are natural numbers: the 32-bit counter of the source would
need 2^32 rules in memory to wrap. -/
def push (chain : Chain) (predicate : Match) (action : Action) (origin : Origin) : Chain :=
  { chain with
    rules := chain.rules ++
      [{ number := chain.rules.length + 1, predicate := predicate,
         action := action, origin := origin }] }

inductive Built : Chain → Prop
  | new (name : String) (hook : Hook) (policy : Action) :
      Built (Chain.new name hook policy)
  | push {chain : Chain} (built : Built chain) (predicate : Match) (action : Action)
      (origin : Origin) : Built (chain.push predicate action origin)

theorem Built.numbers {chain : Chain} (built : Built chain) :
    chain.rules.map Rule.number = List.range' 1 chain.rules.length := by
  induction built with
  | new name hook policy => rfl
  | push built predicate action origin ih =>
      simp only [Chain.push, List.map_append, ih, List.map_cons, List.map_nil,
        List.length_append, List.length_singleton]
      rw [List.range'_concat, Nat.one_mul, Nat.add_comm]

theorem Built.numbers_nodup {chain : Chain} (built : Built chain) :
    (chain.rules.map Rule.number).Nodup := by
  rw [built.numbers]
  exact List.nodup_range'

end Chain

structure Ruleset where
  label : String
  chains : List Chain
  deriving DecidableEq

namespace Ruleset

/-- The first chain of that name. -/
def chain (ruleset : Ruleset) (name : String) : Option Chain :=
  ruleset.chains.find? (fun c => c.name == name)

def interfaceNames (ruleset : Ruleset) : List String :=
  (ruleset.chains.flatMap Chain.rules).flatMap (fun rule => rule.predicate.interfaceNames)

def ruleCount (ruleset : Ruleset) : Nat :=
  (ruleset.chains.map (fun c => c.rules.length)).sum

end Ruleset

end Fwdelta
