import Mathlib.Tactic.Common

/-
The match dimensions of the packet header space.

Seven dimensions, 120 bits.  Five are packet header fields; two are interface
identity, which is symbolic.  The texts a field is displayed under are left to
the modules that print.
-/

namespace Fwdelta

inductive Field
  | srcAddr
  | dstAddr
  | srcPort
  | dstPort
  | proto
  | ifIn
  | ifOut
  deriving DecidableEq, Repr

namespace Field

def all : List Field :=
  [.srcAddr, .dstAddr, .srcPort, .dstPort, .proto, .ifIn, .ifOut]

/-- Field width in bits.  The seven sum to `HEADER_BITS`. -/
def bits : Field → Nat
  | .srcAddr | .dstAddr => 32
  | .srcPort | .dstPort => 16
  | .proto | .ifIn | .ifOut => 8

def index : Field → Nat
  | .srcAddr => 0
  | .dstAddr => 1
  | .srcPort => 2
  | .dstPort => 3
  | .proto => 4
  | .ifIn => 5
  | .ifOut => 6

def isInterface : Field → Bool
  | .ifIn | .ifOut => true
  | _ => false

theorem srcAddr_packet : srcAddr.isInterface = false := rfl

theorem dstAddr_packet : dstAddr.isInterface = false := rfl

theorem srcPort_packet : srcPort.isInterface = false := rfl

theorem dstPort_packet : dstPort.isInterface = false := rfl

theorem proto_packet : proto.isInterface = false := rfl

theorem mem_all (field : Field) : field ∈ all := by
  cases field <;> decide

theorem all_nodup : all.Nodup := by
  decide

theorem index_getElem_all : ∀ i : Fin all.length, all[i].index = i := by
  decide

theorem all_getElem?_index (field : Field) : all[field.index]? = some field := by
  cases field <;> rfl

theorem pairwise_all_iff {R : Field → Field → Prop} :
    all.Pairwise R ↔ ∀ first later : Field, first.index < later.index → R first later := by
  rw [List.pairwise_iff_getElem]
  constructor
  · intro ordered first later before
    obtain ⟨i, firstAt⟩ := List.getElem?_eq_some_iff.mp (all_getElem?_index first)
    obtain ⟨j, laterAt⟩ := List.getElem?_eq_some_iff.mp (all_getElem?_index later)
    have related := ordered _ _ i j before
    rwa [firstAt, laterAt] at related
  · intro all_ i j iBound jBound before
    apply all_
    have here : all[i].index = i := index_getElem_all ⟨i, iBound⟩
    have there : all[j].index = j := index_getElem_all ⟨j, jBound⟩
    rw [here, there]
    exact before

theorem bits_le (field : Field) : field.bits ≤ 32 := by
  cases field <;> decide

end Field

def HEADER_BITS : Nat := 120

end Fwdelta
