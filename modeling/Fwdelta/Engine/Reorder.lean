import Fwdelta.Engine.Diff

/-
Reordering the rules of a chain.

Order decides a packet only between rules that both match it and disagree.  A
chain whose rules are moved about without swapping such a pair has the same
accept set, so the delta is empty in both directions.
-/

namespace Fwdelta

open DecisionDiagram
open DecisionDiagram.Library

/-- Two rules that some packet matches and that decide it differently. -/
def Rule.Conflicts (syms : SymbolTable) (a b : Rule) : Prop :=
  (∃ p, a.predicate.Contains syms p ∧ b.predicate.Contains syms p) ∧
    a.action.permits ≠ b.action.permits

/-- A permutation of the rules that keeps the order of conflicting pairs.  The
moved rules take the numbers and origins of their new places. -/
structure Chain.Reordering (syms : SymbolTable) (chain moved : Chain) where
  policy : moved.policy = chain.policy
  place : Fin chain.rules.length ≃ Fin moved.rules.length
  predicate : ∀ i, (moved.rules.get (place i)).predicate = (chain.rules.get i).predicate
  action : ∀ i, (moved.rules.get (place i)).action = (chain.rules.get i).action
  kept : ∀ i j, i < j → (chain.rules.get i).Conflicts syms (chain.rules.get j) →
    place i < place j

namespace Chain

theorem length_rulings (chain : Chain) (syms : SymbolTable) :
    (chain.rulings syms).length = chain.rules.length :=
  List.length_map _

theorem rulings_get (chain : Chain) (syms : SymbolTable)
    (i : Fin (chain.rulings syms).length) :
    (chain.rulings syms).get i =
      { holds := fun p =>
          (chain.rules.get (i.cast (chain.length_rulings syms))).predicate.holdsAt syms p.value
        permits := (chain.rules.get (i.cast (chain.length_rulings syms))).action.permits } := by
  rw [List.get_eq_getElem]
  unfold rulings
  rw [List.getElem_map]
  rfl

theorem Reordering.verdict_permits {syms : SymbolTable} {chain moved : Chain}
    (reordering : chain.Reordering syms moved) (p : Packet) :
    (moved.verdict syms p).permits = (chain.verdict syms p).permits := by
  rw [Chain.verdict_permits, Chain.verdict_permits, reordering.policy]
  have here := chain.length_rulings syms
  have there := moved.length_rulings syms
  apply FirstMatch.verdict_eq_of_reordered _
    ((finCongr here).trans (reordering.place.trans (finCongr there.symm)))
  · intro i
    rw [rulings_get, rulings_get]
    have predicate := reordering.predicate (i.cast here)
    have action := reordering.action (i.cast here)
    simp only [Equiv.trans_apply, finCongr_apply, Fin.cast_cast, Fin.cast_eq_self]
    rw [predicate, action]
  · intro i j before overlap disagree
    rw [rulings_get, rulings_get] at disagree
    simp only [rulings_get, Match.holdsAt_iff] at overlap
    exact reordering.kept (i.cast here) (j.cast here) before ⟨overlap, disagree⟩

end Chain

section Exact

variable {B : Type} [Library HEADER_BITS B] [ContentHasher]

/-- Rule order only matters between conflicting rules that overlap. -/
theorem reordering_is_not_a_change (layout : Layout) (syms : SymbolTable) {chain moved : Chain}
    (reordering : chain.Reordering syms moved) :
    (analyse layout syms moved : ChainModel B).accept =
        (analyse layout syms chain : ChainModel B).accept ∧
      (diff (analyse layout syms chain : ChainModel B)
        (analyse layout syms moved)).isBehaviourallyIdentical = true ∧
      (diff (analyse layout syms moved : ChainModel B)
        (analyse layout syms chain)).isBehaviourallyIdentical = true := by
  have same : (analyse layout syms moved : ChainModel B).accept =
      (analyse layout syms chain : ChainModel B).accept := by
    apply layout.ext_mem
    intro p
    rw [mem_accept, mem_accept, reordering.verdict_permits]
  have nothing (set : B) : isFalse (andNot set set) = true := by
    rw [layout.isFalse_iff_mem]
    intro p
    rw [layout.mem_andNot, Bool.and_not_self]
  refine ⟨same, ?_, ?_⟩
  · simp [diff, ChainDiff.isBehaviourallyIdentical, same, nothing]
  · simp [diff, ChainDiff.isBehaviourallyIdentical, same, nothing]

end Exact

/-! ### Two rules that do not overlap -/

theorem ssh_port_le : 22 ≤ domainMax 16 := by
  decide

theorem https_port_le : 443 ≤ domainMax 16 := by
  decide

def ssh : Match :=
  { Match.any with dstPort := IntervalSet.point 16 22 ssh_port_le }

def https : Match :=
  { Match.any with dstPort := IntervalSet.point 16 443 https_port_le }

def sshFirst : Chain :=
  ((Chain.new "input" .input .drop).push ssh .accept ⟨"a.nft", 1, 1, "tcp dport 22 accept"⟩).push
    https .drop ⟨"a.nft", 2, 1, "tcp dport 443 drop"⟩

def httpsFirst : Chain :=
  ((Chain.new "input" .input .drop).push https .drop ⟨"b.nft", 1, 1, "tcp dport 443 drop"⟩).push
    ssh .accept ⟨"b.nft", 2, 1, "tcp dport 22 accept"⟩

theorem not_contains_ssh_and_https (syms : SymbolTable) (p : Packet) :
    ¬ (ssh.Contains syms p ∧ https.Contains syms p) := by
  intro both
  obtain ⟨⟨_, _, _, sshPort, _⟩, ⟨_, _, _, httpsPort, _⟩⟩ := both
  unfold ssh at sshPort
  unfold https at httpsPort
  rw [IntervalSet.contains_point] at sshPort httpsPort
  omega

def swapPlaces : Fin sshFirst.rules.length ≃ Fin httpsFirst.rules.length :=
  show Fin 2 ≃ Fin 2 from Equiv.swap 0 1

theorem swapPlaces_predicate : ∀ i, (httpsFirst.rules.get (swapPlaces i)).predicate =
    (sshFirst.rules.get i).predicate :=
  Fin.forall_fin_two.mpr ⟨rfl, rfl⟩

theorem swapPlaces_action : ∀ i, (httpsFirst.rules.get (swapPlaces i)).action =
    (sshFirst.rules.get i).action :=
  Fin.forall_fin_two.mpr ⟨rfl, rfl⟩

/-- Neither order of the two rules is a conflict, so no order has to be kept. -/
theorem not_conflicts_sshFirst (syms : SymbolTable) : ∀ i j, i < j →
    ¬ (sshFirst.rules.get i).Conflicts syms (sshFirst.rules.get j) := by
  have apart : ¬ (sshFirst.rules.get (0 : Fin 2)).Conflicts syms
      (sshFirst.rules.get (1 : Fin 2)) := by
    intro conflicts
    obtain ⟨⟨p, both⟩, _⟩ := conflicts
    exact not_contains_ssh_and_https syms p both
  have zero (j : Fin 2) (after : 0 < j) : j = 1 := by omega
  have last (j : Fin 2) : ¬ 1 < j := by omega
  refine Fin.forall_fin_two.mpr ⟨fun j after => ?_, fun j after => ?_⟩
  · rw [zero j after]
    exact apart
  · exact absurd after (last j)

def swapped (syms : SymbolTable) : sshFirst.Reordering syms httpsFirst where
  policy := rfl
  place := swapPlaces
  predicate := swapPlaces_predicate
  action := swapPlaces_action
  kept := fun i j before conflicts =>
    absurd conflicts (not_conflicts_sshFirst syms i j before)

/-- Accepting SSH and dropping HTTPS may be listed in either order. -/
theorem swapping_ssh_and_https_is_not_a_change :
    letI : ContentHasher := ⟨fun _ _ => 0⟩
    (analyse ⟨.fieldMajor⟩ .empty httpsFirst : ChainModel (Diagram HEADER_BITS)).accept =
        (analyse ⟨.fieldMajor⟩ .empty sshFirst : ChainModel (Diagram HEADER_BITS)).accept ∧
      (diff (analyse ⟨.fieldMajor⟩ .empty sshFirst : ChainModel (Diagram HEADER_BITS))
        (analyse ⟨.fieldMajor⟩ .empty httpsFirst)).isBehaviourallyIdentical = true ∧
      (diff (analyse ⟨.fieldMajor⟩ .empty httpsFirst : ChainModel (Diagram HEADER_BITS))
        (analyse ⟨.fieldMajor⟩ .empty sshFirst)).isBehaviourallyIdentical = true :=
  letI : ContentHasher := ⟨fun _ _ => 0⟩
  reordering_is_not_a_change ⟨.fieldMajor⟩ .empty (swapped .empty)

end Fwdelta
