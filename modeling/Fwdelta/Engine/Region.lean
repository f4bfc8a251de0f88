import Fwdelta.Engine.Packet
import Mathlib.Data.Prod.Lex
import Mathlib.Order.Lex

/-
Rectangles in the match space.

A region is a product set: one interval set for each dimension.  Regions that
agree on all dimensions but one union cleanly on that one, which is all that
merging does: it changes neither the packets covered nor how often.
-/

namespace Fwdelta

open DecisionDiagram
open DecisionDiagram.Library

structure Region where
  srcAddr : IntervalSet 32
  dstAddr : IntervalSet 32
  srcPort : IntervalSet 16
  dstPort : IntervalSet 16
  proto : IntervalSet 8
  ifIn : IntervalSet 8
  ifOut : IntervalSet 8
  deriving DecidableEq

namespace Region

def full : Region where
  srcAddr := IntervalSet.full 32
  dstAddr := IntervalSet.full 32
  srcPort := IntervalSet.full 16
  dstPort := IntervalSet.full 16
  proto := IntervalSet.full 8
  ifIn := IntervalSet.full 8
  ifOut := IntervalSet.full 8

def get (r : Region) : (field : Field) → IntervalSet field.bits
  | .srcAddr => r.srcAddr
  | .dstAddr => r.dstAddr
  | .srcPort => r.srcPort
  | .dstPort => r.dstPort
  | .proto => r.proto
  | .ifIn => r.ifIn
  | .ifOut => r.ifOut

/-- Replace one dimension (`with` and `dim_mut` in the source). -/
def withDim (r : Region) : (field : Field) → IntervalSet field.bits → Region
  | .srcAddr, set => { r with srcAddr := set }
  | .dstAddr, set => { r with dstAddr := set }
  | .srcPort, set => { r with srcPort := set }
  | .dstPort, set => { r with dstPort := set }
  | .proto, set => { r with proto := set }
  | .ifIn, set => { r with ifIn := set }
  | .ifOut, set => { r with ifOut := set }

def isEmpty (r : Region) : Bool :=
  Field.all.any (fun field => (r.get field).isEmpty)

def count (r : Region) : Nat :=
  if r.isEmpty then 0 else (Field.all.map (fun field => (r.get field).count)).prod

/-- How many dimensions are constrained at all. -/
def constrainedDims (r : Region) : Nat :=
  Field.all.countP (fun field => !(r.get field).isFull)

/-- Dimension by dimension, the ranges that the derived order compares. -/
def key (r : Region) : List (List (Nat ×ₗ Nat)) :=
  Field.all.map (fun field => (r.get field).ranges.map toLex)

def le (a b : Region) : Bool :=
  decide (a.key ≤ b.key)

section Compile

variable {B : Type} [Library HEADER_BITS B]

def toBdd (r : Region) (layout : Layout) : B :=
  Field.all.foldl (fun acc field => and acc (layout.set field (r.get field))) Layout.tt

end Compile

def agreesExcept (field : Field) (a b : Region) : Bool :=
  Field.all.all (fun other => other == field || decide (a.get other = b.get other))

/-- One step of `merge_along`: the region joins the first one pushed that agrees
with it on the other dimensions. -/
def mergeInto (field : Field) (r : Region) : List Region → List Region
  | [] => [r]
  | o :: rest =>
      if agreesExcept field o r then
        o.withDim field ((o.get field).union (r.get field)) :: rest
      else
        o :: mergeInto field r rest

def mergeAlong (regions : List Region) (field : Field) : List Region :=
  regions.foldl (fun out r => mergeInto field r out) []

/-- Merge rounds until one of them leaves the number of regions unchanged. -/
def mergePasses : Nat → List Region → List Region
  | 0, regions => regions
  | passes + 1, regions =>
      let next := Field.all.foldl mergeAlong regions
      if next.length = regions.length then next else mergePasses passes next

/-- `dedup` after sorting: drop what repeats the one before. -/
def dedup : List Region → List Region
  | [] => []
  | [r] => [r]
  | r :: next :: rest => if r = next then dedup (next :: rest) else r :: dedup (next :: rest)

def sortRegions (regions : List Region) : List Region :=
  regions.insertionSort (fun a b => a.le b = true)

/-- Merge rectangles that differ in exactly one dimension. -/
def merge (regions : List Region) (maxPasses : Nat) : List Region :=
  mergePasses maxPasses (dedup (sortRegions (regions.filter (fun r => !r.isEmpty))))

/-! ### What a region holds -/

def Holds (r : Region) (value : Field → Nat) : Prop :=
  ∀ field, (r.get field).contains (value field) = true

def Covered (regions : List Region) (value : Field → Nat) : Prop :=
  ∃ r ∈ regions, r.Holds value

def Apart (regions : List Region) : Prop :=
  regions.Pairwise (fun a b => ∀ value, ¬ (a.Holds value ∧ b.Holds value))

theorem get_withDim (r : Region) (field : Field) (set : IntervalSet field.bits) :
    (r.withDim field set).get field = set := by
  cases field <;> rfl

theorem get_withDim_of_ne (r : Region) {field other : Field} (set : IntervalSet field.bits)
    (differs : other ≠ field) : (r.withDim field set).get other = r.get other := by
  cases field <;> cases other <;> first
    | rfl
    | exact absurd rfl differs

theorem isEmpty_eq_false_iff (r : Region) :
    r.isEmpty = false ↔ ∀ field, (r.get field).isEmpty = false := by
  unfold isEmpty
  rw [List.any_eq_false]
  constructor
  · intro all field
    exact Bool.eq_false_iff.mpr (all field (Field.mem_all field))
  · intro all field _
    exact Bool.eq_false_iff.mp (all field)

/-- A region that no dimension rules out holds some packet. -/
theorem exists_holds {r : Region} (inhabited : r.isEmpty = false) :
    ∃ p : Packet, r.Holds p.value := by
  rw [isEmpty_eq_false_iff] at inhabited
  have member {bits : Nat} (narrow : bits < 64) {set : IntervalSet bits}
      (nonempty : set.isEmpty = false) : ∃ x : BitVec bits, set.contains x.toNat = true := by
    obtain ⟨value, inside⟩ := set.isEmpty_eq_false_iff.mp nonempty
    have within := IntervalSet.contains_le inside
    have positive := Nat.two_pow_pos bits
    rw [domainMax_eq narrow] at within
    refine ⟨BitVec.ofNat bits value, ?_⟩
    rwa [BitVec.toNat_ofNat, Nat.mod_eq_of_lt (by omega)]
  obtain ⟨src, inSrc⟩ := member (by decide) (inhabited .srcAddr)
  obtain ⟨dst, inDst⟩ := member (by decide) (inhabited .dstAddr)
  obtain ⟨sport, inSport⟩ := member (by decide) (inhabited .srcPort)
  obtain ⟨dport, inDport⟩ := member (by decide) (inhabited .dstPort)
  obtain ⟨proto, inProto⟩ := member (by decide) (inhabited .proto)
  obtain ⟨iif, inIif⟩ := member (by decide) (inhabited .ifIn)
  obtain ⟨oif, inOif⟩ := member (by decide) (inhabited .ifOut)
  refine ⟨⟨src, dst, sport, dport, proto, iif, oif⟩, ?_⟩
  intro field
  cases field with
  | srcAddr => exact inSrc
  | dstAddr => exact inDst
  | srcPort => exact inSport
  | dstPort => exact inDport
  | proto => exact inProto
  | ifIn => exact inIif
  | ifOut => exact inOif

theorem isEmpty_eq_false_of_holds {r : Region} {value : Field → Nat} (holds : r.Holds value) :
    r.isEmpty = false := by
  rw [isEmpty_eq_false_iff]
  intro field
  exact (r.get field).isEmpty_eq_false_iff.mpr ⟨_, holds field⟩

/-! ### Merging -/

theorem agreesExcept_iff {field : Field} {a b : Region} :
    agreesExcept field a b = true ↔ ∀ other, other ≠ field → a.get other = b.get other := by
  simp only [agreesExcept, List.all_eq_true, Bool.or_eq_true, beq_iff_eq, decide_eq_true_eq]
  constructor
  · intro agrees other differs
    exact (agrees other (Field.mem_all other)).resolve_left differs
  · intro agrees other _
    exact Decidable.or_iff_not_imp_left.mpr (agrees other)

/-- The union of two regions that agree on the other dimensions. -/
theorem holds_union {field : Field} {a b : Region} (agrees : agreesExcept field a b = true)
    (value : Field → Nat) :
    (a.withDim field ((a.get field).union (b.get field))).Holds value ↔
      a.Holds value ∨ b.Holds value := by
  rw [agreesExcept_iff] at agrees
  constructor
  · intro holds
    have here := holds field
    rw [get_withDim, IntervalSet.contains_union, Bool.or_eq_true] at here
    have others (other : Field) (differs : other ≠ field) :
        (a.get other).contains (value other) = true := by
      have there := holds other
      rwa [get_withDim_of_ne a _ differs] at there
    rcases here with inFirst | inSecond
    · left
      intro other
      by_cases same : other = field
      · rw [same]
        exact inFirst
      · exact others other same
    · right
      intro other
      by_cases same : other = field
      · rw [same]
        exact inSecond
      · rw [← agrees other same]
        exact others other same
  · intro either other
    by_cases same : other = field
    · subst same
      rw [get_withDim, IntervalSet.contains_union, Bool.or_eq_true]
      exact either.imp (fun holds => holds other) (fun holds => holds other)
    · rw [get_withDim_of_ne a _ same]
      rcases either with holds | holds
      · exact holds other
      · rw [agrees other same]
        exact holds other

theorem covered_cons {r : Region} {rest : List Region} {value : Field → Nat} :
    Covered (r :: rest) value ↔ r.Holds value ∨ Covered rest value := by
  simp [Covered]

theorem covered_mergeInto (field : Field) (r : Region) (out : List Region) (value : Field → Nat) :
    Covered (mergeInto field r out) value ↔ r.Holds value ∨ Covered out value := by
  induction out with
  | nil => simp [mergeInto, Covered]
  | cons o rest ih =>
      unfold mergeInto
      split
      · next agrees =>
          rw [covered_cons, covered_cons, holds_union agrees]
          tauto
      · rw [covered_cons, covered_cons, ih]
        tauto

theorem apart_mergeInto {field : Field} {r : Region} {out : List Region}
    (apart : Apart (r :: out)) : Apart (mergeInto field r out) := by
  unfold Apart at apart ⊢
  induction out with
  | nil => exact apart
  | cons o rest ih =>
      rw [List.pairwise_cons] at apart
      obtain ⟨fromNew, inner⟩ := apart
      obtain ⟨fromFirst, later⟩ := List.pairwise_cons.mp inner
      unfold mergeInto
      split
      · next agrees =>
          rw [List.pairwise_cons]
          refine ⟨?_, later⟩
          intro other member value both
          rw [holds_union agrees] at both
          rcases both.1 with first | new
          · exact fromFirst other member value ⟨first, both.2⟩
          · exact fromNew other (List.mem_cons_of_mem _ member) value ⟨new, both.2⟩
      · rw [List.pairwise_cons]
        constructor
        · intro other member value both
          have covered : Covered (mergeInto field r rest) value := ⟨other, member, both.2⟩
          rcases (covered_mergeInto field r rest value).mp covered with new | old
          · exact fromNew o List.mem_cons_self value ⟨new, both.1⟩
          · obtain ⟨holder, among, holds⟩ := old
            exact fromFirst holder among value ⟨both.1, holds⟩
        · apply ih
          rw [List.pairwise_cons]
          exact ⟨fun other member => fromNew other (List.mem_cons_of_mem _ member), later⟩

theorem inhabited_mergeInto {field : Field} {r : Region} {out : List Region}
    (new : r.isEmpty = false) (old : ∀ o ∈ out, o.isEmpty = false) :
    ∀ o ∈ mergeInto field r out, o.isEmpty = false := by
  induction out with
  | nil =>
      intro o member
      rw [List.mem_singleton.mp member]
      exact new
  | cons first rest ih =>
      unfold mergeInto
      split
      · next agrees =>
          rw [List.forall_mem_cons]
          refine ⟨?_, fun o member => old o (List.mem_cons_of_mem _ member)⟩
          obtain ⟨p, holds⟩ := exists_holds new
          exact isEmpty_eq_false_of_holds ((holds_union agrees p.value).mpr (Or.inr holds))
      · rw [List.forall_mem_cons]
        exact ⟨old first List.mem_cons_self,
          ih fun o member => old o (List.mem_cons_of_mem _ member)⟩

theorem length_mergeInto_le (field : Field) (r : Region) (out : List Region) :
    (mergeInto field r out).length ≤ out.length + 1 := by
  induction out with
  | nil => simp [mergeInto]
  | cons o rest ih =>
      unfold mergeInto
      split
      · simp
      · simp only [List.length_cons]
        omega

/-- What merging keeps: the packets covered, disjointness, and that no region is
empty.  There are never more regions than before. -/
structure Merged (before after : List Region) : Prop where
  covered : ∀ value, Covered after value ↔ Covered before value
  apart : Apart before → Apart after
  inhabited : (∀ r ∈ before, r.isEmpty = false) → ∀ r ∈ after, r.isEmpty = false
  length : after.length ≤ before.length

namespace Merged

theorem refl (regions : List Region) : Merged regions regions where
  covered _ := Iff.rfl
  apart := id
  inhabited := id
  length := le_refl _

theorem trans {a b c : List Region} (first : Merged a b) (second : Merged b c) : Merged a c where
  covered value := (second.covered value).trans (first.covered value)
  apart := second.apart ∘ first.apart
  inhabited := second.inhabited ∘ first.inhabited
  length := second.length.trans first.length

theorem foldl_mergeInto (field : Field) (regions out : List Region) :
    Merged (out ++ regions) (regions.foldl (fun out r => mergeInto field r out) out) := by
  induction regions generalizing out with
  | nil =>
      rw [List.append_nil]
      exact refl out
  | cons r rest ih =>
      apply trans _ (ih (mergeInto field r out))
      constructor
      · intro value
        simp only [Covered, List.mem_append, List.mem_cons, or_and_right, exists_or,
          exists_eq_left]
        have step := covered_mergeInto field r out value
        unfold Covered at step
        rw [step, or_assoc, or_left_comm]
      · intro apart
        have moved : Apart (r :: out ++ rest) := by
          apply (List.perm_middle.pairwise_iff _).mp apart
          exact fun clear value both => clear value both.symm
        unfold Apart at moved ⊢
        rw [List.pairwise_append] at moved ⊢
        refine ⟨apart_mergeInto moved.1, moved.2.1, ?_⟩
        intro a member b among value both
        have covered : Covered (mergeInto field r out) value := ⟨a, member, both.1⟩
        rcases (covered_mergeInto field r out value).mp covered with new | old
        · exact moved.2.2 r List.mem_cons_self b among value ⟨new, both.2⟩
        · obtain ⟨holder, held, holds⟩ := old
          exact moved.2.2 holder (List.mem_cons_of_mem _ held) b among value ⟨holds, both.2⟩
      · intro inhabited o member
        have outs : ∀ o ∈ out, o.isEmpty = false :=
          fun o among => inhabited o (List.mem_append_left _ among)
        rcases List.mem_append.mp member with among | later
        · exact inhabited_mergeInto (inhabited r (by simp)) outs o among
        · exact inhabited o (List.mem_append_right _ (List.mem_cons_of_mem _ later))
      · have grown := length_mergeInto_le field r out
        simp only [List.length_append, List.length_cons]
        omega

theorem mergeAlong (regions : List Region) (field : Field) :
    Merged regions (Region.mergeAlong regions field) :=
  foldl_mergeInto field regions []

theorem foldl_mergeAlong (fields : List Field) (regions : List Region) :
    Merged regions (fields.foldl Region.mergeAlong regions) := by
  induction fields generalizing regions with
  | nil => exact refl regions
  | cons field rest ih => exact (mergeAlong regions field).trans (ih _)

theorem mergePasses (passes : Nat) (regions : List Region) :
    Merged regions (Region.mergePasses passes regions) := by
  induction passes generalizing regions with
  | zero => exact refl regions
  | succ passes ih =>
      have round := foldl_mergeAlong Field.all regions
      unfold Region.mergePasses
      simp only
      split
      · exact round
      · exact round.trans (ih _)

theorem of_perm {a b : List Region} (perm : a.Perm b) : Merged a b where
  covered value := by
    unfold Covered
    simp only [perm.mem_iff]
  apart := (perm.pairwise_iff fun clear value both => clear value both.symm).mp
  inhabited all r member := all r (perm.mem_iff.mpr member)
  length := perm.length_eq.ge

theorem dedup_sublist (regions : List Region) : (dedup regions).Sublist regions := by
  fun_induction dedup regions with
  | case1 => exact List.Sublist.refl _
  | case2 => exact List.Sublist.refl _
  | case3 next rest ih => exact ih.cons _
  | case4 r next rest _ ih => exact ih.cons_cons _

theorem mem_dedup (regions : List Region) (x : Region) : x ∈ dedup regions ↔ x ∈ regions := by
  fun_induction dedup regions with
  | case1 => exact Iff.rfl
  | case2 => exact Iff.rfl
  | case3 next rest ih => simp [ih]
  | case4 r next rest _ ih => simp [ih]

theorem dedup (regions : List Region) : Merged regions (Region.dedup regions) where
  covered value := by
    unfold Covered
    simp only [mem_dedup]
  apart apart := apart.sublist (dedup_sublist regions)
  inhabited all r member := all r ((mem_dedup regions r).mp member)
  length := (dedup_sublist regions).length_le

end Merged

/-- Merging keeps exactly the packets covered, and leaves no empty region. -/
theorem merge_merged (regions : List Region) (maxPasses : Nat) :
    Merged (regions.filter (fun r => !r.isEmpty)) (merge regions maxPasses) := by
  have sorted := Merged.of_perm (List.perm_insertionSort (fun a b : Region => a.le b = true)
    (regions.filter (fun r => !r.isEmpty))).symm
  exact (sorted.trans (Merged.dedup _)).trans (Merged.mergePasses maxPasses _)

theorem covered_filter (regions : List Region) (value : Field → Nat) :
    Covered (regions.filter (fun r => !r.isEmpty)) value ↔ Covered regions value := by
  unfold Covered
  constructor
  · intro found
    obtain ⟨r, member, holds⟩ := found
    exact ⟨r, (List.mem_filter.mp member).1, holds⟩
  · intro found
    obtain ⟨r, member, holds⟩ := found
    refine ⟨r, List.mem_filter.mpr ⟨member, ?_⟩, holds⟩
    rw [isEmpty_eq_false_of_holds holds]
    rfl

theorem covered_merge (regions : List Region) (maxPasses : Nat) (value : Field → Nat) :
    Covered (merge regions maxPasses) value ↔ Covered regions value :=
  ((merge_merged regions maxPasses).covered value).trans (covered_filter regions value)

theorem apart_merge {regions : List Region} (maxPasses : Nat) (apart : Apart regions) :
    Apart (merge regions maxPasses) :=
  (merge_merged regions maxPasses).apart (apart.sublist List.filter_sublist)

theorem inhabited_merge (regions : List Region) (maxPasses : Nat) :
    ∀ r ∈ merge regions maxPasses, r.isEmpty = false := by
  apply (merge_merged regions maxPasses).inhabited
  intro r member
  simpa using (List.mem_filter.mp member).2

theorem length_merge_le (regions : List Region) (maxPasses : Nat) :
    (merge regions maxPasses).length ≤ regions.length :=
  (merge_merged regions maxPasses).length.trans (List.length_filter_le _ _)

/-- Merging non-empty regions leaves nothing only where there was nothing. -/
theorem merge_eq_nil_iff {regions : List Region} (maxPasses : Nat)
    (inhabited : ∀ r ∈ regions, r.isEmpty = false) :
    merge regions maxPasses = [] ↔ regions = [] := by
  constructor
  · intro nothing
    rw [List.eq_nil_iff_forall_not_mem]
    intro r member
    obtain ⟨p, holds⟩ := exists_holds (inhabited r member)
    obtain ⟨other, among, _⟩ := (covered_merge regions maxPasses p.value).mpr ⟨r, member, holds⟩
    rw [nothing] at among
    contradiction
  · intro nothing
    have short := length_merge_le regions maxPasses
    rw [nothing] at short ⊢
    exact List.length_eq_zero_iff.mp (Nat.le_zero.mp short)

end Region

end Fwdelta
