import Mathlib.Data.Set.Card
import Mathlib.Data.List.Nodup
import Mathlib.Data.List.Pairwise
import Mathlib.Tactic.Common

/-
Cutting a set into the fibres of a labelling.

A labelling names one thing for every point.  A cut of a set lists its non-empty
fibres, each under its label.  Cuts restrict to smaller sets and multiply:
cutting every fibre of one labelling by a second one cuts by the pair of both.
A split forgets the labels: it is a list of disjoint non-empty parts.
-/

namespace Fibres

variable {α L M S : Type*}

/-- The cells are the non-empty fibres of `label` in `set`, one for each label. -/
structure Cut (mem : S → α → Prop) (label : α → L) (set : S) (cells : List (L × S)) :
    Prop where
  exact : ∀ cell ∈ cells, ∀ x, mem cell.2 x ↔ mem set x ∧ label x = cell.1
  inhabited : ∀ cell ∈ cells, ∃ x, mem cell.2 x
  distinct : (cells.map Prod.fst).Nodup
  covers : ∀ x, mem set x → ∃ cell ∈ cells, label x = cell.1

namespace Cut

variable {mem : S → α → Prop} {label : α → L} {set : S} {cells : List (L × S)}

theorem eq_nil_of_empty (cut : Cut mem label set cells) (empty : ∀ x, ¬ mem set x) :
    cells = [] := by
  cases cells with
  | nil => rfl
  | cons cell rest =>
      obtain ⟨x, inCell⟩ := cut.inhabited cell (by simp)
      exact absurd ((cut.exact cell (by simp) x).mp inCell).1 (empty x)

theorem disjoint (cut : Cut mem label set cells) :
    cells.Pairwise (fun a b => ∀ x, ¬ (mem a.2 x ∧ mem b.2 x)) := by
  have distinct : cells.Pairwise (fun a b => a.1 ≠ b.1) :=
    List.pairwise_map.mp cut.distinct
  apply distinct.imp_of_mem
  intro a b aMember bMember different x both
  have inA := (cut.exact a aMember x).mp both.1
  have inB := (cut.exact b bMember x).mp both.2
  exact different (inA.2.symm.trans inB.2)

theorem mem_labels (cut : Cut mem label set cells) (l : L) :
    l ∈ cells.map Prod.fst ↔ ∃ x, mem set x ∧ label x = l := by
  rw [List.mem_map]
  constructor
  · intro listed
    obtain ⟨cell, member, rfl⟩ := listed
    obtain ⟨x, inCell⟩ := cut.inhabited cell member
    exact ⟨x, (cut.exact cell member x).mp inCell⟩
  · intro found
    obtain ⟨x, inSet, rfl⟩ := found
    obtain ⟨cell, member, labelled⟩ := cut.covers x inSet
    exact ⟨cell, member, labelled.symm⟩

/-- A cut has a cell for each label. -/
theorem length_eq_ncard (cut : Cut mem label set cells) :
    cells.length = {l | ∃ x, mem set x ∧ label x = l}.ncard := by
  classical
  have labels : {l | ∃ x, mem set x ∧ label x = l} = ((cells.map Prod.fst).toFinset : Set L) := by
    ext l
    rw [Set.mem_ofPred_eq, List.coe_toFinset, Set.mem_ofPred_eq, cut.mem_labels]
  rw [labels, Set.ncard_coe_finset, List.toFinset_card_of_nodup cut.distinct, List.length_map]

/-- A cut has one cell exactly when its label is that of every point of the set, and
there is one. -/
theorem eq_singleton_iff (cut : Cut mem label set cells) (l : L) :
    (∃ part, cells = [(l, part)]) ↔ (∃ x, mem set x) ∧ ∀ x, mem set x → label x = l := by
  constructor
  · intro single
    obtain ⟨part, rfl⟩ := single
    have exact_ := cut.exact (l, part) List.mem_cons_self
    constructor
    · obtain ⟨x, inPart⟩ := cut.inhabited (l, part) List.mem_cons_self
      exact ⟨x, ((exact_ x).mp inPart).1⟩
    · intro x inSet
      obtain ⟨cell, member, labelled⟩ := cut.covers x inSet
      rw [labelled, List.mem_singleton.mp member]
  · intro constant
    obtain ⟨⟨x, inSet⟩, all⟩ := constant
    -- Every cell has a point, so every label is the one of the set.
    have labels : ∀ cell ∈ cells, cell.1 = l := by
      intro cell member
      obtain ⟨y, inCell⟩ := cut.inhabited cell member
      have inFibre := (cut.exact cell member y).mp inCell
      rw [← inFibre.2, all y inFibre.1]
    obtain ⟨first, member, _⟩ := cut.covers x inSet
    have distinct := cut.distinct
    match cells, labels, member, distinct with
    | [only], labels, _, _ =>
        exact ⟨only.2, by rw [← labels only List.mem_cons_self]⟩
    | a :: b :: rest, labels, _, distinct =>
        have same : a.1 = b.1 := (labels a (by simp)).trans (labels b (by simp)).symm
        simp [same] at distinct

/-- The first `n` cells cover the set exactly when there are no more than `n`. -/
theorem take_covers_iff (cut : Cut mem label set cells) (n : Nat) :
    (∀ x, (∃ cell ∈ cells.take n, mem cell.2 x) ↔ mem set x) ↔ cells.length ≤ n := by
  constructor
  · intro covered
    by_contra short
    -- A point of the first cell left out lies in no cell kept.
    have within : n < cells.length := by omega
    have leftOut : cells[n] ∈ cells := List.getElem_mem within
    obtain ⟨x, inLeftOut⟩ := cut.inhabited _ leftOut
    have inSet := ((cut.exact _ leftOut x).mp inLeftOut).1
    obtain ⟨kept, member, inKept⟩ := (covered x).mpr inSet
    obtain ⟨i, bound, rfl⟩ := List.getElem_of_mem member
    rw [List.length_take] at bound
    rw [List.getElem_take] at inKept
    have apart := List.pairwise_iff_getElem.mp cut.disjoint i n (by omega) within (by omega)
    exact apart x ⟨inKept, inLeftOut⟩
  · intro enough x
    rw [List.take_of_length_le enough]
    constructor
    · intro listed
      rcases listed with ⟨cell, member, inCell⟩
      exact ((cut.exact cell member x).mp inCell).1
    · intro inSet
      obtain ⟨cell, member, labelled⟩ := cut.covers x inSet
      exact ⟨cell, member, (cut.exact cell member x).mpr ⟨inSet, labelled⟩⟩

theorem labels_filterMap_sublist (part : S → Option S) (whole : List (L × S)) :
    List.Sublist
      ((whole.filterMap (fun cell => (part cell.2).map (fun kept => (cell.1, kept)))).map Prod.fst)
      (whole.map Prod.fst) := by
  induction whole with
  | nil => exact List.Sublist.slnil
  | cons cell rest ih =>
      rw [List.filterMap_cons, List.map_cons]
      cases part cell.2 with
      | none => exact ih.cons cell.1
      | some kept => exact ih.cons_cons cell.1

/-- Restricting labelled cells of the whole space, and leaving out the empty
ones, cuts the set. -/
theorem of_restrict {whole : List (L × S)} {restrict : S → S → Option S}
    (restrictSome : ∀ cell part, restrict set cell = some part →
      (∀ x, mem part x ↔ mem set x ∧ mem cell x) ∧ ∃ x, mem part x)
    (restrictNone : ∀ cell, restrict set cell = none → ∀ x, ¬ (mem set x ∧ mem cell x))
    (exact : ∀ cell ∈ whole, ∀ x, mem cell.2 x ↔ label x = cell.1)
    (distinct : (whole.map Prod.fst).Nodup)
    (covers : ∀ x, ∃ cell ∈ whole, label x = cell.1) :
    Cut mem label set
      (whole.filterMap (fun cell => (restrict set cell.2).map (fun part => (cell.1, part)))) where
  exact := by
    intro cell member x
    obtain ⟨source, sourceMember, restricted⟩ := List.mem_filterMap.mp member
    obtain ⟨part, found, rfl⟩ := Option.map_eq_some_iff.mp restricted
    rw [(restrictSome source.2 part found).1 x, exact source sourceMember x]
  inhabited := by
    intro cell member
    obtain ⟨source, _, restricted⟩ := List.mem_filterMap.mp member
    obtain ⟨part, found, rfl⟩ := Option.map_eq_some_iff.mp restricted
    exact (restrictSome source.2 part found).2
  distinct := by
    exact (labels_filterMap_sublist (restrict set) whole).nodup distinct
  covers := by
    intro x inSet
    obtain ⟨source, member, labelled⟩ := covers x
    cases found : restrict set source.2 with
    | none =>
        exact absurd ⟨inSet, (exact source member x).mpr labelled⟩
          (restrictNone source.2 found x)
    | some part =>
        refine ⟨(source.1, part), ?_, labelled⟩
        exact List.mem_filterMap.mpr ⟨source, member, by rw [found]; rfl⟩

/-- Cutting every cell by a second labelling cuts by the pair of labels. -/
theorem product {second : α → M} {inner : L × S → List (M × S)}
    (cut : Cut mem label set cells)
    (cutInner : ∀ cell ∈ cells, Cut mem second cell.2 (inner cell)) :
    Cut mem (fun x => (label x, second x)) set
      (cells.flatMap (fun cell => (inner cell).map (fun part => ((cell.1, part.1), part.2)))) where
  exact := by
    intro both member x
    obtain ⟨cell, cellMember, inMap⟩ := List.mem_flatMap.mp member
    obtain ⟨part, partMember, rfl⟩ := List.mem_map.mp inMap
    rw [(cutInner cell cellMember).exact part partMember x, cut.exact cell cellMember x,
      Prod.mk.injEq, and_assoc]
  inhabited := by
    intro both member
    obtain ⟨cell, cellMember, inMap⟩ := List.mem_flatMap.mp member
    obtain ⟨part, partMember, rfl⟩ := List.mem_map.mp inMap
    exact (cutInner cell cellMember).inhabited part partMember
  distinct := by
    rw [List.map_flatMap, List.nodup_flatMap]
    constructor
    · intro cell member
      have inner := (cutInner cell member).distinct
      rw [List.map_map]
      have paired := inner.map (f := fun second => (cell.1, second))
        (fun a b same => (Prod.mk.inj same).2)
      rwa [List.map_map] at paired
    · have distinct : cells.Pairwise (fun a b => a.1 ≠ b.1) :=
        List.pairwise_map.mp cut.distinct
      apply distinct.imp
      intro a b different both inA inB
      simp only [List.map_map, List.mem_map, Function.comp_apply] at inA inB
      obtain ⟨_, _, fromA⟩ := inA
      obtain ⟨_, _, fromB⟩ := inB
      exact different (Prod.mk.inj (fromA.trans fromB.symm)).1
  covers := by
    intro x inSet
    obtain ⟨cell, cellMember, labelled⟩ := cut.covers x inSet
    have inCell := (cut.exact cell cellMember x).mpr ⟨inSet, labelled⟩
    obtain ⟨part, partMember, labelledInner⟩ := (cutInner cell cellMember).covers x inCell
    refine ⟨((cell.1, part.1), part.2), ?_, by rw [labelled, labelledInner]⟩
    exact List.mem_flatMap.mpr ⟨cell, cellMember, List.mem_map.mpr ⟨part, partMember, rfl⟩⟩

end Cut

/-! ### Splits -/

/-- The parts are disjoint and not empty, and together they are the whole. -/
structure Split {T : Type*} (mem : T → α → Prop) (whole : α → Prop) (parts : List T) :
    Prop where
  apart : parts.Pairwise (fun a b => ∀ x, ¬ (mem a x ∧ mem b x))
  inhabited : ∀ part ∈ parts, ∃ x, mem part x
  covers : ∀ x, whole x ↔ ∃ part ∈ parts, mem part x

namespace Split

variable {T : Type*} {mem : S → α → Prop} {whole : α → Prop} {parts : List S}

theorem eq_nil_of_empty (split : Split mem whole parts) (empty : ∀ x, ¬ whole x) :
    parts = [] := by
  rw [List.eq_nil_iff_forall_not_mem]
  intro part member
  obtain ⟨x, inPart⟩ := split.inhabited part member
  exact empty x ((split.covers x).mpr ⟨part, member, inPart⟩)

theorem perm {others : List S} (split : Split mem whole parts) (same : parts.Perm others) :
    Split mem whole others where
  apart := by
    apply (same.pairwise_iff _).mp split.apart
    exact fun clear x both => clear x both.symm
  inhabited := fun part member => split.inhabited part (same.mem_iff.mpr member)
  covers := by
    intro x
    rw [split.covers]
    simp only [same.mem_iff]

/-- Restricting disjoint sets that cover everything, and leaving out the empty
ones, splits the set. -/
theorem of_restrict {set : S} {cells : List S} {restrict : S → S → Option S}
    (restrictSome : ∀ cell part, restrict set cell = some part →
      (∀ x, mem part x ↔ mem set x ∧ mem cell x) ∧ ∃ x, mem part x)
    (restrictNone : ∀ cell, restrict set cell = none → ∀ x, ¬ (mem set x ∧ mem cell x))
    (apart : cells.Pairwise (fun a b => ∀ x, ¬ (mem a x ∧ mem b x)))
    (covers : ∀ x, ∃ cell ∈ cells, mem cell x) :
    Split mem (mem set) (cells.filterMap (restrict set)) where
  apart := by
    rw [List.pairwise_filterMap]
    apply apart.imp
    intro a b clear part fromA other fromB x both
    have inA := ((restrictSome a part fromA).1 x).mp both.1
    have inB := ((restrictSome b other fromB).1 x).mp both.2
    exact clear x ⟨inA.2, inB.2⟩
  inhabited := by
    intro part member
    obtain ⟨cell, _, found⟩ := List.mem_filterMap.mp member
    exact (restrictSome cell part found).2
  covers := by
    intro x
    constructor
    · intro inSet
      obtain ⟨cell, member, inCell⟩ := covers x
      cases found : restrict set cell with
      | none => exact absurd ⟨inSet, inCell⟩ (restrictNone cell found x)
      | some part =>
          exact ⟨part, List.mem_filterMap.mpr ⟨cell, member, found⟩,
            ((restrictSome cell part found).1 x).mpr ⟨inSet, inCell⟩⟩
    · intro listed
      obtain ⟨part, member, inPart⟩ := listed
      obtain ⟨cell, _, found⟩ := List.mem_filterMap.mp member
      exact (((restrictSome cell part found).1 x).mp inPart).1

/-- Splitting every part splits the whole. -/
theorem product {within : T → α → Prop} {inner : S → List T} (split : Split mem whole parts)
    (each : ∀ part ∈ parts, Split within (mem part) (inner part)) :
    Split within whole (parts.flatMap inner) where
  apart := by
    rw [List.pairwise_flatMap]
    refine ⟨fun part member => (each part member).apart, ?_⟩
    apply split.apart.imp_of_mem
    intro a b aMember bMember clear first inA second inB x both
    exact clear x ⟨((each a aMember).covers x).mpr ⟨first, inA, both.1⟩,
      ((each b bMember).covers x).mpr ⟨second, inB, both.2⟩⟩
  inhabited := by
    intro piece member
    obtain ⟨part, partMember, inPart⟩ := List.mem_flatMap.mp member
    exact (each part partMember).inhabited piece inPart
  covers := by
    intro x
    rw [split.covers]
    constructor
    · intro listed
      obtain ⟨part, member, inPart⟩ := listed
      obtain ⟨piece, pieceMember, inPiece⟩ := ((each part member).covers x).mp inPart
      exact ⟨piece, List.mem_flatMap.mpr ⟨part, member, pieceMember⟩, inPiece⟩
    · intro listed
      obtain ⟨piece, member, inPiece⟩ := listed
      obtain ⟨part, partMember, pieceMember⟩ := List.mem_flatMap.mp member
      exact ⟨part, partMember, ((each part partMember).covers x).mpr ⟨piece, pieceMember, inPiece⟩⟩

/-- What the first parts leave is what the last parts hold. -/
theorem rest_iff {shown rest : List S} (split : Split mem whole (shown ++ rest)) (x : α) :
    (whole x ∧ ¬ ∃ part ∈ shown, mem part x) ↔ ∃ part ∈ rest, mem part x := by
  have either : (∃ part ∈ shown ++ rest, mem part x) ↔
      (∃ part ∈ shown, mem part x) ∨ ∃ part ∈ rest, mem part x := by
    simp only [List.mem_append, or_and_right, exists_or]
  rw [split.covers, either]
  constructor
  · exact fun left => left.1.resolve_left left.2
  · intro later
    refine ⟨Or.inr later, ?_⟩
    intro earlier
    obtain ⟨part, member, inPart⟩ := earlier
    obtain ⟨other, otherMember, inOther⟩ := later
    exact (List.pairwise_append.mp split.apart).2.2 part member other otherMember x
      ⟨inPart, inOther⟩

end Split

end Fibres
