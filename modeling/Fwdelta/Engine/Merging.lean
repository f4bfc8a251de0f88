import Fwdelta.Engine.Accounting

/-
What merging comes to.

A round that joins nothing has compared every pair of regions in every dimension,
and a round that joins something leaves fewer of them.  As many rounds as there are
regions are therefore enough to reach a list in which no two can still be joined.
-/

namespace Fwdelta

namespace Region

/-- No two of the regions agree on all dimensions but one. -/
def Settled (regions : List Region) : Prop :=
  regions.Pairwise (fun a b => ∀ field, ∃ other, other ≠ field ∧ a.get other ≠ b.get other)

theorem agreesExcept_eq_false_iff {field : Field} {a b : Region} :
    agreesExcept field a b = false ↔ ∃ other, other ≠ field ∧ a.get other ≠ b.get other := by
  rw [← Bool.not_eq_true, agreesExcept_iff]
  push Not
  exact Iff.rfl

/-- A region that joins none of those pushed before it is pushed last. -/
theorem mergeInto_of_length {field : Field} {r : Region} {out : List Region}
    (grown : (mergeInto field r out).length = out.length + 1) :
    mergeInto field r out = out ++ [r] ∧ ∀ o ∈ out, agreesExcept field o r = false := by
  induction out with
  | nil => exact ⟨rfl, fun o member => absurd member List.not_mem_nil⟩
  | cons o rest ih =>
      unfold mergeInto at grown ⊢
      split at grown
      · simp at grown
      · next differs =>
          rw [List.length_cons, List.length_cons, Nat.add_right_cancel_iff] at grown
          obtain ⟨pushed, apart⟩ := ih grown
          rw [if_neg differs, pushed]
          exact ⟨rfl, List.forall_mem_cons.mpr ⟨Bool.eq_false_iff.mpr differs, apart⟩⟩

theorem foldl_mergeInto_of_length {field : Field} (regions out : List Region)
    (kept : (regions.foldl (fun out r => mergeInto field r out) out).length =
      out.length + regions.length) :
    regions.foldl (fun out r => mergeInto field r out) out = out ++ regions ∧
      (∀ o ∈ out, ∀ r ∈ regions, agreesExcept field o r = false) ∧
      regions.Pairwise (fun a b => agreesExcept field a b = false) := by
  induction regions generalizing out with
  | nil => simp
  | cons r rest ih =>
      rw [List.foldl_cons] at kept ⊢
      have later := (Merged.foldl_mergeInto field rest (mergeInto field r out)).length
      have first := length_mergeInto_le field r out
      rw [List.length_append] at later
      rw [List.length_cons] at kept
      have grown : (mergeInto field r out).length = out.length + 1 := by omega
      obtain ⟨pushed, apart⟩ := mergeInto_of_length grown
      obtain ⟨folded, across, within⟩ := ih (mergeInto field r out) (by omega)
      rw [pushed] at folded across
      rw [pushed, folded, List.append_assoc, List.singleton_append]
      refine ⟨rfl, ?_, ?_⟩
      · intro o among
        rw [List.forall_mem_cons]
        exact ⟨apart o among, across o (List.mem_append_left _ among)⟩
      · rw [List.pairwise_cons]
        exact ⟨across r (List.mem_append_right _ List.mem_cons_self), within⟩

/-- One dimension: where the number of regions stays, nothing was joined. -/
theorem mergeAlong_of_length {field : Field} {regions : List Region}
    (kept : (mergeAlong regions field).length = regions.length) :
    mergeAlong regions field = regions ∧
      regions.Pairwise (fun a b => agreesExcept field a b = false) := by
  obtain ⟨folded, _, within⟩ := foldl_mergeInto_of_length regions [] (by
    rw [List.length_nil, Nat.zero_add]
    exact kept)
  exact ⟨folded, within⟩

theorem foldl_mergeAlong_of_length (fields : List Field) (regions : List Region)
    (kept : (fields.foldl mergeAlong regions).length = regions.length) :
    fields.foldl mergeAlong regions = regions ∧
      ∀ field ∈ fields, regions.Pairwise (fun a b => agreesExcept field a b = false) := by
  induction fields with
  | nil => simp
  | cons field rest ih =>
      rw [List.foldl_cons] at kept ⊢
      have later := (Merged.foldl_mergeAlong rest (mergeAlong regions field)).length
      have first := (Merged.mergeAlong regions field).length
      obtain ⟨unchanged, within⟩ := mergeAlong_of_length (le_antisymm first (kept ▸ later))
      rw [unchanged] at kept ⊢
      obtain ⟨same, others⟩ := ih kept
      exact ⟨same, List.forall_mem_cons.mpr ⟨within, others⟩⟩

/-- A round that leaves the number of regions unchanged found nothing to join. -/
theorem settled_of_round {regions : List Region}
    (kept : (Field.all.foldl mergeAlong regions).length = regions.length) :
    Settled (Field.all.foldl mergeAlong regions) := by
  obtain ⟨unchanged, within⟩ := foldl_mergeAlong_of_length Field.all regions kept
  rw [unchanged]
  unfold Settled
  rw [List.pairwise_iff_getElem]
  intro i j inI inJ before field
  exact agreesExcept_eq_false_iff.mp
    (List.pairwise_iff_getElem.mp (within field (Field.mem_all field)) i j inI inJ before)

theorem settled_mergePasses (passes : Nat) (regions : List Region)
    (enough : regions.length ≤ passes) : Settled (mergePasses passes regions) := by
  induction passes generalizing regions with
  | zero =>
      rw [List.length_eq_zero_iff.mp (Nat.le_zero.mp enough)]
      exact List.Pairwise.nil
  | succ passes ih =>
      have shorter := (Merged.foldl_mergeAlong Field.all regions).length
      unfold mergePasses
      simp only
      split
      · next kept => exact settled_of_round kept
      · next fewer => exact ih _ (by omega)

/-- Merging covers the same packets with no more regions.  Disjoint regions stay
disjoint and hold as many packets together, and with as many rounds as there are
regions no two of the results can still be joined. -/
theorem merge_exact (regions : List Region) (maxPasses : Nat) :
    (∀ value, Covered (merge regions maxPasses) value ↔ Covered regions value) ∧
      (merge regions maxPasses).length ≤ regions.length ∧
      (Apart regions → Apart (merge regions maxPasses) ∧
        ((merge regions maxPasses).map count).sum = (regions.map count).sum) ∧
      (regions.length ≤ maxPasses → Settled (merge regions maxPasses)) := by
  refine ⟨covered_merge regions maxPasses, length_merge_le regions maxPasses, ?_, ?_⟩
  · intro apart
    have merged := apart_merge maxPasses apart
    refine ⟨merged, ?_⟩
    rw [sum_count_of_apart merged, sum_count_of_apart apart]
    simp only [covered_merge]
  · intro enough
    unfold merge
    apply settled_mergePasses
    calc (dedup (sortRegions (regions.filter (fun r => !r.isEmpty)))).length
        ≤ (sortRegions (regions.filter (fun r => !r.isEmpty))).length :=
          (Merged.dedup_sublist _).length_le
      _ = (regions.filter (fun r => !r.isEmpty)).length :=
          (List.perm_insertionSort _ _).length_eq
      _ ≤ regions.length := List.length_filter_le _ _
      _ ≤ maxPasses := enough

end Region

end Fwdelta
