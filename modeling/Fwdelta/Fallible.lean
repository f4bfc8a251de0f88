import Mathlib.Data.List.Forall2

/-
Computations that succeed or fail.

When a sequence of computations succeeds, and with which results: the rules for
`bind`, and for running a list of computations from left to right.
-/

namespace Fallible

variable {ε α β : Type}

theorem bind_eq_ok_iff {x : Except ε α} {f : α → Except ε β} {b : β} :
    (x >>= f) = .ok b ↔ ∃ a, x = .ok a ∧ f a = .ok b := by
  cases x with
  | error e =>
      constructor
      · intro failed
        contradiction
      · intro succeeded
        rcases succeeded with ⟨_, failed, _⟩
        contradiction
  | ok a =>
      constructor
      · exact fun succeeded => ⟨a, rfl, succeeded⟩
      · intro given
        rcases given with ⟨_, same, succeeded⟩
        rw [Except.ok.inj same]
        exact succeeded

theorem mapError_eq_ok_iff {ε' : Type} {x : Except ε α} {f : ε → ε'} {a : α} :
    x.mapError f = .ok a ↔ x = .ok a := by
  cases x with
  | error e =>
      constructor
      · intro failed
        contradiction
      · intro failed
        contradiction
  | ok found => exact ⟨fun same => congrArg _ (Except.ok.inj same), fun same =>
      congrArg _ (Except.ok.inj same)⟩

theorem forM_eq_ok_iff {f : α → Except ε Unit} {items : List α} :
    items.forM f = .ok () ↔ ∀ item ∈ items, f item = .ok () := by
  induction items with
  | nil => exact iff_of_true rfl (by simp)
  | cons item rest ih =>
      have unfolded : (item :: rest).forM f = (f item >>= fun _ => rest.forM f) := rfl
      rw [unfolded, bind_eq_ok_iff, List.forall_mem_cons, ih]
      constructor
      · intro given
        rcases given with ⟨_, first, later⟩
        exact ⟨first, later⟩
      · intro both
        rcases both with ⟨first, later⟩
        exact ⟨(), first, later⟩

theorem mapM_eq_ok_iff {f : α → Except ε β} {items : List α} {results : List β} :
    items.mapM f = .ok results ↔
      List.Forall₂ (fun item result => f item = .ok result) items results := by
  induction items generalizing results with
  | nil =>
      rw [List.mapM_nil]
      constructor
      · intro succeeded
        obtain rfl : [] = results := Except.ok.inj succeeded
        exact .nil
      · rintro ⟨⟩
        rfl
  | cons item rest ih =>
      rw [List.mapM_cons, bind_eq_ok_iff]
      constructor
      · intro succeeded
        rcases succeeded with ⟨first, firstOk, later⟩
        obtain ⟨more, moreOk, last⟩ := bind_eq_ok_iff.mp later
        obtain rfl : first :: more = results := Except.ok.inj last
        exact .cons firstOk (ih.mp moreOk)
      · intro either
        rcases either with _ | ⟨firstOk, later⟩
        exact ⟨_, firstOk, bind_eq_ok_iff.mpr ⟨_, ih.mpr later, rfl⟩⟩

theorem exists_mapM {f : α → Except ε β} {items : List α}
    (each : ∀ item ∈ items, ∃ result, f item = .ok result) :
    ∃ results, items.mapM f = .ok results := by
  induction items with
  | nil => exact ⟨[], rfl⟩
  | cons item rest ih =>
      obtain ⟨first, firstOk⟩ := each item List.mem_cons_self
      obtain ⟨more, moreOk⟩ := ih fun other member => each other (List.mem_cons_of_mem _ member)
      exact ⟨first :: more, mapM_eq_ok_iff.mpr (.cons firstOk (mapM_eq_ok_iff.mp moreOk))⟩

/-- The results are those of the items. -/
theorem mem_of_mapM {f : α → Except ε β} {items : List α} {results : List β}
    (ran : items.mapM f = .ok results) (result : β) :
    result ∈ results ↔ ∃ item ∈ items, f item = .ok result := by
  rw [mapM_eq_ok_iff] at ran
  induction ran with
  | nil => simp
  | cons first later ih =>
      rw [List.mem_cons, List.exists_mem_cons_iff, ih, first, Except.ok.injEq, eq_comm]

end Fallible
