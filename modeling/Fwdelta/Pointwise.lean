import Mathlib.Data.List.Forall2
import Mathlib.Data.Option.Basic

/-
Lists related item by item.

A search that tests related items alike has related results, and what holds of
the items of one list carries over to the other.
-/

namespace List.Forall₂

variable {α β γ : Type*} {R : α → β → Prop} {left : List α} {right : List β}

theorem exists_of_forall {items : List α} (each : ∀ item ∈ items, ∃ b, R item b) :
    ∃ bs, List.Forall₂ R items bs := by
  induction items with
  | nil => exact ⟨[], .nil⟩
  | cons item later ih =>
      obtain ⟨b, related⟩ := each item (by simp)
      obtain ⟨bs, others⟩ := ih (fun other member => each other (by simp [member]))
      exact ⟨b :: bs, .cons related others⟩

theorem of_length (all : ∀ a b, R a b) {as : List α} {bs : List β}
    (same : as.length = bs.length) : List.Forall₂ R as bs := by
  induction as generalizing bs with
  | nil =>
      rw [List.length_nil, eq_comm, List.length_eq_zero_iff] at same
      rw [same]
      exact List.Forall₂.nil
  | cons a rest ih =>
      cases bs with
      | nil => contradiction
      | cons b others =>
          simp only [List.length_cons, Nat.add_right_cancel_iff] at same
          exact List.Forall₂.cons (all a b) (ih same)

/-- Lists related to one list are related, where their items are. -/
theorem meet {S : α → γ → Prop} {T : β → γ → Prop} {other : List γ}
    (first : List.Forall₂ R left right) (second : List.Forall₂ S left other)
    (both : ∀ a b c, R a b → S a c → T b c) : List.Forall₂ T right other := by
  induction first generalizing other with
  | nil =>
      cases second
      exact .nil
  | cons here _ ih =>
      cases second with
      | cons there later => exact .cons (both _ _ _ here there) (ih later)

/-! ### Searches -/

theorem map_eq {f : α → γ} {g : β → γ} (related : List.Forall₂ R left right)
    (same : ∀ a b, R a b → f a = g b) : left.map f = right.map g := by
  induction related with
  | nil => rfl
  | cons first _ ih => rw [List.map_cons, List.map_cons, same _ _ first, ih]

theorem filter_map_eq {p : α → Bool} {q : β → Bool} {f : α → γ} {g : β → γ}
    (related : List.Forall₂ R left right)
    (same : ∀ a b, b ∈ right → R a b → p a = q b ∧ f a = g b) :
    (left.filter p).map f = (right.filter q).map g := by
  induction related with
  | nil => rfl
  | @cons a b _ _ first _ ih =>
      obtain ⟨kept, mapped⟩ := same a b (by simp) first
      have rest := ih (fun a b member => same a b (by simp [member]))
      rw [List.filter_cons, List.filter_cons, kept]
      cases q b with
      | true => simp only [if_true, List.map_cons, mapped, rest]
      | false => simpa using rest

theorem find?_rel {p : α → Bool} {q : β → Bool} (related : List.Forall₂ R left right)
    (same : ∀ a b, R a b → p a = q b) : Option.Rel R (left.find? p) (right.find? q) := by
  induction related with
  | nil => exact .none
  | @cons a b _ _ first _ ih =>
      rw [List.find?_cons, List.find?_cons, same a b first]
      cases q b with
      | true => exact .some first
      | false => exact ih

theorem findIdx?_eq {p : α → Bool} {q : β → Bool} (related : List.Forall₂ R left right)
    (same : ∀ a b, R a b → p a = q b) : left.findIdx? p = right.findIdx? q := by
  induction related with
  | nil => rfl
  | @cons a b _ _ first _ ih => rw [List.findIdx?_cons, List.findIdx?_cons, same a b first, ih]

theorem getElem?_rel (related : List.Forall₂ R left right) (i : Nat) :
    Option.Rel R left[i]? right[i]? := by
  induction related generalizing i with
  | nil => exact .none
  | cons first _ ih =>
      cases i with
      | zero => exact .some first
      | succ i => exact ih i

theorem getElem?_left (related : List.Forall₂ R left right) {i : Nat} {b : β}
    (at_ : right[i]? = some b) : ∃ a, left[i]? = some a ∧ R a b := by
  have here := related.getElem?_rel i
  rw [at_] at here
  cases found : left[i]? with
  | none =>
      rw [found] at here
      contradiction
  | some a =>
      rw [found] at here
      cases here with
      | some related => exact ⟨a, rfl, related⟩

/-- The items listed by their positions. -/
theorem getElem?_of_listed {items : List β} {positions : List Nat} {others : List β}
    (listed : List.Forall₂ (fun i b => items[i]? = some b) positions others) (j : Nat) :
    others[j]? = positions[j]?.bind (fun i => items[i]?) := by
  have here := listed.getElem?_rel j
  generalize others[j]? = other at here
  cases at_ : positions[j]? with
  | none =>
      rw [at_] at here
      cases here
      rfl
  | some i =>
      rw [at_] at here
      cases here with
      | some found => rw [Option.bind_some, found]

/-! ### Items -/

theorem exists_left (related : List.Forall₂ R left right) {b : β} (member : b ∈ right) :
    ∃ a ∈ left, R a b := by
  obtain ⟨i, at_⟩ := List.mem_iff_getElem?.mp member
  obtain ⟨a, found, here⟩ := related.getElem?_left at_
  exact ⟨a, List.mem_of_getElem? found, here⟩

theorem exists_right (related : List.Forall₂ R left right) {a : α} (member : a ∈ left) :
    ∃ b ∈ right, R a b :=
  related.flip.exists_left member

theorem forall_iff {P : α → Prop} {Q : β → Prop} (related : List.Forall₂ R left right)
    (same : ∀ a b, R a b → (P a ↔ Q b)) : (∀ a ∈ left, P a) ↔ ∀ b ∈ right, Q b := by
  induction related with
  | nil => simp
  | cons here _ ih => simp only [List.mem_cons, forall_eq_or_imp, same _ _ here, ih]

theorem exists_iff {P : α → Prop} {Q : β → Prop} (related : List.Forall₂ R left right)
    (same : ∀ a b, R a b → (P a ↔ Q b)) : (∃ a ∈ left, P a) ↔ ∃ b ∈ right, Q b := by
  induction related with
  | nil => simp
  | cons here _ ih => simp only [List.mem_cons, exists_eq_or_imp, same _ _ here, ih]

end List.Forall₂
