import Mathlib.Data.List.Basic
import Mathlib.Tactic.Common

/-
Tags of a document.

A scanner reads a document from left to right.  Outside tags only an opening
angle bracket matters; inside a tag, a closing bracket ends it unless an
attribute value is being quoted.  Two fragments are alike when both leave the
scanner outside tags, having read the same tags.  Being alike is closed under
concatenation, and text without an opening bracket is alike to any other.
-/

namespace Markup

inductive Mode
  | text
  | tag (seen : List Char)
  | quoted (quote : Char) (seen : List Char)
  deriving DecidableEq

structure Scan where
  mode : Mode
  tags : List (List Char)
  deriving DecidableEq

namespace Scan

def start : Scan where
  mode := .text
  tags := []

def step (s : Scan) (c : Char) : Scan :=
  match s.mode with
  | .text => if c = '<' then ⟨.tag [c], s.tags⟩ else s
  | .tag seen =>
      if c = '>' then ⟨.text, s.tags ++ [seen ++ [c]]⟩
      else if c = '"' ∨ c = '\'' then ⟨.quoted c (seen ++ [c]), s.tags⟩
      else ⟨.tag (seen ++ [c]), s.tags⟩
  | .quoted quote seen =>
      if c = quote then ⟨.tag (seen ++ [c]), s.tags⟩ else ⟨.quoted quote (seen ++ [c]), s.tags⟩

def run (s : Scan) (chars : List Char) : Scan :=
  chars.foldl step s

/-- A scan that had read tags before. -/
def after (before : List (List Char)) (s : Scan) : Scan where
  mode := s.mode
  tags := before ++ s.tags

theorem step_after (before : List (List Char)) (s : Scan) (c : Char) :
    (s.after before).step c = (s.step c).after before := by
  obtain ⟨mode, tags⟩ := s
  cases mode with
  | text =>
      simp only [after, step]
      split <;> rfl
  | tag seen =>
      simp only [after, step]
      split
      · simp only [List.append_assoc]
      · split <;> rfl
  | quoted quote seen =>
      simp only [after, step]
      split <;> rfl

theorem run_after (before : List (List Char)) (s : Scan) (chars : List Char) :
    (s.after before).run chars = (s.run chars).after before := by
  induction chars generalizing s with
  | nil => rfl
  | cons c rest ih =>
      unfold run at ih ⊢
      rw [List.foldl_cons, List.foldl_cons, step_after, ih]

theorem run_append (s : Scan) (left right : List Char) :
    s.run (left ++ right) = (s.run left).run right :=
  List.foldl_append

end Scan

/-- The tags of a document, in order. -/
def tags (document : String) : List (List Char) :=
  (Scan.start.run document.toList).tags

/-- A fragment that leaves the scanner outside tags. -/
def Balanced (fragment : String) : Prop :=
  (Scan.start.run fragment.toList).mode = .text

/-- A fragment that opens no tag. -/
def Inert (fragment : String) : Prop :=
  '<' ∉ fragment.toList

theorem run_of_balanced {fragment : String} (balanced : Balanced fragment) :
    Scan.start.run fragment.toList = Scan.start.after (tags fragment) := by
  unfold Balanced at balanced
  unfold tags
  generalize Scan.start.run fragment.toList = s at balanced
  obtain ⟨mode, read⟩ := s
  simp only at balanced
  rw [balanced]
  simp only [Scan.after, Scan.start, List.append_nil]

theorem run_append_of_balanced {left : String} (balanced : Balanced left) (right : String) :
    Scan.start.run (left ++ right).toList =
      (Scan.start.run right.toList).after (tags left) := by
  rw [String.toList_append, Scan.run_append, run_of_balanced balanced, Scan.run_after]

theorem Balanced.append {left right : String} (first : Balanced left) (second : Balanced right) :
    Balanced (left ++ right) := by
  unfold Balanced
  rw [run_append_of_balanced first]
  exact second

theorem tags_append {left : String} (balanced : Balanced left) (right : String) :
    tags (left ++ right) = tags left ++ tags right := by
  unfold tags
  rw [run_append_of_balanced balanced]
  rfl

theorem Inert.run {fragment : String} (inert : Inert fragment) :
    Scan.start.run fragment.toList = Scan.start := by
  unfold Inert at inert
  generalize fragment.toList = chars at inert
  induction chars with
  | nil => rfl
  | cons c rest ih =>
      rw [List.mem_cons, not_or] at inert
      have stays : Scan.start.step c = Scan.start := by
        simp only [Scan.step, Scan.start, if_neg (Ne.symm inert.1)]
      unfold Scan.run at ih ⊢
      rw [List.foldl_cons, stays, ih inert.2]

theorem Inert.balanced {fragment : String} (inert : Inert fragment) : Balanced fragment := by
  rw [Balanced, inert.run]
  rfl

/-- The characters of a literal are known before it is encoded. -/
theorem Inert.of_chars {chars : List Char} (closed : '<' ∉ chars) :
    Inert (String.ofList chars) := by
  rw [Inert, String.toList_ofList]
  exact closed

theorem Balanced.of_chars {chars : List Char} (ends : (Scan.start.run chars).mode = .text) :
    Balanced (String.ofList chars) := by
  rw [Balanced, String.toList_ofList]
  exact ends

theorem Balanced.of_pieces {a b c : List Char}
    (ends : (Scan.start.run (a ++ b ++ c)).mode = .text) :
    Balanced (String.ofList a ++ String.ofList b ++ String.ofList c) := by
  rw [← String.ofList_append, ← String.ofList_append]
  exact of_chars ends

theorem Inert.append {left right : String} (first : Inert left) (second : Inert right) :
    Inert (left ++ right) := by
  unfold Inert at *
  rw [String.toList_append, List.mem_append, not_or]
  exact ⟨first, second⟩

theorem Inert.join {α : Type} {f : α → String} {items : List α}
    (all : ∀ item ∈ items, Inert (f item)) : Inert (String.join (items.map f)) := by
  unfold Inert at *
  rw [String.toList_join, List.mem_flatMap]
  intro found
  obtain ⟨_, member, opening⟩ := found
  obtain ⟨item, listed, rfl⟩ := List.mem_map.mp member
  exact all item listed opening

/-! ### Two fragments with the same tags -/

structure Alike (a b : String) : Prop where
  left : Balanced a
  right : Balanced b
  same : tags a = tags b

namespace Alike

theorem of_balanced {a : String} (balanced : Balanced a) : Alike a a :=
  ⟨balanced, balanced, rfl⟩

theorem literal {chars : List Char} (ends : (Scan.start.run chars).mode = .text) :
    Alike (String.ofList chars) (String.ofList chars) :=
  of_balanced (Balanced.of_chars ends)

/-- A tag may be put together from pieces. -/
theorem pieces {a b c : List Char} (ends : (Scan.start.run (a ++ b ++ c)).mode = .text) :
    Alike (String.ofList a ++ String.ofList b ++ String.ofList c)
      (String.ofList a ++ String.ofList b ++ String.ofList c) :=
  of_balanced (Balanced.of_pieces ends)

theorem of_inert {a b : String} (first : Inert a) (second : Inert b) : Alike a b where
  left := first.balanced
  right := second.balanced
  same := by rw [tags, tags, first.run, second.run]

theorem append {a b c d : String} (first : Alike a b) (second : Alike c d) :
    Alike (a ++ c) (b ++ d) where
  left := first.left.append second.left
  right := first.right.append second.right
  same := by rw [tags_append first.left, tags_append first.right, first.same, second.same]

theorem ite {p : Prop} [Decidable p] {a b c d : String} (whenTrue : p → Alike a b)
    (whenFalse : ¬ p → Alike c d) : Alike (if p then a else c) (if p then b else d) := by
  split
  · next holds => exact whenTrue holds
  · next fails => exact whenFalse fails

theorem join {α β : Type} {f : α → String} {g : β → String} {as : List α} {bs : List β}
    (items : List.Forall₂ (fun a b => Alike (f a) (g b)) as bs) :
    Alike (String.join (as.map f)) (String.join (bs.map g)) := by
  induction items with
  | nil => exact of_balanced rfl
  | cons first _ ih =>
      rw [List.map_cons, List.map_cons, String.join_cons, String.join_cons]
      exact first.append ih

end Alike

end Markup
