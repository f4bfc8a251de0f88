import Mathlib.Data.Fin.Tuple.Basic
import Mathlib.Tactic.Common

/-
Decision diagrams over a fixed number of boolean variables.

The interface states what a client may rely on: every operation is the exact
boolean operation on the function a diagram denotes, and diagrams are canonical,
so equal functions are equal diagrams.  Reduced ordered decision trees implement
it; they drop the sharing of a production library and keep its meaning.
-/

namespace DecisionDiagram

class Library (n : outParam Nat) (B : Type) where
  beq : B → B → Bool
  eval : B → (Fin n → Bool) → Bool
  mkTrue : B
  mkFalse : B
  mkLiteral : Fin n → Bool → B
  not : B → B
  and : B → B → B
  or : B → B → B
  andNot : B → B → B
  isTrue : B → Bool
  isFalse : B → Bool
  satWitness : B → Option (Fin n → Bool)
  eval_mkTrue : ∀ v, eval mkTrue v = true
  eval_mkFalse : ∀ v, eval mkFalse v = false
  eval_mkLiteral : ∀ i value v, eval (mkLiteral i value) v = (v i == value)
  eval_not : ∀ a v, eval (not a) v = !eval a v
  eval_and : ∀ a b v, eval (and a b) v = (eval a v && eval b v)
  eval_or : ∀ a b v, eval (or a b) v = (eval a v || eval b v)
  eval_andNot : ∀ a b v, eval (andNot a b) v = (eval a v && !eval b v)
  canonical : ∀ a b, (∀ v, eval a v = eval b v) → a = b
  beq_iff : ∀ a b, beq a b = true ↔ a = b
  isTrue_iff : ∀ a, isTrue a = true ↔ ∀ v, eval a v = true
  isFalse_iff : ∀ a, isFalse a = true ↔ ∀ v, eval a v = false
  satWitness_some : ∀ a v, satWitness a = some v → eval a v = true
  satWitness_none : ∀ a, satWitness a = none → ∀ v, eval a v = false

attribute [simp] Library.eval_mkTrue Library.eval_mkFalse Library.eval_mkLiteral
  Library.eval_not Library.eval_and Library.eval_or Library.eval_andNot

/-! ### Reduced ordered decision trees -/

/-- A tree that reads variable 0 first.  `skip` does not depend on it. -/
inductive Tree : Nat → Type
  | leaf (value : Bool) : Tree 0
  | skip {n : Nat} (rest : Tree n) : Tree (n + 1)
  | node {n : Nat} (lo hi : Tree n) : Tree (n + 1)
  deriving DecidableEq

namespace Tree

def eval : {n : Nat} → Tree n → (Fin n → Bool) → Bool
  | _, .leaf value, _ => value
  | _, .skip rest, v => rest.eval (Fin.tail v)
  | _, .node lo hi, v => if v 0 then hi.eval (Fin.tail v) else lo.eval (Fin.tail v)

/-- No node has two equal branches. -/
def Reduced : {n : Nat} → Tree n → Prop
  | _, .leaf _ => True
  | _, .skip rest => rest.Reduced
  | _, .node lo hi => lo ≠ hi ∧ lo.Reduced ∧ hi.Reduced

def branch {n : Nat} (lo hi : Tree n) : Tree (n + 1) :=
  if lo = hi then .skip lo else .node lo hi

def const (value : Bool) : (n : Nat) → Tree n
  | 0 => .leaf value
  | n + 1 => .skip (const value n)

def literal (value : Bool) : {n : Nat} → Fin n → Tree n
  | n + 1, i =>
      Fin.cases (.node (const (!value) n) (const value n))
        (fun later => .skip (literal value later)) i

def map (op : Bool → Bool) : {n : Nat} → Tree n → Tree n
  | _, .leaf value => .leaf (op value)
  | _, .skip rest => .skip (rest.map op)
  | _, .node lo hi => branch (lo.map op) (hi.map op)

def map₂ (op : Bool → Bool → Bool) : {n : Nat} → Tree n → Tree n → Tree n
  | _, .leaf a, .leaf b => .leaf (op a b)
  | _, .skip a, .skip b => .skip (map₂ op a b)
  | _, .skip a, .node lo hi => branch (map₂ op a lo) (map₂ op a hi)
  | _, .node lo hi, .skip b => branch (map₂ op lo b) (map₂ op hi b)
  | _, .node lo hi, .node lo' hi' => branch (map₂ op lo lo') (map₂ op hi hi')

/-- The valuation of the leftmost path to a true leaf. -/
def witness : {n : Nat} → Tree n → Option (Fin n → Bool)
  | _, .leaf value => if value then some Fin.elim0 else none
  | _, .skip rest => rest.witness.map (Fin.cons false)
  | _, .node lo hi =>
      match lo.witness with
      | some v => some (Fin.cons false v)
      | none => hi.witness.map (Fin.cons true)

theorem eval_branch {n : Nat} (lo hi : Tree n) (v : Fin (n + 1) → Bool) :
    (branch lo hi).eval v =
      if v 0 then hi.eval (Fin.tail v) else lo.eval (Fin.tail v) := by
  unfold branch
  split
  · next same => simp [eval, same]
  · rfl

theorem reduced_branch {n : Nat} {lo hi : Tree n} (loReduced : lo.Reduced)
    (hiReduced : hi.Reduced) : (branch lo hi).Reduced := by
  unfold branch
  split
  · exact loReduced
  · next different => exact ⟨different, loReduced, hiReduced⟩

@[simp] theorem eval_const (value : Bool) {n : Nat} (v : Fin n → Bool) :
    (const value n).eval v = value := by
  induction n with
  | zero => rfl
  | succ n ih => exact ih (Fin.tail v)

theorem reduced_const (value : Bool) (n : Nat) : (const value n).Reduced := by
  induction n with
  | zero => trivial
  | succ n ih => exact ih

theorem const_ne (n : Nat) (value : Bool) : const (!value) n ≠ const value n := by
  intro same
  have evaluated := congrArg (fun tree => tree.eval (fun _ => false)) same
  simp at evaluated

theorem eval_literal (value : Bool) {n : Nat} (i : Fin n) (v : Fin n → Bool) :
    (literal value i).eval v = (v i == value) := by
  induction n with
  | zero => exact Fin.elim0 i
  | succ n ih =>
      cases i using Fin.cases with
      | zero =>
          simp only [literal, Fin.cases_zero, eval, eval_const]
          cases v 0 <;> cases value <;> rfl
      | succ later =>
          simp only [literal, Fin.cases_succ, eval]
          exact ih later (Fin.tail v)

theorem reduced_literal (value : Bool) {n : Nat} (i : Fin n) :
    (literal value i).Reduced := by
  induction n with
  | zero => exact Fin.elim0 i
  | succ n ih =>
      cases i using Fin.cases with
      | zero => exact ⟨const_ne n value, reduced_const _ n, reduced_const _ n⟩
      | succ later => exact ih later

theorem eval_map (op : Bool → Bool) {n : Nat} (a : Tree n) (v : Fin n → Bool) :
    (a.map op).eval v = op (a.eval v) := by
  induction a with
  | leaf value => rfl
  | skip rest ih => exact ih (Fin.tail v)
  | node lo hi ihLo ihHi =>
      simp only [map, eval_branch, eval, ihLo, ihHi]
      split <;> rfl

theorem reduced_map (op : Bool → Bool) {n : Nat} {a : Tree n} (reduced : a.Reduced) :
    (a.map op).Reduced := by
  induction a with
  | leaf value => trivial
  | skip rest ih => exact ih reduced
  | node lo hi ihLo ihHi => exact reduced_branch (ihLo reduced.2.1) (ihHi reduced.2.2)

theorem eval_map₂ (op : Bool → Bool → Bool) {n : Nat} (a b : Tree n)
    (v : Fin n → Bool) : (map₂ op a b).eval v = op (a.eval v) (b.eval v) := by
  induction a with
  | leaf value => cases b; rfl
  | skip rest ih =>
      cases b with
      | skip other => exact ih other (Fin.tail v)
      | node lo hi =>
          simp only [map₂, eval_branch, eval, ih]
          split <;> rfl
  | node lo hi ihLo ihHi =>
      cases b with
      | skip other =>
          simp only [map₂, eval_branch, eval, ihLo, ihHi]
          split <;> rfl
      | node lo' hi' =>
          simp only [map₂, eval_branch, eval, ihLo, ihHi]
          split <;> rfl

theorem reduced_map₂ (op : Bool → Bool → Bool) {n : Nat} {a b : Tree n}
    (left : a.Reduced) (right : b.Reduced) : (map₂ op a b).Reduced := by
  induction a with
  | leaf value => cases b; trivial
  | skip rest ih =>
      cases b with
      | skip other => exact ih left right
      | node lo hi => exact reduced_branch (ih left right.2.1) (ih left right.2.2)
  | node lo hi ihLo ihHi =>
      cases b with
      | skip other => exact reduced_branch (ihLo left.2.1 right) (ihHi left.2.2 right)
      | node lo' hi' =>
          exact reduced_branch (ihLo left.2.1 right.2.1) (ihHi left.2.2 right.2.2)

theorem eval_skip_cons {n : Nat} (rest : Tree n) (first : Bool) (v : Fin n → Bool) :
    (Tree.skip rest).eval (Fin.cons first v : Fin (n + 1) → Bool) = rest.eval v := by
  simp [eval, Fin.tail_cons]

theorem eval_node_cons {n : Nat} (lo hi : Tree n) (first : Bool) (v : Fin n → Bool) :
    (Tree.node lo hi).eval (Fin.cons first v : Fin (n + 1) → Bool) =
      if first then hi.eval v else lo.eval v := by
  simp [eval, Fin.tail_cons]

/-- Reduced trees of one function are equal. -/
theorem eq_of_eval {n : Nat} {a b : Tree n} (left : a.Reduced) (right : b.Reduced)
    (same : ∀ v, a.eval v = b.eval v) : a = b := by
  induction a with
  | leaf value =>
      cases b with
      | leaf other => exact congrArg _ (same Fin.elim0)
  | skip rest ih =>
      cases b with
      | skip other =>
          refine congrArg _ (ih left right (fun v => ?_))
          have := same (Fin.cons false v)
          rwa [eval_skip_cons, eval_skip_cons] at this
      | node lo hi =>
          -- Both branches of the node denote what the skipped tree denotes.
          have branchSame (first : Bool) (v) :
              rest.eval v = if first then hi.eval v else lo.eval v := by
            have := same (Fin.cons first v)
            rwa [eval_skip_cons, eval_node_cons] at this
          have loEq := ih left right.2.1 (branchSame false)
          have hiEq := ih left right.2.2 (branchSame true)
          exact absurd (loEq.symm.trans hiEq) right.1
  | node lo hi ihLo ihHi =>
      cases b with
      | skip other =>
          have branchSame (first : Bool) (v) :
              (if first then hi.eval v else lo.eval v) = other.eval v := by
            have := same (Fin.cons first v)
            rwa [eval_node_cons, eval_skip_cons] at this
          have loEq := ihLo left.2.1 right (branchSame false)
          have hiEq := ihHi left.2.2 right (branchSame true)
          exact absurd (loEq.trans hiEq.symm) left.1
      | node lo' hi' =>
          have branchSame (first : Bool) (v) :
              (if first then hi.eval v else lo.eval v) =
                if first then hi'.eval v else lo'.eval v := by
            have := same (Fin.cons first v)
            rwa [eval_node_cons, eval_node_cons] at this
          rw [ihLo left.2.1 right.2.1 (branchSame false),
            ihHi left.2.2 right.2.2 (branchSame true)]

theorem witness_spec {n : Nat} (a : Tree n) :
    (∀ v, a.witness = some v → a.eval v = true) ∧
      (a.witness = none → ∀ v, a.eval v = false) := by
  induction a with
  | leaf value => cases value <;> simp [witness, eval]
  | skip rest ih =>
      constructor
      · intro v found
        obtain ⟨inner, at_, rfl⟩ := Option.map_eq_some_iff.mp found
        rw [eval_skip_cons]
        exact ih.1 inner at_
      · intro missing v
        exact ih.2 (Option.map_eq_none_iff.mp missing) (Fin.tail v)
  | node lo hi ihLo ihHi =>
      simp only [witness]
      cases found : lo.witness with
      | some inner =>
          refine ⟨fun v same => ?_, by simp⟩
          rw [← Option.some.inj same, eval_node_cons]
          exact ihLo.1 inner found
      | none =>
          constructor
          · intro v same
            obtain ⟨inner, at_, rfl⟩ := Option.map_eq_some_iff.mp same
            rw [eval_node_cons]
            exact ihHi.1 inner at_
          · intro missing v
            simp only [eval]
            split
            · exact ihHi.2 (Option.map_eq_none_iff.mp missing) _
            · exact ihLo.2 found _

end Tree

structure Diagram (n : Nat) where
  tree : Tree n
  reduced : tree.Reduced
  deriving DecidableEq

namespace Diagram

variable {n : Nat}

def const (value : Bool) : Diagram n :=
  ⟨Tree.const value n, Tree.reduced_const value n⟩

theorem eq_const_iff (a : Diagram n) (value : Bool) :
    (a = const value) ↔ ∀ v, a.tree.eval v = value := by
  constructor
  · rintro rfl v
    exact Tree.eval_const value v
  · intro constant
    obtain ⟨tree, reduced⟩ := a
    have same : tree = Tree.const value n :=
      Tree.eq_of_eval reduced (Tree.reduced_const value n)
        (fun v => (constant v).trans (Tree.eval_const value v).symm)
    subst same
    rfl

instance : Library n (Diagram n) where
  beq a b := a = b
  eval a := a.tree.eval
  mkTrue := const true
  mkFalse := const false
  mkLiteral i value := ⟨Tree.literal value i, Tree.reduced_literal value i⟩
  not a := ⟨a.tree.map Bool.not, Tree.reduced_map _ a.reduced⟩
  and a b := ⟨Tree.map₂ Bool.and a.tree b.tree, Tree.reduced_map₂ _ a.reduced b.reduced⟩
  or a b := ⟨Tree.map₂ Bool.or a.tree b.tree, Tree.reduced_map₂ _ a.reduced b.reduced⟩
  andNot a b :=
    ⟨Tree.map₂ (fun x y => x && !y) a.tree b.tree, Tree.reduced_map₂ _ a.reduced b.reduced⟩
  isTrue a := a = const true
  isFalse a := a = const false
  satWitness a := a.tree.witness
  eval_mkTrue := Tree.eval_const true
  eval_mkFalse := Tree.eval_const false
  eval_mkLiteral i value := Tree.eval_literal value i
  eval_not a := Tree.eval_map _ a.tree
  eval_and a b := Tree.eval_map₂ _ a.tree b.tree
  eval_or a b := Tree.eval_map₂ _ a.tree b.tree
  eval_andNot a b := Tree.eval_map₂ _ a.tree b.tree
  canonical a b same := by
    obtain ⟨tree, reduced⟩ := a
    obtain ⟨other, otherReduced⟩ := b
    have treeEq : tree = other := Tree.eq_of_eval reduced otherReduced same
    subst treeEq
    rfl
  beq_iff a b := decide_eq_true_iff
  isTrue_iff a := by rw [decide_eq_true_iff, eq_const_iff]
  isFalse_iff a := by rw [decide_eq_true_iff, eq_const_iff]
  satWitness_some a := (Tree.witness_spec a.tree).1
  satWitness_none a := (Tree.witness_spec a.tree).2

end Diagram

end DecisionDiagram
