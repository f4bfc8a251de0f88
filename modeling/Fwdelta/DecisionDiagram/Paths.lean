import Fwdelta.DecisionDiagram
import Mathlib.Data.Fintype.BigOperators

/-
Counting, cofactors and the paths of a diagram.

A path fixes some variables and leaves the others free.  The paths of a diagram
are mutually exclusive and together hold exactly the satisfying valuations, of
which the cardinality is the number.
-/

namespace DecisionDiagram

/-- What a path fixes. -/
abbrev Clause (n : Nat) := Fin n → Option Bool

def Clause.Holds {n : Nat} (clause : Clause n) (v : Fin n → Bool) : Prop :=
  ∀ i value, clause i = some value → v i = value

/-- A path one variable further up. -/
def Clause.cons {n : Nat} (first : Option Bool) (clause : Clause n) : Clause (n + 1) :=
  Fin.cons first clause

/-- The satisfying valuations of a function. -/
def models {n : Nat} (holds : (Fin n → Bool) → Bool) : Finset (Fin n → Bool) :=
  Finset.univ.filter (fun v => holds v = true)

class PathLibrary (n : outParam Nat) (B : Type) extends Library n B where
  restrict : B → Fin n → Bool → B
  exactCardinality : B → Nat
  satClauses : B → List (Clause n)
  eval_restrict : ∀ a i value v, eval (restrict a i value) v = eval a (Function.update v i value)
  exactCardinality_eq : ∀ a, exactCardinality a = (models (eval a)).card
  eval_iff_satClauses : ∀ a v, eval a v = true ↔ ∃ clause ∈ satClauses a, clause.Holds v
  satClauses_apart : ∀ a, (satClauses a).Pairwise
    (fun clause other => ∀ v, ¬ (clause.Holds v ∧ other.Holds v))

attribute [simp] PathLibrary.eval_restrict

open Library PathLibrary

theorem mem_models {n : Nat} {holds : (Fin n → Bool) → Bool} {v : Fin n → Bool} :
    v ∈ models holds ↔ holds v = true := by
  simp [models]

theorem card_models_le {n : Nat} (holds : (Fin n → Bool) → Bool) :
    (models holds).card ≤ 2 ^ n := by
  apply (Finset.card_le_univ _).trans_eq
  rw [Fintype.card_fun, Fintype.card_bool, Fintype.card_fin]

theorem Clause.holds_cons {n : Nat} (first : Option Bool) (clause : Clause n)
    (v : Fin (n + 1) → Bool) :
    (clause.cons first).Holds v ↔
      (∀ value, first = some value → v 0 = value) ∧ clause.Holds (Fin.tail v) := by
  unfold Clause.Holds
  rw [Fin.forall_fin_succ]
  rfl

theorem Clause.exists_cons {n : Nat} (clause : Clause (n + 1)) :
    ∃ first later, clause = Clause.cons first later :=
  ⟨clause 0, Fin.tail clause, (Fin.cons_self_tail clause).symm⟩

/-- A clause is satisfiable: the free variables can be set at will. -/
theorem Clause.exists_holds {n : Nat} (clause : Clause n) : ∃ v, clause.Holds v := by
  refine ⟨fun i => (clause i).getD false, ?_⟩
  intro i value fixed
  simp [fixed]

/-! ### Quantification -/

section Quantify

variable {n : Nat} {B : Type} [PathLibrary n B]

/-- Existential quantification over one variable: the disjunction of its two
cofactors. -/
def quantify (a : B) (i : Fin n) : B :=
  or (restrict a i true) (restrict a i false)

theorem eval_quantify (a : B) (i : Fin n) (v : Fin n → Bool) :
    eval (quantify a i) v = true ↔ ∃ value, eval a (Function.update v i value) = true := by
  rw [quantify, eval_or, Bool.or_eq_true, eval_restrict, eval_restrict]
  constructor
  · intro either
    rcases either with high | low
    · exact ⟨true, high⟩
    · exact ⟨false, low⟩
  · intro found
    obtain ⟨value, holds⟩ := found
    cases value with
    | true => exact Or.inl holds
    | false => exact Or.inr holds

/-- Quantifying over a list of variables lets each of them take any value. -/
theorem eval_foldl_quantify (a : B) (indices : List (Fin n)) (v : Fin n → Bool) :
    eval (indices.foldl quantify a) v = true ↔
      ∃ w, (∀ i, i ∉ indices → w i = v i) ∧ eval a w = true := by
  induction indices generalizing a with
  | nil =>
      simp only [List.foldl_nil, List.not_mem_nil, not_false_eq_true, true_implies]
      constructor
      · exact fun holds => ⟨v, fun _ => rfl, holds⟩
      · intro found
        obtain ⟨w, same, holds⟩ := found
        rwa [funext same] at holds
  | cons first rest ih =>
      rw [List.foldl_cons, ih]
      constructor
      · intro found
        obtain ⟨w, same, quantified⟩ := found
        obtain ⟨value, holds⟩ := (eval_quantify a first w).mp quantified
        refine ⟨Function.update w first value, ?_, holds⟩
        intro i outside
        rw [List.mem_cons, not_or] at outside
        rw [Function.update_of_ne outside.1, same i outside.2]
      · intro found
        obtain ⟨w, same, holds⟩ := found
        by_cases again : first ∈ rest
        · refine ⟨w, ?_, (eval_quantify a first w).mpr ⟨w first, ?_⟩⟩
          · intro i outside
            apply same
            rw [List.mem_cons, not_or]
            exact ⟨fun equal => outside (equal ▸ again), outside⟩
          · rwa [Function.update_eq_self]
        · refine ⟨Function.update w first (v first), ?_,
            (eval_quantify a first _).mpr ⟨w first, ?_⟩⟩
          · intro i outside
            by_cases here : i = first
            · rw [here, Function.update_self]
            · rw [Function.update_of_ne here]
              apply same
              rw [List.mem_cons, not_or]
              exact ⟨here, outside⟩
          · rwa [Function.update_idem, Function.update_eq_self]

end Quantify

/-! ### Sets renamed by a permutation of valuations -/

section Renamed

variable {n : Nat} {B : Type} [Library n B]

/-- The second set is the image of the first. -/
def Renamed (rename : Equiv.Perm (Fin n → Bool)) (a b : B) : Prop :=
  ∀ v, eval a v = eval b (rename v)

namespace Renamed

variable {rename : Equiv.Perm (Fin n → Bool)} {a b c d : B}

theorem mkTrue (rename : Equiv.Perm (Fin n → Bool)) :
    Renamed rename (Library.mkTrue : B) Library.mkTrue := by
  intro v
  rw [eval_mkTrue, eval_mkTrue]

theorem mkFalse (rename : Equiv.Perm (Fin n → Bool)) :
    Renamed rename (Library.mkFalse : B) Library.mkFalse := by
  intro v
  rw [eval_mkFalse, eval_mkFalse]

theorem not (left : Renamed rename a b) : Renamed rename (Library.not a) (Library.not b) := by
  intro v
  rw [eval_not, eval_not, left v]

theorem and (left : Renamed rename a b) (right : Renamed rename c d) :
    Renamed rename (Library.and a c) (Library.and b d) := by
  intro v
  rw [eval_and, eval_and, left v, right v]

theorem or (left : Renamed rename a b) (right : Renamed rename c d) :
    Renamed rename (Library.or a c) (Library.or b d) := by
  intro v
  rw [eval_or, eval_or, left v, right v]

theorem andNot (left : Renamed rename a b) (right : Renamed rename c d) :
    Renamed rename (Library.andNot a c) (Library.andNot b d) := by
  intro v
  rw [eval_andNot, eval_andNot, left v, right v]

theorem isTrue (renamed : Renamed rename a b) : Library.isTrue a = Library.isTrue b := by
  rw [Bool.eq_iff_iff, isTrue_iff, isTrue_iff,
    rename.surjective.forall (p := fun v => eval b v = true)]
  apply forall_congr'
  intro v
  rw [renamed v]

theorem isFalse (renamed : Renamed rename a b) : Library.isFalse a = Library.isFalse b := by
  rw [Bool.eq_iff_iff, isFalse_iff, isFalse_iff,
    rename.surjective.forall (p := fun v => eval b v = false)]
  apply forall_congr'
  intro v
  rw [renamed v]

theorem card_models (renamed : Renamed rename a b) :
    (models (eval a)).card = (models (eval b)).card := by
  apply Finset.card_equiv rename
  intro v
  rw [mem_models, mem_models, renamed v]

end Renamed

end Renamed

/-! ### Reduced ordered decision trees -/

namespace Tree

def restrict : {n : Nat} → Tree n → Fin n → Bool → Tree n
  | _, .leaf value, _, _ => .leaf value
  | _, .skip rest, i, value =>
      .skip (Fin.cases rest (fun later => rest.restrict later value) i)
  | _, .node lo hi, i, value =>
      Fin.cases (.skip (if value then hi else lo))
        (fun later => branch (lo.restrict later value) (hi.restrict later value)) i

def count : {n : Nat} → Tree n → Nat
  | _, .leaf value => value.toNat
  | _, .skip rest => 2 * rest.count
  | _, .node lo hi => lo.count + hi.count

/-- The paths to a true leaf, from left to right. -/
def clauses : {n : Nat} → Tree n → List (Clause n)
  | _, .leaf value => if value then [Fin.elim0] else []
  | _, .skip rest => rest.clauses.map (Clause.cons none)
  | _, .node lo hi =>
      lo.clauses.map (Clause.cons (some false)) ++ hi.clauses.map (Clause.cons (some true))

theorem eval_restrict {n : Nat} (a : Tree n) (i : Fin n) (value : Bool) (v : Fin n → Bool) :
    (a.restrict i value).eval v = a.eval (Function.update v i value) := by
  induction a with
  | leaf _ => exact Fin.elim0 i
  | skip rest ih =>
      cases i using Fin.cases with
      | zero => simp [restrict, eval, Fin.tail_update_zero]
      | succ later => simp [restrict, eval, Fin.tail_update_succ, ih]
  | node lo hi ihLo ihHi =>
      cases i using Fin.cases with
      | zero =>
          simp only [restrict, Fin.cases_zero, eval, Function.update_self,
            Fin.tail_update_zero]
          cases value <;> rfl
      | succ later =>
          have first : Function.update v later.succ value 0 = v 0 :=
            Function.update_of_ne (Fin.succ_ne_zero later).symm _ _
          simp only [restrict, Fin.cases_succ, eval_branch, eval, Fin.tail_update_succ, ihLo,
            ihHi, first]

theorem reduced_restrict {n : Nat} {a : Tree n} (reduced : a.Reduced) (i : Fin n)
    (value : Bool) : (a.restrict i value).Reduced := by
  induction a with
  | leaf _ => trivial
  | skip rest ih =>
      cases i using Fin.cases with
      | zero => exact reduced
      | succ later => exact ih reduced later
  | node lo hi ihLo ihHi =>
      cases i using Fin.cases with
      | zero =>
          cases value with
          | true => exact reduced.2.2
          | false => exact reduced.2.1
      | succ later => exact reduced_branch (ihLo reduced.2.1 later) (ihHi reduced.2.2 later)

/-- Satisfying valuations, counted by the value of the first variable. -/
theorem card_models_succ {n : Nat} (holds : (Fin (n + 1) → Bool) → Bool) :
    (models holds).card =
      (models (fun v => holds (Fin.cons false v))).card +
        (models (fun v => holds (Fin.cons true v))).card := by
  simp only [models, Finset.card_filter]
  rw [← (Fin.consEquiv (fun _ => Bool)).sum_comp, Fintype.sum_prod_type, Fintype.sum_bool,
    Nat.add_comm]
  rfl

theorem count_eq {n : Nat} (a : Tree n) : a.count = (models a.eval).card := by
  induction a with
  | leaf value =>
      cases value with
      | true => rfl
      | false => rfl
  | skip rest ih =>
      rw [count, ih, card_models_succ, Nat.two_mul]
      simp only [eval_skip_cons]
  | node lo hi ihLo ihHi =>
      rw [count, ihLo, ihHi, card_models_succ]
      simp [eval_node_cons]

theorem exists_map_cons {n : Nat} {clauses : List (Clause n)} {first : Option Bool}
    {v : Fin (n + 1) → Bool} :
    (∃ clause ∈ clauses.map (Clause.cons first), clause.Holds v) ↔
      (∀ value, first = some value → v 0 = value) ∧
        ∃ clause ∈ clauses, clause.Holds (Fin.tail v) := by
  simp only [List.mem_map, exists_exists_and_eq_and, Clause.holds_cons]
  constructor
  · intro found
    obtain ⟨clause, member, fixed, holds⟩ := found
    exact ⟨fixed, clause, member, holds⟩
  · intro found
    obtain ⟨fixed, clause, member, holds⟩ := found
    exact ⟨clause, member, fixed, holds⟩

theorem eval_iff_clauses {n : Nat} (a : Tree n) (v : Fin n → Bool) :
    a.eval v = true ↔ ∃ clause ∈ a.clauses, clause.Holds v := by
  induction a with
  | leaf value =>
      cases value with
      | true =>
          refine iff_of_true rfl ⟨Fin.elim0, List.mem_singleton.mpr rfl, ?_⟩
          exact fun i => Fin.elim0 i
      | false => simp [eval, clauses]
  | skip rest ih =>
      rw [clauses, exists_map_cons, eval, ih (Fin.tail v)]
      simp
  | node lo hi ihLo ihHi =>
      simp only [eval, clauses, List.mem_append, or_and_right, exists_or, exists_map_cons,
        Option.some.injEq, forall_eq']
      cases v 0 with
      | false => simp [ihLo]
      | true => simp [ihHi]

theorem apart_map_cons {n : Nat} {clauses : List (Clause n)} (first : Option Bool)
    (apart : clauses.Pairwise (fun clause other => ∀ v, ¬ (clause.Holds v ∧ other.Holds v))) :
    (clauses.map (Clause.cons first)).Pairwise
      (fun clause other => ∀ v, ¬ (clause.Holds v ∧ other.Holds v)) := by
  rw [List.pairwise_map]
  apply apart.imp
  intro clause other clear v both
  rw [Clause.holds_cons, Clause.holds_cons] at both
  exact clear (Fin.tail v) ⟨both.1.2, both.2.2⟩

theorem clauses_apart {n : Nat} (a : Tree n) : a.clauses.Pairwise
    (fun clause other => ∀ v, ¬ (clause.Holds v ∧ other.Holds v)) := by
  induction a with
  | leaf value => cases value <;> simp [clauses]
  | skip rest ih => exact apart_map_cons none ih
  | node lo hi ihLo ihHi =>
      rw [clauses, List.pairwise_append]
      refine ⟨apart_map_cons _ ihLo, apart_map_cons _ ihHi, ?_⟩
      intro clause low other high v both
      obtain ⟨_, _, rfl⟩ := List.mem_map.mp low
      obtain ⟨_, _, rfl⟩ := List.mem_map.mp high
      rw [Clause.holds_cons, Clause.holds_cons] at both
      have zero := both.1.1 false rfl
      have one := both.2.1 true rfl
      rw [zero] at one
      contradiction

theorem clauses_eq_nil {n : Nat} {a : Tree n} (nothing : ∀ v, a.eval v = false) :
    a.clauses = [] := by
  rw [List.eq_nil_iff_forall_not_mem]
  intro clause member
  obtain ⟨v, holds⟩ := clause.exists_holds
  have satisfied := (eval_iff_clauses a v).mpr ⟨clause, member, holds⟩
  rw [nothing v] at satisfied
  contradiction

/-- The only path of a reduced tree that denotes a cube is the cube. -/
theorem clauses_of_cube {n : Nat} {a : Tree n} (reduced : a.Reduced) {cube : Clause n}
    (exact_ : ∀ v, a.eval v = true ↔ cube.Holds v) : a.clauses = [cube] := by
  induction a with
  | leaf value =>
      have holds : cube.Holds Fin.elim0 := fun i => Fin.elim0 i
      have isTrue : value = true := (exact_ Fin.elim0).mpr holds
      have same : cube = Fin.elim0 := funext fun i => Fin.elim0 i
      rw [isTrue, same]
      rfl
  | skip rest ih =>
      obtain ⟨first, later, rfl⟩ := cube.exists_cons
      have meaning (bit : Bool) (v) :=
        (exact_ (Fin.cons bit v)).trans (Clause.holds_cons first later _)
      simp only [eval_skip_cons, Fin.cons_zero, Fin.tail_cons] at meaning
      obtain ⟨v, holds⟩ := later.exists_holds
      cases first with
      | none =>
          have inner (v) : rest.eval v = true ↔ later.Holds v := by simp [meaning false v]
          rw [clauses, ih reduced inner]
          rfl
      | some value =>
          -- The tree does not read the first variable, so a cube cannot fix it.
          have here := (meaning value v).mpr ⟨fun _ same => Option.some.inj same, holds⟩
          have there := ((meaning (!value) v).mp here).1 value rfl
          exact absurd there (Bool.not_ne_self value)
  | node lo hi ihLo ihHi =>
      obtain ⟨first, later, rfl⟩ := cube.exists_cons
      have meaning (bit : Bool) (v) :=
        (exact_ (Fin.cons bit v)).trans (Clause.holds_cons first later _)
      simp only [eval_node_cons, Fin.cons_zero, Fin.tail_cons] at meaning
      have low (v) := meaning false v
      have high (v) := meaning true v
      simp only [Bool.false_eq_true, if_false, if_true] at low high
      cases first with
      | none =>
          have same : lo = hi := by
            apply eq_of_eval reduced.2.1 reduced.2.2
            intro v
            rw [Bool.eq_iff_iff, low v, high v]
            simp
          exact absurd same reduced.1
      | some value =>
          cases value with
          | false =>
              have nothing : hi.clauses = [] := by
                apply clauses_eq_nil
                intro v
                rw [← Bool.not_eq_true, high v]
                simp
              have inner (v) : lo.eval v = true ↔ later.Holds v := by simp [low v]
              rw [clauses, ihLo reduced.2.1 inner, nothing]
              rfl
          | true =>
              have nothing : lo.clauses = [] := by
                apply clauses_eq_nil
                intro v
                rw [← Bool.not_eq_true, low v]
                simp
              have inner (v) : hi.eval v = true ↔ later.Holds v := by simp [high v]
              rw [clauses, ihHi reduced.2.2 inner, nothing]
              rfl

end Tree

namespace Diagram

variable {n : Nat}

instance : PathLibrary n (Diagram n) where
  restrict a i value := ⟨a.tree.restrict i value, Tree.reduced_restrict a.reduced i value⟩
  exactCardinality a := a.tree.count
  satClauses a := a.tree.clauses
  eval_restrict a := Tree.eval_restrict a.tree
  exactCardinality_eq a := Tree.count_eq a.tree
  eval_iff_satClauses a := Tree.eval_iff_clauses a.tree
  satClauses_apart a := Tree.clauses_apart a.tree

theorem satClauses_of_cube {a : Diagram n} {cube : Clause n}
    (exact_ : ∀ v, Library.eval a v = true ↔ cube.Holds v) :
    PathLibrary.satClauses a = [cube] :=
  Tree.clauses_of_cube a.reduced exact_

end Diagram

end DecisionDiagram
