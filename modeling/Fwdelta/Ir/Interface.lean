import Fwdelta.Ir.Intervals
import Mathlib.Data.Finset.Sort
import Mathlib.Data.String.Basic

/-
Symbolic interface identity.

Names get indices, and an interface match becomes an equality test on an 8-bit
dimension.  An unconstrained match denotes all 256 symbol values, so interfaces
that no file names are the unnamed indices.  The ordered sets of names of the
source are finite sets here: equal exactly when they have the same members.
-/

namespace Fwdelta

def MAX_INTERFACES : Nat := 256

def IF_BITS : Nat := 8

/-- The names of a set in the order the source iterates over them. -/
def sortNames (names : Finset String) : List String :=
  names.sort (· ≤ ·)

@[simp] theorem mem_sortNames {names : Finset String} {name : String} :
    name ∈ sortNames names ↔ name ∈ names :=
  Finset.mem_sort _

@[simp] theorem length_sortNames (names : Finset String) :
    (sortNames names).length = names.card :=
  Finset.length_sort _

/-- Interface names mapped to dimension values, in sorted name order. -/
structure SymbolTable where
  names : List String
  sorted : names.Pairwise (· < ·)
  capacity : names.length ≤ MAX_INTERFACES

structure TooManyInterfaces where
  found : Nat
  deriving DecidableEq, Repr

def TooManyInterfaces.message (error : TooManyInterfaces) : String :=
  s!"{error.found} distinct interface names across the two rulesets, limit is {MAX_INTERFACES}"

namespace SymbolTable

theorem sortNames_pairwise_lt (names : Finset String) :
    (sortNames names).Pairwise (· < ·) := by
  have sorted := Finset.pairwise_sort names (· ≤ ·)
  have distinct := Finset.sort_nodup names (· ≤ ·)
  exact (sorted.and distinct).imp
    (fun both => lt_of_le_of_ne both.1 both.2)

def empty : SymbolTable where
  names := []
  sorted := List.Pairwise.nil
  capacity := Nat.zero_le _

def fromNames (names : List String) : Except TooManyInterfaces SymbolTable :=
  let set := names.toFinset
  if small : set.card > MAX_INTERFACES then
    .error { found := set.card }
  else
    .ok {
      names := sortNames set
      sorted := sortNames_pairwise_lt set
      capacity := by rw [length_sortNames]; omega }

theorem exists_fromNames {names : List String} (few : names.toFinset.card ≤ MAX_INTERFACES) :
    ∃ syms, fromNames names = .ok syms := by
  unfold fromNames
  simp only
  rw [dif_neg (by omega)]
  exact ⟨_, rfl⟩

/-- The index of a name.  Names are sorted and distinct, so the binary search
of the source finds the one position that holds it. -/
def indexOf (syms : SymbolTable) (name : String) : Option Nat :=
  syms.names.findIdx? (· == name)

def nameOf (syms : SymbolTable) (index : Nat) : Option String :=
  syms.names[index]?

theorem names_nodup (syms : SymbolTable) : syms.names.Nodup :=
  syms.sorted.imp (fun below => below.ne)

theorem indexOf_eq_some {syms : SymbolTable} {name : String} {index : Nat} :
    syms.indexOf name = some index ↔ syms.nameOf index = some name := by
  unfold indexOf nameOf
  rw [List.findIdx?_eq_some_iff_getElem]
  constructor
  · intro given
    rcases given with ⟨bound, found, _⟩
    rw [List.getElem?_eq_getElem bound, beq_iff_eq.mp found]
  · intro named
    obtain ⟨bound, found⟩ := List.getElem?_eq_some_iff.mp named
    refine ⟨bound, beq_iff_eq.mpr found, fun earlier before => ?_⟩
    rw [beq_iff_eq, ← found]
    intro same
    have := (syms.names_nodup.getElem_inj_iff).mp same
    omega

theorem nameOf_lt {syms : SymbolTable} {index : Nat} {name : String}
    (named : syms.nameOf index = some name) : index < MAX_INTERFACES := by
  obtain ⟨bound, _⟩ := List.getElem?_eq_some_iff.mp named
  exact bound.trans_le syms.capacity

theorem indexOf_le {syms : SymbolTable} {name : String} {index : Nat}
    (found : syms.indexOf name = some index) : index ≤ domainMax IF_BITS := by
  have bound := nameOf_lt (indexOf_eq_some.mp found)
  have top : domainMax IF_BITS = 255 := by decide
  unfold MAX_INTERFACES at bound
  omega

theorem mem_of_fromNames {names : List String} {syms : SymbolTable}
    (built : fromNames names = .ok syms) (name : String) :
    name ∈ syms.names ↔ name ∈ names := by
  unfold fromNames at built
  simp only at built
  split at built
  · contradiction
  · injection built with built
    subst built
    simp

theorem length_of_fromNames {names : List String} {syms : SymbolTable}
    (built : fromNames names = .ok syms) : syms.names.length = names.toFinset.card := by
  unfold fromNames at built
  simp only at built
  split at built
  · contradiction
  · injection built with built
    rw [← built]
    exact length_sortNames names.toFinset

end SymbolTable

inductive IfMatch
  | any
  | oneOf (names : Finset String)
  | noneOf (names : Finset String)
  deriving DecidableEq

namespace IfMatch

def one (name : String) : IfMatch :=
  .oneOf {name}

def names : IfMatch → Finset String
  | .any => ∅
  | .oneOf names | .noneOf names => names

/-- The indices of the names that are in the table. -/
def resolveNames (syms : SymbolTable) (names : List String) : IntervalSet IF_BITS :=
  names.foldl
    (fun acc name =>
      match found : syms.indexOf name with
      | some index =>
          acc.union (IntervalSet.point IF_BITS index (SymbolTable.indexOf_le found))
      | none => acc)
    (IntervalSet.empty IF_BITS)

def resolve (syms : SymbolTable) : IfMatch → IntervalSet IF_BITS
  | .any => IntervalSet.full IF_BITS
  | .oneOf names => resolveNames syms (sortNames names)
  | .noneOf names => (resolveNames syms (sortNames names)).complement

def Admits : IfMatch → String → Prop
  | .any, _ => True
  | .oneOf names, name => name ∈ names
  | .noneOf names, name => name ∉ names

instance (ifMatch : IfMatch) (name : String) : Decidable (ifMatch.Admits name) :=
  match ifMatch with
  | .any => inferInstanceAs (Decidable True)
  | .oneOf names => inferInstanceAs (Decidable (name ∈ names))
  | .noneOf names => inferInstanceAs (Decidable (name ∉ names))

private theorem contains_resolve_step (syms : SymbolTable) (name : String)
    (acc : IntervalSet IF_BITS) (index : Nat) :
    (match found : syms.indexOf name with
      | some position =>
          acc.union (IntervalSet.point IF_BITS position (SymbolTable.indexOf_le found))
      | none => acc).contains index = true ↔
      acc.contains index = true ∨ syms.nameOf index = some name := by
  split
  · next position found =>
      rw [IntervalSet.contains_union, Bool.or_eq_true, IntervalSet.contains_point,
        ← SymbolTable.indexOf_eq_some, found, Option.some.injEq, eq_comm (a := position)]
  · next absent =>
      rw [← SymbolTable.indexOf_eq_some, absent]
      simp

private theorem contains_foldl_resolve (syms : SymbolTable) (names : List String)
    (start : IntervalSet IF_BITS) (index : Nat) :
    (names.foldl
      (fun acc name =>
        match found : syms.indexOf name with
        | some index =>
            acc.union (IntervalSet.point IF_BITS index (SymbolTable.indexOf_le found))
        | none => acc) start).contains index = true ↔
      start.contains index = true ∨
        ∃ name ∈ names, syms.nameOf index = some name := by
  induction names generalizing start with
  | nil => simp
  | cons name rest ih =>
      rw [List.foldl_cons, ih, contains_resolve_step, or_assoc, List.exists_mem_cons_iff]

theorem contains_resolveNames (syms : SymbolTable) (names : List String) (index : Nat) :
    (resolveNames syms names).contains index = true ↔
      ∃ name ∈ names, syms.nameOf index = some name := by
  unfold resolveNames
  rw [contains_foldl_resolve]
  simp

theorem contains_resolve_of_named (syms : SymbolTable) (ifMatch : IfMatch)
    {index : Nat} {name : String} (named : syms.nameOf index = some name) :
    (ifMatch.resolve syms).contains index = true ↔ ifMatch.Admits name := by
  have within : index ≤ domainMax IF_BITS :=
    SymbolTable.indexOf_le (SymbolTable.indexOf_eq_some.mpr named)
  cases ifMatch with
  | any => simp [resolve, Admits, within]
  | oneOf names =>
      simp only [resolve, Admits, contains_resolveNames, named, mem_sortNames]
      simp
  | noneOf names =>
      simp only [resolve, Admits, IntervalSet.contains_complement, within, true_and]
      rw [← Bool.not_eq_true, contains_resolveNames, named]
      simp

/-- An index without a name stands for the interfaces outside the table. -/
theorem contains_resolve_of_unnamed (syms : SymbolTable) (ifMatch : IfMatch) {index : Nat}
    {name : String} (unnamed : syms.nameOf index = none) (within : index ≤ domainMax IF_BITS)
    (known : ∀ n ∈ ifMatch.names, n ∈ syms.names) (absent : name ∉ syms.names) :
    (ifMatch.resolve syms).contains index = true ↔ ifMatch.Admits name := by
  cases ifMatch with
  | any => simp [resolve, Admits, within]
  | oneOf names =>
      have outside : name ∉ names := fun member => absent (known name member)
      simp [resolve, Admits, contains_resolveNames, unnamed, outside]
  | noneOf names =>
      have outside : name ∉ names := fun member => absent (known name member)
      simp only [resolve, Admits, IntervalSet.contains_complement, within, true_and]
      rw [← Bool.not_eq_true, contains_resolveNames, unnamed]
      simp [outside]

/-- An index that an interface can be represented by. -/
def Represents (syms : SymbolTable) (name : String) (index : Nat) : Prop :=
  index ≤ domainMax IF_BITS ∧ ∀ m : IfMatch, (∀ n ∈ m.names, n ∈ syms.names) →
    ((m.resolve syms).contains index = true ↔ m.Admits name)

/-- Once every index has a name, the match that admits none of the names admits
an interface outside the table and holds no index. -/
theorem room_of_represents {names : List String} {syms : SymbolTable}
    (built : SymbolTable.fromNames names = .ok syms) {name : String} {index : Nat}
    (represents : Represents syms name index) (absent : name ∉ syms.names) :
    names.toFinset.card < MAX_INTERFACES := by
  have count : syms.names.length = names.toFinset.card := SymbolTable.length_of_fromNames built
  obtain ⟨within, exact_⟩ := represents
  by_contra full
  have top : domainMax IF_BITS = 255 := by decide
  unfold MAX_INTERFACES at full
  have bound : index < syms.names.length := by omega
  have others := exact_ (.noneOf syms.names.toFinset) (fun n member => List.mem_toFinset.mp member)
  have admitted : (IfMatch.noneOf syms.names.toFinset).Admits name := by
    simpa [Admits] using absent
  have named : syms.nameOf index = some syms.names[index] := List.getElem?_eq_getElem bound
  have refused := (contains_resolve_of_named syms _ named).mp (others.mpr admitted)
  exact refused (List.mem_toFinset.mpr (List.getElem_mem bound))

/-- An interface is representable exactly when the table names it, or leaves an
index without a name. -/
theorem exists_represents_iff {names : List String} {syms : SymbolTable}
    (built : SymbolTable.fromNames names = .ok syms) (name : String) :
    (∃ index, Represents syms name index) ↔
      name ∈ syms.names ∨ names.toFinset.card < MAX_INTERFACES := by
  have count : syms.names.length = names.toFinset.card := SymbolTable.length_of_fromNames built
  by_cases listed : name ∈ syms.names
  · obtain ⟨index, bound, found⟩ := List.mem_iff_getElem.mp listed
    have named : syms.nameOf index = some name := by
      rw [← found]
      exact List.getElem?_eq_getElem bound
    refine iff_of_true ⟨index, ?_, ?_⟩ (Or.inl listed)
    · exact SymbolTable.indexOf_le (SymbolTable.indexOf_eq_some.mpr named)
    · exact fun m _ => contains_resolve_of_named syms m named
  · constructor
    · intro representable
      obtain ⟨index, represents⟩ := representable
      exact Or.inr (room_of_represents built represents listed)
    · intro room
      have few := room.resolve_left listed
      have top : domainMax IF_BITS = 255 := by decide
      unfold MAX_INTERFACES at few
      have within : syms.names.length ≤ domainMax IF_BITS := by omega
      have unnamed : syms.nameOf syms.names.length = none := by
        simp [SymbolTable.nameOf]
      exact ⟨syms.names.length, within,
        fun m known => contains_resolve_of_unnamed syms m unnamed within known listed⟩

/-- A table of two names represents an interface that it does not name. -/
theorem exists_represents_of_two : ∃ syms, SymbolTable.fromNames ["eth0", "lo"] = .ok syms ∧
    ∃ index, Represents syms "wlan0" index := by
  obtain ⟨syms, built⟩ := @SymbolTable.exists_fromNames ["eth0", "lo"] (by decide)
  exact ⟨syms, built, (exists_represents_iff built "wlan0").mpr (Or.inr (by decide))⟩

/-- `eth0` to `eth255`. -/
def everyIndexNamed : List String :=
  (List.range 256).map (fun i => "eth" ++ toString i)

theorem card_everyIndexNamed : everyIndexNamed.toFinset.card = MAX_INTERFACES := by
  have distinct : everyIndexNamed.Nodup := by
    apply List.Nodup.map _ List.nodup_range
    intro i j same
    have digits := (String.append_right_inj "eth").mp same
    have numbers := congrArg (fun text => Nat.ofDigitChars 10 text.toList 0) digits
    simpa [Nat.toString_eq_repr, Nat.toList_repr] using numbers
  rw [List.toFinset_card_of_nodup distinct, everyIndexNamed, List.length_map, List.length_range]
  rfl

/-- A table of 256 names is accepted, and leaves no index for `wlan0`. -/
theorem not_represents_when_every_index_named : ∃ syms,
    SymbolTable.fromNames everyIndexNamed = .ok syms ∧
      ¬ ∃ index, index ≤ 255 ∧ ∀ m : IfMatch, (∀ n ∈ m.names, n ∈ syms.names) →
        ((m.resolve syms).contains index = true ↔ m.Admits "wlan0") := by
  have few : everyIndexNamed.toFinset.card ≤ MAX_INTERFACES := card_everyIndexNamed.le
  obtain ⟨syms, built⟩ := SymbolTable.exists_fromNames few
  refine ⟨syms, built, ?_⟩
  intro representable
  obtain ⟨index, within, exact_⟩ := representable
  have absent : "wlan0" ∉ syms.names := by
    rw [SymbolTable.mem_of_fromNames built]
    intro listed
    obtain ⟨i, _, same⟩ := List.mem_map.mp listed
    have first := congrArg (fun text : String => text.toList.head?) same
    simp at first
  have top : domainMax IF_BITS = 255 := by decide
  have room := room_of_represents built ⟨within.trans_eq top.symm, exact_⟩ absent
  rw [card_everyIndexNamed] at room
  exact absurd room (lt_irrefl _)

end IfMatch

end Fwdelta
