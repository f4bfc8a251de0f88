import Fwdelta.Engine.AddressText
import Fwdelta.Engine.Report
import Fwdelta.Ir.PrefixCover

/-
The terms of the machine-readable listing.

A dimension is printed as the texts of its blocks, ranges or interfaces, and a reader
gets blocks, ranges, numbers and deciders back.  An interface without a name is printed
as a placeholder with its index, and nothing tells a placeholder from a name that is
written like one.
-/

namespace Fwdelta.Cli

/-! ### Terms -/

/-- `None` means unconstrained. -/
def addrTerms (set : IntervalSet 32) : Option (List String) :=
  if set.isFull then none
  else some ((setToPrefixes set).map (fun block => Render.cidr block.1 block.2))

def rangeTerms {bits : Nat} (set : IntervalSet bits) : Option (List String) :=
  if set.isFull then none else some (set.ranges.map (Render.rangeText toString))

/-- How an index without a name is printed. -/
def placeholder (index : Nat) : String :=
  "if#" ++ toString index

def ifaceTerm (syms : SymbolTable) (v : Nat) : String :=
  match syms.nameOf v with
  | some name => name
  | none => placeholder v

def ifaceTerms (set : IntervalSet IF_BITS) (syms : SymbolTable) : Option (List String) :=
  if set.isFull then none else some (set.values.map (ifaceTerm syms))

/-! ### Terms are read back -/

def readNatural (text : String) : Option Nat :=
  Text.parseMagnitude text.toList

def readDecider (text : String) : Option Decider :=
  if text = "the default policy" then some .policy
  else
    match Text.splitOnce ' ' text with
    | some ("rule", number) => (readNatural number).map Decider.rule
    | _ => none

def readBlock (text : String) : Option (Nat × Nat) :=
  match Text.splitOnce '/' text with
  | none => (Render.readIpv4 text).map (fun base => (base.toNat, 32))
  | some (base, len) => do
      let base ← Render.readIpv4 base
      let len ← Text.parseUnsigned 32 len
      some (base.toNat, len)

def readRange (text : String) : Option Range :=
  match Text.splitOnce '-' text with
  | none => (readNatural text).map (fun v => (v, v))
  | some (lo, hi) => do
      let lo ← readNatural lo
      let hi ← readNatural hi
      some (lo, hi)

theorem readNatural_toString (n : Nat) : readNatural (toString n) = some n := by
  rw [readNatural, Text.toList_toString]
  exact Text.parseMagnitude_padded 0 n

theorem readNatural_twoDigits (n : Nat) : readNatural (Text.twoDigits n) = some n := by
  unfold Text.twoDigits
  split
  · rw [readNatural, String.toList_append, Text.toList_toString]
    exact Text.parseMagnitude_padded 1 n
  · exact readNatural_toString n

theorem readDecider_text (d : Decider) : readDecider d.text = some d := by
  cases d with
  | policy => rfl
  | rule number =>
      have cut : Text.splitOnce ' ' (Decider.rule number).text =
          some ("rule", Text.twoDigits number) := by
        rw [Decider.text, show "rule " = "rule" ++ String.singleton ' ' by decide]
        exact Text.splitOnce_append (by decide) _
      have other : (Decider.rule number).text ≠ "the default policy" := by
        intro same
        have front : (Text.splitOnce ' ' "the default policy").map Prod.fst = some "rule" := by
          rw [← same, cut]
          rfl
        exact absurd front (by decide)
      rw [readDecider, if_neg other, cut]
      exact congrArg (Option.map Decider.rule) (readNatural_twoDigits number)

theorem readBlock_cidr {block : Nat × Nat} (small : block.1 < 2 ^ 32) (short : block.2 ≤ 32) :
    readBlock (Render.cidr block.1 block.2) = some block := by
  have value : (BitVec.ofNat 32 block.1).toNat = block.1 := by
    rw [BitVec.toNat_ofNat, Nat.mod_eq_of_lt small]
  have noSlash : '/' ∉ (Render.ipv4 block.1).toList :=
    (Render.plain_ipv4 block.1).not_mem (by decide) (by decide)
  unfold Render.cidr
  split
  · next whole =>
      rw [readBlock, Text.splitOnce_eq_none noSlash]
      dsimp only
      rw [Render.readIpv4_ipv4, Option.map_some, value, ← whole]
  · rw [readBlock, show ("/" : String) = String.singleton '/' from rfl,
      Text.splitOnce_append noSlash]
    dsimp only
    rw [Render.readIpv4_ipv4, Text.parseUnsigned_toString short]
    simp only [Option.bind_eq_bind, Option.bind_some, value]

theorem noDash_toString (n : Nat) : '-' ∉ (toString n).toList := fun member =>
  absurd (Text.isDigit_of_mem_toString member) (by decide)

theorem readRange_rangeText (range : Range) :
    readRange (Render.rangeText toString range) = some range := by
  obtain ⟨lo, hi⟩ := range
  unfold Render.rangeText
  split
  · next same =>
      rw [readRange, Text.splitOnce_eq_none (noDash_toString lo)]
      dsimp only at same ⊢
      rw [readNatural_toString, Option.map_some, ← same]
  · rw [readRange, show ("-" : String) = String.singleton '-' from rfl,
      Text.splitOnce_append (noDash_toString lo)]
    dsimp only
    rw [readNatural_toString, readNatural_toString]
    rfl

/-! ### Placeholders -/

theorem placeholder_injective : Function.Injective placeholder := by
  intro v w same
  have digits : toString v = toString w := by
    have texts := congrArg String.toList same
    simp only [placeholder, String.toList_append, List.append_cancel_left_eq] at texts
    exact String.toList_inj.mp texts
  exact Text.toString_injective digits

/-- No name is written like the placeholder of an index of the header without one. -/
def Unmistakable (names : List String) : Prop :=
  ∀ index, names.length ≤ index → index ≤ domainMax IF_BITS → placeholder index ∉ names

theorem ifaceTerm_of_named {syms : SymbolTable} {v : Nat} {name : String}
    (named : syms.nameOf v = some name) : ifaceTerm syms v = name := by
  rw [ifaceTerm, named]

theorem ifaceTerm_of_unnamed {syms : SymbolTable} {v : Nat} (unnamed : syms.nameOf v = none) :
    ifaceTerm syms v = placeholder v := by
  rw [ifaceTerm, unnamed]

/-- A text is printed for a name exactly when it is in the table. -/
theorem ifaceTerm_mem_iff {syms : SymbolTable} (unmistakable : Unmistakable syms.names) {v : Nat}
    (within : v ≤ domainMax IF_BITS) :
    ifaceTerm syms v ∈ syms.names ↔ ∃ name, syms.nameOf v = some name := by
  cases named : syms.nameOf v with
  | some name =>
      rw [ifaceTerm_of_named named]
      exact iff_of_true (List.mem_of_getElem? named) ⟨name, rfl⟩
  | none =>
      rw [ifaceTerm_of_unnamed named]
      exact iff_of_false (unmistakable v (List.getElem?_eq_none_iff.mp named) within) nofun

/-- Interfaces are told apart by their texts. -/
theorem ifaceTerm_inj {syms : SymbolTable} (unmistakable : Unmistakable syms.names) {v w : Nat}
    (v_within : v ≤ domainMax IF_BITS) (w_within : w ≤ domainMax IF_BITS)
    (same : ifaceTerm syms v = ifaceTerm syms w) : v = w := by
  have listed := ifaceTerm_mem_iff unmistakable v_within
  rw [same, ifaceTerm_mem_iff unmistakable w_within] at listed
  cases named : syms.nameOf v with
  | some name =>
      obtain ⟨other, alsoNamed⟩ := listed.mpr ⟨name, named⟩
      rw [ifaceTerm_of_named named, ifaceTerm_of_named alsoNamed] at same
      rw [← same] at alsoNamed
      have first := SymbolTable.indexOf_eq_some.mpr named
      rw [SymbolTable.indexOf_eq_some.mpr alsoNamed] at first
      exact (Option.some.inj first).symm
  | none =>
      cases alsoNamed : syms.nameOf w with
      | some name =>
          obtain ⟨other, found⟩ := listed.mp ⟨name, alsoNamed⟩
          rw [named] at found
          contradiction
      | none =>
          rw [ifaceTerm_of_unnamed named, ifaceTerm_of_unnamed alsoNamed] at same
          exact placeholder_injective same

/-! ### What the terms denote -/

def Listed (denotes : String → Prop) (terms : Option (List String)) : Prop :=
  ∀ list, terms = some list → ∃ term ∈ list, denotes term

def InBlock (v : Nat) (text : String) : Prop :=
  ∃ block, readBlock text = some block ∧
    (blockRange 32 block).1 ≤ v ∧ v ≤ (blockRange 32 block).2

def InRange (v : Nat) (text : String) : Prop :=
  ∃ range, readRange text = some range ∧ range.1 ≤ v ∧ v ≤ range.2

/-- A text stands for every interface that is printed so. -/
def PrintedAs (syms : SymbolTable) (v : Nat) (text : String) : Prop :=
  ifaceTerm syms v = text

theorem listed_of_isFull {bits : Nat} {set : IntervalSet bits} {denotes : String → Prop}
    {terms : List String} {v : Nat} (within : v ≤ domainMax bits)
    (exact_ : (∃ term ∈ terms, denotes term) ↔ set.contains v = true) :
    Listed denotes (if set.isFull then none else some terms) ↔ set.contains v = true := by
  unfold Listed
  by_cases full : set.isFull = true
  · rw [if_pos full]
    exact iff_of_true (fun list given => by contradiction)
      ((set.isFull_iff.mp full) v within)
  · rw [if_neg full, ← exact_]
    simp

theorem listed_addrTerms (set : IntervalSet 32) {v : Nat} (within : v ≤ domainMax 32) :
    Listed (InBlock v) (addrTerms set) ↔ set.contains v = true := by
  apply listed_of_isFull within
  obtain ⟨blocks, covers⟩ := setToPrefixes_spec address_narrow set
  have reads (block : Nat × Nat) (member : block ∈ setToPrefixes set) :
      readBlock (Render.cidr block.1 block.2) = some block := by
    have aligned := blocks block member
    have positive := Nat.two_pow_pos (32 - block.2)
    have within := aligned.within
    exact readBlock_cidr (by omega) aligned.length_le
  rw [← covers v]
  simp only [Covers, List.mem_map, exists_exists_and_eq_and, InBlock]
  apply exists_congr
  intro block
  apply and_congr_right
  intro member
  rw [reads block member]
  simp

theorem listed_rangeTerms {bits : Nat} (set : IntervalSet bits) {v : Nat}
    (within : v ≤ domainMax bits) :
    Listed (InRange v) (rangeTerms set) ↔ set.contains v = true := by
  apply listed_of_isFull within
  rw [IntervalSet.contains_iff]
  simp [Covers, InRange, readRange_rangeText]

theorem mem_values {bits : Nat} (set : IntervalSet bits) (v : Nat) :
    v ∈ set.values ↔ set.contains v = true := by
  rw [IntervalSet.contains_iff, Covers]
  simp only [IntervalSet.values, List.mem_flatMap, List.mem_range'_1]
  apply exists_congr
  intro range
  apply and_congr_right
  intro _
  omega

/-- The texts of a set of interfaces stand for those that are printed like a member. -/
theorem listed_ifaceTerms (set : IntervalSet IF_BITS) (syms : SymbolTable) {v : Nat}
    (within : v ≤ domainMax IF_BITS) :
    Listed (PrintedAs syms v) (ifaceTerms set syms) ↔
      ∃ w, set.contains w = true ∧ ifaceTerm syms w = ifaceTerm syms v := by
  unfold Listed ifaceTerms
  by_cases full : set.isFull = true
  · rw [if_pos full]
    exact iff_of_true (fun list given => by contradiction)
      ⟨v, (set.isFull_iff.mp full) v within, rfl⟩
  · rw [if_neg full]
    simp [PrintedAs, mem_values]

theorem listed_ifaceTerms_of_unmistakable (set : IntervalSet IF_BITS) {syms : SymbolTable}
    (unmistakable : Unmistakable syms.names) {v : Nat} (within : v ≤ domainMax IF_BITS) :
    Listed (PrintedAs syms v) (ifaceTerms set syms) ↔ set.contains v = true := by
  rw [listed_ifaceTerms set syms within]
  constructor
  · rintro ⟨w, inside, same⟩
    rwa [← ifaceTerm_inj unmistakable (IntervalSet.contains_le inside) within same]
  · exact fun inside => ⟨v, inside, rfl⟩

end Fwdelta.Cli
