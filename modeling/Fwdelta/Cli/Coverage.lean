import Fwdelta.Cli.Diff
import Fwdelta.Matching
import Fwdelta.Nft.Parse

/-
What the comparison covers.

Chains are looked up by name, and a lookup finds the first chain of that name.
So a chain may be left out without a word when its name occurs more than once,
a move to another hook is not seen at all, and assertions are only checked
against the chains of the head that the base has too.  Each theorem gives the
exact condition under which the comparison is complete in its respect.
-/

namespace Fwdelta.Cli

open DecisionDiagram
open DecisionDiagram.Library

/-! ### Chains by position -/

/-- The position a lookup by name ends at. -/
def position (rs : Ruleset) (name : String) : Option Nat :=
  rs.chains.findIdx? (fun c => c.name == name)

theorem chain_eq_getElem? (rs : Ruleset) (name : String) :
    rs.chain name = (position rs name).bind (fun i => rs.chains[i]?) :=
  List.find?_eq_bind_findIdx?_getElem?

def OccursOnce (rs : Ruleset) (name : String) : Prop :=
  ∀ (i j : Nat) (c d : Chain), rs.chains[i]? = some c → rs.chains[j]? = some d →
    c.name = name → d.name = name →
    i = j

theorem position_spec {rs : Ruleset} {name : String} {i : Nat} (found : position rs name = some i) :
    ∃ c, rs.chains[i]? = some c ∧ c.name = name ∧ rs.chain name = some c := by
  obtain ⟨bound, same, _⟩ := List.findIdx?_eq_some_iff_getElem.mp found
  have at_ := List.getElem?_eq_getElem bound
  refine ⟨rs.chains[i], at_, beq_iff_eq.mp same, ?_⟩
  rw [chain_eq_getElem?, found, Option.bind_some, at_]

theorem exists_position {rs : Ruleset} {name : String} {i : Nat} {c : Chain}
    (at_ : rs.chains[i]? = some c) (named : c.name = name) : ∃ j, position rs name = some j := by
  obtain ⟨bound, rfl⟩ := List.getElem?_eq_some_iff.mp at_
  refine Option.isSome_iff_exists.mp (List.findIdx?_isSome.trans ?_)
  exact List.any_eq_true.mpr ⟨_, List.getElem_mem bound, beq_iff_eq.mpr named⟩

/-! ### What the lists of a run hold -/

theorem removedText_injective : Function.Injective removedText := by
  intro name name' same
  have lists := congrArg String.toList same
  exact String.toList_inj.mp (by simpa [removedText] using lists)

theorem addedText_injective : Function.Injective addedText := by
  intro name name' same
  have lists := congrArg String.toList same
  exact String.toList_inj.mp (by simpa [addedText] using lists)

/-- The two texts differ in the third character from the end. -/
theorem removedText_ne_addedText (name name' : String) : removedText name ≠ addedText name' := by
  intro same
  have lists := congrArg (fun text => text.toList.reverse) same
  simp [removedText, addedText] at lists

def NamedIn (unmatched : List String) (name : String) : Prop :=
  removedText name ∈ unmatched ∨ addedText name ∈ unmatched

theorem unmatchedOf_eq_some_iff {base head : Ruleset} {name text : String} :
    unmatchedOf base head name = some text ↔
      (name ∈ base.chains.map Chain.name ∧ name ∉ head.chains.map Chain.name ∧
        text = removedText name) ∨
      (name ∉ base.chains.map Chain.name ∧ name ∈ head.chains.map Chain.name ∧
        text = addedText name) := by
  rw [← chain_isSome_iff, ← chain_isSome_iff, unmatchedOf]
  cases base.chain name <;> cases head.chain name <;> simp [eq_comm]

section Run

variable {B : Type} [Library HEADER_BITS B] [ContentHasher]
variable {base head : Ruleset} {policy : Option Policy} {out : Comparison B}

theorem namedIn_iff (of : out.Of base head policy) (name : String) :
    NamedIn out.unmatched name ↔
      (name ∈ base.chains.map Chain.name ∧ name ∉ head.chains.map Chain.name) ∨
        (name ∉ base.chains.map Chain.name ∧ name ∈ head.chains.map Chain.name) := by
  have listed {text : String} : text ∈ out.unmatched ↔
      ∃ other ∈ chainNames base head, unmatchedOf base head other = some text := by
    rw [of.unmatched, List.mem_filterMap]
  unfold NamedIn
  rw [listed, listed]
  constructor
  · intro either
    rcases either with ⟨other, _, entry⟩ | ⟨other, _, entry⟩
    · rcases unmatchedOf_eq_some_iff.mp entry with ⟨inBase, notHead, same⟩ | ⟨_, _, same⟩
      · rw [removedText_injective same]
        exact Or.inl ⟨inBase, notHead⟩
      · exact absurd same (removedText_ne_addedText name other)
    · rcases unmatchedOf_eq_some_iff.mp entry with ⟨_, _, same⟩ | ⟨notBase, inHead, same⟩
      · exact absurd same.symm (removedText_ne_addedText other name)
      · rw [addedText_injective same]
        exact Or.inr ⟨notBase, inHead⟩
  · intro either
    rcases either with ⟨inBase, notHead⟩ | ⟨notBase, inHead⟩
    · exact Or.inl ⟨name, mem_chainNames.mpr (Or.inl inBase),
        unmatchedOf_eq_some_iff.mpr (Or.inl ⟨inBase, notHead, rfl⟩)⟩
    · exact Or.inr ⟨name, mem_chainNames.mpr (Or.inr inHead),
        unmatchedOf_eq_some_iff.mpr (Or.inr ⟨notBase, inHead, rfl⟩)⟩

theorem sectionOf_eq_some_iff {layout : Layout} {syms : SymbolTable} {name : String}
    {s : Section B} :
    sectionOf layout syms base head name = some s ↔ ∃ b h, base.chain name = some b ∧
      head.chain name = some h ∧ s = ⟨name, analyse layout syms b, analyse layout syms h,
        diff (analyse layout syms b) (analyse layout syms h)⟩ := by
  unfold sectionOf
  cases base.chain name <;> cases head.chain name <;> simp [eq_comm]

theorem mem_sections (of : out.Of base head policy) {s : Section B} :
    s ∈ out.sections ↔ ∃ b h, base.chain s.name = some b ∧ head.chain s.name = some h ∧
      s = ⟨s.name, analyse layout out.syms b, analyse layout out.syms h,
        diff (analyse layout out.syms b) (analyse layout out.syms h)⟩ := by
  rw [of.sections, List.mem_filterMap]
  constructor
  · intro given
    rcases given with ⟨name, _, made⟩
    obtain ⟨b, h, baseHas, headHas, rfl⟩ := sectionOf_eq_some_iff.mp made
    exact ⟨b, h, baseHas, headHas, rfl⟩
  · intro given
    rcases given with ⟨b, h, baseHas, headHas, same⟩
    refine ⟨s.name, mem_chainNames.mpr (Or.inl ?_),
      sectionOf_eq_some_iff.mpr ⟨b, h, baseHas, headHas, same⟩⟩
    rw [← chain_isSome_iff, baseHas]
    rfl

theorem sections_names (of : out.Of base head policy) :
    out.sections.map Section.name = (chainNames base head).filter (fun name =>
      (base.chain name).isSome && (head.chain name).isSome) := by
  rw [of.sections]
  induction chainNames base head with
  | nil => rfl
  | cons name rest ih =>
      rw [List.filterMap_cons, List.filter_cons, sectionOf]
      cases base.chain name <;> cases head.chain name <;> simp [ih]

theorem sections_names_nodup (of : out.Of base head policy) :
    (out.sections.map Section.name).Nodup := by
  rw [sections_names of]
  exact (chainNames_nodup base head).filter _

/-! ### Chains left out -/

def Section.IsModelOf (s : Section B) (syms : SymbolTable) (rs : Ruleset)
    (side : Section B → ChainModel B) (i : Nat) : Prop :=
  position rs s.name = some i ∧ ∃ c, rs.chains[i]? = some c ∧ side s = analyse layout syms c

/-- One model of the section at `k` is that of the chain at `i`. -/
def Comparison.Compares (out : Comparison B) (rs : Ruleset) (side : Section B → ChainModel B)
    (i k : Nat) : Prop :=
  ∃ s, out.sections[k]? = some s ∧ s.IsModelOf out.syms rs side i

/-- Each chain of the ruleset is a model of exactly one section, or named as
unmatched. -/
def Comparison.Accounts (out : Comparison B) (rs : Ruleset) (side : Section B → ChainModel B) :
    Prop :=
  ∀ (i : Nat) (c : Chain), rs.chains[i]? = some c →
    (∃! k, out.Compares rs side i k) ∨ NamedIn out.unmatched c.name

/-- A chain is a model of one section when a lookup of its name ends at it and
both rulesets have the name. -/
theorem existsUnique_section_iff (of : out.Of base head policy) {rs : Ruleset}
    {side : Section B → ChainModel B} (isSide : ∀ s ∈ out.sections, ∃ c,
      rs.chain s.name = some c ∧ side s = analyse layout out.syms c)
    {i : Nat} {c : Chain} (at_ : rs.chains[i]? = some c) :
    (∃! k, out.Compares rs side i k) ↔
      position rs c.name = some i ∧ c.name ∈ out.sections.map Section.name := by
  have nameOf {s : Section B} (found : position rs s.name = some i) : c.name = s.name := by
    obtain ⟨d, atD, named, _⟩ := position_spec found
    rw [at_, Option.some.injEq] at atD
    rw [atD, named]
  constructor
  · intro given
    rcases given with ⟨k, ⟨s, atK, found, _⟩, _⟩
    rw [nameOf found]
    exact ⟨found, List.mem_map_of_mem (List.mem_of_getElem? atK)⟩
  · intro both
    rcases both with ⟨found, listed⟩
    obtain ⟨s, member, named⟩ := List.mem_map.mp listed
    obtain ⟨k, atK⟩ := List.getElem?_of_mem member
    obtain ⟨d, looked, model⟩ := isSide s member
    have same : d = c := by
      rw [named, chain_eq_getElem?, found, Option.bind_some, at_, Option.some.injEq] at looked
      exact looked.symm
    refine ⟨k, ⟨s, atK, named ▸ found, c, at_, same ▸ model⟩, ?_⟩
    rintro k' ⟨s', atK', found', _⟩
    -- Two sections of one name are one section.
    have names (j : Nat) (t : Section B) (atJ : out.sections[j]? = some t) :
        (out.sections.map Section.name)[j]? = some t.name := by
      rw [List.getElem?_map, atJ]
      rfl
    have first := names k s atK
    have second := names k' s' atK'
    rw [named] at first
    rw [← nameOf found'] at second
    obtain ⟨bound, _⟩ := List.getElem?_eq_some_iff.mp second
    exact List.getElem?_inj bound (sections_names_nodup of) |>.mp (second.trans first.symm)

/-- One side is accounted for when no name that the other side has too occurs
twice on it. -/
theorem accounts_iff (of : out.Of base head policy) {rs other : Ruleset}
    {side : Section B → ChainModel B} (isSide : ∀ s ∈ out.sections, ∃ c,
      rs.chain s.name = some c ∧ side s = analyse layout out.syms c)
    (listed : ∀ name, name ∈ out.sections.map Section.name ↔
      name ∈ rs.chains.map Chain.name ∧ name ∈ other.chains.map Chain.name)
    (entered : ∀ name ∈ rs.chains.map Chain.name,
      (NamedIn out.unmatched name ↔ name ∉ other.chains.map Chain.name)) :
    out.Accounts rs side ↔ ∀ name ∈ rs.chains.map Chain.name,
      name ∈ other.chains.map Chain.name → OccursOnce rs name := by
  have member {i : Nat} {c : Chain} (at_ : rs.chains[i]? = some c) :
      c.name ∈ rs.chains.map Chain.name := List.mem_map_of_mem (List.mem_of_getElem? at_)
  constructor
  · intro accounts name _ inOther i j c d atI atJ namedC namedD
    -- Both positions are the one the lookup ends at.
    have looked {k : Nat} {e : Chain} (atK : rs.chains[k]? = some e) (namedE : e.name = name) :
        position rs name = some k := by
      rcases accounts k e atK with once | entry
      · rw [← namedE]
        exact ((existsUnique_section_iff of isSide atK).mp once).1
      · rw [entered _ (member atK), namedE] at entry
        exact absurd inOther entry
    have same := (looked atI namedC).symm.trans (looked atJ namedD)
    exact Option.some.inj same
  · intro once i c at_
    by_cases inOther : c.name ∈ other.chains.map Chain.name
    · refine Or.inl ((existsUnique_section_iff of isSide at_).mpr ⟨?_, ?_⟩)
      · obtain ⟨j, found⟩ := exists_position at_ rfl
        obtain ⟨d, atJ, named, _⟩ := position_spec found
        rw [found, once c.name (member at_) inOther i j c d at_ atJ rfl named]
      · exact (listed c.name).mpr ⟨member at_, inOther⟩
    · exact Or.inr ((entered c.name (member at_)).mpr inOther)

theorem mem_sections_names (of : out.Of base head policy) (name : String) :
    name ∈ out.sections.map Section.name ↔
      name ∈ base.chains.map Chain.name ∧ name ∈ head.chains.map Chain.name := by
  rw [sections_names of, List.mem_filter, Bool.and_eq_true, chain_isSome_iff, chain_isSome_iff,
    mem_chainNames]
  tauto

theorem base_accounts_iff (of : out.Of base head policy) :
    out.Accounts base Section.base ↔ ∀ name ∈ base.chains.map Chain.name,
      name ∈ head.chains.map Chain.name → OccursOnce base name := by
  refine accounts_iff of ?_ (mem_sections_names of) ?_
  · intro s member
    obtain ⟨b, h, baseHas, _, same⟩ := (mem_sections of).mp member
    exact ⟨b, baseHas, congrArg Section.base same⟩
  · intro name inBase
    rw [namedIn_iff of]
    tauto

theorem head_accounts_iff (of : out.Of base head policy) :
    out.Accounts head Section.head ↔ ∀ name ∈ head.chains.map Chain.name,
      name ∈ base.chains.map Chain.name → OccursOnce head name := by
  refine accounts_iff of ?_ (fun name => (mem_sections_names of name).trans and_comm) ?_
  · intro s member
    obtain ⟨b, h, _, headHas, same⟩ := (mem_sections of).mp member
    exact ⟨h, headHas, congrArg Section.head same⟩
  · intro name inHead
    rw [namedIn_iff of]
    tauto

/-- Over all chains, every chain of both rulesets is compared once or named as
unmatched exactly when each name that both rulesets have occurs once in each. -/
theorem every_chain_accounted_iff {o : Options} (all : o.chain = none)
    (ran : cmdDiff o base head policy = .ok out) :
    (out.Accounts base Section.base ∧ out.Accounts head Section.head) ↔
      ∀ name, name ∈ base.chains.map Chain.name → name ∈ head.chains.map Chain.name →
        OccursOnce base name ∧ OccursOnce head name := by
  have of := cmdDiff_spec ran all
  rw [base_accounts_iff of, head_accounts_iff of]
  constructor
  · rintro ⟨baseOnce, headOnce⟩ name inBase inHead
    exact ⟨baseOnce name inBase inHead, headOnce name inHead inBase⟩
  · intro once
    exact ⟨fun name inBase inHead => (once name inBase inHead).1,
      fun name inHead inBase => (once name inBase inHead).2⟩

end Run

theorem single_chain_accounted : letI : ContentHasher := ⟨fun _ _ => 0⟩
    ∃ out : Comparison (Diagram HEADER_BITS),
      cmdDiff plain (bare [("c", .input, .drop)]) (bare [("c", .input, .accept)]) none = .ok out ∧
        out.Accounts (bare [("c", .input, .drop)]) Section.base ∧
          out.Accounts (bare [("c", .input, .accept)]) Section.head := by
  let _ : ContentHasher := ⟨fun _ _ => 0⟩
  obtain ⟨out, ran⟩ := bare_ran (B := Diagram HEADER_BITS) [("c", .input, .drop)]
    [("c", .input, .accept)]
  have one (policy : Action) (name : String) : OccursOnce (bare [("c", .input, policy)]) name := by
    intro i j c d atI atJ _ _
    have boundI := (List.getElem?_eq_some_iff.mp atI).1
    have boundJ := (List.getElem?_eq_some_iff.mp atJ).1
    simp only [bare, List.map_cons, List.map_nil, List.length_singleton] at boundI boundJ
    omega
  exact ⟨out, ran, (every_chain_accounted_iff rfl ran).mpr fun name _ _ => ⟨one _ name, one _ name⟩⟩

/-- Two tables may hold a chain of one name.  The second chain of the head drops
everything in the base and accepts everything in the head, and is left out. -/
theorem second_chain_left_out : letI : ContentHasher := ⟨fun _ _ => 0⟩
    let base := bare [("c", .input, .drop), ("c", .input, .drop)]
    let head := bare [("c", .input, .drop), ("c", .input, .accept)]
    Nft.parse "f" (bareSource "t" "c" "input" "drop" ++ bareSource "u" "c" "input" "drop") =
      .ok base ∧
    Nft.parse "f" (bareSource "t" "c" "input" "drop" ++ bareSource "u" "c" "input" "accept") =
      .ok head ∧
    ∃ out : Comparison (Diagram HEADER_BITS), cmdDiff plain base head none = .ok out ∧
      ¬ (out.Accounts base Section.base ∧ out.Accounts head Section.head) := by
  let _ : ContentHasher := ⟨fun _ _ => 0⟩
  obtain ⟨out, ran⟩ := bare_ran (B := Diagram HEADER_BITS)
    [("c", .input, .drop), ("c", .input, .drop)] [("c", .input, .drop), ("c", .input, .accept)]
  refine ⟨by decide +kernel, by decide +kernel, out, ran, ?_⟩
  intro both
  rcases both with ⟨_, accounts⟩
  have once := (head_accounts_iff (cmdDiff_spec ran rfl)).mp accounts "c" (by decide) (by decide)
  exact absurd (once 0 1 _ _ rfl rfl rfl rfl) (by decide)

/-! ### What an empty report means -/

def attached (rs : Ruleset) (hook : Hook) : List Chain :=
  rs.chains.filter (fun c => c.hook = hook)

def hookOf (rs : Ruleset) (name : String) : Option Hook :=
  (rs.chain name).map Chain.hook

/-- The chains at a hook that the other revision has at the same hook. -/
def staying (rs other : Ruleset) (hook : Hook) : List Chain :=
  (attached rs hook).filter (fun c => hookOf other c.name = some hook)

/-- The chains at a hook that the other revision has at another one. -/
def moved (rs other : Ruleset) (hook : Hook) : List Chain :=
  (attached rs hook).filter (fun c => hookOf other c.name ≠ some hook)

def PermittedByAll (syms : SymbolTable) (chains : List Chain) (p : Packet) : Prop :=
  ∀ c ∈ chains, (c.verdict syms p).permits = true

theorem permittedByAll_attached (syms : SymbolTable) (rs other : Ruleset) (hook : Hook)
    (p : Packet) : PermittedByAll syms (attached rs hook) p ↔
      PermittedByAll syms (staying rs other hook) p ∧
        PermittedByAll syms (moved rs other hook) p := by
  simp only [PermittedByAll, staying, moved, List.mem_filter, decide_eq_true_eq]
  constructor
  · intro all
    exact ⟨fun c member => all c member.1, fun c member => all c member.1⟩
  · rintro ⟨stay, move⟩ c member
    by_cases same : hookOf other c.name = some hook
    · exact stay c ⟨member, same⟩
    · exact move c ⟨member, same⟩

theorem chain_of_mem {rs : Ruleset} (unique : (rs.chains.map Chain.name).Nodup) {c : Chain}
    (member : c ∈ rs.chains) : rs.chain c.name = some c :=
  Matching.find?_key unique member

section EmptyReport

variable {B : Type} [Library HEADER_BITS B] [ContentHasher]
variable {base head : Ruleset} {policy : Option Policy} {out : Comparison B}

omit [ContentHasher] in
/-- Both deltas of every section are empty, nothing changed in the structure of a
chain, and no chain is unmatched. -/
def Comparison.IsEmpty (out : Comparison B) : Prop :=
  (∀ s ∈ out.sections, s.diff.isBehaviourallyIdentical = true ∧ s.diff.structural = []) ∧
    out.unmatched = []

/-- Chains of one name permit the same packets when their section is empty. -/
theorem permits_eq_of_isEmpty (of : out.Of base head policy) (empty : out.IsEmpty) {b h : Chain}
    {name : String} (baseHas : base.chain name = some b) (headHas : head.chain name = some h)
    (p : Packet) : (b.verdict out.syms p).permits = (h.verdict out.syms p).permits := by
  have member := (mem_sections of (s := ⟨name, analyse layout out.syms b,
    analyse layout out.syms h, _⟩)).mpr ⟨b, h, baseHas, headHas, rfl⟩
  have identical := (empty.1 _ member).1
  simp only [ChainDiff.isBehaviourallyIdentical, Bool.and_eq_true, Layout.isFalse_iff_mem layout]
    at identical
  have allowed := identical.1 p
  have blocked := identical.2 p
  rw [mem_newlyAllowed] at allowed
  rw [mem_newlyBlocked] at blocked
  revert allowed blocked
  cases (b.verdict out.syms p).permits <;> cases (h.verdict out.syms p).permits <;> simp

/-- The chains that stay at a hook permit the same packets in both revisions. -/
theorem staying_congr (of : out.Of base head policy)
    (baseUnique : (base.chains.map Chain.name).Nodup)
    (headUnique : (head.chains.map Chain.name).Nodup) (empty : out.IsEmpty) (hook : Hook)
    (p : Packet) : PermittedByAll out.syms (staying base head hook) p ↔
      PermittedByAll out.syms (staying head base hook) p := by
  simp only [PermittedByAll, staying, attached, List.mem_filter, decide_eq_true_eq, hookOf,
    Option.map_eq_some_iff]
  constructor
  · rintro all h ⟨⟨member, atHook⟩, b, baseHas, sameHook⟩
    have headHas := chain_of_mem headUnique member
    rw [← permits_eq_of_isEmpty of empty baseHas headHas]
    rw [← name_of_chain baseHas] at headHas
    exact all b ⟨⟨List.mem_of_find?_eq_some baseHas, sameHook⟩, h, headHas, atHook⟩
  · rintro all b ⟨⟨member, atHook⟩, h, headHas, sameHook⟩
    have baseHas := chain_of_mem baseUnique member
    rw [permits_eq_of_isEmpty of empty baseHas headHas]
    rw [← name_of_chain headHas] at baseHas
    exact all h ⟨⟨List.mem_of_find?_eq_some headHas, sameHook⟩, b, baseHas, atHook⟩

/-- With distinct names in each ruleset, an empty report means that no hook
filters differently exactly when, at every hook, the chains that left it and
those that arrived permit the same of the packets that the others permit: the
comparison does not look at hooks. -/
theorem empty_report_iff {o : Options} {syms : SymbolTable} (all : o.chain = none)
    (named : symbols base head policy = .ok syms) (ran : cmdDiff o base head policy = .ok out)
    (baseUnique : (base.chains.map Chain.name).Nodup)
    (headUnique : (head.chains.map Chain.name).Nodup) (empty : out.IsEmpty) :
    (∀ hook p, PermittedByAll syms (attached base hook) p ↔
      PermittedByAll syms (attached head hook) p) ↔
    ∀ hook p, PermittedByAll syms (staying base head hook) p →
      (PermittedByAll syms (moved base head hook) p ↔
        PermittedByAll syms (moved head base hook) p) := by
  have of := cmdDiff_spec ran all
  obtain rfl : syms = out.syms := Except.ok.inj (named.symm.trans of.syms)
  refine forall₂_congr fun hook p => ?_
  rw [permittedByAll_attached out.syms base head, permittedByAll_attached out.syms head base,
    ← staying_congr of baseUnique headUnique empty hook p]
  exact and_congr_right_iff

/-- Two revisions of a chain without rules that only differ in its hook. -/
theorem isEmpty_of_bare {from_ to_ : Hook} {action : Action}
    (of : out.Of (bare [("c", from_, action)]) (bare [("c", to_, action)]) none) :
    out.IsEmpty := by
  have only {hook : Hook} {name : String} {c : Chain}
      (has : (bare [("c", hook, action)]).chain name = some c) : c = Chain.new "c" hook action :=
    List.mem_singleton.mp (List.mem_of_find?_eq_some has)
  constructor
  · intro s member
    obtain ⟨b, h, baseHas, headHas, same⟩ := (mem_sections of).mp member
    obtain rfl := only baseHas
    obtain rfl := only headHas
    have verdicts (hook : Hook) (p : Packet) :
        (Chain.new "c" hook action).verdict out.syms p = action := rfl
    rw [same]
    refine ⟨?_, rfl⟩
    simp only [ChainDiff.isBehaviourallyIdentical, Bool.and_eq_true,
      Layout.isFalse_iff_mem layout, mem_newlyAllowed, mem_newlyBlocked, verdicts]
    exact ⟨fun p => Bool.and_not_self _, fun p => Bool.and_not_self _⟩
  · rw [of.unmatched, List.filterMap_eq_nil_iff]
    intro name _
    rw [Option.eq_none_iff_forall_ne_some]
    intro text entry
    rcases unmatchedOf_eq_some_iff.mp entry with ⟨inBase, notHead, _⟩ | ⟨notBase, inHead, _⟩
    · exact notHead inBase
    · exact notBase inHead

end EmptyReport

theorem moved_accept_unchanged : letI : ContentHasher := ⟨fun _ _ => 0⟩
    let base := bare [("c", .input, .accept)]
    let head := bare [("c", .output, .accept)]
    ∃ (syms : SymbolTable) (out : Comparison (Diagram HEADER_BITS)),
      cmdDiff plain base head none = .ok out ∧ out.IsEmpty ∧
        ∀ hook p, PermittedByAll syms (attached base hook) p ↔
          PermittedByAll syms (attached head hook) p := by
  let _ : ContentHasher := ⟨fun _ _ => 0⟩
  obtain ⟨syms, named⟩ := symbols_bare [("c", .input, .accept)] [("c", .output, .accept)] none rfl
  obtain ⟨out, ran⟩ := bare_ran (B := Diagram HEADER_BITS) [("c", .input, .accept)]
    [("c", .output, .accept)]
  have empty := isEmpty_of_bare (cmdDiff_spec ran rfl)
  have permits (hook hook' : Hook) (other : Ruleset) (p : Packet) :
      PermittedByAll syms (moved (bare [("c", hook', .accept)]) other hook) p := by
    intro c member
    obtain rfl := List.mem_singleton.mp (List.mem_of_mem_filter (List.mem_of_mem_filter member))
    rfl
  refine ⟨syms, out, ran, empty, ?_⟩
  exact (empty_report_iff rfl named ran (by decide) (by decide) empty).mpr
    fun hook p _ => iff_of_true (permits _ _ _ p) (permits _ _ _ p)

/-- The chain that drops everything moves from `input` to `output`.  The report is
empty, and every packet that was denied at `input` is permitted there. -/
theorem moved_hook_unseen : letI : ContentHasher := ⟨fun _ _ => 0⟩
    let base := bare [("c", .input, .drop)]
    let head := bare [("c", .output, .drop)]
    Nft.parse "f" (bareSource "t" "c" "input" "drop") = .ok base ∧
    Nft.parse "f" (bareSource "t" "c" "output" "drop") = .ok head ∧
    ∃ (syms : SymbolTable) (out : Comparison (Diagram HEADER_BITS)),
      symbols base head none = .ok syms ∧ cmdDiff plain base head none = .ok out ∧
        (base.chains.map Chain.name).Nodup ∧ (head.chains.map Chain.name).Nodup ∧
          out.IsEmpty ∧ ¬ ∀ hook p, PermittedByAll syms (attached base hook) p ↔
            PermittedByAll syms (attached head hook) p := by
  let _ : ContentHasher := ⟨fun _ _ => 0⟩
  obtain ⟨syms, named⟩ := symbols_bare [("c", .input, .drop)] [("c", .output, .drop)] none rfl
  obtain ⟨out, ran⟩ := bare_ran (B := Diagram HEADER_BITS) [("c", .input, .drop)]
    [("c", .output, .drop)]
  refine ⟨by decide +kernel, by decide +kernel, syms, out, named, ran, by decide, by decide,
    isEmpty_of_bare (cmdDiff_spec ran rfl), ?_⟩
  intro unchanged
  -- No chain of the head is attached to `input`.
  have permitted := (unchanged .input ⟨0, 0, 0, 0, 0, 0, 0⟩).mpr nofun
    (Chain.new "c" .input .drop) List.mem_cons_self
  contradiction

/-! ### Which chains the assertions are checked against -/

/-- The head chains of the sections, in the order of the sections. -/
def comparedChains (base head : Ruleset) : List Chain :=
  (chainNames base head).filterMap (fun name =>
    if (base.chain name).isSome then head.chain name else none)

theorem comparedChains_names (base head : Ruleset) :
    (comparedChains base head).map Chain.name = (chainNames base head).filter (fun name =>
      (base.chain name).isSome && (head.chain name).isSome) := by
  unfold comparedChains
  induction chainNames base head with
  | nil => rfl
  | cons name rest ih =>
      rw [List.filterMap_cons, List.filter_cons]
      cases baseHas : base.chain name with
      | none => simpa [baseHas] using ih
      | some b =>
          cases headHas : head.chain name with
          | none => simpa [headHas] using ih
          | some h => simpa [name_of_chain headHas] using ih

theorem comparedChains_subset (base head : Ruleset) : comparedChains base head ⊆ head.chains := by
  intro c member
  obtain ⟨name, _, found⟩ := List.mem_filterMap.mp member
  split at found
  · exact List.mem_of_find?_eq_some found
  · contradiction

/-- The compared chains are all chains of the head when its names are distinct
and the base has them all. -/
theorem length_le_comparedChains_iff (base head : Ruleset) :
    head.chains.length ≤ (comparedChains base head).length ↔
      (head.chains.map Chain.name).Nodup ∧
        ∀ name ∈ head.chains.map Chain.name, name ∈ base.chains.map Chain.name := by
  have names := comparedChains_names base head
  have distinct : ((comparedChains base head).map Chain.name).Nodup := by
    rw [names]
    exact (chainNames_nodup base head).filter _
  have inBoth {name : String} : name ∈ (comparedChains base head).map Chain.name ↔
      name ∈ base.chains.map Chain.name ∧ name ∈ head.chains.map Chain.name := by
    rw [names, List.mem_filter, Bool.and_eq_true, chain_isSome_iff, chain_isSome_iff,
      mem_chainNames]
    tauto
  constructor
  · intro long
    have inside : List.Subperm ((comparedChains base head).map Chain.name)
        (head.chains.map Chain.name) :=
      List.subperm_of_subset distinct fun name member => (inBoth.mp member).2
    have perm := inside.perm_of_length_le (by simpa using long)
    exact ⟨perm.nodup_iff.mp distinct, fun name member =>
      (inBoth.mp (perm.mem_iff.mpr member)).1⟩
  · intro both
    rcases both with ⟨unique, inBase⟩
    have inside : List.Subperm (head.chains.map Chain.name)
        ((comparedChains base head).map Chain.name) :=
      List.subperm_of_subset unique fun name member => inBoth.mpr ⟨inBase name member, member⟩
    simpa using inside.length_le

section Assertions

variable {B : Type} [Library HEADER_BITS B] [ContentHasher]
variable {base head : Ruleset} {p : Policy} {out : Comparison B}

theorem sectionHeads_eq_map (syms : SymbolTable) (base head : Ruleset) :
    ((chainNames base head).filterMap (sectionOf layout syms base head)).map Section.head =
      (comparedChains base head).map (analyse layout syms : Chain → ChainModel B) := by
  rw [comparedChains, List.map_filterMap, List.map_filterMap]
  refine List.filterMap_congr fun name _ => ?_
  unfold sectionOf
  cases base.chain name <;> cases head.chain name <;> rfl

/-- The reports of the assertion are those of checking it against each chain of
the head, in some order. -/
def OneReportPerChain (B : Type) [Library HEADER_BITS B] (syms : SymbolTable)
    (base head : Ruleset) (p : Policy) (a : Assertion) (reports : List Report) : Prop :=
  ∃ expected, head.chains.mapM (fun c => Policy.check layout syms p
    (analyse layout syms c : ChainModel B) (Mentioned.of [base, head]) a) = .ok expected ∧
      reports.Perm expected

/-- The reports of a run, one block for each assertion. -/
structure Blocks (out : Comparison B) (base head : Ruleset) (p : Policy)
    (blocks : List (List Report)) : Prop where
  all : out.assertions = blocks.flatten
  each : List.Forall₂ (fun a block => p.evaluateAssertion layout out.syms
    (out.sections.map Section.head) (Mentioned.of [base, head]) a = .ok block) p.assertions blocks

theorem exists_blocks (of : out.Of base head (some p)) :
    ∃ blocks, Blocks out base head p blocks := by
  have evaluated := Fallible.mapError_eq_ok_iff.mp of.assertions
  obtain ⟨blocks, each, last⟩ := Fallible.bind_eq_ok_iff.mp evaluated
  exact ⟨blocks, (Except.ok.inj last).symm, Fallible.mapM_eq_ok_iff.mp each⟩

/-- The block of an assertion that names no chain has a report for each compared
chain. -/
theorem block_spec (of : out.Of base head (some p)) {a : Assertion} (noChain : a.chain = none)
    {block : List Report} (evaluated : p.evaluateAssertion layout out.syms
      (out.sections.map Section.head) (Mentioned.of [base, head]) a = .ok block) :
    List.Forall₂ (fun c report => Policy.check layout out.syms p
      (analyse layout out.syms c : ChainModel B) (Mentioned.of [base, head]) a = .ok report)
        (comparedChains base head) block := by
  simp only [Policy.evaluateAssertion, Policy.targets, noChain] at evaluated
  split at evaluated
  · contradiction
  · rw [Fallible.mapM_eq_ok_iff, of.sections, sectionHeads_eq_map,
      List.forall₂_map_left_iff] at evaluated
    exact evaluated

/-- An assertion that names no chain has one report for each chain of the head
exactly when the head's chain names are distinct and the base has them all. -/
theorem one_report_per_chain_iff {o : Options} (all : o.chain = none)
    (ran : cmdDiff o base head (some p) = .ok out) :
    ∃ blocks, Blocks out base head p blocks ∧
      ∀ (i : Nat) (a : Assertion), p.assertions[i]? = some a → a.chain = none →
        ∃ block, blocks[i]? = some block ∧
          (OneReportPerChain B out.syms base head p a block ↔
            (head.chains.map Chain.name).Nodup ∧
              ∀ name ∈ head.chains.map Chain.name, name ∈ base.chains.map Chain.name) := by
  have of := cmdDiff_spec ran all
  obtain ⟨blocks, made⟩ := exists_blocks of
  refine ⟨blocks, made, fun i a at_ noChain => ?_⟩
  obtain ⟨bound, rfl⟩ := List.getElem?_eq_some_iff.mp at_
  have bound' : i < blocks.length := made.each.length_eq ▸ bound
  have evaluated := List.Forall₂.get made.each bound bound'
  have checked := block_spec of noChain evaluated
  refine ⟨blocks[i], List.getElem?_eq_getElem bound', ?_⟩
  rw [← length_le_comparedChains_iff]
  constructor
  · intro succeeded
    rcases succeeded with ⟨expected, expectedOk, perm⟩
    have expectedLength := (Fallible.mapM_eq_ok_iff.mp expectedOk).length_eq
    rw [expectedLength, ← perm.length_eq]
    exact checked.length_eq.ge
  · intro long
    have distinct : (comparedChains base head).Nodup := by
      apply List.Nodup.of_map Chain.name
      rw [comparedChains_names]
      exact (chainNames_nodup base head).filter _
    have perm := (List.subperm_of_subset distinct
      (comparedChains_subset base head)).perm_of_length_le long
    obtain ⟨expected, each, reordered⟩ := List.perm_comp_forall₂ perm.symm checked
    exact ⟨expected, Fallible.mapM_eq_ok_iff.mpr each, reordered.symm⟩

end Assertions

def isolateAll : Policy where
  zones := []
  assertions := [Policy.isolation]

theorem bare_asserted {B : Type} [Library HEADER_BITS B] [ContentHasher]
    (base head : List (String × Hook × Action))
    (shared : comparedChains (bare base) (bare head) ≠ []) :
    ∃ out : Comparison B, cmdDiff plain (bare base) (bare head) (some isolateAll) = .ok out := by
  obtain ⟨syms, named⟩ := symbols_bare base head (some isolateAll) rfl
  apply exists_cmdDiff rfl rfl named
  have ready : ∀ a ∈ isolateAll.assertions, isolateAll.Resolves a ∧ Policy.targets
      ((comparedChains (bare base) (bare head)).map
        (analyse layout syms : Chain → ChainModel B)) a ≠ [] := by
    intro a member
    obtain rfl := List.mem_singleton.mp member
    exact ⟨Policy.resolves_isolation _, by simpa [Policy.targets, Policy.isolation] using shared⟩
  obtain ⟨reports, evaluated⟩ := Policy.exists_evaluate (B := B) layout syms
    (Mentioned.of [bare base, bare head]) ready
  refine ⟨reports, Fallible.mapError_eq_ok_iff.mpr ?_⟩
  rw [sectionHeads_eq_map]
  exact evaluated

theorem Blocks.only {B : Type} [Library HEADER_BITS B] {out : Comparison B} {base head : Ruleset}
    {blocks : List (List Report)} (made : Blocks out base head isolateAll blocks) :
    ∃ block, blocks = [block] ∧ out.assertions = block ∧
      isolateAll.evaluateAssertion layout out.syms (out.sections.map Section.head)
        (Mentioned.of [base, head]) Policy.isolation = .ok block := by
  obtain ⟨all, each⟩ := made
  cases each with
  | cons evaluated later =>
      cases later with
      | nil => exact ⟨_, rfl, all.trans (List.append_nil _), evaluated⟩

theorem shared_chain_checked : letI : ContentHasher := ⟨fun _ _ => 0⟩
    let base := bare [("c", .input, .accept)]
    let head := bare [("c", .input, .drop)]
    ∃ out : Comparison (Diagram HEADER_BITS),
      cmdDiff plain base head (some isolateAll) = .ok out ∧
        OneReportPerChain (Diagram HEADER_BITS) out.syms base head isolateAll Policy.isolation
          out.assertions := by
  let _ : ContentHasher := ⟨fun _ _ => 0⟩
  obtain ⟨out, ran⟩ := bare_asserted (B := Diagram HEADER_BITS) [("c", .input, .accept)]
    [("c", .input, .drop)] (by decide +kernel)
  obtain ⟨blocks, made, each⟩ := one_report_per_chain_iff rfl ran
  obtain ⟨block, at_, exactly⟩ := each 0 Policy.isolation rfl rfl
  obtain ⟨only, rfl, reported, _⟩ := made.only
  obtain rfl : only = block := Option.some.inj at_
  refine ⟨out, ran, ?_⟩
  rw [reported]
  exact exactly.mpr ⟨by decide, by decide⟩

/-- The chain `d` is new in the head and accepts everything: no report is about it. -/
theorem added_chain_unchecked : letI : ContentHasher := ⟨fun _ _ => 0⟩
    let base := bare [("c", .input, .drop)]
    let head := bare [("c", .input, .drop), ("d", .input, .accept)]
    Nft.parse "f" (bareSource "t" "c" "input" "drop") = .ok base ∧
    Nft.parse "f" (bareSource "t" "c" "input" "drop" ++ bareSource "u" "d" "input" "accept") =
      .ok head ∧
    ∃ out : Comparison (Diagram HEADER_BITS),
      cmdDiff plain base head (some isolateAll) = .ok out ∧
        ¬ OneReportPerChain (Diagram HEADER_BITS) out.syms base head isolateAll Policy.isolation
          out.assertions := by
  let _ : ContentHasher := ⟨fun _ _ => 0⟩
  obtain ⟨out, ran⟩ := bare_asserted (B := Diagram HEADER_BITS) [("c", .input, .drop)]
    [("c", .input, .drop), ("d", .input, .accept)] (by decide +kernel)
  have of := cmdDiff_spec ran rfl
  refine ⟨by decide +kernel, by decide +kernel, out, ran, ?_⟩
  intro succeeded
  rcases succeeded with ⟨expected, expectedOk, perm⟩
  obtain ⟨blocks, made⟩ := exists_blocks of
  obtain ⟨block, rfl, reported, evaluated⟩ := made.only
  have one : block.length = 1 := (block_spec of rfl evaluated).length_eq.symm
  have two := (Fallible.mapM_eq_ok_iff.mp expectedOk).length_eq
  have same := perm.length_eq
  rw [reported, one, ← two] at same
  contradiction

end Fwdelta.Cli
