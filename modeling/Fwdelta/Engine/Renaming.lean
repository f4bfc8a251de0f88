import Fwdelta.Engine.Diff
import Fwdelta.Engine.Flow
import Fwdelta.Pointwise
import Mathlib.Data.FinEnum
import Mathlib.Data.Fintype.Sum

/-
One analysis under two symbol tables.

Adding a name shifts the indices of all later names, so the two analyses compute
on different sets.  Some permutation of the 256 indices takes the index of each
mentioned name to its index in the other table, and every step of the engine
commutes with it: whatever is read off the sets is the same.
-/

namespace Fwdelta

open DecisionDiagram
open DecisionDiagram.Library
open DecisionDiagram.PathLibrary

/-! ### A permutation of the indices -/

namespace SymbolTable

/-- The index of a name that is in the table. -/
def place (syms : SymbolTable) (name : String) : BitVec 8 :=
  BitVec.ofNat 8 ((syms.indexOf name).getD 0)

theorem nameOf_eq_some_iff_place {syms : SymbolTable} {name : String}
    (listed : name ∈ syms.names) (i : BitVec 8) :
    syms.nameOf i.toNat = some name ↔ i = syms.place name := by
  obtain ⟨index, bound, found⟩ := List.mem_iff_getElem.mp listed
  have named : syms.nameOf index = some name := by
    rw [← found]
    exact List.getElem?_eq_getElem bound
  have indexed := indexOf_eq_some.mpr named
  have within := nameOf_lt named
  unfold MAX_INTERFACES at within
  have placed : (syms.place name).toNat = index := by
    rw [place, indexed, Option.getD_some, BitVec.toNat_ofNat, Nat.mod_eq_of_lt within]
  rw [← indexOf_eq_some, indexed, Option.some.injEq]
  constructor
  · intro same
    apply BitVec.eq_of_toNat_eq
    rw [placed, same]
  · intro same
    rw [same, placed]

theorem place_injOn {syms : SymbolTable} {name other : String} (listed : name ∈ syms.names)
    (otherListed : other ∈ syms.names) (same : syms.place name = syms.place other) :
    name = other := by
  have first := (nameOf_eq_some_iff_place listed _).mpr rfl
  have second := (nameOf_eq_some_iff_place otherListed _).mpr same
  exact Option.some.inj (first.symm.trans second)

/-- Names that are in both tables can be moved from their indices in one to their
indices in the other by a permutation. -/
theorem exists_rename (s t : SymbolTable) (names : List String)
    (inFirst : ∀ name ∈ names, name ∈ s.names) (inSecond : ∀ name ∈ names, name ∈ t.names) :
    ∃ rename : Equiv.Perm (BitVec 8), ∀ name ∈ names, ∀ i : BitVec 8,
      s.nameOf i.toNat = some name ↔ t.nameOf (rename i).toNat = some name := by
  let moved : BitVec 8 → BitVec 8 := fun i => ((s.nameOf i.toNat).map t.place).getD 0
  let mentioned : Set (BitVec 8) := {i | ∃ name ∈ names, i = s.place name}
  have moves {name : String} (member : name ∈ names) : moved (s.place name) = t.place name := by
    have named := (nameOf_eq_some_iff_place (inFirst name member) _).mpr rfl
    simp [moved, named]
  have injective : Set.InjOn moved mentioned := by
    intro i first j second same
    obtain ⟨name, member, rfl⟩ := first
    obtain ⟨other, otherMember, rfl⟩ := second
    rw [moves member, moves otherMember] at same
    rw [place_injOn (inSecond name member) (inSecond other otherMember) same]
  have into : mentioned.MapsTo moved (Finset.univ : Finset (BitVec 8)) := by
    intro i _
    exact Finset.mem_coe.mpr (Finset.mem_univ _)
  obtain ⟨extended, extends_⟩ :=
    into.exists_equiv_extend_of_card_eq Finset.card_univ.symm injective
  let rename : Equiv.Perm (BitVec 8) :=
    extended.trans (Equiv.subtypeUnivEquiv (fun i => Finset.mem_univ i))
  refine ⟨rename, ?_⟩
  intro name member i
  have placed : rename (s.place name) = t.place name :=
    (extends_ _ ⟨name, member, rfl⟩).trans (moves member)
  rw [nameOf_eq_some_iff_place (inFirst name member),
    nameOf_eq_some_iff_place (inSecond name member), ← placed]
  exact rename.injective.eq_iff.symm

end SymbolTable

/-! ### Packets and sets renamed -/

def Packet.rename (rename : Equiv.Perm (BitVec 8)) : Equiv.Perm Packet where
  toFun p := { p with iif := rename p.iif, oif := rename p.oif }
  invFun p := { p with iif := rename.symm p.iif, oif := rename.symm p.oif }
  left_inv p := by simp
  right_inv p := by simp

def Layout.rename (layout : Layout) (rename : Equiv.Perm (BitVec 8)) : Equiv.Perm Valuation :=
  (layout.packets.symm.trans (Packet.rename rename)).trans layout.packets

section Sets

variable {B : Type} [Library HEADER_BITS B] {layout : Layout} {rename : Equiv.Perm (BitVec 8)}

theorem renamed_iff_mem {a b : B} : Renamed (layout.rename rename) a b ↔
    ∀ p, layout.mem a p = layout.mem b (Packet.rename rename p) := by
  unfold Renamed
  rw [layout.packets.surjective.forall]
  apply forall_congr'
  intro p
  have moved : layout.rename rename (layout.packets p) =
      layout.encode (Packet.rename rename p) := by
    simp only [Layout.rename, Equiv.trans_apply, Equiv.symm_apply_apply]
    rfl
  rw [moved]
  rfl

/-- The tables resolve every mentioned match to the same interfaces. -/
def SameNames (rename : Equiv.Perm (BitVec 8)) (s t : SymbolTable) (names : List String) :
    Prop :=
  ∀ name ∈ names, ∀ i : BitVec 8,
    s.nameOf i.toNat = some name ↔ t.nameOf (rename i).toNat = some name

theorem contains_resolve_rename {s t : SymbolTable} {names : List String}
    (same : SameNames rename s t names) {m : IfMatch} (known : ∀ n ∈ m.names, n ∈ names)
    (i : BitVec 8) :
    (m.resolve s).contains i.toNat = (m.resolve t).contains (rename i).toNat := by
  have within (j : BitVec 8) : j.toNat ≤ domainMax IF_BITS := by
    have top : domainMax IF_BITS = 255 := by decide
    have below := j.isLt
    omega
  have listed (wanted : Finset String) (every : ∀ n ∈ wanted, n ∈ names) :
      (IfMatch.resolveNames s (sortNames wanted)).contains i.toNat =
        (IfMatch.resolveNames t (sortNames wanted)).contains (rename i).toNat := by
    rw [Bool.eq_iff_iff, IfMatch.contains_resolveNames, IfMatch.contains_resolveNames]
    apply exists_congr
    intro name
    apply and_congr_right
    intro member
    exact same name (every name (mem_sortNames.mp member)) i
  cases m with
  | any =>
      rw [Bool.eq_iff_iff]
      simp [IfMatch.resolve, within]
  | oneOf wanted => exact listed wanted known
  | noneOf wanted =>
      rw [Bool.eq_iff_iff]
      simp only [IfMatch.resolve, IntervalSet.contains_complement, within, true_and]
      rw [listed wanted known]

theorem renamed_matchBdd {s t : SymbolTable} {names : List String}
    (same : SameNames rename s t names) {m : Match} (known : ∀ n ∈ m.interfaceNames, n ∈ names) :
    Renamed (layout.rename rename) (layout.matchBdd m s : B) (layout.matchBdd m t) := by
  have inputNames : ∀ n ∈ m.iif.names, n ∈ names := by
    intro n member
    exact known n (List.mem_append_left _ (mem_sortNames.mpr member))
  have outputNames : ∀ n ∈ m.oif.names, n ∈ names := by
    intro n member
    exact known n (List.mem_append_right _ (mem_sortNames.mpr member))
  rw [renamed_iff_mem]
  intro p
  rw [layout.mem_matchBdd, layout.mem_matchBdd, Bool.eq_iff_iff, Match.holdsAt_iff,
    Match.holdsAt_iff, Match.contains_iff, Match.contains_iff,
    contains_resolve_rename same inputNames, contains_resolve_rename same outputNames]
  rfl

end Sets

/-! ### The models under both tables -/

section Models

variable {B : Type} [Library HEADER_BITS B]

structure RuleModel.Renamed (rename : Equiv.Perm Valuation) (r q : RuleModel B) : Prop where
  number : r.number = q.number
  action : r.action = q.action
  key : r.contentKey = q.contentKey
  matched : DecisionDiagram.Renamed rename r.matched q.matched
  effective : DecisionDiagram.Renamed rename r.effective q.effective
  shadowed : r.shadowed = q.shadowed
  redundant : r.redundant = q.redundant

structure ChainModel.Renamed (rename : Equiv.Perm Valuation) (a b : ChainModel B) : Prop where
  accept : DecisionDiagram.Renamed rename a.accept b.accept
  rules : List.Forall₂ (RuleModel.Renamed rename) a.rules b.rules

variable {rename : Equiv.Perm Valuation}

/-- The backward pass keeps the relation between the two runs. -/
theorem renamed_analyseBackward {policy other : B} {rules others : List (RuleModel B)}
    (policies : Renamed rename policy other)
    (related : List.Forall₂ (RuleModel.Renamed rename) rules others) :
    List.Forall₂ (RuleModel.Renamed rename) (analyseBackward policy rules).1
        (analyseBackward other others).1 ∧
      Renamed rename (analyseBackward policy rules).2 (analyseBackward other others).2 := by
  induction related with
  | nil => exact ⟨.nil, policies⟩
  | @cons r q _ _ first _ ih =>
      obtain ⟨later, suffix⟩ := ih
      simp only [analyseBackward, first.action]
      constructor
      · apply List.Forall₂.cons _ later
        constructor
        · exact first.number
        · rfl
        · exact first.key
        · exact first.matched
        · exact first.effective
        · exact first.shadowed
        · simp only [(first.effective.andNot suffix).isFalse,
            (first.effective.and suffix).isFalse]
      · cases q.action.permits with
        | true => exact first.matched.or suffix
        | false => exact first.matched.not.and suffix

variable [ContentHasher]

/-- So does the forward pass, with the same saturation flag. -/
theorem renamed_analyseForward {layout : Layout} {index : Equiv.Perm (BitVec 8)}
    {s t : SymbolTable} {names : List String} (same : SameNames index s t names)
    {seen other : B} (saturated : Bool) (rules : List Rule)
    (known : ∀ rule ∈ rules, ∀ n ∈ rule.predicate.interfaceNames, n ∈ names)
    (seens : Renamed (layout.rename index) seen other) :
    List.Forall₂ (RuleModel.Renamed (layout.rename index))
        (analyseForward layout s seen saturated rules).1
        (analyseForward layout t other saturated rules).1 := by
  induction rules generalizing seen other saturated with
  | nil => exact .nil
  | cons rule rest ih =>
      have matched : Renamed (layout.rename index) (layout.matchBdd rule.predicate s : B)
          (layout.matchBdd rule.predicate t) :=
        renamed_matchBdd same (known rule List.mem_cons_self)
      have restKnown : ∀ r ∈ rest, ∀ n ∈ r.predicate.interfaceNames, n ∈ names :=
        fun r member => known r (List.mem_cons_of_mem _ member)
      simp only [analyseForward]
      cases saturated with
      | true =>
          simp only [if_true]
          apply List.Forall₂.cons _ (ih true restKnown seens)
          constructor
          · rfl
          · rfl
          · rfl
          · exact matched
          · exact Renamed.mkFalse _
          · rfl
          · rfl
      | false =>
          have grown := seens.or matched
          simp only [Bool.false_eq_true, if_false]
          rw [grown.isTrue]
          apply List.Forall₂.cons _ (ih _ restKnown grown)
          constructor
          · rfl
          · rfl
          · rfl
          · exact matched
          · exact matched.andNot seens
          · exact (matched.andNot seens).isFalse
          · rfl

end Models

/-- The interface names a chain mentions. -/
def Chain.interfaceNames (chain : Chain) : List String :=
  chain.rules.flatMap (fun rule => rule.predicate.interfaceNames)

section Compare

variable {B : Type} [Library HEADER_BITS B]

theorem renamed_analyse [ContentHasher] {layout : Layout} {index : Equiv.Perm (BitVec 8)}
    {s t : SymbolTable} {names : List String} (same : SameNames index s t names) {chain : Chain}
    (known : ∀ n ∈ chain.interfaceNames, n ∈ names) :
    ChainModel.Renamed (layout.rename index) (analyse layout s chain : ChainModel B)
      (analyse layout t chain) := by
  have ruleNames : ∀ rule ∈ chain.rules, ∀ n ∈ rule.predicate.interfaceNames, n ∈ names :=
    fun rule member n mentioned => known n (List.mem_flatMap.mpr ⟨rule, member, mentioned⟩)
  have unseen : Renamed (layout.rename index) (Layout.ff : B) Layout.ff := Renamed.mkFalse _
  have forward := renamed_analyseForward same false chain.rules ruleNames unseen
  have policies : Renamed (layout.rename index)
      (if chain.policy.permits then Layout.tt else Layout.ff : B)
      (if chain.policy.permits then Layout.tt else Layout.ff) := by
    cases chain.policy.permits with
    | true => exact Renamed.mkTrue _
    | false => exact Renamed.mkFalse _
  have backward := renamed_analyseBackward policies forward
  exact ⟨backward.2, backward.1⟩

variable {rename : Equiv.Perm Valuation} {base base' head head' : ChainModel B}

omit [Library HEADER_BITS B] in
theorem pairFrom_eq_of_keys {rules others : List (RuleModel B)}
    (unclaimed : List (BitVec 64 × Nat))
    (same : rules.map (fun r => (r.contentKey, r.number)) =
      others.map (fun r => (r.contentKey, r.number))) :
    pairFrom unclaimed rules = pairFrom unclaimed others := by
  induction rules generalizing others unclaimed with
  | nil =>
      rw [List.map_nil, eq_comm, List.map_eq_nil_iff] at same
      rw [same]
  | cons r rest ih =>
      cases others with
      | nil => contradiction
      | cons q later =>
          rw [List.map_cons, List.map_cons, List.cons.injEq, Prod.mk.injEq] at same
          obtain ⟨⟨key, number⟩, rests⟩ := same
          simp only [pairFrom, key, number, ih _ rests]

theorem keys_eq (related : base.Renamed rename base') :
    base.rules.map (fun r => (r.contentKey, r.number)) =
      base'.rules.map (fun r => (r.contentKey, r.number)) :=
  related.rules.map_eq fun _ _ each => Prod.ext each.key each.number

theorem contributors_eq {target target' acc acc' : B} {rules others : List (RuleModel B)}
    (targets : Renamed rename target target') (accs : Renamed rename acc acc')
    (related : List.Forall₂ (RuleModel.Renamed rename) rules others) :
    ChainModel.contributors target acc rules = ChainModel.contributors target' acc' others := by
  induction related generalizing acc acc' with
  | nil => rfl
  | @cons r q _ _ first _ ih =>
      have grown := accs.or first.matched
      simp only [ChainModel.contributors, (targets.and first.matched).isFalse,
        (targets.andNot grown).isFalse, first.number, ih accs, ih grown]

theorem explainShadow_eq (related : base.Renamed rename base') (number : Nat) :
    base.explainShadow number = base'.explainShadow number := by
  unfold ChainModel.explainShadow
  rw [related.rules.findIdx?_eq (q := fun r => r.number == number)
    (fun r q each => by rw [each.number])]
  cases base'.rules.findIdx? (fun r => r.number == number) with
  | none => rfl
  | some position =>
      have here := related.rules.getElem?_rel position
      simp only
      generalize base.rules[position]? = target at here
      generalize base'.rules[position]? = target' at here
      cases here with
      | none => rfl
      | @some r q targets =>
          simp only [targets.matched.isFalse]
          split
          · rfl
          · have before := List.forall₂_take position related.rules
            have single := before.find?_rel
              (p := fun earlier => isFalse (andNot r.matched earlier.matched))
              (q := fun earlier => isFalse (andNot q.matched earlier.matched))
              (fun _ _ each => (targets.matched.andNot each.matched).isFalse)
            generalize (base.rules.take position).find? _ = found at single
            generalize (base'.rules.take position).find? _ = found' at single
            cases single with
            | none =>
                exact contributors_eq targets.matched (targets.matched.andNot targets.matched)
                  before
            | some each => simp only [each.number]

theorem pairChanges_eq (bases : base.Renamed rename base') (heads : head.Renamed rename head')
    (pair : Nat × Nat) : pairChanges base head pair = pairChanges base' head' pair := by
  unfold pairChanges
  have inBase := bases.rules.find?_rel (p := fun r => r.number == pair.1)
    (q := fun r => r.number == pair.1) (fun r q each => by rw [each.number])
  have inHead := heads.rules.find?_rel (p := fun r => r.number == pair.2)
    (q := fun r => r.number == pair.2) (fun r q each => by rw [each.number])
  generalize base.rules.find? _ = found at inBase
  generalize base'.rules.find? _ = found' at inBase
  generalize head.rules.find? _ = headFound at inHead
  generalize head'.rules.find? _ = headFound' at inHead
  cases inBase with
  | none => rfl
  | some first =>
      cases inHead with
      | none => rfl
      | some second =>
          simp only [first.shadowed, first.redundant, second.shadowed, second.redundant,
            explainShadow_eq bases, explainShadow_eq heads]

theorem structuralChanges_eq (bases : base.Renamed rename base')
    (heads : head.Renamed rename head') :
    structuralChanges base head = structuralChanges base' head' := by
  have pairs : pairRules base head = pairRules base' head' := by
    unfold pairRules
    rw [keys_eq heads, pairFrom_eq_of_keys _ (keys_eq bases)]
  unfold structuralChanges
  simp only [pairs, funext (pairChanges_eq bases heads)]

end Compare

/-! ### Nothing depends on the table -/

section Counts

variable {B : Type} [PathLibrary HEADER_BITS B] {layout : Layout}
  {rename : Equiv.Perm (BitVec 8)} {a b : B}

theorem exactCardinality_eq_of_renamed (related : Renamed (layout.rename rename) a b) :
    exactCardinality a = exactCardinality b := by
  rw [exactCardinality_eq, exactCardinality_eq, related.card_models]

/-- Renaming interfaces keeps the flow of a packet, so the projections are one
set. -/
theorem project_eq_of_renamed (related : Renamed (layout.rename rename) a b) :
    layout.project a = layout.project b := by
  rw [renamed_iff_mem] at related
  have kept (p : Packet) : (Packet.rename rename p).SameFlow p :=
    (Packet.sameFlow_iff _ _).mpr ⟨rfl, rfl, rfl, rfl⟩
  apply layout.ext_mem
  intro p
  rw [Bool.eq_iff_iff, layout.mem_project, layout.mem_project]
  constructor
  · intro found
    obtain ⟨q, same, inside⟩ := found
    refine ⟨Packet.rename rename q, ?_, (related q).symm.trans inside⟩
    exact fun field outside => (kept q field outside).trans (same field outside)
  · intro found
    obtain ⟨q, same, inside⟩ := found
    obtain ⟨q, rfl⟩ := (Packet.rename rename).surjective q
    refine ⟨q, ?_, (related q).trans inside⟩
    exact fun field outside => (kept q field outside).symm.trans (same field outside)

theorem flowCount_eq_of_renamed (related : Renamed (layout.rename rename) a b) :
    layout.flowCount a = layout.flowCount b := by
  rw [Layout.flowCount, Layout.flowCount, project_eq_of_renamed related]

variable [ContentHasher]

/-- Two symbol tables that name every interface of both chains give the same
flags, the same structural changes and the same counts. -/
theorem no_phantom_delta (layout : Layout) (s t : SymbolTable) (base head : Chain)
    (named : ∀ name ∈ base.interfaceNames ++ head.interfaceNames,
      name ∈ s.names ∧ name ∈ t.names) :
    (analyse layout s base : ChainModel B).rules.map (fun r => (r.shadowed, r.redundant)) =
        (analyse layout t base : ChainModel B).rules.map (fun r => (r.shadowed, r.redundant)) ∧
      (analyse layout s head : ChainModel B).rules.map (fun r => (r.shadowed, r.redundant)) =
        (analyse layout t head : ChainModel B).rules.map (fun r => (r.shadowed, r.redundant)) ∧
      (diff (analyse layout s base : ChainModel B) (analyse layout s head)).structural =
        (diff (analyse layout t base : ChainModel B) (analyse layout t head)).structural ∧
      (∀ newly ∈ [(ChainDiff.newlyAllowed : ChainDiff B → B), ChainDiff.newlyBlocked],
        let first := newly (diff (analyse layout s base) (analyse layout s head))
        let second := newly (diff (analyse layout t base) (analyse layout t head))
        exactCardinality first = exactCardinality second ∧
          layout.flowCount first = layout.flowCount second ∧ isFalse first = isFalse second) := by
  obtain ⟨rename, same⟩ := SymbolTable.exists_rename s t
    (base.interfaceNames ++ head.interfaceNames) (fun name member => (named name member).1)
    (fun name member => (named name member).2)
  have bases : ChainModel.Renamed (layout.rename rename)
      (analyse layout s base : ChainModel B) (analyse layout t base) :=
    renamed_analyse same fun n member => List.mem_append_left _ member
  have heads : ChainModel.Renamed (layout.rename rename)
      (analyse layout s head : ChainModel B) (analyse layout t head) :=
    renamed_analyse same fun n member => List.mem_append_right _ member
  refine ⟨?_, ?_, structuralChanges_eq bases heads, ?_⟩
  · exact bases.rules.map_eq fun _ _ each => Prod.ext each.shadowed each.redundant
  · exact heads.rules.map_eq fun _ _ each => Prod.ext each.shadowed each.redundant
  · have counted {first second : B} (related : Renamed (layout.rename rename) first second) :
        exactCardinality first = exactCardinality second ∧
          layout.flowCount first = layout.flowCount second ∧ isFalse first = isFalse second :=
      ⟨exactCardinality_eq_of_renamed related, flowCount_eq_of_renamed related, related.isFalse⟩
    intro newly member
    simp only [List.mem_cons, List.not_mem_nil, or_false] at member
    rcases member with rfl | rfl
    · exact counted (heads.accept.andNot bases.accept)
    · exact counted (bases.accept.andNot heads.accept)

end Counts

/-! ### A table grown by a name that sorts first -/

def lanAccepted : Chain :=
  (Chain.new "input" .input .drop).push { Match.any with iif := IfMatch.one "lan" } .accept
    ⟨"a.nft", 1, 1, "iifname lan accept"⟩

theorem interfaceNames_lanAccepted : lanAccepted.interfaceNames = ["lan"] := by
  decide +kernel

theorem sorted_lan : ["lan"].Pairwise (· < ·) :=
  List.pairwise_singleton _ _

theorem sorted_eth0_lan : ["eth0", "lan"].Pairwise (· < ·) := by
  decide

theorem one_le_maxInterfaces : 1 ≤ MAX_INTERFACES := by
  decide

theorem two_le_maxInterfaces : 2 ≤ MAX_INTERFACES := by
  decide

def lanTable : SymbolTable where
  names := ["lan"]
  sorted := sorted_lan
  capacity := one_le_maxInterfaces

def grownTable : SymbolTable where
  names := ["eth0", "lan"]
  sorted := sorted_eth0_lan
  capacity := two_le_maxInterfaces

/-- In the grown table `lan` has another index, and the delta is the same. -/
theorem growing_the_table_by_eth0 : lanTable.indexOf "lan" ≠ grownTable.indexOf "lan" ∧
    letI : ContentHasher := ⟨fun _ _ => 0⟩
    let delta := fun (syms : SymbolTable) =>
      diff (analyse ⟨.fieldMajor⟩ syms lanAccepted : ChainModel (Diagram HEADER_BITS))
        (analyse ⟨.fieldMajor⟩ syms (Chain.new "input" .input .drop))
    (delta lanTable).structural = (delta grownTable).structural ∧
      exactCardinality (delta lanTable).newlyBlocked =
        exactCardinality (delta grownTable).newlyBlocked := by
  have named : ∀ name ∈ lanAccepted.interfaceNames ++
      (Chain.new "input" .input .drop).interfaceNames,
      name ∈ lanTable.names ∧ name ∈ grownTable.names := by
    intro name member
    have known : name ∈ ["lan"] := by
      rw [← interfaceNames_lanAccepted]
      simpa [Chain.interfaceNames, Chain.new] using member
    exact ⟨known, List.mem_cons_of_mem _ known⟩
  obtain ⟨_, _, structural, counts⟩ := @no_phantom_delta (Diagram HEADER_BITS) _ ⟨fun _ _ => 0⟩
    ⟨.fieldMajor⟩ lanTable grownTable lanAccepted (Chain.new "input" .input .drop) named
  exact ⟨by decide, structural, (counts ChainDiff.newlyBlocked (by simp)).1⟩

end Fwdelta
