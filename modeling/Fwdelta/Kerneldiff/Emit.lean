import Fwdelta.Ir.Prefixes
import Fwdelta.Nft.Meaning
import Fwdelta.Nft.Spelling

/-
Chains as nftables text.

This is not the frontend: it writes a chain for the kernel to load.  It writes
what it can of a predicate, so that the text is compared with the chain by
reading it back.
-/

namespace Fwdelta.Emit

def ipv4 (v : Nat) : String :=
  toString ((v >>> 24) &&& 0xff) ++ "." ++ toString ((v >>> 16) &&& 0xff) ++ "." ++
    toString ((v >>> 8) &&& 0xff) ++ "." ++ toString (v &&& 0xff)

/-- One value bare, any other number of them in braces. -/
def valueExpr (keyword : String) (parts : List String) : String :=
  match parts with
  | [part] => keyword ++ " " ++ part
  | _ => keyword ++ " \x7b " ++ ", ".intercalate parts ++ " \x7d"

def blockText (block : Nat × Nat) : String :=
  if block.2 == 32 then ipv4 block.1 else ipv4 block.1 ++ "/" ++ toString block.2

def rangeText (range : Range) : String :=
  if range.1 == range.2 then toString range.1
  else toString range.1 ++ "-" ++ toString range.2

def addrExpr (keyword : String) (set : IntervalSet 32) : Option String :=
  if set.isFull then none
  else some (valueExpr ("ip " ++ keyword) ((setToPrefixes set).map blockText))

def portExpr (proto keyword : String) (set : IntervalSet 16) : Option String :=
  if set.isFull then none
  else some (valueExpr (proto ++ " " ++ keyword) (set.ranges.map rangeText))

def protoKeyword : Nat → String
  | 1 => "icmp"
  | 6 => "tcp"
  | 17 => "udp"
  | _ => "ip"

def protoText : Nat → String
  | 1 => "icmp"
  | 6 => "tcp"
  | 17 => "udp"
  | other => toString other

/-- The protocol, where the set pins a single one. -/
def protoValue (set : IntervalSet 8) : Option Nat :=
  match set.ranges with
  | [(lo, hi)] => if lo = hi then some lo else none
  | _ => none

def quoted (name : String) : String :=
  "\"" ++ name ++ "\""

def iifExpr : IfMatch → Option String
  | .oneOf names => some (valueExpr "iifname" ((sortNames names).map quoted))
  | _ => none

/-- The port matches, or nothing for a port constraint on a protocol without ports. -/
def portExprs (l4 : String) (m : Match) : Option (List String) :=
  if l4 == "tcp" || l4 == "udp" then
    some ((portExpr l4 "sport" m.srcPort).toList ++ (portExpr l4 "dport" m.dstPort).toList)
  else if !m.srcPort.isFull || !m.dstPort.isFull then none
  else some []

def verdictExpr (r : Rule) : String :=
  "counter " ++ r.action.text ++ " comment \"r" ++ toString r.number ++ "\""

/-- The parts of a rule, in the order they are written. -/
def ruleParts (r : Rule) (ports : List String) : List String :=
  (iifExpr r.predicate.iif).toList ++
    (((protoValue r.predicate.proto).map (fun v => "meta l4proto " ++ protoText v)).toList ++
      ((addrExpr "saddr" r.predicate.srcAddr).toList ++
        ((addrExpr "daddr" r.predicate.dstAddr).toList ++ (ports ++ [verdictExpr r]))))

/-- Render one rule. -/
def rule (r : Rule) : Option String := do
  let l4 := ((protoValue r.predicate.proto).map protoKeyword).getD "ip"
  let ports ← portExprs l4 r.predicate
  some ("    " ++ " ".intercalate (ruleParts r ports))

def policyText : Action → String
  | .accept => "accept"
  | _ => "drop"

/-- The sentinel is a counter without a verdict, for the harness to poll on. -/
def chainWith (table : String) (c : Chain) (sentinel : Bool) : Option String := do
  let lines ← c.rules.mapM rule
  some ("table ip " ++ table ++ " \x7b\n  chain " ++ c.name ++ " \x7b\n" ++
    ("    type filter hook " ++ Nft.hookText c.hook ++ " priority filter; policy " ++
      policyText c.policy ++ ";\n" ++
    (String.join (lines.map (fun line => line ++ "\n")) ++
    ((if sentinel then "    counter comment \"r0\"\n" else "") ++ "  \x7d\n\x7d\n"))))

/-- Render a whole chain as a loadable ruleset. -/
def chain (table : String) (c : Chain) : Option String :=
  chainWith table c true

open Nft

/-! ### Lists of values -/

/-- The value that lists the atoms as they are written: one bare, several in
braces. -/
def valueOf {α : Type} (first : α) : List α → Value α
  | [] => .single first
  | second :: rest => .set ⟨0, first, 0⟩ ((second :: rest).map (fun atom => ⟨0, atom, 0⟩))

theorem atoms_valueOf {α : Type} (first : α) (rest : List α) :
    (valueOf first rest).atoms = first :: rest := by
  cases rest with
  | nil => rfl
  | cons second later => simp [valueOf, Value.atoms, Function.comp_def]

theorem yieldRest_map {α β : Type} (form : Form α β) (atoms : List α) :
    yieldRest form (atoms.map (fun atom => ⟨0, atom, 0⟩)) =
      (atoms.map form.yield).flatMap (fun ks => [.sym ','] ++ ks) ++ [.sym '}'] := by
  induction atoms with
  | nil => rfl
  | cons atom later ih =>
      simp [yieldRest, ih, Member.yield, breaks]

theorem spells_commas {α β : Type} {form : Form α β} {part : String} {parts : List String}
    {first : α} {rest : List α} (spells : Spells part.toList (form.yield first))
    (each : List.Forall₂ (fun part atom => Spells part.toList (form.yield atom)) parts rest) :
    Spells (", ".intercalate (part :: parts)).toList
      (form.yield first ++ (rest.map form.yield).flatMap (fun ks => [.sym ','] ++ ks)) :=
  spells_intercalate Spells.then_comma (List.forall₂_map_right_iff.mpr each) spells

theorem spells_valueExpr {α β : Type} {form : Form α β} {keyword : String} {ks : List Tok}
    (spells : Spells keyword.toList ks) {parts : List String} {first : α} {rest : List α}
    (each : List.Forall₂ (fun part atom => Spells part.toList (form.yield atom)) parts
      (first :: rest)) :
    Spells (valueExpr keyword parts).toList (ks ++ (valueOf first rest).yield form) := by
  cases each with
  | cons spellsFirst later =>
      cases later with
      | nil =>
          simp only [valueExpr, String.toList_append, List.append_assoc]
          exact spells.then_blank spellsFirst
      | @cons part second parts rest spellsSecond later =>
          have members := spells_commas spellsFirst (.cons spellsSecond later)
          have braces := (members.then_blank (spells_sym (c := '}') (by decide))).blank.sym_cons
            (c := '{') (by decide)
          have yielded : (valueOf first (second :: rest)).yield form =
              .sym '{' :: (form.yield first ++
                ((second :: rest).map form.yield).flatMap (fun ks => [.sym ','] ++ ks) ++
                  [.sym '}']) := by
            rw [valueOf, Value.yield, yieldRest_map]
            simp [Member.yield, breaks]
          have opening : " \x7b ".toList = [' ', '{', ' '] := rfl
          have closing : " \x7d".toList = [' ', '}'] := rfl
          rw [yielded]
          simp only [valueExpr, String.toList_append, opening, closing, List.append_assoc,
            List.cons_append, List.nil_append] at braces ⊢
          exact spells.then_blank braces

theorem mem_yield_valueOf {α β : Type} {form : Form α β} {first : α} {rest : List α} {k : Tok}
    (member : k ∈ (valueOf first rest).yield form) :
    (∃ c, k = .sym c) ∨ ∃ atom ∈ first :: rest, k ∈ form.yield atom := by
  cases rest with
  | nil => exact Or.inr ⟨first, by simp, member⟩
  | cons second later =>
      rw [valueOf, Value.yield, yieldRest_map] at member
      simp only [Member.yield, breaks, List.replicate_zero, List.nil_append, List.append_nil,
        List.mem_cons, List.mem_append, List.mem_flatMap, List.mem_map, List.not_mem_nil,
        or_false] at member
      rcases member with rfl | inFirst | ⟨_, ⟨atom, listed, rfl⟩, rfl | inside⟩ | rfl
      · exact Or.inl ⟨_, rfl⟩
      · exact Or.inr ⟨first, by simp, inFirst⟩
      · exact Or.inl ⟨_, rfl⟩
      · exact Or.inr ⟨atom, by simp only [List.mem_cons]; exact Or.inr listed, inside⟩
      · exact Or.inl ⟨_, rfl⟩

/-- Items that each spell an atom spell the value that lists them. -/
theorem exists_spec {γ α β : Type} {form : Form α β} {text : γ → String} {R : γ → α → Prop}
    {items : List γ} (nonempty : items ≠ [])
    (each : ∀ item ∈ items, ∃ atom, Spells (text item).toList (form.yield atom) ∧ R item atom ∧
      .word "meta" ∉ form.yield atom)
    {keyword : String} {ks : List Tok} (spells : Spells keyword.toList ks) :
    ∃ spec : Spec α, Spells (valueExpr keyword (items.map text)).toList (ks ++ spec.yield form) ∧
      spec.negation = .absent ∧ List.Forall₂ R items spec.value.atoms ∧
        .word "meta" ∉ spec.yield form := by
  obtain ⟨atoms, related⟩ := List.Forall₂.exists_of_forall each
  have sober : ∀ atom ∈ atoms, .word "meta" ∉ form.yield atom := by
    intro atom member
    obtain ⟨_, _, _, _, absent⟩ := related.exists_left member
    exact absent
  cases related with
  | nil => exact absurd rfl nonempty
  | @cons item first items rest here later =>
      refine ⟨⟨.absent, valueOf first rest⟩, ?_, rfl, ?_, ?_⟩
      · apply spells_valueExpr spells
        rw [List.map_cons]
        exact .cons here.1 (List.forall₂_map_left_iff.mpr (later.imp fun _ _ both => both.1))
      · rw [atoms_valueOf]
        exact .cons here.2.1 (later.imp fun _ _ both => both.2.1)
      · intro member
        rcases mem_yield_valueOf member with ⟨c, symbol⟩ | ⟨atom, listed, inside⟩
        · contradiction
        · exact sober atom listed inside

/-- The atoms denote what the items do, so the value denotes the set they make up. -/
theorem spec_set_eq {γ α : Type} {bits : Nat} {form : Form α (IntervalSet bits)}
    {has : α → Nat → Prop} (exact_ : ∀ a x, (form.value a).contains x = true ↔ has a x)
    {spec : Spec α} (plain : spec.negation = .absent) {items : List γ} {In : γ → Nat → Prop}
    (related : List.Forall₂ (fun item atom => ∀ x, has atom x ↔ In item x) items
      spec.value.atoms) {set : IntervalSet bits}
    (covers : ∀ x, (∃ item ∈ items, In item x) ↔ set.contains x = true) :
    spec.set form = set := by
  have holds {x : Nat} (within : x ≤ domainMax bits) :
      (spec.set form).contains x = true ↔ set.contains x = true := by
    rw [spec.contains_set form exact_ within, ← covers, Spec.Holds, plain]
    exact (related.exists_iff (fun _ _ same => (same x).symm)).symm
  apply IntervalSet.eq_of_contains
  intro x
  constructor
  · intro inside
    exact (holds (IntervalSet.contains_le inside)).mp inside
  · intro inside
    exact (holds (IntervalSet.contains_le inside)).mpr inside

/-! ### Addresses -/

theorem toList_ipv4 (v : Nat) : (ipv4 v).toList = quad v := by
  simp [ipv4, quad, octets, dotted]

theorem spells_blockText {block : Nat × Nat} (aligned : Aligned 32 block) :
    ∃ atom : AddrAtom, Spells (blockText block).toList (AddrAtom.form.yield atom) ∧
      (∀ x, atom.Has x ↔ (blockRange 32 block).1 ≤ x ∧ x ≤ (blockRange 32 block).2) ∧
        .word "meta" ∉ AddrAtom.form.yield atom := by
  have positive := Nat.two_pow_pos (32 - block.2)
  have small : block.1 < 2 ^ 32 := by
    have within := aligned.within
    omega
  have base : (BitVec.ofNat 32 block.1).toNat = block.1 := by
    rw [BitVec.toNat_ofNat, Nat.mod_eq_of_lt small]
  have address := spells_ip small
  rw [← toList_ipv4] at address
  by_cases whole : block.2 = 32
  · refine ⟨.point (BitVec.ofNat 32 block.1), ?_, ?_, by simp [AddrAtom.form, AddrAtom.yield]⟩
    · rw [blockText, if_pos (by simpa using whole)]
      exact address
    · intro x
      simp only [AddrAtom.Has, base, blockRange, whole]
      omega
  · refine ⟨.cidr (BitVec.ofNat 32 block.1) block.2 aligned.length_le, ?_, ?_,
      by simp [AddrAtom.form, AddrAtom.yield]⟩
    · rw [blockText, if_neg (by simpa using whole)]
      have length := aligned.length_le
      simp only [String.toList_append, List.append_assoc]
      exact address.then_slash (spells_num (n := block.2) (by omega))
    · intro x
      have inDomain : block.1 ≤ domainMax 32 := by
        rw [domainMax_eq address_narrow]
        omega
      rw [← aligned.contains_ofPrefix address_narrow inDomain x, IntervalSet.contains_ofPrefix]
      simp only [AddrAtom.Has, base]

theorem exists_addrSpec {keyword : String} {ks : List Tok} (spells : Spells keyword.toList ks)
    {set : IntervalSet 32} (inhabited : set.isEmpty = false) :
    ∃ spec : Spec AddrAtom,
      Spells (valueExpr keyword ((setToPrefixes set).map blockText)).toList
        (ks ++ spec.yield AddrAtom.form) ∧ spec.set AddrAtom.form = set ∧
          .word "meta" ∉ spec.yield AddrAtom.form := by
  obtain ⟨aligned, covers⟩ := setToPrefixes_spec address_narrow set
  have nonempty : setToPrefixes set ≠ [] := by
    intro none
    rw [(setToPrefixes_eq_nil_iff address_narrow set).mp none] at inhabited
    contradiction
  obtain ⟨spec, spelled, plain, related, sober⟩ := exists_spec nonempty
    (fun block member => spells_blockText (aligned block member)) spells
  refine ⟨spec, spelled, ?_, sober⟩
  apply spec_set_eq AddrAtom.contains_set plain related
  intro x
  rw [← covers x]
  simp only [Covers, List.mem_map, exists_exists_and_eq_and]

/-! ### Ports -/

theorem spells_rangeText {range : Range} (proper : range.1 ≤ range.2)
    (bounded : range.2 ≤ 65535) :
    ∃ atom : PortAtom, Spells (rangeText range).toList (PortAtom.form.yield atom) ∧
      (∀ x, atom.Has x ↔ range.1 ≤ x ∧ x ≤ range.2) ∧
        .word "meta" ∉ PortAtom.form.yield atom := by
  by_cases single : range.1 = range.2
  · refine ⟨.one range.1 (by omega), ?_, ?_, by simp [PortAtom.form, PortAtom.yield]⟩
    · rw [rangeText, if_pos (by simpa using single)]
      exact spells_num (by omega)
    · intro x
      simp only [PortAtom.Has]
      omega
  · refine ⟨.range range.1 range.2 (by omega) proper, ?_, fun x => Iff.rfl,
      by simp [PortAtom.form, PortAtom.yield]⟩
    rw [rangeText, if_neg (by simpa using single)]
    simp only [String.toList_append, List.append_assoc]
    exact spells_range (by omega) (by omega)

theorem exists_portSpec {keyword : String} {ks : List Tok} (spells : Spells keyword.toList ks)
    {set : IntervalSet 16} (inhabited : set.isEmpty = false) :
    ∃ spec : Spec PortAtom,
      Spells (valueExpr keyword (set.ranges.map rangeText)).toList
        (ks ++ spec.yield PortAtom.form) ∧ spec.set PortAtom.form = set ∧
          .word "meta" ∉ spec.yield PortAtom.form := by
  have nonempty : set.ranges ≠ [] := by
    intro none
    rw [IntervalSet.isEmpty, none] at inhabited
    contradiction
  obtain ⟨spec, spelled, plain, related, sober⟩ := exists_spec nonempty
    (fun range member => spells_rangeText (set.canonical.proper range member)
      (set.canonical.bounded range member)) spells
  refine ⟨spec, spelled, ?_, sober⟩
  apply spec_set_eq PortAtom.contains_set plain related
  intro x
  rw [IntervalSet.contains_iff]
  exact Iff.rfl

/-! ### Protocols -/

theorem spells_protoText {v : Nat} (within : v ≤ 255) :
    ∃ spec : Spec ProtoAtom, Spells (protoText v).toList (spec.yield ProtoAtom.form) ∧
      spec.set ProtoAtom.form = IntervalSet.point 8 v (protocol_le within) ∧
        .word "meta" ∉ spec.yield ProtoAtom.form := by
  have named (name : String) (known : protoNumber name = some v)
      (word : isWord name.toList = true) (plain : name ≠ "meta") (text : protoText v = name) :
      ∃ spec : Spec ProtoAtom, Spells (protoText v).toList (spec.yield ProtoAtom.form) ∧
        spec.set ProtoAtom.form = IntervalSet.point 8 v (protocol_le within) ∧
          .word "meta" ∉ spec.yield ProtoAtom.form := by
    refine ⟨⟨.absent, .single (.name name v known)⟩, ?_, rfl, ?_⟩
    · rw [text]
      exact spells_word word
    · simpa [Spec.yield, Negation.yield, Value.yield, ProtoAtom.form, ProtoAtom.yield]
        using plain.symm
  by_cases icmp : v = 1
  · subst icmp
    exact named "icmp" rfl (by decide) (by decide) rfl
  by_cases tcp : v = 6
  · subst tcp
    exact named "tcp" rfl (by decide) (by decide) rfl
  by_cases udp : v = 17
  · subst udp
    exact named "udp" rfl (by decide) (by decide) rfl
  · refine ⟨⟨.absent, .single (.number v within)⟩, ?_, rfl,
      by simp [Spec.yield, Negation.yield, Value.yield, ProtoAtom.form, ProtoAtom.yield]⟩
    have text : protoText v = toString v := by
      unfold protoText
      split <;> first | contradiction | rfl
    rw [text]
    exact spells_num (by omega)

/-! ### Interfaces -/

/-- A name as it comes back: its bytes, one character each. -/
def rereadName (name : String) : String :=
  String.ofList (Utf8.reread name.toList)

/-- A name that stands between quotes as it is. -/
structure Quotable (name : String) : Prop where
  noQuote : '"' ∉ name.toList
  noEscape : '\\' ∉ name.toList

theorem spells_quoted {name : String} (quotable : Quotable name)
    (noStar : name.toList.contains '*' = false) :
    ∃ atom : IfAtom, Spells (quoted name).toList (IfAtom.form.yield atom) ∧
      atom.name = rereadName name ∧ .word "meta" ∉ IfAtom.form.yield atom := by
  have named : (rereadName name).toList.contains '*' = false := by
    rw [Bool.eq_false_iff, Ne, List.contains_iff_mem] at noStar ⊢
    rw [rereadName, String.toList_ofList]
    exact fun member => noStar ((Utf8.mem_reread_iff (n := 42) (by decide) _).mp member)
  refine ⟨⟨rereadName name, true, named⟩, ?_, rfl, by simp [IfAtom.form, IfAtom.yield]⟩
  have spelled := spells_str quotable.noQuote quotable.noEscape
  rw [quoted, String.toList_append, String.toList_append, List.append_assoc]
  exact spelled

theorem exists_iifSpec {names : Finset String} (nonempty : names.Nonempty)
    (quotable : ∀ name ∈ names, Quotable name)
    (noStar : ∀ name ∈ names, name.toList.contains '*' = false) :
    ∃ spec : Spec IfAtom,
      Spells (valueExpr "iifname" ((sortNames names).map quoted)).toList
        ([.word "iifname"] ++ spec.yield IfAtom.form) ∧
          spec.interfaces = .oneOf (names.image rereadName) ∧
            .word "meta" ∉ spec.yield IfAtom.form := by
  have listed : sortNames names ≠ [] := by
    obtain ⟨name, member⟩ := nonempty
    exact List.ne_nil_of_mem (mem_sortNames.mpr member)
  obtain ⟨spec, spelled, plain, related, sober⟩ := exists_spec listed
    (fun name member => spells_quoted (quotable name (mem_sortNames.mp member))
      (noStar name (mem_sortNames.mp member)))
    (spells_keyword "iifname" (by decide))
  refine ⟨spec, spelled, ?_, sober⟩
  have admitted (name : String) :
      spec.interfaces.Admits name ↔ ∃ other ∈ names, rereadName other = name := by
    rw [spec.admits_interfaces, Spec.Holds, plain]
    have items := related.exists_iff (P := fun other => rereadName other = name)
      (Q := fun atom : IfAtom => atom.name = name) (fun other atom same => by rw [same])
    simpa only [mem_sortNames, Negation.negated] using items.symm
  unfold Spec.interfaces at admitted ⊢
  rw [plain] at admitted ⊢
  simp only [Negation.negated, ifFinish, Bool.false_eq_true, if_false] at admitted ⊢
  congr 1
  ext name
  rw [Finset.mem_image]
  exact admitted name

end Fwdelta.Emit
