import Fwdelta.Kerneldiff.Parsed
import Fwdelta.Kerneldiff.Roundtrip

/-
The backslashes of an emitted chain.

The emitter writes names as they are, so the backslashes of its text are those
of the names: too few for names that have any, or have quotes, to be read back.
-/

namespace Fwdelta.Emit

open Nft

def backslashes (text : String) : Nat :=
  text.toList.count '\\'

@[simp] theorem backslashes_append (front back : String) :
    backslashes (front ++ back) = backslashes front + backslashes back := by
  rw [backslashes, String.toList_append, List.count_append, backslashes, backslashes]

theorem backslashes_eq_zero {text : String} (absent : '\\' ∉ text.toList) :
    backslashes text = 0 :=
  List.count_eq_zero_of_not_mem absent

theorem backslashes_word {text : String} (word : isWord text.toList = true) :
    backslashes text = 0 :=
  backslashes_eq_zero (not_mem_of_continues (continues_of_isWord word) (by decide))

@[simp] theorem backslashes_repr (n : Nat) : backslashes n.repr = 0 := by
  apply backslashes_eq_zero
  rw [show n.repr = toString n from rfl, Text.toList_toString]
  intro member
  have digit := Text.isDigit_of_mem_toDigits member
  contradiction

theorem backslashes_intercalate {separator : String} (free : backslashes separator = 0)
    (parts : List String) :
    backslashes (separator.intercalate parts) = (parts.map backslashes).sum := by
  induction parts with
  | nil => rfl
  | cons part rest ih =>
      cases rest with
      | nil => simp [String.intercalate_singleton]
      | cons second later =>
          rw [String.intercalate_cons_cons, backslashes_append, backslashes_append, free, ih,
            Nat.add_zero, ← List.sum_cons, ← List.map_cons]

theorem backslashes_join (parts : List String) :
    backslashes (String.join parts) = (parts.map backslashes).sum := by
  induction parts with
  | nil => rfl
  | cons part rest ih =>
      rw [String.join_cons, backslashes_append, ih, List.map_cons, List.sum_cons]

/-! ### Parts without backslashes -/

theorem backslashes_ipv4 (v : Nat) : backslashes (ipv4 v) = 0 := by
  have dot : backslashes "." = 0 := rfl
  simp [ipv4, dot]

theorem backslashes_blockText (block : Nat × Nat) : backslashes (blockText block) = 0 := by
  have slash : backslashes "/" = 0 := rfl
  unfold blockText
  split
  · exact backslashes_ipv4 _
  · simp [backslashes_ipv4, slash]

theorem backslashes_rangeText (range : Range) : backslashes (rangeText range) = 0 := by
  have hyphen : backslashes "-" = 0 := rfl
  unfold rangeText
  split <;> simp [hyphen]

theorem backslashes_protoText (v : Nat) : backslashes (protoText v) = 0 := by
  unfold protoText
  split
  · rfl
  · rfl
  · rfl
  · exact backslashes_repr _

/-- A value has the backslashes of its parts. -/
theorem backslashes_valueExpr {keyword : String} (free : backslashes keyword = 0)
    (parts : List String) :
    backslashes (valueExpr keyword parts) = (parts.map backslashes).sum := by
  unfold valueExpr
  split
  · have blank : backslashes " " = 0 := rfl
    simp [free, blank]
  · have opening : backslashes " \x7b " = 0 := rfl
    have closing : backslashes " \x7d" = 0 := rfl
    simp only [backslashes_append, free, opening, closing,
      backslashes_intercalate (show backslashes ", " = 0 from rfl)]
    omega

theorem sum_map_eq_zero {α : Type} {f : α → Nat} (zero : ∀ item, f item = 0) (items : List α) :
    (items.map f).sum = 0 := by
  rw [List.sum_eq_zero_iff_forall_eq_nat]
  intro n member
  obtain ⟨item, _, rfl⟩ := List.mem_map.mp member
  exact zero item

theorem backslashes_valueExpr_map {α : Type} {keyword : String} (free : backslashes keyword = 0)
    {text : α → String} (plain : ∀ item, backslashes (text item) = 0) (items : List α) :
    backslashes (valueExpr keyword (items.map text)) = 0 := by
  rw [backslashes_valueExpr free, List.map_map]
  exact sum_map_eq_zero plain items

/-- The backslashes of optional parts. -/
abbrev partsBackslashes (parts : List String) : Nat :=
  (parts.map backslashes).sum

theorem backslashes_addrExpr {keyword : String} (free : backslashes keyword = 0)
    (set : IntervalSet 32) : partsBackslashes (addrExpr keyword set).toList = 0 := by
  have ip : backslashes ("ip " ++ keyword) = 0 := by
    rw [backslashes_append, free]
    rfl
  unfold addrExpr
  split
  · rfl
  · exact backslashes_valueExpr_map ip backslashes_blockText _

theorem backslashes_portExpr {proto keyword : String} (freeProto : backslashes proto = 0)
    (free : backslashes keyword = 0) (set : IntervalSet 16) :
    partsBackslashes (portExpr proto keyword set).toList = 0 := by
  have both : backslashes (proto ++ " " ++ keyword) = 0 := by
    rw [backslashes_append, backslashes_append, freeProto, free]
    rfl
  unfold portExpr
  split
  · rfl
  · exact backslashes_valueExpr_map both backslashes_rangeText _

theorem backslashes_portExprs {l4 : String} (free : backslashes l4 = 0) {m : Match}
    {parts : List String} (written : portExprs l4 m = some parts) :
    partsBackslashes parts = 0 := by
  unfold portExprs at written
  split at written
  · obtain rfl := Option.some.inj written
    rw [partsBackslashes, List.map_append, List.sum_append]
    have src := backslashes_portExpr free (show backslashes "sport" = 0 from rfl) m.srcPort
    have dst := backslashes_portExpr free (show backslashes "dport" = 0 from rfl) m.dstPort
    rw [partsBackslashes] at src dst
    rw [src, dst]
  · split at written
    · contradiction
    · obtain rfl := Option.some.inj written
      rfl

theorem backslashes_protoKeyword (v : Nat) : backslashes (protoKeyword v) = 0 := by
  unfold protoKeyword
  split <;> rfl

theorem backslashes_verdictExpr (r : Rule) : backslashes (verdictExpr r) = 0 := by
  have counter : backslashes "counter " = 0 := rfl
  have comment : backslashes " comment \"r" = 0 := rfl
  have quote : backslashes "\"" = 0 := rfl
  have verdict : backslashes r.action.text = 0 := by
    cases r.action <;> rfl
  simp [verdictExpr, counter, comment, quote, verdict]

/-! ### Names -/

/-- The backslashes of the names that the emitter writes. -/
def ifBackslashes : IfMatch → Nat
  | .oneOf names => ∑ name ∈ names, backslashes name
  | _ => 0

theorem sum_sortNames (f : String → Nat) (names : Finset String) :
    ((sortNames names).map f).sum = ∑ name ∈ names, f name := by
  have listed : (sortNames names : Multiset String) = names.val := Finset.sort_eq _ _
  rw [Finset.sum, ← listed, Multiset.map_coe, Multiset.sum_coe]

theorem backslashes_iifExpr (m : IfMatch) :
    partsBackslashes (iifExpr m).toList = ifBackslashes m := by
  cases m with
  | any => rfl
  | noneOf names => rfl
  | oneOf names =>
      have keyword : backslashes "iifname" = 0 := rfl
      have quotes (name : String) : backslashes (quoted name) = backslashes name := by
        have quote : backslashes "\"" = 0 := rfl
        simp [quoted, quote]
      rw [iifExpr, Option.toList_some, partsBackslashes, List.map_singleton, List.sum_singleton,
        backslashes_valueExpr keyword, List.map_map, ifBackslashes, ← sum_sortNames]
      simp only [Function.comp_def, quotes]

/-- A rule has the backslashes of its names. -/
theorem backslashes_rule {r : Rule} {line : String} (written : rule r = some line) :
    backslashes line = ifBackslashes r.predicate.iif := by
  unfold rule at written
  obtain ⟨ports, found, written⟩ := Option.bind_eq_some_iff.mp written
  obtain rfl := Option.some.inj written
  have l4 : backslashes (((protoValue r.predicate.proto).map protoKeyword).getD "ip") = 0 := by
    cases protoValue r.predicate.proto with
    | none => rfl
    | some v => exact backslashes_protoKeyword v
  have proto : partsBackslashes ((protoValue r.predicate.proto).map
      (fun v => "meta l4proto " ++ protoText v)).toList = 0 := by
    cases protoValue r.predicate.proto with
    | none => rfl
    | some v =>
        have keywords : backslashes "meta l4proto " = 0 := rfl
        rw [Option.map_some, Option.toList_some, partsBackslashes, List.map_singleton,
          List.sum_singleton, backslashes_append, keywords, backslashes_protoText]
  have iif := backslashes_iifExpr r.predicate.iif
  have src := backslashes_addrExpr (show backslashes "saddr" = 0 from rfl) r.predicate.srcAddr
  have dst := backslashes_addrExpr (show backslashes "daddr" = 0 from rfl) r.predicate.dstAddr
  have port := backslashes_portExprs l4 found
  have indent : backslashes "    " = 0 := rfl
  rw [backslashes_append, backslashes_intercalate (show backslashes " " = 0 from rfl), indent,
    ruleParts]
  simp only [partsBackslashes] at iif proto src dst port
  simp only [List.map_append, List.sum_append, List.map_singleton, List.sum_singleton, iif, proto,
    src, dst, port, backslashes_verdictExpr]
  omega

theorem backslashes_lines {rules : List Rule} {lines : List String}
    (written : rules.mapM rule = some lines) :
    partsBackslashes (lines.map (fun line => line ++ "\n")) =
      (rules.map (fun r => ifBackslashes r.predicate.iif)).sum := by
  induction rules generalizing lines with
  | nil =>
      obtain rfl := Option.some.inj written
      rfl
  | cons r later ih =>
      rw [List.mapM_cons] at written
      obtain ⟨line, first, written⟩ := Option.bind_eq_some_iff.mp written
      obtain ⟨rest, others, written⟩ := Option.bind_eq_some_iff.mp written
      obtain rfl := Option.some.inj written
      have newline : backslashes "\n" = 0 := rfl
      rw [List.map_cons, partsBackslashes, List.map_cons, List.sum_cons, backslashes_append,
        newline, backslashes_rule first, List.map_cons, List.sum_cons, ← ih others]
      rfl

/-- An emitted chain has the backslashes of its names. -/
theorem backslashes_chainWith {table : String} (tableWord : isWord table.toList = true)
    {c : Chain} (nameWord : isWord c.name.toList = true) {text : String}
    (written : chainWith table c false = some text) :
    backslashes text = (c.rules.map (fun r => ifBackslashes r.predicate.iif)).sum := by
  unfold chainWith at written
  obtain ⟨lines, found, written⟩ := Option.bind_eq_some_iff.mp written
  obtain rfl := Option.some.inj written
  have hook := backslashes_word (isWord_hookText c.hook)
  have policy := backslashes_word (isWord_policyText c.policy)
  have rules := backslashes_lines found
  rw [partsBackslashes] at rules
  simp only [backslashes_append, backslashes_word tableWord, backslashes_word nameWord, hook,
    policy, backslashes_join, rules, Bool.false_eq_true, if_false]
  have opening : backslashes "table ip " = 0 := rfl
  have chain : backslashes " \x7b\n  chain " = 0 := rfl
  have brace : backslashes " \x7b\n" = 0 := rfl
  have type : backslashes "    type filter hook " = 0 := rfl
  have priority : backslashes " priority filter; policy " = 0 := rfl
  have ends : backslashes ";\n" = 0 := rfl
  have closing : backslashes "  \x7d\n\x7d\n" = 0 := rfl
  have none : backslashes "" = 0 := rfl
  omega

end Fwdelta.Emit
