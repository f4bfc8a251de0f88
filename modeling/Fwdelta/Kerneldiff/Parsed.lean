import Fwdelta.Kerneldiff.Sentence
import Fwdelta.Nft.Lexed
import Mathlib.Algebra.BigOperators.Group.Finset.Basic
import Mathlib.Algebra.Order.BigOperators.Group.List

/-
What the emitter can rely on in a parsed chain.

The parser never builds a port match without a protocol that has ports, nor a
name with a wildcard; and every quote and backslash of its names was paid for by
an escape in the source.
-/

namespace Fwdelta.Emit

open Nft

/-! ### The predicates of parsed rules -/

/-- The names of a positive match: some, and none with a wildcard. -/
def PlainNames (m : IfMatch) : Prop :=
  ∀ names, m = .oneOf names →
    names.Nonempty ∧ ∀ name ∈ names, name.toList.contains '*' = false

theorem atoms_ne_nil {α : Type} (value : Value α) : value.atoms ≠ [] := by
  cases value <;> simp [Value.atoms]

theorem plainNames_interfaces (spec : Spec IfAtom) : PlainNames spec.interfaces := by
  intro names same
  have admitted (name : String) : name ∈ names ↔ ∃ atom ∈ spec.value.atoms, atom.name = name := by
    have holds := spec.admits_interfaces name
    rw [same] at holds
    unfold Spec.interfaces ifFinish at same
    unfold Spec.Holds at holds
    cases negated : spec.negation.negated with
    | false =>
        rw [negated] at holds
        exact holds
    | true =>
        rw [negated] at same
        contradiction
  constructor
  · obtain ⟨atom, member⟩ := List.exists_mem_of_ne_nil _ (atoms_ne_nil spec.value)
    exact ⟨atom.name, (admitted _).mpr ⟨atom, member, rfl⟩⟩
  · intro name member
    obtain ⟨atom, _, rfl⟩ := (admitted name).mp member
    exact atom.named

/-- What every statement keeps of a predicate. -/
structure Shaped (m : Match) : Prop where
  ports : (m.srcPort.isFull = true ∧ m.dstPort.isFull = true) ∨
    ∃ l4 : L4, ∀ x, m.proto.contains x = true → x = l4.number
  names : PlainNames m.iif

theorem shaped_any : Shaped Match.any :=
  ⟨Or.inl ⟨rfl, rfl⟩, nofun⟩

/-- Narrowing the protocol keeps it pinned. -/
theorem Shaped.proto {m : Match} (shaped : Shaped m) (set : IntervalSet 8) :
    Shaped { m with proto := m.proto.intersect set } := by
  refine ⟨shaped.ports.imp id ?_, shaped.names⟩
  intro pinned
  obtain ⟨l4, only⟩ := pinned
  refine ⟨l4, fun x inside => only x ?_⟩
  rw [IntervalSet.contains_intersect, Bool.and_eq_true] at inside
  exact inside.1

theorem pinned_ports (m : Match) (l4 : L4) (x : Nat)
    (inside : (m.proto.intersect (L4.set l4)).contains x = true) : x = l4.number := by
  rw [IntervalSet.contains_intersect, Bool.and_eq_true] at inside
  exact (IntervalSet.contains_point l4.number x l4.number_le).mp inside.2

theorem Shaped.narrow {m : Match} (shaped : Shaped m) (stmt : Stmt) : Shaped (stmt.narrow m) := by
  cases stmt with
  | saddr spec => exact ⟨shaped.ports, shaped.names⟩
  | daddr spec => exact ⟨shaped.ports, shaped.names⟩
  | protocol spec => exact shaped.proto _
  | l4proto spec => exact shaped.proto _
  | ports l4 side spec =>
      cases side with
      | sport => exact ⟨Or.inr ⟨l4, pinned_ports m l4⟩, shaped.names⟩
      | dport => exact ⟨Or.inr ⟨l4, pinned_ports m l4⟩, shaped.names⟩
  | metaIifname spec => exact ⟨shaped.ports, plainNames_interfaces spec⟩
  | iifname spec => exact ⟨shaped.ports, plainNames_interfaces spec⟩
  | _ => exact shaped

theorem Shaped.narrowAll {stmts : List Stmt} {m : Match} (shaped : Shaped m) :
    Shaped (narrowAll stmts m) := by
  induction stmts generalizing m with
  | nil => exact shaped
  | cons stmt rest ih => exact ih (shaped.narrow stmt)

theorem emittable_of_compile {hook : Hook} {r : RuleText} {m : Match} {action : Action}
    (compiled : r.compile hook = some (m, action)) : Emittable m := by
  obtain ⟨_, built, _, satisfiable, _⟩ := RuleText.compile_spec compiled
  have shaped : Shaped m := by
    rw [built]
    exact shaped_any.narrowAll
  refine ⟨satisfiable, shaped.ports.imp id ?_, shaped.names⟩
  intro pinned
  obtain ⟨l4, only⟩ := pinned
  obtain ⟨_, _, _, _, inhabited⟩ := m.isUnsatisfiable_eq_false.mp satisfiable
  obtain ⟨value, inside⟩ := m.proto.isEmpty_eq_false_iff.mp inhabited
  refine ⟨l4, IntervalSet.eq_of_contains fun x => ?_⟩
  rw [L4.set, IntervalSet.contains_point]
  constructor
  · exact only x
  · rintro rfl
    rwa [← only value inside]

/-! ### The escapes of names -/

/-- The escapes that the names of the match need between quotes. -/
def ifEscapes : IfMatch → Nat
  | .oneOf names => ∑ name ∈ names, escapes name.toList
  | _ => 0

def toksEscapes (ks : List Tok) : Nat :=
  (ks.map Tok.escapes).sum

@[simp] theorem toksEscapes_nil : toksEscapes [] = 0 := rfl

@[simp] theorem toksEscapes_cons (k : Tok) (ks : List Tok) :
    toksEscapes (k :: ks) = k.escapes + toksEscapes ks := by
  rw [toksEscapes, List.map_cons, List.sum_cons, toksEscapes]

@[simp] theorem toksEscapes_append (front back : List Tok) :
    toksEscapes (front ++ back) = toksEscapes front + toksEscapes back := by
  rw [toksEscapes, List.map_append, List.sum_append, toksEscapes, toksEscapes]

theorem infix_flatMap {α β : Type} {f : α → List β} {items : List α} {item : α}
    (member : item ∈ items) : f item <:+: items.flatMap f := by
  rw [List.flatMap_def]
  exact List.infix_of_mem_flatten (List.mem_map_of_mem member)

theorem toksEscapes_le_of_sublist {front whole : List Tok} (sub : front.Sublist whole) :
    toksEscapes front ≤ toksEscapes whole :=
  (sub.map Tok.escapes).sum_le_sum (fun _ _ => Nat.zero_le _)

@[simp] theorem toksEscapes_breaks (n : Nat) : toksEscapes (breaks n) = 0 := by
  induction n with
  | zero => rfl
  | succ n ih =>
      rw [breaks, List.replicate_succ, toksEscapes_cons]
      rw [breaks] at ih
      rw [ih]
      rfl

theorem toksEscapes_atom (atom : IfAtom) :
    toksEscapes (IfAtom.form.yield atom) = escapes atom.name.toList := by
  cases quoted : atom.quoted <;> simp [IfAtom.form, IfAtom.yield, quoted, Tok.escapes]

theorem toksEscapes_member (member : Member IfAtom) :
    toksEscapes (member.yield IfAtom.form) = escapes member.atom.name.toList := by
  simp [Member.yield, toksEscapes_atom]

theorem toksEscapes_yieldRest (members : List (Member IfAtom)) :
    toksEscapes (yieldRest IfAtom.form members) =
      (members.map (fun member => escapes member.atom.name.toList)).sum := by
  induction members with
  | nil => rfl
  | cons member rest ih =>
      simp [yieldRest, toksEscapes_member, ih, Tok.escapes]

theorem sum_insert_le (f : String → Nat) (name : String) (names : Finset String) :
    ∑ other ∈ insert name names, f other ≤ f name + ∑ other ∈ names, f other := by
  by_cases member : name ∈ names
  · rw [Finset.insert_eq_of_mem member]
    exact Nat.le_add_left _ _
  · rw [Finset.sum_insert member]

theorem sum_foldl_insert_le (f : String → Nat) (members : List (Member IfAtom))
    (start : Finset String) :
    ∑ name ∈ members.foldl (fun names member =>
        insert (IfAtom.form.value member.atom) names) start, f name ≤
      ∑ name ∈ start, f name + (members.map (fun member => f member.atom.name)).sum := by
  induction members generalizing start with
  | nil => exact Nat.le_refl _
  | cons member rest ih =>
      have step := ih (insert (IfAtom.form.value member.atom) start)
      have inserted := sum_insert_le f (IfAtom.form.value member.atom) start
      rw [List.foldl_cons, List.map_cons, List.sum_cons]
      rw [show IfAtom.form.value member.atom = member.atom.name from rfl] at step inserted ⊢
      omega

/-- The names of a value cost no more than its tokens. -/
theorem ifEscapes_interfaces_le (spec : Spec IfAtom) :
    ifEscapes spec.interfaces ≤ toksEscapes (spec.yield IfAtom.form) := by
  unfold Spec.interfaces ifFinish
  cases spec.negation.negated with
  | true => exact Nat.zero_le _
  | false =>
      rw [Spec.yield, toksEscapes_append]
      apply Nat.le_trans _ (Nat.le_add_left _ _)
      cases spec.value with
      | single atom =>
          simp only [Bool.false_eq_true, if_false, Value.eval, ifEscapes, Finset.sum_singleton]
          exact Nat.le_of_eq (toksEscapes_atom atom).symm
      | set first rest =>
          have bound := sum_foldl_insert_le (fun name => escapes name.toList) (first :: rest) ∅
          rw [Finset.sum_empty, Nat.zero_add, List.map_cons, List.sum_cons] at bound
          simp only [Bool.false_eq_true, if_false, Value.eval, ifEscapes, Value.yield,
            toksEscapes_cons, toksEscapes_append, toksEscapes_member, toksEscapes_yieldRest]
          exact Nat.le_trans bound (Nat.le_add_left _ _)

theorem ifEscapes_stmt_le {stmt : Stmt} {m : IfMatch} (said : stmt.interfaces = some m) :
    ifEscapes m ≤ toksEscapes stmt.yield := by
  have spec_le (spec : Spec IfAtom) (same : some spec.interfaces = some m)
      (inside : (spec.yield IfAtom.form).Sublist stmt.yield) :
      ifEscapes m ≤ toksEscapes stmt.yield := by
    rw [← Option.some.inj same]
    exact Nat.le_trans (ifEscapes_interfaces_le spec) (toksEscapes_le_of_sublist inside)
  cases stmt with
  | metaIifname spec =>
      exact spec_le spec said ((List.sublist_cons_self _ _).trans (List.sublist_cons_self _ _))
  | iifname spec => exact spec_le spec said (List.sublist_cons_self _ _)
  | _ => contradiction

/-- The names of a rule cost no more than its text. -/
theorem ifEscapes_rule_le {hook : Hook} {r : RuleText} {m : Match} {action : Action}
    (compiled : r.compile hook = some (m, action)) :
    ifEscapes m.iif ≤ toksEscapes (r.tokens.map Token.tok) := by
  obtain ⟨_, rfl, _⟩ := RuleText.compile_spec compiled
  rw [RuleText.tokens, r.spelled, iif_foldl_narrow, List.getLastD_eq_getLast?]
  cases last : (r.stmts.filterMap Stmt.interfaces).getLast? with
  | none => exact Nat.zero_le _
  | some m =>
      obtain ⟨stmt, member, said⟩ :=
        List.mem_filterMap.mp (List.mem_of_getLast? last)
      exact Nat.le_trans (ifEscapes_stmt_le said)
        (toksEscapes_le_of_sublist (infix_flatMap member).sublist)

/-! ### Chains of an accepted file -/

theorem toksEscapes_rules_le (items : List RuleItem) :
    ((items.map RuleItem.rule).map (fun r => toksEscapes (r.tokens.map Token.tok))).sum ≤
      toksEscapes ((items.flatMap RuleItem.tokens).map Token.tok) := by
  induction items with
  | nil => exact Nat.le_refl _
  | cons item rest ih =>
      rw [List.map_cons, List.map_cons, List.sum_cons, List.flatMap_cons, List.map_append,
        toksEscapes_append, RuleItem.tokens, List.map_append, toksEscapes_append]
      omega

theorem ifEscapes_chain_le {s : Source} {c : ChainText} {chain : Chain}
    (compiled : c.compile s = some chain) :
    (chain.rules.map (fun r => ifEscapes r.predicate.iif)).sum ≤
      toksEscapes (c.tokens.map Token.tok) := by
  obtain ⟨_, _, _, _, rules⟩ := ChainText.compile_spec compiled
  have each : (chain.rules.map (fun r => ifEscapes r.predicate.iif)).sum ≤
      (c.ruleTexts.map (fun r => toksEscapes (r.tokens.map Token.tok))).sum := by
    apply List.Forall₂.sum_le_sum
    rw [List.forall₂_map_left_iff, List.forall₂_map_right_iff]
    exact rules.flip.imp (fun _ _ ruleCompiled => ifEscapes_rule_le ruleCompiled)
  apply Nat.le_trans each (Nat.le_trans (toksEscapes_rules_le c.rules) _)
  rw [ChainText.tokens, ChainText.body, List.map_append, List.map_append, toksEscapes_append,
    toksEscapes_append]
  omega

/-- The text of a chain stands in the file. -/
theorem infix_of_mem_chainTexts {f : FileText} {c : ChainText} (member : c ∈ f.chainTexts) :
    c.tokens <:+: f.tokens := by
  obtain ⟨item, listed, member⟩ := List.mem_flatMap.mp member
  obtain ⟨chainItem, inside, rfl⟩ := List.mem_map.mp member
  have inItem : chainItem.chain.tokens <:+: chainItem.tokens :=
    (List.suffix_cons _ _).isInfix.trans (List.suffix_append _ _).isInfix
  have inTable : item.table.chains.flatMap ChainItem.tokens <:+: item.tokens := by
    refine List.IsInfix.trans ⟨item.table.head, item.table.close.tokens, ?_⟩
      ((List.prefix_append item.table.tokens item.after.tokens).isInfix.trans
        (List.suffix_cons _ _).isInfix)
    rw [TableText.tokens, List.append_assoc]
  exact inItem.trans ((infix_flatMap inside).trans (inTable.trans
    ((infix_flatMap listed).trans (List.suffix_append _ _).isInfix)))

/-- The text of a rule stands in its chain. -/
theorem infix_of_mem_ruleTexts {c : ChainText} {r : RuleText} (member : r ∈ c.ruleTexts) :
    r.tokens <:+: c.tokens := by
  obtain ⟨item, listed, rfl⟩ := List.mem_map.mp member
  have inItem : item.rule.tokens <:+: item.tokens := (List.suffix_append _ _).isInfix
  exact inItem.trans ((infix_flatMap listed).trans ((List.prefix_append _ _).isInfix.trans
    (List.suffix_append _ _).isInfix))

/-- What the emitter relies on in a chain. -/
structure Parsed (c : Chain) : Prop where
  name : isWord c.name.toList = true
  plain : c.policy ≠ .reject
  emittable : ∀ r ∈ c.rules, Emittable r.predicate
  oif : ∀ r ∈ c.rules, r.predicate.oif = .any

theorem value_ne_reject (d : Declaration) : d.value ≠ .reject := by
  unfold Declaration.value
  cases d.policy with
  | none => simp
  | some policy => exact policy.plain

theorem name_mem_tokens (c : ChainText) : .word c.declaration.name ∈ c.tokens.map Token.tok := by
  rw [ChainText.tokens, List.map_append, c.declared]
  simp [Declaration.yield]

theorem parsed_of_compile {s : Source} {c : ChainText} {chain : Chain}
    (compiled : c.compile s = some chain)
    (words : ∀ t ∈ c.tokens, ∀ w, t.tok = .word w → isWord w.toList = true) : Parsed chain := by
  obtain ⟨_, name, _, policy, rules⟩ := ChainText.compile_spec compiled
  refine ⟨?_, ?_, ?_, ?_⟩
  · obtain ⟨t, member, isName⟩ := List.mem_map.mp (name_mem_tokens c)
    rw [name]
    exact words t member _ isName
  · rw [policy]
    exact value_ne_reject _
  · intro r member
    obtain ⟨_, _, compiled⟩ := rules.exists_left member
    exact emittable_of_compile compiled
  · intro r member
    obtain ⟨_, _, compiled⟩ := rules.exists_left member
    exact RuleText.oif_eq_any compiled

theorem parsed_of_parse {fileName source : String} {ruleset : Ruleset}
    (parsed : parse fileName source = .ok ruleset) {c : Chain} (member : c ∈ ruleset.chains) :
    Parsed c := by
  obtain ⟨f, reads⟩ := (parse_eq_ok_iff _ _ _).mp parsed
  obtain ⟨last, lexed⟩ := reads.lexed
  obtain ⟨text, listed, compiled⟩ := reads.chains.exists_left member
  apply parsed_of_compile compiled
  intro t inside
  exact (lex_lexed lexed).1 t ((infix_of_mem_chainTexts listed).subset inside)

/-- The names of a chain cost no more than the source has escapes. -/
theorem ifEscapes_le_of_parse {fileName source : String} {ruleset : Ruleset}
    (parsed : parse fileName source = .ok ruleset) {c : Chain} (member : c ∈ ruleset.chains) :
    (c.rules.map (fun r => ifEscapes r.predicate.iif)).sum ≤ source.toList.count '\\' := by
  obtain ⟨f, reads⟩ := (parse_eq_ok_iff _ _ _).mp parsed
  obtain ⟨last, lexed⟩ := reads.lexed
  obtain ⟨text, listed, compiled⟩ := reads.chains.exists_left member
  have spent : toksEscapes (f.tokens.map Token.tok) ≤ source.toList.count '\\' := by
    rw [toksEscapes, List.map_map]
    exact (lex_lexed lexed).2
  have inside := toksEscapes_le_of_sublist
    ((infix_of_mem_chainTexts listed).sublist.map Token.tok)
  exact Nat.le_trans (ifEscapes_chain_le compiled) (Nat.le_trans inside spent)

end Fwdelta.Emit
