import Fwdelta.Cli.Gate
import Fwdelta.Nft.Obligations

/-
From two texts to the exit code.

The statements of a text say which traffic a rule meets.  Parsing, analysis and the gate
keep that meaning, where no statement about an interface takes back an earlier one: the
gate fails over lost access exactly when some traffic is permitted by the statements of
a chain in the base and denied by those of its namesake in the head.
-/

namespace Fwdelta.Nft

/-! ### The meaning of the statements -/

/-- All statements of the rule hold of the traffic. -/
def RuleText.MeetsTraffic (r : RuleText) (t : Traffic) : Prop :=
  ∀ stmt ∈ r.stmts, stmt.Holds t.header t.iif

/-- The action by first match on the rules as they are written. -/
def RuledBy (policy : Action) (t : Traffic) (action : Action) : List RuleText → Prop
  | [] => action = policy
  | r :: rest =>
      (r.MeetsTraffic t ∧ r.stmts.filterMap Stmt.verdict = [action]) ∨
        (¬ r.MeetsTraffic t ∧ RuledBy policy t action rest)

def ChainText.Rules (c : ChainText) (t : Traffic) (action : Action) : Prop :=
  RuledBy c.declaration.value t action c.ruleTexts

/-- No rule of the file takes back what it says about an interface. -/
def FileText.Narrows (f : FileText) : Prop :=
  ∀ c ∈ f.chainTexts, ∀ r ∈ c.ruleTexts, r.LastInterfaceNarrows

/-- The first chain of that name. -/
def FileText.chainText (f : FileText) (name : String) : Option ChainText :=
  f.chainTexts.find? (fun c => c.declaration.name == name)

/-! ### The parser keeps the meaning -/

theorem RuleText.admits_last_iff {r : RuleText} (narrows : r.LastInterfaceNarrows)
    (name : String) :
    (r.interfaces.getLastD .any).Admits name ↔ ∀ m ∈ r.interfaces, m.Admits name := by
  rw [List.getLastD_eq_getLast?]
  cases isLast : r.interfaces.getLast? with
  | none =>
      rw [List.getLast?_eq_none_iff] at isLast
      rw [isLast]
      exact iff_of_true trivial nofun
  | some last =>
      exact ⟨narrows last isLast name, fun all => all last (List.mem_of_getLast? isLast)⟩

/-- A compiled match meets the traffic of which all statements hold. -/
theorem RuleText.meets_iff {hook : Hook} {r : RuleText} {m : Match} {action : Action}
    (compiled : r.compile hook = some (m, action)) (narrows : r.LastInterfaceNarrows)
    (t : Traffic) : m.Meets t ↔ r.MeetsTraffic t := by
  obtain ⟨_, rfl, _⟩ := compile_spec compiled
  unfold Match.Meets MeetsTraffic
  rw [containsHeader_foldl_narrow, iif_foldl_narrow, oif_foldl_narrow, forall_holds_iff,
    ← admits_last_iff narrows]
  exact and_congr (and_iff_right (Match.containsHeader_any _)) (and_iff_left trivial)

theorem ruledBy_iff {hook : Hook} {policy : Action} {t : Traffic} {action : Action}
    {texts : List RuleText} {rules : List Rule}
    (compiled : List.Forall₂ (fun (r : RuleText) rule =>
      r.compile hook = some (rule.predicate, rule.action)) texts rules)
    (narrows : ∀ r ∈ texts, r.LastInterfaceNarrows) :
    RuledBy policy t action texts ↔
      (match rules.find? (fun rule => decide (rule.predicate.Meets t)) with
        | some rule => rule.action
        | none => policy) = action := by
  induction compiled with
  | nil => exact eq_comm
  | @cons r rule rest later first _ ih =>
      have meets := r.meets_iff first (narrows r List.mem_cons_self) t
      have verdict : r.stmts.filterMap Stmt.verdict = [rule.action] :=
        (RuleText.compile_spec first).2.2.1
      unfold RuledBy
      rw [ih fun other member => narrows other (List.mem_cons_of_mem _ member), ← meets, verdict]
      by_cases here : rule.predicate.Meets t
      · rw [List.find?_cons_of_pos (by simpa using here)]
        simp [here]
      · rw [List.find?_cons_of_neg (by simpa using here)]
        simp [here]

theorem ChainText.rules_iff {s : Source} {c : ChainText} {chain : Chain}
    (compiled : c.compile s = some chain) (narrows : ∀ r ∈ c.ruleTexts, r.LastInterfaceNarrows)
    (t : Traffic) (action : Action) : c.Rules t action ↔ chain.ruling t = action := by
  obtain ⟨_, _, _, policy, rules⟩ := compile_spec compiled
  unfold ChainText.Rules
  rw [← policy, ruledBy_iff rules narrows]
  rfl

theorem find?_compiled {s : Source} {texts : List ChainText} {chains : List Chain}
    (compiled : List.Forall₂ (fun (c : ChainText) chain => c.compile s = some chain) texts chains)
    (name : String) :
    Option.Rel (fun (c : ChainText) chain => c.compile s = some chain)
      (texts.find? (fun c => c.declaration.name == name))
      (chains.find? (fun c => c.name == name)) := by
  induction compiled with
  | nil => exact .none
  | @cons c chain texts chains first _ ih =>
      have same : chain.name = c.declaration.name := (ChainText.compile_spec first).2.1
      by_cases named : c.declaration.name = name
      · rw [List.find?_cons_of_pos (by simpa using named),
          List.find?_cons_of_pos (by simpa [same] using named)]
        exact .some first
      · rw [List.find?_cons_of_neg (by simpa using named),
          List.find?_cons_of_neg (by simpa [same] using named)]
        exact ih

/-- The rulings of the first chain of a name are those of its text. -/
theorem FileText.Reads.exists_ruling_iff {f : FileText} {fileName source : String}
    {ruleset : Ruleset} (reads : f.Reads fileName source ruleset) (narrows : f.Narrows)
    (name : String) (t : Traffic) (permits : Bool) :
    (∃ chain, ruleset.chain name = some chain ∧ (chain.ruling t).permits = permits) ↔
      ∃ c action, f.chainText name = some c ∧ c.Rules t action ∧ action.permits = permits := by
  have related := find?_compiled reads.chains name
  have ruled {c : ChainText} {chain : Chain} (found : f.chainText name = some c)
      (compiled : c.compile { file := fileName, src := source } = some chain) (action : Action) :
      c.Rules t action ↔ chain.ruling t = action :=
    c.rules_iff compiled (narrows c (List.mem_of_find?_eq_some found)) t action
  unfold FileText.chainText at ruled ⊢
  unfold Ruleset.chain
  cases textFound : f.chainTexts.find? (fun c => c.declaration.name == name) with
  | none =>
      rw [textFound] at related
      cases chainFound : ruleset.chains.find? (fun c => c.name == name) with
      | none => simp
      | some chain =>
          rw [chainFound] at related
          contradiction
  | some c =>
      rw [textFound] at related
      cases chainFound : ruleset.chains.find? (fun c => c.name == name) with
      | none =>
          rw [chainFound] at related
          contradiction
      | some chain =>
          rw [chainFound] at related
          cases related with
          | some compiled =>
              have exact_ := ruled textFound compiled
              constructor
              · rintro ⟨other, found, permitted⟩
                obtain rfl := Option.some.inj found
                exact ⟨c, _, rfl, (exact_ _).mpr rfl, permitted⟩
              · rintro ⟨other, action, found, rules, permitted⟩
                obtain rfl := Option.some.inj found
                rw [← (exact_ action).mp rules] at permitted
                exact ⟨chain, rfl, permitted⟩

end Fwdelta.Nft

namespace Fwdelta.Cli

open DecisionDiagram
open Nft

/-- Some traffic is permitted by the statements of a chain in one file, and denied by those
of the chain of that name in the other. -/
def TextsLoseAccess (o : Options) (f g : FileText) : Prop :=
  ∃ name t, (∀ only ∈ o.chain, name = only) ∧
    (∃ c action, f.chainText name = some c ∧ c.Rules t action ∧ action.permits = true) ∧
      ∃ d action, g.chainText name = some d ∧ d.Rules t action ∧ action.permits = false

theorem losesAccess_iff_texts {baseName baseText headName headText : String}
    {base head : Ruleset} {f g : FileText} (baseReads : f.Reads baseName baseText base)
    (headReads : g.Reads headName headText head) (baseNarrows : f.Narrows)
    (headNarrows : g.Narrows) (o : Options) :
    LosesAccess o base head ↔ TextsLoseAccess o f g := by
  have each (name : String) (t : Traffic) :=
    and_congr (baseReads.exists_ruling_iff baseNarrows name t true)
      (headReads.exists_ruling_iff headNarrows name t false)
  unfold TextsLoseAccess
  simp only [← each]
  constructor
  · rintro ⟨name, b, h, compared, t, permitted, denied⟩
    exact ⟨name, t, compared.asked, ⟨b, compared.base, permitted⟩, h, compared.head, denied⟩
  · rintro ⟨name, t, asked, ⟨b, baseHas, permitted⟩, h, headHas, denied⟩
    exact ⟨name, b, h, ⟨baseHas, headHas, asked⟩, t, permitted, denied⟩

section Run

variable {B : Type} [Library HEADER_BITS B] [ContentHasher]

/-- Comparing two accepted texts with the gate fails exactly when some traffic is permitted
as the base is written and denied as the head is. -/
theorem texts_gate_exact {baseName baseText headName headText : String} {base head : Ruleset}
    {f g : FileText} (baseReads : f.Reads baseName baseText base)
    (headReads : g.Reads headName headText head) (baseNarrows : f.Narrows)
    (headNarrows : g.Narrows) {o : Options} (closed : o.failOnNewlyBlocked = true)
    {out : Comparison B} (ran : cmdDiff o base head none = .ok out)
    (room : out.syms.names.length < MAX_INTERFACES) :
    out.exit = 1 ↔ TextsLoseAccess o f g := by
  have of := cmdDiff_ran ran
  have silent : out.assertions = [] := (Except.ok.inj of.assertions).symm
  rw [← losesAccess_iff_texts baseReads headReads baseNarrows headNarrows, ← of.lost_iff room,
    of.exit, silent]
  unfold exitCode
  simp [closed]

end Run

/-- Turning the policy of a chain from accept to drop fails the gate, and some traffic is
permitted by the one text and denied by the other. -/
theorem dropping_text_fails_the_gate : letI : ContentHasher := ⟨fun _ _ => 0⟩
    ∃ f g : FileText, ∃ out : Comparison (Diagram HEADER_BITS),
      f.Reads "f" (bareSource "t" "c" "input" "accept") (bare [("c", .input, .accept)]) ∧
        g.Reads "f" (bareSource "t" "c" "input" "drop") (bare [("c", .input, .drop)]) ∧
          cmdDiff gated (bare [("c", .input, .accept)]) (bare [("c", .input, .drop)]) none =
            .ok out ∧ out.exit = 1 ∧ TextsLoseAccess gated f g := by
  let _ : ContentHasher := ⟨fun _ _ => 0⟩
  obtain ⟨f, baseReads⟩ := (parse_eq_ok_iff "f" (bareSource "t" "c" "input" "accept")
    (bare [("c", .input, .accept)])).mp (by decide +kernel)
  obtain ⟨g, headReads⟩ := (parse_eq_ok_iff "f" (bareSource "t" "c" "input" "drop")
    (bare [("c", .input, .drop)])).mp (by decide +kernel)
  obtain ⟨out, ran⟩ := gated_ran (B := Diagram HEADER_BITS) [("c", .input, .accept)]
    [("c", .input, .drop)]
  have narrows {f : FileText} {source : String} {action : Action}
      (reads : f.Reads "f" source (bare [("c", .input, action)])) : f.Narrows := by
    intro c member r among
    obtain ⟨chain, listed, compiled⟩ := reads.chains.exists_right member
    obtain ⟨_, _, _, _, rules⟩ := ChainText.compile_spec compiled
    obtain ⟨rule, present, _⟩ := rules.exists_right among
    rw [List.mem_singleton.mp listed] at present
    contradiction
  have texts := (losesAccess_iff_texts baseReads headReads (narrows baseReads) (narrows headReads)
    gated).mp (turned_losesAccess "c")
  exact ⟨f, g, out, baseReads, headReads, ran, (texts_gate_exact baseReads headReads
    (narrows baseReads) (narrows headReads) rfl ran (bare_room rfl ran)).mpr texts, texts⟩

end Fwdelta.Cli
