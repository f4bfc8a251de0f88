import Fwdelta.Lookahead.Termination
import Fwdelta.Nft.File

/-
The parser ends on every list of tokens.

Each function is a composition of functions that end, and each of its loops
consumes a token in every round that goes on.  A round may look at the end of the
file without moving the cursor, but it then leaves the loop or is rejected.
-/

namespace Fwdelta.Nft

open Lookahead

/-! ### Primitives -/

theorem halts_peek : Halts peek := Halts.peek.bind fun _ => .pure _

theorem halts_position : Halts position := Halts.peek.bind fun _ => .pure _

theorem halts_bump : Halts bump := Halts.bump.bind fun _ => .pure _

theorem halts_fail {α : Type} (error : ParseError) : Halts (fail error : Parser α) :=
  .reject _

theorem halts_eatSym (c : Char) : Halts (eatSym c) := .eat _

theorem halts_eatWord (w : String) : Halts (eatWord w) := .eat _

theorem halts_expectSym (s : Source) (c : Char) : Halts (expectSym s c) :=
  (halts_eatSym c).bind fun _ => .ite (.pure _) (.reject _)

theorem halts_expectWord (s : Source) : Halts (expectWord s) := by
  refine halts_bump.bind fun t => ?_
  split
  · exact .pure _
  · exact .reject _

theorem halts_expectNum (s : Source) : Halts (expectNum s) := by
  refine halts_bump.bind fun t => ?_
  split
  · exact .pure _
  · exact .reject _

theorem break_inner (t : Token) (isBreak : (t.tok == .brk) = true) : ¬ IsEnd t := by
  intro isEnd
  rw [isEnd] at isBreak
  contradiction

theorem halts_skipBreaks : Halts skipBreaks := .skip _ break_inner

/-! ### Value forms -/

theorem halts_rejectNamedSet (s : Source) : Halts (rejectNamedSet s) := by
  refine halts_peek.bind fun t => ?_
  split
  · exact .reject _
  · exact .pure _

theorem halts_negation : Halts negation :=
  (halts_eatSym '!').bind fun _ => .ite ((halts_eatSym '=').bind fun _ => .pure _) (.pure _)

section Members

variable {α β γ : Type} {form : Form α β} {atom : Parser β}

theorem halts_memberRound (s : Source) (halts : Halts atom) (add : γ → β → γ) (acc : γ) :
    Halts (memberRound s atom add acc) :=
  halts_skipBreaks.bind fun _ => halts.bind fun _ => halts_skipBreaks.bind fun _ =>
    (halts_eatSym ',').bind fun _ =>
      .ite (.pure _) ((halts_expectSym s '}').bind fun _ => .pure _)

theorem memberRound_advances (s : Source) (reads : form.ReadBy atom) (add : γ → β → γ) :
    Advances (memberRound s atom add) := by
  apply Reads.advances (fun acc => reads_memberRound s reads add acc)
  rintro acc ks next acc' ⟨member, ⟨rfl, _⟩ | ⟨rfl, _⟩⟩ <;> simp

theorem halts_valueForm (s : Source) (halts : Halts atom) (reads : form.ReadBy atom)
    (single : β → γ) (none : γ) (add : γ → β → γ) :
    Halts (valueForm s atom single none add) := by
  refine (halts_eatSym '{').bind fun _ => .ite ?_ (halts.bind fun _ => .pure _)
  exact .loop (halts_memberRound s halts add) (memberRound_advances s reads add) none

theorem halts_specForm (s : Source) {value : Parser β} (halts : Halts value)
    (finish : Bool → β → γ) : Halts (specForm s value finish) :=
  halts_negation.bind fun _ => (halts_rejectNamedSet s).bind fun _ =>
    halts.bind fun _ => .pure _

end Members

theorem halts_takeIp (s : Source) (pos : Nat × Nat) : Halts (takeIp s pos) := by
  refine halts_bump.bind fun t => ?_
  split
  · exact .pure _
  · exact halts_fail _

theorem halts_addrAtom (s : Source) : Halts (addrAtom s) := by
  refine halts_position.bind fun start => (halts_takeIp s start).bind fun base =>
    (halts_eatSym '/').bind fun _ => .ite ?_ ((halts_eatSym '-').bind fun _ => .ite ?_ (.pure _))
  · exact (halts_expectNum s).bind fun _ => .ite (halts_fail _) (.pure _)
  · exact halts_position.bind fun fin => (halts_takeIp s fin).bind fun _ =>
      .ite (halts_fail _) (.pure _)

theorem halts_addrSpec (s : Source) : Halts (addrSpec s) :=
  halts_specForm s (halts_valueForm s (halts_addrAtom s) (reads_addrAtom s) _ _ _) _

theorem halts_rejectService (s : Source) (pos : Nat × Nat) : Halts (rejectService s pos) := by
  refine halts_peek.bind fun t => ?_
  split
  · exact halts_fail _
  · exact .pure _

theorem halts_portAtom (s : Source) : Halts (portAtom s) := by
  refine halts_position.bind fun start => (halts_rejectService s start).bind fun _ =>
    (halts_expectNum s).bind fun lo => ?_
  split
  · exact halts_fail _
  · refine (halts_eatSym '-').bind fun _ => .ite ?_ (.pure _)
    exact halts_position.bind fun _ => (halts_expectNum s).bind fun _ =>
      .ite (halts_fail _) (.ite (halts_fail _) (.pure _))

theorem halts_portSpec (s : Source) : Halts (portSpec s) :=
  halts_specForm s (halts_valueForm s (halts_portAtom s) (reads_portAtom s) _ _ _) _

theorem halts_protoAtom (s : Source) : Halts (protoAtom s) := by
  refine halts_position.bind fun start => halts_bump.bind fun t => ?_
  split
  · split
    · exact .pure _
    · exact halts_fail _
  · split
    · exact .pure _
    · exact halts_fail _
  · exact halts_fail _

theorem halts_protoSpec (s : Source) : Halts (protoSpec s) :=
  halts_specForm s (halts_valueForm s (halts_protoAtom s) (reads_protoAtom s) _ _ _) _

theorem halts_takeName (s : Source) (pos : Nat × Nat) : Halts (takeName s pos) := by
  refine halts_bump.bind fun t => ?_
  unfold nameText
  split
  · exact .pure _
  · exact .pure _
  · exact halts_fail _

theorem halts_ifName (s : Source) : Halts (ifName s) :=
  halts_position.bind fun start => (halts_takeName s start).bind fun _ =>
    halts_peek.bind fun _ => .ite (halts_fail _) (.pure _)

theorem halts_ifSpec (s : Source) : Halts (ifSpec s) :=
  halts_specForm s (halts_valueForm s (halts_ifName s) (reads_ifName s) _ _ _) _

/-! ### Statements -/

theorem halts_ipMatch (s : Source) (m : Match) : Halts (ipMatch s m) := by
  refine halts_position.bind fun start => (halts_expectWord s).bind fun w => ?_
  split
  · exact (halts_addrSpec s).bind fun _ => .pure _
  · exact (halts_addrSpec s).bind fun _ => .pure _
  · exact (halts_protoSpec s).bind fun _ => .pure _
  · exact halts_fail _

theorem halts_metaMatch (s : Source) (m : Match) (keyword : Nat × Nat) :
    Halts (metaMatch s m keyword) := by
  refine (halts_expectWord s).bind fun w => ?_
  split
  · exact (halts_protoSpec s).bind fun _ => .pure _
  · exact (halts_ifSpec s).bind fun _ => .pure _
  · exact halts_fail _
  · exact halts_fail _

theorem halts_l4Match (s : Source) (m : Match) (l4 : L4) : Halts (l4Match s m l4) := by
  refine halts_position.bind fun start => (halts_expectWord s).bind fun w => ?_
  split
  · exact (halts_portSpec s).bind fun _ => .pure _
  · exact (halts_portSpec s).bind fun _ => .pure _
  · exact halts_fail _

theorem halts_dropNum : Halts dropNum := halts_bump.bind fun _ => .pure _

theorem halts_skipCounter : Halts skipCounter :=
  (halts_eatWord "packets").bind fun _ => .ite
    (halts_dropNum.bind fun _ => (halts_eatWord "bytes").bind fun _ =>
      .ite halts_dropNum (.pure _)) (.pure _)

theorem logRound_advances : Advances logRound :=
  Reads.items_advances reads_logRound (by simp [LogOption.yield])

theorem halts_skipLog : Halts skipLog := by
  apply Halts.loop _ logRound_advances
  intro _
  exact (Halts.eat _).bind fun _ => .ite ((Halts.eat _).bind fun _ => .pure _) (.pure _)

theorem reason_inner (t : Token) (goesOn : (!endsStatement t.tok) = true) : ¬ IsEnd t := by
  intro isEnd
  rw [isEnd] at goesOn
  contradiction

theorem halts_skipReason : Halts skipReason := .skip _ reason_inner

theorem halts_takeComment (s : Source) : Halts (takeComment s) :=
  (Halts.eat _).bind fun _ => .ite (.pure _) (.reject _)

theorem halts_setAction (s : Source) (current : Option Action) (new : Action)
    (keyword : Nat × Nat) : Halts (setAction s current new keyword) := by
  unfold setAction
  split
  · exact halts_fail _
  · exact .pure _

theorem halts_statement (s : Source) (hook : Hook) (st : RuleState) (w : String)
    (keyword : Nat × Nat) : Halts (statement s hook st w keyword) := by
  have verdict (new : Action) : Halts (do
      let action ← setAction s st.action new keyword
      pure { st with action := some action } : Parser RuleState) :=
    (halts_setAction s st.action new keyword).bind fun _ => .pure _
  unfold statement
  split
  · exact (halts_ipMatch s st.m).bind fun _ => .pure _
  · exact (halts_metaMatch s st.m keyword).bind fun _ => .pure _
  · exact (halts_l4Match s st.m .tcp).bind fun _ => .pure _
  · exact (halts_l4Match s st.m .udp).bind fun _ => .pure _
  · exact .ite (halts_fail _) ((halts_ifSpec s).bind fun _ => .pure _)
  · exact halts_skipCounter.bind fun _ => .pure _
  · exact (halts_takeComment s).bind fun _ => .pure _
  · exact halts_skipLog.bind fun _ => .pure _
  · exact verdict .accept
  · exact verdict .drop
  · exact (halts_eatWord "with").bind fun _ =>
      .ite (halts_skipReason.bind fun _ => verdict .reject) (verdict .reject)
  · exact halts_fail _

theorem halts_statementRound (s : Source) (hook : Hook) (st : RuleState) :
    Halts (statementRound s hook st) := by
  refine halts_peek.bind fun t => ?_
  split
  · exact .pure _
  · exact .pure _
  · exact .pure _
  · exact .reject _
  · exact halts_position.bind fun keyword => halts_bump.bind fun _ =>
      (halts_statement s hook st _ keyword).bind fun _ => .pure _
  · exact .reject _

theorem statementRound_advances (s : Source) (hook : Hook) : Advances (statementRound s hook) :=
  Reads.items_advances (reads_statementRound s) (by simp [Stmt.yield])

/-! ### Rules, chains, tables and files -/

theorem halts_rule (s : Source) (hook : Hook) : Halts (rule s hook) := by
  refine halts_position.bind fun start => Halts.bind ?_ fun st => ?_
  · exact .loop (halts_statementRound s hook) (statementRound_advances s hook) _
  · unfold finishRule
    split
    · exact halts_fail _
    · refine Halts.bind ?_ fun _ => .pure _
      exact .ite (halts_fail _) (.ite (halts_fail _) (.pure _))

theorem halts_takeKind (s : Source) : Halts (takeKind s) := by
  refine halts_position.bind fun start => (halts_expectWord s).bind fun w => ?_
  split
  · exact .pure _
  · exact halts_fail _
  · exact halts_fail _

theorem halts_takeHook (s : Source) : Halts (takeHook s) := by
  refine halts_position.bind fun start => (halts_expectWord s).bind fun w => ?_
  split <;> first
    | exact .pure _
    | exact halts_fail _

theorem halts_takePriority (s : Source) : Halts (takePriority s) :=
  (halts_eatSym '-').bind fun _ => (Halts.eat _).bind fun _ => .ite (.pure _) (.reject _)

theorem halts_policyValue (s : Source) : Halts (policyValue s) := by
  refine halts_position.bind fun start => (halts_expectWord s).bind fun w => ?_
  split
  · exact .pure _
  · exact .pure _
  · exact halts_fail _

theorem halts_takePolicy (s : Source) : Halts (takePolicy s) :=
  (halts_eatWord "policy").bind fun _ => .ite
    ((halts_policyValue s).bind fun _ => halts_skipBreaks.bind fun _ => .pure _) (.pure _)

theorem halts_takeDevice : Halts takeDevice :=
  (halts_eatWord "device").bind fun _ => .ite (halts_bump.bind fun _ => .pure _) (.pure _)

theorem halts_declaration (s : Source) : Halts (declaration s) := by
  refine halts_position.bind fun start => (halts_expectWord s).bind fun name =>
    (halts_expectSym s '{').bind fun _ => halts_skipBreaks.bind fun _ =>
      (halts_eatWord "type").bind fun _ => .ite ?_ (halts_fail _)
  refine (halts_takeKind s).bind fun _ =>
    (halts_eatWord "hook").bind fun _ => .ite ?_ (.reject _)
  refine (halts_takeHook s).bind fun hook => halts_takeDevice.bind fun _ =>
    (halts_eatWord "priority").bind fun _ => .ite ?_ (.reject _)
  exact (halts_takePriority s).bind fun _ => halts_skipBreaks.bind fun _ =>
    (halts_takePolicy s).bind fun _ => .pure _

theorem halts_ruleRound (s : Source) (chain : Chain) : Halts (ruleRound s chain) := by
  refine halts_skipBreaks.bind fun _ => (halts_eatSym '}').bind fun _ =>
    .ite (.pure _) (halts_peek.bind fun t => ?_)
  split
  · exact .reject _
  · exact (halts_rule s chain.hook).bind fun _ => .pure _

theorem ruleRound_advances (s : Source) : Advances (ruleRound s) :=
  Reads.items_advances (reads_ruleRound s) (by simp [RuleItem.tokens, RuleText.tokens])

theorem halts_chain (s : Source) : Halts (chain s) :=
  (halts_declaration s).bind fun declared =>
    .loop (halts_ruleRound s) (ruleRound_advances s) declared

theorem halts_takeFamily (s : Source) : Halts (takeFamily s) :=
  halts_position.bind fun _ => (halts_expectWord s).bind fun _ =>
    .ite (.pure _) (.ite (halts_fail _) (halts_fail _))

theorem halts_tableHead (s : Source) : Halts (tableHead s) :=
  (halts_takeFamily s).bind fun _ => (halts_expectWord s).bind fun _ => halts_expectSym s '{'

theorem halts_chainRound (s : Source) (found : List Chain) : Halts (chainRound s found) := by
  refine halts_skipBreaks.bind fun _ => (halts_eatSym '}').bind fun _ => .ite (.pure _) ?_
  refine halts_position.bind fun start => halts_bump.bind fun t => ?_
  split
  · exact .ite ((halts_chain s).bind fun _ => .pure _) (.ite (halts_fail _) (halts_fail _))
  · exact .reject _
  · exact halts_fail _

theorem chainRound_advances (s : Source) : Advances (chainRound s) :=
  Reads.items_advances (reads_chainRound s) (by simp [ChainItem.tokens])

theorem halts_table (s : Source) : Halts (table s) :=
  (halts_tableHead s).bind fun _ => .loop (halts_chainRound s) (chainRound_advances s) []

theorem halts_tableRound (s : Source) (found : List Chain) : Halts (tableRound s found) := by
  refine halts_peek.bind fun t => ?_
  split
  · exact .pure _
  · refine halts_position.bind fun start => halts_bump.bind fun t => ?_
    split
    · exact .ite ((halts_table s).bind fun _ => halts_skipBreaks.bind fun _ => .pure _)
        (.ite (halts_fail _) (halts_fail _))
    · exact halts_fail _

theorem tableRound_advances (s : Source) : Advances (tableRound s) :=
  Reads.items_advances (reads_tableRound s) (by simp [TableItem.tokens])

theorem halts_file (s : Source) : Halts (file s) :=
  halts_skipBreaks.bind fun _ => Halts.bind
    (.loop (halts_tableRound s) (tableRound_advances s) []) fun _ => .pure _

/-- Every input is accepted or rejected. -/
theorem parse_returns (fileName source : String) :
    (∃ ruleset, parse fileName source = .ok ruleset) ∨
      ∃ error, parse fileName source = .error (.rejected error) := by
  unfold parse
  split
  · exact Or.inr ⟨_, rfl⟩
  · next lexed =>
      split
      · next e failed =>
          cases e with
          | rejected error => exact Or.inr ⟨error, rfl⟩
          | exhausted => exact absurd failed (halts_file _ _)
      · exact Or.inl ⟨_, rfl⟩

end Fwdelta.Nft
