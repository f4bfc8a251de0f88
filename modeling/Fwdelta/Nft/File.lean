import Fwdelta.Nft.Statement

/-
The syntax of rules, chains, tables and files, and what the parser reads as them.

Below the level of a rule the syntax is about kinds of tokens; from a rule on it
is about the tokens themselves, whose positions rules are traced back to.
-/

namespace Fwdelta.Nft

open Lookahead

/-! ### Chain declarations -/

def hookText : Hook → String
  | .input => "input"
  | .output => "output"
  | .forward => "forward"

structure PolicyText where
  value : Action
  plain : value ≠ .reject
  after : Nat

/-- A chain's name and its `type ... hook ... priority ...` line. -/
structure Declaration where
  name : String
  before : Nat
  hook : Hook
  device : Option Tok
  negative : Bool
  priority : Tok
  isPriority : (∃ n, priority = .num n) ∨ ∃ w, priority = .word w
  after : Nat
  policy : Option PolicyText

namespace Declaration

def yieldPolicy (d : Declaration) : List Tok :=
  match d.policy with
  | none => []
  | some policy => .word "policy" :: .word policy.value.text :: breaks policy.after

def yieldPriority (d : Declaration) : List Tok :=
  .word "priority" ::
    ((if d.negative then [.sym '-'] else []) ++ d.priority :: breaks d.after)

def yieldDevice (d : Declaration) : List Tok :=
  match d.device with
  | none => []
  | some device => [.word "device", device]

def yield (d : Declaration) : List Tok :=
  .word d.name :: .sym '{' :: (breaks d.before ++
    .word "type" :: .word "filter" :: .word "hook" :: .word (hookText d.hook) ::
      (d.yieldDevice ++ (d.yieldPriority ++ d.yieldPolicy)))

/-- The breaks after the declaration belong to it. -/
def Follow (d : Declaration) (next : Tok) : Prop :=
  next ≠ .brk ∧ (d.policy = none → next ≠ .word "policy")

def value (d : Declaration) : Action :=
  match d.policy with
  | none => .accept
  | some policy => policy.value

def chain (d : Declaration) : Chain :=
  Chain.new d.name d.hook d.value

end Declaration

theorem reads_takeKind (s : Source) :
    ReadsToks (takeKind s) (fun ks _ _ => ks = [.word "filter"]) := by
  refine Reads.congr (position_bind fun start => bind_one
    (S := fun w ks _ _ => w = "filter" ∧ ks = []) (reads_expectWord s) fun w => ?_) ?_
  · split
    · exact Reads.congr (Reads.pure ()) (by simp)
    · exact Reads.congr (reads_fail _) (by simp)
    · next notFilter _ =>
        apply reads_refused (reads_fail _)
        rintro ks next _ ⟨rfl, _⟩
        exact notFilter rfl
  · intro ts next _ _
    simp

theorem reads_takeHook (s : Source) :
    ReadsToks (takeHook s) (fun ks _ hook => ks = [.word (hookText hook)]) := by
  refine Reads.congr (position_bind fun start => bind_one
    (S := fun w ks _ hook => w = hookText hook ∧ ks = []) (reads_expectWord s) fun w => ?_) ?_
  · split
    · apply Reads.congr (Reads.pure _)
      intro ts next hook _
      cases hook <;> simp [hookText]
    · apply Reads.congr (Reads.pure _)
      intro ts next hook _
      cases hook <;> simp [hookText]
    · apply Reads.congr (Reads.pure _)
      intro ts next hook _
      cases hook <;> simp [hookText]
    · apply Reads.congr (reads_fail _)
      intro ts next hook _
      cases hook <;> simp [hookText]
    · apply Reads.congr (reads_fail _)
      intro ts next hook _
      cases hook <;> simp [hookText]
    · next noInput noOutput noForward _ _ =>
        apply reads_refused (reads_fail _)
        rintro ks next hook ⟨rfl, _⟩
        cases hook with
        | input => exact noInput rfl
        | output => exact noOutput rfl
        | forward => exact noForward rfl
  · intro ts next hook _
    simp

theorem reads_takeDevice :
    ReadsToks takeDevice (fun ks next _ =>
      (ks = [] ∧ next ≠ .word "device") ∨ (∃ device, ks = [.word "device", device]) ∨
        (ks = [.word "device"] ∧ next = .eof)) := by
  apply Reads.congr (eatWord_ite "device" (drop_bind (Reads.pure ())) (Reads.pure ()))
  intro ts next _ _
  generalize ts.map Token.tok = ks
  constructor
  · intro either
    rcases either with ⟨_, rfl, ⟨device, _, rfl, rfl, _⟩ | ⟨rfl, atEnd, _⟩⟩ | ⟨off, rfl, _⟩
    · exact Or.inr (Or.inl ⟨device, rfl⟩)
    · exact Or.inr (Or.inr ⟨rfl, atEnd⟩)
    · exact Or.inl ⟨rfl, off⟩
  · intro either
    rcases either with ⟨rfl, off⟩ | ⟨device, rfl⟩ | ⟨rfl, atEnd⟩
    · exact Or.inr ⟨off, rfl, rfl⟩
    · exact Or.inl ⟨_, rfl, Or.inl ⟨device, [], rfl, rfl, rfl⟩⟩
    · exact Or.inl ⟨_, rfl, Or.inr ⟨rfl, atEnd, rfl, rfl⟩⟩

theorem reads_takePriority (s : Source) :
    ReadsToks (takePriority s) (fun ks _ _ => ∃ (negative : Bool) (priority : Tok),
      ((∃ n, priority = .num n) ∨ ∃ w, priority = .word w) ∧
        ks = (if negative then [.sym '-'] else []) ++ [priority]) := by
  have inner (t : Token) (holds : isPriority t.tok = true) : ¬ IsEnd t := by
    intro end_
    rw [show t.tok = .eof from end_] at holds
    contradiction
  have value := Reads.eat_ite Token.tok isPriority inner (Reads.pure ())
    (Reads.reject (err s .syntaxError "expected a priority value"))
  have isPriority_iff (k : Tok) :
      isPriority k = true ↔ (∃ n, k = .num n) ∨ ∃ w, k = .word w := by
    cases k <;> simp [isPriority]
  apply Reads.congr (eatSym_bind '-' value value)
  intro ts next _ _
  generalize ts.map Token.tok = ks
  constructor
  · rintro (⟨_, rfl, ⟨k, _, rfl, holds, rfl, _⟩ | ⟨_, ⟨⟩⟩⟩ |
      ⟨_, ⟨k, _, rfl, holds, rfl, _⟩ | ⟨_, ⟨⟩⟩⟩)
    · exact ⟨true, k, (isPriority_iff k).mp holds, rfl⟩
    · exact ⟨false, k, (isPriority_iff k).mp holds, rfl⟩
  · intro matched
    rcases matched with ⟨negative, k, holds, rfl⟩
    have taken := (isPriority_iff k).mpr holds
    cases negative with
    | true => exact Or.inl ⟨_, rfl, Or.inl ⟨k, [], rfl, taken, rfl, rfl⟩⟩
    | false =>
        refine Or.inr ⟨?_, Or.inl ⟨k, [], rfl, taken, rfl, rfl⟩⟩
        rcases holds with ⟨n, rfl⟩ | ⟨w, rfl⟩ <;> simp

theorem reads_policyValue (s : Source) :
    ReadsToks (policyValue s) (fun ks _ value =>
      ks = [.word value.text] ∧ value ≠ .reject) := by
  refine Reads.congr (position_bind fun start => bind_one
    (S := fun w ks _ (value : Action) => w = value.text ∧ ks = [] ∧ value ≠ .reject)
    (reads_expectWord s) fun w => ?_) ?_
  · split
    · apply Reads.congr (Reads.pure _)
      intro ts next value _
      cases value <;> simp [Action.text]
    · apply Reads.congr (Reads.pure _)
      intro ts next value _
      cases value <;> simp [Action.text]
    · next noAccept noDrop =>
        apply reads_refused (reads_fail _)
        rintro ks next value ⟨rfl, _, plain⟩
        cases value with
        | accept => exact noAccept rfl
        | drop => exact noDrop rfl
        | reject => exact plain rfl
  · intro ts next value _
    simp

theorem reads_takePolicy (s : Source) :
    ReadsToks (takePolicy s) (fun ks next value =>
      (∃ policy : PolicyText, value = policy.value ∧
        ks = .word "policy" :: .word policy.value.text :: breaks policy.after ∧ next ≠ .brk) ∨
      (value = .accept ∧ ks = [] ∧ next ≠ .word "policy")) := by
  refine Reads.congr (eatWord_ite "policy" ((reads_policyValue s).bind fun value =>
    skipBreaks_bind (Reads.pure value)) (Reads.pure _)) ?_
  intro ts next value _
  generalize ts.map Token.tok = ks
  constructor
  · rintro (⟨_, rfl, _, _, _, rfl, ⟨rfl, plain⟩, after, _, rfl, stop, rfl, rfl⟩ |
      ⟨off, rfl, rfl⟩)
    · exact Or.inl ⟨⟨value, plain, after⟩, rfl, by simp, stop⟩
    · exact Or.inr ⟨rfl, rfl, off⟩
  · intro either
    rcases either with ⟨⟨value, plain, after⟩, rfl, rfl, stop⟩ | ⟨rfl, rfl, off⟩
    · exact Or.inl ⟨_, rfl, [.word value.text], breaks after, value, rfl, ⟨rfl, plain⟩, after, [],
        by simp, stop, rfl, rfl⟩
    · exact Or.inr ⟨off, rfl, rfl⟩

theorem reads_declaration (s : Source) :
    ReadsToks (declaration s) (fun ks next c => ∃ d : Declaration,
      ks = d.yield ∧ d.Follow next ∧ c = d.chain) := by
  refine Reads.congr (position_bind fun start => bind_one (reads_expectWord s) fun name =>
    (reads_expectSym s '{').bind fun _ => skipBreaks_bind (eatWord_ite "type"
      ((reads_takeKind s).bind fun _ => eatWord_ite "hook"
        ((reads_takeHook s).bind fun hook => reads_takeDevice.bind fun _ =>
          eatWord_ite "priority"
            ((reads_takePriority s).bind fun _ => skipBreaks_bind
              ((reads_takePolicy s).bind fun policy =>
                Reads.pure (Chain.new name hook policy)))
            (Reads.reject _))
        (Reads.reject _))
      (reads_fail _))) ?_
  intro ts next c _
  generalize ts.map Token.tok = ks
  constructor
  · intro spelled
    rcases spelled with ⟨name, _, rfl, _, _, _, rfl, rfl, before, _, rfl, _, rest⟩
    rcases rest with ⟨_, rfl, _, _, _, rfl, rfl, rest⟩ | ⟨_, ⟨⟩⟩
    rcases rest with ⟨_, rfl, _, _, hook, rfl, rfl, device, _, _, rfl, taken, rest⟩ | ⟨_, ⟨⟩⟩
    rcases rest with ⟨_, rfl, _, _, _, rfl, ⟨negative, priority, isPriority, rfl⟩, after, _, rfl,
      stop, _, _, value, rfl, policy, rfl, rfl⟩ | ⟨_, ⟨⟩⟩
    -- The device and the policy are each there or not.
    obtain ⟨device, rfl⟩ : ∃ named : Option Tok, device =
        (match named with | none => [] | some t => [.word "device", t]) := by
      rcases taken with ⟨rfl, _⟩ | ⟨t, rfl⟩ | ⟨_, atEnd⟩
      · exact ⟨none, rfl⟩
      · exact ⟨some t, rfl⟩
      · exact absurd atEnd (by simp)
    rcases policy with ⟨policy, rfl, rfl, noBreak⟩ | ⟨rfl, rfl, noPolicy⟩
    · exact ⟨⟨name, before, hook, device, negative, priority, isPriority, after, some policy⟩,
        by simp [Declaration.yield, Declaration.yieldDevice, Declaration.yieldPriority,
          Declaration.yieldPolicy], ⟨noBreak, by simp⟩, rfl⟩
    · exact ⟨⟨name, before, hook, device, negative, priority, isPriority, after, none⟩,
        by simp [Declaration.yield, Declaration.yieldDevice, Declaration.yieldPriority,
          Declaration.yieldPolicy], ⟨stop, fun _ => noPolicy⟩, rfl⟩
  · intro spelled
    rcases spelled with ⟨d, rfl, ⟨noBreak, noPolicy⟩, rfl⟩
    refine ⟨d.name, _, rfl, [.sym '{'], _, (), rfl, rfl, d.before, _, rfl, by simp,
      Or.inl ⟨_, rfl, [.word "filter"], _, (), rfl, rfl,
      Or.inl ⟨_, rfl, [.word (hookText d.hook)], _, d.hook, rfl, rfl,
        d.yieldDevice, _, (), rfl, ?device,
      Or.inl ⟨_, rfl, (if d.negative then [.sym '-'] else []) ++ [d.priority],
        breaks d.after ++ d.yieldPolicy, (), ?spelled,
        ⟨d.negative, d.priority, d.isPriority, rfl⟩, d.after, d.yieldPolicy, rfl, ?stop,
        d.yieldPolicy, [], d.value, (List.append_nil _).symm, ?policy, rfl, rfl⟩⟩⟩⟩
    case device =>
      unfold Declaration.yieldDevice
      cases d.device with
      | none => exact Or.inl ⟨rfl, by simp [Declaration.yieldPriority]⟩
      | some t => exact Or.inr (Or.inl ⟨t, rfl⟩)
    case spelled => simp
    case stop =>
      unfold Declaration.yieldPolicy
      cases d.policy with
      | none => exact noBreak
      | some policy => simp
    case policy =>
      unfold Declaration.yieldPolicy Declaration.value
      cases given : d.policy with
      | none => exact Or.inr ⟨rfl, rfl, noPolicy given⟩
      | some policy => exact Or.inl ⟨policy, rfl, rfl, noBreak⟩

/-! ### Rules -/

abbrev ReadsTokens {α : Type} (p : Parser α) (R : List Token → Token → α → Prop) : Prop :=
  Reads id p R

structure Gap where
  tokens : List Token
  blank : ∀ t ∈ tokens, t.tok = .brk

/-- A rule as it is written: its tokens, and the statements they spell. -/
structure RuleText where
  first : Token
  rest : List Token
  stmts : List Stmt
  spelled : (first :: rest).map Token.tok = stmts.flatMap Stmt.yield

namespace RuleText

def tokens (r : RuleText) : List Token :=
  r.first :: r.rest

/-- The statements are read as far as they go, and the line ends after them. -/
def Follow (r : RuleText) (next : Token) : Prop :=
  Followed Stmt.yield Stmt.Follow r.stmts next.tok ∧ endsStatement next.tok = true

/-- What the statements build, when each of them may stand where it does. -/
def state (hook : Hook) (r : RuleText) : Option RuleState :=
  r.stmts.foldlM (Stmt.apply hook) RuleState.start

/-- What the rule compiles to, when the parser accepts it. -/
def compile (hook : Hook) (r : RuleText) : Option (Match × Action) := do
  let st ← r.state hook
  let action ← st.action
  if st.m.isUnsatisfiable || (st.portsConstrained && !allPortBearing st.m.proto) then none
  else some (st.m, action)

theorem compile_eq_some_iff {hook : Hook} {r : RuleText} {m : Match} {action : Action} :
    r.compile hook = some (m, action) ↔ ∃ st, r.state hook = some st ∧
      st.action = some action ∧ st.m = m ∧ m.isUnsatisfiable = false ∧
        (st.portsConstrained = true → allPortBearing m.proto = true) := by
  unfold compile
  constructor
  · intro compiled
    obtain ⟨st, built, compiled⟩ := Option.bind_eq_some_iff.mp compiled
    obtain ⟨found, verdict, compiled⟩ := Option.bind_eq_some_iff.mp compiled
    split at compiled
    · contradiction
    · next sound =>
        obtain ⟨rfl, rfl⟩ := Prod.mk.inj (Option.some.inj compiled)
        simp only [Bool.or_eq_true, not_or, Bool.and_eq_true, Bool.not_eq_true', not_and,
          Bool.not_eq_true, Bool.not_eq_false] at sound
        exact ⟨st, built, verdict, rfl, sound.1, sound.2⟩
  · intro spelled
    rcases spelled with ⟨st, built, verdict, rfl, satisfiable, portBearing⟩
    simpa [built, verdict] using ⟨satisfiable, portBearing⟩

def origin (s : Source) (r : RuleText) : Origin :=
  originAt s (r.first.line, r.first.column)

theorem first_isWord (r : RuleText) : ∃ w, r.first.tok = .word w := by
  have spelled := r.spelled
  cases stmts : r.stmts with
  | nil => simp [stmts] at spelled
  | cons stmt rest =>
      rw [stmts, List.flatMap_cons, List.map_cons] at spelled
      exact ⟨stmt.keyword, (List.cons.inj spelled).1⟩

end RuleText

theorem reads_checkSoundness (s : Source) (m : Match) (portsConstrained : Bool)
    (start : Nat × Nat) :
    ReadsToks (checkSoundness s m portsConstrained start) (fun ks _ _ => ks = [] ∧
      m.isUnsatisfiable = false ∧ (portsConstrained = true → allPortBearing m.proto = true)) := by
  refine Reads.congr (Reads.ite (fun _ => reads_fail _) (fun _ =>
    Reads.ite (fun _ => reads_fail _) (fun _ => Reads.pure ()))) ?_
  intro ts next _ _
  simp only [and_false, false_or, Bool.not_eq_true, Bool.and_eq_true, Bool.not_eq_true', not_and,
    Bool.not_eq_false]
  tauto

theorem reads_finishRule (s : Source) (start : Nat × Nat) (st : RuleState) :
    ReadsToks (finishRule s start st) (fun ks _ out => ks = [] ∧ ∃ action,
      st.action = some action ∧ st.m.isUnsatisfiable = false ∧
        (st.portsConstrained = true → allPortBearing st.m.proto = true) ∧
          out = (st.m, action, originAt s start)) := by
  unfold finishRule
  cases st.action with
  | none => exact Reads.congr (reads_fail _) (by simp)
  | some action =>
      refine Reads.congr ((reads_checkSoundness s st.m st.portsConstrained start).bind
        fun _ => Reads.pure _) ?_
      intro ts next out _
      generalize ts.map Token.tok = ks
      constructor
      · intro spelled
        rcases spelled with ⟨_, _, _, rfl, ⟨rfl, satisfiable, portBearing⟩, rfl, rfl⟩
        exact ⟨rfl, action, rfl, satisfiable, portBearing, rfl⟩
      · intro spelled
        rcases spelled with ⟨rfl, _, same, satisfiable, portBearing, rfl⟩
        obtain rfl := Option.some.inj same
        exact ⟨[], [], (), rfl, ⟨rfl, satisfiable, portBearing⟩, rfl, rfl⟩

theorem tokens_position_bind {β : Type} {f : Nat × Nat → Parser β}
    {S : Nat × Nat → List Token → Token → β → Prop}
    (second : ∀ start, ReadsTokens (f start) (S start)) :
    ReadsTokens (position >>= f) (fun ts next b =>
      S ((ts.headD next).line, (ts.headD next).column) ts next b) :=
  Reads.peek_bind id (S := fun t => S (t.line, t.column))
    (f := fun t => f (t.line, t.column)) (fun t => second (t.line, t.column))

theorem reads_rule (s : Source) (hook : Hook) :
    ReadsTokens (rule s hook) (fun ts next out => ∃ (r : RuleText) (m : Match) (action : Action),
      ts = r.tokens ∧ r.Follow next ∧ r.compile hook = some (m, action) ∧
        out = (m, action, r.origin s)) := by
  refine Reads.congr (tokens_position_bind fun start =>
    ((reads_statements s RuleState.start).bind (reads_finishRule s start)).tokens) ?_
  intro ts next out _
  rw [List.map_id]
  constructor
  · rintro ⟨_, _, st, spelled, ⟨stmts, rfl, followed, ends, built⟩, rfl, action, verdict,
      satisfiable, portBearing, rfl⟩
    rw [List.append_nil] at spelled
    cases ts with
    | nil =>
        -- A rule without statements has no verdict.
        cases stmts with
        | nil =>
            obtain rfl := Option.some.inj built
            contradiction
        | cons stmt rest => simp [Stmt.yield] at spelled
    | cons first rest =>
        let r : RuleText := ⟨first, rest, stmts, spelled⟩
        exact ⟨r, st.m, action, rfl, ⟨followed, ends⟩, RuleText.compile_eq_some_iff.mpr
          ⟨st, built, verdict, rfl, satisfiable, portBearing⟩, rfl⟩
  · intro reading
    rcases reading with ⟨r, m, action, rfl, ⟨followed, ends⟩, compiled, rfl⟩
    obtain ⟨st, built, verdict, rfl, satisfiable, portBearing⟩ :=
      RuleText.compile_eq_some_iff.mp compiled
    exact ⟨_, [], st, r.spelled.trans (List.append_nil _).symm,
      ⟨r.stmts, rfl, followed, ends, built⟩, rfl, action, verdict, satisfiable, portBearing, rfl⟩

/-! ### Chains -/

structure Closing where
  gap : Gap
  brace : Token
  closes : brace.tok = .sym '}'

def Closing.tokens (c : Closing) : List Token :=
  c.gap.tokens ++ [c.brace]

structure RuleItem where
  before : Gap
  rule : RuleText

namespace RuleItem

def tokens (item : RuleItem) : List Token :=
  item.before.tokens ++ item.rule.tokens

def Follow (item : RuleItem) (next : Token) : Prop :=
  item.rule.Follow next

def push (s : Source) (chain : Chain) (item : RuleItem) : Option Chain := do
  let (m, action) ← item.rule.compile chain.hook
  some (chain.push m action (item.rule.origin s))

end RuleItem

/-- A chain as it is written, after the keyword. -/
structure ChainText where
  head : List Token
  declaration : Declaration
  declared : head.map Token.tok = declaration.yield
  rules : List RuleItem
  close : Closing

namespace ChainText

def body (c : ChainText) : List Token :=
  c.rules.flatMap RuleItem.tokens ++ c.close.tokens

def tokens (c : ChainText) : List Token :=
  c.head ++ c.body

def Accepted (c : ChainText) : Prop :=
  c.declaration.Follow (c.body.headD c.close.brace).tok ∧
    Followed RuleItem.tokens RuleItem.Follow c.rules (c.close.tokens.headD c.close.brace)

def compile (s : Source) (c : ChainText) : Option Chain :=
  c.rules.foldlM (RuleItem.push s) c.declaration.chain

end ChainText

section TokenRules

variable {β : Type} {p q : Parser β} {T U : List Token → Token → β → Prop}

theorem tokens_skipBreaks_bind {f : Unit → Parser β} (second : ReadsTokens (f ()) T) :
    ReadsTokens (skipBreaks >>= f) (fun ts next b => ∃ (gap : Gap) (vs : List Token),
      ts = gap.tokens ++ vs ∧ (vs.headD next).tok ≠ .brk ∧ T vs next b) := by
  apply Reads.congr (reads_skipBreaks.tokens.bind (S := fun _ => T) fun _ => second)
  intro ts next b _
  rw [List.map_id]
  constructor
  · intro matched
    rcases matched with ⟨us, vs, _, rfl, ⟨⟨n, blank⟩, stop⟩, holds⟩
    refine ⟨⟨us, fun t member => ?_⟩, vs, rfl, stop, holds⟩
    have breaking : t.tok ∈ breaks n := by
      rw [← blank]
      exact List.mem_map_of_mem member
    exact List.eq_of_mem_replicate breaking
  · intro matched
    rcases matched with ⟨gap, vs, rfl, stop, holds⟩
    refine ⟨gap.tokens, vs, (), rfl, ⟨⟨gap.tokens.length, ?_⟩, stop⟩, holds⟩
    rw [breaks, List.eq_replicate_iff, List.length_map]
    refine ⟨rfl, fun k member => ?_⟩
    obtain ⟨t, inside, rfl⟩ := List.mem_map.mp member
    exact gap.blank t inside

theorem tokens_eatSym_ite (c : Char) (yes : ReadsTokens p T) (no : ReadsTokens q U) :
    ReadsTokens (eatSym c >>= fun taken => if taken = true then p else q)
      (fun ts next b => (∃ t vs, ts = t :: vs ∧ t.tok = .sym c ∧ T vs next b) ∨
        ((ts.headD next).tok ≠ .sym c ∧ U ts next b)) := by
  have branch (taken : Bool) : ReadsTokens (if taken = true then p else q)
      (fun ts next b => (taken = true ∧ T ts next b) ∨ (taken = false ∧ U ts next b)) := by
    cases taken with
    | true => exact Reads.congr yes (by simp)
    | false => exact Reads.congr no (by simp)
  apply Reads.congr ((reads_eatSym c).tokens.bind branch)
  intro ts next b _
  rw [List.map_id]
  constructor
  · intro spelled
    rcases spelled with ⟨us, vs, taken, rfl, ⟨rfl, one⟩ | ⟨rfl, none, off⟩, rest⟩
    · obtain ⟨t, rfl, at_⟩ := List.map_eq_singleton_iff.mp one
      simp only [true_and, Bool.true_eq_false, false_and, or_false] at rest
      exact Or.inl ⟨t, vs, rfl, at_, rest⟩
    · obtain rfl := List.map_eq_nil_iff.mp none
      simp only [Bool.false_eq_true, false_and, true_and, false_or] at rest
      exact Or.inr ⟨off, rest⟩
  · intro either
    rcases either with ⟨t, vs, rfl, at_, holds⟩ | ⟨off, holds⟩
    · exact ⟨[t], vs, true, rfl, Or.inl ⟨rfl, by rw [List.map_singleton, at_]⟩, Or.inl ⟨rfl, holds⟩⟩
    · exact ⟨[], ts, false, rfl, Or.inr ⟨rfl, rfl, off⟩, Or.inr ⟨rfl, holds⟩⟩

theorem tokens_peek_bind {f : Tok → Parser β} {S : Tok → List Token → Token → β → Prop}
    (second : ∀ k, ReadsTokens (f k) (S k)) :
    ReadsTokens (peek >>= f) (fun ts next b => S (ts.headD next).tok ts next b) :=
  Reads.peek_bind id (S := fun t => S t.tok) (f := fun t => f t.tok)
    (fun t => second t.tok)

theorem tokens_bump_bind {f : Tok → Parser β} {S : Tok → List Token → Token → β → Prop}
    (second : ∀ k, k ≠ .eof → ReadsTokens (f k) (S k))
    (atEnd : ReadsTokens (f .eof) (fun _ _ _ => False)) :
    ReadsTokens (bump >>= f) (fun ts next b => ∃ t vs, ts = t :: vs ∧ S t.tok vs next b) := by
  have final (t : Token) (end_ : IsEnd t) : ReadsTokens (f t.tok) (fun _ _ _ => False) := by
    rw [show t.tok = .eof from end_]
    exact atEnd
  exact Reads.bump_bind id (S := fun t => S t.tok) (f := fun t => f t.tok)
    (fun t notFinal => second t.tok notFinal) final

end TokenRules

/-- One round of the loop of a chain: a rule, or the closing brace. -/
theorem reads_ruleRound (s : Source) (chain : Chain) :
    ReadsTokens (ruleRound s chain)
      (Round RuleItem.tokens RuleItem.Follow (RuleItem.push s)
        (fun chain ts _ chain' => (∃ close : Closing, ts = close.tokens) ∧ chain' = chain)
        chain) := by
  refine Reads.congr (tokens_skipBreaks_bind (tokens_eatSym_ite '}' (Reads.pure _)
    (tokens_peek_bind (S := fun k ts next o => k ≠ .eof ∧ ∃ (r : RuleText) (m : Match)
      (action : Action), ts = r.tokens ∧ r.Follow next ∧ r.compile chain.hook = some (m, action) ∧
        o = .inl (chain.push m action (r.origin s))) fun k => ?_))) ?_
  · split
    · exact Reads.congr (Reads.reject _) (by simp)
    · next notEof =>
        apply Reads.congr ((reads_rule s chain.hook).bind fun out => Reads.pure _)
        intro ts next o _
        rw [List.map_id]
        constructor
        · intro spelled
          rcases spelled with ⟨_, _, _, rfl, ⟨r, m, action, rfl, follow, compiled, rfl⟩, rfl, rfl⟩
          exact ⟨notEof, r, m, action, List.append_nil _, follow, compiled, rfl⟩
        · intro spelled
          rcases spelled with ⟨_, r, m, action, rfl, follow, compiled, rfl⟩
          exact ⟨r.tokens, [], _, (List.append_nil _).symm,
            ⟨r, m, action, rfl, follow, compiled, rfl⟩, rfl, rfl⟩
  · intro ts next o _
    rw [List.map_id]
    constructor
    · rintro ⟨gap, _, rfl, _, ⟨brace, _, rfl, closes, rfl, rfl⟩ |
        ⟨_, _, r, m, action, rfl, follow, compiled, rfl⟩⟩
      · exact ⟨⟨⟨gap, brace, closes⟩, rfl⟩, rfl⟩
      · exact ⟨⟨gap, r⟩, rfl, follow, by simp [RuleItem.push, compiled]⟩
    · intro round
      cases o with
      | inl chain' =>
          obtain ⟨⟨gap, r⟩, rfl, follow, pushed⟩ := round
          obtain ⟨⟨m, action⟩, compiled, pushed⟩ := Option.bind_eq_some_iff.mp pushed
          obtain ⟨w, isWord⟩ := r.first_isWord
          have starts : (r.tokens.headD next).tok = .word w := isWord
          exact ⟨gap, r.tokens, rfl, by rw [starts]; simp, Or.inr ⟨by rw [starts]; simp,
            by rw [starts]; simp, r, m, action, rfl, follow, compiled,
            by rw [← Option.some.inj pushed]⟩⟩
      | inr chain' =>
          obtain ⟨⟨⟨gap, brace, closes⟩, rfl⟩, rfl⟩ := round
          exact ⟨gap, [brace], rfl, by simp [closes], Or.inl ⟨brace, [], rfl, closes, rfl, rfl⟩⟩

theorem reads_rules (s : Source) (chain : Chain) :
    ReadsTokens (rules s chain) (fun ts next out => ∃ (items : List RuleItem) (close : Closing),
      ts = items.flatMap RuleItem.tokens ++ close.tokens ∧
        Followed RuleItem.tokens RuleItem.Follow items (close.tokens.headD next) ∧
          items.foldlM (RuleItem.push s) chain = some out) := by
  refine Reads.congr (Reads.items (reads_ruleRound s) ?_ chain) ?_
  · intro item
    simp [RuleItem.tokens, RuleText.tokens]
  · intro ts next out _
    rw [List.map_id]
    constructor
    · intro reading
      rcases reading with ⟨items, _, _, rfl, followed, folded, ⟨close, rfl⟩, rfl⟩
      exact ⟨items, close, rfl, followed, folded⟩
    · intro reading
      rcases reading with ⟨items, close, rfl, followed, folded⟩
      exact ⟨items, out, close.tokens, rfl, followed, folded, ⟨close, rfl⟩, rfl⟩

theorem Closing.headD_tokens (c : Closing) (a b : Token) :
    c.tokens.headD a = c.tokens.headD b := by
  unfold Closing.tokens
  cases c.gap.tokens <;> rfl

theorem ChainText.headD_body (c : ChainText) (a b : Token) : c.body.headD a = c.body.headD b := by
  unfold ChainText.body
  rw [headD_append, headD_append, c.close.headD_tokens a b]

theorem reads_chain (s : Source) :
    ReadsTokens (chain s) (fun ts _ out => ∃ c : ChainText,
      ts = c.tokens ∧ c.Accepted ∧ c.compile s = some out) := by
  apply Reads.congr ((reads_declaration s).tokens.bind fun declared => reads_rules s declared)
  intro ts next out _
  rw [List.map_id]
  constructor
  · intro reading
    rcases reading with
      ⟨head, _, _, rfl, ⟨d, declared, follow, rfl⟩, items, close, rfl, followed, folded⟩
    let c : ChainText := ⟨head, d, declared, items, close⟩
    rw [close.headD_tokens next close.brace] at followed
    refine ⟨c, rfl, ⟨?_, followed⟩, folded⟩
    have after : d.Follow (c.body.headD next).tok := follow
    rwa [c.headD_body next close.brace] at after
  · intro reading
    rcases reading with ⟨c, rfl, ⟨follow, followed⟩, folded⟩
    rw [c.headD_body c.close.brace next] at follow
    rw [c.close.headD_tokens c.close.brace next] at followed
    exact ⟨c.head, c.body, c.declaration.chain, rfl, ⟨c.declaration, c.declared, follow, rfl⟩,
      c.rules, c.close, rfl, followed, folded⟩

/-! ### Tables -/

structure ChainItem where
  before : Gap
  keyword : Token
  isChain : keyword.tok = .word "chain"
  chain : ChainText

namespace ChainItem

def tokens (item : ChainItem) : List Token :=
  item.before.tokens ++ item.keyword :: item.chain.tokens

def push (s : Source) (found : List Chain) (item : ChainItem) : Option (List Chain) := do
  let c ← item.chain.compile s
  some (found ++ [c])

end ChainItem

/-- A table as it is written, after the keyword. -/
structure TableText where
  head : List Token
  name : String
  headed : head.map Token.tok = [.word "ip", .word name, .sym '{']
  chains : List ChainItem
  close : Closing

namespace TableText

def tokens (t : TableText) : List Token :=
  t.head ++ (t.chains.flatMap ChainItem.tokens ++ t.close.tokens)

def Accepted (t : TableText) : Prop :=
  ∀ item ∈ t.chains, item.chain.Accepted

def compile (s : Source) (t : TableText) : Option (List Chain) :=
  t.chains.foldlM (ChainItem.push s) []

end TableText

theorem followed_const_iff {ι κ : Type} {yield : ι → List κ} {P : ι → Prop} {items : List ι}
    {next : κ} : Followed yield (fun item _ => P item) items next ↔ ∀ item ∈ items, P item := by
  induction items with
  | nil => simp [Followed]
  | cons item rest ih => simp [Followed, ih]

theorem reads_takeFamily (s : Source) :
    ReadsToks (takeFamily s) (fun ks _ _ => ks = [.word "ip"]) := by
  refine Reads.congr (position_bind fun start => bind_one
    (S := fun w ks _ _ => w = "ip" ∧ ks = []) (reads_expectWord s) fun w => ?_) ?_
  · split
    · next isIp =>
        apply Reads.congr (Reads.pure ())
        simp [beq_iff_eq.mp isIp]
    · next notIp =>
        have refused : ∀ (ks : List Tok) (next : Tok) (a : Unit), ¬ (w = "ip" ∧ ks = []) := by
          rintro ks next a ⟨rfl, _⟩
          exact notIp rfl
        split
        · exact reads_refused (reads_fail _) refused
        · exact reads_refused (reads_fail _) refused
  · intro ts next _ _
    simp

theorem reads_tableHead (s : Source) :
    ReadsToks (tableHead s) (fun ks _ _ => ∃ name, ks = [.word "ip", .word name, .sym '{']) := by
  refine Reads.congr ((reads_takeFamily s).bind fun _ => bind_one (reads_expectWord s)
    fun _ => reads_expectSym s '{') ?_
  intro ts next _ _
  generalize ts.map Token.tok = ks
  constructor
  · intro spelled
    rcases spelled with ⟨_, _, _, rfl, rfl, name, _, rfl, rfl⟩
    exact ⟨name, rfl⟩
  · intro both
    rcases both with ⟨name, rfl⟩
    exact ⟨[.word "ip"], _, (), rfl, rfl, name, _, rfl, rfl⟩

theorem reads_tableEntry (s : Source) (found : List Chain) :
    ReadsTokens (tableEntry s found) (fun ts _ o => ∃ (keyword : Token) (c : ChainText)
      (out : Chain), ts = keyword :: c.tokens ∧ keyword.tok = .word "chain" ∧ c.Accepted ∧
        c.compile s = some out ∧ o = .inl (found ++ [out])) := by
  refine Reads.congr (tokens_position_bind fun start => tokens_bump_bind
    (S := fun k ts _ o => k = .word "chain" ∧ ∃ (c : ChainText) (out : Chain), ts = c.tokens ∧
      c.Accepted ∧ c.compile s = some out ∧ o = .inl (found ++ [out])) (fun k _ => ?_)
    (Reads.reject _)) ?_
  · cases k with
    | word w =>
        dsimp only
        split
        · next isChain =>
            obtain rfl := beq_iff_eq.mp isChain
            apply Reads.congr ((reads_chain s).bind fun c => Reads.pure _)
            intro ts next o _
            rw [List.map_id]
            constructor
            · intro spelled
              rcases spelled with ⟨_, _, out, rfl, ⟨c, rfl, accepted, compiled⟩, rfl, rfl⟩
              exact ⟨rfl, c, out, List.append_nil _, accepted, compiled, rfl⟩
            · intro spelled
              rcases spelled with ⟨_, c, out, rfl, accepted, compiled, rfl⟩
              exact ⟨c.tokens, [], out, (List.append_nil _).symm, ⟨c, rfl, accepted, compiled⟩,
                rfl, rfl⟩
        · next notChain =>
            have other : Tok.word w ≠ .word "chain" := by
              intro same
              exact notChain (beq_iff_eq.mpr (Tok.word.inj same))
            split
            · exact reads_refused (reads_fail _) (fun _ _ _ both => other both.1)
            · exact reads_refused (reads_fail _) (fun _ _ _ both => other both.1)
    | eof => exact Reads.congr (Reads.reject _) (by simp)
    | _ => exact reads_refused (reads_fail _) (by simp)
  · intro ts next o _
    rw [List.map_id]
    constructor
    · intro spelled
      rcases spelled with ⟨keyword, _, rfl, isChain, c, out, rfl, accepted, compiled, rfl⟩
      exact ⟨keyword, c, out, rfl, isChain, accepted, compiled, rfl⟩
    · intro spelled
      rcases spelled with ⟨keyword, c, out, rfl, isChain, accepted, compiled, rfl⟩
      exact ⟨keyword, c.tokens, rfl, isChain, c, out, rfl, accepted, compiled, rfl⟩

/-- One round of the loop of a table: a chain, or the closing brace. -/
theorem reads_chainRound (s : Source) (found : List Chain) :
    ReadsTokens (chainRound s found)
      (Round ChainItem.tokens (fun item _ => item.chain.Accepted) (ChainItem.push s)
        (fun found ts _ out => (∃ close : Closing, ts = close.tokens) ∧ out = found) found) := by
  refine Reads.congr (tokens_skipBreaks_bind (tokens_eatSym_ite '}' (Reads.pure _)
    (reads_tableEntry s found))) ?_
  intro ts next o _
  rw [List.map_id]
  constructor
  · rintro ⟨gap, _, rfl, _, ⟨brace, _, rfl, closes, rfl, rfl⟩ |
      ⟨_, keyword, c, out, rfl, isChain, accepted, compiled, rfl⟩⟩
    · exact ⟨⟨⟨gap, brace, closes⟩, rfl⟩, rfl⟩
    · exact ⟨⟨gap, keyword, isChain, c⟩, rfl, accepted, by simp [ChainItem.push, compiled]⟩
  · intro round
    cases o with
    | inl found' =>
        obtain ⟨⟨gap, keyword, isChain, c⟩, rfl, accepted, pushed⟩ := round
        obtain ⟨out, compiled, pushed⟩ := Option.bind_eq_some_iff.mp pushed
        refine ⟨gap, keyword :: c.tokens, rfl, by simp [isChain], Or.inr ⟨by simp [isChain],
          keyword, c, out, rfl, isChain, accepted, compiled, ?_⟩⟩
        rw [← Option.some.inj pushed]
    | inr found' =>
        obtain ⟨⟨⟨gap, brace, closes⟩, rfl⟩, rfl⟩ := round
        exact ⟨gap, [brace], rfl, by simp [closes], Or.inl ⟨brace, [], rfl, closes, rfl, rfl⟩⟩

theorem reads_table (s : Source) :
    ReadsTokens (table s) (fun ts _ out => ∃ t : TableText,
      ts = t.tokens ∧ t.Accepted ∧ t.compile s = some out) := by
  have loop : ReadsTokens (chains s []) _ :=
    Reads.items (reads_chainRound s) (by simp [ChainItem.tokens]) []
  apply Reads.congr ((reads_tableHead s).tokens.bind fun _ => loop)
  intro ts next out _
  rw [List.map_id]
  constructor
  · intro reading
    rcases reading with
      ⟨head, _, _, rfl, ⟨name, headed⟩, items, _, _, rfl, followed, folded, ⟨close, rfl⟩, rfl⟩
    exact ⟨⟨head, name, headed, items, close⟩, rfl, followed_const_iff.mp followed, folded⟩
  · intro spelled
    rcases spelled with ⟨t, rfl, accepted, folded⟩
    exact ⟨t.head, _, (), rfl, ⟨t.name, t.headed⟩, t.chains, out, t.close.tokens, rfl,
      followed_const_iff.mpr accepted, folded, ⟨t.close, rfl⟩, rfl⟩

/-! ### Files -/

structure TableItem where
  keyword : Token
  isTable : keyword.tok = .word "table"
  table : TableText
  after : Gap

namespace TableItem

def tokens (item : TableItem) : List Token :=
  item.keyword :: (item.table.tokens ++ item.after.tokens)

/-- The breaks after a table belong to it. -/
def Follow (item : TableItem) (next : Token) : Prop :=
  item.table.Accepted ∧ next.tok ≠ .brk

def push (s : Source) (found : List Chain) (item : TableItem) : Option (List Chain) := do
  let more ← item.table.compile s
  some (found ++ more)

end TableItem

/-- A file as it is written. -/
structure FileText where
  before : Gap
  tables : List TableItem

namespace FileText

def tokens (f : FileText) : List Token :=
  f.before.tokens ++ f.tables.flatMap TableItem.tokens

def Accepted (f : FileText) : Prop :=
  ∀ item ∈ f.tables, item.table.Accepted

/-- What the file compiles to, when the parser accepts it. -/
def compile (s : Source) (f : FileText) : Option Ruleset := do
  let chains ← f.tables.foldlM (TableItem.push s) []
  some { label := s.file, chains := chains }

end FileText

/-- No table starts with a break, and the end of the file is none. -/
theorem followed_tables_iff {items : List TableItem} {next : Token} (notBreak : next.tok ≠ .brk) :
    Followed TableItem.tokens TableItem.Follow items next ↔
      ∀ item ∈ items, item.table.Accepted := by
  induction items with
  | nil => simp [Followed]
  | cons item rest ih =>
      have stop : ((rest.flatMap TableItem.tokens).headD next).tok ≠ .brk := by
        cases rest with
        | nil => exact notBreak
        | cons later more =>
            have starts : (((later :: more).flatMap TableItem.tokens).headD next).tok =
                .word "table" := later.isTable
            rw [starts]
            simp
      simp only [Followed, ih, TableItem.Follow, List.mem_cons, forall_eq_or_imp]
      tauto

theorem reads_fileEntry (s : Source) (found : List Chain) (start : Nat × Nat) :
    ReadsTokens (fileEntry s found start) (fun ts next o => ∃ (item : TableItem)
      (found' : List Chain), ts = item.tokens ∧ item.Follow next ∧
        item.push s found = some found' ∧ o = .inl found') := by
  refine Reads.congr (tokens_bump_bind (S := fun k ts next o => k = .word "table" ∧
    ∃ (t : TableText) (more : List Chain) (after : Gap), ts = t.tokens ++ after.tokens ∧
      t.Accepted ∧ next.tok ≠ .brk ∧ t.compile s = some more ∧ o = .inl (found ++ more))
    (fun k _ => ?_) (reads_fail _)) ?_
  · cases k with
    | word w =>
        dsimp only
        split
        · next isTable =>
            obtain rfl := beq_iff_eq.mp isTable
            refine Reads.congr ((reads_table s).bind fun more =>
              tokens_skipBreaks_bind (Reads.pure _)) ?_
            intro ts next o _
            rw [List.map_id]
            constructor
            · intro spelled
              rcases spelled with
                ⟨_, _, more, rfl, ⟨t, rfl, accepted, compiled⟩, after, _, rfl, stop, rfl, rfl⟩
              exact ⟨rfl, t, more, after, by rw [List.append_nil], accepted, stop, compiled, rfl⟩
            · intro spelled
              rcases spelled with ⟨_, t, more, after, rfl, accepted, stop, compiled, rfl⟩
              exact ⟨t.tokens, after.tokens, more, rfl, ⟨t, rfl, accepted, compiled⟩, after, [],
                (List.append_nil _).symm, stop, rfl, rfl⟩
        · next notTable =>
            have other : Tok.word w ≠ .word "table" := by
              intro same
              exact notTable (beq_iff_eq.mpr (Tok.word.inj same))
            split
            · exact reads_refused (reads_fail _) (fun _ _ _ both => other both.1)
            · exact reads_refused (reads_fail _) (fun _ _ _ both => other both.1)
    | _ => exact reads_refused (reads_fail _) (by simp)
  · intro ts next o _
    rw [List.map_id]
    constructor
    · intro spelled
      rcases spelled with
        ⟨keyword, _, rfl, isTable, t, more, after, rfl, accepted, stop, compiled, rfl⟩
      exact ⟨⟨keyword, isTable, t, after⟩, found ++ more, rfl, ⟨accepted, stop⟩,
        by simp [TableItem.push, compiled], rfl⟩
    · intro spelled
      rcases spelled with ⟨⟨keyword, isTable, t, after⟩, found', rfl, ⟨accepted, stop⟩, pushed, rfl⟩
      obtain ⟨more, compiled, pushed⟩ := Option.bind_eq_some_iff.mp pushed
      refine ⟨keyword, _, rfl, isTable, t, more, after, rfl, accepted, stop, compiled, ?_⟩
      rw [← Option.some.inj pushed]

/-- One round of the loop of a file: a table, or the end of the file. -/
theorem reads_tableRound (s : Source) (found : List Chain) :
    ReadsTokens (tableRound s found)
      (Round TableItem.tokens TableItem.Follow (TableItem.push s)
        (fun found ts next out => ts = [] ∧ next.tok = .eof ∧ out = found) found) := by
  refine Reads.congr (tokens_peek_bind (S := fun k ts next o =>
    (k = .eof ∧ ts = [] ∧ o = .inr found) ∨ (k ≠ .eof ∧ ∃ (item : TableItem)
      (found' : List Chain), ts = item.tokens ∧ item.Follow next ∧
        item.push s found = some found' ∧ o = .inl found')) fun k => ?_) ?_
  · split
    · exact Reads.congr (Reads.pure _) (by simp)
    · next notEof =>
        have notEnd : k ≠ .eof := notEof
        exact Reads.congr (tokens_position_bind fun start => reads_fileEntry s found start)
          (by simp [notEnd])
  · intro ts next o _
    rw [List.map_id]
    constructor
    · intro either
      rcases either with ⟨atEnd, rfl, rfl⟩ | ⟨_, item, found', rfl, follow, pushed, rfl⟩
      · exact ⟨rfl, atEnd, rfl⟩
      · exact ⟨item, rfl, follow, pushed⟩
    · intro round
      cases o with
      | inl found' =>
          obtain ⟨item, rfl, follow, pushed⟩ := round
          have starts : (item.tokens.headD next).tok = .word "table" := item.isTable
          exact Or.inr ⟨by rw [starts]; simp, item, found', rfl, follow, pushed, rfl⟩
      | inr found' =>
          obtain ⟨rfl, atEnd, rfl⟩ := round
          exact Or.inl ⟨atEnd, rfl, rfl⟩

theorem reads_file (s : Source) :
    ReadsTokens (file s) (fun ts next out => ∃ f : FileText,
      ts = f.tokens ∧ next.tok = .eof ∧ f.Accepted ∧ f.compile s = some out) := by
  have loop : ReadsTokens (tables s []) _ :=
    Reads.items (reads_tableRound s) (by simp [TableItem.tokens]) []
  refine Reads.congr (tokens_skipBreaks_bind (loop.bind fun found =>
    Reads.pure ({ label := s.file, chains := found } : Ruleset))) ?_
  intro ts next out _
  rw [List.map_id]
  constructor
  · rintro ⟨before, _, rfl, _, _, _, found, rfl,
      ⟨items, _, _, rfl, followed, folded, rfl, atEnd, rfl⟩, rfl, rfl⟩
    have final : next.tok = .eof := atEnd
    refine ⟨⟨before, items⟩, by simp [FileText.tokens], atEnd, ?_, ?_⟩
    · exact (followed_tables_iff (by simp [final])).mp followed
    · simp [FileText.compile, folded]
  · intro spelled
    rcases spelled with ⟨⟨before, items⟩, rfl, atEnd, accepted, compiled⟩
    obtain ⟨found, folded, compiled⟩ := Option.bind_eq_some_iff.mp compiled
    have notBreak : next.tok ≠ .brk := by simp [atEnd]
    have followed := (followed_tables_iff notBreak).mpr accepted
    refine ⟨before, items.flatMap TableItem.tokens, rfl, ?_, items.flatMap TableItem.tokens, [],
      found, (List.append_nil _).symm, ⟨items, found, [], (List.append_nil _).symm, followed,
        folded, rfl, atEnd, rfl⟩, rfl, (Option.some.inj compiled).symm⟩
    cases items with
    | nil => simp [atEnd]
    | cons item rest =>
        have starts : (((item :: rest).flatMap TableItem.tokens).headD next).tok =
            .word "table" := item.isTable
        rw [starts]
        simp

/-- A reading of a file: its tokens, as tables, chains and rules that the parser
accepts, and the ruleset they compile to. -/
structure FileText.Reads (f : FileText) (fileName source : String) (ruleset : Ruleset) :
    Prop where
  lexed : ∃ last, lex fileName source = .ok (f.tokens, last)
  accepted : f.Accepted
  compiled : f.compile { file := fileName, src := source } = some ruleset

/-- The parser accepts exactly the files that have a reading. -/
theorem parse_eq_ok_iff (fileName source : String) (ruleset : Ruleset) :
    parse fileName source = .ok ruleset ↔
      ∃ f : FileText, f.Reads fileName source ruleset := by
  unfold parse
  split
  · next e failed =>
      constructor
      · intro accepted
        contradiction
      · intro given
        rcases given with ⟨f, ⟨last, lexed⟩, _, _⟩
        rw [failed] at lexed
        contradiction
  · next tokens lexed =>
      obtain ⟨tokens, last⟩ := tokens
      have read := reads_file { file := fileName, src := source } (Cursor.start lexed)
      constructor
      · intro accepted
        split at accepted
        · contradiction
        · next out d succeeded =>
            obtain rfl := Except.ok.inj accepted
            obtain ⟨ts, splits, f, spelled, atEnd, acceptable, compiled⟩ :=
              (read out d).mp succeeded
            -- The cursor is at the end, so everything was consumed.
            have consumed : d.ahead = [] := by
              cases ahead : d.ahead with
              | nil => rfl
              | cons t rest =>
                  have peeked : d.peek = t := by simp [Lookahead.Cursor.peek, ahead]
                  have inner := d.inner t (by simp [ahead])
                  rw [← peeked] at inner
                  exact absurd atEnd inner
            have all : tokens = ts := by
              have ahead : tokens = ts ++ d.ahead := splits.1
              rw [ahead, consumed, List.append_nil]
            rw [List.map_id] at spelled
            exact ⟨f, ⟨last, by rw [lexed, all, spelled]⟩, acceptable, compiled⟩
      · intro given
        rcases given with ⟨f, ⟨last', lexed'⟩, acceptable, compiled⟩
        rw [lexed] at lexed'
        obtain ⟨rfl, rfl⟩ := Prod.mk.inj (Except.ok.inj lexed')
        let d : Cursor := ⟨[], last, by simp, (lex_eof lexed).2⟩
        have succeeded := (read ruleset d).mpr ⟨f.tokens, ⟨(List.append_nil _).symm, rfl⟩, f,
          List.map_id _, (lex_eof lexed).2, acceptable, compiled⟩
        rw [succeeded]

end Fwdelta.Nft
