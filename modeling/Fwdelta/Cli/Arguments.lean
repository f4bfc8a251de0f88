import Fwdelta.Cli.Check

/-
The arguments of the command.

They are read from left to right: an option takes the argument after it as its value,
whatever that looks like, and a later value replaces an earlier one.  The theorems say
which lists of arguments are accepted, what is made of them, and at which argument and
with which message any other list is refused.
-/

namespace Fwdelta.Cli

/-- What the arguments ask for.  The source calls it `Options`. -/
structure Arguments where
  base : Option String
  head : Option String
  path : Option String
  chain : Option String
  format : Format
  out : Option String
  failOnNewlyBlocked : Bool
  verify : Bool
  maxRows : Nat
  assertFile : Option String
  attestTo : Option String
  allowVacuous : Bool
  positional : List String

def Arguments.start : Arguments where
  base := none
  head := none
  path := none
  chain := none
  format := .text
  out := none
  failOnNewlyBlocked := false
  verify := false
  maxRows := 12
  assertFile := none
  attestTo := none
  allowVacuous := false
  positional := []

/-- What the comparison looks at. -/
def Arguments.options (a : Arguments) : Options where
  chain := a.chain
  allowVacuous := a.allowVacuous
  failOnNewlyBlocked := a.failOnNewlyBlocked
  verify := a.verify

/-- Options with a value. -/
inductive Setting
  | base
  | head
  | path
  | chain
  | maxRows
  | format
  | out
  | assertFile
  | attestTo
  deriving DecidableEq, Repr

inductive Flag
  | allowVacuous
  | failOnNewlyBlocked
  | verify
  deriving DecidableEq, Repr

def Setting.text : Setting → String
  | .base => "--base"
  | .head => "--head"
  | .path => "--path"
  | .chain => "--chain"
  | .maxRows => "--max-rows"
  | .format => "--format"
  | .out => "--out"
  | .assertFile => "--assert"
  | .attestTo => "--attest"

def Flag.text : Flag → String
  | .allowVacuous => "--allow-vacuous"
  | .failOnNewlyBlocked => "--fail-on-newly-blocked"
  | .verify => "--verify"

/-- The arm of the match that an argument takes. -/
inductive Arm
  | setting (s : Setting)
  | flag (f : Flag)
  | help
  | unknown
  | positional
  deriving DecidableEq, Repr

def armOf (a : String) : Arm :=
  match a with
  | "--base" => .setting .base
  | "--head" => .setting .head
  | "--path" => .setting .path
  | "--chain" => .setting .chain
  | "--max-rows" => .setting .maxRows
  | "--format" => .setting .format
  | "--out" => .setting .out
  | "--assert" => .setting .assertFile
  | "--attest" => .setting .attestTo
  | "--allow-vacuous" => .flag .allowVacuous
  | "--fail-on-newly-blocked" => .flag .failOnNewlyBlocked
  | "--verify" => .flag .verify
  | "-h" => .help
  | "--help" => .help
  | other => if other.toList.head? = some '-' then .unknown else .positional

/-- Why no options come back: the arguments are refused, or the usage is printed and the
process ends. -/
inductive Refusal
  | message (text : String)
  | usage
  deriving DecidableEq, Repr

def Format.read (value : String) : Option Format :=
  match value with
  | "json" => some .json
  | "text" => some .text
  | "html" => some .html
  | _ => none

def Setting.store (value : String) (a : Arguments) : Setting → Except String Arguments
  | .base => .ok { a with base := some value }
  | .head => .ok { a with head := some value }
  | .path => .ok { a with path := some value }
  | .chain => .ok { a with chain := some value }
  | .maxRows =>
      match Text.parseUnsigned Text.U64_MAX value with
      | some n => .ok { a with maxRows := n }
      | none => .error "--max-rows needs a number"
  | .format =>
      match Format.read value with
      | some known => .ok { a with format := known }
      | none => .error s!"unknown format `{value}`; use text, json or html"
  | .out => .ok { a with out := some value }
  | .assertFile => .ok { a with assertFile := some value }
  | .attestTo => .ok { a with attestTo := some value }

def Flag.raise (a : Arguments) : Flag → Arguments
  | .allowVacuous => { a with allowVacuous := true }
  | .failOnNewlyBlocked => { a with failOnNewlyBlocked := true }
  | .verify => { a with verify := true }

/-- The loop over the arguments. -/
def parseFrom (a : Arguments) : List String → Except Refusal Arguments
  | [] => .ok a
  | first :: rest =>
      match armOf first, rest with
      | .setting _, [] => .error (.message s!"{first} needs a value")
      | .setting s, value :: later =>
          match s.store value a with
          | .ok stored => parseFrom stored later
          | .error text => .error (.message text)
      | .flag f, rest => parseFrom (f.raise a) rest
      | .help, _ => .error .usage
      | .unknown, _ => .error (.message s!"unknown option `{first}`")
      | .positional, rest => parseFrom { a with positional := a.positional ++ [first] } rest

def parseOptions (args : List String) : Except Refusal Arguments :=
  parseFrom .start args

theorem armOf_setting (s : Setting) : armOf s.text = .setting s := by
  cases s <;> rfl

theorem armOf_flag (f : Flag) : armOf f.text = .flag f := by
  cases f <;> rfl

theorem text_of_setting {first : String} {s : Setting} (arm : armOf first = .setting s) :
    first = s.text := by
  unfold armOf at arm
  split at arm <;> first | (cases arm; rfl) | cases arm | (split at arm <;> cases arm)

theorem text_of_flag {first : String} {f : Flag} (arm : armOf first = .flag f) :
    first = f.text := by
  unfold armOf at arm
  split at arm <;> first | (cases arm; rfl) | cases arm | (split at arm <;> cases arm)

/-! ### What is accepted -/

/-- An argument, with its value if it has one. -/
inductive Argument
  | setting (s : Setting) (value : String)
  | flag (f : Flag)
  | positional (text : String)

namespace Argument

def words : Argument → List String
  | .setting s value => [s.text, value]
  | .flag f => [f.text]
  | .positional text => [text]

/-- Values that are read can be, and no positional argument is an option. -/
def Proper : Argument → Prop
  | .setting .maxRows value => (Text.parseUnsigned Text.U64_MAX value).isSome = true
  | .setting .format value => (Format.read value).isSome = true
  | .setting _ _ => True
  | .flag _ => True
  | .positional text => armOf text = .positional

def valueOf (s : Setting) : Argument → Option String
  | .setting other value => if other = s then some value else none
  | _ => none

def isFlag (f : Flag) : Argument → Bool
  | .flag other => decide (other = f)
  | _ => false

def file : Argument → Option String
  | .positional text => some text
  | _ => none

end Argument

/-- The last value of an option, as it is read. -/
def lastRead {α : Type} (s : Setting) (read : String → Option α) (list : List Argument) :
    Option α :=
  (list.filterMap (fun g => (g.valueOf s).bind read)).getLast?

/-- What the arguments say, and what was said before where they are silent. -/
def Arguments.after (a : Arguments) (list : List Argument) : Arguments where
  base := (lastRead .base some list).or a.base
  head := (lastRead .head some list).or a.head
  path := (lastRead .path some list).or a.path
  chain := (lastRead .chain some list).or a.chain
  format := (lastRead .format Format.read list).getD a.format
  out := (lastRead .out some list).or a.out
  failOnNewlyBlocked := a.failOnNewlyBlocked || list.any (Argument.isFlag .failOnNewlyBlocked)
  verify := a.verify || list.any (Argument.isFlag .verify)
  maxRows := (lastRead .maxRows (Text.parseUnsigned Text.U64_MAX) list).getD a.maxRows
  assertFile := (lastRead .assertFile some list).or a.assertFile
  attestTo := (lastRead .attestTo some list).or a.attestTo
  allowVacuous := a.allowVacuous || list.any (Argument.isFlag .allowVacuous)
  positional := a.positional ++ list.filterMap Argument.file

theorem lastRead_cons {α : Type} (s : Setting) (read : String → Option α) (g : Argument)
    (list : List Argument) :
    lastRead s read (g :: list) = (lastRead s read list).or ((g.valueOf s).bind read) := by
  unfold lastRead
  rw [List.filterMap_cons]
  cases (g.valueOf s).bind read with
  | none => rw [Option.or_none]
  | some value =>
      simp only [List.getLast?_cons]
      cases (list.filterMap (fun g => (g.valueOf s).bind read)).getLast? <;> rfl

theorem Arguments.after_nil (a : Arguments) : a.after [] = a := by
  simp [Arguments.after, lastRead]

theorem Setting.after_cons {s : Setting} {value : String} {a stored : Arguments}
    (kept : s.store value a = .ok stored) (list : List Argument) :
    a.after (.setting s value :: list) = stored.after list := by
  cases s
  case maxRows =>
    cases found : Text.parseUnsigned Text.U64_MAX value with
    | none => simp [store, found] at kept
    | some n =>
        simp only [store, found, Except.ok.injEq] at kept
        subst kept
        simp [Arguments.after, lastRead_cons, List.filterMap_cons, Argument.valueOf,
          Argument.isFlag, Argument.file, found]
  case format =>
    cases found : Format.read value with
    | none => simp [store, found] at kept
    | some known =>
        simp only [store, found, Except.ok.injEq] at kept
        subst kept
        simp [Arguments.after, lastRead_cons, List.filterMap_cons, Argument.valueOf,
          Argument.isFlag, Argument.file, found]
  all_goals
    obtain rfl := Except.ok.inj kept
    simp [Arguments.after, lastRead_cons, List.filterMap_cons, Argument.valueOf,
      Argument.isFlag, Argument.file]

theorem Flag.after_cons (f : Flag) (a : Arguments) (list : List Argument) :
    a.after (.flag f :: list) = (f.raise a).after list := by
  cases f <;>
    simp [Arguments.after, lastRead_cons, List.filterMap_cons, Argument.valueOf, Argument.isFlag,
      Argument.file, raise]

theorem Arguments.after_positional (a : Arguments) (text : String) (list : List Argument) :
    a.after (.positional text :: list) =
      { a with positional := a.positional ++ [text] }.after list := by
  simp [Arguments.after, lastRead_cons, Argument.valueOf, Argument.isFlag, Argument.file]

theorem Setting.exists_stored {s : Setting} {value : String}
    (proper : (Argument.setting s value).Proper) (a : Arguments) :
    ∃ stored, s.store value a = .ok stored := by
  cases s
  case maxRows =>
    obtain ⟨n, found⟩ := Option.isSome_iff_exists.mp proper
    exact ⟨_, by rw [store, found]⟩
  case format =>
    obtain ⟨known, found⟩ := Option.isSome_iff_exists.mp proper
    exact ⟨_, by rw [store, found]⟩
  all_goals exact ⟨_, rfl⟩

theorem Setting.proper_of_stored {s : Setting} {value : String} {a stored : Arguments}
    (kept : s.store value a = .ok stored) : (Argument.setting s value).Proper := by
  cases s
  case maxRows =>
    refine Option.isSome_iff_ne_none.mpr fun bad => ?_
    rw [store, bad] at kept
    contradiction
  case format =>
    refine Option.isSome_iff_ne_none.mpr fun bad => ?_
    rw [store, bad] at kept
    contradiction
  all_goals exact trivial

/-- Proper arguments are read one by one, whatever comes after them. -/
theorem parseFrom_append {list : List Argument} (proper : ∀ g ∈ list, g.Proper) (a : Arguments)
    (rest : List String) :
    parseFrom a (list.flatMap Argument.words ++ rest) = parseFrom (a.after list) rest := by
  induction list generalizing a with
  | nil => rw [Arguments.after_nil, List.flatMap_nil, List.nil_append]
  | cons g later ih =>
      obtain ⟨here, others⟩ := List.forall_mem_cons.mp proper
      rw [List.flatMap_cons, List.append_assoc]
      cases g with
      | setting s value =>
          obtain ⟨stored, kept⟩ := s.exists_stored here a
          rw [s.after_cons kept, ← ih others stored]
          simp only [Argument.words, List.cons_append, List.nil_append]
          rw [parseFrom.eq_def]
          simp only [armOf_setting, kept]
      | flag f =>
          rw [f.after_cons, ← ih others (f.raise a)]
          simp only [Argument.words, List.cons_append, List.nil_append]
          rw [parseFrom.eq_def]
          simp only [armOf_flag]
      | positional text =>
          rw [a.after_positional, ← ih others]
          simp only [Argument.words, List.cons_append, List.nil_append]
          rw [parseFrom.eq_def]
          simp only [show armOf text = .positional from here]

/-! ### What is refused -/

/-- The first of the arguments is refused with this message, or asks for the usage. -/
inductive Stops : List String → Refusal → Prop
  | missing (s : Setting) : Stops [s.text] (.message (s.text ++ " needs a value"))
  | rows {value : String} (bad : Text.parseUnsigned Text.U64_MAX value = none)
      (rest : List String) :
      Stops (Setting.maxRows.text :: value :: rest) (.message "--max-rows needs a number")
  | format {value : String} (bad : Format.read value = none) (rest : List String) :
      Stops (Setting.format.text :: value :: rest)
        (.message ("unknown format `" ++ value ++ "`; use text, json or html"))
  | unknown {first : String} (arm : armOf first = .unknown) (rest : List String) :
      Stops (first :: rest) (.message ("unknown option `" ++ first ++ "`"))
  | usage {first : String} (arm : armOf first = .help) (rest : List String) :
      Stops (first :: rest) .usage

theorem parseFrom_of_stops {rest : List String} {refusal : Refusal} (stops : Stops rest refusal)
    (a : Arguments) : parseFrom a rest = .error refusal := by
  rw [parseFrom.eq_def]
  cases stops with
  | missing s =>
      simp only [armOf_setting]
      rfl
  | rows bad rest => simp only [armOf_setting .maxRows, Setting.store, bad]
  | format bad rest =>
      simp only [armOf_setting .format, Setting.store, bad]
      rfl
  | unknown arm rest =>
      simp only [arm]
      rfl
  | usage arm rest => simp only [arm]

theorem Setting.stops {s : Setting} {value text : String} {a : Arguments}
    (failed : s.store value a = .error text) (rest : List String) :
    Stops (s.text :: value :: rest) (.message text) := by
  cases s
  case maxRows =>
    cases found : Text.parseUnsigned Text.U64_MAX value with
    | some n => simp [store, found] at failed
    | none =>
        simp only [store, found, Except.error.injEq] at failed
        subst failed
        exact .rows found rest
  case format =>
    cases found : Format.read value with
    | some known => simp [store, found] at failed
    | none =>
        simp only [store, found, Except.error.injEq] at failed
        subst failed
        exact .format found rest
  all_goals contradiction

/-- Proper arguments up to the end, or up to one that is refused. -/
def Splits (args : List String) : Prop :=
  ∃ (list : List Argument) (rest : List String), args = list.flatMap Argument.words ++ rest ∧
    (∀ g ∈ list, g.Proper) ∧ (rest = [] ∨ ∃ refusal, Stops rest refusal)

theorem Splits.cons {g : Argument} (proper : g.Proper) {later : List String}
    (splits : Splits later) : Splits (g.words ++ later) := by
  obtain ⟨list, rest, rfl, others, last⟩ := splits
  exact ⟨g :: list, rest, by rw [List.flatMap_cons, List.append_assoc],
    List.forall_mem_cons.mpr ⟨proper, others⟩, last⟩

theorem Stops.splits {args : List String} {refusal : Refusal} (stops : Stops args refusal) :
    Splits args :=
  ⟨[], args, rfl, by simp, Or.inr ⟨refusal, stops⟩⟩

theorem splits (a : Arguments) (args : List String) : Splits args := by
  fun_induction parseFrom a args with
  | case1 => exact ⟨[], [], rfl, by simp, Or.inl rfl⟩
  | case2 a first s arm =>
      rw [text_of_setting arm]
      exact (Stops.missing s).splits
  | case3 a first s value later arm stored kept ih =>
      rw [text_of_setting arm]
      exact ih.cons (Setting.proper_of_stored kept)
  | case4 a first s value later arm text failed =>
      rw [text_of_setting arm]
      exact (Setting.stops failed later).splits
  | case5 a first f rest arm ih =>
      rw [text_of_flag arm]
      exact ih.cons (g := .flag f) trivial
  | case6 a first rest arm => exact (Stops.usage arm rest).splits
  | case7 a first rest arm => exact (Stops.unknown arm rest).splits
  | case8 a first rest arm ih => exact ih.cons (g := .positional first) arm

/-- The arguments are accepted exactly when they are proper ones, one after the other: the
last value of an option counts, a flag counts when it is among them, and the others are
kept in order.  They are refused exactly when such arguments are followed by one that is. -/
theorem parseOptions_exact (args : List String) :
    (∀ a, parseOptions args = .ok a ↔ ∃ list : List Argument,
      args = list.flatMap Argument.words ∧ (∀ g ∈ list, g.Proper) ∧
        a = Arguments.start.after list) ∧
    ∀ refusal, parseOptions args = .error refusal ↔ ∃ (list : List Argument) (rest : List String),
      args = list.flatMap Argument.words ++ rest ∧ (∀ g ∈ list, g.Proper) ∧ Stops rest refusal := by
  have reads {list : List Argument} (proper : ∀ g ∈ list, g.Proper) :
      parseOptions (list.flatMap Argument.words) = .ok (Arguments.start.after list) := by
    have whole := parseFrom_append proper .start []
    rwa [List.append_nil] at whole
  have refuses {list : List Argument} (proper : ∀ g ∈ list, g.Proper) {rest : List String}
      {refusal : Refusal} (stops : Stops rest refusal) :
      parseOptions (list.flatMap Argument.words ++ rest) = .error refusal :=
    (parseFrom_append proper .start rest).trans (parseFrom_of_stops stops _)
  obtain ⟨list, rest, rfl, proper, last⟩ := splits .start args
  constructor
  · intro a
    constructor
    · intro read
      rcases last with rfl | ⟨refusal, stops⟩
      · rw [List.append_nil] at read ⊢
        exact ⟨list, rfl, proper, (Except.ok.inj ((reads proper).symm.trans read)).symm⟩
      · rw [refuses proper stops] at read
        contradiction
    · rintro ⟨other, same, otherProper, rfl⟩
      rw [same]
      exact reads otherProper
  · intro refusal
    constructor
    · intro refused
      rcases last with rfl | ⟨found, stops⟩
      · rw [List.append_nil, reads proper] at refused
        contradiction
      · obtain rfl := Except.error.inj ((refuses proper stops).symm.trans refused)
        exact ⟨list, rest, rfl, proper, stops⟩
    · rintro ⟨other, left, same, otherProper, stops⟩
      rw [same]
      exact refuses otherProper stops

/-- An option takes what comes after it, even another option. -/
example : parseOptions ["--base", "--verify", "a.nft"] =
    .ok { Arguments.start with base := some "--verify", positional := ["a.nft"] } := rfl

end Fwdelta.Cli
