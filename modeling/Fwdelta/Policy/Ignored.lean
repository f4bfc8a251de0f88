import Fwdelta.Policy.Parse

/-
What the policy parser leaves unread.

Unknown keys are refused inside an assertion only, and the accessors of the keys
with text values turn a value of another type into an absent constraint.  So a
document is carried into the policy exactly when it has neither.
-/

namespace Fwdelta

namespace Policy

/-- The keys of an assertion whose value is read as a text. -/
def TEXT_KEYS : List String :=
  ["from", "to", "iif", "oif", "chain"]

end Policy

/-- What an assertion carries for a key with a text value. -/
def Assertion.carried (a : Assertion) : String → Option String
  | "from" => a.from_.map Endpoint.label
  | "to" => a.to_.map Endpoint.label
  | "iif" => a.iif
  | "oif" => a.oif
  | "chain" => a.chain
  | _ => none

namespace Policy

/-- The tables of the `assert` list, each with its position. -/
def AssertTable (doc : Toml.Table) (i : Nat) (t : Toml.Table) : Prop :=
  ∃ items, doc.lookup "assert" = some (.array items) ∧ items[i]? = some (.table t)

/-- Nothing in the document is silently ignored. -/
structure Carries (doc : Toml.Table) (policy : Policy) : Prop where
  topLevel : ∀ key value, doc.lookup key = some value → key = "zones" ∨ key = "assert"
  fields : ∀ i t, AssertTable doc i t → ∃ a, policy.assertions[i]? = some a ∧
    ∀ key ∈ TEXT_KEYS, ∀ value, t.lookup key = some value →
      ∃ text, value = .string text ∧ a.carried key = some text

/-- The document has no other top-level key, and texts where the parser expects
texts. -/
structure Plain (doc : Toml.Table) : Prop where
  topLevel : ∀ key value, doc.lookup key = some value → key = "zones" ∨ key = "assert"
  texts : ∀ i t, AssertTable doc i t →
    ∀ key ∈ TEXT_KEYS, ∀ value, t.lookup key = some value → ∃ text, value = .string text

theorem map_label_endpoint (zones : List (String × IntervalSet 32)) (t : Toml.Table)
    (key : String) : (endpoint zones t key).map Endpoint.label = strField t key := by
  unfold endpoint
  cases strField t key with
  | none => rfl
  | some text =>
      simp only [Option.map_some, Option.some.injEq]
      split
      · rfl
      · split <;> rfl

section Document

variable [Toml.Library]

/-- The fields with text values are what `as_str` reads, whatever is there. -/
theorem carried_of_parseFields {zones : List (String × IntervalSet 32)} {name : String}
    {t : Toml.Table} {a : Assertion} (parsed : parseFields zones name t = .ok a) :
    ∀ key ∈ TEXT_KEYS, a.carried key = strField t key := by
  unfold parseFields at parsed
  split at parsed
  · contradiction
  · obtain ⟨kind, _, parsed⟩ := Fallible.bind_eq_ok_iff.mp parsed
    obtain ⟨proto, _, parsed⟩ := Fallible.bind_eq_ok_iff.mp parsed
    obtain ⟨sport, _, parsed⟩ := Fallible.bind_eq_ok_iff.mp parsed
    obtain ⟨dport, _, parsed⟩ := Fallible.bind_eq_ok_iff.mp parsed
    obtain rfl := Except.ok.inj parsed
    intro key member
    simp only [TEXT_KEYS, List.mem_cons, List.not_mem_nil, or_false] at member
    rcases member with rfl | rfl | rfl | rfl | rfl
    · exact map_label_endpoint zones t "from"
    · exact map_label_endpoint zones t "to"
    · rfl
    · rfl
    · rfl

theorem parseFields_of_parseAssertion {zones : List (String × IntervalSet 32)} {t : Toml.Table}
    {i : Nat} {a : Assertion} (parsed : parseAssertion zones (.table t, i) = .ok a) :
    ∃ name, parseFields zones name t = .ok a := by
  unfold parseAssertion at parsed
  simp only [Toml.Value.asTable] at parsed
  split at parsed
  · contradiction
  · next name _ => exact ⟨name, parsed⟩

/-- Each table of the list becomes the assertion at its position. -/
theorem carried_of_parseDocument {doc : Toml.Table} {policy : Policy}
    (accepted : parseDocument doc = .ok policy) {i : Nat} {t : Toml.Table}
    (listed : AssertTable doc i t) :
    ∃ a, policy.assertions[i]? = some a ∧
      ∀ key ∈ TEXT_KEYS, a.carried key = strField t key := by
  obtain ⟨items, found, at_⟩ := listed
  obtain ⟨zones, _, accepted⟩ := Fallible.bind_eq_ok_iff.mp accepted
  obtain ⟨assertions, parsed, accepted⟩ := Fallible.bind_eq_ok_iff.mp accepted
  obtain ⟨_, _, last⟩ := Fallible.bind_eq_ok_iff.mp accepted
  obtain rfl := Except.ok.inj last
  simp only [parseAssertions, found, Toml.Value.asArray] at parsed
  have each := Fallible.mapM_eq_ok_iff.mp parsed
  obtain ⟨bound, itemAt⟩ := List.getElem?_eq_some_iff.mp at_
  have zipBound : i < items.zipIdx.length := by
    rw [List.length_zipIdx]
    exact bound
  have outBound : i < assertions.length := by
    rw [← each.length_eq]
    exact zipBound
  have here := each.get zipBound outBound
  simp only [List.get_eq_getElem, List.getElem_zipIdx, itemAt] at here
  obtain ⟨name, fields⟩ := parseFields_of_parseAssertion here
  exact ⟨_, List.getElem?_eq_getElem outBound, carried_of_parseFields fields⟩

/-- An accepted document is carried into the policy exactly when it is plain. -/
theorem carries_iff_plain {source : String} {doc : Toml.Table} {policy : Policy}
    (reads : Toml.Library.fromStr source = .ok doc) (accepted : parse source = .ok policy) :
    Carries doc policy ↔ Plain doc := by
  have built : parseDocument doc = .ok policy := by
    rwa [parse, reads] at accepted
  constructor
  · intro carries
    refine ⟨carries.topLevel, ?_⟩
    intro i t listed key member value found
    obtain ⟨a, _, carried⟩ := carries.fields i t listed
    obtain ⟨text, isText, _⟩ := carried key member value found
    exact ⟨text, isText⟩
  · intro plain
    refine ⟨plain.topLevel, ?_⟩
    intro i t listed
    obtain ⟨a, at_, carried⟩ := carried_of_parseDocument built listed
    refine ⟨a, at_, ?_⟩
    intro key member value found
    obtain ⟨text, rfl⟩ := plain.texts i t listed key member value found
    refine ⟨text, rfl, ?_⟩
    rw [carried key member, strField, found]
    rfl

end Document

/-! ### Two documents -/

def lanAssertion : Toml.Table :=
  [("from", .string "10.0.0.0/8"), ("iif", .string "lan0"), ("kind", .string "isolation"),
    ("name", .string "lan")]

def lanDoc : Toml.Table :=
  [("assert", .array [.table lanAssertion])]

def lanSource : String :=
  "[[assert]]\nname = \"lan\"\nkind = \"isolation\"\nfrom = \"10.0.0.0/8\"\niif = \"lan0\"\n"

/-- The interface is given as a list, and a second assertion under a misspelled
key. -/
def strayAssertion : Toml.Table :=
  [("iif", .array [.string "lan0"]), ("kind", .string "isolation"), ("name", .string "lan")]

def strayDoc : Toml.Table :=
  [("assert", .array [.table strayAssertion]),
    ("asserts", .array [.table [("kind", .string "isolation"), ("name", .string "wan")]])]

def straySource : String :=
  "[[assert]]\nname = \"lan\"\nkind = \"isolation\"\niif = [\"lan0\"]\n\n" ++
    "[[asserts]]\nname = \"wan\"\nkind = \"isolation\"\n"

/-- A library that reads one text. -/
@[reducible] def libraryFor (source : String) (doc : Toml.Table) : Toml.Library where
  fromStr := fun text =>
    if text = source then .ok doc else .error { message := "unexpected text", start := none }
  display := fun _ => ""

theorem fromStr_libraryFor (source : String) (doc : Toml.Table) :
    (libraryFor source doc).fromStr source = .ok doc :=
  if_pos rfl

theorem plain_lanDoc : Plain lanDoc := by
  constructor
  · intro key value found
    by_cases assert : key = "assert"
    · exact Or.inr assert
    · have differs : (key == "assert") = false := beq_false_of_ne assert
      simp [lanDoc, List.lookup_cons, differs] at found
  · intro i t listed
    obtain ⟨items, found, at_⟩ := listed
    have only : items = [.table lanAssertion] := by
      simpa [lanDoc, eq_comm] using found
    have table : t = lanAssertion := by
      rw [only] at at_
      have member := List.mem_of_getElem? at_
      simpa using member
    rw [table]
    intro key member value found
    simp only [TEXT_KEYS, List.mem_cons, List.not_mem_nil, or_false] at member
    rcases member with rfl | rfl | rfl | rfl | rfl
    all_goals simp [lanAssertion, List.lookup_cons] at found
    · exact ⟨_, found.symm⟩
    · exact ⟨_, found.symm⟩

theorem lanDoc_carried : ∃ policy,
    @parse (libraryFor lanSource lanDoc) lanSource = .ok policy ∧ Carries lanDoc policy := by
  have accepted : ∃ policy, @parse (libraryFor lanSource lanDoc) lanSource = .ok policy := by
    unfold parse
    rw [fromStr_libraryFor]
    exact ⟨_, rfl⟩
  obtain ⟨policy, accepted⟩ := accepted
  exact ⟨policy, accepted, (@carries_iff_plain (libraryFor lanSource lanDoc) _ _ _
    (fromStr_libraryFor lanSource lanDoc) accepted).mpr plain_lanDoc⟩

/-- Both are accepted: the assertion of `lan0` becomes one about every interface,
and the misspelled assertion is not there. -/
theorem strayDoc_not_carried : ∃ policy,
    @parse (libraryFor straySource strayDoc) straySource = .ok policy ∧
      policy.assertions.map Assertion.name = ["lan"] ∧
      policy.assertions.map Assertion.iif = [none] ∧ ¬ Carries strayDoc policy := by
  have accepted : ∃ policy, @parse (libraryFor straySource strayDoc) straySource = .ok policy ∧
      policy.assertions.map Assertion.name = ["lan"] ∧
      policy.assertions.map Assertion.iif = [none] := by
    unfold parse
    rw [fromStr_libraryFor]
    exact ⟨_, rfl, rfl, rfl⟩
  obtain ⟨policy, accepted, names, interfaces⟩ := accepted
  refine ⟨policy, accepted, names, interfaces, ?_⟩
  intro carries
  have known := carries.topLevel "asserts" _ rfl
  revert known
  decide

end Policy

end Fwdelta
