import Fwdelta.Fallible
import Fwdelta.Ir.Rule
import Fwdelta.Text

/-
Reading the assertion file.

The document is read by a TOML library, which is a parameter: its values and
its tables, which are ordered by key.  Everything after that is the source's
own: zones, then assertions, then the check that every endpoint resolves.
-/

namespace Fwdelta

/-! ### The TOML library -/

namespace Toml

inductive Value
  | string (text : String)
  | integer (n : Int)
  | float (text : String)
  | boolean (b : Bool)
  | datetime (text : String)
  | array (items : List Value)
  | table (entries : List (String × Value))

abbrev Table := List (String × Value)

namespace Value

def asStr : Value → Option String
  | .string text => some text
  | _ => none

def asArray : Value → Option (List Value)
  | .array items => some items
  | _ => none

def asTable : Value → Option Table
  | .table entries => some entries
  | _ => none

end Value

/-- Why the library rejects a text, and at which byte. -/
structure Error where
  message : String
  start : Option Nat

/-- What the source uses of the library: reading a document, and displaying a
value. -/
class Library where
  fromStr : String → Except Error Table
  display : Value → String

end Toml

/-! ### Policies -/

inductive Kind
  | isolation
  | reachability
  deriving DecidableEq, Repr

/-- One end of an assertion: a zone name, or a literal address set. -/
inductive Endpoint
  | zone (name : String)
  | literal (text : String)
  deriving DecidableEq, Repr

def Endpoint.label : Endpoint → String
  | .zone n | .literal n => n

structure Assertion where
  name : String
  kind : Kind
  from_ : Option Endpoint
  to_ : Option Endpoint
  proto : Option (IntervalSet 8)
  sport : Option (IntervalSet 16)
  dport : Option (IntervalSet 16)
  iif : Option String
  oif : Option String
  chain : Option String
  summary : String
  deriving DecidableEq

namespace Assertion

/-- Silence about the input interface constrains all symbol values. -/
def iifMatch (a : Assertion) : IfMatch :=
  match a.iif with
  | none => .any
  | some n => IfMatch.one n

def oifMatch (a : Assertion) : IfMatch :=
  match a.oif with
  | none => .any
  | some n => IfMatch.one n

def interfaceNames (a : Assertion) : List String :=
  a.iif.toList ++ a.oif.toList

end Assertion

structure PolicyError where
  message : String
  location : Option String
  deriving DecidableEq, Repr

namespace PolicyError

def new (message : String) : PolicyError :=
  { message := message, location := none }

/-- Say where in the document (`at` in the source). -/
def located (error : PolicyError) (location : String) : PolicyError :=
  { error with location := some location }

def text (error : PolicyError) : String :=
  match error.location with
  | some l => s!"{l}: {error.message}"
  | none => error.message

end PolicyError

/-- The zones, ordered by name, and the assertions of a document. -/
structure Policy where
  zones : List (String × IntervalSet 32)
  assertions : List Assertion
  deriving DecidableEq

namespace Policy

/-! ### Scalars -/

def pushOctet (v : BitVec 32) (p : String) : Except PolicyError (BitVec 32) :=
  match Text.parseUnsigned Text.U32_MAX p with
  | none => .error (.new s!"`{p}` is not a number")
  | some o =>
      if o > 255 then .error (.new s!"octet {o} is larger than 255")
      else .ok ((v <<< 8) ||| BitVec.ofNat 32 o)

def parseIpv4 (text : String) : Except PolicyError (BitVec 32) :=
  let parts := Text.split '.' (Text.trim text)
  if parts.length ≠ 4 then .error (.new s!"`{Text.trim text}` is not an IPv4 address")
  else parts.foldlM pushOctet 0

def parseAddr (text : String) : Except PolicyError (IntervalSet 32) :=
  let t := Text.trim text
  match Text.splitOnce '/' t with
  | some (base, len) => do
      let addr ← parseIpv4 base
      match Text.parseUnsigned Text.U32_MAX (Text.trim len) with
      | none => .error (.new s!"`{len}` is not a prefix length")
      | some len =>
          if len > 32 then .error (.new s!"prefix length {len} exceeds 32")
          else .ok (IntervalSet.ofPrefix 32 addr.toNat len address_narrow (address_le addr))
  | none =>
      match Text.splitOnce '-' t with
      | some (lo, hi) => do
          let lo ← parseIpv4 lo
          let hi ← parseIpv4 hi
          if hi < lo then .error (.new s!"range `{t}` runs backwards")
          else .ok (IntervalSet.range 32 lo.toNat hi.toNat)
      | none => do
          let addr ← parseIpv4 t
          .ok (IntervalSet.point 32 addr.toNat (address_le addr))

def protoNumber : String → Option Nat
  | "icmp" => some 1
  | "igmp" => some 2
  | "tcp" => some 6
  | "udp" => some 17
  | "gre" => some 47
  | "esp" => some 50
  | "ah" => some 51
  | "ospf" => some 89
  | "vrrp" => some 112
  | "sctp" => some 132
  | _ => none

theorem protoNumber_le {name : String} {n : Nat} (known : protoNumber name = some n) :
    n ≤ domainMax 8 := by
  have top : domainMax 8 = 255 := by decide
  unfold protoNumber at known
  split at known <;> first
    | contradiction
    | (injection known with same; omega)

/-- The lists of ports and of protocols: one value, or the union of a list. -/
def parseList {bits : Nat} (one : Toml.Value → Except PolicyError (IntervalSet bits)) :
    Toml.Value → Except PolicyError (IntervalSet bits)
  | .array items =>
      items.foldlM (fun acc i => do
        let set ← one i
        .ok (acc.union set)) (IntervalSet.empty bits)
  | other => one other

theorem integer_port_le {n : Int} (within : 0 ≤ n ∧ n ≤ 65535) : n.toNat ≤ domainMax 16 :=
  port_le (by omega)

theorem integer_protocol_le {n : Int} (within : 0 ≤ n ∧ n ≤ 255) : n.toNat ≤ domainMax 8 :=
  protocol_le (by omega)

def parsePort (what : String) : Toml.Value → Except PolicyError (IntervalSet 16)
  | .integer n =>
      if within : 0 ≤ n ∧ n ≤ 65535 then
        .ok (IntervalSet.point 16 n.toNat (integer_port_le within))
      else .error (.new s!"port {n} is out of range")
  | .string s =>
      match Text.splitOnce '-' s with
      | none => .error (.new s!"`{s}` is not a port range")
      | some (lo, hi) =>
          match Text.parseUnsigned Text.U64_MAX (Text.trim lo) with
          | none => .error (.new "bad port")
          | some lo =>
              match Text.parseUnsigned Text.U64_MAX (Text.trim hi) with
              | none => .error (.new "bad port")
              | some hi =>
                  if lo > 65535 || hi > 65535 || hi < lo then
                    .error (.new s!"`{s}` is not a valid port range")
                  else .ok (IntervalSet.range 16 lo hi)
  | _ => .error (.new s!"{what} must be a number, range or list")

/-- `502`, `"1024-65535"`, `[22, 80, 443]`. -/
def parsePorts (v : Toml.Value) (what : String) : Except PolicyError (IntervalSet 16) :=
  parseList (parsePort what) v

def parseProto : Toml.Value → Except PolicyError (IntervalSet 8)
  | .integer n =>
      if within : 0 ≤ n ∧ n ≤ 255 then
        .ok (IntervalSet.point 8 n.toNat (integer_protocol_le within))
      else .error (.new s!"protocol number {n} is out of range")
  | .string s =>
      match known : protoNumber s with
      | some n => .ok (IntervalSet.point 8 n (protoNumber_le known))
      | none => .error (.new s!"unknown protocol `{s}`")
  | _ => .error (.new "proto must be a name, number or list")

def parseProtos (v : Toml.Value) : Except PolicyError (IntervalSet 8) :=
  parseList parseProto v

/-! ### The document -/

def ASSERT_KEYS : List String :=
  ["name", "kind", "from", "to", "proto", "sport", "dport", "iif", "oif", "chain"]

/-- Insert into the ordered map of zones, replacing the zone of that name. -/
def insertZone (name : String) (set : IntervalSet 32) :
    List (String × IntervalSet 32) → List (String × IntervalSet 32)
  | [] => [(name, set)]
  | zone :: rest =>
      if name < zone.1 then (name, set) :: zone :: rest
      else if name = zone.1 then (name, set) :: rest
      else zone :: insertZone name set rest

def zoneMember (name : String) (set : IntervalSet 32) (item : Toml.Value) :
    Except PolicyError (IntervalSet 32) :=
  match item.asStr with
  | none => .error ((PolicyError.new "a zone member must be a quoted address or prefix").located
      s!"zones.{name}")
  | some text =>
      match parseAddr text with
      | .error e => .error (e.located s!"zones.{name}")
      | .ok addr => .ok (set.union addr)

def parseZone (name : String) (value : Toml.Value) : Except PolicyError (IntervalSet 32) := do
  let items := match value with
    | .array a => a
    | other => [other]
  let set ← items.foldlM (zoneMember name) (IntervalSet.empty 32)
  if set.isEmpty then
    .error ((PolicyError.new "a zone must contain at least one address").located s!"zones.{name}")
  else .ok set

def parseZones (doc : Toml.Table) : Except PolicyError (List (String × IntervalSet 32)) :=
  match doc.lookup "zones" with
  | none => .ok []
  | some zones =>
      match zones.asTable with
      | none => .error ((PolicyError.new "`zones` must be a table").located "[zones]")
      | some table =>
          table.foldlM (fun zones entry => do
            let set ← parseZone entry.1 entry.2
            .ok (insertZone entry.1 set zones)) []

def strField (t : Toml.Table) (key : String) : Option String :=
  (t.lookup key).bind Toml.Value.asStr

/-- A zone when there is one of that name; otherwise a literal when it looks like
an address, and a misspelled zone when it does not. -/
def endpoint (zones : List (String × IntervalSet 32)) (t : Toml.Table) (key : String) :
    Option Endpoint :=
  (strField t key).map fun s =>
    if (zones.lookup s).isSome then .zone s
    else if s.toList.head?.any Char.isDigit then .literal s
    else .zone s

def parseKind (here : String) (t : Toml.Table) : Except PolicyError Kind :=
  match strField t "kind" with
  | some "isolation" => .ok .isolation
  | some "reachability" => .ok .reachability
  | some other => .error ((PolicyError.new
      s!"unknown kind `{other}`; expected isolation or reachability").located here)
  | none => .error ((PolicyError.new "an assertion needs a `kind`").located here)

def optionalField {α : Type} (here : String) (t : Toml.Table) (key : String)
    (read : Toml.Value → Except PolicyError α) : Except PolicyError (Option α) :=
  match t.lookup key with
  | none => .ok none
  | some v =>
      match read v with
      | .error e => .error (e.located here)
      | .ok a => .ok (some a)

def summarise [Toml.Library] (from_ to_ : Option Endpoint) (dport : Option Toml.Value) : String :=
  ((from_.map Endpoint.label).getD "any") ++ " -> " ++ ((to_.map Endpoint.label).getD "any") ++
    match dport with
    | some p => ":" ++ Toml.Library.display p
    | none => ""

def parseFields [Toml.Library] (zones : List (String × IntervalSet 32)) (name : String)
    (t : Toml.Table) : Except PolicyError Assertion := do
  let here := s!"assertion `{name}`"
  match t.find? (fun entry => !ASSERT_KEYS.contains entry.1) with
  | some (key, _) =>
      let known := ", ".intercalate ASSERT_KEYS
      .error ((PolicyError.new s!"unknown field `{key}`. Known fields: {known}").located here)
  | none =>
      let kind ← parseKind here t
      let from_ := endpoint zones t "from"
      let to_ := endpoint zones t "to"
      let proto ← optionalField here t "proto" parseProtos
      let sport ← optionalField here t "sport" (fun v => parsePorts v "sport")
      let dport ← optionalField here t "dport" (fun v => parsePorts v "dport")
      .ok {
        name := name
        kind := kind
        from_ := from_
        to_ := to_
        proto := proto
        sport := sport
        dport := dport
        iif := strField t "iif"
        oif := strField t "oif"
        chain := strField t "chain"
        summary := summarise from_ to_ (t.lookup "dport") }

def parseAssertion [Toml.Library] (zones : List (String × IntervalSet 32))
    (item : Toml.Value × Nat) : Except PolicyError Assertion :=
  match item.1.asTable with
  | none => .error ((PolicyError.new "each assertion must be a table").located
      s!"assert[{item.2}]")
  | some t =>
      match strField t "name" with
      | none => .error ((PolicyError.new "an assertion needs a `name`").located
          s!"assert[{item.2}]")
      | some name => parseFields zones name t

def parseAssertions [Toml.Library] (zones : List (String × IntervalSet 32)) (doc : Toml.Table) :
    Except PolicyError (List Assertion) :=
  match doc.lookup "assert" with
  | none => .ok []
  | some asserts =>
      match asserts.asArray with
      | none => .error ((PolicyError.new "`assert` must be a list of tables").located
          "[[assert]]")
      | some items => items.zipIdx.mapM (parseAssertion zones)

def resolve (policy : Policy) : Endpoint → Except PolicyError (IntervalSet 32)
  | .zone name =>
      match policy.zones.lookup name with
      | some set => .ok set
      | none =>
          let defined :=
            if policy.zones.isEmpty then "none"
            else ", ".intercalate (policy.zones.map Prod.fst)
          .error (.new s!"no zone named `{name}`. Defined zones: {defined}")
  | .literal text => parseAddr text

def endpoints (a : Assertion) : List Endpoint :=
  a.from_.toList ++ a.to_.toList

def checkEndpoints (policy : Policy) (a : Assertion) : Except PolicyError Unit :=
  (endpoints a).forM (fun e =>
    match policy.resolve e with
    | .error err => .error (err.located s!"assertion `{a.name}`")
    | .ok _ => .ok ())

def parseDocument [Toml.Library] (doc : Toml.Table) : Except PolicyError Policy := do
  let zones ← parseZones doc
  let assertions ← parseAssertions zones doc
  let policy : Policy := { zones := zones, assertions := assertions }
  assertions.forM policy.checkEndpoints
  .ok policy

def tomlError (source : String) (e : Toml.Error) : PolicyError :=
  match e.start with
  | none => .new e.message
  | some start =>
      let before := String.ofList (Text.takeBytes start source.toList)
      let line := max (Text.lines before).length 1
      (PolicyError.new e.message).located s!"line {line}"

def parse [Toml.Library] (source : String) : Except PolicyError Policy :=
  match Toml.Library.fromStr source with
  | .error e => .error (tomlError source e)
  | .ok doc => parseDocument doc

def interfaceNames (policy : Policy) : List String :=
  policy.assertions.flatMap Assertion.interfaceNames

/-! ### What an accepted document promises -/

def Resolves (policy : Policy) (a : Assertion) : Prop :=
  ∀ e ∈ endpoints a, ∃ set, policy.resolve e = .ok set

theorem checkEndpoints_eq_ok_iff (policy : Policy) (a : Assertion) :
    policy.checkEndpoints a = .ok () ↔ policy.Resolves a := by
  unfold checkEndpoints Resolves
  rw [Fallible.forM_eq_ok_iff]
  refine forall₂_congr fun e _ => ?_
  cases policy.resolve e <;> simp

/-- A document is only accepted when every endpoint of every assertion resolves. -/
theorem resolves_of_parseDocument [Toml.Library] {doc : Toml.Table} {policy : Policy}
    (accepted : parseDocument doc = .ok policy) : ∀ a ∈ policy.assertions, policy.Resolves a := by
  obtain ⟨zones, _, accepted⟩ := Fallible.bind_eq_ok_iff.mp accepted
  obtain ⟨assertions, _, accepted⟩ := Fallible.bind_eq_ok_iff.mp accepted
  obtain ⟨_, checked, last⟩ := Fallible.bind_eq_ok_iff.mp accepted
  obtain rfl := Except.ok.inj last
  intro a member
  exact (checkEndpoints_eq_ok_iff _ a).mp (Fallible.forM_eq_ok_iff.mp checked a member)

theorem resolves_of_parse [Toml.Library] {source : String} {policy : Policy}
    (accepted : parse source = .ok policy) : ∀ a ∈ policy.assertions, policy.Resolves a := by
  unfold parse at accepted
  split at accepted
  · contradiction
  · exact resolves_of_parseDocument accepted

end Policy

end Fwdelta
