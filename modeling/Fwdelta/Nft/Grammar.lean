import Fwdelta.Nft.Parse

/-
The syntax the parser recognises.

Syntax trees spell tokens, say which token may follow them, and denote what the
parser builds.  The parser reads one statement more loosely than its
documentation in a few places; the trees follow the parser, and `Documented`
picks out those the documentation allows.
-/

namespace Fwdelta.Nft

/-! ### Values -/

def Tok.IsLiteral : Tok → Prop
  | .word _ | .num _ | .ip _ | .str _ => True
  | _ => False

def Tok.ClosesMember (t : Tok) : Prop :=
  t = .brk ∨ t = .sym ',' ∨ t = .sym '}'

/-- A form of literal values: how one is spelled, what may follow it, and what
it denotes. -/
structure Form (α β : Type) where
  yield : α → List Tok
  Follow : α → Tok → Prop
  value : α → β
  starts : ∀ a, ∃ t rest, yield a = t :: rest ∧ t.IsLiteral
  closed : ∀ a t, t.ClosesMember → Follow a t

inductive AddrAtom
  | point (address : BitVec 32)
  | cidr (base : BitVec 32) (len : Nat) (within : len ≤ 32)
  | range (lo hi : BitVec 32) (ordered : lo ≤ hi)

namespace AddrAtom

def yield : AddrAtom → List Tok
  | .point address => [.ip address]
  | .cidr base len _ => [.ip base, .sym '/', .num len]
  | .range lo hi _ => [.ip lo, .sym '-', .ip hi]

def Follow : AddrAtom → Tok → Prop
  | .point _, next => next ≠ .sym '/' ∧ next ≠ .sym '-'
  | _, _ => True

def set : AddrAtom → IntervalSet 32
  | .point address => IntervalSet.point 32 address.toNat (address_le address)
  | .cidr base len _ =>
      IntervalSet.ofPrefix 32 base.toNat len address_narrow (address_le base)
  | .range lo hi _ => IntervalSet.range 32 lo.toNat hi.toNat

def Has : AddrAtom → Nat → Prop
  | .point address, x => x = address.toNat
  | .cidr base len _, x => x >>> (32 - len) = base.toNat >>> (32 - len)
  | .range lo hi _, x => lo.toNat ≤ x ∧ x ≤ hi.toNat

theorem contains_set (atom : AddrAtom) (x : Nat) :
    atom.set.contains x = true ↔ atom.Has x := by
  cases atom with
  | point address => simp [set, Has]
  | cidr base len within => simp [set, Has]
  | range lo hi ordered => simp [set, Has, address_le hi]

def form : Form AddrAtom (IntervalSet 32) where
  yield := yield
  Follow := Follow
  value := set
  starts atom := by cases atom <;> exact ⟨_, _, rfl, trivial⟩
  closed atom t closes := by
    cases atom <;> rcases closes with rfl | rfl | rfl <;> simp [Follow]

end AddrAtom

inductive PortAtom
  | one (port : Nat) (within : ¬ port > 65535)
  | range (lo hi : Nat) (within : ¬ hi > 65535) (ordered : lo ≤ hi)

namespace PortAtom

def yield : PortAtom → List Tok
  | .one port _ => [.num port]
  | .range lo hi _ _ => [.num lo, .sym '-', .num hi]

def Follow : PortAtom → Tok → Prop
  | .one _ _, next => next ≠ .sym '-'
  | _, _ => True

def set : PortAtom → IntervalSet 16
  | .one port within => IntervalSet.point 16 port (port_le within)
  | .range lo hi _ _ => IntervalSet.range 16 lo hi

def Has : PortAtom → Nat → Prop
  | .one port _, x => x = port
  | .range lo hi _ _, x => lo ≤ x ∧ x ≤ hi

theorem contains_set (atom : PortAtom) (x : Nat) :
    atom.set.contains x = true ↔ atom.Has x := by
  cases atom with
  | one port within => simp [set, Has]
  | range lo hi within ordered => simp [set, Has, port_le within]

def form : Form PortAtom (IntervalSet 16) where
  yield := yield
  Follow := Follow
  value := set
  starts atom := by cases atom <;> exact ⟨_, _, rfl, trivial⟩
  closed atom t closes := by
    cases atom <;> rcases closes with rfl | rfl | rfl <;> simp [Follow]

end PortAtom

inductive ProtoAtom
  | number (n : Nat) (within : n ≤ 255)
  | name (w : String) (n : Nat) (known : protoNumber w = some n)

namespace ProtoAtom

def yield : ProtoAtom → List Tok
  | .number n _ => [.num n]
  | .name w _ _ => [.word w]

def set : ProtoAtom → IntervalSet 8
  | .number n within => IntervalSet.point 8 n (protocol_le within)
  | .name _ n known => IntervalSet.point 8 n (protoNumber_le known)

def Has : ProtoAtom → Nat → Prop
  | .number n _, x => x = n
  | .name _ n _, x => x = n

theorem contains_set (atom : ProtoAtom) (x : Nat) :
    atom.set.contains x = true ↔ atom.Has x := by
  cases atom <;> simp [set, Has]

def form : Form ProtoAtom (IntervalSet 8) where
  yield := yield
  Follow _ _ := True
  value := set
  starts atom := by cases atom <;> exact ⟨_, _, rfl, trivial⟩
  closed _ _ _ := trivial

end ProtoAtom

structure IfAtom where
  name : String
  quoted : Bool
  named : name.toList.contains '*' = false

namespace IfAtom

def yield (atom : IfAtom) : List Tok :=
  if atom.quoted then [.str atom.name] else [.word atom.name]

def form : Form IfAtom String where
  yield := yield
  Follow _ next := next ≠ .sym '*'
  value := name
  starts atom := by
    cases quoted : atom.quoted <;> simp [yield, quoted, Tok.IsLiteral]
  closed _ t closes := by
    rcases closes with rfl | rfl | rfl <;> simp

end IfAtom

/-- How a value is negated: not, with a lone `!`, or with `!=`. -/
inductive Negation
  | absent
  | bang
  | bangEqual
  deriving DecidableEq, Repr

def Negation.yield : Negation → List Tok
  | .absent => []
  | .bang => [.sym '!']
  | .bangEqual => [.sym '!', .sym '=']

def Negation.negated : Negation → Bool
  | .absent => false
  | _ => true

structure Member (α : Type) where
  before : Nat
  atom : α
  after : Nat

inductive Value (α : Type)
  | single (atom : α)
  | set (first : Member α) (rest : List (Member α))

structure Spec (α : Type) where
  negation : Negation
  value : Value α

section Values

variable {α β γ : Type} (form : Form α β)

def breaks (n : Nat) : List Tok := List.replicate n .brk

def Member.yield (member : Member α) : List Tok :=
  breaks member.before ++ form.yield member.atom ++ breaks member.after

/-- The members after the first, each after a comma, and the closing brace. -/
def yieldRest : List (Member α) → List Tok
  | [] => [.sym '}']
  | member :: rest => .sym ',' :: (member.yield form ++ yieldRest rest)

def Value.yield : Value α → List Tok
  | .single atom => form.yield atom
  | .set first rest => .sym '{' :: (first.yield form ++ yieldRest form rest)

def Value.Follow : Value α → Tok → Prop
  | .single atom, next => form.Follow atom next
  | .set _ _, _ => True

def Value.atoms : Value α → List α
  | .single atom => [atom]
  | .set first rest => (first :: rest).map Member.atom

def Value.eval (single : β → γ) (none : γ) (add : γ → β → γ) : Value α → γ
  | .single atom => single (form.value atom)
  | .set first rest =>
      (first :: rest).foldl (fun acc member => add acc (form.value member.atom)) none

def Spec.yield (spec : Spec α) : List Tok :=
  spec.negation.yield ++ spec.value.yield form

def Spec.Follow (spec : Spec α) (next : Tok) : Prop :=
  spec.value.Follow form next

end Values

def Spec.set {α : Type} {bits : Nat} (form : Form α (IntervalSet bits)) (spec : Spec α) :
    IntervalSet bits :=
  complementIf spec.negation.negated
    (spec.value.eval form id (IntervalSet.empty bits) IntervalSet.union)

def Spec.interfaces (spec : Spec IfAtom) : IfMatch :=
  ifFinish spec.negation.negated
    (spec.value.eval IfAtom.form (fun name => {name}) ∅ (fun names name => insert name names))

/-- Some value of the list says so, or none when the list is negated. -/
def Spec.Holds {α : Type} (spec : Spec α) (has : α → Prop) : Prop :=
  match spec.negation.negated with
  | false => ∃ atom ∈ spec.value.atoms, has atom
  | true => ¬ ∃ atom ∈ spec.value.atoms, has atom

/-! ### Statements -/

inductive PortSide
  | sport
  | dport
  deriving DecidableEq, Repr

def PortSide.text : PortSide → String
  | .sport => "sport"
  | .dport => "dport"

def PortSide.constrain (m : Match) (l4 : L4) (ports : IntervalSet 16) : PortSide → Match
  | .sport => l4Constrain m l4 .srcPort ports Field.srcPort_packet
  | .dport => l4Constrain m l4 .dstPort ports Field.dstPort_packet

/-- What the parser takes after `counter`.  After `packets` and after `bytes` it
takes one token of any kind, and none only where the file ends. -/
inductive CounterArgs
  | absent
  | packets (count : Option Tok) (inside : count ≠ some .eof)
  | bytes (count : Tok) (inside : count ≠ .eof) (size : Option Tok) (sizeInside : size ≠ some .eof)

namespace CounterArgs

def yield : CounterArgs → List Tok
  | .absent => []
  | .packets count _ => .word "packets" :: count.toList
  | .bytes count _ size _ => .word "packets" :: count :: .word "bytes" :: size.toList

def Follow : CounterArgs → Tok → Prop
  | .absent, next => next ≠ .word "packets"
  | .packets none _, next => next = .eof
  | .packets (some _) _, next => next ≠ .word "bytes"
  | .bytes _ _ none _, next => next = .eof
  | .bytes _ _ (some _) _, _ => True

end CounterArgs

/-- One option of `log`, with the token the parser takes for its value. -/
structure LogOption where
  name : String
  known : isLogOption (.word name) = true
  value : Option Tok
  isValue : ∀ t ∈ value, isLogValue t = true

namespace LogOption

def yield (option : LogOption) : List Tok :=
  .word option.name :: option.value.toList

def Follow (option : LogOption) (next : Tok) : Prop :=
  option.value = none → isLogValue next = false

end LogOption

structure Reason where
  tokens : List Tok
  inside : ∀ t ∈ tokens, endsStatement t = false

/-- A statement as the parser reads it. -/
inductive Stmt
  | saddr (spec : Spec AddrAtom)
  | daddr (spec : Spec AddrAtom)
  | protocol (spec : Spec ProtoAtom)
  | l4proto (spec : Spec ProtoAtom)
  | metaIifname (spec : Spec IfAtom)
  | ports (l4 : L4) (side : PortSide) (spec : Spec PortAtom)
  | iifname (spec : Spec IfAtom)
  | counter (args : CounterArgs)
  | comment (text : String)
  | log (options : List LogOption)
  | accept
  | drop
  | reject (reason : Option Reason)

namespace Stmt

def keyword : Stmt → String
  | .saddr _ | .daddr _ | .protocol _ => "ip"
  | .l4proto _ | .metaIifname _ => "meta"
  | .ports l4 _ _ => l4.text
  | .iifname _ => "iifname"
  | .counter _ => "counter"
  | .comment _ => "comment"
  | .log _ => "log"
  | .accept => "accept"
  | .drop => "drop"
  | .reject _ => "reject"

def body : Stmt → List Tok
  | .saddr spec => .word "saddr" :: spec.yield AddrAtom.form
  | .daddr spec => .word "daddr" :: spec.yield AddrAtom.form
  | .protocol spec => .word "protocol" :: spec.yield ProtoAtom.form
  | .l4proto spec => .word "l4proto" :: spec.yield ProtoAtom.form
  | .metaIifname spec => .word "iifname" :: spec.yield IfAtom.form
  | .ports _ side spec => .word side.text :: spec.yield PortAtom.form
  | .iifname spec => spec.yield IfAtom.form
  | .counter args => args.yield
  | .comment text => [.str text]
  | .log options => options.flatMap LogOption.yield
  | .accept | .drop | .reject none => []
  | .reject (some reason) => .word "with" :: reason.tokens

def yield (stmt : Stmt) : List Tok :=
  .word stmt.keyword :: stmt.body

def Follow : Stmt → Tok → Prop
  | .saddr spec, next | .daddr spec, next => spec.Follow AddrAtom.form next
  | .protocol spec, next | .l4proto spec, next => spec.Follow ProtoAtom.form next
  | .metaIifname spec, next | .iifname spec, next => spec.Follow IfAtom.form next
  | .ports _ _ spec, next => spec.Follow PortAtom.form next
  | .counter args, next => args.Follow next
  | .log options, next =>
      Lookahead.Followed LogOption.yield LogOption.Follow options next ∧
        isLogOption next = false
  | .reject none, next => next ≠ .word "with"
  | .reject (some _), next => endsStatement next = true
  | .comment _, _ | .accept, _ | .drop, _ => True

def narrow (m : Match) : Stmt → Match
  | .saddr spec => m.constrain .srcAddr (spec.set AddrAtom.form) Field.srcAddr_packet
  | .daddr spec => m.constrain .dstAddr (spec.set AddrAtom.form) Field.dstAddr_packet
  | .protocol spec | .l4proto spec =>
      m.constrain .proto (spec.set ProtoAtom.form) Field.proto_packet
  | .ports l4 side spec => side.constrain m l4 (spec.set PortAtom.form)
  | .metaIifname spec | .iifname spec => m.withIif spec.interfaces
  | _ => m

def verdict : Stmt → Option Action
  | .accept => some .accept
  | .drop => some .drop
  | .reject _ => some .reject
  | _ => none

def isPorts : Stmt → Bool
  | .ports _ _ _ => true
  | _ => false

/-- The plain `iifname` looks at the hook; `meta iifname` does not. -/
def allowedOn (hook : Hook) : Stmt → Bool
  | .iifname _ => hook != .output
  | _ => true

/-- The statement's effect on its rule: none where the hook forbids it, or where
it is a second verdict. -/
def apply (hook : Hook) (st : RuleState) (stmt : Stmt) : Option RuleState :=
  if stmt.allowedOn hook = false then none
  else
    match stmt.verdict, st.action with
    | some _, some _ => none
    | verdict, action => some
        { m := stmt.narrow st.m
          action := verdict.or action
          portsConstrained := st.portsConstrained || stmt.isPorts }

end Stmt

end Fwdelta.Nft
