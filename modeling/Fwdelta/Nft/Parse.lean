import Fwdelta.Ir.Rule
import Fwdelta.Nft.Lex

/-
The recursive-descent parser for the documented nftables subset.

Every function of the source keeps its name.  The three value lists (addresses,
ports and protocols) and the interface names share one form, written once.
Loops run on the bounded loop of the lookahead library.
-/

namespace Fwdelta.Nft

open Lookahead (Failure)

/-- Protocols that carry ports. -/
def PORT_BEARING : List Nat := [6, 17, 132]

def protoNumber : String → Option Nat
  | "icmp" => some 1
  | "igmp" => some 2
  | "tcp" => some 6
  | "udp" => some 17
  | "gre" => some 47
  | "esp" => some 50
  | "ah" => some 51
  | "icmpv6" | "ipv6-icmp" => some 58
  | "ospf" => some 89
  | "vrrp" => some 112
  | "sctp" => some 132
  | "udplite" => some 136
  | _ => none

theorem protoNumber_le {name : String} {n : Nat} (known : protoNumber name = some n) :
    n ≤ domainMax 8 := by
  have top : domainMax 8 = 255 := by decide
  unfold protoNumber at known
  split at known <;> first | contradiction | (injection known with same; omega)

abbrev IsEnd (t : Token) : Prop := t.tok = .eof

abbrev Cursor := Lookahead.Cursor Token IsEnd

abbrev Parser (α : Type) := Lookahead.Parser Token IsEnd ParseError α

structure Source where
  file : String
  src : String

/-! ### Primitives -/

def peek : Parser Tok := do
  let t ← Lookahead.Parser.peek
  pure t.tok

/-- The line and the column of the token at the cursor (`at` in the source). -/
def position : Parser (Nat × Nat) := do
  let t ← Lookahead.Parser.peek
  pure (t.line, t.column)

def bump : Parser Tok := do
  let t ← Lookahead.Parser.bump
  pure t.tok

def errAt (s : Source) (position : Nat × Nat) (cause : Cause) (message : String) : ParseError :=
  (ParseError.new s.file position.1 position.2 cause message).withSource s.src

def err (s : Source) (cause : Cause) (message : String) (c : Cursor) : ParseError :=
  errAt s (c.peek.line, c.peek.column) cause message

def fail {α : Type} (error : ParseError) : Parser α :=
  Lookahead.Parser.reject (fun _ => error)

def eatSym (c : Char) : Parser Bool :=
  Lookahead.Parser.eat (fun t => t.tok == .sym c)

def eatWord (w : String) : Parser Bool :=
  Lookahead.Parser.eat (fun t => t.tok == .word w)

def expectSym (s : Source) (c : Char) : Parser Unit := do
  if ← eatSym c then
    pure ()
  else
    Lookahead.Parser.reject (fun cursor => err s .syntaxError
      ("expected `" ++ c.toString ++ "`, found " ++ cursor.peek.tok.describe) cursor)

def expectWord (s : Source) : Parser String := do
  match ← bump with
  | .word w => pure w
  | other =>
      Lookahead.Parser.reject
        (err s .syntaxError ("expected a name, found " ++ other.describe))

def expectNum (s : Source) : Parser Nat := do
  match ← bump with
  | .num n => pure n
  | other =>
      Lookahead.Parser.reject
        (err s .syntaxError ("expected a number, found " ++ other.describe))

def skipBreaks : Parser Unit :=
  Lookahead.Parser.skip (fun t => t.tok == .brk)

/-! ### Value forms -/

def rejectNamedSet (s : Source) : Parser Unit := do
  match ← peek with
  | .sym '@' => Lookahead.Parser.reject (fun cursor =>
      (err s .unimplemented "named sets are not supported" cursor).withHint
        ("a named set is defined elsewhere in the file, which needs a resolution " ++
          "pass the frontend does not have yet; inline the members"))
  | _ => pure ()

/-- `[!=] value`, returning whether the match was negated. -/
def negation : Parser Bool := do
  if ← eatSym '!' then
    let _ ← eatSym '='
    pure true
  else
    pure false

def memberRound {α β : Type} (s : Source) (atom : Parser α) (add : β → α → β) (acc : β) :
    Parser (β ⊕ β) := do
  skipBreaks
  let a ← atom
  skipBreaks
  if ← eatSym ',' then
    pure (.inl (add acc a))
  else
    expectSym s '}'
    pure (.inr (add acc a))

/-- The members of an anonymous set, after its opening brace. -/
def setMembers {α β : Type} (s : Source) (atom : Parser α) (add : β → α → β) (acc : β) :
    Parser β :=
  Lookahead.Parser.loop (memberRound s atom add) acc

def valueForm {α β : Type} (s : Source) (atom : Parser α) (single : α → β) (none : β)
    (add : β → α → β) : Parser β := do
  if ← eatSym '{' then
    setMembers s atom add none
  else
    let a ← atom
    pure (single a)

def specForm {β γ : Type} (s : Source) (value : Parser β) (finish : Bool → β → γ) :
    Parser γ := do
  let negated ← negation
  rejectNamedSet s
  let v ← value
  pure (finish negated v)

def complementIf {bits : Nat} (negated : Bool) (set : IntervalSet bits) : IntervalSet bits :=
  if negated then set.complement else set

def takeIp (s : Source) (position : Nat × Nat) : Parser (BitVec 32) := do
  match ← bump with
  | .ip address => pure address
  | _ => fail (errAt s position .syntaxError "expected an IPv4 address")

def addrAtom (s : Source) : Parser (IntervalSet 32) := do
  let start ← position
  let base ← takeIp s start
  if ← eatSym '/' then
    let len ← expectNum s
    if len > 32 then
      fail (errAt s start .syntaxError ("prefix length " ++ toString len ++ " exceeds 32"))
    else
      pure (IntervalSet.ofPrefix 32 base.toNat len address_narrow (address_le base))
  else if ← eatSym '-' then
    let fin ← position
    let hi ← takeIp s fin
    if hi < base then
      fail (errAt s start .syntaxError "range runs backwards")
    else
      pure (IntervalSet.range 32 base.toNat hi.toNat)
  else
    pure (IntervalSet.point 32 base.toNat (address_le base))

def addrValue (s : Source) : Parser (IntervalSet 32) :=
  valueForm s (addrAtom s) id (IntervalSet.empty 32) IntervalSet.union

def addrSpec (s : Source) : Parser (IntervalSet 32) :=
  specForm s (addrValue s) complementIf

/-- Ports are written as numbers; a name would need the host's service table. -/
def rejectService (s : Source) (position : Nat × Nat) : Parser Unit := do
  match ← peek with
  | .word name =>
      fail ((errAt s position .outOfScope
        ("service name `" ++ name ++ "` cannot be resolved")).withHint
          ("resolving it depends on the host's /etc/services, which is not in the " ++
            "ruleset and would make the analysis depend on where it ran; write the number"))
  | _ => pure ()

def portAtom (s : Source) : Parser (IntervalSet 16) := do
  let start ← position
  rejectService s start
  let lo ← expectNum s
  if within : lo > 65535 then
    fail (errAt s start .syntaxError ("port " ++ toString lo ++ " exceeds 65535"))
  else if ← eatSym '-' then
    let fin ← position
    let hi ← expectNum s
    if hi > 65535 then
      fail (errAt s fin .syntaxError ("port " ++ toString hi ++ " exceeds 65535"))
    else if hi < lo then
      fail (errAt s start .syntaxError "range runs backwards")
    else
      pure (IntervalSet.range 16 lo hi)
  else
    pure (IntervalSet.point 16 lo (port_le within))

def portValue (s : Source) : Parser (IntervalSet 16) :=
  valueForm s (portAtom s) id (IntervalSet.empty 16) IntervalSet.union

def portSpec (s : Source) : Parser (IntervalSet 16) :=
  specForm s (portValue s) complementIf

def protoAtom (s : Source) : Parser (IntervalSet 8) := do
  let start ← position
  match ← bump with
  | .num n =>
      if within : n ≤ 255 then
        pure (IntervalSet.point 8 n (protocol_le within))
      else
        fail (errAt s start .syntaxError ("protocol number " ++ toString n ++ " exceeds 255"))
  | .word w =>
      match known : protoNumber w with
      | some n => pure (IntervalSet.point 8 n (protoNumber_le known))
      | none =>
          fail ((errAt s start .syntaxError ("unknown protocol `" ++ w ++ "`")).withHint
            "write the IP protocol number if the name is unfamiliar")
  | other =>
      fail (errAt s start .syntaxError ("expected a protocol, found " ++ other.describe))

def protoSpec (s : Source) : Parser (IntervalSet 8) :=
  specForm s (valueForm s (protoAtom s) id (IntervalSet.empty 8) IntervalSet.union) complementIf

def nameText (s : Source) (position : Nat × Nat) : Tok → Parser String
  | .str text => pure text
  | .word w => pure w
  | other =>
      fail (errAt s position .syntaxError
        ("expected an interface name, found " ++ other.describe))

def takeName (s : Source) (position : Nat × Nat) : Parser String := do
  nameText s position (← bump)

def ifName (s : Source) : Parser String := do
  let start ← position
  let name ← takeName s start
  let next ← peek
  -- A wildcard is a claim about interfaces the tool has never seen.
  if name.toList.contains '*' || next == .sym '*' then
    fail ((errAt s start .soundness
      ("interface wildcard `" ++ name ++ "` is not supported")).withHint
        ("interfaces are modelled as symbols drawn from the names in the two files " ++
          "being compared, so a wildcard would have to range over names the tool cannot " ++
          "observe; name each interface (decision D-02)"))
  else
    pure name

def ifFinish (negated : Bool) (names : Finset String) : IfMatch :=
  if negated then .noneOf names else .oneOf names

def ifSpec (s : Source) : Parser IfMatch :=
  specForm s
    (valueForm s (ifName s) (fun name => {name}) ∅ (fun names name => insert name names)) ifFinish

/-! ### Match expressions -/

def ipMatch (s : Source) (m : Match) : Parser Match := do
  let start ← position
  match ← expectWord s with
  | "saddr" => do
      let set ← addrSpec s
      pure (m.constrain .srcAddr set Field.srcAddr_packet)
  | "daddr" => do
      let set ← addrSpec s
      pure (m.constrain .dstAddr set Field.dstAddr_packet)
  | "protocol" => do
      let set ← protoSpec s
      pure (m.constrain .proto set Field.proto_packet)
  | other =>
      fail ((errAt s start .unimplemented
        ("`ip " ++ other ++ "` is not in the supported subset")).withHint
          "supported: `ip saddr`, `ip daddr`, `ip protocol`")

def metaMatch (s : Source) (m : Match) (keyword : Nat × Nat) : Parser Match := do
  match ← expectWord s with
  | "l4proto" => do
      let set ← protoSpec s
      pure (m.constrain .proto set Field.proto_packet)
  | "iifname" => do
      let names ← ifSpec s
      pure (m.withIif names)
  | "oifname" =>
      fail ((errAt s keyword .unimplemented "`meta oifname` is not supported yet").withHint
        ("the output-interface dimension has never been validated against the kernel; " ++
          "see docs/NFTABLES-SUBSET.md"))
  | other =>
      fail ((errAt s keyword .unimplemented
        ("`meta " ++ other ++ "` is not in the supported subset")).withHint
          "supported: `meta l4proto`, `meta iifname`, `meta oifname`")

/-- The number behind `tcp` or `udp`, the two protocols the caller passes. -/
inductive L4
  | tcp
  | udp
  deriving DecidableEq, Repr

def L4.text : L4 → String
  | .tcp => "tcp"
  | .udp => "udp"

def L4.number : L4 → Nat
  | .tcp => 6
  | .udp => 17

theorem L4.protoNumber_text (l4 : L4) : protoNumber l4.text = some l4.number := by
  cases l4 <;> decide

theorem L4.number_le (l4 : L4) : l4.number ≤ domainMax 8 :=
  protoNumber_le l4.protoNumber_text

/-- `tcp dport 22` constrains the protocol as well as the port. -/
def l4Constrain (m : Match) (l4 : L4) (field : Field) (ports : IntervalSet field.bits)
    (packet : field.isInterface = false) : Match :=
  (m.constrain .proto (IntervalSet.point 8 l4.number l4.number_le)
    Field.proto_packet).constrain field ports packet

def l4Match (s : Source) (m : Match) (l4 : L4) : Parser Match := do
  let start ← position
  match ← expectWord s with
  | "sport" => do
      let ports ← portSpec s
      pure (l4Constrain m l4 .srcPort ports Field.srcPort_packet)
  | "dport" => do
      let ports ← portSpec s
      pure (l4Constrain m l4 .dstPort ports Field.dstPort_packet)
  | other =>
      fail (errAt s start .unimplemented
        ("`" ++ l4.text ++ " " ++ other ++ "` is not in the supported subset"))

/-! ### Statements without a match -/

/-- `expect_num` with its error dropped: the token is taken whatever it is. -/
def dropNum : Parser Unit := do
  let _ ← bump
  pure ()

/-- `counter`, optionally with the `packets N bytes N` that `nft list` emits. -/
def skipCounter : Parser Unit := do
  if ← eatWord "packets" then
    dropNum
    if ← eatWord "bytes" then
      dropNum
    else
      pure ()
  else
    pure ()

def logOptions : List String :=
  ["prefix", "level", "flags", "group", "snaplen", "queue-threshold"]

def isLogOption : Tok → Bool
  | .word w => logOptions.contains w
  | _ => false

def isLogValue : Tok → Bool
  | .str _ | .word _ | .num _ => true
  | _ => false

/-- One round of the loop over the options of `log`. -/
def logRound : Unit → Parser (Unit ⊕ Unit) := fun _ => do
  if ← Lookahead.Parser.eat (fun t => isLogOption t.tok) then
    let _ ← Lookahead.Parser.eat (fun t => isLogValue t.tok)
    pure (.inl ())
  else
    pure (.inr ())

/-- `log` with any of its options.  It has no effect on the verdict. -/
def skipLog : Parser Unit :=
  Lookahead.Parser.loop logRound ()

def endsStatement : Tok → Bool
  | .brk | .eof | .sym '}' => true
  | _ => false

def skipReason : Parser Unit :=
  Lookahead.Parser.skip (fun t => !endsStatement t.tok)

def isQuoted : Tok → Bool
  | .str _ => true
  | _ => false

def takeComment (s : Source) : Parser Unit := do
  if ← Lookahead.Parser.eat (fun t => isQuoted t.tok) then
    pure ()
  else
    Lookahead.Parser.reject (err s .syntaxError "expected a quoted comment")

def setAction (s : Source) (current : Option Action) (new : Action) (keyword : Nat × Nat) :
    Parser Action :=
  match current with
  | some existing =>
      fail (errAt s keyword .syntaxError
        ("this rule already has the verdict `" ++ existing.text ++ "`"))
  | none => pure new

/-! ### Rules -/

structure RuleState where
  m : Match
  action : Option Action
  portsConstrained : Bool

def RuleState.start : RuleState :=
  { m := Match.any, action := none, portsConstrained := false }

/-- The cause and the hint for `oifname`, which depend on the hook. -/
def oifnameReason : Hook → Cause × String
  | .input =>
      (.soundness, "the kernel does not set an output interface on the input " ++
        "hook, so nftables accepts this rule and then never applies " ++
        "it. The output-interface dimension is also unvalidated; see " ++
        "docs/HOOK-MATCH-MATRIX.md")
  | _ =>
      (.unimplemented, "the differential harness cannot exercise the output hook, so " ++
        "the output-interface dimension has never been validated " ++
        "against the kernel. The kernel does apply the match here; " ++
        "what is unverified is whether the model agrees with it. " ++
        "Rather than ship a dimension whose correctness is asserted " ++
        "instead of measured, it is rejected until an output-hook harness exists")

/-- The keywords that are refused by name, with the cause, message and hint. -/
def refusal (hook : Hook) (w : String) : Cause × String × Option String :=
  match w with
  | "sctp" | "dccp" | "udplite" =>
      (.unimplemented, "`" ++ w ++ "` port matches are not supported yet",
        some ("the model has the protocol; the frontend has not been " ++
          "exercised against the kernel for it"))
  | "oifname" =>
      ((oifnameReason hook).1, "`oifname` is not supported yet", some (oifnameReason hook).2)
  | "iif" | "oif" =>
      (.outOfScope, "`" ++ w ++ "` matches the numeric interface index",
        some ("an ifindex is assigned at runtime, so it is neither stable " ++
          "across reloads nor comparable between two revisions of a " ++
          "file; use `" ++ w ++ "name` instead"))
  | "ct" =>
      (.outOfScope, "connection tracking is outside the model",
        some ("the model is stateless: forward-direction packets are " ++
          "governed by the ruleset and return traffic for permitted " ++
          "connections is assumed permitted (SEMANTICS §4.1)"))
  | "limit" | "quota" =>
      (.outOfScope, "`" ++ w ++ "` is not a function of the packet header",
        some "rate is state, and the header space has no room for it")
  | "jump" | "goto" =>
      (.outOfScope, "`" ++ w ++ "` to another chain is not modelled",
        some "1.0 analyses one base chain at a time")
  | "return" | "queue" | "dup" | "fwd" | "notrack" =>
      (.outOfScope, "`" ++ w ++ "` is not a filtering verdict", none)
  | "snat" | "dnat" | "masquerade" | "redirect" =>
      (.outOfScope, "`" ++ w ++ "` performs address translation",
        some ("NAT is a stated non-goal (blueprint §02); the whole file is " ++
          "refused because a filter analysis would describe packets that " ++
          "do not exist as analysed"))
  | other =>
      (.unimplemented, "`" ++ other ++ "` is not in the supported subset",
        some "the full boundary is docs/NFTABLES-SUBSET.md")

def refuse {α : Type} (s : Source) (hook : Hook) (w : String) (keyword : Nat × Nat) :
    Parser α :=
  let reason := refusal hook w
  let error := errAt s keyword reason.1 reason.2.1
  fail (match reason.2.2 with
    | some hint => error.withHint hint
    | none => error)

def statement (s : Source) (hook : Hook) (st : RuleState) (w : String)
    (keyword : Nat × Nat) : Parser RuleState :=
  match w with
  | "ip" => do
      let m ← ipMatch s st.m
      pure { st with m := m }
  | "meta" => do
      let m ← metaMatch s st.m keyword
      pure { st with m := m }
  | "tcp" => do
      let m ← l4Match s st.m .tcp
      pure { st with m := m, portsConstrained := true }
  | "udp" => do
      let m ← l4Match s st.m .udp
      pure { st with m := m, portsConstrained := true }
  | "iifname" => do
      if hook = .output then
        fail ((errAt s keyword .soundness
          "`iifname` on an output chain can never match").withHint
            ("the kernel does not set an input interface on the output " ++
              "hook, so nftables accepts this rule and then never " ++
              "applies it; a model that treated it as live would disagree with the kernel"))
      else
        let names ← ifSpec s
        pure { st with m := st.m.withIif names }
  | "counter" => do
      skipCounter
      pure st
  | "comment" => do
      takeComment s
      pure st
  | "log" => do
      skipLog
      pure st
  | "accept" => do
      let action ← setAction s st.action .accept keyword
      pure { st with action := some action }
  | "drop" => do
      let action ← setAction s st.action .drop keyword
      pure { st with action := some action }
  | "reject" => do
      if ← eatWord "with" then
        skipReason
        let action ← setAction s st.action .reject keyword
        pure { st with action := some action }
      else
        let action ← setAction s st.action .reject keyword
        pure { st with action := some action }
  | other => refuse s hook other keyword

def statementRound (s : Source) (hook : Hook) (st : RuleState) :
    Parser (RuleState ⊕ RuleState) := do
  match ← peek with
  | .brk | .eof | .sym '}' => pure (.inr st)
  | .sym '@' =>
      Lookahead.Parser.reject (fun cursor =>
        (err s .unimplemented "named sets are not supported" cursor).withHint
          "inline the members, or see docs/NFTABLES-SUBSET.md")
  | .word w => do
      let keyword ← position
      let _ ← bump
      let st ← statement s hook st w keyword
      pure (.inl st)
  | other =>
      Lookahead.Parser.reject (err s .syntaxError ("unexpected " ++ other.describe))

/-- The loop of `rule`: statements up to the end of the line. -/
def statements (s : Source) (hook : Hook) (st : RuleState) : Parser RuleState :=
  Lookahead.Parser.loop (statementRound s hook) st

def allPortBearing (proto : IntervalSet 8) : Bool :=
  !proto.isFull && (proto.ranges.flatMap (fun range =>
    List.range' range.1 (range.2 + 1 - range.1))).all (fun p => PORT_BEARING.contains p)

/-- The two rejections that exist for the model rather than the grammar. -/
def checkSoundness (s : Source) (m : Match) (portsConstrained : Bool) (start : Nat × Nat) :
    Parser Unit :=
  if m.isUnsatisfiable then
    fail ((errAt s start .soundness "this rule can never match a packet").withHint
      ("the matches contradict each other. A rule matching nothing is " ++
        "indistinguishable in a report from one that was never written"))
  else if portsConstrained && !allPortBearing m.proto then
    fail ((errAt s start .soundness
      "a port match without a protocol that has ports").withHint
        ("the model gives every packet a source and destination port, including " ++
          "ICMP, which is sound only while port matches pin tcp, udp or sctp " ++
          "(SEMANTICS §4.2)"))
  else
    pure ()

def originAt (s : Source) (start : Nat × Nat) : Origin where
  file := s.file
  line := start.1
  column := start.2
  text := Text.trim (((Text.lines s.src)[start.1 - 1]?).getD "")

/-- The end of `rule`: a verdict is needed, and the two soundness checks. -/
def finishRule (s : Source) (start : Nat × Nat) (st : RuleState) :
    Parser (Match × Action × Origin) :=
  match st.action with
  | none =>
      fail ((errAt s start .outOfScope "this rule has no verdict").withHint
        ("a rule that falls through is meaningful to nftables but ambiguous in a " ++
          "report; give it an explicit accept, drop or reject"))
  | some action => do
      checkSoundness s st.m st.portsConstrained start
      pure (st.m, action, originAt s start)

def rule (s : Source) (hook : Hook) : Parser (Match × Action × Origin) := do
  let start ← position
  let st ← statements s hook RuleState.start
  finishRule s start st

/-! ### Chains, tables and files -/

def takeKind (s : Source) : Parser Unit := do
  let start ← position
  match ← expectWord s with
  | "filter" => pure ()
  | "nat" =>
      fail ((errAt s start .outOfScope "this is a NAT table").withHint
        ("address translation changes packet identity in transit and is a stated " ++
          "non-goal (blueprint §02); analysis of the whole file is refused because a " ++
          "filter result would describe packets that do not exist as analysed"))
  | other =>
      fail (errAt s start .outOfScope ("chain type `" ++ other ++ "` is not supported"))

def takeHook (s : Source) : Parser Hook := do
  let start ← position
  match ← expectWord s with
  | "input" => pure .input
  | "output" => pure .output
  | "forward" => pure .forward
  | "prerouting" =>
      fail ((errAt s start .outOfScope "hook `prerouting` is not supported").withHint
        "only reachable with NAT or routing in scope, which 1.0 excludes")
  | "postrouting" =>
      fail ((errAt s start .outOfScope "hook `postrouting` is not supported").withHint
        "only reachable with NAT or routing in scope, which 1.0 excludes")
  | other => fail (errAt s start .syntaxError ("unknown hook `" ++ other ++ "`"))

def isPriority : Tok → Bool
  | .num _ | .word _ => true
  | _ => false

/-- Priority does not affect the analysis, but it has to parse. -/
def takePriority (s : Source) : Parser Unit := do
  let _ ← eatSym '-'
  if ← Lookahead.Parser.eat (fun t => isPriority t.tok) then
    pure ()
  else
    Lookahead.Parser.reject (err s .syntaxError "expected a priority value")

def policyValue (s : Source) : Parser Action := do
  let start ← position
  match ← expectWord s with
  | "accept" => pure .accept
  | "drop" => pure .drop
  | other =>
      fail (errAt s start .syntaxError
        ("policy must be `accept` or `drop`, found `" ++ other ++ "`"))

/-- The policy, which nftables takes to be accept when none is given. -/
def takePolicy (s : Source) : Parser Action := do
  if ← eatWord "policy" then
    let policy ← policyValue s
    skipBreaks
    pure policy
  else
    pure .accept

def ruleRound (s : Source) (chain : Chain) : Parser (Chain ⊕ Chain) := do
  skipBreaks
  if ← eatSym '}' then
    pure (.inr chain)
  else do
    match ← peek with
    | .eof =>
        Lookahead.Parser.reject
          (err s .syntaxError "unexpected end of file inside `chain`")
    | _ => do
        let (m, action, origin) ← rule s chain.hook
        pure (.inl (chain.push m action origin))

/-- The loop of `chain`: rules up to the closing brace. -/
def rules (s : Source) (chain : Chain) : Parser Chain :=
  Lookahead.Parser.loop (ruleRound s) chain

def takeDevice : Parser Unit := do
  if ← eatWord "device" then
    let _ ← bump
    pure ()
  else
    pure ()

/-- The first half of `chain`: from the name up to the first rule. -/
def declaration (s : Source) : Parser Chain := do
  let start ← position
  let name ← expectWord s
  expectSym s '{'
  skipBreaks
  if ← eatWord "type" then
    takeKind s
    if ← eatWord "hook" then
      let hook ← takeHook s
      takeDevice
      if ← eatWord "priority" then
        takePriority s
        skipBreaks
        let policy ← takePolicy s
        pure (Chain.new name hook policy)
      else
        Lookahead.Parser.reject (err s .syntaxError "expected `priority` in the chain declaration")
    else
      Lookahead.Parser.reject (err s .syntaxError "expected `hook` after the chain type")
  else
    -- A chain without a hook is a regular chain, reachable only by jump or goto.
    fail ((errAt s start .outOfScope
      ("chain `" ++ name ++ "` is a regular chain, with no hook")).withHint
        "regular chains are only reachable by jump or goto, which 1.0 does not model")

def chain (s : Source) : Parser Chain := do
  let declared ← declaration s
  rules s declared

def takeFamily (s : Source) : Parser Unit := do
  let start ← position
  let family ← expectWord s
  if family == "ip" then
    pure ()
  else if ["ip6", "inet", "arp", "bridge", "netdev"].contains family then
    fail ((errAt s start .outOfScope
      ("address family `" ++ family ++ "` is not supported")).withHint
        "1.0 models IPv4 only; the header layout is 32-bit (SEMANTICS §4.4)")
  else
    fail (errAt s start .syntaxError ("unknown address family `" ++ family ++ "`"))

/-- What a table may hold: a chain. -/
def tableEntry (s : Source) (found : List Chain) : Parser (List Chain ⊕ List Chain) := do
  let start ← position
  match ← bump with
  | .word w =>
      if w == "chain" then do
        let c ← chain s
        pure (.inl (found ++ [c]))
      else if ["set", "map", "element", "counter", "quota"].contains w then
        fail ((errAt s start .unimplemented
          ("`" ++ w ++ "` declarations are not supported")).withHint
            "see docs/NFTABLES-SUBSET.md")
      else
        fail (errAt s start .syntaxError
          ("expected `chain`, found " ++ (Tok.word w).describe))
  | .eof =>
      Lookahead.Parser.reject
        (err s .syntaxError "unexpected end of file inside `table`")
  | other =>
      fail (errAt s start .syntaxError ("expected `chain`, found " ++ other.describe))

def chainRound (s : Source) (found : List Chain) : Parser (List Chain ⊕ List Chain) := do
  skipBreaks
  if ← eatSym '}' then
    pure (.inr found)
  else
    tableEntry s found

/-- The loop of `table`: chains up to the closing brace. -/
def chains (s : Source) (found : List Chain) : Parser (List Chain) :=
  Lookahead.Parser.loop (chainRound s) found

def tableHead (s : Source) : Parser Unit := do
  takeFamily s
  let _ ← expectWord s
  expectSym s '{'

def table (s : Source) : Parser (List Chain) := do
  tableHead s
  chains s []

/-- What a file may hold: a table, and breaks after it. -/
def fileEntry (s : Source) (found : List Chain) (start : Nat × Nat) :
    Parser (List Chain ⊕ List Chain) := do
  match ← bump with
  | .word w =>
      if w == "table" then do
        let more ← table s
        skipBreaks
        pure (.inl (found ++ more))
      else if ["include", "define", "set", "map", "element"].contains w then
        fail ((errAt s start .unimplemented ("`" ++ w ++ "` is not supported")).withHint
          "the subset covers literal matches only; see docs/NFTABLES-SUBSET.md")
      else
        fail (errAt s start .syntaxError
          ("expected `table`, found " ++ (Tok.word w).describe))
  | other =>
      fail (errAt s start .syntaxError ("expected `table`, found " ++ other.describe))

def tableRound (s : Source) (found : List Chain) : Parser (List Chain ⊕ List Chain) := do
  match ← peek with
  | .eof => pure (.inr found)
  | _ => do
      let start ← position
      fileEntry s found start

/-- The loop of `parse`: tables up to the end of the file. -/
def tables (s : Source) (found : List Chain) : Parser (List Chain) :=
  Lookahead.Parser.loop (tableRound s) found

def file (s : Source) : Parser Ruleset := do
  skipBreaks
  let found ← tables s []
  pure { label := s.file, chains := found }

def Cursor.start {fileName src : String} {tokens : List Token} {last : Token}
    (lexed : lex fileName src = .ok (tokens, last)) : Cursor where
  ahead := tokens
  last := last
  inner := (lex_eof lexed).1
  ends := (lex_eof lexed).2

/-- Parse one nftables file into the IR. -/
def parse (fileName source : String) : Except (Failure ParseError) Ruleset :=
  match lexed : lex fileName source with
  | .error e => .error (.rejected (e.withSource source))
  | .ok _ =>
      match file { file := fileName, src := source } (Cursor.start lexed) with
      | .error e => .error e
      | .ok (ruleset, _) => .ok ruleset

end Fwdelta.Nft
