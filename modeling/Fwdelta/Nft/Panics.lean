import Fwdelta.Ir.Panics
import Fwdelta.Nft.Parse

/-
The functions of the parser that could panic.

Each of them is written out here with its assertions: a failed assertion aborts the
parse, which is not a rejection.  Whatever the cursor and the match so far, no
assertion fails, and the function does what the parser's own function does.
-/

namespace Fwdelta.Nft

/-- Why a function that asserts returns nothing. -/
inductive Abort
  | refused (error : ParseError)
  | panicked

abbrev AssertingParser (α : Type) := Lookahead.Parser Token IsEnd Abort α

/-- A parser that asserts nothing. -/
def plainly {α : Type} (p : Parser α) : AssertingParser α := fun c =>
  match p c with
  | .ok found => .ok found
  | .error (.rejected error) => .error (.rejected (.refused error))
  | .error .exhausted => .error .exhausted

/-- A value that an assertion must have let through. -/
def asserted {α : Type} : Option α → AssertingParser α
  | some a => pure a
  | none => Lookahead.Parser.reject (fun _ => .panicked)

/-! ### The functions with their assertions -/

namespace Asserting

def addrAtom (s : Source) : AssertingParser RawSet := do
  let start ← plainly position
  let base ← plainly (takeIp s start)
  if ← plainly (eatSym '/') then
    let len ← plainly (expectNum s)
    if len > 32 then
      plainly (fail (errAt s start .syntaxError
        ("prefix length " ++ toString len ++ " exceeds 32")))
    else
      asserted (RawSet.ofPrefix 32 base.toNat len)
  else if ← plainly (eatSym '-') then
    let fin ← plainly position
    let hi ← plainly (takeIp s fin)
    if hi < base then
      plainly (fail (errAt s start .syntaxError "range runs backwards"))
    else
      pure (IntervalSet.range 32 base.toNat hi.toNat).raw
  else
    asserted (RawSet.point 32 base.toNat)

def ipMatch (s : Source) (m : RawMatch) : AssertingParser RawMatch := do
  let start ← plainly position
  match ← plainly (expectWord s) with
  | "saddr" => do
      let set ← plainly (addrSpec s)
      asserted (m.constrain .srcAddr set.raw)
  | "daddr" => do
      let set ← plainly (addrSpec s)
      asserted (m.constrain .dstAddr set.raw)
  | "protocol" => do
      let set ← plainly (protoSpec s)
      asserted (m.constrain .proto set.raw)
  | other =>
      plainly (fail ((errAt s start .unimplemented
        ("`ip " ++ other ++ "` is not in the supported subset")).withHint
          "supported: `ip saddr`, `ip daddr`, `ip protocol`"))

def metaMatch (s : Source) (m : RawMatch) (keyword : Nat × Nat) : AssertingParser RawMatch := do
  match ← plainly (expectWord s) with
  | "l4proto" => do
      let set ← plainly (protoSpec s)
      asserted (m.constrain .proto set.raw)
  | "iifname" => do
      let names ← plainly (ifSpec s)
      pure (m.withIif names)
  | "oifname" =>
      plainly (fail ((errAt s keyword .unimplemented
        "`meta oifname` is not supported yet").withHint
          ("the output-interface dimension has never been validated against the kernel; " ++
            "see docs/NFTABLES-SUBSET.md")))
  | other =>
      plainly (fail ((errAt s keyword .unimplemented
        ("`meta " ++ other ++ "` is not in the supported subset")).withHint
          "supported: `meta l4proto`, `meta iifname`, `meta oifname`"))

/-- The end of `l4_match`, where the protocol must be a known one. -/
def l4Constrain (m : RawMatch) (proto : String) (field : Field) (ports : RawSet) :
    AssertingParser RawMatch := do
  let number ← asserted (protoNumber proto)
  let point ← asserted (RawSet.point 8 number)
  let m ← asserted (m.constrain .proto point)
  asserted (m.constrain field ports)

def l4Match (s : Source) (m : RawMatch) (proto : String) : AssertingParser RawMatch := do
  let start ← plainly position
  match ← plainly (expectWord s) with
  | "sport" => do
      let ports ← plainly (portSpec s)
      l4Constrain m proto .srcPort ports.raw
  | "dport" => do
      let ports ← plainly (portSpec s)
      l4Constrain m proto .dstPort ports.raw
  | other =>
      plainly (fail (errAt s start .unimplemented
        ("`" ++ proto ++ " " ++ other ++ "` is not in the supported subset")))

def allPortBearing (proto : RawSet) : Bool :=
  !proto.isFull && (proto.ranges.flatMap (fun range =>
    List.range' range.1 (range.2 + 1 - range.1))).all (fun p => PORT_BEARING.contains p)

def checkSoundness (s : Source) (m : RawMatch) (portsConstrained : Bool) (start : Nat × Nat) :
    AssertingParser Unit := do
  if ← asserted m.isUnsatisfiable then
    plainly (fail ((errAt s start .soundness "this rule can never match a packet").withHint
      ("the matches contradict each other. A rule matching nothing is " ++
        "indistinguishable in a report from one that was never written")))
  else if portsConstrained then do
    let proto ← asserted (m.packetDim .proto)
    if !allPortBearing proto then
      plainly (fail ((errAt s start .soundness
        "a port match without a protocol that has ports").withHint
          ("the model gives every packet a source and destination port, including " ++
            "ICMP, which is sound only while port matches pin tcp, udp or sctp " ++
            "(SEMANTICS §4.2)")))
    else
      pure ()
  else
    pure ()

end Asserting

/-! ### No assertion fails -/

section Plain

variable {α β γ : Type}

theorem plainly_bind_map (p : Parser α) (f : α → Parser β) (g : β → γ) :
    plainly (g <$> (p >>= f)) = plainly p >>= fun a => plainly (g <$> f a) := by
  rw [map_bind]
  funext c
  unfold plainly
  simp only [Lookahead.Reads.bind_apply]
  cases p c with
  | ok found => rfl
  | error failure => cases failure <;> rfl

theorem plainly_map_pure (g : α → β) (value : α) :
    plainly (g <$> (pure value : Parser α)) = pure (g value) := rfl

theorem plainly_map_fail (g : α → β) (error : ParseError) :
    plainly (g <$> (fail error : Parser α)) = plainly (fail error) := rfl

theorem plainly_map_ite (g : α → β) {cond : Prop} [Decidable cond] (p q : Parser α) :
    plainly (g <$> (if cond then p else q)) =
      if cond then plainly (g <$> p) else plainly (g <$> q) := by
  split <;> rfl

end Plain

theorem addrAtom_asserts (s : Source) :
    Asserting.addrAtom s = plainly (IntervalSet.raw <$> addrAtom s) := by
  unfold Asserting.addrAtom addrAtom
  simp only [plainly_bind_map, plainly_map_ite, plainly_map_fail, plainly_map_pure]
  congr 1
  funext start
  congr 1
  funext base
  have point := IntervalSet.raw_point (address_le base)
  rw [point]
  congr 1
  funext slash
  split
  · congr 1
    funext len
    split
    · rfl
    · next within =>
        rw [IntervalSet.raw_ofPrefix address_narrow (address_le base) (Nat.le_of_not_lt within)]
        rfl
  · rfl

theorem asserted_constrain (m : Match) (field : Field) (set : IntervalSet field.bits)
    (packet : field.isInterface = false) :
    asserted (m.raw.constrain field set.raw) = pure (m.constrain field set packet).raw := by
  rw [m.raw_constrain field set packet, asserted]

theorem ipMatch_asserts (s : Source) (m : Match) :
    Asserting.ipMatch s m.raw = plainly (Match.raw <$> ipMatch s m) := by
  unfold Asserting.ipMatch ipMatch
  simp only [plainly_bind_map]
  refine congrArg (plainly position >>= ·) (funext fun start => ?_)
  refine congrArg (plainly (expectWord s) >>= ·) (funext fun w => ?_)
  by_cases src : w = "saddr"
  · subst src
    simp only [plainly_bind_map, plainly_map_pure]
    exact congrArg (plainly (addrSpec s) >>= ·) (funext fun set =>
      asserted_constrain m .srcAddr set Field.srcAddr_packet)
  by_cases dst : w = "daddr"
  · subst dst
    simp only [plainly_bind_map, plainly_map_pure]
    exact congrArg (plainly (addrSpec s) >>= ·) (funext fun set =>
      asserted_constrain m .dstAddr set Field.dstAddr_packet)
  by_cases proto : w = "protocol"
  · subst proto
    simp only [plainly_bind_map, plainly_map_pure]
    exact congrArg (plainly (protoSpec s) >>= ·) (funext fun set =>
      asserted_constrain m .proto set Field.proto_packet)
  · -- On any other word both sides take their last arm.
    simp only
    rfl

theorem metaMatch_asserts (s : Source) (m : Match) (keyword : Nat × Nat) :
    Asserting.metaMatch s m.raw keyword = plainly (Match.raw <$> metaMatch s m keyword) := by
  unfold Asserting.metaMatch metaMatch
  simp only [plainly_bind_map]
  refine congrArg (plainly (expectWord s) >>= ·) (funext fun w => ?_)
  by_cases proto : w = "l4proto"
  · subst proto
    simp only [plainly_bind_map, plainly_map_pure]
    exact congrArg (plainly (protoSpec s) >>= ·) (funext fun set =>
      asserted_constrain m .proto set Field.proto_packet)
  by_cases iif : w = "iifname"
  · subst iif
    simp only [plainly_bind_map, plainly_map_pure]
    rfl
  by_cases oif : w = "oifname"
  · subst oif
    rfl
  · -- On any other word both sides take their last arm.
    simp only
    rfl

theorem l4Constrain_asserts (m : Match) (l4 : L4) (field : Field)
    (ports : IntervalSet field.bits) (packet : field.isInterface = false) :
    Asserting.l4Constrain m.raw l4.text field ports.raw =
      pure (l4Constrain m l4 field ports packet).raw := by
  have point := asserted_constrain m .proto (IntervalSet.point 8 l4.number l4.number_le)
    Field.proto_packet
  unfold Asserting.l4Constrain
  rw [l4.protoNumber_text, asserted, pure_bind, IntervalSet.raw_point l4.number_le, asserted,
    pure_bind]
  refine Eq.trans (congrArg (· >>= _) point) ?_
  rw [pure_bind]
  exact asserted_constrain _ field ports packet

theorem l4Match_asserts (s : Source) (m : Match) (l4 : L4) :
    Asserting.l4Match s m.raw l4.text = plainly (Match.raw <$> l4Match s m l4) := by
  unfold Asserting.l4Match l4Match
  simp only [plainly_bind_map]
  refine congrArg (plainly position >>= ·) (funext fun start => ?_)
  refine congrArg (plainly (expectWord s) >>= ·) (funext fun w => ?_)
  by_cases src : w = "sport"
  · subst src
    simp only [plainly_bind_map, plainly_map_pure]
    exact congrArg (plainly (portSpec s) >>= ·) (funext fun ports =>
      l4Constrain_asserts m l4 .srcPort ports Field.srcPort_packet)
  by_cases dst : w = "dport"
  · subst dst
    simp only [plainly_bind_map, plainly_map_pure]
    exact congrArg (plainly (portSpec s) >>= ·) (funext fun ports =>
      l4Constrain_asserts m l4 .dstPort ports Field.dstPort_packet)
  · -- On any other word both sides take their last arm.
    simp only
    rfl

theorem checkSoundness_asserts (s : Source) (m : Match) (portsConstrained : Bool)
    (start : Nat × Nat) :
    Asserting.checkSoundness s m.raw portsConstrained start =
      plainly (checkSoundness s m portsConstrained start) := by
  have proto : asserted (m.raw.packetDim .proto) = pure m.proto.raw := by
    rw [m.raw_packetDim .proto Field.proto_packet]
    rfl
  have bearing : Asserting.allPortBearing m.proto.raw = allPortBearing m.proto := rfl
  unfold Asserting.checkSoundness checkSoundness
  rw [m.raw_isUnsatisfiable, asserted, pure_bind]
  cases m.isUnsatisfiable with
  | true => rfl
  | false =>
      cases portsConstrained with
      | false => rfl
      | true =>
          simp only [Bool.false_eq_true, if_false, if_true, Bool.true_and, proto, pure_bind,
            bearing]
          split <;> rfl

end Fwdelta.Nft
