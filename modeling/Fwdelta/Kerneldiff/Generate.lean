import Fwdelta.Kerneldiff.Faithful
import Fwdelta.Outcomes

/-
Generated chains, and the round trip they make.

The generator draws the parts of each rule from a few pools.  Whatever it draws,
the emitter can write the chain, the parser reads it back unchanged, and each rule
passes the checks of the parser.
-/

namespace Fwdelta.Kerneldiff

open Emit
open Nft
open Outcomes

def TABLE : String := "fwdelta_diff"

def IF_LOOPBACK : String := "lo"

def IF_WIRE : String := "veth-b"

/-- Named in rules, but no probe arrives on it. -/
def IF_ABSENT : String := "eth-absent"

def IFACES : List String := [IF_LOOPBACK, IF_WIRE, IF_ABSENT]

def ICMP : Nat := 1

def TCP : Nat := 6

def UDP : Nat := 17

def LO_SRCS : List (BitVec 32) := [0x0A010001, 0x0A010002, 0x0A010003, 0x0A010004]

def LO_DSTS : List (BitVec 32) := [0x0A050001, 0x0A050002, 0x0A050003, 0x0A050004]

def WIRE_SRCS : List (BitVec 32) := [0x0A070001, 0x0A070002, 0x0A070003, 0x0A070004]

def WIRE_DSTS : List (BitVec 32) := [0x0A070065, 0x0A070066, 0x0A070067, 0x0A070068]

def PORTS : List (BitVec 16) := [22, 80, 443, 502, 1161, 8080]

/-! ### The generator -/

structure Rng where
  state : BitVec 64

namespace Rng

def next : StateM Rng (BitVec 64) := fun rng =>
  let x := rng.state
  let x := x ^^^ (x <<< 13)
  let x := x ^^^ (x >>> 7)
  let x := x ^^^ (x <<< 17)
  (x, ⟨x⟩)

def below (n : Nat) : StateM Rng Nat := do
  let x ← next
  pure (x.toNat % n)

/-- An item of the pool, with the fact that it is one. -/
def pick {α : Type} (pool : List α) (some_ : pool ≠ []) : StateM Rng {item // item ∈ pool} := do
  let x ← next
  let bound := Nat.mod_lt x.toNat (List.length_pos_of_ne_nil some_)
  pure ⟨pool.get ⟨x.toNat % pool.length, bound⟩, List.get_mem _ _⟩

end Rng

open Rng

def PROTOS : List Nat := [TCP, UDP, UDP, ICMP]

theorem protos_le {v : Nat} (member : v ∈ PROTOS) : v ≤ domainMax Field.proto.bits := by
  have all : ∀ v ∈ PROTOS, v ≤ domainMax Field.proto.bits := by decide
  exact all v member

/-- A source address of either path, the loopback network, or none. -/
def drawSource (m : Match) : StateM Rng Match := do
  match ← below 3 with
  | 0 => do
      let src ← pick (LO_SRCS ++ WIRE_SRCS) (by decide)
      pure (m.withPrefix .srcAddr Field.srcAddr_packet src.val.toNat 32 (address_le src.val))
  | 1 => pure (m.withPrefix .srcAddr Field.srcAddr_packet 0x0A010000 24 (by decide))
  | _ => pure m

def drawDestination (m : Match) : StateM Rng Match := do
  match ← below 3 with
  | 0 => do
      let dst ← pick (LO_DSTS ++ WIRE_DSTS) (by decide)
      pure (m.withPrefix .dstAddr Field.dstAddr_packet dst.val.toNat 32 (address_le dst.val))
  | 1 => pure (m.withPrefix .dstAddr Field.dstAddr_packet 0x0A070000 24 (by decide))
  | _ => pure m

/-- Ports only where the protocol has them. -/
def drawPorts (proto : Nat) (m : Match) : StateM Rng Match :=
  if proto = TCP ∨ proto = UDP then do
    match ← below 4 with
    | 0 => do
        let port ← pick PORTS (by decide)
        pure (m.withValue .dstPort Field.dstPort_packet port.val.toNat
          (Nat.le_of_lt_succ port.val.isLt))
    | 1 => do
        let lo ← below 60000
        let width ← below 2000
        pure (m.withRange .dstPort Field.dstPort_packet lo (lo + width))
    | 2 => pure (m.withRange .srcPort Field.srcPort_packet 1024 65535)
    | _ => pure m
  else pure m

def drawInterface (m : Match) : StateM Rng Match := do
  if (← below 10) < 4 then do
    let name ← pick IFACES (by decide)
    pure (m.withIif (IfMatch.one name.val))
  else pure m

/-- One round of the loop of `generate`. -/
def drawRule : StateM Rng (Match × Action) := do
  let proto ← pick PROTOS (by decide)
  let m := Match.any.withValue .proto Field.proto_packet proto.val (protos_le proto.property)
  let m ← drawSource m
  let m ← drawDestination m
  let m ← drawPorts proto.val m
  let m ← drawInterface m
  let action ← pick [Action.accept, .accept, .drop] (by decide)
  pure (m, action.val)

def generate (n : Nat) (seed : BitVec 64) : Chain :=
  let empty := Chain.new "input" .input (if seed.toNat % 2 = 0 then .drop else .accept)
  (((List.range n).foldlM (fun (chain : Chain) i => do
    let rule ← drawRule
    pure (chain.push rule.1 rule.2
      { file := "generated", line := i + 1, column := 1, text := "" })) empty).run ⟨seed⟩).1

/-! ### What every draw keeps -/

/-- A source address is left open, or narrowed to a block. -/
theorem drawSource_narrows (m : Match) : Always (drawSource m) (fun out =>
    ∃ set, set.isEmpty = false ∧ out = { m with srcAddr := m.srcAddr.intersect set }) := by
  refine always_bind (always_of_forall fun choice => ?_)
  split
  · refine always_bind (always_of_forall fun src => always_pure ?_)
    exact ⟨IntervalSet.ofPrefix 32 src.val.toNat 32 (by decide) (address_le src.val), rfl, rfl⟩
  · exact always_pure ⟨IntervalSet.ofPrefix 32 0x0A010000 24 (by decide) (by decide), rfl, rfl⟩
  · exact always_pure ⟨IntervalSet.full 32, rfl, by rw [intersect_full]⟩

theorem drawDestination_narrows (m : Match) : Always (drawDestination m) (fun out =>
    ∃ set, set.isEmpty = false ∧ out = { m with dstAddr := m.dstAddr.intersect set }) := by
  refine always_bind (always_of_forall fun choice => ?_)
  split
  · refine always_bind (always_of_forall fun dst => always_pure ?_)
    exact ⟨IntervalSet.ofPrefix 32 dst.val.toNat 32 (by decide) (address_le dst.val), rfl, rfl⟩
  · exact always_pure ⟨IntervalSet.ofPrefix 32 0x0A070000 24 (by decide) (by decide), rfl, rfl⟩
  · exact always_pure ⟨IntervalSet.full 32, rfl, by rw [intersect_full]⟩

/-- Ports are narrowed for TCP and UDP only. -/
theorem drawPorts_narrows (proto : Nat) (m : Match) : Always (drawPorts proto m) (fun out =>
    ∃ sport dport, sport.isEmpty = false ∧ dport.isEmpty = false ∧
      (proto = TCP ∨ proto = UDP ∨ (sport = .full 16 ∧ dport = .full 16)) ∧
        out = { m with
          srcPort := m.srcPort.intersect sport, dstPort := m.dstPort.intersect dport }) := by
  refine always_ite (fun ported => ?_) (fun _ => always_pure ?_)
  · have known (sport dport : IntervalSet 16) :
        proto = TCP ∨ proto = UDP ∨ (sport = .full 16 ∧ dport = .full 16) :=
      ported.imp id Or.inl
    refine always_bind (always_of_forall fun choice => ?_)
    split
    · refine always_bind (always_of_forall fun port => always_pure ?_)
      exact ⟨.full 16, .point 16 port.val.toNat (Nat.le_of_lt_succ port.val.isLt), rfl, rfl,
        known _ _, by rw [intersect_full]; rfl⟩
    · refine always_bind (always_of_forall fun lo => ?_)
      refine always_bind (always_of_forall fun width => always_pure ?_)
      refine ⟨.full 16, .range 16 lo (lo + width), rfl, ?_, known _ _,
        by rw [intersect_full]; rfl⟩
      rw [IntervalSet.range, dif_neg (by omega)]
      rfl
    · exact always_pure ⟨.range 16 1024 65535, .full 16, rfl, rfl, known _ _,
        by rw [intersect_full]; rfl⟩
    · exact always_pure ⟨.full 16, .full 16, rfl, rfl, known _ _,
        by rw [intersect_full, intersect_full]⟩
  · exact ⟨.full 16, .full 16, rfl, rfl, Or.inr (Or.inr ⟨rfl, rfl⟩),
      by rw [intersect_full, intersect_full]⟩

theorem drawInterface_names (m : Match) : Always (drawInterface m) (fun out =>
    out = m ∨ ∃ name ∈ IFACES, out = m.withIif (IfMatch.one name)) := by
  refine always_bind (always_of_forall fun chance => ?_)
  refine always_ite (fun _ => ?_) (fun _ => always_pure (Or.inl rfl))
  refine always_bind (always_of_forall fun name => always_pure (Or.inr ?_))
  exact ⟨name.val, name.property, rfl⟩

/-- A generated predicate: one protocol, with ports where it has them, and at most
one interface. -/
structure Generated (m : Match) : Prop where
  satisfiable : m.isUnsatisfiable = false
  proto : ∃ v within, m.proto = IntervalSet.point 8 v within
  ports : (m.srcPort = .full 16 ∧ m.dstPort = .full 16) ∨ ∃ l4, m.proto = L4.set l4
  iif : m.iif = .any ∨ ∃ name ∈ IFACES, m.iif = .one name
  oif : m.oif = .any

theorem Generated.withIif {m : Match} (generated : Generated m) {name : String}
    (listed : name ∈ IFACES) : Generated (m.withIif (.one name)) :=
  ⟨generated.satisfiable, generated.proto, generated.ports, Or.inr ⟨name, listed, rfl⟩,
    generated.oif⟩

theorem drawRule_generated : Always drawRule (fun rule => Generated rule.1) := by
  refine always_bind (always_of_forall fun proto => ?_)
  have within := protos_le proto.property
  refine always_bind ((drawSource_narrows _).imp fun _ source => ?_)
  obtain ⟨src, srcSome, rfl⟩ := source
  refine always_bind ((drawDestination_narrows _).imp fun _ destination => ?_)
  obtain ⟨dst, dstSome, rfl⟩ := destination
  refine always_bind ((drawPorts_narrows _ _).imp fun _ ports => ?_)
  obtain ⟨sport, dport, sportSome, dportSome, ported, rfl⟩ := ports
  refine always_bind ((drawInterface_names _).imp fun drawn named => ?_)
  refine always_bind (always_of_forall fun action => always_pure ?_)
  have pinned : (IntervalSet.full 8).intersect (IntervalSet.point 8 proto.val within) =
      IntervalSet.point 8 proto.val within := full_intersect _
  have unnamed : Generated { Match.any.withValue .proto Field.proto_packet proto.val within with
      srcAddr := (IntervalSet.full 32).intersect src
      dstAddr := (IntervalSet.full 32).intersect dst
      srcPort := (IntervalSet.full 16).intersect sport
      dstPort := (IntervalSet.full 16).intersect dport } := by
    refine ⟨?_, ⟨proto.val, within, pinned⟩, ?_, Or.inl rfl, rfl⟩
    · rw [Match.isUnsatisfiable_eq_false]
      simp only [full_intersect]
      exact ⟨srcSome, dstSome, sportSome, dportSome, congrArg IntervalSet.isEmpty pinned⟩
    · simp only [full_intersect]
      rcases ported with tcp | udp | portless
      · exact Or.inr ⟨.tcp, pinned.trans (by simp only [tcp]; rfl)⟩
      · exact Or.inr ⟨.udp, pinned.trans (by simp only [udp]; rfl)⟩
      · exact Or.inl portless
  rcases named with rfl | ⟨name, listed, rfl⟩
  · exact unnamed
  · exact unnamed.withIif listed

/-- A chain of so many generated rules on the input hook. -/
structure GeneratedChain (n : Nat) (chain : Chain) : Prop where
  name : chain.name = "input"
  hook : chain.hook = .input
  plain : chain.policy ≠ .reject
  length : chain.rules.length = n
  rules : ∀ r ∈ chain.rules, Generated r.predicate

theorem GeneratedChain.push {n : Nat} {chain : Chain} (generated : GeneratedChain n chain)
    {m : Match} (drawn : Generated m) (action : Action) (origin : Origin) :
    GeneratedChain (n + 1) (chain.push m action origin) := by
  refine ⟨generated.name, generated.hook, generated.plain, ?_, ?_⟩
  · rw [Chain.push, List.length_append, generated.length]
    rfl
  · intro r member
    rcases List.mem_append.mp member with earlier | last
    · exact generated.rules r earlier
    · rw [List.mem_singleton.mp last]
      exact drawn

theorem generate_generated (n : Nat) (seed : BitVec 64) :
    GeneratedChain n (generate n seed) := by
  have first : GeneratedChain 0
      (Chain.new "input" .input (if seed.toNat % 2 = 0 then .drop else .accept)) := by
    refine ⟨rfl, rfl, ?_, rfl, nofun⟩
    unfold Chain.new
    split <;> simp
  have always : Always ((List.range n).foldlM (fun (chain : Chain) i => do
      let rule ← drawRule
      pure (chain.push rule.1 rule.2
        { file := "generated", line := i + 1, column := 1, text := "" }))
      (Chain.new "input" .input (if seed.toNat % 2 = 0 then .drop else .accept)))
      (GeneratedChain (0 + (List.range n).length)) :=
    always_foldlM first fun k chain i generated => always_bind
      (drawRule_generated.imp fun rule drawn => always_pure (generated.push drawn rule.2 _))
  rw [Nat.zero_add, List.length_range] at always
  exact always ⟨seed⟩

/-! ### The round trip -/

/-- Why a chain did not survive the trip, with what the message shows. -/
inductive RoundtripError
  | inexpressible
  | rejected (error : Lookahead.Failure ParseError) (text : String)
  | chainCount (back : Nat)
  | header (before after : Hook × Action)
  | ruleCount (out back : Nat)
  | verdict (number : Nat)
  | predicate (number : Nat) (before after : Match)

/-- The loop over the rules that went out and the ones that came back. -/
def compareRules : List (Rule × Rule) → Except RoundtripError Unit
  | [] => .ok ()
  | (before, after) :: rest =>
      if before.action ≠ after.action then .error (.verdict before.number)
      else if before.predicate ≠ after.predicate then
        .error (.predicate before.number before.predicate after.predicate)
      else compareRules rest

/-- Emit the chain, parse it back, and require the rules to survive the trip. -/
def roundtrip (chain : Chain) : Except RoundtripError Unit :=
  match chainWith TABLE chain false with
  | none => .error .inexpressible
  | some text =>
      match parse "roundtrip.nft" text with
      | .error e => .error (.rejected e text)
      | .ok reparsed =>
          match reparsed.chains with
          | [back] =>
              if back.policy ≠ chain.policy ∨ back.hook ≠ chain.hook then
                .error (.header (chain.hook, chain.policy) (back.hook, back.policy))
              else if back.rules.length ≠ chain.rules.length then
                .error (.ruleCount chain.rules.length back.rules.length)
              else compareRules (chain.rules.zip back.rules)
          | others => .error (.chainCount others.length)

theorem compareRules_zip {before after : List Rule}
    (same : after.map (fun r => (r.predicate, r.action)) =
      before.map (fun r => (r.predicate, r.action))) :
    compareRules (before.zip after) = .ok () := by
  induction before generalizing after with
  | nil => rfl
  | cons r rest ih =>
      cases after with
      | nil => rfl
      | cons r' rest' =>
          obtain ⟨equal, later⟩ := List.cons_eq_cons.mp same
          obtain ⟨predicate, action⟩ := Prod.mk.inj equal
          rw [List.zip_cons_cons, compareRules, if_neg (not_not.mpr action.symm),
            if_neg (not_not.mpr predicate.symm)]
          exact ih later

/-- A chain whose text reads back as the chain survives the trip. -/
theorem roundtrip_of_readsAs {chain : Chain} {text : String}
    (written : chainWith TABLE chain false = some text)
    (reads : ReadsAs (chain.rules.map (fun r => (r.predicate, r.action))) chain text) :
    roundtrip chain = .ok () := by
  obtain ⟨ruleset, back, accepted, sole, hook, policy, same⟩ := reads "roundtrip.nft"
  have lengths : back.rules.length = chain.rules.length := by
    simpa only [List.length_map] using congrArg List.length same
  unfold roundtrip
  simp only [written, accepted, sole, hook, policy, lengths, ne_eq, not_true_eq_false, or_self,
    if_false]
  exact compareRules_zip same

/-! ### Generated chains make the round trip -/

/-- The names of the generator stand between quotes as they are. -/
theorem ifaces_plain {name : String} (listed : name ∈ IFACES) :
    name.toList.contains '*' = false ∧
      ∀ c ∈ name.toList, c.toNat < 128 ∧ c ≠ '"' ∧ c ≠ '\\' := by
  have letters : IFACES.map String.toList =
      [['l', 'o'], ['v', 'e', 't', 'h', '-', 'b'],
        ['e', 't', 'h', '-', 'a', 'b', 's', 'e', 'n', 't']] := rfl
  have member := List.mem_map_of_mem (f := String.toList) listed
  rw [letters] at member
  simp only [List.mem_cons, List.not_mem_nil, or_false] at member
  rcases member with loopback | wire | absent
  · rw [loopback]
    simp
  · rw [wire]
    simp
  · rw [absent]
    simp

theorem Generated.emittable {m : Match} (generated : Generated m) : Emittable m := by
  refine ⟨generated.satisfiable, generated.ports.imp ?_ id, ?_⟩
  · intro open_
    rw [open_.1, open_.2]
    exact ⟨IntervalSet.isFull_full 16, IntervalSet.isFull_full 16⟩
  · intro names named
    rcases generated.iif with any | ⟨name, listed, one⟩
    · rw [any] at named
      contradiction
    · obtain rfl := IfMatch.oneOf.inj (one.symm.trans named)
      refine ⟨Finset.singleton_nonempty name, fun other member => ?_⟩
      rw [Finset.mem_singleton.mp member]
      exact (ifaces_plain listed).1

theorem Generated.expressible {m : Match} (generated : Generated m) : Expressible .input m := by
  refine ⟨generated.iif.imp id ?_, Or.inr generated.proto⟩
  intro named
  obtain ⟨name, listed, one⟩ := named
  refine ⟨by decide, {name}, one, fun other member => ?_⟩
  rw [Finset.mem_singleton.mp member]
  exact (ifaces_plain listed).2

theorem GeneratedChain.parsed {n : Nat} {chain : Chain} (generated : GeneratedChain n chain) :
    Parsed chain := by
  refine ⟨?_, generated.plain, fun r member => (generated.rules r member).emittable,
    fun r member => (generated.rules r member).oif⟩
  rw [generated.name]
  decide

theorem GeneratedChain.faithful {n : Nat} {chain : Chain} (generated : GeneratedChain n chain) :
    Faithful TABLE chain := by
  refine (faithful_iff_expressible (by decide) generated.parsed).mpr fun r member => ?_
  rw [generated.hook]
  exact (generated.rules r member).expressible

/-- A rule that matches on a port. -/
def portsConstrained (m : Match) : Bool :=
  !m.srcPort.isFull || !m.dstPort.isFull

theorem Generated.sound {m : Match} (generated : Generated m) (s : Source)
    (start : Nat × Nat) : checkSoundness s m (portsConstrained m) start = pure () := by
  have bearing : (portsConstrained m && !allPortBearing m.proto) = false := by
    rcases generated.ports with open_ | ⟨l4, pinned⟩
    · rw [portsConstrained, open_.1, open_.2, IntervalSet.isFull_full]
      rfl
    · rw [pinned, Sentence.allPortBearing_set, Bool.not_true, Bool.and_false]
  rw [checkSoundness, generated.satisfiable, bearing]
  rfl

/-- Every generated chain can be written, its text reads back as the chain, and
each of its rules passes the checks of the parser. -/
theorem generate_round_trips (n : Nat) (seed : BitVec 64) :
    (generate n seed).rules.length = n ∧
      (∀ table, (Emit.chain table (generate n seed)).isSome = true) ∧
        (∃ text, chainWith TABLE (generate n seed) false = some text ∧
          ReadsAs ((generate n seed).rules.map (fun r => (r.predicate, r.action)))
            (generate n seed) text) ∧
          roundtrip (generate n seed) = .ok () ∧
            ∀ r ∈ (generate n seed).rules, ∀ s start,
              checkSoundness s r.predicate (portsConstrained r.predicate) start = pure () := by
  have generated := generate_generated n seed
  obtain ⟨text, written⟩ :=
    Option.isSome_iff_exists.mp (chainWith_isSome TABLE generated.parsed false)
  have reads := generated.faithful text written
  exact ⟨generated.length, fun table => chainWith_isSome table generated.parsed true,
    ⟨text, written, reads⟩, roundtrip_of_readsAs written reads,
    fun r member => (generated.rules r member).sound⟩

end Fwdelta.Kerneldiff
