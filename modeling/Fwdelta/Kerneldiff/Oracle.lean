import Fwdelta.Interference
import Fwdelta.Kerneldiff.Probe
import Fwdelta.Matching
import Fwdelta.OrderedMap
import Mathlib.Data.List.ReduceOption

/-
The kernel as an oracle.

The chain under test is loaded with a counter on each rule, and a prefilter before it
admits one tuple of addresses, protocol and ports.  A probe narrows the prefilter,
clears the counters, sends its packet and waits until a counter has moved.  Meanwhile
other packets arrive, late ones of earlier probes and replies among them.

The kernel and its tools are parameters: a system of commands, a view of its states, and
what is documented of them.
-/

namespace Fwdelta.Kerneldiff

open Interference
open Nft

/-! ### Reading the counters -/

inductive ProbeError
  | external (message : String)
  | badCounter (line : String)
  | badComment (line : String)
  | noPorts (l4 : String)
  | noMethod (proto : Nat)
  | silent (p : ProbePacket)
  | unknownRule (number : Nat)
  | several (numbers : List Nat)

def ProbeError.text : ProbeError → String
  | .external message => message
  | .badCounter line => "unparsable counter: " ++ line
  | .badComment line => "unparsable comment: " ++ line
  | .noPorts l4 => l4 ++ " probe without ports"
  | .noMethod proto => "no probe method for protocol " ++ toString proto
  | .silent p => "no counter moved for " ++ p.text ++ "; the probe never reached the chain"
  | .unknownRule number => "counter for unknown rule " ++ toString number
  | .several numbers =>
      Structural.debugList numbers ++ " counters moved for one packet; first-match fires " ++
        "exactly one. The prefilter admits only this probe's 5-tuple, so either it failed to " ++
        "load or a rule in the measured chain is non-terminal."

def COUNTED : List Char := "counter packets ".toList

def NAMED : List Char := "comment \"r".toList

/-- The entry of a line of the listing, if it has a counter and the comment of a rule. -/
def readCounter (line : String) : Except ProbeError (Option (Nat × Nat)) :=
  match Text.after COUNTED line.toList, Text.after NAMED line.toList with
  | some counted, some named =>
      match (Text.firstWord counted).bind (Text.parseUnsigned Text.U64_MAX) with
      | none => .error (.badCounter line)
      | some n =>
          match Text.parseUnsigned Text.U32_MAX (String.ofList (named.takeWhile (· != '"'))) with
          | none => .error (.badComment line)
          | some id => .ok (some (id, n))
  | _, _ => .ok none

def readCounters (out : List (Nat × Nat)) : List String → Except ProbeError (List (Nat × Nat))
  | [] => .ok out
  | line :: rest =>
      match readCounter line with
      | .error e => .error e
      | .ok none => readCounters out rest
      | .ok (some (id, n)) => readCounters (OrderedMap.insert id n out) rest

/-- Packet counts by rule number.  Zero is the sentinel. -/
def counters (text : String) : Except ProbeError (List (Nat × Nat)) :=
  readCounters [] (Text.lines text)

/-- The numbers whose counters are not at zero. -/
def movedNumbers (counts : List (Nat × Nat)) : List Nat :=
  (counts.filter (fun entry => 0 < entry.2)).map Prod.fst

/-- The verdict that the moved counters show. -/
def shownVerdict (chain : Chain) (p : ProbePacket) : List Nat → Except ProbeError Verdict
  | [] => .error (.silent p)
  | [0] => .ok ⟨none, chain.policy.permits⟩
  | [one] =>
      match chain.rules.find? (fun r => r.number == one) with
      | none => .error (.unknownRule one)
      | some r => .ok ⟨some one, r.action.permits⟩
  | many => .error (.several many)

/-- A line of a listing that shows a rule and the packets it counted. -/
structure Shows (line : String) (number count : Nat) : Prop where
  count : ∃ more, Text.after COUNTED line.toList = some ((toString count).toList ++ ' ' :: more)
  comment : ∃ more, Text.after NAMED line.toList = some ((toString number).toList ++ '"' :: more)

def Silent (line : String) : Prop :=
  Text.after COUNTED line.toList = none ∨ Text.after NAMED line.toList = none

/-- What a line shows: nothing, or the count of one number. -/
def LineShows (count : Nat → Nat) (line : String) : Option Nat → Prop
  | none => Silent line
  | some number => Shows line number (count number)

/-- A listing of some counters shows each of their numbers, on lines of their own. -/
def Listing (count : Nat → Nat) (numbers : List Nat) (text : String) : Prop :=
  ∃ shown, List.Forall₂ (LineShows count) (Text.lines text) shown ∧
    List.reduceOption shown = numbers

theorem readCounter_of_shows {line : String} {number count : Nat} (shows_ : Shows line number count)
    (small : number ≤ Text.U32_MAX) (fits : count ≤ Text.U64_MAX) :
    readCounter line = .ok (some (number, count)) := by
  obtain ⟨counted, counts⟩ := shows_.count
  obtain ⟨named, names⟩ := shows_.comment
  have id : ((toString number).toList ++ '"' :: named).takeWhile (· != '"') =
      (toString number).toList := by
    have digits : ∀ c ∈ (toString number).toList, (c != '"') = true := by
      intro c member
      rw [bne_iff_ne]
      rintro rfl
      exact absurd (Text.isDigit_of_mem_toString member) (by decide)
    rw [List.takeWhile_append_of_pos digits, List.takeWhile_cons_of_neg (by decide),
      List.append_nil]
  unfold readCounter
  rw [counts, names]
  simp only [Text.firstWord_toString, Option.bind_some, Text.parseUnsigned_toString fits, id,
    String.ofList_toList, Text.parseUnsigned_toString small]

theorem readCounter_of_silent {line : String} (silent : Silent line) :
    readCounter line = .ok none := by
  unfold readCounter
  rcases silent with missing | missing
  · rw [missing]
  · rw [missing]
    cases Text.after COUNTED line.toList <;> rfl

/-- The lines read so far give their numbers the counts they show. -/
theorem readCounters_of_shown {count : Nat → Nat} (fits : ∀ n, count n ≤ Text.U64_MAX)
    {lines : List String} {shown : List (Option Nat)}
    (each : List.Forall₂ (LineShows count) lines shown)
    (small : ∀ n ∈ List.reduceOption shown, n ≤ Text.U32_MAX) {out : List (Nat × Nat)}
    (ordered : OrderedMap.Ordered out) :
    ∃ entries, readCounters out lines = .ok entries ∧ OrderedMap.Ordered entries ∧
      ∀ entry, entry ∈ entries ↔
        (entry.1 ∈ List.reduceOption shown ∧ entry.2 = count entry.1) ∨
          (entry.1 ∉ List.reduceOption shown ∧ entry ∈ out) := by
  induction each generalizing out with
  | nil => exact ⟨out, rfl, ordered, by simp⟩
  | @cons line label rest labels shows_ _ ih =>
      cases label with
      | none =>
          rw [List.reduceOption_cons_of_none] at small ⊢
          obtain ⟨entries, read, kept, exact_⟩ := ih small ordered
          refine ⟨entries, ?_, kept, exact_⟩
          rw [readCounters, readCounter_of_silent shows_]
          exact read
      | some number =>
          rw [List.reduceOption_cons_of_some] at small ⊢
          obtain ⟨entries, read, kept, exact_⟩ :=
            ih (fun n member => small n (List.mem_cons_of_mem _ member))
              (ordered.insert number (count number))
          refine ⟨entries, ?_, kept, fun entry => ?_⟩
          · rw [readCounters,
              readCounter_of_shows shows_ (small number List.mem_cons_self) (fits number)]
            exact read
          · rw [exact_, OrderedMap.mem_insert ordered, List.mem_cons, Prod.ext_iff]
            by_cases later : entry.1 ∈ List.reduceOption labels
            · simp [later]
            · by_cases here : entry.1 = number
              · rw [here] at later
                simp [later, here]
              · simp [later, here]

theorem counters_of_listing {count : Nat → Nat} (fits : ∀ n, count n ≤ Text.U64_MAX)
    {numbers : List Nat} (small : ∀ n ∈ numbers, n ≤ Text.U32_MAX) {text : String}
    (listing : Listing count numbers text) :
    ∃ entries, counters text = .ok entries ∧ OrderedMap.Ordered entries ∧
      ∀ entry, entry ∈ entries ↔ entry.1 ∈ numbers ∧ entry.2 = count entry.1 := by
  obtain ⟨shown, each, rfl⟩ := listing
  obtain ⟨entries, read, ordered, exact_⟩ :=
    readCounters_of_shown fits each small List.Pairwise.nil
  exact ⟨entries, read, ordered, fun entry => by simpa using exact_ entry⟩

/-- When no other counter has moved, the numbers read are that one or none. -/
theorem movedNumbers_of_only {count : Nat → Nat} {numbers : List Nat}
    {entries : List (Nat × Nat)} (ordered : OrderedMap.Ordered entries)
    (exact_ : ∀ entry, entry ∈ entries ↔ entry.1 ∈ numbers ∧ entry.2 = count entry.1) {d : Nat}
    (only : ∀ n, count n ≠ 0 → n = d) :
    movedNumbers entries = [] ∨ movedNumbers entries = [d] := by
  have all : ∀ n ∈ movedNumbers entries, n = d := by
    intro n member
    obtain ⟨entry, moved, rfl⟩ := List.mem_map.mp member
    obtain ⟨listed, positive⟩ := List.mem_filter.mp moved
    have counted := ((exact_ entry).mp listed).2
    rw [decide_eq_true_eq, counted] at positive
    exact only entry.1 (by omega)
  have distinct : (movedNumbers entries).Nodup := by
    have increasing : (movedNumbers entries).Pairwise (· < ·) := by
      rw [movedNumbers, List.pairwise_map]
      exact ordered.filter _
    exact increasing.imp (fun below => below.ne)
  match movedNumbers entries, all, distinct with
  | [], _, _ => exact Or.inl rfl
  | [n], all, _ => exact Or.inr (by rw [all n List.mem_cons_self])
  | a :: b :: rest, all, distinct =>
      have same : a = b := (all a (by simp)).trans (all b (by simp)).symm
      simp [same] at distinct

/-! ### Arrivals -/

/-- A packet at the input hook.  Of its interfaces only the name counts. -/
structure Arrival where
  header : Packet
  interface : String

def MeetsArrival (m : Match) (a : Arrival) : Prop :=
  m.ContainsHeader a.header ∧ m.iif.Admits a.interface

instance (m : Match) (a : Arrival) : Decidable (MeetsArrival m a) :=
  inferInstanceAs (Decidable ((_ ∧ _ ∧ _ ∧ _ ∧ _) ∧ _))

/-- The rule that decides an arrival, by first match. -/
def arrivalRule (chain : Chain) (a : Arrival) : Option Rule :=
  chain.rules.find? (fun r => decide (MeetsArrival r.predicate a))

/-- The counter that an arrival moves, which is the sentinel's for the policy. -/
def counterOf (chain : Chain) (a : Arrival) : Nat :=
  match arrivalRule chain a with
  | some r => r.number
  | none => 0

def arrivalVerdict (chain : Chain) (a : Arrival) : Verdict :=
  match arrivalRule chain a with
  | some r => ⟨some r.number, r.action.permits⟩
  | none => ⟨none, chain.policy.permits⟩

/-- The rules that the text of a chain loads, by the numbers in their comments.  The
sentinel meets every packet. -/
def loadedRules (chain : Chain) : List (Nat × Match) :=
  chain.rules.map (fun r => (r.number, r.predicate)) ++ [(0, .any)]

/-- The number of the first rule that an arrival meets. -/
def firstMet (rules : List (Nat × Match)) (a : Arrival) : Option Nat :=
  (rules.find? (fun r => decide (MeetsArrival r.2 a))).map Prod.fst

theorem meetsArrival_any (a : Arrival) : MeetsArrival .any a :=
  ⟨Match.containsHeader_any a.header, trivial⟩

theorem firstMet_loadedRules (chain : Chain) (a : Arrival) :
    firstMet (loadedRules chain) a = some (counterOf chain a) := by
  have sentinel : [((0, .any) : Nat × Match)].find? (fun r => decide (MeetsArrival r.2 a)) =
      some (0, .any) := List.find?_cons_of_pos (decide_eq_true (meetsArrival_any a))
  have rules : (chain.rules.map (fun r => (r.number, r.predicate))).find?
      (fun r => decide (MeetsArrival r.2 a)) =
        (arrivalRule chain a).map (fun r => (r.number, r.predicate)) := List.find?_map
  unfold firstMet loadedRules counterOf
  rw [List.find?_append, rules, sentinel]
  cases arrivalRule chain a <;> rfl

/-- The sources of each path arrive on its interface. -/
def Arrival.Routed (a : Arrival) : Prop :=
  ∀ path : Path, a.header.src ∈ path.srcs → a.interface = path.arrivalInterface

/-! ### The prefilter -/

/-- The one tuple that the prefilter accepts. -/
structure Prefilter where
  l4 : String
  src : BitVec 32
  dst : BitVec 32
  ports : Option (String × BitVec 16 × BitVec 16)
  deriving DecidableEq

def Prefilter.text (f : Prefilter) : String :=
  let m := "meta l4proto " ++ f.l4 ++ " ip saddr " ++ ipString f.src ++ " ip daddr " ++
    ipString f.dst ++
    (match f.ports with
      | some (l4, sp, dp) =>
          " " ++ l4 ++ " sport " ++ toString sp.toNat ++ " " ++ l4 ++ " dport " ++
            toString dp.toNat
      | none => "")
  "flush chain ip fwdelta_pre pre\nadd rule ip fwdelta_pre pre " ++ m ++
    " accept\nadd rule ip fwdelta_pre pre drop\n"

def prefilterL4 (proto : Nat) : Option String :=
  if proto = ICMP then some "icmp"
  else if proto = TCP then some "tcp"
  else if proto = UDP then some "udp"
  else none

/-- The tuple of a packet, where its protocol has a name. -/
def tupleOf (p : ProbePacket) : Option Prefilter :=
  (prefilterL4 p.proto).map (fun l4 =>
    { l4 := l4
      src := p.src
      dst := p.dst
      ports := p.ports.map (fun ports => (if p.proto = TCP then "tcp" else "udp", ports)) })

/-- Admit exactly one tuple and drop everything else.  Other protocols get a comment. -/
def prefilterFor (p : ProbePacket) : String :=
  match tupleOf p with
  | some f => f.text
  | none => "# unsupported protocol " ++ toString p.proto

/-- A port match implies the protocol that it names. -/
def Prefilter.Admits (f : Prefilter) (a : Arrival) : Prop :=
  protoNumber f.l4 = some a.header.proto.toNat ∧ a.header.src = f.src ∧ a.header.dst = f.dst ∧
    ∀ l4 sp dp, f.ports = some (l4, sp, dp) →
      protoNumber l4 = some a.header.proto.toNat ∧ a.header.sport = sp ∧ a.header.dport = dp

/-- The empty prefilter table. -/
def prefilterTable : String :=
  "table ip fwdelta_pre \x7b\n  chain pre \x7b\n    " ++
    "type filter hook input priority -100; policy accept;\n  \x7d\n\x7d\n"

/-! ### The system under test -/

/-- What originates the packet of a probe: a socket for datagrams, or a program. -/
inductive Sender
  | socket (path : Path) (src : String) (sport : Nat) (dst : String) (dport : Nat)
  | helper (path : Path) (argv : List String)

def senderFor (p : ProbePacket) : Except ProbeError Sender :=
  let src := ipString p.src
  let dst := ipString p.dst
  if p.proto = UDP then
    match p.ports with
    | none => .error (.noPorts "udp")
    | some (sp, dp) => .ok (.socket p.path src sp.toNat dst dp.toNat)
  else if p.proto = TCP then
    match p.ports with
    | none => .error (.noPorts "tcp")
    | some (sp, dp) =>
        let spec := "TCP:" ++ dst ++ ":" ++ toString dp.toNat ++ ",bind=" ++ src ++ ":" ++
          toString sp.toNat ++ ",connect-timeout=0.4"
        .ok (.helper p.path ["socat", "-T1", spec, "/dev/null"])
  else if p.proto = ICMP then
    .ok (.helper p.path ["ping", "-c", "1", "-W", "1", "-I", src, dst])
  else .error (.noMethod p.proto)

/-- The commands that the harness gives to the system under test, and what happens there
besides: arrivals, and steps that no table or counter shows. -/
structure System (σ : Type) where
  quiet : σ → σ → Prop
  arrive : Arrival → σ → σ → Prop
  sh : String → List String → Command σ (Except String String)
  loadRuleset : String → Command σ (Except String Unit)
  start : Sender → Command σ (Except String Unit)

/-- What a state shows of the kernel: the packets that the prefilter lets through, the
rules of the chain under test and the packets counted under a number. -/
structure View (σ : Type) where
  passes : σ → Arrival → Prop
  rules : σ → List (Nat × Match)
  count : σ → Nat → BitVec 64

structure View.SameTables {σ : Type} (view : View σ) (s t : σ) : Prop where
  passes : ∀ a, view.passes t a ↔ view.passes s a
  rules : view.rules t = view.rules s

structure View.Same {σ : Type} (view : View σ) (s t : σ) : Prop extends
    view.SameTables s t where
  count : ∀ n, view.count t n = view.count s n

def RESET : List String := ["reset", "rules", "table", "ip", TABLE]

def LIST : List String := ["list", "chain", "ip", TABLE, "input"]

def FLUSH : List String := ["flush", "ruleset"]

/-- What the harness relies on.  An arrival moves at most the counter of the first rule
it meets, and only behind the prefilter; a command that succeeds does what its manual
says.  Nothing is assumed of commands that fail. -/
structure System.Documented {σ : Type} (system : System σ) (view : View σ) : Prop where
  quiet : ∀ s t, system.quiet s t → view.Same s t
  arriveTables : ∀ a s t, system.arrive a s t → view.SameTables s t
  arriveCounts : ∀ a s t, system.arrive a s t → ∀ n, view.count t n ≠ view.count s n →
    view.passes s a ∧ firstMet (view.rules s) a = some n ∧
      view.count t n = view.count s n + 1
  start : ∀ sender s t, system.start sender s (.ok ()) t → view.Same s t
  flush : ∀ out s t, system.sh "nft" FLUSH s (.ok out) t → view.rules t = []
  table : ∀ s t, system.loadRuleset prefilterTable s (.ok ()) t → view.rules t = view.rules s
  load : ∀ n seed text, Emit.chain TABLE (generate n seed) = some text →
    ∀ s t, view.rules s = [] → system.loadRuleset text s (.ok ()) t →
      view.rules t = loadedRules (generate n seed)
  narrow : ∀ p f, tupleOf p = some f → ∀ s t, system.loadRuleset f.text s (.ok ()) t →
    (∀ a, view.passes t a ↔ f.Admits a) ∧ view.rules t = view.rules s
  reset : ∀ out s t, system.sh "nft" RESET s (.ok out) t →
    view.SameTables s t ∧ ∀ n, view.count t n = 0
  list : ∀ out s t, system.sh "nft" LIST s (.ok out) t → view.Same s t ∧
    Listing (fun n => (view.count s n).toNat) ((view.rules s).map Prod.fst) out

/-- Whatever arrives with the source of a path arrives on the interface of the path. -/
def System.Routed {σ : Type} (system : System σ) : Prop :=
  ∀ a s t, system.arrive a s t → a.Routed

section Commands

variable {σ : Type} (system : System σ)

def System.others (s t : σ) : Prop :=
  system.quiet s t ∨ ∃ a, system.arrive a s t

/-- A command beside the others. -/
def System.step {α : Type} (command : Command σ (Except String α)) :
    Command σ (Except ProbeError α) :=
  failAs .external (atomic system.others command)

/-- Flush everything, then load the open prefilter and the chain. -/
def System.prepare (chain : Chain) : Command σ (Except ProbeError Unit) :=
  match Emit.chain TABLE chain with
  | none => done (.error (.external "generator produced a rule the emitter cannot express"))
  | some text =>
      andThenOk (system.step (system.sh "nft" FLUSH)) fun _ =>
        andThenOk (system.step (system.loadRuleset prefilterTable)) fun _ =>
          system.step (system.loadRuleset text)

def System.send (p : ProbePacket) : Command σ (Except ProbeError Unit) :=
  match senderFor p with
  | .error e => done (.error e)
  | .ok sender => system.step (system.start sender)

def System.readMoved : Command σ (Except ProbeError (List Nat)) :=
  andThenOk (system.step (system.sh "nft" LIST)) fun text =>
    done ((counters text).map movedNumbers)

/-- A probe that reads the counters a number of times at most. -/
def System.probeFor (p : ProbePacket) (chain : Chain) (rounds : Nat) :
    Command σ (Except ProbeError Verdict) :=
  andThenOk (system.step (system.loadRuleset (prefilterFor p))) fun _ =>
    andThenOk (system.step (system.sh "nft" RESET)) fun _ =>
      andThenOk (system.send p) fun _ =>
        andThenOk (waitFor (fun moved => !moved.isEmpty) [] system.readMoved rounds)
          fun moved => done (shownVerdict chain p moved)

/-- Send one packet and read back which rule the kernel used, until the deadline. -/
def System.probe (p : ProbePacket) (chain : Chain) : Command σ (Except ProbeError Verdict) :=
  choose (system.probeFor p chain)

end Commands

/-! ### A probe shows the decider of its packet -/

/-- The packet as it arrives.  Ports that the probe leaves free are zero. -/
def ProbePacket.arrival (p : ProbePacket) : Arrival where
  header :=
    { src := p.src
      dst := p.dst
      sport := (p.ports.getD (0, 0)).1
      dport := (p.ports.getD (0, 0)).2
      proto := BitVec.ofNat 8 p.proto
      iif := 0
      oif := 0 }
  interface := p.path.arrivalInterface

/-- First match on the packet of the probe. -/
def kernelVerdict (chain : Chain) (p : ProbePacket) : Verdict :=
  arrivalVerdict chain p.arrival

/-- All packets of the probe, whatever they have in the dimensions it leaves free, are
decided like its own. -/
def Uniform (chain : Chain) (p : ProbePacket) : Prop :=
  ∀ a : Arrival, p.Describes a.header → a.interface = p.path.arrivalInterface →
    arrivalRule chain a = arrivalRule chain p.arrival

/-- Numbers that tell the rules apart, from each other and from the sentinel. -/
structure Numbered (chain : Chain) : Prop where
  distinct : (chain.rules.map Rule.number).Nodup
  positive : ∀ r ∈ chain.rules, 0 < r.number
  small : ∀ r ∈ chain.rules, r.number ≤ Text.U32_MAX

theorem Drawn.prefilterL4 {p : ProbePacket} (drawn : Drawn p) :
    ∃ l4, prefilterL4 p.proto = some l4 ∧ protoNumber l4 = some p.proto := by
  rcases drawn.proto with ⟨icmp, _⟩ | ⟨tcp | udp, _⟩
  · rw [icmp]
    exact ⟨"icmp", rfl, rfl⟩
  · rw [tcp]
    exact ⟨"tcp", rfl, rfl⟩
  · rw [udp]
    exact ⟨"udp", rfl, rfl⟩

/-- What the prefilter of a probe admits has the headers of the probe. -/
theorem Drawn.tupleOf {p : ProbePacket} (drawn : Drawn p) :
    ∃ f, tupleOf p = some f ∧ ∀ a, f.Admits a → p.Describes a.header := by
  obtain ⟨l4, chosen, named⟩ := drawn.prefilterL4
  refine ⟨_, by rw [Kerneldiff.tupleOf, chosen, Option.map_some], fun a admits => ?_⟩
  obtain ⟨proto, src, dst, ports⟩ := admits
  refine ⟨src, dst, Option.some.inj (proto.symm.trans named), fun sp dp given => ?_⟩
  exact (ports (if p.proto = TCP then "tcp" else "udp") sp dp (by simp only [given]; rfl)).2

theorem Drawn.senderFor {p : ProbePacket} (drawn : Drawn p) :
    ∃ sender, senderFor p = .ok sender := by
  unfold Kerneldiff.senderFor
  rcases drawn.proto with ⟨icmp, _⟩ | ⟨tcp | udp, ports, given⟩
  · rw [if_neg (by rw [icmp]; decide), if_neg (by rw [icmp]; decide), if_pos icmp]
    exact ⟨_, rfl⟩
  · rw [if_neg (by rw [tcp]; decide), if_pos tcp, given]
    exact ⟨_, rfl⟩
  · rw [if_pos udp, given]
    exact ⟨_, rfl⟩

section Probe

variable {σ : Type} {system : System σ} {view : View σ} {chain : Chain} {p : ProbePacket}

/-- The chain is loaded. -/
def View.Loaded (view : View σ) (chain : Chain) (s : σ) : Prop :=
  view.rules s = loadedRules chain

/-- The chain is loaded behind the prefilter of the probe. -/
structure View.Narrowed (view : View σ) (chain : Chain) (p : ProbePacket) (s : σ) : Prop where
  loaded : view.Loaded chain s
  describes : ∀ a, view.passes s a → p.Describes a.header

/-- Only the counter of the decider may have moved. -/
structure View.Clean (view : View σ) (chain : Chain) (p : ProbePacket) (s : σ) : Prop where
  narrowed : view.Narrowed chain p s
  only : ∀ n, view.count s n ≠ 0 → n = counterOf chain p.arrival

theorem View.Narrowed.of_sameTables {s t : σ} (narrowed : view.Narrowed chain p s)
    (same : view.SameTables s t) : view.Narrowed chain p t where
  loaded := same.rules.trans narrowed.loaded
  describes a passes := narrowed.describes a ((same.passes a).mp passes)

theorem View.Clean.of_same {s t : σ} (clean : view.Clean chain p s) (same : view.Same s t) :
    view.Clean chain p t where
  narrowed := clean.narrowed.of_sameTables same.toSameTables
  only n moved := clean.only n (same.count n ▸ moved)

theorem System.Documented.sameTables (documented : system.Documented view) {s t : σ}
    (step : system.others s t) : view.SameTables s t := by
  obtain quiet | ⟨a, arrived⟩ := step
  · exact (documented.quiet s t quiet).toSameTables
  · exact documented.arriveTables a s t arrived

theorem System.Documented.stable_rules (documented : system.Documented view)
    (rules : List (Nat × Match)) : Stable system.others (fun s => view.rules s = rules) :=
  fun _ _ step loaded => (documented.sameTables step).rules.trans loaded

theorem System.Documented.stable_narrowed (documented : system.Documented view) :
    Stable system.others (view.Narrowed chain p) :=
  fun _ _ step narrowed => narrowed.of_sameTables (documented.sameTables step)

/-- What arrives now is decided like the packet of the probe. -/
theorem System.Documented.stable_clean (documented : system.Documented view)
    (routed : system.Routed) (drawn : Drawn p) (uniform : Uniform chain p) :
    Stable system.others (view.Clean chain p) := by
  rintro s t (quiet | ⟨a, arrived⟩) clean
  · exact clean.of_same (documented.quiet s t quiet)
  · refine ⟨clean.narrowed.of_sameTables (documented.arriveTables a s t arrived),
      fun n moved => ?_⟩
    by_cases still : view.count t n = view.count s n
    · exact clean.only n (still ▸ moved)
    · obtain ⟨passes, met, _⟩ := documented.arriveCounts a s t arrived n still
      have headers := clean.narrowed.describes a passes
      have interface := routed a s t arrived p.path (headers.src ▸ drawn.src)
      rw [show view.rules s = loadedRules chain from clean.narrowed.loaded,
        firstMet_loadedRules] at met
      rw [← Option.some.inj met, counterOf, counterOf, uniform a headers interface]

/-- A tool failed. -/
def External (e : ProbeError) (_ : σ) : Prop :=
  ∃ message, e = .external message

/-- A command between steps of the others. -/
theorem ensures_step {α : Type} {command : Command σ (Except String α)} {pre : σ → Prop}
    {post : α → σ → Prop} (before : Stable system.others pre)
    (after : ∀ a, Stable system.others (post a))
    (changes : ∀ a s t, pre s → command s (.ok a) t → post a t) :
    Ensures pre (system.step command) (onOk post External) := by
  have acts : Ensures pre command (onOk post fun e => External (.external e)) := by
    intro s result t holds ran
    cases result with
    | ok a => exact changes a s t holds ran
    | error e => exact ⟨e, rfl⟩
  exact ensures_failAs (ensures_atomic before acts (stable_onOk after fun _ _ _ _ => id))

theorem ensures_send (documented : system.Documented view) (routed : system.Routed)
    (drawn : Drawn p) (uniform : Uniform chain p) :
    Ensures (view.Clean chain p) (system.send p)
      (onOk (fun _ => view.Clean chain p) External) := by
  have clean := documented.stable_clean routed drawn uniform
  obtain ⟨sender, chosen⟩ := drawn.senderFor
  unfold System.send
  rw [chosen]
  exact ensures_step clean (fun _ => clean) fun _ s t holds started =>
    holds.of_same (documented.start sender s t started)

/-- Reading shows the decider's counter or none. -/
theorem ensures_readMoved (documented : system.Documented view) (routed : system.Routed)
    (numbered : Numbered chain) (drawn : Drawn p) (uniform : Uniform chain p) :
    Ensures (view.Clean chain p) system.readMoved
      (onOk (fun moved s => view.Clean chain p s ∧
        (moved = [] ∨ moved = [counterOf chain p.arrival])) External) := by
  have clean := documented.stable_clean routed drawn uniform
  have small : ∀ n ∈ (loadedRules chain).map Prod.fst, n ≤ Text.U32_MAX := by
    intro n member
    rw [loadedRules, List.map_append, List.map_map] at member
    rcases List.mem_append.mp member with ruled | sentinel
    · obtain ⟨r, rule, rfl⟩ := List.mem_map.mp ruled
      exact numbered.small r rule
    · rw [List.mem_singleton.mp sentinel]
      exact Nat.zero_le _
  have lists : Ensures (view.Clean chain p) (system.step (system.sh "nft" LIST))
      (onOk (fun text s => view.Clean chain p s ∧ ∃ moved,
        (counters text).map movedNumbers = .ok moved ∧
          (moved = [] ∨ moved = [counterOf chain p.arrival])) External) := by
    refine ensures_step clean (fun text s t step both => ⟨clean s t step both.1, both.2⟩) ?_
    intro text s t holds listed
    obtain ⟨same, listing⟩ := documented.list text s t listed
    rw [show view.rules s = loadedRules chain from holds.narrowed.loaded] at listing
    obtain ⟨entries, read, ordered, exact_⟩ :=
      counters_of_listing (fun n => Nat.le_of_lt_succ (view.count s n).isLt) small listing
    have only : ∀ n, (view.count s n).toNat ≠ 0 → n = counterOf chain p.arrival :=
      fun n moved => holds.only n (fun zero => moved (by rw [zero]; rfl))
    refine ⟨holds.of_same same, movedNumbers entries, ?_,
      movedNumbers_of_only ordered exact_ only⟩
    rw [read]
    rfl
  refine ensures_andThenOk lists fun text => ?_
  rintro s result t ⟨holds, moved, read, alone⟩ ⟨rfl, rfl⟩
  rw [read]
  exact ⟨holds, alone⟩

/-- The one counter names the verdict. -/
theorem shownVerdict_counterOf (numbered : Numbered chain) :
    shownVerdict chain p [counterOf chain p.arrival] = .ok (kernelVerdict chain p) := by
  unfold counterOf kernelVerdict arrivalVerdict
  cases decided : arrivalRule chain p.arrival with
  | none => rfl
  | some r =>
      have member := List.mem_of_find?_eq_some decided
      have found := Matching.find?_key numbered.distinct member
      -- No rule has the number of the sentinel.
      obtain ⟨n, number⟩ := Nat.exists_eq_succ_of_ne_zero (numbered.positive r member).ne'
      rw [number] at found
      simp only [number, shownVerdict, found]

/-- A failed probe says that no counter moved in time, or that a tool failed. -/
def Unanswered (p : ProbePacket) (e : ProbeError) (_ : σ) : Prop :=
  e = .silent p ∨ ∃ message, e = .external message

/-- Whatever arrives meanwhile, a probe shows the verdict of first match on its packet,
unless it fails for lack of an answer. -/
theorem ensures_probe (documented : system.Documented view) (routed : system.Routed)
    (numbered : Numbered chain) (drawn : Drawn p) (uniform : Uniform chain p) :
    Ensures (view.Loaded chain) (system.probe p chain)
      (onOk (fun v s => view.Loaded chain s ∧ v = kernelVerdict chain p) (Unanswered p)) := by
  have failed {α : Type} {good : α → σ → Prop} {pre : σ → Prop}
      {command : Command σ (Except ProbeError α)}
      (ensures : Ensures pre command (onOk good External)) :
      Ensures pre command (onOk good (Unanswered p)) := by
    refine ensures.imp fun result s holds => ?_
    cases result with
    | ok a => exact holds
    | error e => exact Or.inr holds
  have loaded : Stable system.others (view.Loaded chain) := documented.stable_rules _
  have narrowed : Stable system.others (view.Narrowed chain p) := documented.stable_narrowed
  have clean := documented.stable_clean routed drawn uniform
  have narrows : Ensures (view.Loaded chain)
      (system.step (system.loadRuleset (prefilterFor p)))
      (onOk (fun _ => view.Narrowed chain p) External) := by
    obtain ⟨f, chosen, describes⟩ := drawn.tupleOf
    rw [prefilterFor, chosen]
    refine ensures_step loaded (fun _ => narrowed) fun _ s t holds ran => ?_
    obtain ⟨passes, rules⟩ := documented.narrow p f chosen s t ran
    exact ⟨rules.trans holds, fun a passed => describes a ((passes a).mp passed)⟩
  have resets : Ensures (view.Narrowed chain p) (system.step (system.sh "nft" RESET))
      (onOk (fun _ => view.Clean chain p) External) := by
    refine ensures_step narrowed (fun _ => clean) fun out s t holds ran => ?_
    obtain ⟨same, zero⟩ := documented.reset out s t ran
    exact ⟨holds.of_sameTables same, fun n moved => absurd (zero n) moved⟩
  refine ensures_choose fun rounds => ?_
  unfold System.probeFor
  refine ensures_andThenOk (failed narrows) fun _ => ?_
  refine ensures_andThenOk (failed resets) fun _ => ?_
  refine ensures_andThenOk (failed (ensures_send documented routed drawn uniform)) fun _ => ?_
  refine ensures_andThenOk (failed (ensures_waitFor
    (ensures_readMoved documented routed numbered drawn uniform)
    (fun _ _ => Or.inl rfl) rounds)) fun moved => ?_
  refine ensures_done fun s both => ?_
  obtain ⟨holds, rfl | rfl⟩ := both
  · exact Or.inl rfl
  · rw [shownVerdict_counterOf numbered]
    exact ⟨holds.narrowed.loaded, rfl⟩

end Probe

end Fwdelta.Kerneldiff
