import Fwdelta.Cli.Check
import Fwdelta.Cli.Sha256

/-
The attestation of a comparison.

It names the texts that were compared by their digests and counts the outcomes of the
assertions.  A reader of its text learns which text the result is about, and whether
every assertion is established by traffic that rules of the head decide.
-/

namespace Fwdelta

def Outcome.label : Outcome → String
  | .pass => "PASS"
  | .fail _ => "FAIL"
  | .vacuous _ => "VACUOUS"

def Kind.asStr : Kind → String
  | .isolation => "isolation"
  | .reachability => "reachability"

namespace Cli.Attest

open JsonGrammar

/-! ### What is written -/

def PREDICATE_TYPE : String :=
  "https://github.com/Sbharadwaj05/fwdelta/attestation/policy-diff/v1"

def STATEMENT_TYPE : String := "https://in-toto.io/Statement/v1"

/-- One analysed input. -/
structure Input where
  role : String
  label : String
  text : String

def digestJson (digest : String) : Json :=
  .obj [("sha256", .str digest)]

def inputJson (i : Input) (digest : String) : Json :=
  .obj [("role", .str i.role), ("name", .str i.label), ("digest", digestJson digest)]

def subjectJson (i : Input) (digest : String) : Json :=
  .obj [("name", .str i.label), ("digest", digestJson digest)]

def modelBoundaries : Json :=
  .obj [
    ("headerBits", .num HEADER_BITS),
    ("dimensions", .arr (["srcAddr", "dstAddr", "srcPort", "dstPort", "protocol",
      "inputInterface", "outputInterface"].map Json.str)),
    ("approximations", .obj [
      ("statefulness", .str ("stateless. New connections in the forward direction are governed " ++
        "by the ruleset; return traffic for permitted connections is assumed permitted. " ++
        "Rulesets whose security depends on connection tracking are rejected at parse time " ++
        "rather than approximated.")),
      ("nat", .str ("not modelled. Address translation changes packet identity in transit; a " ++
        "ruleset containing NAT is rejected rather than analysed with NAT ignored.")),
      ("scope", .str ("one host's filter table. Not end-to-end reachability, which also depends " ++
        "on routing and on other devices.")),
      ("addressFamily", .str "IPv4 only. The header layout is 32-bit; IPv6 is not analysed."),
      ("portsOnPortlessProtocols", .str ("every packet is given source and destination ports, " ++
        "including ICMP. Sound only because the frontend requires a port match to pin a " ++
        "protocol that has ports.")),
      ("frontendSubset", .str ("a documented subset of nftables. Every construct outside it is " ++
        "a hard error, so no rule was silently skipped."))]),
    ("establishes", .str ("the modelled ruleset permits exactly the packet set computed, under " ++
      "the model above, and satisfies the assertions reported as PASS.")),
    ("doesNotEstablish", .arr ([
      "that the assertions are the right assertions",
      "that the device implements nftables faithfully",
      "that the configuration deployed is the configuration analysed",
      "anything about NAT, routing, or other devices",
      "anything about assertions reported as VACUOUS, which held trivially"].map Json.str))]

def ipv4 (v : BitVec 32) : String :=
  toString (v >>> 24).toNat ++ "." ++ toString ((v >>> 16) &&& 0xff).toNat ++ "." ++
    toString ((v >>> 8) &&& 0xff).toNat ++ "." ++ toString (v &&& 0xff).toNat

def outcomeFields : Outcome → List (String × Json)
  | .pass => []
  | .fail p => [("counterexample", .obj [
      ("src", .str (ipv4 p.src)),
      ("dst", .str (ipv4 p.dst)),
      ("srcPort", .num p.sport.toNat),
      ("dstPort", .num p.dport.toNat),
      ("protocol", .num p.proto.toNat)])]
  | .vacuous reason => [("vacuousBecause", .str reason)]

def assertionJson (r : Report) : Json :=
  .obj (
    ("name", .str r.name) ::
    ("kind", .str r.kind.asStr) ::
    ("chain", .str r.chain) ::
    ("claim", .str r.summary) ::
    ("outcome", .str r.outcome.label) :: outcomeFields r.outcome)

def isPass : Outcome → Bool
  | .pass => true
  | _ => false

def summaryJson (assertions : List Report) : Json :=
  .obj [
    ("checked", .num assertions.length),
    ("passed", .num (assertions.countP (fun a => isPass a.outcome))),
    ("failed", .num (assertions.countP (fun a => failed a.outcome))),
    ("vacuous", .num (assertions.countP (fun a => vacuous a.outcome)))]

def predicateJson (inputs : List Json) (assertions : List Report) (delta : Json)
    (commit : Option String) : Json :=
  .obj ([("tool", toolJson), ("inputs", .arr inputs)] ++
    commit.toList.map (fun c => ("commit", Json.str c)) ++ [
    ("modelBoundaries", modelBoundaries),
    ("delta", delta),
    ("assertions", .arr (assertions.map assertionJson)),
    ("summary", summaryJson assertions),
    ("signing", .str ("this predicate is unsigned by design; sign it detached with your own " ++
      "tooling. fwdelta holds no key material."))])

/-- The statement, where the digests are printed. -/
def statement (inputs : List Input) (assertions : List Report) (delta : Json)
    (commit : Option String) : Option Json := do
  let subject ← (inputs.filter (fun i => i.role == "head")).mapM
    (fun i => (Sha256.hexDigest i.text).map (subjectJson i))
  let listed ← inputs.mapM (fun i => (Sha256.hexDigest i.text).map (inputJson i))
  some (.obj [
    ("_type", .str STATEMENT_TYPE),
    ("subject", .arr subject),
    ("predicateType", .str PREDICATE_TYPE),
    ("predicate", predicateJson listed assertions delta commit)])

section Delta

variable {B : Type} [DecisionDiagram.PathLibrary HEADER_BITS B]

end Delta

/-! ### The text is read back -/

section Run

variable {B : Type} [DecisionDiagram.PathLibrary HEADER_BITS B] [ContentHasher]

end Run

end Cli.Attest

end Fwdelta
