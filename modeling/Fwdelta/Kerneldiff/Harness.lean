import Fwdelta.Bits
import Fwdelta.Kerneldiff.Coverage
import Fwdelta.Kerneldiff.Fault

/-
The harness: rounds of generated chains and probes, and the exit codes.

An oracle loads a chain and answers probes.  What the harness concludes is proved for
any oracle, and for one that shows first match whenever it answers.  The kernel is
such an oracle, whatever arrives while it is probed.
-/

namespace Fwdelta.Kerneldiff

open DecisionDiagram
open Interference
open Outcomes

structure Args where
  rules : Nat
  packets : Nat
  seed : BitVec 64
  rounds : Nat
  fault : Option Fault
  selfTest : Bool

def Args.defaults : Args where
  rules := 40
  packets := 60
  seed := 0x20260815
  rounds := 3
  fault := none
  selfTest := false

/-- What a round needs from the system under test. -/
structure Oracle (σ : Type) where
  prepare : Chain → Command σ (Except ProbeError Unit)
  probe : ProbePacket → Chain → Command σ (Except ProbeError Verdict)

inductive RoundError
  | inexpressible
  | roundtrip (error : RoundtripError)
  | setup (error : ProbeError)
  | interfaces (error : TooManyInterfaces)
  | verify (message : String)
  | probe (p : ProbePacket) (error : ProbeError)
  | model (error : ModelError)
  | disagreement (p : ProbePacket) (kernel ours : Verdict)

/-! ### Rounds -/

section Rounds

variable {σ : Type}

/-- The loop over the packets of a round.  Coverage is not looked at after a failure. -/
def checkPackets (oracle : Oracle σ) (chain : Chain)
    (judged : ProbePacket → Except ModelError Verdict) :
    Nat → Rng → Nat → Coverage → Command σ (Except RoundError (Nat × Coverage))
  | 0, _, checked, cov => done (.ok (checked, cov))
  | left + 1, rng, checked, cov =>
      let drawn := randomPacket.run rng
      andThenOk (failAs (.probe drawn.1) (oracle.probe drawn.1 chain)) fun kernel =>
        match judged drawn.1 with
        | .error e => done (.error (.model e))
        | .ok ours =>
            if kernel ≠ ours then done (.error (.disagreement drawn.1 kernel ours))
            else checkPackets oracle chain judged left drawn.2 (checked + 1) (cov.record drawn.1)

def Args.roundSeed (args : Args) (round : Nat) : BitVec 64 :=
  args.seed + BitVec.ofNat 64 round * 0x9E3779B9

def Args.chain (args : Args) (round : Nat) : Chain :=
  generate args.rules (args.roundSeed round)

/-- The chain that the model sees. -/
def Args.modelled (args : Args) (chain : Chain) : Chain :=
  match args.fault with
  | some f => f.corrupt chain
  | none => chain

variable (B : Type) [Library HEADER_BITS B] [ContentHasher]

def runRound (oracle : Oracle σ) (args : Args) (round : Nat) (cov : Coverage) :
    Command σ (Except RoundError (Nat × Coverage)) :=
  let chain := args.chain round
  match Emit.chain TABLE chain with
  | none => done (.error .inexpressible)
  | some _ =>
      match Kerneldiff.roundtrip chain with
      | .error e => done (.error (.roundtrip e))
      | .ok () =>
          andThenOk (failAs .setup (oracle.prepare chain)) fun _ =>
            match SymbolTable.fromNames IFACES with
            | .error e => done (.error (.interfaces e))
            | .ok syms =>
                let layout : Layout := ⟨.addrInterleaved⟩
                let model : ChainModel B := analyse layout syms (args.modelled chain)
                match (if args.fault.isNone then model.verify else .ok ()) with
                | .error message => done (.error (.verify message))
                | .ok () =>
                    checkPackets oracle chain (modelVerdict layout syms model) args.packets
                      ⟨args.roundSeed round ^^^ 0xDEADBEEF⟩ 0 cov

/-- The loop over rounds, up to the first that fails. -/
def runRounds (oracle : Oracle σ) (args : Args) :
    List Nat → Nat → Coverage → Command σ (Except (Nat × RoundError) (Nat × Coverage))
  | [], total, cov => done (.ok (total, cov))
  | round :: rest, total, cov =>
      andThenOk (failAs (Prod.mk round) (runRound B oracle args round cov)) fun out =>
        runRounds oracle args rest (total + out.1) out.2

/-- The faults that no round told. -/
def undetected (oracle : Oracle σ) (args : Args) : List Fault → Command σ (List Fault)
  | [] => done []
  | fault :: rest =>
      andThen (runRounds B oracle { args with fault := some fault } (List.range args.rounds) 0
        .empty) fun out =>
          andThen (undetected oracle args rest) fun later =>
            done (match out with
              | .ok _ => fault :: later
              | .error _ => later)

def selfTest (oracle : Oracle σ) (args : Args) : Command σ Nat :=
  andThen (undetected B oracle args Fault.ALL) fun faults =>
    done (if faults.isEmpty then 0 else 1)

/-- The exit code, once the namespaces are set up. -/
def harness (oracle : Oracle σ) (args : Args) : Command σ Nat :=
  if args.selfTest then selfTest B oracle args
  else
    andThen (runRounds B oracle args (List.range args.rounds) 0 .empty) fun out =>
      done (match out with
        | .error _ => if args.fault.isSome then 0 else 1
        | .ok (_, cov) => if args.fault.isSome then 1 else if cov.complete then 0 else 1)

end Rounds

/-! ### What a round sends -/

def packetsFrom : Nat → Rng → List ProbePacket
  | 0, _ => []
  | left + 1, rng =>
      let drawn := randomPacket.run rng
      drawn.1 :: packetsFrom left drawn.2

def Args.sentIn (args : Args) (round : Nat) : List ProbePacket :=
  packetsFrom args.packets ⟨args.roundSeed round ^^^ 0xDEADBEEF⟩

def Args.sent (args : Args) : List ProbePacket :=
  (List.range args.rounds).flatMap args.sentIn

theorem drawn_of_mem_packetsFrom {n : Nat} {rng : Rng} {p : ProbePacket}
    (member : p ∈ packetsFrom n rng) : Drawn p := by
  induction n generalizing rng with
  | zero => contradiction
  | succ left ih =>
      rcases List.mem_cons.mp member with rfl | later
      · exact randomPacket_drawn rng
      · exact ih later

/-! ### Seeds -/

/-- The generator after one draw. -/
def Rng.stepped (rng : Rng) : Rng :=
  (Rng.next.run rng).2

theorem stepped_injective : Function.Injective Rng.stepped := by
  rintro ⟨x⟩ ⟨y⟩ same
  have third := Bits.xor_shiftLeft_injective (by decide) (congrArg Rng.state same)
  have second := Bits.xor_shiftRight_injective (by decide) third
  have first := Bits.xor_shiftLeft_injective (by decide) second
  rw [show x = y from first]

/-- No other state leads to zero, and zero leads nowhere else. -/
theorem stepped_iterate_eq_zero (rng : Rng) (n : Nat) :
    Rng.stepped^[n] rng = ⟨0⟩ ↔ rng = ⟨0⟩ := by
  have stuck : Rng.stepped^[n] ⟨0⟩ = ⟨0⟩ := Function.iterate_fixed rfl n
  constructor
  · intro reached
    exact stepped_injective.iterate n (reached.trans stuck.symm)
  · rintro rfl
    exact stuck

/-- The multiplier is odd, so rounds have seeds of their own. -/
theorem roundSeed_inj {args : Args} {r r' : Nat} (bound : r < 2 ^ 64) (bound' : r' < 2 ^ 64)
    (same : args.roundSeed r = args.roundSeed r') : r = r' := by
  have inverse (v : BitVec 64) : v * 0x9E3779B9 * 0xe85ee980144cbc89 = v := by
    have unit : (0x9E3779B9 : BitVec 64) * 0xe85ee980144cbc89 = 1#64 := by decide
    rw [BitVec.mul_assoc, unit, BitVec.mul_one]
  have multiples := (BitVec.add_right_inj args.seed).mp same
  have counters := congrArg (· * (0xe85ee980144cbc89 : BitVec 64)) multiples
  simp only [inverse] at counters
  have values := congrArg BitVec.toNat counters
  rwa [BitVec.toNat_ofNat, BitVec.toNat_ofNat, Nat.mod_eq_of_lt bound,
    Nat.mod_eq_of_lt bound'] at values

theorem mem_packetsFrom_zero {n : Nat} {p : ProbePacket} (member : p ∈ packetsFrom n ⟨0⟩) :
    p = (randomPacket.run ⟨0⟩).1 := by
  induction n with
  | zero => contradiction
  | succ left ih =>
      rcases List.mem_cons.mp member with rfl | later
      · rfl
      · exact ih later

/-- The generators of two rounds never meet after the same number of draws.  Packets are
drawn from a generator that is stuck only where the seed of the round is one value, and
such a round sends one packet over and over. -/
theorem rounds_never_meet (args : Args) :
    (∀ r r', r < 2 ^ 64 → r' < 2 ^ 64 → r ≠ r' → ∀ n,
      Rng.stepped^[n] ⟨args.roundSeed r⟩ ≠ Rng.stepped^[n] ⟨args.roundSeed r'⟩ ∧
        Rng.stepped^[n] ⟨args.roundSeed r ^^^ 0xDEADBEEF⟩ ≠
          Rng.stepped^[n] ⟨args.roundSeed r' ^^^ 0xDEADBEEF⟩) ∧
    ∀ round, (∀ n, (Rng.stepped^[n] ⟨args.roundSeed round ^^^ 0xDEADBEEF⟩).state = 0 ↔
        args.roundSeed round = 0xDEADBEEF) ∧
      (args.roundSeed round = 0xDEADBEEF →
        ∀ p ∈ args.sentIn round, ∀ q ∈ args.sentIn round, p = q) := by
  have zero {seed : BitVec 64} : seed ^^^ 0xDEADBEEF = 0 ↔ seed = 0xDEADBEEF :=
    BitVec.xor_eq_zero_iff
  refine ⟨fun r r' bound bound' differ n => ?_, fun round => ⟨fun n => ?_, fun bad p hp q hq => ?_⟩⟩
  · refine ⟨fun same => differ ?_, fun same => differ ?_⟩
    · exact roundSeed_inj bound bound' (Rng.mk.inj (stepped_injective.iterate n same))
    · have states := Rng.mk.inj (stepped_injective.iterate n same)
      exact roundSeed_inj bound bound' ((BitVec.xor_left_inj _).mp states)
  · have stuck := stepped_iterate_eq_zero ⟨args.roundSeed round ^^^ 0xDEADBEEF⟩ n
    rw [← zero]
    exact ⟨fun state => congrArg Rng.state (stuck.mp (congrArg Rng.mk state)),
      fun seed => congrArg Rng.state (stuck.mpr (congrArg Rng.mk seed))⟩
  · rw [Args.sentIn, zero.mpr bad] at hp hq
    rw [mem_packetsFrom_zero hp, mem_packetsFrom_zero hq]

theorem GeneratedChain.survives {n : Nat} {chain : Chain} (generated : GeneratedChain n chain) :
    (∃ text, Emit.chain TABLE chain = some text) ∧ Kerneldiff.roundtrip chain = .ok () := by
  obtain ⟨text, written⟩ :=
    Option.isSome_iff_exists.mp (Emit.chainWith_isSome TABLE generated.parsed false)
  exact ⟨Option.isSome_iff_exists.mp (Emit.chainWith_isSome TABLE generated.parsed true),
    roundtrip_of_readsAs written (generated.faithful text written)⟩

theorem generate_built (n : Nat) (seed : BitVec 64) : (generate n seed).Built := by
  have always : Always ((List.range n).foldlM (fun (chain : Chain) i => do
      let rule ← drawRule
      pure (chain.push rule.1 rule.2
        { file := "generated", line := i + 1, column := 1, text := "" }))
      (Chain.new "input" .input (if seed.toNat % 2 = 0 then .drop else .accept))) Chain.Built :=
    @always_foldlM _ _ _ _ (fun _ => Chain.Built) _ 0 _ (.new _ _ _) fun k chain i built =>
      always_bind (always_of_forall fun rule => always_pure (built.push rule.1 rule.2 _))
  exact always ⟨seed⟩

theorem Args.chain_generated (args : Args) (round : Nat) :
    GeneratedChain args.rules (args.chain round) :=
  generate_generated args.rules (args.roundSeed round)

theorem Args.chain_probeable (args : Args) (round : Nat) : Probeable (args.chain round) :=
  ⟨(generate_built args.rules (args.roundSeed round)).numbers_nodup,
    fun r member => ((args.chain_generated round).rules r member).oif⟩

theorem Args.modelled_probeable (args : Args) (round : Nat) :
    Probeable (args.modelled (args.chain round)) := by
  unfold Args.modelled
  cases args.fault with
  | none => exact args.chain_probeable round
  | some f => exact (args.chain_probeable round).corrupt f

theorem exists_ifaces : ∃ syms, SymbolTable.fromNames IFACES = .ok syms ∧
    ∀ name, name ∈ syms.names ↔ name ∈ IFACES := by
  have few : IFACES.toFinset.card ≤ MAX_INTERFACES :=
    (List.toFinset_card_le IFACES).trans (by decide)
  obtain ⟨syms, built⟩ := SymbolTable.exists_fromNames few
  exact ⟨syms, built, SymbolTable.mem_of_fromNames built⟩

section Rounds

variable {σ : Type}

/-- The model shows what first match on a chain gives to all arrivals of a probe. -/
def Shown (chain : Chain) (judged : ProbePacket → Except ModelError Verdict) : Prop :=
  ∀ p, Drawn p → ∀ v, judged p = .ok v ↔ ∀ a, p.Covers a → arrivalVerdict chain a = v

/-- The model of a generated chain shows the verdicts of the chain. -/
theorem Shown.judged_eq {n : Nat} {chain : Chain} (generated : GeneratedChain n chain)
    {judged : ProbePacket → Except ModelError Verdict} (shown : Shown chain judged)
    {p : ProbePacket} (drawn : Drawn p) : judged p = .ok (kernelVerdict chain p) :=
  (shown p drawn _).mpr fun _ => generated.arrivalVerdict_eq drawn

/-! ### What a passing run means -/

/-- The oracle gave each packet the verdict of first match on the chain. -/
inductive Answered (oracle : Oracle σ) (chain : Chain) : List ProbePacket → σ → σ → Prop
  | nil (s : σ) : Answered oracle chain [] s s
  | cons {p : ProbePacket} {rest : List ProbePacket} {s u t : σ}
      (answer : oracle.probe p chain s (.ok (kernelVerdict chain p)) u)
      (later : Answered oracle chain rest u t) : Answered oracle chain (p :: rest) s t

/-- Each round loaded its chain and had its packets answered. -/
inductive Passed (oracle : Oracle σ) (args : Args) : List Nat → σ → σ → Prop
  | nil (s : σ) : Passed oracle args [] s s
  | cons {round : Nat} {rest : List Nat} {s u v t : σ}
      (prepared : oracle.prepare (args.chain round) s (.ok ()) u)
      (answered : Answered oracle (args.chain round) (args.sentIn round) u v)
      (later : Passed oracle args rest v t) : Passed oracle args (round :: rest) s t

theorem checkPackets_ok_iff {oracle : Oracle σ} {chain : Chain}
    {judged : ProbePacket → Except ModelError Verdict}
    (judges : ∀ p, Drawn p → judged p = .ok (kernelVerdict chain p)) {n : Nat} {rng : Rng}
    {checked : Nat} {cov : Coverage} {s t : σ} {out : Nat × Coverage} :
    checkPackets oracle chain judged n rng checked cov s (.ok out) t ↔
      out = (checked + n, (packetsFrom n rng).foldl Coverage.record cov) ∧
        Answered oracle chain (packetsFrom n rng) s t := by
  induction n generalizing rng checked cov s with
  | zero =>
      constructor
      · rintro ⟨same, rfl⟩
        exact ⟨Except.ok.inj same, .nil _⟩
      · rintro ⟨rfl, answered⟩
        cases answered
        exact ⟨rfl, rfl⟩
  | succ left ih =>
      have drawn := randomPacket_drawn rng
      unfold checkPackets packetsFrom
      rw [andThenOk_ok_iff]
      simp only [failAs_ok_iff, judges _ drawn]
      rw [List.foldl_cons, Nat.add_comm left 1, ← Nat.add_assoc]
      constructor
      · rintro ⟨kernel, u, answer, later⟩
        by_cases agrees : kernel = kernelVerdict chain (randomPacket.run rng).1
        · rw [if_neg (not_not.mpr agrees), ih] at later
          rw [agrees] at answer
          exact ⟨later.1, .cons answer later.2⟩
        · rw [if_pos agrees] at later
          exact absurd later.1 nofun
      · rintro ⟨rfl, answered⟩
        cases answered with
        | cons answer later =>
            refine ⟨_, _, answer, ?_⟩
            rw [if_neg (not_not.mpr rfl), ih]
            exact ⟨rfl, later⟩

variable {B : Type} [Library HEADER_BITS B] [ContentHasher]

theorem verify_analyse (layout : Layout) (syms : SymbolTable) (chain : Chain) :
    (analyse layout syms chain : ChainModel B).verify = .ok () := by
  unfold ChainModel.verify
  rw [partitionHolds_analyse, forwardAccept_analyse, (Library.beq_iff _ _).mpr rfl]
  rfl

/-- A round comes to its packets once the chain is loaded. -/
theorem runRound_eq (oracle : Oracle σ) (args : Args) (round : Nat) :
    ∃ judged, Shown (args.modelled (args.chain round)) judged ∧ ∀ cov,
      runRound B oracle args round cov =
        andThenOk (failAs .setup (oracle.prepare (args.chain round))) fun _ =>
          checkPackets oracle (args.chain round) judged args.packets
            ⟨args.roundSeed round ^^^ 0xDEADBEEF⟩ 0 cov := by
  obtain ⟨⟨text, written⟩, survived⟩ := (args.chain_generated round).survives
  obtain ⟨syms, built, named⟩ := exists_ifaces
  refine ⟨modelVerdict ⟨.addrInterleaved⟩ syms
    (analyse ⟨.addrInterleaved⟩ syms (args.modelled (args.chain round)) : ChainModel B),
    fun p drawn v => ?_, fun cov => ?_⟩
  · refine modelVerdict_ok_iff _ (args.modelled_probeable round) drawn ((named _).mpr ?_) v
    cases p.path <;> decide
  · unfold runRound
    simp only [written, survived, built, verify_analyse, ite_self]

theorem runRound_ok_iff {oracle : Oracle σ} {args : Args} (plain : args.fault = none)
    {round : Nat} {cov : Coverage} {s t : σ} {out : Nat × Coverage} :
    runRound B oracle args round cov s (.ok out) t ↔
      out = (args.packets, (args.sentIn round).foldl Coverage.record cov) ∧
        ∃ u, oracle.prepare (args.chain round) s (.ok ()) u ∧
          Answered oracle (args.chain round) (args.sentIn round) u t := by
  obtain ⟨judged, shown, same⟩ := runRound_eq (B := B) oracle args round
  rw [Args.modelled, plain] at shown
  rw [same cov, andThenOk_ok_iff]
  simp only [failAs_ok_iff, checkPackets_ok_iff
    (fun p drawn => shown.judged_eq (args.chain_generated round) drawn), Nat.zero_add]
  constructor
  · rintro ⟨_, u, prepared, equal, answered⟩
    exact ⟨equal, u, prepared, answered⟩
  · rintro ⟨equal, u, prepared, answered⟩
    exact ⟨(), u, prepared, equal, answered⟩

theorem runRounds_ok_iff {oracle : Oracle σ} {args : Args} (plain : args.fault = none)
    {rounds : List Nat} {total : Nat} {cov : Coverage} {s t : σ} {out : Nat × Coverage} :
    runRounds B oracle args rounds total cov s (.ok out) t ↔
      out = (total + rounds.length * args.packets,
        (rounds.flatMap args.sentIn).foldl Coverage.record cov) ∧
          Passed oracle args rounds s t := by
  induction rounds generalizing total cov s with
  | nil =>
      rw [List.length_nil, Nat.zero_mul, Nat.add_zero]
      constructor
      · rintro ⟨same, rfl⟩
        exact ⟨Except.ok.inj same, .nil _⟩
      · rintro ⟨rfl, passed⟩
        cases passed
        exact ⟨rfl, rfl⟩
  | cons round rest ih =>
      unfold runRounds
      rw [andThenOk_ok_iff, List.length_cons, Nat.succ_mul, Nat.add_comm (_ * _), ← Nat.add_assoc,
        List.flatMap_cons, List.foldl_append]
      simp only [failAs_ok_iff, runRound_ok_iff plain, ih]
      constructor
      · rintro ⟨_, v, ⟨rfl, u, prepared, answered⟩, equal, later⟩
        exact ⟨equal, .cons prepared answered later⟩
      · rintro ⟨equal, passed⟩
        cases passed with
        | cons prepared answered later =>
            exact ⟨_, _, ⟨rfl, _, prepared, answered⟩, equal, later⟩

/-- Whatever the oracle does, a run without a fault passes exactly when it gave every
packet of every round the verdict of first match, and every dimension varied. -/
theorem harness_passes_iff {oracle : Oracle σ} {args : Args} (plain : args.fault = none)
    (single : args.selfTest = false) {s t : σ} :
    harness B oracle args s 0 t ↔
      AllVary args.sent ∧ Passed oracle args (List.range args.rounds) s t := by
  have covers : Coverage.Of args.sent (args.sent.foldl Coverage.record .empty) :=
    Coverage.of_nil.foldl
  rw [← covers.complete_iff]
  unfold harness andThen done
  rw [if_neg (by rw [single]; exact Bool.false_ne_true), plain]
  constructor
  · rintro ⟨out, u, ran, code, rfl⟩
    cases out with
    | error e => contradiction
    | ok out =>
        obtain ⟨rfl, passed⟩ := (runRounds_ok_iff plain).mp ran
        refine ⟨?_, passed⟩
        by_contra incomplete
        exact absurd (code.trans (if_neg incomplete)) (by decide)
  · rintro ⟨complete, passed⟩
    exact ⟨.ok _, t, (runRounds_ok_iff plain).mpr ⟨rfl, passed⟩, (if_pos complete).symm, rfl⟩

end Rounds

/-- An oracle that fails every probe passes no run of the usual length. -/
theorem defaults_fail_without_answers : letI : ContentHasher := ⟨fun _ _ => 0⟩
    ¬ harness (Diagram HEADER_BITS)
      { prepare := fun _ => done (.ok ()), probe := fun p _ => done (.error (.silent p)) }
      Args.defaults () 0 () := by
  let _ : ContentHasher := ⟨fun _ _ => 0⟩
  rw [harness_passes_iff rfl rfl]
  rintro ⟨_, passed⟩
  cases passed with
  | cons prepared answered later =>
      cases answered with
      | cons answer later => exact absurd answer.1 nofun

end Fwdelta.Kerneldiff
