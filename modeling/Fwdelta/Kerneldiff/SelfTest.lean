import Fwdelta.Kerneldiff.Kernel

/-
What the harness finds on an oracle that shows first match.

With the chain itself as the model, nothing but a missing answer stops a run.  With a
corrupted chain, the rounds stop where a packet tells the fault, and only a fault that
no packet tells goes undetected.
-/

namespace Fwdelta.Kerneldiff

open DecisionDiagram
open Interference

/-! ### Rounds on a sound oracle -/

/-- A round that ends for lack of an answer. -/
inductive NoAnswer : RoundError → Prop
  | setup (message : String) : NoAnswer (.setup (.external message))
  | external (p : ProbePacket) (message : String) : NoAnswer (.probe p (.external message))
  | silent (p : ProbePacket) : NoAnswer (.probe p (.silent p))

/-- The model has no verdict on the packet, or another one than first match on the chain. -/
inductive Blames (chain : Chain) (p : ProbePacket) : RoundError → Prop
  | model (e : ModelError) : Blames chain p (.model e)
  | disagreement (ours : Verdict) (differ : kernelVerdict chain p ≠ ours) :
      Blames chain p (.disagreement p (kernelVerdict chain p) ours)

/-- Some arrival of the probe is decided differently by the modelled chain. -/
def Differs (modelled chain : Chain) (p : ProbePacket) : Prop :=
  ∃ a, p.Covers a ∧ arrivalVerdict modelled a ≠ kernelVerdict chain p

/-- A probe that tells the fault from the chain. -/
def Tells (f : Fault) (chain : Chain) (p : ProbePacket) : Prop :=
  Differs (f.corrupt chain) chain p

/-- One of the packets was told apart, or there was no answer. -/
def Stopped (modelled chain : Chain) (packets : List ProbePacket) (e : RoundError) : Prop :=
  NoAnswer e ∨ ∃ p ∈ packets, Differs modelled chain p ∧ Blames chain p e

theorem Stopped.cons {modelled chain : Chain} {packets : List ProbePacket} {e : RoundError}
    (stopped : Stopped modelled chain packets e) (p : ProbePacket) :
    Stopped modelled chain (p :: packets) e := by
  refine stopped.imp id ?_
  rintro ⟨q, member, both⟩
  exact ⟨q, List.mem_cons_of_mem _ member, both⟩

section Sound

variable {σ : Type} {oracle : Oracle σ} {ready : Chain → σ → Prop}

theorem Shown.differs_iff {modelled chain : Chain}
    {judged : ProbePacket → Except ModelError Verdict} (shown : Shown modelled judged)
    {p : ProbePacket} (drawn : Drawn p) :
    Differs modelled chain p ↔ judged p ≠ .ok (kernelVerdict chain p) := by
  rw [ne_eq, shown p drawn]
  unfold Differs
  push Not
  rfl

theorem Oracle.Sound.ensures_answer (sound : oracle.Sound ready) {n : Nat}
    (few : n ≤ Text.U32_MAX) (seed : BitVec 64) {p : ProbePacket} (drawn : Drawn p)
    {bad : RoundError → σ → Prop} (unanswered : ∀ e s, NoAnswer e → bad e s) :
    Ensures (ready (generate n seed))
      (failAs (RoundError.probe p) (oracle.probe p (generate n seed)))
      (onOk (fun v s => ready (generate n seed) s ∧ v = kernelVerdict (generate n seed) p)
        bad) := by
  refine ensures_failAs ((sound.probe n seed p few drawn).imp fun result s holds => ?_)
  cases result with
  | ok v => exact holds
  | error e =>
      rcases holds with rfl | ⟨message, rfl⟩
      · exact unanswered _ s (.silent p)
      · exact unanswered _ s (.external p message)

theorem Oracle.Sound.ensures_prepared (sound : oracle.Sound ready) (n : Nat) (seed : BitVec 64)
    {bad : RoundError → σ → Prop} (unanswered : ∀ e s, NoAnswer e → bad e s) :
    Ensures (fun _ => True) (failAs RoundError.setup (oracle.prepare (generate n seed)))
      (onOk (fun _ => ready (generate n seed)) bad) := by
  refine ensures_failAs ((sound.prepare n seed).imp fun result s holds => ?_)
  cases result with
  | ok _ => exact holds
  | error e =>
      obtain ⟨message, rfl⟩ := holds
      exact unanswered _ s (.setup message)

/-- The packets before the end of a round were not told apart. -/
theorem ensures_checkPackets (sound : oracle.Sound ready) {rules : Nat}
    (few : rules ≤ Text.U32_MAX) (seed : BitVec 64) {modelled : Chain}
    {judged : ProbePacket → Except ModelError Verdict} (shown : Shown modelled judged) (n : Nat)
    (rng : Rng) (checked : Nat) (cov : Coverage) :
    Ensures (ready (generate rules seed))
      (checkPackets oracle (generate rules seed) judged n rng checked cov)
      (onOk (fun out _ =>
          out = (checked + n, (packetsFrom n rng).foldl Coverage.record cov) ∧
            ∀ p ∈ packetsFrom n rng, ¬ Differs modelled (generate rules seed) p)
        (fun e _ => Stopped modelled (generate rules seed) (packetsFrom n rng) e)) := by
  induction n generalizing rng checked cov with
  | zero => exact ensures_done fun s _ => ⟨rfl, fun p member => absurd member List.not_mem_nil⟩
  | succ left ih =>
      have drawn := randomPacket_drawn rng
      have differs : Differs modelled (generate rules seed) _ ↔ _ := shown.differs_iff drawn
      unfold checkPackets packetsFrom
      refine ensures_andThenOk (sound.ensures_answer few seed drawn
        fun e s => Or.inl) fun kernel => ?_
      intro s result t holds
      obtain ⟨isReady, rfl⟩ := holds
      -- The model has no verdict, another one, or that of the kernel.
      cases verdict : judged (randomPacket.run rng).1 with
      | error e =>
          rintro ⟨rfl, rfl⟩
          exact Or.inr ⟨_, List.mem_cons_self,
            differs.mpr (by simp [verdict]), .model e⟩
      | ok ours =>
          by_cases agrees : kernelVerdict (generate rules seed) (randomPacket.run rng).1 = ours
          · simp only [agrees, ne_eq, not_true_eq_false, if_false]
            intro ran
            have same := ih _ _ _ s result t isReady ran
            cases result with
            | ok out =>
                refine ⟨?_, fun p member => ?_⟩
                · rw [same.1, List.foldl_cons, Nat.add_assoc, Nat.add_comm 1]
                · rcases List.mem_cons.mp member with rfl | later
                  · rw [differs, verdict, agrees]
                    exact not_not.mpr rfl
                  · exact same.2 p later
            | error e => exact Stopped.cons same _
          · simp only [if_pos (show _ ≠ _ from agrees)]
            rintro ⟨rfl, rfl⟩
            refine Or.inr ⟨_, List.mem_cons_self, differs.mpr ?_, .disagreement ours agrees⟩
            rw [verdict]
            exact fun same => agrees (Except.ok.inj same).symm

variable {B : Type} [Library HEADER_BITS B] [ContentHasher]

theorem ensures_runRound (sound : oracle.Sound ready) {args : Args}
    (few : args.rules ≤ Text.U32_MAX) (round : Nat) (cov : Coverage) :
    Ensures (fun _ => True) (runRound B oracle args round cov)
      (onOk (fun out _ => out = (args.packets, (args.sentIn round).foldl Coverage.record cov) ∧
          ∀ p ∈ args.sentIn round, ¬ Differs (args.modelled (args.chain round))
            (args.chain round) p)
        (fun e _ => Stopped (args.modelled (args.chain round)) (args.chain round)
          (args.sentIn round) e)) := by
  obtain ⟨judged, shown, same⟩ := runRound_eq (B := B) oracle args round
  rw [same cov]
  refine ensures_andThenOk
    (sound.ensures_prepared args.rules (args.roundSeed round) fun e s => Or.inl) fun _ => ?_
  have checked := ensures_checkPackets sound few (args.roundSeed round) shown args.packets
    ⟨args.roundSeed round ^^^ 0xDEADBEEF⟩ 0 cov
  rwa [Nat.zero_add] at checked

/-- The rounds end with all packets counted and none told apart, or at a round that stopped. -/
theorem ensures_runRounds (sound : oracle.Sound ready) {args : Args}
    (few : args.rules ≤ Text.U32_MAX) (rounds : List Nat) (total : Nat) (cov : Coverage) :
    Ensures (fun _ => True) (runRounds B oracle args rounds total cov)
      (onOk (fun out _ => out = (total + rounds.length * args.packets,
          (rounds.flatMap args.sentIn).foldl Coverage.record cov) ∧
            ∀ round ∈ rounds, ∀ p ∈ args.sentIn round,
              ¬ Differs (args.modelled (args.chain round)) (args.chain round) p)
        (fun e _ => e.1 ∈ rounds ∧ Stopped (args.modelled (args.chain e.1)) (args.chain e.1)
          (args.sentIn e.1) e.2)) := by
  induction rounds generalizing total cov with
  | nil =>
      refine ensures_done fun s _ => ⟨?_, nofun⟩
      rw [List.length_nil, Nat.zero_mul]
      rfl
  | cons round rest ih =>
      unfold runRounds
      have first : Ensures (fun _ => True)
          (failAs (Prod.mk round) (runRound B oracle args round cov)) (onOk (fun out _ =>
            out = (args.packets, (args.sentIn round).foldl Coverage.record cov) ∧
              ∀ p ∈ args.sentIn round, ¬ Differs (args.modelled (args.chain round))
                (args.chain round) p)
            (fun e _ => e.1 ∈ round :: rest ∧ Stopped (args.modelled (args.chain e.1))
              (args.chain e.1) (args.sentIn e.1) e.2)) := by
        refine ensures_failAs ((ensures_runRound sound few round cov).imp fun result s holds => ?_)
        cases result with
        | ok out => exact holds
        | error e => exact ⟨List.mem_cons_self, holds⟩
      refine ensures_andThenOk first fun out => ?_
      intro s result t holds ran
      obtain ⟨rfl, alike⟩ := holds
      have later := ih _ _ s result t trivial ran
      cases result with
      | ok out =>
          refine ⟨?_, fun r member => ?_⟩
          · rw [later.1, List.length_cons, Nat.succ_mul, List.flatMap_cons, List.foldl_append,
              Nat.add_assoc, Nat.add_comm args.packets]
          · rcases List.mem_cons.mp member with rfl | more
            · exact alike
            · exact later.2 r more
      | error e => exact ⟨List.mem_cons_of_mem _ later.1, later.2⟩

end Sound

/-! ### Runs -/

theorem not_differs_self {n : Nat} {chain : Chain} (generated : GeneratedChain n chain)
    {p : ProbePacket} (drawn : Drawn p) : ¬ Differs chain chain p := by
  rintro ⟨a, covers, differ⟩
  exact differ (generated.arrivalVerdict_eq drawn covers)

section Runs

variable {σ : Type} {oracle : Oracle σ} {ready : Chain → σ → Prop}
variable {B : Type} [Library HEADER_BITS B] [ContentHasher]

/-- Without a fault, a run on an oracle that shows first match ends with all packets
counted and their coverage, or at a round without an answer.  It never blames the model. -/
theorem never_blames_the_model (sound : oracle.Sound ready) {args : Args}
    (plain : args.fault = none) (few : args.rules ≤ Text.U32_MAX) :
    Ensures (fun _ => True) (runRounds B oracle args (List.range args.rounds) 0 .empty)
      (onOk (fun out _ => out.1 = args.rounds * args.packets ∧ Coverage.Of args.sent out.2)
        (fun e _ => e.1 < args.rounds ∧ NoAnswer e.2)) := by
  refine (ensures_runRounds sound few _ 0 .empty).imp fun result s holds => ?_
  cases result with
  | ok out =>
      obtain ⟨rfl, _⟩ := holds
      refine ⟨?_, Coverage.of_nil.foldl⟩
      rw [Nat.zero_add, List.length_range]
  | error e =>
      obtain ⟨member, unanswered | ⟨p, sent, differs, _⟩⟩ := holds
      · exact ⟨List.mem_range.mp member, unanswered⟩
      · rw [Args.modelled, plain] at differs
        exact absurd differs (not_differs_self (args.chain_generated e.1)
          (drawn_of_mem_packetsFrom sent))

omit [ContentHasher] in
theorem defaults_never_blame_the_model : letI : ContentHasher := ⟨fun _ _ => 0⟩
    Ensures (fun _ => True)
      (runRounds (Diagram HEADER_BITS) nftables.oracle Args.defaults (List.range 3) 0 .empty)
      (onOk (fun out _ => out.1 = 180 ∧ Coverage.Of Args.defaults.sent out.2)
        (fun e _ => e.1 < 3 ∧ NoAnswer e.2)) :=
  letI : ContentHasher := ⟨fun _ _ => 0⟩
  never_blames_the_model (nftables_documented.sound nftables_routed) rfl (by decide)

/-! ### The self-test -/

/-- A packet of some round tells the fault. -/
def Args.Told (args : Args) (f : Fault) : Prop :=
  ∃ round < args.rounds, ∃ p ∈ args.sentIn round, Tells f (args.chain round) p

/-- The run of a fault ended as its packets say: at a round without an answer or with a
packet that tells the fault, or after all rounds, none of whose packets tells it. -/
def Args.Accounted (args : Args) (f : Fault) :
    Except (Nat × RoundError) (Nat × Coverage) → Prop
  | .ok out => out.1 = args.rounds * args.packets ∧ ¬ args.Told f
  | .error e => e.1 < args.rounds ∧
      Stopped (f.corrupt (args.chain e.1)) (args.chain e.1) (args.sentIn e.1) e.2

/-- The runs of the faults, each from the state that the one before left. -/
inductive Tested (B : Type) [Library HEADER_BITS B] [ContentHasher] (oracle : Oracle σ)
    (args : Args) : List (Fault × Except (Nat × RoundError) (Nat × Coverage)) → σ → σ → Prop
  | nil (s : σ) : Tested B oracle args [] s s
  | cons {f : Fault} {out : Except (Nat × RoundError) (Nat × Coverage)}
      {rest : List (Fault × Except (Nat × RoundError) (Nat × Coverage))} {s u t : σ}
      (ran : runRounds B oracle { args with fault := some f } (List.range args.rounds) 0 .empty
        s out u)
      (later : Tested B oracle args rest u t) : Tested B oracle args ((f, out) :: rest) s t

theorem ensures_fault (sound : oracle.Sound ready) {args : Args}
    (few : args.rules ≤ Text.U32_MAX) (f : Fault) :
    Ensures (fun _ => True) (runRounds B oracle { args with fault := some f }
      (List.range args.rounds) 0 .empty) (fun out _ => args.Accounted f out) := by
  have same : ({ args with fault := some f } : Args).rules ≤ Text.U32_MAX := few
  refine (ensures_runRounds sound same _ 0 .empty).imp fun result s ends => ?_
  cases result with
  | ok out =>
      obtain ⟨rfl, untold⟩ := ends
      refine ⟨by rw [Nat.zero_add, List.length_range], ?_⟩
      rintro ⟨round, below, p, sent, tells⟩
      exact untold round (List.mem_range.mpr below) p sent tells
  | error e => exact ⟨List.mem_range.mp ends.1, ends.2⟩

/-- The undetected faults are those whose runs passed. -/
theorem tested_of_undetected {args : Args} {faults out : List Fault} {s t : σ}
    (ran : undetected B oracle args faults s out t) :
    ∃ runs, Tested B oracle args runs s t ∧ runs.map Prod.fst = faults ∧
      ∀ f, f ∈ out ↔ ∃ passed, (f, .ok passed) ∈ runs := by
  induction faults generalizing s out with
  | nil =>
      obtain ⟨rfl, rfl⟩ := ran
      exact ⟨[], .nil t, rfl, by simp⟩
  | cons fault rest ih =>
      obtain ⟨first, u, ranFirst, later, v, ranLater, rfl, rfl⟩ := ran
      obtain ⟨runs, tested, names, passed⟩ := ih ranLater
      refine ⟨(fault, first) :: runs, .cons ranFirst tested, by rw [List.map_cons, names],
        fun f => ?_⟩
      cases first with
      | ok ended => simp [passed, exists_or]
      | error e => simp [passed]

theorem accounted_of_tested (sound : oracle.Sound ready) {args : Args}
    (few : args.rules ≤ Text.U32_MAX)
    {runs : List (Fault × Except (Nat × RoundError) (Nat × Coverage))} {s t : σ}
    (tested : Tested B oracle args runs s t) : ∀ run ∈ runs, args.Accounted run.1 run.2 := by
  induction tested with
  | nil s => exact fun run member => absurd member List.not_mem_nil
  | @cons f out rest s u t ran later ih =>
      intro run member
      rcases List.mem_cons.mp member with rfl | more
      · exact ensures_fault sound few f s out u trivial ran
      · exact ih run more

/-- A self-test runs the rounds of each fault in turn.  It passes exactly when every one
of these runs stopped, each for lack of an answer or at a round with a packet that tells
its fault; it fails exactly when one went through, and no packet tells that fault. -/
theorem selfTest_exact (sound : oracle.Sound ready) {args : Args}
    (few : args.rules ≤ Text.U32_MAX) (s : σ) :
    Ensures (fun start => start = s) (selfTest B oracle args) (fun code t =>
      ∃ runs, Tested B oracle args runs s t ∧ runs.map Prod.fst = Fault.ALL ∧
        (∀ run ∈ runs, args.Accounted run.1 run.2) ∧
          ((code = 0 ∧ ∀ run ∈ runs, ∃ e, run.2 = .error e) ∨
            (code = 1 ∧ ∃ run ∈ runs, ∃ passed, run.2 = .ok passed))) := by
  rintro start code t rfl ⟨faults, u, found, rfl, rfl⟩
  obtain ⟨runs, tested, names, passed⟩ := tested_of_undetected found
  refine ⟨runs, tested, names, accounted_of_tested sound few tested, ?_⟩
  cases faults with
  | nil =>
      refine Or.inl ⟨rfl, fun run member => ?_⟩
      obtain ⟨f, out⟩ := run
      cases out with
      | ok ended => exact absurd ((passed f).mpr ⟨ended, member⟩) List.not_mem_nil
      | error e => exact ⟨e, rfl⟩
  | cons f rest =>
      obtain ⟨ended, member⟩ := (passed f).mp List.mem_cons_self
      exact Or.inr ⟨rfl, (f, .ok ended), member, ended, rfl⟩

omit [ContentHasher] in
theorem defaults_selfTest_exact : letI : ContentHasher := ⟨fun _ _ => 0⟩
    Ensures (fun start => start = ⟨none, [], fun _ => 0⟩)
      (selfTest (Diagram HEADER_BITS) nftables.oracle Args.defaults) (fun code k =>
        ∃ runs, Tested (Diagram HEADER_BITS) nftables.oracle Args.defaults runs
            ⟨none, [], fun _ => 0⟩ k ∧
          runs.map Prod.fst = Fault.ALL ∧ (∀ run ∈ runs, Args.defaults.Accounted run.1 run.2) ∧
            ((code = 0 ∧ ∀ run ∈ runs, ∃ e, run.2 = .error e) ∨
              (code = 1 ∧ ∃ run ∈ runs, ∃ passed, run.2 = .ok passed))) :=
  letI : ContentHasher := ⟨fun _ _ => 0⟩
  selfTest_exact (nftables_documented.sound nftables_routed) (by decide) _

end Runs

end Fwdelta.Kerneldiff
