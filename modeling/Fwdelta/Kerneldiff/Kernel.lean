import Fwdelta.Engine.AddressText
import Fwdelta.Kerneldiff.Harness

/-
Oracles that show first match, and a kernel as one of them.

Where a system behaves as documented and its packets arrive where they are routed, its
probes show first match or fail for lack of an answer.  A concrete kernel, whose state is
the two chains and the counters, behaves so: the texts that the harness loads tell the
tuples and the chains apart.
-/

namespace Fwdelta.Kerneldiff

open Emit
open Interference

/-! ### Oracles that show first match -/

/-- Loading ends with the chain ready, and a probe of a ready chain shows first match.
Otherwise there is no answer. -/
structure Oracle.Sound {σ : Type} (oracle : Oracle σ) (ready : Chain → σ → Prop) : Prop where
  prepare : ∀ n seed, Ensures (fun _ => True) (oracle.prepare (generate n seed))
    (onOk (fun _ => ready (generate n seed)) External)
  probe : ∀ n seed p, n ≤ Text.U32_MAX → Drawn p →
    Ensures (ready (generate n seed)) (oracle.probe p (generate n seed))
      (onOk (fun v s => ready (generate n seed) s ∧ v = kernelVerdict (generate n seed) p)
        (Unanswered p))

def System.oracle {σ : Type} (system : System σ) : Oracle σ where
  prepare := system.prepare
  probe := system.probe

theorem numbered_generate {n : Nat} (few : n ≤ Text.U32_MAX) (seed : BitVec 64) :
    Numbered (generate n seed) := by
  have built := generate_built n seed
  have between : ∀ r ∈ (generate n seed).rules, 1 ≤ r.number ∧ r.number < 1 + n := by
    intro r member
    have number := List.mem_map_of_mem (f := Rule.number) member
    rw [built.numbers, (generate_generated n seed).length] at number
    exact List.mem_range'_1.mp number
  refine ⟨built.numbers_nodup, fun r member => (between r member).1, fun r member => ?_⟩
  have below := (between r member).2
  omega

section System

variable {σ : Type} {system : System σ} {view : View σ}

theorem ensures_prepare (documented : system.Documented view) (n : Nat) (seed : BitVec 64) :
    Ensures (fun _ => True) (system.prepare (generate n seed))
      (onOk (fun _ => view.Loaded (generate n seed)) External) := by
  have empty : Stable system.others (fun s => view.rules s = []) := documented.stable_rules _
  unfold System.prepare
  cases written : Emit.chain TABLE (generate n seed) with
  | none => exact ensures_done fun _ _ => ⟨_, rfl⟩
  | some text =>
      have flushes : Ensures (fun _ => True) (system.step (system.sh "nft" FLUSH))
          (onOk (fun _ s => view.rules s = []) External) :=
        ensures_step (fun _ _ _ => id) (fun _ => empty)
          fun out s t _ ran => documented.flush out s t ran
      have opens : Ensures (fun s => view.rules s = [])
          (system.step (system.loadRuleset prefilterTable))
          (onOk (fun _ s => view.rules s = []) External) :=
        ensures_step empty (fun _ => empty)
          fun _ s t none_ ran => (documented.table s t ran).trans none_
      have loads : Ensures (fun s => view.rules s = []) (system.step (system.loadRuleset text))
          (onOk (fun _ => view.Loaded (generate n seed)) External) :=
        ensures_step empty (fun _ => documented.stable_rules _)
          fun _ s t none_ ran => documented.load n seed text written s t none_ ran
      exact ensures_andThenOk flushes fun _ => ensures_andThenOk opens fun _ => loads

/-- Beside any traffic that arrives where it is routed, a probe of a loaded chain shows
the verdict of first match on its packet, or fails because no counter moved in time or a
tool failed. -/
theorem probe_shows_first_match (documented : system.Documented view) (routed : system.Routed)
    {n : Nat} (few : n ≤ Text.U32_MAX) (seed : BitVec 64) {p : ProbePacket} (drawn : Drawn p) :
    Ensures (view.Loaded (generate n seed)) (system.probe p (generate n seed))
      (onOk (fun v _ => v = kernelVerdict (generate n seed) p)
        (fun e _ => e = .silent p ∨ ∃ message, e = .external message)) := by
  have generated := generate_generated n seed
  refine (ensures_probe documented routed (numbered_generate few seed) drawn
    (generated.uniform drawn)).imp fun result s holds => ?_
  cases result with
  | ok v => exact holds.2
  | error e => exact holds

theorem System.Documented.sound (documented : system.Documented view) (routed : system.Routed) :
    system.oracle.Sound view.Loaded where
  prepare := ensures_prepare documented
  probe n seed _ few drawn := ensures_probe documented routed (numbered_generate few seed) drawn
    ((generate_generated n seed).uniform drawn)

end System

/-! ### The texts that are loaded -/

theorem ipString_eq_ipv4 (v : BitVec 32) : ipString v = Render.ipv4 v.toNat := by
  have small := v.isLt
  have low : v.toNat / 2 ^ 24 % 256 = v.toNat / 2 ^ 24 := Nat.mod_eq_of_lt (by omega)
  have mask (n : Nat) : n &&& 0xff = n % 256 := Nat.and_two_pow_sub_one_eq_mod n 8
  unfold ipString Render.ipv4
  simp only [Nat.shiftRight_eq_div_pow, mask, low]

theorem ipString_injective : Function.Injective ipString := by
  intro v w same
  rw [ipString_eq_ipv4, ipString_eq_ipv4] at same
  have read := congrArg Render.readIpv4 same
  rwa [Render.readIpv4_ipv4, Render.readIpv4_ipv4, BitVec.ofNat_toNat, BitVec.ofNat_toNat,
    BitVec.setWidth_eq, BitVec.setWidth_eq, Option.some.injEq] at read

theorem noBlank_ipString (v : BitVec 32) : ' ' ∉ (ipString v).toList := by
  rw [ipString_eq_ipv4]
  exact (Render.plain_ipv4 v.toNat).not_mem rfl (by decide)

theorem noBlank_toString (n : Nat) : ' ' ∉ (toString n).toList := fun member =>
  absurd (Text.isDigit_of_mem_toString member) (by decide)

/-- The words of the text of a prefilter. -/
def Prefilter.words (f : Prefilter) : List String :=
  ["flush", "chain", "ip", "fwdelta_pre", "pre\nadd", "rule", "ip", "fwdelta_pre", "pre",
    "meta", "l4proto", f.l4, "ip", "saddr", ipString f.src, "ip", "daddr", ipString f.dst] ++
    (match f.ports with
      | some (l4, sp, dp) =>
          [l4, "sport", toString sp.toNat, l4, "dport", toString dp.toNat]
      | none => []) ++
    ["accept\nadd", "rule", "ip", "fwdelta_pre", "pre", "drop\n"]

theorem Prefilter.text_eq_intercalate (f : Prefilter) :
    f.text = (String.singleton ' ').intercalate f.words := by
  apply String.toList_inj.mp
  unfold Prefilter.text Prefilter.words
  cases f.ports <;> simp

/-- The names in a tuple are single words. -/
structure Prefilter.Named (f : Prefilter) : Prop where
  l4 : ' ' ∉ f.l4.toList
  ports : ∀ l4 ports, f.ports = some (l4, ports) → ' ' ∉ l4.toList

theorem named_of_tupleOf {p : ProbePacket} {f : Prefilter} (chosen : tupleOf p = some f) :
    f.Named := by
  obtain ⟨name, named, rfl⟩ := Option.map_eq_some_iff.mp chosen
  refine ⟨show ' ' ∉ name.toList from ?_, fun l4 ports given => ?_⟩
  · unfold prefilterL4 at named
    split_ifs at named <;> obtain rfl := Option.some.inj named <;> decide
  · obtain ⟨_, _, same⟩ := Option.map_eq_some_iff.mp given
    rw [← (Prod.mk.inj same).1]
    split <;> decide

theorem Prefilter.Named.noBlank {f : Prefilter} (named : f.Named) :
    ∀ word ∈ f.words, ' ' ∉ word.toList := by
  have l4 := named.l4
  have src := noBlank_ipString f.src
  have dst := noBlank_ipString f.dst
  unfold Prefilter.words
  cases ports : f.ports with
  | none => simp [l4, src, dst]
  | some triple =>
      obtain ⟨name, sp, dp⟩ := triple
      have word := named.ports name _ ports
      have sport := noBlank_toString sp.toNat
      have dport := noBlank_toString dp.toNat
      rw [Text.toList_toString] at sport dport
      simp [l4, src, dst, word, sport, dport]

theorem Prefilter.words_inj {f g : Prefilter} (same : f.words = g.words) : f = g := by
  obtain ⟨l4, src, dst, ports⟩ := f
  obtain ⟨l4', src', dst', ports'⟩ := g
  match ports, ports' with
  | none, none => simp_all [Prefilter.words, ipString_injective.eq_iff]
  | none, some _ => simp [Prefilter.words] at same
  | some _, none => simp [Prefilter.words] at same
  | some (name, sp, dp), some (name', sp', dp') =>
      have number {m n : BitVec 16} : m.toNat.repr = n.toNat.repr → m = n := fun written =>
        BitVec.eq_of_toNat_eq (Text.toString_injective written)
      simp only [Prefilter.words, Nat.toString_eq_repr, List.cons_append, List.nil_append,
        List.cons.injEq, ipString_injective.eq_iff, true_and, and_true] at same
      obtain ⟨rfl, rfl, rfl, rfl, sport, _, dport⟩ := same
      rw [number sport, number dport]

/-- The text tells the tuple. -/
theorem tupleOf_text_inj {p q : ProbePacket} {f g : Prefilter} (chosenF : tupleOf p = some f)
    (chosenG : tupleOf q = some g) (same : f.text = g.text) : f = g := by
  rw [f.text_eq_intercalate, g.text_eq_intercalate] at same
  have words := congrArg (Text.split ' ') same
  rw [Text.split_intercalate (named_of_tupleOf chosenF).noBlank (by simp [Prefilter.words]),
    Text.split_intercalate (named_of_tupleOf chosenG).noBlank (by simp [Prefilter.words])] at words
  exact Prefilter.words_inj words

/-- The text of a chain, with and without the sentinel. -/
theorem exists_front {table : String} {c : Chain} {sentinel : Bool} {text : String}
    (written : chainWith table c sentinel = some text) : ∃ front, ∀ given : Bool,
      chainWith table c given = some ("table ip " ++ table ++ front ++
        ((if given then "    counter comment \"r0\"\n" else "") ++ "  \x7d\n\x7d\n")) := by
  obtain ⟨lines, each, _⟩ := Option.bind_eq_some_iff.mp written
  refine ⟨" \x7b\n  chain " ++ c.name ++ " \x7b\n" ++ ("    type filter hook " ++
    Nft.hookText c.hook ++ " priority filter; policy " ++ policyText c.policy ++ ";\n" ++
      String.join (lines.map (fun line => line ++ "\n"))), fun given => ?_⟩
  unfold chainWith
  rw [each]
  simp only [Option.bind_eq_bind, Option.bind_some, String.append_assoc]

/-- The text of a generated chain tells its rules. -/
theorem loadedRules_eq_of_text {n m : Nat} {seed seed' : BitVec 64} {text : String}
    (written : Emit.chain TABLE (generate n seed) = some text)
    (written' : Emit.chain TABLE (generate m seed') = some text) :
    loadedRules (generate n seed) = loadedRules (generate m seed') := by
  obtain ⟨front, texts⟩ := exists_front written
  obtain ⟨front', texts'⟩ := exists_front written'
  have fronts : front = front' := by
    have same := (texts true).symm.trans (written.trans (written'.symm.trans (texts' true)))
    have chars := congrArg String.toList (Option.some.inj same)
    simp only [String.toList_append, List.append_assoc, List.append_cancel_left_eq] at chars
    exact String.toList_inj.mp (List.append_cancel_right chars)
  subst fronts
  -- Without the sentinel both are the text of one file.
  have generated := generate_generated n seed
  have generated' := generate_generated m seed'
  obtain ⟨ruleset, back, parsed, sole, _, _, rules⟩ := generated.faithful _ (texts false) ""
  obtain ⟨ruleset', back', parsed', sole', _, _, rules'⟩ := generated'.faithful _ (texts' false) ""
  obtain rfl := Except.ok.inj (parsed.symm.trans parsed')
  obtain rfl := (List.cons.inj (sole.symm.trans sole')).1
  have same := rules.symm.trans rules'
  have predicates := congrArg (List.map Prod.fst) same
  have lengths := congrArg List.length same
  rw [List.map_map, List.map_map] at predicates
  rw [List.length_map, List.length_map] at lengths
  have zipped (chain : Chain) : loadedRules chain =
      (chain.rules.map Rule.number).zip (chain.rules.map (fun r => r.predicate)) ++
        [(0, .any)] := by
    rw [List.zip_map', loadedRules]
  rw [zipped, zipped, (generate_built n seed).numbers, (generate_built m seed').numbers, lengths]
  exact congrArg (fun l => List.zip _ l ++ _) predicates

/-! ### A kernel -/

/-- The tuple of the prefilter, if any, the loaded rules and the counters. -/
structure Kernel where
  prefilter : Option Prefilter
  rules : List (Nat × Match)
  counts : Nat → BitVec 64

def Kernel.view : View Kernel where
  passes k a := ∀ f, k.prefilter = some f → f.Admits a
  rules := Kernel.rules
  count := Kernel.counts

/-- The counter of the first rule that the arrival meets moves, as `u64`. -/
def Kernel.count (k : Kernel) (a : Arrival) : Kernel :=
  match firstMet k.rules a with
  | some n => { k with counts := Function.update k.counts n (k.counts n + 1) }
  | none => k

/-- What the texts of the harness load. -/
inductive Loads : String → Kernel → Kernel → Prop
  | table {text : String} (k : Kernel) (same : text = prefilterTable) :
      Loads text k { k with prefilter := none }
  | tuple {text : String} (k : Kernel) {p : ProbePacket} {f : Prefilter}
      (chosen : tupleOf p = some f) (same : text = f.text) :
      Loads text k { k with prefilter := some f }
  | chain {text : String} (k : Kernel) {n : Nat} {seed : BitVec 64}
      (written : Emit.chain TABLE (generate n seed) = some text) :
      Loads text k
        { k with rules := k.rules ++ loadedRules (generate n seed), counts := fun _ => 0 }

/-- What the commands of the harness do and print. -/
inductive Runs : List String → Kernel → String → Kernel → Prop
  | flush {argv : List String} (k : Kernel) (same : argv = FLUSH) :
      Runs argv k "" ⟨none, [], fun _ => 0⟩
  | reset {argv : List String} (k : Kernel) (same : argv = RESET) (out : String) :
      Runs argv k out { k with counts := fun _ => 0 }
  | list {argv : List String} (k : Kernel) (same : argv = LIST) {out : String}
      (listing : Listing (fun n => (k.counts n).toNat) (k.rules.map Prod.fst) out) :
      Runs argv k out k

/-- A command that does something, or fails and does nothing. -/
def attempt {α : Type} (succeeds : Command Kernel α) : Command Kernel (Except String α) :=
  fun k result k' => (∃ a, result = .ok a ∧ succeeds k a k') ∨
    ∃ message, result = .error message ∧ k' = k

/-- A kernel whose packets arrive where they are routed. -/
def nftables : System Kernel where
  quiet k k' := k' = k
  arrive a k k' := a.Routed ∧ ((Kernel.view.passes k a ∧ k' = k.count a) ∨
    (¬ Kernel.view.passes k a ∧ k' = k))
  sh program argv := attempt fun k out k' => program = "nft" ∧ Runs argv k out k'
  loadRuleset text := attempt fun k _ k' => Loads text k k'
  start _ := attempt fun k _ k' => k' = k

theorem attempt_ok {α : Type} (succeeds : Command Kernel α) {k k' : Kernel} {a : α}
    (ran : attempt succeeds k (.ok a) k') : succeeds k a k' := by
  obtain ⟨b, same, ran⟩ | ⟨message, same, _⟩ := ran
  · rwa [Except.ok.inj same]
  · contradiction

theorem runs_of_sh {program : String} {argv : List String} {k k' : Kernel} {out : String}
    (ran : nftables.sh program argv k (.ok out) k') : Runs argv k out k' :=
  (attempt_ok (fun k out k' => program = "nft" ∧ Runs argv k out k') ran).2

theorem loads_of_loadRuleset {text : String} {k k' : Kernel}
    (ran : nftables.loadRuleset text k (.ok ()) k') : Loads text k k' :=
  attempt_ok (fun k _ k' => Loads text k k') ran

theorem nftables_routed : nftables.Routed :=
  fun _ _ _ arrived => arrived.1

/-! ### The kernel behaves as documented -/

/-- The texts that are loaded begin differently. -/
theorem tuple_begins (f : Prefilter) : f.text.toList[0]? = some 'f' := by
  unfold Prefilter.text
  rw [String.append_assoc, String.append_assoc, String.toList_append,
    List.getElem?_append_left (by decide)]
  rfl

theorem table_begins : prefilterTable.toList[0]? = some 't' ∧
    prefilterTable.toList[17]? = some 'p' := by
  unfold prefilterTable
  rw [String.toList_append]
  constructor <;> rw [List.getElem?_append_left (by decide)] <;> rfl

theorem chain_begins {c : Chain} {text : String} (written : Emit.chain TABLE c = some text) :
    text.toList[0]? = some 't' ∧ text.toList[17]? = some 'd' := by
  obtain ⟨front, texts⟩ := exists_front written
  obtain rfl := Option.some.inj (written.symm.trans (texts true))
  rw [String.toList_append, String.toList_append]
  constructor <;>
    rw [List.getElem?_append_left (by simp [TABLE]), List.getElem?_append_left (by decide)] <;> rfl

theorem view_same (k : Kernel) : Kernel.view.Same k k :=
  ⟨⟨fun _ => Iff.rfl, rfl⟩, fun _ => rfl⟩

theorem sameTables_count (k : Kernel) (a : Arrival) : Kernel.view.SameTables k (k.count a) := by
  unfold Kernel.count
  cases firstMet k.rules a <;> exact ⟨fun _ => Iff.rfl, rfl⟩

theorem counts_count {k : Kernel} {a : Arrival} {n : Nat}
    (moved : (k.count a).counts n ≠ k.counts n) :
    firstMet k.rules a = some n ∧ (k.count a).counts n = k.counts n + 1 := by
  unfold Kernel.count at moved ⊢
  cases met : firstMet k.rules a with
  | none => simp [met] at moved
  | some m =>
      rw [met] at moved
      by_cases same : n = m
      · subst same
        exact ⟨rfl, Function.update_self ..⟩
      · exact absurd (Function.update_of_ne same ..) moved

theorem nftables_documented : nftables.Documented Kernel.view where
  quiet k k' same := same ▸ view_same k
  arriveTables a k k' arrived := by
    obtain ⟨_, ⟨_, rfl⟩ | ⟨_, rfl⟩⟩ := arrived
    · exact sameTables_count k a
    · exact (view_same _).toSameTables
  arriveCounts a k k' arrived n moved := by
    obtain ⟨_, ⟨passes, rfl⟩ | ⟨_, rfl⟩⟩ := arrived
    · exact ⟨passes, counts_count moved⟩
    · exact absurd rfl moved
  start sender k k' ran := by
    obtain rfl : k' = k := attempt_ok (fun k _ k' => k' = k) ran
    exact view_same k'
  flush out k k' ran := by
    cases runs_of_sh ran with
    | flush => rfl
    | reset same => exact absurd same (by decide)
    | list same => exact absurd same (by decide)
  table k k' ran := by
    cases loads_of_loadRuleset ran with
    | table => rfl
    | tuple => rfl
    | chain written =>
        have later := (chain_begins written).2
        rw [table_begins.2] at later
        contradiction
  load n seed text written k k' none_ ran := by
    cases loads_of_loadRuleset ran with
    | table same =>
        have later := (chain_begins written).2
        rw [same, table_begins.2] at later
        contradiction
    | tuple chosen same =>
        have first := (chain_begins written).1
        rw [same, tuple_begins] at first
        contradiction
    | chain written' =>
        show k.rules ++ _ = _
        rw [show k.rules = [] from none_, List.nil_append]
        exact loadedRules_eq_of_text written' written
  narrow p f chosen k k' ran := by
    cases loads_of_loadRuleset ran with
    | table same =>
        have first := tuple_begins f
        rw [same, table_begins.1] at first
        contradiction
    | tuple chosen' same =>
        obtain rfl := tupleOf_text_inj chosen chosen' same
        exact ⟨fun a => ⟨fun passes => passes f rfl, fun admits g same =>
          Option.some.inj same ▸ admits⟩, rfl⟩
    | chain written =>
        have first := (chain_begins written).1
        rw [tuple_begins] at first
        contradiction
  reset out k k' ran := by
    cases runs_of_sh ran with
    | flush same => exact absurd same (by decide)
    | reset => exact ⟨⟨fun _ => Iff.rfl, rfl⟩, fun _ => rfl⟩
    | list same => exact absurd same (by decide)
  list out k k' ran := by
    cases runs_of_sh ran with
    | flush same => exact absurd same (by decide)
    | reset same => exact absurd same (by decide)
    | list same listing => exact ⟨view_same k, listing⟩

/-- A datagram to port 80 beside other traffic. -/
theorem datagram_shows_first_match :
    Ensures (Kernel.view.Loaded (generate 40 0x20260815))
      (nftables.probe ⟨.loopback, 0x0A010001, 0x0A050001, some (22, 80), UDP⟩
        (generate 40 0x20260815))
      (onOk (fun v _ => v = kernelVerdict (generate 40 0x20260815)
          ⟨.loopback, 0x0A010001, 0x0A050001, some (22, 80), UDP⟩)
        (fun e _ => e = .silent ⟨.loopback, 0x0A010001, 0x0A050001, some (22, 80), UDP⟩ ∨
          ∃ message, e = .external message)) :=
  probe_shows_first_match nftables_documented nftables_routed (by decide) 0x20260815
    ⟨by decide, by decide, Or.inr ⟨Or.inr rfl, _, rfl⟩⟩

end Fwdelta.Kerneldiff
