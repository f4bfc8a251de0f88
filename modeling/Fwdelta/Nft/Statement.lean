import Fwdelta.Nft.Reading

/-
What the parser reads as statements.

Each statement parser reads exactly the statements of the syntax with its
keyword, and the loop of a rule reads exactly the lists of statements whose
effects succeed one after another.
-/

namespace Fwdelta.Nft

open Lookahead

section Rules

variable {α β ι : Type} {p : Parser α} {q : Parser β} {T : List Tok → Tok → β → Prop}

theorem bind_map {yield : ι → List Tok} {Follow : ι → Tok → Prop} {value : ι → α}
    (reads : ReadsToks p (fun ks next a => ∃ i, ks = yield i ∧ Follow i next ∧ a = value i))
    (g : α → β) :
    ReadsToks (p >>= fun a => pure (g a))
      (fun ks next b => ∃ i, ks = yield i ∧ Follow i next ∧ b = g (value i)) := by
  apply Reads.congr (reads.bind fun a => Reads.pure (g a))
  intro ts next b _
  generalize ts.map Token.tok = ks
  constructor
  · intro spelled
    rcases spelled with ⟨us, vs, _, rfl, ⟨i, rfl, follow, rfl⟩, rfl, rfl⟩
    exact ⟨i, List.append_nil _, follow, rfl⟩
  · intro spelled
    rcases spelled with ⟨i, rfl, follow, rfl⟩
    exact ⟨yield i, [], value i, (List.append_nil _).symm, ⟨i, rfl, follow, rfl⟩, rfl, rfl⟩

theorem drop_bind (second : ReadsToks q T) :
    ReadsToks (bump >>= fun _ => q) (fun ks next b =>
      (∃ k vs, ks = k :: vs ∧ T vs next b) ∨ (ks = [] ∧ next = .eof ∧ T [] next b)) :=
  Reads.drop_bind Token.tok (fun k => k = .eof) (fun _ => Iff.rfl) second

end Rules

/-! ### Matches -/

/-- What is left of a statement's body after the second word of a match. -/
def RestOfMatch (keyword : String) (m : Match) (w : String) (ks : List Tok) (next : Tok)
    (m' : Match) : Prop :=
  ∃ stmt : Stmt, .word w :: ks = stmt.body ∧
    (stmt.keyword = keyword ∧ stmt.Follow next) ∧ m' = stmt.narrow m

abbrev ReadsMatch (keyword : String) (m : Match) (p : Parser Match) : Prop :=
  ReadsToks p (fun ks next m' => ∃ stmt : Stmt, ks = stmt.body ∧
    (stmt.keyword = keyword ∧ stmt.Follow next) ∧ m' = stmt.narrow m)

theorem readsMatch_word {s : Source} {keyword : String} {m : Match} {f : String → Parser Match}
    (twoWords : ∀ stmt : Stmt, stmt.keyword = keyword → ∃ w rest, stmt.body = .word w :: rest)
    (second : ∀ w, ReadsToks (f w) (RestOfMatch keyword m w)) :
    ReadsMatch keyword m (expectWord s >>= f) := by
  apply Reads.congr (bind_one (reads_expectWord s) second)
  intro ts next m' _
  constructor
  · intro spelled
    rcases spelled with ⟨w, vs, same, stmt, spelled, chosen, rfl⟩
    exact ⟨stmt, same.trans spelled, chosen, rfl⟩
  · intro spelled
    rcases spelled with ⟨stmt, same, chosen, rfl⟩
    obtain ⟨w, rest, spelled⟩ := twoWords stmt chosen.1
    exact ⟨w, rest, same.trans spelled, stmt, spelled.symm, chosen, rfl⟩

theorem reads_restOfMatch {α ι : Type} {p : Parser α} {yield : ι → List Tok}
    {Follow : ι → Tok → Prop} {value : ι → α} {keyword w : String} {m : Match} {g : α → Match}
    (reads : ReadsToks p (fun ks next a => ∃ i, ks = yield i ∧ Follow i next ∧ a = value i))
    (make : ι → Stmt) (spelled : ∀ i, (make i).body = .word w :: yield i)
    (keywords : ∀ i, (make i).keyword = keyword)
    (follows : ∀ i next, (make i).Follow next ↔ Follow i next)
    (narrows : ∀ i, (make i).narrow m = g (value i))
    (only : ∀ stmt : Stmt, stmt.keyword = keyword → ∀ rest, .word w :: rest = stmt.body →
      ∃ i, stmt = make i) :
    ReadsToks (p >>= fun a => pure (g a)) (RestOfMatch keyword m w) := by
  apply Reads.congr (bind_map reads g)
  intro ts next m' _
  constructor
  · intro spelled
    rcases spelled with ⟨i, same, follow, rfl⟩
    exact ⟨make i, by rw [same, spelled], ⟨keywords i, (follows i next).mpr follow⟩,
      (narrows i).symm⟩
  · intro spelled
    rcases spelled with ⟨stmt, same, ⟨chosen, follow⟩, rfl⟩
    obtain ⟨i, rfl⟩ := only stmt chosen _ same
    rw [spelled, List.cons.injEq] at same
    exact ⟨i, same.2, (follows i next).mp follow, narrows i⟩

@[simp] theorem L4.text_ne (l4 : L4) :
    (l4.text ≠ "ip" ∧ l4.text ≠ "meta" ∧ l4.text ≠ "iifname" ∧ l4.text ≠ "counter" ∧
      l4.text ≠ "comment" ∧ l4.text ≠ "log" ∧ l4.text ≠ "accept" ∧ l4.text ≠ "drop" ∧
        l4.text ≠ "reject") ∧
    "ip" ≠ l4.text ∧ "meta" ≠ l4.text ∧ "iifname" ≠ l4.text ∧ "counter" ≠ l4.text ∧
      "comment" ≠ l4.text ∧ "log" ≠ l4.text ∧ "accept" ≠ l4.text ∧ "drop" ≠ l4.text ∧
        "reject" ≠ l4.text := by
  cases l4 <;> decide

theorem L4.text_injective : Function.Injective L4.text := by
  intro a b same
  cases a <;> cases b <;> first
    | rfl
    | exact absurd same (by decide)

theorem PortSide.text_injective : Function.Injective PortSide.text := by
  intro a b same
  cases a <;> cases b <;> first
    | rfl
    | exact absurd same (by decide)

theorem reads_ipMatch (s : Source) (m : Match) : ReadsMatch "ip" m (ipMatch s m) := by
  refine position_bind fun start => readsMatch_word ?_ fun w => ?_
  · intro stmt chosen
    cases stmt <;> first
      | exact ⟨_, _, rfl⟩
      | simp [Stmt.keyword] at chosen
  · split
    · refine reads_restOfMatch (reads_addrSpec s) Stmt.saddr (fun _ => rfl) (fun _ => rfl)
        (fun _ _ => Iff.rfl) (fun _ => rfl) ?_
      intro stmt chosen rest same
      cases stmt <;> simp [Stmt.keyword, Stmt.body] at chosen same
      exact ⟨_, rfl⟩
    · refine reads_restOfMatch (reads_addrSpec s) Stmt.daddr (fun _ => rfl) (fun _ => rfl)
        (fun _ _ => Iff.rfl) (fun _ => rfl) ?_
      intro stmt chosen rest same
      cases stmt <;> simp [Stmt.keyword, Stmt.body] at chosen same
      exact ⟨_, rfl⟩
    · refine reads_restOfMatch (reads_protoSpec s) Stmt.protocol (fun _ => rfl) (fun _ => rfl)
        (fun _ _ => Iff.rfl) (fun _ => rfl) ?_
      intro stmt chosen rest same
      cases stmt <;> simp [Stmt.keyword, Stmt.body] at chosen same
      exact ⟨_, rfl⟩
    · next noSaddr noDaddr noProtocol =>
        apply reads_refused (reads_fail _)
        rintro ks next m' ⟨stmt, same, ⟨chosen, _⟩, _⟩
        cases stmt <;> simp_all [Stmt.keyword, Stmt.body]

theorem reads_metaMatch (s : Source) (m : Match) (keyword : Nat × Nat) :
    ReadsMatch "meta" m (metaMatch s m keyword) := by
  refine readsMatch_word ?_ fun w => ?_
  · intro stmt chosen
    cases stmt <;> first
      | exact ⟨_, _, rfl⟩
      | simp [Stmt.keyword] at chosen
  · split
    · refine reads_restOfMatch (reads_protoSpec s) Stmt.l4proto (fun _ => rfl) (fun _ => rfl)
        (fun _ _ => Iff.rfl) (fun _ => rfl) ?_
      intro stmt chosen rest same
      cases stmt <;> simp [Stmt.keyword, Stmt.body] at chosen same
      exact ⟨_, rfl⟩
    · refine reads_restOfMatch (reads_ifSpec s) Stmt.metaIifname (fun _ => rfl) (fun _ => rfl)
        (fun _ _ => Iff.rfl) (fun _ => rfl) ?_
      intro stmt chosen rest same
      cases stmt <;> simp [Stmt.keyword, Stmt.body] at chosen same
      exact ⟨_, rfl⟩
    · apply reads_refused (reads_fail _)
      rintro ks next m' ⟨stmt, same, ⟨chosen, _⟩, _⟩
      cases stmt <;> simp_all [Stmt.keyword, Stmt.body]
    · next noProto noName _ =>
        apply reads_refused (reads_fail _)
        rintro ks next m' ⟨stmt, same, ⟨chosen, _⟩, _⟩
        cases stmt <;> simp_all [Stmt.keyword, Stmt.body]

theorem Stmt.eq_ports {stmt : Stmt} (l4 : L4) (chosen : stmt.keyword = l4.text) :
    ∃ side spec, stmt = .ports l4 side spec := by
  cases stmt with
  | ports l4' side spec =>
      obtain rfl := L4.text_injective chosen
      exact ⟨side, spec, rfl⟩
  | _ => cases l4 <;> simp [Stmt.keyword, L4.text] at chosen

theorem Stmt.eq_iifname {stmt : Stmt} (chosen : stmt.keyword = "iifname") :
    ∃ spec, stmt = .iifname spec := by
  cases stmt <;> simp [Stmt.keyword] at chosen ⊢

theorem Stmt.eq_counter {stmt : Stmt} (chosen : stmt.keyword = "counter") :
    ∃ args, stmt = .counter args := by
  cases stmt <;> simp [Stmt.keyword] at chosen ⊢

theorem Stmt.eq_comment {stmt : Stmt} (chosen : stmt.keyword = "comment") :
    ∃ text, stmt = .comment text := by
  cases stmt <;> simp [Stmt.keyword] at chosen ⊢

theorem Stmt.eq_log {stmt : Stmt} (chosen : stmt.keyword = "log") :
    ∃ options, stmt = .log options := by
  cases stmt <;> simp [Stmt.keyword] at chosen ⊢

theorem Stmt.eq_accept {stmt : Stmt} (chosen : stmt.keyword = "accept") :
    stmt = .accept := by
  cases stmt <;> simp [Stmt.keyword] at chosen ⊢

theorem Stmt.eq_drop {stmt : Stmt} (chosen : stmt.keyword = "drop") :
    stmt = .drop := by
  cases stmt <;> simp [Stmt.keyword] at chosen ⊢

theorem Stmt.eq_reject {stmt : Stmt} (chosen : stmt.keyword = "reject") :
    ∃ reason, stmt = .reject reason := by
  cases stmt <;> simp [Stmt.keyword] at chosen ⊢

theorem reads_l4Match (s : Source) (m : Match) (l4 : L4) :
    ReadsMatch l4.text m (l4Match s m l4) := by
  refine position_bind fun start => readsMatch_word ?_ fun w => ?_
  · intro stmt chosen
    obtain ⟨side, spec, rfl⟩ := Stmt.eq_ports l4 chosen
    exact ⟨_, _, rfl⟩
  · have only (side : PortSide) (stmt : Stmt) (chosen : stmt.keyword = l4.text)
        (rest : List Tok) (same : .word side.text :: rest = stmt.body) :
        ∃ spec, stmt = .ports l4 side spec := by
      obtain ⟨side', spec, rfl⟩ := Stmt.eq_ports l4 chosen
      have sides := Tok.word.inj (List.cons.inj same).1
      exact ⟨spec, by rw [PortSide.text_injective sides]⟩
    split
    · exact reads_restOfMatch (reads_portSpec s) (Stmt.ports l4 .sport) (fun _ => rfl)
        (fun _ => rfl) (fun _ _ => Iff.rfl) (fun _ => rfl) (only .sport)
    · exact reads_restOfMatch (reads_portSpec s) (Stmt.ports l4 .dport) (fun _ => rfl)
        (fun _ => rfl) (fun _ _ => Iff.rfl) (fun _ => rfl) (only .dport)
    · next noSport noDport =>
        apply reads_refused (reads_fail _)
        rintro ks next m' ⟨stmt, same, ⟨chosen, _⟩, _⟩
        obtain ⟨side, spec, rfl⟩ := Stmt.eq_ports l4 chosen
        have word := Tok.word.inj (List.cons.inj same).1
        cases side
        · exact noSport word
        · exact noDport word

/-! ### Statements without a match -/

theorem reads_dropNum :
    ReadsToks dropNum (fun ks next _ => ∃ t : Option Tok, ks = t.toList ∧
      (t = none → next = .eof)) := by
  apply Reads.congr (drop_bind (Reads.pure ()))
  intro ts next _ _
  generalize ts.map Token.tok = ks
  constructor
  · intro either
    rcases either with ⟨k, _, rfl, rfl, _⟩ | ⟨rfl, atEnd, _⟩
    · exact ⟨some k, rfl, by simp⟩
    · exact ⟨none, rfl, fun _ => atEnd⟩
  · intro spelled
    rcases spelled with ⟨t, rfl, atEnd⟩
    cases t with
    | none => exact Or.inr ⟨rfl, atEnd rfl, rfl, rfl⟩
    | some k => exact Or.inl ⟨k, [], rfl, rfl, rfl⟩

theorem reads_skipCounter :
    ReadsToks skipCounter (fun ks next _ => ∃ args : CounterArgs,
      ks = args.yield ∧ args.Follow next) := by
  refine Reads.congr (eatWord_ite "packets" (reads_dropNum.bind fun _ =>
    eatWord_ite "bytes" reads_dropNum (Reads.pure ())) (Reads.pure ())) ?_
  intro ts next _ inner
  have inside : ∀ k ∈ ts.map Token.tok, k ≠ .eof := by
    intro k member
    obtain ⟨t, taken, rfl⟩ := List.mem_map.mp member
    exact inner t taken
  revert inside
  generalize ts.map Token.tok = ks
  intro inside
  constructor
  · intro either
    rcases either with ⟨_, rfl, us, vs, _, rfl, ⟨count, rfl, atEnd⟩, rest⟩ | ⟨off, rfl, _⟩
    · have countInside : count ≠ some .eof := by
        rintro rfl
        exact inside .eof (by simp) rfl
      rcases rest with ⟨_, rfl, size, rfl, sizeAtEnd⟩ | ⟨noBytes, rfl, _⟩
      · have sizeInside : size ≠ some .eof := by
          rintro rfl
          exact inside .eof (by simp) rfl
        cases count with
        | none => exact absurd (atEnd rfl) (by simp)
        | some count =>
            have taken : count ≠ .eof := fun same => countInside (congrArg some same)
            refine ⟨.bytes count taken size sizeInside, rfl, ?_⟩
            cases size with
            | none => exact sizeAtEnd rfl
            | some _ => trivial
      · refine ⟨.packets count countInside, by simp [CounterArgs.yield], ?_⟩
        cases count with
        | none => exact atEnd rfl
        | some _ => exact noBytes
    · exact ⟨.absent, rfl, off⟩
  · intro spelled
    rcases spelled with ⟨args, rfl, follow⟩
    cases args with
    | absent => exact Or.inr ⟨follow, rfl, rfl⟩
    | packets count _ =>
        refine Or.inl ⟨_, rfl, count.toList, [], (), (List.append_nil _).symm, ?_⟩
        cases count with
        | none =>
            have atEnd : next = .eof := follow
            exact ⟨⟨none, rfl, fun _ => atEnd⟩, Or.inr ⟨by simp [atEnd], rfl, rfl⟩⟩
        | some k => exact ⟨⟨some k, rfl, by simp⟩, Or.inr ⟨follow, rfl, rfl⟩⟩
    | bytes count _ size _ =>
        refine Or.inl ⟨_, rfl, [count], _, (), rfl, ⟨some count, rfl, by simp⟩,
          Or.inl ⟨_, rfl, size, rfl, ?_⟩⟩
        rintro rfl
        exact follow

theorem reads_logRound (acc : Unit) :
    ReadsToks (logRound acc)
      (Round LogOption.yield LogOption.Follow (fun _ _ => some ())
        (fun _ ks next _ => ks = [] ∧ isLogOption next = false) acc) := by
  have optionInner (t : Token) (holds : isLogOption t.tok = true) : ¬ IsEnd t := by
    intro end_
    rw [show t.tok = .eof from end_] at holds
    contradiction
  have valueInner (t : Token) (holds : isLogValue t.tok = true) : ¬ IsEnd t := by
    intro end_
    rw [show t.tok = .eof from end_] at holds
    contradiction
  have value := Reads.eat_bind Token.tok isLogValue valueInner
    (g := fun _ => (pure (.inl ()) : Parser (Unit ⊕ Unit))) (Reads.pure _) (Reads.pure _)
  apply Reads.congr (Reads.eat_ite Token.tok isLogOption optionInner value (Reads.pure _))
  intro ts next o _
  generalize ts.map Token.tok = ks
  constructor
  · intro either
    rcases either with ⟨k, _, rfl, isOption, rest⟩ | ⟨off, rfl, rfl⟩
    · obtain ⟨w, rfl⟩ : ∃ w, k = .word w := by
        cases k <;> first
          | exact ⟨_, rfl⟩
          | contradiction
      rcases rest with ⟨v, _, rfl, isValue, rfl, rfl⟩ | ⟨noValue, rfl, rfl⟩
      · exact ⟨⟨w, isOption, some v, by simpa using isValue⟩, rfl, by simp [LogOption.Follow],
          rfl⟩
      · exact ⟨⟨w, isOption, none, by simp⟩, rfl, fun _ => noValue, rfl⟩
    · exact ⟨rfl, off⟩
  · intro round
    cases o with
    | inl s =>
        obtain ⟨⟨name, known, value, isValue⟩, rfl, follow, _⟩ := round
        refine Or.inl ⟨_, _, rfl, known, ?_⟩
        cases value with
        | none => exact Or.inr ⟨follow rfl, rfl, rfl⟩
        | some v => exact Or.inl ⟨v, [], rfl, isValue v rfl, rfl, rfl⟩
    | inr s =>
        obtain ⟨rfl, off⟩ := round
        exact Or.inr ⟨off, rfl, rfl⟩

theorem reads_skipLog :
    ReadsToks skipLog (fun ks next _ => ∃ options : List LogOption,
      ks = options.flatMap LogOption.yield ∧
        Followed LogOption.yield LogOption.Follow options next ∧ isLogOption next = false) := by
  apply Reads.congr (Reads.items reads_logRound (by simp [LogOption.yield]) ())
  intro ts next _ _
  generalize ts.map Token.tok = ks
  constructor
  · intro reading
    rcases reading with ⟨options, _, _, rfl, followed, _, rfl, off⟩
    exact ⟨options, List.append_nil _, followed, off⟩
  · intro reading
    rcases reading with ⟨options, rfl, followed, off⟩
    refine ⟨options, (), [], (List.append_nil _).symm, followed, ?_, rfl, off⟩
    clear followed
    induction options with
    | nil => rfl
    | cons option rest ih => exact ih

theorem reads_takeComment (s : Source) :
    ReadsToks (takeComment s) (fun ks _ _ => ∃ text, ks = [.str text]) := by
  have inner (t : Token) (holds : isQuoted t.tok = true) : ¬ IsEnd t := by
    intro end_
    rw [show t.tok = .eof from end_] at holds
    contradiction
  apply Reads.congr (Reads.eat_ite Token.tok isQuoted inner (Reads.pure ()) (Reads.reject _))
  intro ts next _ _
  generalize ts.map Token.tok = ks
  constructor
  · intro either
    rcases either with ⟨k, _, rfl, holds, rfl, _⟩ | ⟨_, ⟨⟩⟩
    cases k with
    | str text => exact ⟨text, rfl⟩
    | _ => contradiction
  · intro both
    rcases both with ⟨text, rfl⟩
    exact Or.inl ⟨_, [], rfl, rfl, rfl, rfl⟩

theorem reads_setAction (s : Source) (current : Option Action) (new : Action)
    (keyword : Nat × Nat) :
    ReadsToks (setAction s current new keyword) (fun ks _ a =>
      ks = [] ∧ current = none ∧ a = new) := by
  cases current with
  | some existing => exact Reads.congr (reads_fail _) (by simp)
  | none => exact Reads.congr (Reads.pure new) (by simp)

theorem reads_skipReason :
    ReadsToks skipReason (fun ks next _ =>
      (∀ k ∈ ks, endsStatement k = false) ∧ endsStatement next = true) := by
  have inner (t : Token) (holds : (!endsStatement t.tok) = true) : ¬ IsEnd t := by
    intro end_
    rw [show t.tok = .eof from end_] at holds
    contradiction
  apply Reads.congr (Reads.skip Token.tok (fun k => !endsStatement k) inner)
  intro ts next _ _
  simp

/-! ### Statements -/

/-- The parser reads the statements with this keyword and does their effect. -/
abbrev ReadsStatement (hook : Hook) (st : RuleState) (keyword : String)
    (p : Parser RuleState) : Prop :=
  ReadsToks p (fun ks next st' => ∃ stmt : Stmt, ks = stmt.body ∧
    (stmt.keyword = keyword ∧ stmt.Follow next) ∧ stmt.apply hook st = some st')

section Statements

variable {hook : Hook} {st : RuleState}

/-- A statement without a verdict narrows the match and leaves the action. -/
theorem Stmt.apply_of_no_verdict {stmt : Stmt} (plain : stmt.verdict = none)
    (allowed : stmt.allowedOn hook = true) :
    stmt.apply hook st = some
      { m := stmt.narrow st.m, action := st.action,
        portsConstrained := st.portsConstrained || stmt.isPorts } := by
  simp [Stmt.apply, allowed, plain]

/-- A statement with neither a verdict nor a match changes nothing. -/
theorem Stmt.apply_of_ignored {stmt : Stmt} (plain : stmt.verdict = none)
    (allowed : stmt.allowedOn hook = true) (portless : stmt.isPorts = false)
    (matchless : stmt.narrow st.m = st.m) : stmt.apply hook st = some st := by
  rw [Stmt.apply_of_no_verdict plain allowed, portless, matchless, Bool.or_false]

theorem Stmt.apply_of_verdict (stmt : Stmt) {action : Action}
    (verdict : stmt.verdict = some action) (st' : RuleState) :
    stmt.apply hook st = some st' ↔
      st.action = none ∧ st' = { st with action := some action } := by
  cases stmt <;> simp only [Stmt.verdict, reduceCtorEq] at verdict
  all_goals
    obtain rfl := Option.some.inj verdict
    cases taken : st.action with
    | none => simp [Stmt.apply, Stmt.allowedOn, Stmt.verdict, taken, Stmt.narrow,
        Stmt.isPorts, eq_comm (a := st')]
    | some existing => simp [Stmt.apply, Stmt.allowedOn, Stmt.verdict, taken]

theorem reads_narrowing {keyword : String} {p : Parser Match}
    (reads : ReadsMatch keyword st.m p) (g : Match → RuleState)
    (effect : ∀ stmt : Stmt, stmt.keyword = keyword →
      stmt.apply hook st = some (g (stmt.narrow st.m))) :
    ReadsStatement hook st keyword (p >>= fun m => pure (g m)) := by
  apply Reads.congr (bind_map reads g)
  intro ts next st' _
  constructor
  · intro spelled
    rcases spelled with ⟨stmt, same, chosen, rfl⟩
    exact ⟨stmt, same, chosen, effect stmt chosen.1⟩
  · intro given
    rcases given with ⟨stmt, same, chosen, applied⟩
    rw [effect stmt chosen.1, Option.some.injEq] at applied
    exact ⟨stmt, same, chosen, applied.symm⟩

theorem reads_form {ι : Type} {keyword : String} {p : Parser RuleState} (make : ι → Stmt)
    (yield : ι → List Tok) (Follow : ι → Tok → Prop)
    (reads : ReadsToks p (fun ks next st' => ∃ i, ks = yield i ∧ Follow i next ∧
      (make i).apply hook st = some st'))
    (spelled : ∀ i, (make i).body = yield i) (keywords : ∀ i, (make i).keyword = keyword)
    (follows : ∀ i next, (make i).Follow next ↔ Follow i next)
    (only : ∀ stmt : Stmt, stmt.keyword = keyword → ∃ i, stmt = make i) :
    ReadsStatement hook st keyword p := by
  apply Reads.congr reads
  intro ts next st' _
  constructor
  · intro given
    rcases given with ⟨i, same, follow, applied⟩
    exact ⟨make i, by rw [same, spelled], ⟨keywords i, (follows i next).mpr follow⟩, applied⟩
  · intro given
    rcases given with ⟨stmt, same, ⟨chosen, follow⟩, applied⟩
    obtain ⟨i, rfl⟩ := only stmt chosen
    exact ⟨i, by rw [same, spelled], (follows i next).mp follow, applied⟩

theorem reads_ignored {ι : Type} {keyword : String} {p : Parser Unit} (make : ι → Stmt)
    (yield : ι → List Tok) (Follow : ι → Tok → Prop)
    (reads : ReadsToks p (fun ks next _ => ∃ i, ks = yield i ∧ Follow i next))
    (spelled : ∀ i, (make i).body = yield i) (keywords : ∀ i, (make i).keyword = keyword)
    (follows : ∀ i next, (make i).Follow next ↔ Follow i next)
    (only : ∀ stmt : Stmt, stmt.keyword = keyword → ∃ i, stmt = make i)
    (ignored : ∀ i, (make i).apply hook st = some st) :
    ReadsStatement hook st keyword (p >>= fun _ => pure st) := by
  have value : ReadsToks p (fun ks next a => ∃ i, ks = yield i ∧ Follow i next ∧ a = ()) := by
    apply Reads.congr reads
    simp
  refine reads_form make yield Follow (Reads.congr (bind_map value (fun _ => st)) ?_) spelled
    keywords follows only
  intro ts next st' _
  simp only [ignored, Option.some.injEq, eq_comm (a := st)]

theorem reads_verdict (s : Source) (new : Action) (keyword : Nat × Nat) :
    ReadsToks (do
      let action ← setAction s st.action new keyword
      pure { st with action := some action } : Parser RuleState)
      (fun ks _ st' => ks = [] ∧ st.action = none ∧ st' = { st with action := some new }) := by
  apply Reads.congr ((reads_setAction s st.action new keyword).bind fun _ => Reads.pure _)
  intro ts next st' _
  generalize ts.map Token.tok = ks
  constructor
  · intro spelled
    rcases spelled with ⟨_, _, _, rfl, ⟨rfl, first, rfl⟩, rfl, rfl⟩
    exact ⟨rfl, first, rfl⟩
  · intro spelled
    rcases spelled with ⟨rfl, first, rfl⟩
    exact ⟨[], [], new, rfl, ⟨rfl, first, rfl⟩, rfl, rfl⟩

theorem Stmt.apply_of_ip_or_meta {stmt : Stmt}
    (chosen : stmt.keyword = "ip" ∨ stmt.keyword = "meta") :
    stmt.apply hook st = some { st with m := stmt.narrow st.m } := by
  have plain : stmt.verdict = none := by
    cases stmt <;> simp_all [Stmt.keyword, Stmt.verdict]
  have allowed : stmt.allowedOn hook = true := by
    cases stmt <;> simp_all [Stmt.keyword, Stmt.allowedOn]
  have portless : stmt.isPorts = false := by
    cases stmt <;> simp_all [Stmt.keyword, Stmt.isPorts]
  rw [Stmt.apply_of_no_verdict plain allowed, portless, Bool.or_false]

theorem reads_portsStatement (s : Source) (l4 : L4) :
    ReadsStatement hook st l4.text (do
      let m ← l4Match s st.m l4
      pure { st with m := m, portsConstrained := true }) := by
  apply reads_narrowing (reads_l4Match s st.m l4)
    (fun m => { st with m := m, portsConstrained := true })
  intro stmt chosen
  obtain ⟨side, spec, rfl⟩ := Stmt.eq_ports l4 chosen
  rw [Stmt.apply_of_no_verdict rfl rfl, Stmt.isPorts, Bool.or_true]

theorem reads_iifnameStatement (s : Source) (error : ParseError) :
    ReadsStatement hook st "iifname" (if hook = .output then fail error
      else do
        let names ← ifSpec s
        pure { st with m := st.m.withIif names }) := by
  have names := bind_map (reads_ifSpec s) (fun names => { st with m := st.m.withIif names })
  refine reads_form Stmt.iifname (Spec.yield IfAtom.form) (Spec.Follow IfAtom.form)
    (Reads.congr (Reads.ite (fun _ => reads_fail error) (fun _ => names)) ?_) (fun _ => rfl)
    (fun _ => rfl) (fun _ _ => Iff.rfl) (fun stmt chosen => Stmt.eq_iifname chosen)
  intro ts next st' _
  by_cases output : hook = .output
  · simp [output, Stmt.apply, Stmt.allowedOn]
  · simp [output, Stmt.apply, Stmt.allowedOn, Stmt.verdict, Stmt.narrow, Stmt.isPorts,
      eq_comm (a := st')]

/-- A verdict of one word. -/
theorem reads_bareVerdict (s : Source) (stmt : Stmt) {action : Action}
    (verdict : stmt.verdict = some action) (bare : stmt.body = [])
    (follows : ∀ next, stmt.Follow next)
    (only : ∀ other : Stmt, other.keyword = stmt.keyword → other = stmt)
    (keyword : Nat × Nat) :
    ReadsStatement hook st stmt.keyword (do
      let taken ← setAction s st.action action keyword
      pure { st with action := some taken }) := by
  refine reads_form (fun _ : Unit => stmt) (fun _ => []) (fun _ _ => True)
    (Reads.congr (reads_verdict s action keyword) ?_) (fun _ => bare) (fun _ => rfl)
    (fun _ next => iff_of_true (follows next) trivial) (fun other chosen => ⟨(), only other chosen⟩)
  intro ts next st' _
  simp [Stmt.apply_of_verdict stmt verdict]

theorem reads_rejectStatement (s : Source) (keyword : Nat × Nat) :
    ReadsStatement hook st "reject" (do
      if ← eatWord "with" then
        skipReason
        let action ← setAction s st.action .reject keyword
        pure { st with action := some action }
      else
        let action ← setAction s st.action .reject keyword
        pure { st with action := some action }) := by
  have taken := @reads_verdict st s .reject keyword
  have both := eatWord_ite "with" (reads_skipReason.bind fun _ => taken) taken
  refine reads_form Stmt.reject _ _ (Reads.congr both ?_) (fun _ => rfl) (fun _ => rfl)
    (fun _ _ => Iff.rfl) (fun stmt chosen => Stmt.eq_reject chosen)
  intro ts next st' _
  generalize ts.map Token.tok = ks
  simp only [Stmt.apply_of_verdict (.reject _) rfl]
  constructor
  · intro either
    rcases either with ⟨_, rfl, us, _, _, rfl, ⟨inside, ends⟩, rfl, taken⟩ | ⟨off, rfl, taken⟩
    · exact ⟨some ⟨us, inside⟩, by simp [Stmt.body], ends, taken⟩
    · exact ⟨none, rfl, off, taken⟩
  · intro spelled
    rcases spelled with ⟨reason, rfl, follow, taken⟩
    cases reason with
    | none => exact Or.inr ⟨follow, rfl, taken⟩
    | some reason =>
        exact Or.inl ⟨reason.tokens, rfl, reason.tokens, [], (),
          (List.append_nil _).symm, ⟨reason.inside, follow⟩, rfl, taken⟩

theorem reads_statement (s : Source) (w : String) (keyword : Nat × Nat) :
    ReadsStatement hook st w (statement s hook st w keyword) := by
  unfold statement
  split
  · apply reads_narrowing (reads_ipMatch s st.m) (fun m => { st with m := m })
    exact fun stmt chosen => Stmt.apply_of_ip_or_meta (Or.inl chosen)
  · apply reads_narrowing (reads_metaMatch s st.m keyword) (fun m => { st with m := m })
    exact fun stmt chosen => Stmt.apply_of_ip_or_meta (Or.inr chosen)
  · exact reads_portsStatement s .tcp
  · exact reads_portsStatement s .udp
  · exact reads_iifnameStatement s _
  · exact reads_ignored Stmt.counter _ _ reads_skipCounter (fun _ => rfl) (fun _ => rfl)
      (fun _ _ => Iff.rfl) (fun stmt chosen => Stmt.eq_counter chosen)
      (fun _ => Stmt.apply_of_ignored rfl rfl rfl rfl)
  · exact reads_ignored Stmt.comment (fun text => [.str text]) (fun _ _ => True)
      (Reads.congr (reads_takeComment s) (by simp)) (fun _ => rfl) (fun _ => rfl)
      (fun _ _ => Iff.rfl) (fun stmt chosen => Stmt.eq_comment chosen)
      (fun _ => Stmt.apply_of_ignored rfl rfl rfl rfl)
  · exact reads_ignored Stmt.log _ _ reads_skipLog (fun _ => rfl) (fun _ => rfl)
      (fun _ _ => Iff.rfl) (fun stmt chosen => Stmt.eq_log chosen)
      (fun _ => Stmt.apply_of_ignored rfl rfl rfl rfl)
  · exact reads_bareVerdict s .accept rfl rfl (fun _ => trivial)
      (fun stmt chosen => Stmt.eq_accept chosen) keyword
  · exact reads_bareVerdict s .drop rfl rfl (fun _ => trivial)
      (fun stmt chosen => Stmt.eq_drop chosen) keyword
  · exact reads_rejectStatement s keyword
  · next noIp noMeta noTcp noUdp noIifname noCounter noComment noLog noAccept noDrop noReject =>
      apply reads_refused (reads_fail _)
      intro ks next st' read
      rcases read with ⟨stmt, _, ⟨chosen, _⟩, _⟩
      cases stmt with
      | ports l4 side spec => cases l4 <;> simp_all [Stmt.keyword, L4.text]
      | _ => simp_all [Stmt.keyword]

def AfterKeyword (hook : Hook) (st : RuleState) (w : String) (ks : List Tok) (next : Tok)
    (o : RuleState ⊕ RuleState) : Prop :=
  ∃ stmt : Stmt, ks = stmt.body ∧ (stmt.keyword = w ∧ stmt.Follow next) ∧
    ∃ st', stmt.apply hook st = some st' ∧ o = .inl st'

theorem reads_afterKeyword (s : Source) (w : String) (keyword : Nat × Nat) :
    ReadsToks (statement s hook st w keyword >>= fun st' =>
      (pure (.inl st') : Parser (RuleState ⊕ RuleState))) (AfterKeyword hook st w) := by
  apply Reads.congr ((reads_statement s w keyword).bind fun st' => Reads.pure _)
  intro ts next o _
  generalize ts.map Token.tok = ks
  constructor
  · intro spelled
    rcases spelled with ⟨_, _, st', rfl, ⟨stmt, rfl, chosen, applied⟩, rfl, rfl⟩
    exact ⟨stmt, List.append_nil _, chosen, st', applied, rfl⟩
  · intro spelled
    rcases spelled with ⟨stmt, rfl, chosen, st', applied, rfl⟩
    exact ⟨_, [], st', (List.append_nil _).symm, ⟨stmt, rfl, chosen, applied⟩, rfl, rfl⟩

/-- One round of the loop of a rule: a statement, or the end of them. -/
theorem reads_statementRound (s : Source) (st : RuleState) :
    ReadsToks (statementRound s hook st)
      (Round Stmt.yield Stmt.Follow (Stmt.apply hook)
        (fun st ks next st' => ks = [] ∧ endsStatement next = true ∧ st' = st) st) := by
  refine Reads.congr (peek_bind (S := fun k ks next o =>
    (∃ w, k = .word w ∧ ((∃ k' vs, ks = k' :: vs ∧ AfterKeyword hook st w vs next o) ∨
      (ks = [] ∧ next = .eof ∧ AfterKeyword hook st w [] next o))) ∨
    (endsStatement k = true ∧ ks = [] ∧ o = .inr st)) fun k => ?_) ?_
  · split
    · exact Reads.congr (Reads.pure _) (by simp [endsStatement])
    · exact Reads.congr (Reads.pure _) (by simp [endsStatement])
    · exact Reads.congr (Reads.pure _) (by simp [endsStatement])
    · exact Reads.congr (Reads.reject _) (by simp [endsStatement])
    · next w =>
        exact Reads.congr (position_bind fun keyword =>
          drop_bind (reads_afterKeyword s w keyword)) (by simp [endsStatement])
    · next noBreak noEnd noBrace _ noWord =>
        apply Reads.congr (Reads.reject _)
        intro ts next o _
        simp only [false_iff, not_or, not_exists, not_and]
        refine ⟨fun w same => absurd same (noWord w), fun ends => ?_⟩
        unfold endsStatement at ends
        split at ends <;> simp_all
  · intro ts next o _
    generalize ts.map Token.tok = ks
    constructor
    · rintro (⟨w, at_, ⟨k, vs, rfl, stmt, rfl, ⟨rfl, follow⟩, st', applied, rfl⟩ |
        ⟨rfl, rfl, _⟩⟩ | ⟨ends, rfl, rfl⟩)
      · rw [List.headD_cons] at at_
        exact ⟨stmt, by rw [at_]; rfl, follow, applied⟩
      · contradiction
      · exact ⟨rfl, ends, rfl⟩
    · intro round
      cases o with
      | inl st' =>
          obtain ⟨stmt, rfl, follow, applied⟩ := round
          exact Or.inl ⟨stmt.keyword, rfl, Or.inl ⟨_, _, rfl, stmt, rfl, ⟨rfl, follow⟩, st',
            applied, rfl⟩⟩
      | inr st' =>
          obtain ⟨rfl, ends, rfl⟩ := round
          exact Or.inr ⟨ends, rfl, rfl⟩

/-- The loop of a rule reads the lists of statements whose effects succeed one
after another, up to the end of the statement line. -/
theorem reads_statements (s : Source) (st : RuleState) :
    ReadsToks (statements s hook st) (fun ks next st' => ∃ stmts : List Stmt,
      ks = stmts.flatMap Stmt.yield ∧ Followed Stmt.yield Stmt.Follow stmts next ∧
        endsStatement next = true ∧ stmts.foldlM (Stmt.apply hook) st = some st') := by
  apply Reads.congr (Reads.items (reads_statementRound s) (by simp [Stmt.yield]) st)
  intro ts next st' _
  generalize ts.map Token.tok = ks
  constructor
  · intro reading
    rcases reading with ⟨stmts, _, _, rfl, followed, folded, rfl, ends, rfl⟩
    exact ⟨stmts, List.append_nil _, followed, ends, folded⟩
  · intro reading
    rcases reading with ⟨stmts, rfl, followed, ends, folded⟩
    exact ⟨stmts, st', [], (List.append_nil _).symm, followed, folded, rfl, ends, rfl⟩

end Statements

end Fwdelta.Nft
