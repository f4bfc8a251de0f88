import Fwdelta.Nft.Grammar

/-
What the parser reads.

One rule for each primitive gives the relation of every parser of the frontend;
each is then shown to be the relation of its syntax tree.
-/

namespace Fwdelta.Nft

open Lookahead

/-- The parser succeeds exactly on the token kinds of the relation. -/
abbrev ReadsToks {α : Type} (p : Parser α) (R : List Tok → Tok → α → Prop) : Prop :=
  Reads Token.tok p R

/-! ### Rules for the primitives -/

section Rules

variable {α β : Type} {p q : Parser β} {T U : List Tok → Tok → β → Prop}

theorem reads_fail {κ : Type} {kind : Token → κ} (error : ParseError) :
    Reads kind (fail error : Parser β) (fun _ _ _ => False) :=
  Reads.reject _

theorem reads_refused {κ : Type} {kind : Token → κ} {R : List κ → κ → β → Prop}
    (reads : Reads kind p (fun _ _ _ => False)) (none : ∀ ks next b, ¬ R ks next b) :
    Reads kind p R := by
  apply Reads.congr reads
  intro ts next b _
  simp [none]

theorem position_bind {f : Nat × Nat → Parser β} (second : ∀ pos, ReadsToks (f pos) T) :
    ReadsToks (position >>= f) T := by
  intro c b d
  exact second (c.peek.line, c.peek.column) c b d

theorem peek_bind {f : Tok → Parser β} {S : Tok → List Tok → Tok → β → Prop}
    (second : ∀ k, ReadsToks (f k) (S k)) :
    ReadsToks (peek >>= f) (fun ks next b => S (ks.headD next) ks next b) := by
  have seen (t : Token) : ReadsToks (f t.tok) (S t.tok) := second t.tok
  exact Reads.peek_bind Token.tok seen

theorem bump_bind {f : Tok → Parser β} {S : Tok → List Tok → Tok → β → Prop}
    (second : ∀ k, k ≠ .eof → ReadsToks (f k) (S k))
    (atEnd : ReadsToks (f .eof) (fun _ _ _ => False)) :
    ReadsToks (bump >>= f) (fun ks next b => ∃ k vs, ks = k :: vs ∧ S k vs next b) := by
  have inner (t : Token) (notFinal : ¬ IsEnd t) : ReadsToks (f t.tok) (S t.tok) :=
    second t.tok notFinal
  have final (t : Token) (end_ : IsEnd t) : ReadsToks (f t.tok) (fun _ _ _ => False) := by
    rw [show t.tok = .eof from end_]
    exact atEnd
  exact Reads.bump_bind Token.tok inner final

theorem eatSym_ite (c : Char) (yes : ReadsToks p T) (no : ReadsToks q U) :
    ReadsToks (eatSym c >>= fun taken => if taken = true then p else q)
      (fun ks next b => (∃ vs, ks = .sym c :: vs ∧ T vs next b) ∨
        (ks.headD next ≠ .sym c ∧ U ks next b)) := by
  have notFinal (t : Token) (holds : (t.tok == .sym c) = true) : ¬ IsEnd t := by
    simp [IsEnd, beq_iff_eq.mp holds]
  apply (Reads.eat_ite Token.tok (fun k => k == .sym c) notFinal yes no).congr
  intro ts next b _
  simp

theorem eatSym_bind (c : Char) (yes : ReadsToks p T) (no : ReadsToks p U) :
    ReadsToks (eatSym c >>= fun _ => p)
      (fun ks next b => (∃ vs, ks = .sym c :: vs ∧ T vs next b) ∨
        (ks.headD next ≠ .sym c ∧ U ks next b)) := by
  have same : (eatSym c >>= fun _ => p) =
      (eatSym c >>= fun taken => if taken = true then p else p) := by
    simp
  rw [same]
  exact eatSym_ite c yes no

theorem reads_eatSym (c : Char) :
    ReadsToks (eatSym c) (fun ks next taken =>
      (taken = true ∧ ks = [.sym c]) ∨ (taken = false ∧ ks = [] ∧ next ≠ .sym c)) := by
  have branch (taken : Bool) :
      (if taken = true then pure true else pure false : Parser Bool) = pure taken := by
    cases taken <;> rfl
  have same : (eatSym c >>= fun taken => if taken = true then pure true else pure false) =
      eatSym c := by
    simp only [branch, bind_pure]
  rw [← same]
  apply Reads.congr (eatSym_ite c (Reads.pure true) (Reads.pure false))
  intro ts next taken _
  generalize ts.map Token.tok = ks
  constructor
  · intro either
    rcases either with ⟨_, rfl, rfl, rfl⟩ | ⟨off, rfl, rfl⟩
    · exact Or.inl ⟨rfl, rfl⟩
    · exact Or.inr ⟨rfl, rfl, off⟩
  · intro either
    rcases either with ⟨rfl, rfl⟩ | ⟨rfl, rfl, off⟩
    · exact Or.inl ⟨[], rfl, rfl, rfl⟩
    · exact Or.inr ⟨off, rfl, rfl⟩

theorem eatWord_ite (w : String) (yes : ReadsToks p T) (no : ReadsToks q U) :
    ReadsToks (eatWord w >>= fun taken => if taken = true then p else q)
      (fun ks next b => (∃ vs, ks = .word w :: vs ∧ T vs next b) ∨
        (ks.headD next ≠ .word w ∧ U ks next b)) := by
  have notFinal (t : Token) (holds : (t.tok == .word w) = true) : ¬ IsEnd t := by
    simp [IsEnd, beq_iff_eq.mp holds]
  apply (Reads.eat_ite Token.tok (fun k => k == .word w) notFinal yes no).congr
  intro ts next b _
  simp

theorem bind_one {p : Parser α} {k : α → Tok} {f : α → Parser β}
    {S : α → List Tok → Tok → β → Prop} (first : ReadsToks p (fun ks _ a => ks = [k a]))
    (second : ∀ a, ReadsToks (f a) (S a)) :
    ReadsToks (p >>= f) (fun ks next b => ∃ a vs, ks = k a :: vs ∧ S a vs next b) := by
  apply (first.bind second).congr
  intro ts next b _
  constructor
  · intro matched
    rcases matched with ⟨_, vs, a, same, rfl, holds⟩
    exact ⟨a, vs, same, holds⟩
  · intro matched
    rcases matched with ⟨a, vs, same, holds⟩
    exact ⟨[k a], vs, a, same, rfl, holds⟩

theorem reads_expectSym (s : Source) (c : Char) :
    ReadsToks (expectSym s c) (fun ks _ _ => ks = [.sym c]) := by
  apply (eatSym_ite c (Reads.pure ()) (Reads.reject _)).congr
  simp

/-- A parser that takes one kind of token and refuses all others. -/
theorem reads_take {f : Tok → Parser α} {k : α → Tok} (injective : Function.Injective k)
    (hits : ∀ a, f (k a) = pure a)
    (misses : ∀ t, (∀ a, t ≠ k a) → ReadsToks (f t) (fun _ _ _ => False))
    (notEof : ∀ a, Tok.eof ≠ k a) :
    ReadsToks (bump >>= f) (fun ks _ a => ks = [k a]) := by
  have second (t : Tok) (_ : t ≠ .eof) :
      ReadsToks (f t) (fun ks _ a => ks = [] ∧ t = k a) := by
    by_cases hit : ∃ a, t = k a
    · obtain ⟨a, rfl⟩ := hit
      rw [hits]
      apply (Reads.pure a).congr
      intro ts next b _
      rw [injective.eq_iff, eq_comm (a := a)]
    · have missed : ∀ a, t ≠ k a := fun a same => hit ⟨a, same⟩
      exact (misses t missed).congr (by simp [missed])
  apply (bump_bind second (misses .eof notEof)).congr
  intro ts next a _
  constructor
  · intro spelled
    rcases spelled with ⟨_, _, same, rfl, rfl⟩
    exact same
  · intro same
    exact ⟨k a, [], same, rfl, rfl⟩

theorem reads_expectWord (s : Source) :
    ReadsToks (expectWord s) (fun ks _ w => ks = [.word w]) := by
  refine reads_take (fun a b same => Tok.word.inj same) (fun _ => rfl) ?_ (by simp)
  intro t missed
  cases t with
  | word w => exact absurd rfl (missed w)
  | _ => exact Reads.reject _

theorem reads_expectNum (s : Source) :
    ReadsToks (expectNum s) (fun ks _ n => ks = [.num n]) := by
  refine reads_take (fun a b same => Tok.num.inj same) (fun _ => rfl) ?_ (by simp)
  intro t missed
  cases t with
  | num n => exact absurd rfl (missed n)
  | _ => exact Reads.reject _

theorem reads_takeIp (s : Source) (pos : Nat × Nat) :
    ReadsToks (takeIp s pos) (fun ks _ a => ks = [.ip a]) := by
  refine reads_take (fun a b same => Tok.ip.inj same) (fun _ => rfl) ?_ (by simp)
  intro t missed
  cases t with
  | ip a => exact absurd rfl (missed a)
  | _ => exact Reads.reject _

theorem reads_takeName (s : Source) (pos : Nat × Nat) :
    ReadsToks (takeName s pos) (fun ks _ name => ks = [.str name] ∨ ks = [.word name]) := by
  have second (k : Tok) (_ : k ≠ .eof) :
      ReadsToks (nameText s pos k)
        (fun ks _ name => ks = [] ∧ (k = .str name ∨ k = .word name)) := by
    cases k with
    | str text =>
        apply (Reads.pure text).congr
        intro ts next name _
        rw [Tok.str.injEq, eq_comm (a := name)]
        simp
    | word w =>
        apply (Reads.pure w).congr
        intro ts next name _
        rw [Tok.word.injEq, eq_comm (a := name)]
        simp
    | _ => exact (Reads.reject _).congr (by simp)
  apply (bump_bind second (Reads.reject _)).congr
  intro ts next name _
  constructor
  · intro spelled
    rcases spelled with ⟨_, _, same, rfl, rfl | rfl⟩
    · exact Or.inl same
    · exact Or.inr same
  · intro either
    rcases either with same | same
    · exact ⟨_, [], same, rfl, Or.inl rfl⟩
    · exact ⟨_, [], same, rfl, Or.inr rfl⟩

theorem reads_skipBreaks :
    ReadsToks skipBreaks (fun ks next _ => (∃ n, ks = breaks n) ∧ next ≠ .brk) := by
  have notFinal (t : Token) (holds : (t.tok == .brk) = true) : ¬ IsEnd t := by
    simp [IsEnd, beq_iff_eq.mp holds]
  apply Reads.congr (Reads.skip Token.tok (fun k => k == .brk) notFinal)
  intro ts next b _
  constructor
  · intro both
    rcases both with ⟨all, stop⟩
    refine ⟨⟨_, List.eq_replicate_iff.mpr ⟨rfl, fun k member => ?_⟩⟩, by simpa using stop⟩
    simpa using all k member
  · intro both
    rcases both with ⟨⟨n, same⟩, stop⟩
    refine ⟨fun k member => ?_, by simpa using stop⟩
    rw [same] at member
    simp [List.eq_of_mem_replicate member]

theorem skipBreaks_bind {f : Unit → Parser β} (second : ReadsToks (f ()) T) :
    ReadsToks (skipBreaks >>= f)
      (fun ks next b => ∃ n vs, ks = breaks n ++ vs ∧ vs.headD next ≠ .brk ∧ T vs next b) := by
  apply (reads_skipBreaks.bind (S := fun _ => T) (fun _ => second)).congr
  intro ts next b _
  constructor
  · intro matched
    rcases matched with ⟨_, vs, _, same, ⟨⟨n, rfl⟩, stop⟩, holds⟩
    exact ⟨n, vs, same, stop, holds⟩
  · intro matched
    rcases matched with ⟨n, vs, same, stop, holds⟩
    exact ⟨breaks n, vs, (), same, ⟨⟨n, rfl⟩, stop⟩, holds⟩

end Rules

/-! ### Values -/

abbrev Form.ReadBy {α β : Type} (form : Form α β) (p : Parser β) : Prop :=
  ReadsToks p (fun ks next b =>
    ∃ a, ks = form.yield a ∧ form.Follow a next ∧ b = form.value a)

theorem reads_addrAtom (s : Source) : AddrAtom.form.ReadBy (addrAtom s) := by
  unfold Form.ReadBy addrAtom
  refine Reads.congr (position_bind fun start => bind_one (reads_takeIp s start) fun base =>
    eatSym_ite '/'
      (bind_one (reads_expectNum s) fun len =>
        Reads.ite (fun _ => reads_fail _) (fun _ => Reads.pure _))
      (eatSym_ite '-'
        (position_bind fun fin => bind_one (reads_takeIp s fin) fun hi =>
          Reads.ite (fun _ => reads_fail _) (fun _ => Reads.pure _))
        (Reads.pure _))) ?_
  intro ts next b _
  generalize ts.map Token.tok = ks
  constructor
  · rintro ⟨base, _, rfl, ⟨_, rfl, len, _, rfl, ⟨_, ⟨⟩⟩ | ⟨within, rfl, rfl⟩⟩ |
      ⟨noSlash, ⟨_, rfl, hi, _, rfl, ⟨_, ⟨⟩⟩ | ⟨ordered, rfl, rfl⟩⟩ | ⟨noDash, rfl, rfl⟩⟩⟩
    · exact ⟨.cidr base len (Nat.le_of_not_lt within), rfl, trivial, rfl⟩
    · exact ⟨.range base hi (BitVec.not_lt.mp ordered), rfl, trivial, rfl⟩
    · exact ⟨.point base, rfl, ⟨noSlash, noDash⟩, rfl⟩
  · intro spelled
    rcases spelled with ⟨atom, rfl, follow, rfl⟩
    cases atom with
    | point address =>
        exact ⟨address, [], rfl, Or.inr ⟨follow.1, Or.inr ⟨follow.2, rfl, rfl⟩⟩⟩
    | cidr base len within =>
        exact ⟨base, _, rfl, Or.inl ⟨_, rfl, len, [], rfl,
          Or.inr ⟨Nat.not_lt.mpr within, rfl, rfl⟩⟩⟩
    | range lo hi ordered =>
        exact ⟨lo, _, rfl, Or.inr ⟨by simp, Or.inl ⟨_, rfl, hi, [], rfl,
          Or.inr ⟨BitVec.not_lt.mpr ordered, rfl, rfl⟩⟩⟩⟩

/-- A parser that consumes nothing and checks the next token. -/
theorem bind_guard {β : Type} {p : Parser Unit} {G : Tok → Prop} {f : Unit → Parser β}
    {T : List Tok → Tok → β → Prop} (first : ReadsToks p (fun ks next _ => ks = [] ∧ G next))
    (second : ReadsToks (f ()) T) :
    ReadsToks (p >>= f) (fun ks next b => G (ks.headD next) ∧ T ks next b) := by
  apply Reads.congr (first.bind (S := fun _ => T) (fun _ => second))
  intro ts next b _
  constructor
  · intro matched
    rcases matched with ⟨_, vs, _, same, ⟨rfl, guard⟩, holds⟩
    rw [same]
    exact ⟨guard, holds⟩
  · intro both
    rcases both with ⟨guard, holds⟩
    exact ⟨[], _, (), rfl, ⟨rfl, guard⟩, holds⟩

theorem reads_rejectService (s : Source) (pos : Nat × Nat) :
    ReadsToks (rejectService s pos) (fun ks next _ => ks = [] ∧ ∀ w, next ≠ .word w) := by
  unfold rejectService
  refine Reads.congr
    (peek_bind (S := fun k ks _ _ => ks = [] ∧ ∀ w, k ≠ .word w) (fun k => ?_)) ?_
  · cases k with
    | word w => exact Reads.congr (reads_fail _) (by simp)
    | _ => exact Reads.congr (Reads.pure ()) (by simp)
  · intro ts next _ _
    constructor
    · intro both
      rcases both with ⟨none, guard⟩
      rw [none] at guard
      exact ⟨none, guard⟩
    · intro both
      rcases both with ⟨none, guard⟩
      rw [none]
      exact ⟨rfl, guard⟩

theorem reads_rejectNamedSet (s : Source) :
    ReadsToks (rejectNamedSet s) (fun ks next _ => ks = [] ∧ next ≠ .sym '@') := by
  unfold rejectNamedSet
  refine Reads.congr
    (peek_bind (S := fun k ks _ _ => ks = [] ∧ k ≠ .sym '@') (fun k => ?_)) ?_
  · split
    · exact Reads.congr (Reads.reject _) (by simp)
    · next other =>
        apply Reads.congr (Reads.pure ())
        intro ts next _ _
        constructor
        · exact fun done => ⟨done.1, other⟩
        · exact fun done => ⟨done.1, rfl⟩
  · intro ts next _ _
    constructor
    · intro both
      rcases both with ⟨none, guard⟩
      rw [none] at guard
      exact ⟨none, guard⟩
    · intro both
      rcases both with ⟨none, guard⟩
      rw [none]
      exact ⟨rfl, guard⟩

theorem reads_portAtom (s : Source) : PortAtom.form.ReadBy (portAtom s) := by
  unfold Form.ReadBy portAtom
  refine Reads.congr (position_bind fun start => bind_guard (reads_rejectService s start)
    (bind_one (reads_expectNum s) fun lo => Reads.dite (fun _ => reads_fail _) (fun _ =>
      eatSym_ite '-'
        (position_bind fun fin => bind_one (reads_expectNum s) fun hi =>
          Reads.ite (fun _ => reads_fail _) (fun _ =>
            Reads.ite (fun _ => reads_fail _) (fun _ => Reads.pure _)))
        (Reads.pure _)))) ?_
  intro ts next b _
  generalize ts.map Token.tok = ks
  constructor
  · rintro ⟨_, lo, _, rfl, ⟨_, ⟨⟩⟩ | ⟨within, ⟨_, rfl, hi, _, rfl, ⟨_, ⟨⟩⟩ |
      ⟨hiWithin, ⟨_, ⟨⟩⟩ | ⟨ordered, rfl, rfl⟩⟩⟩ | ⟨noDash, rfl, rfl⟩⟩⟩
    · exact ⟨.range lo hi hiWithin (Nat.le_of_not_lt ordered), rfl, trivial, rfl⟩
    · exact ⟨.one lo within, rfl, noDash, rfl⟩
  · intro spelled
    rcases spelled with ⟨atom, rfl, follow, rfl⟩
    cases atom with
    | one port within =>
        exact ⟨by simp [PortAtom.form, PortAtom.yield], port, [], rfl,
          Or.inr ⟨within, Or.inr ⟨follow, rfl, rfl⟩⟩⟩
    | range lo hi within ordered =>
        exact ⟨by simp [PortAtom.form, PortAtom.yield], lo, _, rfl,
          Or.inr ⟨by omega, Or.inl ⟨_, rfl, hi, [], rfl,
            Or.inr ⟨within, Or.inr ⟨Nat.not_lt.mpr ordered, rfl, rfl⟩⟩⟩⟩⟩

theorem reads_protoAtom (s : Source) : ProtoAtom.form.ReadBy (protoAtom s) := by
  unfold Form.ReadBy protoAtom
  refine Reads.congr (position_bind fun start => bump_bind
    (S := fun k ks _ b => ks = [] ∧ ∃ atom : ProtoAtom, [k] = atom.yield ∧ b = atom.set)
    (fun k _ => ?_) (reads_fail _)) ?_
  · cases k with
    | num n =>
        apply Reads.congr (Reads.dite (fun _ => Reads.pure _) (fun _ => reads_fail _))
        intro ts next b _
        constructor
        · intro either
          rcases either with ⟨within, none, rfl⟩ | ⟨_, ⟨⟩⟩
          exact ⟨none, .number n within, rfl, rfl⟩
        · intro spelled
          rcases spelled with ⟨none, atom, same, rfl⟩
          cases atom with
          | number m within =>
              obtain rfl := Tok.num.inj (List.singleton_inj.mp same)
              exact Or.inl ⟨within, none, rfl⟩
          | name w m known => exact absurd (List.singleton_inj.mp same) (by simp)
    | word w =>
        dsimp only
        split
        · next n known =>
            apply Reads.congr (Reads.pure _)
            intro ts next b _
            constructor
            · intro both
              rcases both with ⟨none, rfl⟩
              exact ⟨none, .name w n known, rfl, rfl⟩
            · intro spelled
              rcases spelled with ⟨none, atom, same, rfl⟩
              cases atom with
              | number m within => exact absurd (List.singleton_inj.mp same) (by simp)
              | name v m found =>
                  obtain rfl := Tok.word.inj (List.singleton_inj.mp same)
                  rw [known] at found
                  obtain rfl := Option.some.inj found
                  exact ⟨none, rfl⟩
        · next unknown =>
            apply Reads.congr (reads_fail _)
            intro ts next b _
            simp only [false_iff, not_and, not_exists]
            intro _ atom same _
            cases atom with
            | number m within => exact absurd (List.singleton_inj.mp same) (by simp)
            | name v m found =>
                obtain rfl := Tok.word.inj (List.singleton_inj.mp same)
                rw [unknown] at found
                contradiction
    | _ =>
        apply Reads.congr (reads_fail _)
        intro ts next b _
        simp only [false_iff, not_and, not_exists]
        intro _ atom same _
        cases atom <;> exact absurd (List.singleton_inj.mp same) (by simp)
  · intro ts next b _
    constructor
    · intro spelled
      rcases spelled with ⟨k, _, same, rfl, atom, spelled, rfl⟩
      exact ⟨atom, same.trans spelled, trivial, rfl⟩
    · intro spelled
      rcases spelled with ⟨atom, same, _, rfl⟩
      cases atom with
      | number n within => exact ⟨_, [], same, rfl, .number n within, rfl, rfl⟩
      | name w n known => exact ⟨_, [], same, rfl, .name w n known, rfl, rfl⟩

theorem reads_ifName (s : Source) : IfAtom.form.ReadBy (ifName s) := by
  unfold Form.ReadBy ifName
  refine Reads.congr (position_bind fun start => (reads_takeName s start).bind fun name =>
    peek_bind fun next => Reads.ite (fun _ => reads_fail _) (fun _ => Reads.pure name)) ?_
  intro ts next b _
  generalize ts.map Token.tok = ks
  constructor
  · intro spelled
    rcases spelled with ⟨us, vs, name, rfl, taken, ⟨_, ⟨⟩⟩ | ⟨plain, rfl, rfl⟩⟩
    simp only [Bool.or_eq_true, not_or, Bool.not_eq_true, List.headD_nil] at plain
    rcases taken with rfl | rfl
    · exact ⟨⟨b, true, plain.1⟩, rfl, beq_eq_false_iff_ne.mp plain.2, rfl⟩
    · exact ⟨⟨b, false, plain.1⟩, rfl, beq_eq_false_iff_ne.mp plain.2, rfl⟩
  · intro spelled
    rcases spelled with ⟨⟨name, quoted, named⟩, rfl, follow, rfl⟩
    have noStar : (next == Tok.sym '*') = false := beq_eq_false_iff_ne.mpr follow
    refine ⟨_, [], _, (List.append_nil _).symm, ?_, Or.inr ⟨?_, rfl, rfl⟩⟩
    · cases quoted <;> simp [IfAtom.form, IfAtom.yield]
    · rw [named, List.headD_nil, noStar]
      simp

/-! ### Anonymous sets and negation -/

section Sets

variable {α β γ : Type} {form : Form α β} {atom : Parser β}

theorem Form.head_yield (form : Form α β) (a : α) (rest : List Tok) (next : Tok) :
    ((form.yield a ++ rest).headD next).IsLiteral := by
  obtain ⟨t, more, same, literal⟩ := form.starts a
  rw [same]
  exact literal

theorem Tok.IsLiteral.ne {t : Tok} (literal : t.IsLiteral) :
    t ≠ .brk ∧ ∀ c, t ≠ .sym c := by
  cases t <;> simp_all [Tok.IsLiteral]

theorem breaks_headD (n : Nat) (rest : List Tok) (next : Tok) :
    (breaks n ++ rest).headD next = .brk ∨ (breaks n ++ rest).headD next = rest.headD next := by
  cases n with
  | zero => exact Or.inr rfl
  | succ n => exact Or.inl rfl

/-- One round of the loop over members reads a member and a comma, or a member
and the closing brace. -/
theorem reads_memberRound (s : Source) (reads : form.ReadBy atom) (add : γ → β → γ) (acc : γ) :
    ReadsToks (memberRound s atom add acc)
      (fun ks _ o => ∃ member : Member α,
        (ks = member.yield form ++ [.sym ','] ∧ o = .inl (add acc (form.value member.atom))) ∨
        (ks = member.yield form ++ [.sym '}'] ∧ o = .inr (add acc (form.value member.atom)))) := by
  refine Reads.congr (skipBreaks_bind (reads.bind fun a => skipBreaks_bind (eatSym_ite ','
    (Reads.pure _) ((reads_expectSym s '}').bind fun _ => Reads.pure _)))) ?_
  intro ts next o _
  generalize ts.map Token.tok = ks
  constructor
  · intro spelled
    rcases spelled with
      ⟨before, _, rfl, _, us, vs, _, rfl, ⟨a, rfl, _, rfl⟩, after, _, rfl, _, closing⟩
    refine ⟨⟨before, a, after⟩, ?_⟩
    rcases closing with ⟨_, rfl, rfl, rfl⟩ | ⟨_, _, _, _, rfl, rfl, rfl, rfl⟩
    · exact Or.inl ⟨by simp [Member.yield], rfl⟩
    · exact Or.inr ⟨by simp [Member.yield], rfl⟩
  · intro both
    rcases both with ⟨⟨before, a, after⟩, closing⟩
    have literal (rest : List Tok) : (form.yield a ++ rest).headD next ≠ .brk :=
      (form.head_yield a rest next).ne.1
    have follow (c : Char) (closes : (Tok.sym c).ClosesMember) :
        form.Follow a ((breaks after ++ [Tok.sym c]).headD next) := by
      apply form.closed
      rcases breaks_headD after [Tok.sym c] next with same | same <;> rw [same]
      · exact Or.inl rfl
      · exact closes
    rcases closing with ⟨rfl, rfl⟩ | ⟨rfl, rfl⟩
    · exact ⟨before, _, by simp [Member.yield], literal _, form.yield a, _, _, rfl,
        ⟨a, rfl, follow ',' (by simp [Tok.ClosesMember]), rfl⟩, after, _, rfl, by simp,
        Or.inl ⟨[], rfl, rfl, rfl⟩⟩
    · exact ⟨before, _, by simp [Member.yield], literal _, form.yield a, _, _, rfl,
        ⟨a, rfl, follow '}' (by simp [Tok.ClosesMember]), rfl⟩, after, _, rfl, by simp,
        Or.inr ⟨by simp, _, [], (), rfl, rfl, rfl, rfl⟩⟩

theorem reads_setMembers (s : Source) (reads : form.ReadBy atom) (add : γ → β → γ) (acc : γ) :
    ReadsToks (setMembers s atom add acc) (fun ks _ c => ∃ first rest,
      ks = first.yield form ++ yieldRest form rest ∧
        c = (first :: rest).foldl (fun acc member => add acc (form.value member.atom)) acc) := by
  unfold setMembers
  refine Reads.congr (Reads.loop (fun acc => reads_memberRound s reads add acc) ?_ acc) ?_
  · rintro acc ks next acc' ⟨member, ⟨rfl, _⟩ | ⟨rfl, _⟩⟩ <;> simp
  · intro ts next c _
    generalize ts.map Token.tok = ks
    constructor
    · intro rounds
      induction rounds with
      | done stop =>
          obtain ⟨member, ⟨_, continued⟩ | ⟨rfl, same⟩⟩ := stop
          · contradiction
          · exact ⟨member, [], rfl, Sum.inr.inj same⟩
      | more step _ ih =>
          obtain ⟨member, ⟨rfl, same⟩ | ⟨_, stopped⟩⟩ := step
          · obtain ⟨first, rest, rfl, rfl⟩ := ih
            obtain rfl := Sum.inl.inj same
            exact ⟨member, first :: rest, by simp [yieldRest], rfl⟩
          · contradiction
    · intro spelled
      rcases spelled with ⟨first, rest, rfl, rfl⟩
      induction rest generalizing first acc with
      | nil => exact Rounds.done ⟨first, Or.inr ⟨rfl, rfl⟩⟩
      | cons second rest ih =>
          have later := ih (add acc (form.value first.atom)) second
          have spelled : first.yield form ++ yieldRest form (second :: rest) =
              (first.yield form ++ [.sym ',']) ++
                (second.yield form ++ yieldRest form rest) := by
            simp [yieldRest]
          rw [spelled]
          exact Rounds.more ⟨first, Or.inl ⟨rfl, rfl⟩⟩ later

theorem reads_valueForm (s : Source) (reads : form.ReadBy atom) (single : β → γ) (none : γ)
    (add : γ → β → γ) :
    ReadsToks (valueForm s atom single none add) (fun ks next c => ∃ value : Value α,
      ks = value.yield form ∧ value.Follow form next ∧
        c = value.eval form single none add) := by
  unfold valueForm
  refine Reads.congr (eatSym_ite '{' (reads_setMembers s reads add none)
    (reads.bind fun a => Reads.pure (single a))) ?_
  intro ts next c _
  generalize ts.map Token.tok = ks
  constructor
  · rintro (⟨_, rfl, first, rest, rfl, rfl⟩ |
      ⟨_, us, vs, _, rfl, ⟨a, rfl, follow, rfl⟩, rfl, rfl⟩)
    · exact ⟨.set first rest, rfl, trivial, rfl⟩
    · exact ⟨.single a, List.append_nil _, follow, rfl⟩
  · intro spelled
    rcases spelled with ⟨value, rfl, follow, rfl⟩
    cases value with
    | single a =>
        refine Or.inr ⟨?_, form.yield a, [], _, (List.append_nil _).symm,
          ⟨a, rfl, follow, rfl⟩, rfl, rfl⟩
        have literal := form.head_yield a [] next
        rw [List.append_nil] at literal
        exact literal.ne.2 '{'
    | set first rest => exact Or.inl ⟨_, rfl, first, rest, rfl, rfl⟩

theorem Value.head_yield (value : Value α) (next : Tok) (c : Char) (notBrace : c ≠ '{') :
    (value.yield form).headD next ≠ .sym c := by
  cases value with
  | single a =>
      have literal := form.head_yield a [] next
      rw [List.append_nil] at literal
      exact literal.ne.2 c
  | set first rest => simpa [Value.yield] using notBrace.symm

theorem reads_negation :
    ReadsToks negation (fun ks next negated => ∃ n : Negation, ks = n.yield ∧
      negated = n.negated ∧ (n = .absent → next ≠ .sym '!') ∧
        (n = .bang → next ≠ .sym '=')) := by
  unfold negation
  refine Reads.congr (eatSym_ite '!' (eatSym_bind '=' (Reads.pure true) (Reads.pure true))
    (Reads.pure false)) ?_
  intro ts next negated _
  generalize ts.map Token.tok = ks
  constructor
  · intro either
    rcases either with ⟨_, rfl, ⟨_, rfl, rfl, rfl⟩ | ⟨noEqual, rfl, rfl⟩⟩ | ⟨noBang, rfl, rfl⟩
    · exact ⟨.bangEqual, rfl, rfl, by simp, by simp⟩
    · exact ⟨.bang, rfl, rfl, by simp, fun _ => noEqual⟩
    · exact ⟨.absent, rfl, rfl, fun _ => noBang, by simp⟩
  · intro spelled
    rcases spelled with ⟨n, rfl, rfl, noBang, noEqual⟩
    cases n with
    | absent => exact Or.inr ⟨noBang rfl, rfl, rfl⟩
    | bang => exact Or.inl ⟨[], rfl, Or.inr ⟨noEqual rfl, rfl, rfl⟩⟩
    | bangEqual => exact Or.inl ⟨_, rfl, Or.inl ⟨[], rfl, rfl, rfl⟩⟩

theorem reads_specForm {δ : Type} (s : Source) {value : Parser γ} {eval : Value α → γ}
    (reads : ReadsToks value (fun ks next c => ∃ v : Value α,
      ks = v.yield form ∧ v.Follow form next ∧ c = eval v)) (finish : Bool → γ → δ) :
    ReadsToks (specForm s value finish) (fun ks next c => ∃ spec : Spec α,
      ks = spec.yield form ∧ spec.Follow form next ∧
        c = finish spec.negation.negated (eval spec.value)) := by
  unfold specForm
  refine Reads.congr (reads_negation.bind fun negated =>
    bind_guard (reads_rejectNamedSet s) (reads.bind fun v => Reads.pure (finish negated v))) ?_
  intro ts next c _
  generalize ts.map Token.tok = ks
  constructor
  · rintro ⟨us, vs, _, rfl, ⟨n, rfl, rfl, _, _⟩, _, ws, _, _, rfl, ⟨v, rfl, follow, rfl⟩,
      rfl, rfl⟩
    exact ⟨⟨n, v⟩, by simp [Spec.yield], follow, rfl⟩
  · intro spelled
    rcases spelled with ⟨⟨n, v⟩, rfl, follow, rfl⟩
    refine ⟨n.yield, v.yield form, n.negated, rfl, ⟨n, rfl, rfl, fun _ => ?_, fun _ => ?_⟩, ?_,
      v.yield form, [], eval v, (List.append_nil _).symm, ⟨v, rfl, follow, rfl⟩, rfl, rfl⟩
    · exact v.head_yield next '!' (by decide)
    · exact v.head_yield next '=' (by decide)
    · exact v.head_yield next '@' (by decide)

end Sets

theorem reads_addrSpec (s : Source) :
    ReadsToks (addrSpec s) (fun ks next set => ∃ spec : Spec AddrAtom,
      ks = spec.yield AddrAtom.form ∧ spec.Follow AddrAtom.form next ∧
        set = spec.set AddrAtom.form) :=
  reads_specForm s (reads_valueForm s (reads_addrAtom s) id _ _) complementIf

theorem reads_portSpec (s : Source) :
    ReadsToks (portSpec s) (fun ks next set => ∃ spec : Spec PortAtom,
      ks = spec.yield PortAtom.form ∧ spec.Follow PortAtom.form next ∧
        set = spec.set PortAtom.form) :=
  reads_specForm s (reads_valueForm s (reads_portAtom s) id _ _) complementIf

theorem reads_protoSpec (s : Source) :
    ReadsToks (protoSpec s) (fun ks next set => ∃ spec : Spec ProtoAtom,
      ks = spec.yield ProtoAtom.form ∧ spec.Follow ProtoAtom.form next ∧
        set = spec.set ProtoAtom.form) :=
  reads_specForm s (reads_valueForm s (reads_protoAtom s) id _ _) complementIf

theorem reads_ifSpec (s : Source) :
    ReadsToks (ifSpec s) (fun ks next names => ∃ spec : Spec IfAtom,
      ks = spec.yield IfAtom.form ∧ spec.Follow IfAtom.form next ∧ names = spec.interfaces) :=
  reads_specForm s (reads_valueForm s (reads_ifName s) _ _ _) ifFinish

end Fwdelta.Nft
