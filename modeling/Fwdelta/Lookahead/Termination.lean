import Fwdelta.Lookahead

/-
Parsers whose loops end.

A loop ends when each of its rounds returns and a round that goes on consumes a
token: the tokens ahead are the measure, so the cursor may well stay where it is at
the end of the input.  That a round consumes a token is read off the relation its
body reads.
-/

namespace Lookahead

variable {τ : Type} {final : τ → Prop} {ε α β σ : Type}

/-- The parser accepts or rejects: none of its loops runs out of rounds. -/
def Halts (p : Parser τ final ε α) : Prop :=
  ∀ c, p c ≠ .error .exhausted

/-- A round that goes on leaves fewer tokens ahead. -/
def Advances (body : σ → Parser τ final ε (σ ⊕ β)) : Prop :=
  ∀ s c s' d, body s c = .ok (.inl s', d) → d.ahead.length < c.ahead.length

/-- The states and cursors at which the rounds of a loop start. -/
inductive Visits (body : σ → Parser τ final ε (σ ⊕ β)) (s : σ) (c : Cursor τ final) :
    σ → Cursor τ final → Prop
  | start : Visits body s c s c
  | round {s' s'' : σ} {d d' : Cursor τ final} (visited : Visits body s c s' d)
      (step : body s' d = .ok (.inl s'', d')) : Visits body s c s'' d'

/-- What every round keeps is kept by the loop. -/
theorem Visits.invariant {body : σ → Parser τ final ε (σ ⊕ β)} {Inv : σ → Cursor τ final → Prop}
    (keeps : ∀ s c s' d, Inv s c → body s c = .ok (.inl s', d) → Inv s' d) {s s' : σ}
    {c d : Cursor τ final} (visited : Visits body s c s' d) (first : Inv s c) : Inv s' d := by
  induction visited with
  | start => exact first
  | round _ step ih => exact keeps _ _ _ _ ih step

namespace Halts

theorem pure (value : α) : Halts (Pure.pure value : Parser τ final ε α) := by
  intro c failed
  have unfolded : (Pure.pure value : Parser τ final ε α) c = .ok (value, c) := rfl
  rw [unfolded] at failed
  contradiction

theorem peek : Halts (Parser.peek : Parser τ final ε τ) := by
  intro c failed
  contradiction

theorem bump : Halts (Parser.bump : Parser τ final ε τ) := by
  intro c failed
  contradiction

theorem reject (error : Cursor τ final → ε) :
    Halts (Parser.reject error : Parser τ final ε α) := by
  intro c failed
  have unfolded : (Parser.reject error : Parser τ final ε α) c =
    .error (.rejected (error c)) := rfl
  rw [unfolded] at failed
  injection failed with same
  contradiction

theorem bind {p : Parser τ final ε α} {f : α → Parser τ final ε β} (first : Halts p)
    (second : ∀ a, Halts (f a)) : Halts (p >>= f) := by
  intro c failed
  rw [Reads.bind_apply] at failed
  cases found : p c with
  | error e =>
      rw [found] at failed
      have same : e = .exhausted := Except.error.inj failed
      exact first c (same ▸ found)
  | ok out =>
      rw [found] at failed
      exact second out.1 out.2 failed

theorem ite {cond : Prop} [Decidable cond] {p q : Parser τ final ε α} (yes : Halts p)
    (no : Halts q) : Halts (if cond then p else q) := by
  split
  · exact yes
  · exact no

theorem eat (test : τ → Bool) : Halts (Parser.eat test : Parser τ final ε Bool) :=
  peek.bind fun _ => ite (bump.bind fun _ => pure true) (pure false)

/-- With more rounds allowed than there are tokens ahead, a loop that advances ends. -/
theorem iterate {body : σ → Parser τ final ε (σ ⊕ β)} (halts : ∀ s, Halts (body s))
    (advances : Advances body) (fuel : Nat) (s : σ) (c : Cursor τ final)
    (enough : c.ahead.length < fuel) : Parser.iterate body fuel s c ≠ .error .exhausted := by
  induction fuel generalizing s c with
  | zero => omega
  | succ fuel ih =>
      intro failed
      rw [Parser.iterate, Reads.bind_apply] at failed
      cases found : body s c with
      | error e =>
          rw [found] at failed
          have same : e = .exhausted := Except.error.inj failed
          exact halts s c (same ▸ found)
      | ok out =>
          obtain ⟨outcome, d⟩ := out
          rw [found] at failed
          cases outcome with
          | inl s' =>
              have shorter := advances s c s' d found
              exact ih s' d (by omega) failed
          | inr result => exact pure result d failed

theorem loop {body : σ → Parser τ final ε (σ ⊕ β)} (halts : ∀ s, Halts (body s))
    (advances : Advances body) (s : σ) : Halts (Parser.loop body s) := by
  intro c
  exact iterate halts advances _ s c (Nat.lt_succ_self _)

end Halts

/-! ### Progress from the relation a round reads -/

variable {κ : Type} {kind : τ → κ}

theorem Cursor.Splits.length_eq {c d : Cursor τ final} {ts : List τ} (splits : c.Splits ts d) :
    c.ahead.length = ts.length + d.ahead.length := by
  rw [splits.1, List.length_append]

theorem Reads.advances {body : σ → Parser τ final ε (σ ⊕ β)}
    {S : σ → List κ → κ → σ ⊕ β → Prop} (reads : ∀ s, Reads kind (body s) (S s))
    (progress : ∀ s ks next s', S s ks next (.inl s') → ks ≠ []) : Advances body := by
  intro s c s' d found
  obtain ⟨ts, splits, holds⟩ := (reads s c (.inl s') d).mp found
  have consumed := progress s _ _ s' holds
  have positive : 0 < ts.length := by
    rw [List.length_pos_iff]
    rintro rfl
    exact consumed rfl
  have lengths := splits.length_eq
  omega

/-- A loop that reads one item a round advances when no item is empty. -/
theorem Reads.items_advances {ι : Type} {yield : ι → List κ} {Follow : ι → κ → Prop}
    {step : σ → ι → Option σ} {Stop : σ → List κ → κ → β → Prop}
    {body : σ → Parser τ final ε (σ ⊕ β)}
    (reads : ∀ s, Reads kind (body s) (Round yield Follow step Stop s))
    (progress : ∀ item, yield item ≠ []) : Advances body := by
  apply Reads.advances reads
  rintro s ks next s' ⟨item, rfl, _⟩
  exact progress item

/-- The loop that skips the tokens of a kind. -/
def skipRound (test : τ → Bool) (_ : Unit) : Parser τ final ε (Unit ⊕ Unit) := do
  if ← Parser.eat test then
    pure (.inl ())
  else
    pure (.inr ())

theorem skip_eq_loop (test : τ → Bool) :
    (Parser.skip test : Parser τ final ε Unit) = Parser.loop (skipRound test) () := rfl

theorem skipRound_advances (test : τ → Bool) (inner : ∀ t, test t = true → ¬ final t) :
    Advances (skipRound test : Unit → Parser τ final ε (Unit ⊕ Unit)) := by
  have reads (_ : Unit) : Reads id (skipRound test () : Parser τ final ε (Unit ⊕ Unit)) _ :=
    Reads.eat_ite id test inner (Reads.pure (Sum.inl ())) (Reads.pure (Sum.inr ()))
  apply Reads.advances reads
  rintro _ ts next _ (⟨t, rest, rfl, _⟩ | ⟨_, _, stopped⟩)
  · exact List.cons_ne_nil t rest
  · contradiction

theorem Halts.skip (test : τ → Bool) (inner : ∀ t, test t = true → ¬ final t) :
    Halts (Parser.skip test : Parser τ final ε Unit) := by
  rw [skip_eq_loop]
  apply Halts.loop _ (skipRound_advances test inner)
  intro _
  exact (Halts.eat test).bind fun _ => Halts.ite (Halts.pure _) (Halts.pure _)

end Lookahead
