import Fwdelta.Fallible

/-
Recursive-descent parsers with one token of lookahead.

A parser moves a cursor over a token list that ends in a final token, where the
cursor stays.  What a parser accepts is described exactly by a relation between
the tokens it consumes, the token that follows them and the value it returns.
Such relations compose along sequencing and loops, so the relation of a parser
is read off its text, and soundness and completeness are the two directions of
one statement.
-/

namespace Lookahead

@[ext]
structure Cursor (τ : Type) (final : τ → Prop) where
  ahead : List τ
  last : τ
  inner : ∀ t ∈ ahead, ¬ final t
  ends : final last

/-- Why a parser returns nothing: a rejection, or a loop out of fuel. -/
inductive Failure (ε : Type)
  | rejected (error : ε)
  | exhausted
  deriving DecidableEq

variable {τ : Type} {final : τ → Prop} {ε α β σ : Type}

namespace Cursor

def peek (c : Cursor τ final) : τ :=
  c.ahead.headD c.last

/-- The cursor one token on.  It stays at the final token. -/
def next (c : Cursor τ final) : Cursor τ final where
  ahead := c.ahead.tail
  last := c.last
  inner t member := c.inner t (List.mem_of_mem_tail member)
  ends := c.ends

def Splits (c : Cursor τ final) (ts : List τ) (d : Cursor τ final) : Prop :=
  c.ahead = ts ++ d.ahead ∧ d.last = c.last

theorem splits_nil_iff {c d : Cursor τ final} : c.Splits [] d ↔ d = c := by
  constructor
  · intro both
    rcases both with ⟨ahead, last⟩
    exact Cursor.ext ahead.symm last
  · rintro rfl
    exact ⟨rfl, rfl⟩

theorem Splits.peek_eq {c d : Cursor τ final} {ts : List τ} (splits : c.Splits ts d) :
    c.peek = ts.headD d.peek := by
  unfold peek
  rw [splits.1, splits.2]
  cases ts <;> rfl

theorem Splits.inner {c d : Cursor τ final} {ts : List τ} (splits : c.Splits ts d) :
    ∀ t ∈ ts, ¬ final t := by
  intro t member
  apply c.inner
  rw [splits.1]
  exact List.mem_append_left _ member

theorem splits_append_iff {c d : Cursor τ final} {ts us : List τ} :
    c.Splits (ts ++ us) d ↔ ∃ m, c.Splits ts m ∧ m.Splits us d := by
  constructor
  · intro both
    rcases both with ⟨ahead, last⟩
    rw [List.append_assoc] at ahead
    have inner : ∀ t ∈ us ++ d.ahead, ¬ final t := by
      intro t member
      apply c.inner
      rw [ahead]
      exact List.mem_append_right _ member
    exact ⟨⟨us ++ d.ahead, c.last, inner, c.ends⟩, ⟨ahead, rfl⟩, ⟨rfl, last⟩⟩
  · intro given
    rcases given with ⟨m, ⟨ahead, last⟩, ⟨aheadMiddle, lastMiddle⟩⟩
    exact ⟨by rw [ahead, aheadMiddle, List.append_assoc], lastMiddle.trans last⟩

theorem splits_singleton_iff {c d : Cursor τ final} {t : τ} :
    c.Splits [t] d ↔ c.peek = t ∧ ¬ final t ∧ c.next = d := by
  constructor
  · intro splits
    have notFinal := splits.inner t (by simp)
    refine ⟨splits.peek_eq, notFinal, ?_⟩
    apply Cursor.ext
    · simp [next, splits.1]
    · exact splits.2.symm
  · intro located
    rcases located with ⟨at_, notFinal, rfl⟩
    refine ⟨?_, rfl⟩
    unfold peek at at_
    cases ahead : c.ahead with
    | nil =>
        rw [ahead] at at_
        exact absurd (at_ ▸ c.ends) notFinal
    | cons first rest =>
        rw [ahead] at at_
        simp [next, ahead, ← at_]

theorem next_eq_self_of_final {c : Cursor τ final} (atEnd : final c.peek) : c.next = c := by
  cases ahead : c.ahead with
  | nil => exact Cursor.ext (by simp [next, ahead]) rfl
  | cons first rest =>
      unfold peek at atEnd
      rw [ahead] at atEnd
      exact absurd atEnd (c.inner first (by simp [ahead]))

end Cursor

abbrev Parser (τ : Type) (final : τ → Prop) (ε α : Type) :=
  StateT (Cursor τ final) (Except (Failure ε)) α

namespace Parser

def peek : Parser τ final ε τ := fun c => .ok (c.peek, c)

def bump : Parser τ final ε τ := fun c => .ok (c.peek, c.next)

def reject (error : Cursor τ final → ε) : Parser τ final ε α :=
  fun c => .error (.rejected (error c))

def eat (test : τ → Bool) : Parser τ final ε Bool := do
  let t ← peek
  if test t then
    let _ ← bump
    pure true
  else
    pure false

/-- Run a loop body until it returns a result, for at most `fuel` rounds. -/
def iterate (body : σ → Parser τ final ε (σ ⊕ β)) : Nat → σ → Parser τ final ε β
  | 0, _ => fun _ => .error .exhausted
  | fuel + 1, s => do
      match ← body s with
      | .inl s' => iterate body fuel s'
      | .inr result => pure result

/-- A loop whose rounds each consume a token needs no more rounds than there are
tokens ahead, and one to stop. -/
def loop (body : σ → Parser τ final ε (σ ⊕ β)) (s : σ) : Parser τ final ε β :=
  fun c => iterate body (c.ahead.length + 1) s c

def skip (test : τ → Bool) : Parser τ final ε Unit :=
  loop (fun _ => do
    if ← eat test then
      pure (.inl ())
    else
      pure (.inr ())) ()

end Parser

/-! ### The relation a parser reads -/

section Relations

variable {κ : Type}

/-- The parser succeeds exactly on the runs of the relation: the kinds of the
tokens consumed, the kind of the token after them, and the value. -/
def Reads (kind : τ → κ) (p : Parser τ final ε α) (R : List κ → κ → α → Prop) : Prop :=
  ∀ c a d, p c = .ok (a, d) ↔ ∃ ts, c.Splits ts d ∧ R (ts.map kind) (kind d.peek) a

/-- One relation after another; the first looks ahead into the second. -/
def Then (R : List κ → κ → α → Prop) (S : α → List κ → κ → β → Prop) :
    List κ → κ → β → Prop :=
  fun ks next b => ∃ us vs a, ks = us ++ vs ∧ R us (vs.headD next) a ∧ S a vs next b

/-- Rounds of a loop body, the last of which returns. -/
inductive Rounds (S : σ → List κ → κ → σ ⊕ β → Prop) : σ → List κ → κ → β → Prop
  | done {s : σ} {ks : List κ} {next : κ} {result : β}
      (stop : S s ks next (.inr result)) : Rounds S s ks next result
  | more {s s' : σ} {us vs : List κ} {next : κ} {result : β}
      (step : S s us (vs.headD next) (.inl s')) (rest : Rounds S s' vs next result) :
      Rounds S s (us ++ vs) next result

/-! ### Lists of items -/

section Items

variable {ι : Type} (yield : ι → List κ) (Follow : ι → κ → Prop)

def Followed : List ι → κ → Prop
  | [], _ => True
  | item :: rest, next => Follow item ((rest.flatMap yield).headD next) ∧ Followed rest next

/-- A round of a loop reads one item, or stops. -/
def Round (step : σ → ι → Option σ) (Stop : σ → List κ → κ → β → Prop) (s : σ)
    (ks : List κ) (next : κ) : σ ⊕ β → Prop
  | .inl s' => ∃ item, ks = yield item ∧ Follow item next ∧ step s item = some s'
  | .inr result => Stop s ks next result

theorem headD_append (front back : List κ) (next : κ) :
    (front ++ back).headD next = front.headD (back.headD next) := by
  cases front <;> rfl

variable {yield Follow}

theorem Rounds.items_iff {step : σ → ι → Option σ} {Stop : σ → List κ → κ → β → Prop} {s : σ}
    {ks : List κ} {next : κ} {b : β} :
    Rounds (Round yield Follow step Stop) s ks next b ↔ ∃ items s' tail,
      ks = items.flatMap yield ++ tail ∧ Followed yield Follow items (tail.headD next) ∧
        items.foldlM step s = some s' ∧ Stop s' tail next b := by
  constructor
  · intro rounds
    induction rounds with
    | done stop => exact ⟨[], _, _, rfl, trivial, rfl, stop⟩
    | more found _ ih =>
        obtain ⟨item, rfl, follow, stepped⟩ := found
        obtain ⟨items, s', tail, rfl, followed, folded, stop⟩ := ih
        rw [headD_append] at follow
        refine ⟨item :: items, s', tail, ?_, ⟨follow, followed⟩, ?_, stop⟩
        · rw [List.flatMap_cons, List.append_assoc]
        · rw [List.foldlM_cons, stepped]
          exact folded
  · intro reading
    rcases reading with ⟨items, s', tail, rfl, followed, folded, stop⟩
    induction items generalizing s with
    | nil =>
        obtain rfl := Option.some.inj folded
        exact Rounds.done stop
    | cons item rest ih =>
        rw [List.foldlM_cons, Option.bind_eq_bind, Option.bind_eq_some_iff] at folded
        obtain ⟨middle, stepped, folded⟩ := folded
        obtain ⟨follow, followed⟩ := followed
        have later := ih followed folded
        rw [List.flatMap_cons, List.append_assoc]
        rw [← headD_append] at follow
        exact Rounds.more ⟨item, rfl, follow, stepped⟩ later

/-! ### Unambiguous forms -/

variable (yield Follow)

/-- What is read from the left of a token list is determined by it. -/
def Unambiguous : Prop :=
  ∀ a a' rest rest' next, yield a ++ rest = yield a' ++ rest' → Follow a (rest.headD next) →
    Follow a' (rest'.headD next) → a = a' ∧ rest = rest'

variable {yield Follow}

theorem longest_run_unique (P : κ → Prop) (next : κ) {run run' rest rest' : List κ}
    (same : run ++ rest = run' ++ rest') (all : ∀ k ∈ run, P k) (all' : ∀ k ∈ run', P k)
    (stop : ¬ P (rest.headD next)) (stop' : ¬ P (rest'.headD next)) :
    run = run' ∧ rest = rest' := by
  induction run generalizing run' with
  | nil =>
      cases run' with
      | nil => exact ⟨rfl, same⟩
      | cons k more =>
          rw [List.nil_append] at same
          rw [same] at stop
          exact absurd (all' k (by simp)) stop
  | cons k more ih =>
      cases run' with
      | nil =>
          rw [List.nil_append] at same
          rw [← same] at stop'
          exact absurd (all k (by simp)) stop'
      | cons k' more' =>
          obtain ⟨rfl, sameMore⟩ := List.cons.inj same
          obtain ⟨rfl, sameRest⟩ := ih sameMore (fun k member => all k (by simp [member]))
            (fun k member => all' k (by simp [member]))
          exact ⟨rfl, sameRest⟩

/-- Items read from the left determine the list of items, up to a token that
starts none of them. -/
theorem Unambiguous.items (unambiguous : Unambiguous yield Follow) (Starts : κ → Prop)
    (starts : ∀ item next, Starts ((yield item).headD next)) {items items' : List ι}
    {rest rest' : List κ} {next : κ}
    (same : items.flatMap yield ++ rest = items'.flatMap yield ++ rest')
    (followed : Followed yield Follow items (rest.headD next))
    (followed' : Followed yield Follow items' (rest'.headD next))
    (stop : ¬ Starts (rest.headD next)) (stop' : ¬ Starts (rest'.headD next)) :
    items = items' ∧ rest = rest' := by
  have startsAt (item : ι) (more : List κ) : Starts ((yield item ++ more).headD next) := by
    rw [headD_append]
    exact starts item _
  induction items generalizing items' with
  | nil =>
      cases items' with
      | nil => exact ⟨rfl, same⟩
      | cons item' later' =>
          rw [List.flatMap_nil, List.nil_append, List.flatMap_cons, List.append_assoc] at same
          rw [same] at stop
          exact absurd (startsAt item' _) stop
  | cons item later ih =>
      cases items' with
      | nil =>
          rw [List.flatMap_nil, List.nil_append, List.flatMap_cons, List.append_assoc] at same
          rw [← same] at stop'
          exact absurd (startsAt item _) stop'
      | cons item' later' =>
          rw [List.flatMap_cons, List.flatMap_cons, List.append_assoc, List.append_assoc] at same
          obtain ⟨follow, followed⟩ := followed
          obtain ⟨follow', followed'⟩ := followed'
          rw [← headD_append] at follow follow'
          obtain ⟨rfl, sameLater⟩ := unambiguous item item' _ _ next same follow follow'
          obtain ⟨rfl, sameRest⟩ := ih sameLater followed followed'
          exact ⟨rfl, sameRest⟩

end Items

theorem Cursor.Splits.kind_peek (kind : τ → κ) {c d : Cursor τ final} {ts : List τ}
    (splits : c.Splits ts d) : kind c.peek = (ts.map kind).headD (kind d.peek) := by
  rw [splits.peek_eq]
  cases ts <;> rfl

namespace Reads

variable {kind : τ → κ} {p : Parser τ final ε α} {R R' : List κ → κ → α → Prop}

/-- Relations that agree on the kinds of runs without a final token read the same. -/
theorem congr (reads : Reads kind p R)
    (same : ∀ (ts : List τ) next a, (∀ t ∈ ts, ¬ final t) →
      (R (ts.map kind) next a ↔ R' (ts.map kind) next a)) :
    Reads kind p R' := by
  intro c a d
  rw [reads c a d]
  constructor
  · intro run
    rcases run with ⟨ts, splits, holds⟩
    exact ⟨ts, splits, (same ts _ a splits.inner).mp holds⟩
  · intro run
    rcases run with ⟨ts, splits, holds⟩
    exact ⟨ts, splits, (same ts _ a splits.inner).mpr holds⟩

theorem tokens (reads : Reads kind p R) :
    Reads id p (fun ts next a => R (ts.map kind) (kind next) a) := by
  intro c a d
  rw [reads c a d]
  simp

theorem pure (value : α) :
    Reads kind (Pure.pure value : Parser τ final ε α)
      (fun ks _ a => ks = [] ∧ a = value) := by
  intro c a d
  have unfolded : (Pure.pure value : Parser τ final ε α) c = .ok (value, c) := rfl
  rw [unfolded, Except.ok.injEq, Prod.mk.injEq]
  constructor
  · intro both
    rcases both with ⟨rfl, rfl⟩
    exact ⟨[], Cursor.splits_nil_iff.mpr rfl, rfl, rfl⟩
  · intro run
    rcases run with ⟨ts, splits, none, rfl⟩
    obtain rfl := List.map_eq_nil_iff.mp none
    exact ⟨rfl, (Cursor.splits_nil_iff.mp splits).symm⟩

theorem reject (error : Cursor τ final → ε) :
    Reads kind (Parser.reject error : Parser τ final ε α) (fun _ _ _ => False) := by
  intro c a d
  simp [Parser.reject]

theorem bind_apply (p : Parser τ final ε α) (f : α → Parser τ final ε β)
    (c : Cursor τ final) :
    (p >>= f) c = (p c >>= fun found => f found.1 found.2) := rfl

theorem bind {f : α → Parser τ final ε β} {S : α → List κ → κ → β → Prop}
    (first : Reads kind p R) (second : ∀ a, Reads kind (f a) (S a)) :
    Reads kind (p >>= f) (Then R S) := by
  intro c b d
  rw [bind_apply, Fallible.bind_eq_ok_iff]
  constructor
  · intro given
    rcases given with ⟨⟨a, m⟩, found, succeeded⟩
    obtain ⟨us, splits, holds⟩ := (first c a m).mp found
    obtain ⟨vs, splitsRest, holdsRest⟩ := (second a m b d).mp succeeded
    refine ⟨us ++ vs, Cursor.splits_append_iff.mpr ⟨m, splits, splitsRest⟩,
      us.map kind, vs.map kind, a, List.map_append, ?_, holdsRest⟩
    rwa [← splitsRest.kind_peek kind]
  · intro run
    rcases run with ⟨ts, splits, us, vs, a, same, holds, holdsRest⟩
    obtain ⟨us, vs, rfl, rfl, rfl⟩ := List.map_eq_append_iff.mp same
    obtain ⟨m, splitsFirst, splitsRest⟩ := Cursor.splits_append_iff.mp splits
    rw [← splitsRest.kind_peek kind] at holds
    exact ⟨(a, m), (first c a m).mpr ⟨us, splitsFirst, holds⟩,
      (second a m b d).mpr ⟨vs, splitsRest, holdsRest⟩⟩

theorem ite {cond : Prop} [Decidable cond] {q : Parser τ final ε α}
    (yes : cond → Reads kind p R) (no : ¬ cond → Reads kind q R') :
    Reads kind (if cond then p else q)
      (fun ks next a => (cond ∧ R ks next a) ∨ (¬ cond ∧ R' ks next a)) := by
  split
  · next holds => exact Reads.congr (yes holds) (by simp [holds])
  · next fails => exact Reads.congr (no fails) (by simp [fails])

theorem dite {cond : Prop} [Decidable cond] {p : cond → Parser τ final ε α}
    {q : ¬ cond → Parser τ final ε α} {R : cond → List κ → κ → α → Prop}
    {R' : ¬ cond → List κ → κ → α → Prop}
    (yes : ∀ holds, Reads kind (p holds) (R holds))
    (no : ∀ fails, Reads kind (q fails) (R' fails)) :
    Reads kind (if holds : cond then p holds else q holds)
      (fun ks next a => (∃ holds, R holds ks next a) ∨ (∃ fails, R' fails ks next a)) := by
  split
  · next holds => exact Reads.congr (yes holds) (by simp [holds])
  · next fails => exact Reads.congr (no fails) (by simp [fails])

/-! ### Sequencing after a primitive -/

section Primitives

variable {f : τ → Parser τ final ε β}

/-- Looking ahead consumes nothing; what follows may depend on the token only
through its kind. -/
theorem peek_bind (kind : τ → κ) {S : κ → List κ → κ → β → Prop}
    (second : ∀ t, Reads kind (f t) (S (kind t))) :
    Reads kind (Parser.peek >>= f) (fun ks next b => S (ks.headD next) ks next b) := by
  intro c b d
  have unfolded : (Parser.peek >>= f) c = f c.peek c := rfl
  rw [unfolded, second c.peek c b d]
  constructor
  · intro run
    rcases run with ⟨ts, splits, holds⟩
    refine ⟨ts, splits, ?_⟩
    beta_reduce
    rwa [← splits.kind_peek kind]
  · intro run
    rcases run with ⟨ts, splits, holds⟩
    refine ⟨ts, splits, ?_⟩
    rwa [splits.kind_peek kind]

/-- Dropping a token consumes it, unless it is the final one. -/
theorem drop_bind (kind : τ → κ) (ending : κ → Prop) (ends : ∀ t, final t ↔ ending (kind t))
    {q : Parser τ final ε β} {T : List κ → κ → β → Prop} (second : Reads kind q T) :
    Reads kind (Parser.bump >>= fun _ => q) (fun ks next b =>
      (∃ k vs, ks = k :: vs ∧ T vs next b) ∨ (ks = [] ∧ ending next ∧ T [] next b)) := by
  intro c b d
  have unfolded : (Parser.bump >>= fun _ => q) c = q c.next := rfl
  rw [unfolded, second c.next b d]
  by_cases end_ : final c.peek
  · rw [Cursor.next_eq_self_of_final end_]
    have none {ts : List τ} (splits : c.Splits ts d) : ts = [] := by
      cases ts with
      | nil => rfl
      | cons t rest =>
          rw [splits.peek_eq] at end_
          exact absurd end_ (splits.inner t (by simp))
    constructor
    · intro run
      rcases run with ⟨ts, splits, holds⟩
      obtain rfl := none splits
      obtain rfl := Cursor.splits_nil_iff.mp splits
      exact ⟨[], splits, Or.inr ⟨rfl, (ends _).mp end_, holds⟩⟩
    · intro run
      rcases run with ⟨ts, splits, rest⟩
      obtain rfl := none splits
      rcases rest with ⟨k, vs, same, _⟩ | ⟨_, _, holds⟩
      · contradiction
      · exact ⟨[], splits, holds⟩
  · have taken : c.Splits [c.peek] c.next := Cursor.splits_singleton_iff.mpr ⟨rfl, end_, rfl⟩
    constructor
    · intro run
      rcases run with ⟨vs, splits, holds⟩
      exact ⟨[c.peek] ++ vs, Cursor.splits_append_iff.mpr ⟨_, taken, splits⟩,
        Or.inl ⟨kind c.peek, vs.map kind, rfl, holds⟩⟩
    · intro run
      rcases run with ⟨ts, splits, ⟨k, ks, same, holds⟩ | ⟨same, ending_, _⟩⟩
      · obtain ⟨t, vs, rfl, rfl, rfl⟩ := List.map_eq_cons_iff.mp same
        obtain ⟨m, first, rest⟩ := Cursor.splits_append_iff.mp
          (show c.Splits ([t] ++ vs) d from splits)
        obtain ⟨rfl, _, rfl⟩ := Cursor.splits_singleton_iff.mp first
        exact ⟨vs, rest, holds⟩
      · obtain rfl := List.map_eq_nil_iff.mp same
        obtain rfl := Cursor.splits_nil_iff.mp splits
        exact absurd ((ends _).mpr ending_) end_

/-- When the final token is refused, bumping consumes one token. -/
theorem bump_bind (kind : τ → κ) {S : κ → List κ → κ → β → Prop}
    (inner : ∀ t, ¬ final t → Reads kind (f t) (S (kind t)))
    (atEnd : ∀ t, final t → Reads kind (f t) (fun _ _ _ => False)) :
    Reads kind (Parser.bump >>= f)
      (fun ks next b => ∃ k vs, ks = k :: vs ∧ S k vs next b) := by
  intro c b d
  have unfolded : (Parser.bump >>= f) c = f c.peek c.next := rfl
  rw [unfolded]
  by_cases end_ : final c.peek
  · rw [atEnd c.peek end_ c.next b d]
    simp only [and_false, exists_false, false_iff]
    intro run
    rcases run with ⟨ts, splits, k, vs, same, _⟩
    obtain ⟨t, us, rfl, _, _⟩ := List.map_eq_cons_iff.mp same
    rw [splits.peek_eq] at end_
    exact splits.inner t (by simp) end_
  · rw [inner c.peek end_ c.next b d]
    constructor
    · intro run
      rcases run with ⟨vs, splits, holds⟩
      have taken : c.Splits [c.peek] c.next := Cursor.splits_singleton_iff.mpr ⟨rfl, end_, rfl⟩
      exact ⟨[c.peek] ++ vs, Cursor.splits_append_iff.mpr ⟨_, taken, splits⟩,
        kind c.peek, vs.map kind, rfl, holds⟩
    · intro run
      rcases run with ⟨ts, splits, k, ks, same, holds⟩
      obtain ⟨t, vs, rfl, rfl, rfl⟩ := List.map_eq_cons_iff.mp same
      obtain ⟨m, taken, rest⟩ := Cursor.splits_append_iff.mp
        (show c.Splits ([t] ++ vs) d from splits)
      obtain ⟨rfl, _, rfl⟩ := Cursor.splits_singleton_iff.mp taken
      exact ⟨vs, rest, holds⟩

theorem eat_bind (kind : τ → κ) (holds : κ → Bool)
    (notFinal : ∀ t, holds (kind t) = true → ¬ final t)
    {g : Bool → Parser τ final ε β} {T U : List κ → κ → β → Prop}
    (yes : Reads kind (g true) T) (no : Reads kind (g false) U) :
    Reads kind (Parser.eat (fun t => holds (kind t)) >>= g)
      (fun ks next b => (∃ k vs, ks = k :: vs ∧ holds k = true ∧ T vs next b) ∨
        (holds (ks.headD next) = false ∧ U ks next b)) := by
  intro c b d
  have unfolded : (Parser.eat (fun t => holds (kind t)) >>= g) c =
      if holds (kind c.peek) then g true c.next else g false c := by
    have step : (Parser.eat (fun t => holds (kind t)) >>= g) c =
        ((if holds (kind c.peek) then (do let _ ← Parser.bump; Pure.pure true) else
          Pure.pure false : Parser τ final ε Bool) >>= g) c := rfl
    rw [step]
    split <;> rfl
  rw [unfolded]
  constructor
  · intro succeeded
    split at succeeded
    · next at_ =>
        obtain ⟨vs, splits, rest⟩ := (yes c.next b d).mp succeeded
        have taken : c.Splits [c.peek] c.next :=
          Cursor.splits_singleton_iff.mpr ⟨rfl, notFinal _ at_, rfl⟩
        exact ⟨[c.peek] ++ vs, Cursor.splits_append_iff.mpr ⟨_, taken, splits⟩,
          Or.inl ⟨kind c.peek, vs.map kind, rfl, at_, rest⟩⟩
    · next off =>
        obtain ⟨vs, splits, rest⟩ := (no c b d).mp succeeded
        refine ⟨vs, splits, Or.inr ⟨?_, rest⟩⟩
        rw [← splits.kind_peek kind]
        simpa using off
  · intro run
    rcases run with ⟨ts, splits, ⟨k, ks, same, at_, rest⟩ | ⟨off, rest⟩⟩
    · obtain ⟨t, vs, rfl, rfl, rfl⟩ := List.map_eq_cons_iff.mp same
      obtain ⟨m, taken, splitsRest⟩ := Cursor.splits_append_iff.mp
        (show c.Splits ([t] ++ vs) d from splits)
      obtain ⟨rfl, _, rfl⟩ := Cursor.splits_singleton_iff.mp taken
      rw [if_pos at_]
      exact (yes _ b d).mpr ⟨vs, splitsRest, rest⟩
    · rw [← splits.kind_peek kind] at off
      rw [off]
      exact (no c b d).mpr ⟨ts, splits, rest⟩

theorem eat_ite (kind : τ → κ) (holds : κ → Bool)
    (notFinal : ∀ t, holds (kind t) = true → ¬ final t)
    {q q' : Parser τ final ε β} {T U : List κ → κ → β → Prop}
    (yes : Reads kind q T) (no : Reads kind q' U) :
    Reads kind
      (Parser.eat (fun t => holds (kind t)) >>= fun taken => if taken = true then q else q')
      (fun ks next b => (∃ k vs, ks = k :: vs ∧ holds k = true ∧ T vs next b) ∨
        (holds (ks.headD next) = false ∧ U ks next b)) :=
  eat_bind kind holds notFinal yes no

end Primitives

/-! ### Loops -/

section Loop

variable {body : σ → Parser τ final ε (σ ⊕ β)} {S : σ → List κ → κ → σ ⊕ β → Prop}

/-- With more fuel than tokens ahead, bounded rounds are rounds. -/
theorem iterate (reads : ∀ s, Reads kind (body s) (S s))
    (progress : ∀ s ks next s', S s ks next (.inl s') → ks ≠ []) (fuel : Nat) (s : σ)
    (c : Cursor τ final) (enough : c.ahead.length < fuel) (b : β) (d : Cursor τ final) :
    Parser.iterate body fuel s c = .ok (b, d) ↔
      ∃ ts, c.Splits ts d ∧ Rounds S s (ts.map kind) (kind d.peek) b := by
  induction fuel generalizing s c with
  | zero => omega
  | succ fuel ih =>
      rw [Parser.iterate, bind_apply, Fallible.bind_eq_ok_iff]
      -- A round that goes on consumes a token, so the fuel left is enough again.
      have shorter {us : List τ} {m : Cursor τ final} {s' : σ} (splits : c.Splits us m)
          (step : S s (us.map kind) (kind m.peek) (.inl s')) : m.ahead.length < fuel := by
        have lengths := congrArg List.length splits.1
        rw [List.length_append] at lengths
        have consumed := progress s _ _ s' step
        have positive : 0 < us.length := by
          rw [List.length_pos_iff]
          rintro rfl
          exact consumed rfl
        omega
      constructor
      · intro given
        rcases given with ⟨⟨outcome, m⟩, found, succeeded⟩
        obtain ⟨us, splits, holds⟩ := (reads s c outcome m).mp found
        cases outcome with
        | inl s' =>
            obtain ⟨vs, splitsRest, rounds⟩ := (ih s' m (shorter splits holds)).mp succeeded
            refine ⟨us ++ vs, Cursor.splits_append_iff.mpr ⟨m, splits, splitsRest⟩, ?_⟩
            rw [splitsRest.kind_peek kind] at holds
            rw [List.map_append]
            exact Rounds.more holds rounds
        | inr result =>
            have same : (result, m) = (b, d) := Except.ok.inj succeeded
            obtain ⟨rfl, rfl⟩ := Prod.mk.inj same
            exact ⟨us, splits, Rounds.done holds⟩
      · intro run
        rcases run with ⟨ts, splits, rounds⟩
        generalize same : ts.map kind = ks at rounds
        cases rounds with
        | done stop =>
            subst same
            exact ⟨_, (reads s c (.inr b) d).mpr ⟨ts, splits, stop⟩, rfl⟩
        | @more _ s' us vs _ _ step rest =>
            obtain ⟨us, vs, rfl, rfl, rfl⟩ := List.map_eq_append_iff.mp same
            obtain ⟨m, splitsFirst, splitsRest⟩ := Cursor.splits_append_iff.mp splits
            rw [← splitsRest.kind_peek kind] at step
            exact ⟨_, (reads s c (.inl s') m).mpr ⟨us, splitsFirst, step⟩,
              (ih s' m (shorter splitsFirst step)).mpr ⟨vs, splitsRest, rest⟩⟩

theorem loop (reads : ∀ s, Reads kind (body s) (S s))
    (progress : ∀ s ks next s', S s ks next (.inl s') → ks ≠ []) (s : σ) :
    Reads kind (Parser.loop body s) (Rounds S s) := by
  intro c b d
  exact iterate reads progress _ s c (Nat.lt_succ_self _) b d

end Loop

theorem skip (kind : τ → κ) (holds : κ → Bool) (notFinal : ∀ t, holds (kind t) = true → ¬ final t) :
    Reads kind (Parser.skip (fun t => holds (kind t)) : Parser τ final ε Unit)
      (fun ks next _ => (∀ k ∈ ks, holds k = true) ∧ holds next = false) := by
  have body (_ : Unit) : Reads kind
      (do if ← Parser.eat (fun t => holds (kind t)) then Pure.pure (.inl ())
          else Pure.pure (.inr ()) : Parser τ final ε (Unit ⊕ Unit)) _ :=
    eat_ite kind holds notFinal (pure (Sum.inl ())) (pure (Sum.inr ()))
  refine Reads.congr (loop body ?_ ()) ?_
  · rintro _ ks next _ (⟨k, vs, rfl, _⟩ | ⟨_, _, stopped⟩)
    · simp
    · contradiction
  · intro ts next result noFinal
    clear noFinal
    generalize ts.map kind = ks
    constructor
    · generalize () = s
      intro rounds
      induction rounds with
      | done stop =>
          rcases stop with ⟨_, _, _, _, _, stopped⟩ | ⟨fails, rfl, _⟩
          · contradiction
          · exact ⟨by simp, fails⟩
      | more step _ ih =>
          rcases step with ⟨k, _, rfl, at_, rfl, _⟩ | ⟨_, _, continued⟩
          · exact ⟨by simpa [at_] using ih.1, ih.2⟩
          · contradiction
    · intro both
      rcases both with ⟨all, fails⟩
      induction ks with
      | nil => exact Rounds.done (Or.inr ⟨fails, rfl, rfl⟩)
      | cons k rest ih =>
          have at_ := all k (by simp)
          have later := ih (fun later member => all later (by simp [member]))
          exact @Rounds.more _ _ _ _ () () [k] rest next _
            (Or.inl ⟨k, [], rfl, at_, rfl, rfl⟩) later

/-- A loop that reads one item a round reads a list of items. -/
theorem items {ι : Type} {yield : ι → List κ} {Follow : ι → κ → Prop} {step : σ → ι → Option σ}
    {Stop : σ → List κ → κ → β → Prop} {body : σ → Parser τ final ε (σ ⊕ β)}
    (reads : ∀ s, Reads kind (body s) (Round yield Follow step Stop s))
    (progress : ∀ item, yield item ≠ []) (s : σ) :
    Reads kind (Parser.loop body s) (fun ks next b => ∃ items s' tail,
      ks = items.flatMap yield ++ tail ∧ Followed yield Follow items (tail.headD next) ∧
        items.foldlM step s = some s' ∧ Stop s' tail next b) := by
  refine Reads.congr (loop reads ?_ s) ?_
  · rintro s ks next s' ⟨item, rfl, _⟩
    exact progress item
  · intro ts next b _
    exact Rounds.items_iff

end Reads

end Relations

end Lookahead
