import Fwdelta.Nft.File

/-
The syntax of statements is unambiguous.

Read from the left, and each part as far as it goes, a list of tokens is spelled
by one list of statements at most.
-/

namespace Fwdelta.Nft

open Lookahead

/-! ### Values -/

abbrev Form.Unambiguous {α β : Type} (form : Form α β) : Prop :=
  Lookahead.Unambiguous form.yield form.Follow

theorem AddrAtom.unambiguous : AddrAtom.form.Unambiguous := by
  intro a a' rest rest' next same follow follow'
  cases a with
  | point address =>
      cases a' with
      | point address' =>
          obtain ⟨sameAddress, rfl⟩ := List.cons.inj same
          exact ⟨by rw [Tok.ip.inj sameAddress], rfl⟩
      | cidr base len within =>
          obtain ⟨_, rfl⟩ := List.cons.inj same
          exact absurd rfl follow.1
      | range lo hi ordered =>
          obtain ⟨_, rfl⟩ := List.cons.inj same
          exact absurd rfl follow.2
  | cidr base len within =>
      cases a' with
      | point address =>
          obtain ⟨_, rfl⟩ := List.cons.inj same
          exact absurd rfl follow'.1
      | cidr base' len' within' =>
          simp only [form, yield, List.cons_append, List.nil_append, List.cons.injEq, Tok.ip.injEq,
            Tok.num.injEq, true_and] at same
          obtain ⟨rfl, rfl, rfl⟩ := same
          exact ⟨rfl, rfl⟩
      | range lo hi ordered => simp [form, yield] at same
  | range lo hi ordered =>
      cases a' with
      | point address =>
          obtain ⟨_, rfl⟩ := List.cons.inj same
          exact absurd rfl follow'.2
      | cidr base len within => simp [form, yield] at same
      | range lo' hi' ordered' =>
          simp only [form, yield, List.cons_append, List.nil_append, List.cons.injEq, Tok.ip.injEq,
            true_and] at same
          obtain ⟨rfl, rfl, rfl⟩ := same
          exact ⟨rfl, rfl⟩

theorem PortAtom.unambiguous : PortAtom.form.Unambiguous := by
  intro a a' rest rest' next same follow follow'
  cases a with
  | one port within =>
      cases a' with
      | one port' within' =>
          obtain ⟨samePort, rfl⟩ := List.cons.inj same
          obtain rfl := Tok.num.inj samePort
          exact ⟨rfl, rfl⟩
      | range lo hi within' ordered =>
          obtain ⟨_, rfl⟩ := List.cons.inj same
          exact absurd rfl follow
  | range lo hi within ordered =>
      cases a' with
      | one port within' =>
          obtain ⟨_, rfl⟩ := List.cons.inj same
          exact absurd rfl follow'
      | range lo' hi' within' ordered' =>
          simp only [form, yield, List.cons_append, List.nil_append, List.cons.injEq, Tok.num.injEq,
            true_and] at same
          obtain ⟨rfl, rfl, rfl⟩ := same
          exact ⟨rfl, rfl⟩

theorem ProtoAtom.unambiguous : ProtoAtom.form.Unambiguous := by
  intro a a' rest rest' next same _ _
  cases a with
  | number n within =>
      cases a' with
      | number n' within' =>
          obtain ⟨sameNumber, rfl⟩ := List.cons.inj same
          obtain rfl := Tok.num.inj sameNumber
          exact ⟨rfl, rfl⟩
      | name w n' known => simp [form, yield] at same
  | name w n known =>
      cases a' with
      | number n' within' => simp [form, yield] at same
      | name w' n' known' =>
          obtain ⟨sameName, rfl⟩ := List.cons.inj same
          obtain rfl := Tok.word.inj sameName
          obtain rfl := Option.some.inj (known.symm.trans known')
          exact ⟨rfl, rfl⟩

theorem IfAtom.unambiguous : IfAtom.form.Unambiguous := by
  rintro ⟨name, quoted, named⟩ ⟨name', quoted', named'⟩ rest rest' next same _ _
  cases quoted <;> cases quoted' <;> simp [form, yield] at same
  · obtain ⟨rfl, rfl⟩ := same
    exact ⟨rfl, rfl⟩
  · obtain ⟨rfl, rfl⟩ := same
    exact ⟨rfl, rfl⟩

theorem breaks_unique {m n : Nat} {rest rest' : List Tok} {next : Tok}
    (same : breaks m ++ rest = breaks n ++ rest') (stop : rest.headD next ≠ .brk)
    (stop' : rest'.headD next ≠ .brk) : m = n ∧ rest = rest' := by
  have all {n : Nat} {k : Tok} (member : k ∈ breaks n) : k = .brk :=
    List.eq_of_mem_replicate member
  obtain ⟨sameBreaks, sameRest⟩ := longest_run_unique (fun k => k = .brk) next same
    (fun _ => all) (fun _ => all) stop stop'
  refine ⟨?_, sameRest⟩
  simpa [breaks] using congrArg List.length sameBreaks

section Values

variable {α β : Type} {form : Form α β}

def Separates (t : Tok) : Prop :=
  t = .sym ',' ∨ t = .sym '}'

theorem Member.unambiguous (atoms : form.Unambiguous) :
    Lookahead.Unambiguous (Member.yield form) (fun _ next => Separates next) := by
  rintro ⟨before, a, after⟩ ⟨before', a', after'⟩ rest rest' next same separates separates'
  have closes {n : Nat} {more : List Tok} (closing : Separates (more.headD next)) :
      ((breaks n ++ more).headD next).ClosesMember := by
    rcases breaks_headD n more next with same | same <;> rw [same]
    · exact Or.inl rfl
    · exact Or.inr closing
  have notBreak {more : List Tok} (closing : Separates (more.headD next)) :
      more.headD next ≠ .brk := by
    rcases closing with same | same <;> rw [same] <;> simp
  simp only [Member.yield, List.append_assoc] at same
  obtain ⟨rfl, sameAtom⟩ := breaks_unique same (form.head_yield a _ next).ne.1
    (form.head_yield a' _ next).ne.1
  obtain ⟨rfl, sameAfter⟩ := atoms a a' _ _ next sameAtom (form.closed a _ (closes separates))
    (form.closed a' _ (closes separates'))
  obtain ⟨rfl, sameRest⟩ := breaks_unique sameAfter (notBreak separates) (notBreak separates')
  exact ⟨rfl, sameRest⟩

theorem yieldRest_separates (members : List (Member α)) (rest : List Tok) (next : Tok) :
    Separates ((yieldRest form members ++ rest).headD next) := by
  cases members with
  | nil => exact Or.inr rfl
  | cons member later => exact Or.inl rfl

theorem yieldRest_unique (atoms : form.Unambiguous) {members members' : List (Member α)}
    {rest rest' : List Tok} (next : Tok)
    (same : yieldRest form members ++ rest = yieldRest form members' ++ rest') :
    members = members' ∧ rest = rest' := by
  induction members generalizing members' with
  | nil =>
      cases members' with
      | nil => exact ⟨rfl, (List.cons.inj same).2⟩
      | cons member' later' => simp [yieldRest] at same
  | cons member later ih =>
      cases members' with
      | nil => simp [yieldRest] at same
      | cons member' later' =>
          simp only [yieldRest, List.cons_append, List.cons.injEq, true_and,
            List.append_assoc] at same
          obtain ⟨rfl, sameLater⟩ := Member.unambiguous atoms member member' _ _ next same
            (yieldRest_separates later rest next) (yieldRest_separates later' rest' next)
          obtain ⟨rfl, sameRest⟩ := ih sameLater
          exact ⟨rfl, sameRest⟩

theorem Value.unambiguous (atoms : form.Unambiguous) :
    Lookahead.Unambiguous (Value.yield form) (Value.Follow form) := by
  intro v v' rest rest' next same follow follow'
  have notBrace (a : α) (more : List Tok) : (form.yield a ++ more).headD next ≠ .sym '{' :=
    (form.head_yield a more next).ne.2 '{'
  cases v with
  | single a =>
      cases v' with
      | single a' =>
          obtain ⟨rfl, sameRest⟩ := atoms a a' rest rest' next same follow follow'
          exact ⟨rfl, sameRest⟩
      | set first more =>
          have brace := notBrace a rest
          rw [show form.yield a ++ rest = _ from same] at brace
          exact absurd rfl brace
  | set first more =>
      cases v' with
      | single a' =>
          have brace := notBrace a' rest'
          rw [← show _ = form.yield a' ++ rest' from same] at brace
          exact absurd rfl brace
      | set first' more' =>
          simp only [Value.yield, List.cons_append, List.cons.injEq, true_and,
            List.append_assoc] at same
          obtain ⟨rfl, sameMore⟩ := Member.unambiguous atoms first first' _ _ next same
            (yieldRest_separates more rest next) (yieldRest_separates more' rest' next)
          obtain ⟨rfl, sameRest⟩ := yieldRest_unique atoms next sameMore
          exact ⟨rfl, sameRest⟩

theorem Value.head_append (form : Form α β) (value : Value α) (rest : List Tok) (next : Tok)
    (c : Char) (notBrace : c ≠ '{') : (value.yield form ++ rest).headD next ≠ .sym c := by
  rw [headD_append]
  exact value.head_yield _ c notBrace

/-- A lone `!` stands before no `=`. -/
theorem Negation.unambiguous : Lookahead.Unambiguous Negation.yield (fun n next =>
    (n = .absent → next ≠ .sym '!') ∧ (n = .bang → next ≠ .sym '=')) := by
  intro n n' rest rest' next same follow follow'
  cases n <;> cases n' <;> simp_all [Negation.yield]
  -- What is left has the sign of the first at the start of the other's rest.
  all_goals
    rw [← same] at follow'
    exact follow' rfl

theorem Spec.unambiguous (atoms : form.Unambiguous) :
    Lookahead.Unambiguous (Spec.yield form) (Spec.Follow form) := by
  rintro ⟨n, v⟩ ⟨n', v'⟩ rest rest' next same follow follow'
  simp only [Spec.yield, List.append_assoc] at same
  have signs (v : Value α) (rest : List Tok) (c : Char) (notBrace : c ≠ '{') :
      (v.yield form ++ rest).headD next ≠ .sym c := v.head_append form rest next c notBrace
  obtain ⟨rfl, sameValue⟩ := Negation.unambiguous n n' _ _ next same
    ⟨fun _ => signs v rest '!' (by decide), fun _ => signs v rest '=' (by decide)⟩
    ⟨fun _ => signs v' rest' '!' (by decide), fun _ => signs v' rest' '=' (by decide)⟩
  obtain ⟨rfl, sameRest⟩ := Value.unambiguous atoms v v' rest rest' next sameValue follow follow'
  exact ⟨rfl, sameRest⟩

end Values

/-! ### Statements -/

/-- A token is taken unless the file ends, so its absence shows. -/
theorem optional_unique (next : Tok) {t t' : Option Tok} {rest rest' : List Tok}
    (same : t.toList ++ rest = t'.toList ++ rest') (inside : t ≠ some .eof)
    (inside' : t' ≠ some .eof) (atEnd : t = none → rest.headD next = .eof)
    (atEnd' : t' = none → rest'.headD next = .eof) : t = t' ∧ rest = rest' := by
  cases t with
  | none =>
      cases t' with
      | none => exact ⟨rfl, same⟩
      | some k =>
          have final := atEnd rfl
          rw [show rest = k :: rest' from same, List.headD_cons] at final
          exact absurd (congrArg some final) inside'
  | some k =>
      cases t' with
      | none =>
          have final := atEnd' rfl
          rw [← show k :: rest = rest' from same, List.headD_cons] at final
          exact absurd (congrArg some final) inside
      | some k' =>
          obtain ⟨rfl, sameRest⟩ := List.cons.inj same
          exact ⟨rfl, sameRest⟩

theorem CounterArgs.unambiguous : Lookahead.Unambiguous CounterArgs.yield CounterArgs.Follow := by
  intro a a' rest rest' next same follow follow'
  cases a with
  | absent =>
      cases a' with
      | absent => exact ⟨rfl, same⟩
      | packets count inside =>
          rw [show rest = _ from same] at follow
          exact absurd rfl follow
      | bytes count inside size sizeInside =>
          rw [show rest = _ from same] at follow
          exact absurd rfl follow
  | packets count inside =>
      cases a' with
      | absent =>
          rw [← show _ = rest' from same] at follow'
          exact absurd rfl follow'
      | packets count' inside' =>
          have counts := (List.cons.inj same).2
          obtain ⟨rfl, sameRest⟩ := optional_unique next counts inside inside'
            (by rintro rfl; exact follow) (by rintro rfl; exact follow')
          exact ⟨rfl, sameRest⟩
      | bytes count' inside' size sizeInside =>
          have counts := (List.cons.inj same).2
          cases count with
          | none =>
              rw [show rest = _ from counts] at follow
              exact absurd follow inside'
          | some k =>
              rw [show rest = _ from (List.cons.inj counts).2] at follow
              exact absurd rfl follow
  | bytes count inside size sizeInside =>
      cases a' with
      | absent =>
          rw [← show _ = rest' from same] at follow'
          exact absurd rfl follow'
      | packets count' inside' =>
          have counts := (List.cons.inj same).2
          cases count' with
          | none =>
              rw [← show _ = rest' from counts] at follow'
              exact absurd follow' inside
          | some k =>
              rw [← show _ = rest' from (List.cons.inj counts).2] at follow'
              exact absurd rfl follow'
      | bytes count' inside' size' sizeInside' =>
          obtain ⟨rfl, sizes⟩ := List.cons.inj (List.cons.inj same).2
          obtain ⟨rfl, sameRest⟩ := optional_unique next (List.cons.inj sizes).2
            sizeInside sizeInside' (by rintro rfl; exact follow) (by rintro rfl; exact follow')
          exact ⟨rfl, sameRest⟩

theorem LogOption.unambiguous : Lookahead.Unambiguous LogOption.yield LogOption.Follow := by
  rintro ⟨name, known, value, isValue⟩ ⟨name', known', value', isValue'⟩ rest rest' next same
    follow follow'
  simp only [LogOption.yield, List.cons_append, List.cons.injEq, Tok.word.injEq] at same
  obtain ⟨rfl, sameValue⟩ := same
  cases value with
  | none =>
      cases value' with
      | none => exact ⟨rfl, sameValue⟩
      | some v =>
          have noValue := follow rfl
          rw [show rest = v :: rest' from sameValue, List.headD_cons] at noValue
          rw [isValue' v rfl] at noValue
          contradiction
  | some v =>
      cases value' with
      | none =>
          have noValue := follow' rfl
          rw [← show v :: rest = rest' from sameValue, List.headD_cons] at noValue
          rw [isValue v rfl] at noValue
          contradiction
      | some v' =>
          obtain ⟨rfl, sameRest⟩ := List.cons.inj sameValue
          exact ⟨rfl, sameRest⟩

theorem logOptions_unique {options options' : List LogOption} {rest rest' : List Tok} {next : Tok}
    (same : options.flatMap LogOption.yield ++ rest = options'.flatMap LogOption.yield ++ rest')
    (follow : (Stmt.log options).Follow (rest.headD next))
    (follow' : (Stmt.log options').Follow (rest'.headD next)) :
    options = options' ∧ rest = rest' := by
  have starts (option : LogOption) (next : Tok) :
      isLogOption (option.yield.headD next) = true := option.known
  exact LogOption.unambiguous.items (fun k => isLogOption k = true) starts same follow.1 follow'.1
    (by rw [follow.2]; simp) (by rw [follow'.2]; simp)

theorem reason_unique {reason reason' : Option Reason} {rest rest' : List Tok} {next : Tok}
    (same : (Stmt.reject reason).body ++ rest = (Stmt.reject reason').body ++ rest')
    (follow : (Stmt.reject reason).Follow (rest.headD next))
    (follow' : (Stmt.reject reason').Follow (rest'.headD next)) :
    reason = reason' ∧ rest = rest' := by
  cases reason with
  | none =>
      cases reason' with
      | none => exact ⟨rfl, same⟩
      | some given =>
          rw [show rest = _ from same] at follow
          exact absurd rfl follow
  | some given =>
      cases reason' with
      | none =>
          rw [← show _ = rest' from same] at follow'
          exact absurd rfl follow'
      | some given' =>
          have ends : endsStatement (rest.headD next) = true := follow
          have ends' : endsStatement (rest'.headD next) = true := follow'
          obtain ⟨tokens, inside⟩ := given
          obtain ⟨tokens', inside'⟩ := given'
          obtain ⟨rfl, sameRest⟩ := longest_run_unique (fun k => endsStatement k = false) next
            (List.cons.inj same).2 inside inside' (by rw [ends]; simp) (by rw [ends']; simp)
          exact ⟨rfl, sameRest⟩

theorem Stmt.unambiguous : Lookahead.Unambiguous Stmt.yield Stmt.Follow := by
  intro stmt stmt' rest rest' next same follow follow'
  cases stmt with
  | saddr spec =>
      cases stmt' <;> simp [Stmt.yield, Stmt.keyword, Stmt.body] at same
      obtain ⟨rfl, sameRest⟩ :=
        Spec.unambiguous AddrAtom.unambiguous _ _ _ _ next same follow follow'
      exact ⟨rfl, sameRest⟩
  | daddr spec =>
      cases stmt' <;> simp [Stmt.yield, Stmt.keyword, Stmt.body] at same
      obtain ⟨rfl, sameRest⟩ :=
        Spec.unambiguous AddrAtom.unambiguous _ _ _ _ next same follow follow'
      exact ⟨rfl, sameRest⟩
  | protocol spec =>
      cases stmt' <;> simp [Stmt.yield, Stmt.keyword, Stmt.body] at same
      obtain ⟨rfl, sameRest⟩ :=
        Spec.unambiguous ProtoAtom.unambiguous _ _ _ _ next same follow follow'
      exact ⟨rfl, sameRest⟩
  | l4proto spec =>
      cases stmt' <;> simp [Stmt.yield, Stmt.keyword, Stmt.body] at same
      obtain ⟨rfl, sameRest⟩ :=
        Spec.unambiguous ProtoAtom.unambiguous _ _ _ _ next same follow follow'
      exact ⟨rfl, sameRest⟩
  | metaIifname spec =>
      cases stmt' <;> simp [Stmt.yield, Stmt.keyword, Stmt.body] at same
      obtain ⟨rfl, sameRest⟩ :=
        Spec.unambiguous IfAtom.unambiguous _ _ _ _ next same follow follow'
      exact ⟨rfl, sameRest⟩
  | ports l4 side spec =>
      cases stmt' <;> simp [Stmt.yield, Stmt.keyword, Stmt.body] at same
      obtain ⟨sameL4, sameSide, sameSpec⟩ := same
      obtain rfl := L4.text_injective sameL4
      obtain rfl := PortSide.text_injective sameSide
      obtain ⟨rfl, sameRest⟩ :=
        Spec.unambiguous PortAtom.unambiguous _ _ _ _ next sameSpec follow follow'
      exact ⟨rfl, sameRest⟩
  | iifname spec =>
      cases stmt' <;> simp [Stmt.yield, Stmt.keyword, Stmt.body] at same
      obtain ⟨rfl, sameRest⟩ :=
        Spec.unambiguous IfAtom.unambiguous _ _ _ _ next same follow follow'
      exact ⟨rfl, sameRest⟩
  | counter args =>
      cases stmt' <;> simp [Stmt.yield, Stmt.keyword, Stmt.body] at same
      obtain ⟨rfl, sameRest⟩ := CounterArgs.unambiguous _ _ _ _ next same follow follow'
      exact ⟨rfl, sameRest⟩
  | comment text =>
      cases stmt' <;> simp [Stmt.yield, Stmt.keyword, Stmt.body] at same
      obtain ⟨rfl, sameRest⟩ := same
      exact ⟨rfl, sameRest⟩
  | log options =>
      cases stmt' <;> simp [Stmt.yield, Stmt.keyword, Stmt.body] at same
      obtain ⟨rfl, sameRest⟩ := logOptions_unique same follow follow'
      exact ⟨rfl, sameRest⟩
  | accept =>
      cases stmt' <;> simp [Stmt.yield, Stmt.keyword, Stmt.body] at same
      exact ⟨rfl, same⟩
  | drop =>
      cases stmt' <;> simp [Stmt.yield, Stmt.keyword, Stmt.body] at same
      exact ⟨rfl, same⟩
  | reject reason =>
      cases stmt' <;> simp only [Stmt.yield, Stmt.keyword, List.cons_append, List.cons.injEq,
        Tok.word.injEq, String.reduceEq, false_and, true_and, (L4.text_ne _)] at same
      obtain ⟨rfl, sameRest⟩ := reason_unique same follow follow'
      exact ⟨rfl, sameRest⟩

end Fwdelta.Nft
