import Mathlib.Logic.Relation

/-
Commands of one client beside an environment.

A command relates a state to a result and to a later state.  The environment may
take any number of steps before and after each atomic step of the client, so what a
client knows between two steps has to survive the steps of the environment.  The
rules carry such knowledge through atomic steps, sequences that stop at the first
failure, and waiting.
-/

namespace Interference

open Relation

variable {σ α β ε : Type}

/-! ### Commands -/

/-- A run from a state to a result and a state. -/
abbrev Command (σ α : Type) : Type :=
  σ → α → σ → Prop

/-- One step of the client, with the environment before it and after it. -/
def atomic (env : σ → σ → Prop) (act : Command σ α) : Command σ α :=
  fun s a t => ∃ before after,
    ReflTransGen env s before ∧ act before a after ∧ ReflTransGen env after t

def done (a : α) : Command σ α :=
  fun s b t => b = a ∧ t = s

def andThen (first : Command σ α) (next : α → Command σ β) : Command σ β :=
  fun s b t => ∃ a u, first s a u ∧ next a u b t

/-- The next command runs on a success; a failure is the result. -/
def andThenOk (first : Command σ (Except ε α)) (next : α → Command σ (Except ε β)) :
    Command σ (Except ε β) :=
  andThen first (fun result =>
    match result with
    | .ok a => next a
    | .error e => done (.error e))

/-- The reasons of failures under other names. -/
def failAs {δ : Type} (rename : ε → δ) (command : Command σ (Except ε α)) :
    Command σ (Except δ α) :=
  fun s result t => ∃ inner, command s inner t ∧ result = inner.mapError rename

/-- Some run of a family of commands. -/
def choose {ι : Type} (family : ι → Command σ α) : Command σ α :=
  fun s a t => ∃ i, family i s a t

/-- Repeat a command until its result is accepted, a bounded number of times. -/
def waitFor (accepted : α → Bool) (idle : α) (round : Command σ (Except ε α)) :
    Nat → Command σ (Except ε α)
  | 0 => done (.ok idle)
  | rounds + 1 =>
      andThenOk round (fun a =>
        if accepted a then done (.ok a) else waitFor accepted idle round rounds)

/-! ### Runs that succeed -/

theorem andThenOk_ok_iff {first : Command σ (Except ε α)} {next : α → Command σ (Except ε β)}
    {s t : σ} {b : β} :
    andThenOk first next s (.ok b) t ↔ ∃ a u, first s (.ok a) u ∧ next a u (.ok b) t := by
  unfold andThenOk andThen
  constructor
  · rintro ⟨result, u, ran, later⟩
    cases result with
    | ok a => exact ⟨a, u, ran, later⟩
    | error e => exact absurd later.1 nofun
  · rintro ⟨a, u, ran, later⟩
    exact ⟨.ok a, u, ran, later⟩

theorem failAs_ok_iff {δ : Type} {rename : ε → δ} {command : Command σ (Except ε α)} {s t : σ}
    {a : α} : failAs rename command s (.ok a) t ↔ command s (.ok a) t := by
  constructor
  · rintro ⟨inner, ran, same⟩
    cases inner with
    | ok b =>
        obtain rfl := Except.ok.inj same
        exact ran
    | error e => contradiction
  · intro ran
    exact ⟨.ok a, ran, rfl⟩

/-! ### What a command ensures -/

/-- The environment keeps the property. -/
def Stable (env : σ → σ → Prop) (property : σ → Prop) : Prop :=
  ∀ s t, env s t → property s → property t

theorem Stable.reach {env : σ → σ → Prop} {property : σ → Prop} (stable : Stable env property)
    {s t : σ} (steps : ReflTransGen env s t) (holds : property s) : property t := by
  induction steps with
  | refl => exact holds
  | tail _ step ih => exact stable _ _ step ih

/-- Every run from the precondition ends in the postcondition of its result. -/
def Ensures (pre : σ → Prop) (command : Command σ α) (post : α → σ → Prop) : Prop :=
  ∀ s a t, pre s → command s a t → post a t

theorem Ensures.imp {pre : σ → Prop} {command : Command σ α} {post weaker : α → σ → Prop}
    (ensures : Ensures pre command post) (implies : ∀ a s, post a s → weaker a s) :
    Ensures pre command weaker :=
  fun s a t holds ran => implies a t (ensures s a t holds ran)

theorem ensures_atomic {env : σ → σ → Prop} {act : Command σ α} {pre : σ → Prop}
    {post : α → σ → Prop} (before : Stable env pre) (step : Ensures pre act post)
    (after : ∀ a, Stable env (post a)) : Ensures pre (atomic env act) post := by
  intro s a t holds ran
  obtain ⟨u, v, first, acted, last⟩ := ran
  exact (after a).reach last (step u a v (before.reach first holds) acted)

theorem ensures_done {pre : σ → Prop} {a : α} {post : α → σ → Prop}
    (holds : ∀ s, pre s → post a s) : Ensures pre (done a) post := by
  intro s b t start ran
  obtain ⟨rfl, rfl⟩ := ran
  exact holds _ start

theorem ensures_andThen {pre : σ → Prop} {first : Command σ α} {next : α → Command σ β}
    {middle : α → σ → Prop} {post : β → σ → Prop} (before : Ensures pre first middle)
    (later : ∀ a, Ensures (middle a) (next a) post) : Ensures pre (andThen first next) post := by
  intro s b t start ran
  obtain ⟨a, u, firstRan, nextRan⟩ := ran
  exact later a u b t (before s a u start firstRan) nextRan

/-- A property of the value of a success, and one of the reason of a failure. -/
def onOk (good : α → σ → Prop) (bad : ε → σ → Prop) : Except ε α → σ → Prop
  | .ok a => good a
  | .error e => bad e

theorem stable_onOk {env : σ → σ → Prop} {good : α → σ → Prop} {bad : ε → σ → Prop}
    (goods : ∀ a, Stable env (good a)) (bads : ∀ e, Stable env (bad e)) (result : Except ε α) :
    Stable env (onOk good bad result) := by
  cases result with
  | ok a => exact goods a
  | error e => exact bads e

theorem ensures_andThenOk {pre : σ → Prop} {first : Command σ (Except ε α)}
    {next : α → Command σ (Except ε β)} {middle : α → σ → Prop} {good : β → σ → Prop}
    {bad : ε → σ → Prop} (before : Ensures pre first (onOk middle bad))
    (later : ∀ a, Ensures (middle a) (next a) (onOk good bad)) :
    Ensures pre (andThenOk first next) (onOk good bad) := by
  unfold andThenOk
  refine ensures_andThen before fun result => ?_
  cases result with
  | ok a => exact later a
  | error e => exact ensures_done fun _ failed => failed

theorem ensures_failAs {δ : Type} {rename : ε → δ} {command : Command σ (Except ε α)}
    {pre : σ → Prop} {good : α → σ → Prop} {bad : δ → σ → Prop}
    (ensures : Ensures pre command (onOk good (fun e => bad (rename e)))) :
    Ensures pre (failAs rename command) (onOk good bad) := by
  rintro s result t holds ⟨inner, ran, rfl⟩
  have reached := ensures s inner t holds ran
  cases inner with
  | ok a => exact reached
  | error e => exact reached

theorem ensures_choose {ι : Type} {family : ι → Command σ α} {pre : σ → Prop}
    {post : α → σ → Prop} (each : ∀ i, Ensures pre (family i) post) :
    Ensures pre (choose family) post := by
  rintro s a t holds ⟨i, ran⟩
  exact each i s a t holds ran

/-- What every round keeps holds when the waiting ends. -/
theorem ensures_waitFor {accepted : α → Bool} {idle : α} {round : Command σ (Except ε α)}
    {pre : σ → Prop} {good : α → σ → Prop} {bad : ε → σ → Prop}
    (kept : Ensures pre round (onOk (fun a s => pre s ∧ good a s) bad))
    (nothing : ∀ s, pre s → good idle s) (rounds : Nat) :
    Ensures pre (waitFor accepted idle round rounds) (onOk (fun a s => pre s ∧ good a s) bad) := by
  induction rounds with
  | zero => exact ensures_done fun s holds => ⟨holds, nothing s holds⟩
  | succ rounds ih =>
      unfold waitFor
      refine ensures_andThenOk kept fun a => ?_
      split
      · exact ensures_done fun _ both => both
      · exact fun s result t both => ih s result t both.1

end Interference
