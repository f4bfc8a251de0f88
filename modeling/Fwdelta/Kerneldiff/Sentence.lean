import Fwdelta.Kerneldiff.Emit
import Fwdelta.Nft.Obligations

/-
What the emitter writes, as statements.

An emitted rule is a sentence: an optional statement for each dimension, a
counter, the verdict and a comment.  The emitted text spells the sentence, and
the sentence builds the predicate that comes back.
-/

namespace Fwdelta.Emit

open Nft
open Lookahead

structure Sentence where
  iif : Option (Spec IfAtom)
  proto : Option (Spec ProtoAtom)
  src : Option (Spec AddrAtom)
  dst : Option (Spec AddrAtom)
  l4 : L4
  sport : Option (Spec PortAtom)
  dport : Option (Spec PortAtom)
  action : Action
  number : Nat

def verdictStmt : Action → Stmt
  | .accept => .accept
  | .drop => .drop
  | .reject => .reject none

namespace Sentence

def predicate (s : Sentence) : List Stmt :=
  (s.iif.map Stmt.iifname).toList ++
    ((s.proto.map Stmt.l4proto).toList ++
      ((s.src.map Stmt.saddr).toList ++ ((s.dst.map Stmt.daddr).toList ++
        ((s.sport.map (Stmt.ports s.l4 .sport)).toList ++
          (s.dport.map (Stmt.ports s.l4 .dport)).toList))))

def ending (s : Sentence) : List Stmt :=
  [.counter .absent, verdictStmt s.action, .comment ("r" ++ toString s.number)]

def stmts (s : Sentence) : List Stmt :=
  s.predicate ++ s.ending

end Sentence

/-! ### Statements that stand in a sentence -/

/-- The kinds of statements that the emitter writes. -/
inductive Written : Stmt → Prop
  | iifname (spec : Spec IfAtom) : Written (.iifname spec)
  | l4proto (spec : Spec ProtoAtom) : Written (.l4proto spec)
  | saddr (spec : Spec AddrAtom) : Written (.saddr spec)
  | daddr (spec : Spec AddrAtom) : Written (.daddr spec)
  | ports (l4 : L4) (side : PortSide) (spec : Spec PortAtom) : Written (.ports l4 side spec)
  | counter : Written (.counter .absent)
  | verdict (action : Action) : Written (verdictStmt action)
  | comment (text : String) : Written (.comment text)

theorem Sentence.written (s : Sentence) : ∀ stmt ∈ s.stmts, Written stmt := by
  intro stmt member
  simp only [stmts, predicate, ending, List.mem_append, Option.mem_toList,
    Option.map_eq_some_iff, List.mem_cons, List.not_mem_nil, or_false] at member
  rcases member with (⟨_, _, rfl⟩ | ⟨_, _, rfl⟩ | ⟨_, _, rfl⟩ | ⟨_, _, rfl⟩ | ⟨_, _, rfl⟩ |
    ⟨_, _, rfl⟩) | rfl | rfl | rfl
  · exact .iifname _
  · exact .l4proto _
  · exact .saddr _
  · exact .daddr _
  · exact .ports _ _ _
  · exact .ports _ _ _
  · exact .counter
  · exact .verdict _
  · exact .comment _

/-- A keyword, or the end of the line. -/
def Separate (next : Tok) : Prop :=
  next = .brk ∨ ∃ stmt : Stmt, next = .word stmt.keyword

theorem keyword_ne (stmt : Stmt) :
    stmt.keyword ≠ "packets" ∧ stmt.keyword ≠ "with" ∧ stmt.keyword ≠ "policy" := by
  cases stmt with
  | ports l4 side spec => cases l4 <;> simp [Stmt.keyword, L4.text]
  | _ => simp [Stmt.keyword]

theorem Separate.ne_sym {next : Tok} (separate : Separate next) (c : Char) : next ≠ .sym c := by
  rcases separate with rfl | ⟨stmt, rfl⟩ <;> simp

theorem Separate.ne_word {next : Tok} (separate : Separate next) {w : String}
    (other : ∀ stmt : Stmt, stmt.keyword ≠ w) : next ≠ .word w := by
  rcases separate with rfl | ⟨stmt, rfl⟩
  · simp
  · simpa using other stmt

/-- A value may end before anything but a symbol. -/
theorem spec_follow {α β : Type} {form : Form α β} {next : Tok}
    (atoms : ∀ atom, form.Follow atom next) (spec : Spec α) : spec.Follow form next := by
  unfold Spec.Follow Value.Follow
  cases spec.value with
  | single atom => exact atoms atom
  | set first rest => trivial

theorem Written.follow {stmt : Stmt} (written : Written stmt) {next : Tok}
    (separate : Separate next) : stmt.Follow next := by
  have addr (atom : AddrAtom) : AddrAtom.form.Follow atom next := by
    cases atom with
    | point address => exact ⟨separate.ne_sym '/', separate.ne_sym '-'⟩
    | cidr base len within => trivial
    | range lo hi ordered => trivial
  have port (atom : PortAtom) : PortAtom.form.Follow atom next := by
    cases atom with
    | one port within => exact separate.ne_sym '-'
    | range lo hi within ordered => trivial
  cases written with
  | iifname spec => exact spec_follow (fun _ => separate.ne_sym '*') spec
  | l4proto spec => exact spec_follow (fun _ => trivial) spec
  | saddr spec => exact spec_follow addr spec
  | daddr spec => exact spec_follow addr spec
  | ports l4 side spec => exact spec_follow port spec
  | counter => exact separate.ne_word (fun stmt => (keyword_ne stmt).1)
  | verdict action =>
      cases action with
      | accept => trivial
      | drop => trivial
      | reject => exact separate.ne_word (fun stmt => (keyword_ne stmt).2.1)
  | comment text => trivial

theorem followed_of_written {stmts : List Stmt} (written : ∀ stmt ∈ stmts, Written stmt) :
    Followed Stmt.yield Stmt.Follow stmts .brk := by
  induction stmts with
  | nil => trivial
  | cons stmt later ih =>
      refine ⟨(written stmt (by simp)).follow ?_, ih (fun s member => written s (by simp [member]))⟩
      cases later with
      | nil => exact Or.inl rfl
      | cons second more => exact Or.inr ⟨second, rfl⟩

/-! ### What a sentence builds -/

theorem intersect_full {bits : Nat} (set : IntervalSet bits) :
    set.intersect (IntervalSet.full bits) = set := by
  apply IntervalSet.eq_of_contains
  intro x
  rw [IntervalSet.contains_intersect, Bool.and_eq_true, IntervalSet.contains_full]
  exact and_iff_left_of_imp IntervalSet.contains_le

theorem full_intersect {bits : Nat} (set : IntervalSet bits) :
    (IntervalSet.full bits).intersect set = set := by
  apply IntervalSet.eq_of_contains
  intro x
  rw [IntervalSet.contains_intersect, Bool.and_eq_true, IntervalSet.contains_full]
  exact and_iff_right_of_imp IntervalSet.contains_le

theorem intersect_self {bits : Nat} (set : IntervalSet bits) : set.intersect set = set := by
  apply IntervalSet.eq_of_contains
  intro x
  rw [IntervalSet.contains_intersect, Bool.and_self]

/-- The set of an optional statement: everything where it is left out. -/
def optSet {α : Type} {bits : Nat} (form : Form α (IntervalSet bits)) (spec : Option (Spec α)) :
    IntervalSet bits :=
  (spec.map (Spec.set form)).getD (IntervalSet.full bits)

abbrev narrowAll (stmts : List Stmt) (m : Match) : Match :=
  stmts.foldl (fun m stmt => stmt.narrow m) m

theorem narrowAll_append (front back : List Stmt) (m : Match) :
    narrowAll (front ++ back) m = narrowAll back (narrowAll front m) :=
  List.foldl_append

theorem narrow_iif (spec : Option (Spec IfAtom)) (m : Match) :
    narrowAll (spec.map Stmt.iifname).toList m =
      { m with iif := (spec.map Spec.interfaces).getD m.iif } := by
  cases spec <;> rfl

/-- An optional statement intersects the set of its dimension with its own. -/
theorem narrow_opt {α : Type} {bits : Nat} {form : Form α (IntervalSet bits)}
    {make : Spec α → Stmt} (put : IntervalSet bits → Match) {old : IntervalSet bits}
    (spec : Option (Spec α))
    (narrows : ∀ given ∈ spec, (make given).narrow (put old) =
      put (old.intersect (given.set form))) :
    narrowAll (spec.map make).toList (put old) = put (old.intersect (optSet form spec)) := by
  cases spec with
  | none => simp [optSet, intersect_full]
  | some given => exact narrows given rfl

theorem narrow_proto (spec : Option (Spec ProtoAtom)) (m : Match) :
    narrowAll (spec.map Stmt.l4proto).toList m =
      { m with proto := m.proto.intersect (optSet ProtoAtom.form spec) } :=
  narrow_opt (fun set => { m with proto := set }) spec (fun _ _ => rfl)

theorem narrow_src (spec : Option (Spec AddrAtom)) (m : Match) :
    narrowAll (spec.map Stmt.saddr).toList m =
      { m with srcAddr := m.srcAddr.intersect (optSet AddrAtom.form spec) } :=
  narrow_opt (fun set => { m with srcAddr := set }) spec (fun _ _ => rfl)

theorem narrow_dst (spec : Option (Spec AddrAtom)) (m : Match) :
    narrowAll (spec.map Stmt.daddr).toList m =
      { m with dstAddr := m.dstAddr.intersect (optSet AddrAtom.form spec) } :=
  narrow_opt (fun set => { m with dstAddr := set }) spec (fun _ _ => rfl)

def L4.set (l4 : L4) : IntervalSet 8 :=
  IntervalSet.point 8 l4.number l4.number_le

/-- Where the protocol is pinned already, a port statement constrains the port only. -/
theorem narrow_sport {l4 : L4} (spec : Option (Spec PortAtom)) {m : Match}
    (pinned : spec.isSome = true → m.proto = L4.set l4) :
    narrowAll (spec.map (Stmt.ports l4 .sport)).toList m =
      { m with srcPort := m.srcPort.intersect (optSet PortAtom.form spec) } := by
  refine narrow_opt (fun set => { m with srcPort := set }) spec fun given named => ?_
  have same : m.proto.intersect (L4.set l4) = m.proto := by
    rw [pinned (by rw [named]; rfl), intersect_self]
  exact congrArg (fun proto => ({ m with
    proto := proto, srcPort := m.srcPort.intersect (given.set PortAtom.form) } : Match)) same

theorem narrow_dport {l4 : L4} (spec : Option (Spec PortAtom)) {m : Match}
    (pinned : spec.isSome = true → m.proto = L4.set l4) :
    narrowAll (spec.map (Stmt.ports l4 .dport)).toList m =
      { m with dstPort := m.dstPort.intersect (optSet PortAtom.form spec) } := by
  refine narrow_opt (fun set => { m with dstPort := set }) spec fun given named => ?_
  have same : m.proto.intersect (L4.set l4) = m.proto := by
    rw [pinned (by rw [named]; rfl), intersect_self]
  exact congrArg (fun proto => ({ m with
    proto := proto, dstPort := m.dstPort.intersect (given.set PortAtom.form) } : Match)) same

namespace Sentence

def built (s : Sentence) : Match where
  srcAddr := optSet AddrAtom.form s.src
  dstAddr := optSet AddrAtom.form s.dst
  srcPort := optSet PortAtom.form s.sport
  dstPort := optSet PortAtom.form s.dport
  proto := optSet ProtoAtom.form s.proto
  iif := (s.iif.map Spec.interfaces).getD .any
  oif := .any

/-- Ports stand after a protocol that has them. -/
def Pinned (s : Sentence) : Prop :=
  s.sport.isSome = true ∨ s.dport.isSome = true → optSet ProtoAtom.form s.proto = L4.set s.l4

theorem narrow_predicate {s : Sentence} (pinned : s.Pinned) :
    narrowAll s.predicate Match.any = s.built := by
  unfold predicate
  rw [narrowAll_append, narrowAll_append, narrowAll_append, narrowAll_append, narrowAll_append,
    narrow_iif, narrow_proto, narrow_src, narrow_dst]
  have proto : (IntervalSet.full 8).intersect (optSet ProtoAtom.form s.proto) =
      optSet ProtoAtom.form s.proto := full_intersect _
  rw [narrow_sport s.sport (fun given => proto.trans (pinned (Or.inl given))),
    narrow_dport s.dport (fun given => proto.trans (pinned (Or.inr given)))]
  simp [Match.any, built, full_intersect]

theorem narrow_stmts {s : Sentence} (pinned : s.Pinned) :
    narrowAll s.stmts Match.any = s.built := by
  rw [stmts, narrowAll_append, narrow_predicate pinned]
  unfold ending
  cases s.action <;> rfl

theorem verdict_of_mem_predicate {s : Sentence} {stmt : Stmt} (member : stmt ∈ s.predicate) :
    stmt.verdict = none := by
  simp only [predicate, List.mem_append, Option.mem_toList, Option.map_eq_some_iff] at member
  rcases member with ⟨_, _, rfl⟩ | ⟨_, _, rfl⟩ | ⟨_, _, rfl⟩ | ⟨_, _, rfl⟩ | ⟨_, _, rfl⟩ |
    ⟨_, _, rfl⟩ <;> rfl

theorem verdicts (s : Sentence) : s.stmts.filterMap Stmt.verdict = [s.action] := by
  have none : s.predicate.filterMap Stmt.verdict = [] :=
    List.filterMap_eq_nil_iff.mpr (fun _ => verdict_of_mem_predicate)
  rw [stmts, List.filterMap_append, none, List.nil_append, ending]
  cases s.action <;> rfl

/-- Only `iifname` looks at the hook. -/
theorem allowed {s : Sentence} {hook : Hook} (inputless : hook = .output → s.iif = none) :
    ∀ stmt ∈ s.stmts, stmt.allowedOn hook = true := by
  intro stmt member
  have written := s.written stmt member
  cases written with
  | iifname spec =>
      have given : s.iif = some spec := by
        simp only [stmts, predicate, ending, List.mem_append, Option.mem_toList,
          Option.map_eq_some_iff, List.mem_cons, List.not_mem_nil, or_false, Stmt.iifname.injEq,
          exists_eq_right, reduceCtorEq, and_false, exists_false, false_or] at member
        cases action : s.action <;> simpa [action, verdictStmt] using member
      simp only [Stmt.allowedOn, bne_iff_ne, ne_eq]
      intro output
      rw [inputless output] at given
      contradiction
  | verdict action => cases action <;> rfl
  | _ => rfl

theorem any_isPorts {s : Sentence} (given : s.stmts.any Stmt.isPorts = true) :
    s.sport.isSome = true ∨ s.dport.isSome = true := by
  obtain ⟨stmt, member, ports⟩ := List.any_eq_true.mp given
  simp only [stmts, predicate, ending, List.mem_append, Option.mem_toList,
    Option.map_eq_some_iff, List.mem_cons, List.not_mem_nil, or_false] at member
  rcases member with (⟨_, _, rfl⟩ | ⟨_, _, rfl⟩ | ⟨_, _, rfl⟩ | ⟨_, _, rfl⟩ |
    ⟨_, sport, rfl⟩ | ⟨_, dport, rfl⟩) | rfl | rfl | rfl
  · contradiction
  · contradiction
  · contradiction
  · contradiction
  · exact Or.inl (by rw [sport]; rfl)
  · exact Or.inr (by rw [dport]; rfl)
  · contradiction
  · cases action : s.action <;> simp [action, verdictStmt, Stmt.isPorts] at ports
  · contradiction

theorem allPortBearing_set (l4 : L4) : allPortBearing (L4.set l4) = true := by
  cases l4 <;> decide

/-- What the parser makes of the sentence. -/
theorem compile {s : Sentence} {r : RuleText} (spelled : r.stmts = s.stmts) {hook : Hook}
    (inputless : hook = .output → s.iif = none) (pinned : s.Pinned)
    (satisfiable : s.built.isUnsatisfiable = false) :
    r.compile hook = some (s.built, s.action) := by
  apply RuleText.compile_of_spec
  · rw [spelled]
    exact allowed inputless
  · rw [spelled]
    exact s.verdicts
  · rw [spelled]
    exact narrow_stmts pinned
  · exact satisfiable
  · intro given
    rw [spelled] at given
    rw [built, pinned (any_isPorts given)]
    exact allPortBearing_set s.l4

end Sentence

/-! ### No `meta iifname` among the tokens -/

/-- Each `meta` has a token after it, which is not `iifname`. -/
def Sober : List Tok → Prop
  | [] => True
  | k :: rest =>
      (k = .word "meta" → ∃ next later, rest = next :: later ∧ next ≠ .word "iifname") ∧
        Sober rest

theorem Sober.append {front back : List Tok} (first : Sober front) (second : Sober back) :
    Sober (front ++ back) := by
  induction front with
  | nil => exact second
  | cons k rest ih =>
      refine ⟨fun isMeta => ?_, ih first.2⟩
      obtain ⟨next, later, rfl, other⟩ := first.1 isMeta
      exact ⟨next, later ++ back, rfl, other⟩

theorem sober_of_not_mem {ks : List Tok} (absent : .word "meta" ∉ ks) : Sober ks := by
  induction ks with
  | nil => trivial
  | cons k rest ih =>
      rw [List.mem_cons, not_or] at absent
      exact ⟨fun isMeta => absurd isMeta.symm absent.1, ih absent.2⟩

theorem sober_flatMap {α : Type} {f : α → List Tok} {items : List α}
    (each : ∀ item ∈ items, Sober (f item)) : Sober (items.flatMap f) := by
  induction items with
  | nil => trivial
  | cons item rest ih =>
      rw [List.flatMap_cons]
      exact (each item (by simp)).append (ih (fun other member => each other (by simp [member])))

theorem Sober.not_infix {ks : List Tok} (sober : Sober ks) :
    ¬ [.word "meta", .word "iifname"] <:+: ks := by
  rintro ⟨front, back, rfl⟩
  induction front with
  | nil =>
      obtain ⟨next, later, same, other⟩ := sober.1 rfl
      exact other (List.cons.inj same).1.symm
  | cons k rest ih => exact ih sober.2

/-- The values of the sentence hold no word `meta`. -/
structure Sentence.Clean (s : Sentence) : Prop where
  iif : ∀ spec ∈ s.iif, .word "meta" ∉ spec.yield IfAtom.form
  proto : ∀ spec ∈ s.proto, .word "meta" ∉ spec.yield ProtoAtom.form
  src : ∀ spec ∈ s.src, .word "meta" ∉ spec.yield AddrAtom.form
  dst : ∀ spec ∈ s.dst, .word "meta" ∉ spec.yield AddrAtom.form
  sport : ∀ spec ∈ s.sport, .word "meta" ∉ spec.yield PortAtom.form
  dport : ∀ spec ∈ s.dport, .word "meta" ∉ spec.yield PortAtom.form

theorem Sentence.Clean.sober {s : Sentence} (clean : s.Clean) :
    Sober (s.stmts.flatMap Stmt.yield) := by
  apply sober_flatMap
  intro stmt member
  simp only [stmts, predicate, ending, List.mem_append, Option.mem_toList,
    Option.map_eq_some_iff, List.mem_cons, List.not_mem_nil, or_false] at member
  rcases member with (⟨spec, given, rfl⟩ | ⟨spec, given, rfl⟩ | ⟨spec, given, rfl⟩ |
    ⟨spec, given, rfl⟩ | ⟨spec, given, rfl⟩ | ⟨spec, given, rfl⟩) | rfl | rfl | rfl
  · apply sober_of_not_mem
    simpa [Stmt.yield, Stmt.keyword, Stmt.body] using clean.iif spec given
  · refine ⟨fun _ => ⟨_, _, rfl, by simp⟩, sober_of_not_mem ?_⟩
    simpa [Stmt.body] using clean.proto spec given
  · apply sober_of_not_mem
    simpa [Stmt.yield, Stmt.keyword, Stmt.body] using clean.src spec given
  · apply sober_of_not_mem
    simpa [Stmt.yield, Stmt.keyword, Stmt.body] using clean.dst spec given
  · apply sober_of_not_mem
    cases s.l4 <;> simpa [Stmt.yield, Stmt.keyword, Stmt.body, L4.text, PortSide.text]
      using clean.sport spec given
  · apply sober_of_not_mem
    cases s.l4 <;> simpa [Stmt.yield, Stmt.keyword, Stmt.body, L4.text, PortSide.text]
      using clean.dport spec given
  · exact sober_of_not_mem (by simp [Stmt.yield, Stmt.keyword, Stmt.body, CounterArgs.yield])
  · apply sober_of_not_mem
    cases s.action <;> simp [verdictStmt, Stmt.yield, Stmt.keyword, Stmt.body]
  · exact sober_of_not_mem (by simp [Stmt.yield, Stmt.keyword, Stmt.body])

/-! ### The text spells the sentence -/

/-- Part by part, the expressions spell the statements. -/
abbrev SpelledBy (parts : List String) (stmts : List Stmt) : Prop :=
  List.Forall₂ (fun part (stmt : Stmt) => Spells part.toList stmt.yield) parts stmts

theorem optSet_none {α : Type} {bits : Nat} (form : Form α (IntervalSet bits))
    {set : IntervalSet bits} (full : set.isFull = true) :
    optSet form (none : Option (Spec α)) = set := by
  apply IntervalSet.eq_of_contains
  intro x
  rw [optSet, Option.map_none, Option.getD_none, IntervalSet.contains_full]
  exact ⟨set.isFull_iff.mp full x, IntervalSet.contains_le⟩

/-- A dimension is left out where its set is full, and written otherwise. -/
theorem exists_opt {α : Type} {bits : Nat} {form : Form α (IntervalSet bits)}
    {make : Spec α → Stmt} {words : List Tok} (makes : ∀ spec, (make spec).yield =
      words ++ spec.yield form) {set : IntervalSet bits} {text : String}
    (written : ∃ spec : Spec α, Spells text.toList (words ++ spec.yield form) ∧
      spec.set form = set ∧ .word "meta" ∉ spec.yield form) :
    ∃ spec : Option (Spec α),
      SpelledBy (if set.isFull then none else some text).toList (spec.map make).toList ∧
        optSet form spec = set ∧ ∀ given ∈ spec, .word "meta" ∉ given.yield form := by
  by_cases full : set.isFull = true
  · refine ⟨none, ?_, optSet_none form full, nofun⟩
    rw [if_pos full]
    exact .nil
  · obtain ⟨spec, spelled, denotes, sober⟩ := written
    refine ⟨some spec, ?_, denotes, fun given same => by rwa [← Option.some.inj same]⟩
    rw [if_neg full]
    refine .cons ?_ .nil
    rw [makes]
    exact spelled

theorem exists_addr (keyword : String) (word : isWord keyword.toList = true)
    (make : Spec AddrAtom → Stmt)
    (makes : ∀ spec, (make spec).yield =
      [.word "ip", .word keyword] ++ spec.yield AddrAtom.form)
    {set : IntervalSet 32} (inhabited : set.isEmpty = false) :
    ∃ spec : Option (Spec AddrAtom),
      SpelledBy (addrExpr keyword set).toList (spec.map make).toList ∧
        optSet AddrAtom.form spec = set ∧
          ∀ given ∈ spec, .word "meta" ∉ given.yield AddrAtom.form := by
  have keywords : Spells ("ip " ++ keyword).toList [.word "ip", .word keyword] := by
    rw [String.toList_append]
    exact (spells_keyword "ip" (by decide)).then_blank (spells_word word)
  exact exists_opt makes (exists_addrSpec keywords inhabited)

theorem isWord_text (l4 : L4) : isWord l4.text.toList = true := by
  cases l4 <;> decide

theorem exists_port (l4 : L4) (keyword : String) (word : isWord keyword.toList = true)
    (make : Spec PortAtom → Stmt)
    (makes : ∀ spec, (make spec).yield =
      [.word l4.text, .word keyword] ++ spec.yield PortAtom.form)
    {set : IntervalSet 16} (inhabited : set.isEmpty = false) :
    ∃ spec : Option (Spec PortAtom),
      SpelledBy (portExpr l4.text keyword set).toList (spec.map make).toList ∧
        optSet PortAtom.form spec = set ∧
          ∀ given ∈ spec, .word "meta" ∉ given.yield PortAtom.form := by
  have keywords : Spells (l4.text ++ " " ++ keyword).toList
      [.word l4.text, .word keyword] := by
    rw [String.toList_append, String.toList_append, List.append_assoc]
    exact (spells_word (isWord_text l4)).then_blank (spells_word word)
  exact exists_opt makes (exists_portSpec keywords inhabited)

/-- The protocol, where the emitter writes it. -/
def echoProto (set : IntervalSet 8) : IntervalSet 8 :=
  if (protoValue set).isSome then set else IntervalSet.full 8

theorem protoValue_eq_some_iff {set : IntervalSet 8} {v : Nat} :
    protoValue set = some v ↔ ∃ within, set = IntervalSet.point 8 v within := by
  constructor
  · intro value
    unfold protoValue at value
    split at value
    · next lo hi ranges =>
        split at value
        · next same =>
            obtain rfl := Option.some.inj value
            have bounded := set.canonical.bounded (lo, hi) (by simp [ranges])
            refine ⟨by omega, IntervalSet.ext ?_⟩
            subst same
            exact ranges
        · contradiction
    · contradiction
  · intro given
    obtain ⟨within, rfl⟩ := given
    simp [protoValue, IntervalSet.point]

theorem exists_proto (set : IntervalSet 8) :
    ∃ spec : Option (Spec ProtoAtom),
      SpelledBy ((protoValue set).map (fun v => "meta l4proto " ++ protoText v)).toList
        (spec.map Stmt.l4proto).toList ∧ optSet ProtoAtom.form spec = echoProto set ∧
          ∀ given ∈ spec, .word "meta" ∉ given.yield ProtoAtom.form := by
  unfold echoProto
  cases value : protoValue set with
  | none => exact ⟨none, .nil, rfl, nofun⟩
  | some v =>
      obtain ⟨within, same⟩ := protoValue_eq_some_iff.mp value
      obtain ⟨spec, spelled, denotes, sober⟩ := spells_protoText (v := v) within
      refine ⟨some spec, ?_, ?_, fun given same => by rwa [← Option.some.inj same]⟩
      · refine .cons ?_ .nil
        have keywords := (spells_keyword "meta" (by decide)).then_blank
          ((spells_keyword "l4proto" (by decide)).then_blank spelled)
        rw [String.toList_append]
        exact keywords
      · rw [Option.isSome_some, if_pos rfl, same]
        exact denotes

/-- The interfaces, where the emitter writes them, under the names that come back. -/
def echoIif : IfMatch → IfMatch
  | .oneOf names => .oneOf (names.image rereadName)
  | _ => .any

/-- What the predicates of parsed rules have, as far as the emitter depends on it. -/
structure Emittable (m : Match) : Prop where
  satisfiable : m.isUnsatisfiable = false
  ports : (m.srcPort.isFull = true ∧ m.dstPort.isFull = true) ∨ ∃ l4, m.proto = L4.set l4
  names : ∀ names, m.iif = .oneOf names →
    names.Nonempty ∧ ∀ name ∈ names, name.toList.contains '*' = false

/-- The interface names of the match stand between quotes as they are. -/
def QuotableNames (m : IfMatch) : Prop :=
  ∀ names, m = .oneOf names → ∀ name ∈ names, Quotable name

theorem exists_iif {m : Match} (image : Emittable m) (quotable : QuotableNames m.iif) :
    ∃ spec : Option (Spec IfAtom),
      SpelledBy (iifExpr m.iif).toList (spec.map Stmt.iifname).toList ∧
        (spec.map Spec.interfaces).getD .any = echoIif m.iif ∧
          (spec = none ↔ ∀ names, m.iif ≠ .oneOf names) ∧
            ∀ given ∈ spec, .word "meta" ∉ given.yield IfAtom.form := by
  have names := image.names
  cases iif : m.iif with
  | any => exact ⟨none, .nil, rfl, by simp, nofun⟩
  | noneOf names => exact ⟨none, .nil, rfl, by simp, nofun⟩
  | oneOf names =>
      obtain ⟨nonempty, noStar⟩ := image.names names iif
      obtain ⟨spec, spelled, denotes, sober⟩ := exists_iifSpec nonempty (quotable names iif) noStar
      exact ⟨some spec, .cons spelled .nil, denotes, by simp,
        fun given same => by rwa [← Option.some.inj same]⟩

theorem portExprs_of_full (l4 : String) {m : Match} (src : m.srcPort.isFull = true)
    (dst : m.dstPort.isFull = true) : portExprs l4 m = some [] := by
  unfold portExprs portExpr
  rw [if_pos src, if_pos dst, src, dst]
  simp

theorem protoValue_set (l4 : L4) : protoValue (L4.set l4) = some l4.number :=
  protoValue_eq_some_iff.mpr ⟨l4.number_le, rfl⟩

theorem exists_ports {m : Match} (image : Emittable m) :
    ∃ (l4 : L4) (sport dport : Option (Spec PortAtom)) (parts : List String),
      portExprs (((protoValue m.proto).map protoKeyword).getD "ip") m = some parts ∧
        SpelledBy parts ((sport.map (Stmt.ports l4 .sport)).toList ++
          (dport.map (Stmt.ports l4 .dport)).toList) ∧
        optSet PortAtom.form sport = m.srcPort ∧ optSet PortAtom.form dport = m.dstPort ∧
        (sport.isSome = true ∨ dport.isSome = true → m.proto = L4.set l4) ∧
        (∀ given ∈ sport, .word "meta" ∉ given.yield PortAtom.form) ∧
        ∀ given ∈ dport, .word "meta" ∉ given.yield PortAtom.form := by
  rcases image.ports with ⟨src, dst⟩ | ⟨l4, pinned⟩
  · exact ⟨.tcp, none, none, [], portExprs_of_full _ src dst, .nil, optSet_none _ src,
      optSet_none _ dst, by simp, nofun, nofun⟩
  · obtain ⟨_, _, src, dst, _⟩ := m.isUnsatisfiable_eq_false.mp image.satisfiable
    obtain ⟨sport, spelledSrc, denotesSrc, soberSrc⟩ := exists_port l4 "sport" (by decide)
      (Stmt.ports l4 .sport) (fun _ => rfl) src
    obtain ⟨dport, spelledDst, denotesDst, soberDst⟩ := exists_port l4 "dport" (by decide)
      (Stmt.ports l4 .dport) (fun _ => rfl) dst
    refine ⟨l4, sport, dport, _, ?_, List.rel_append spelledSrc spelledDst, denotesSrc,
      denotesDst, fun _ => pinned, soberSrc, soberDst⟩
    have keyword : ((protoValue m.proto).map protoKeyword).getD "ip" = l4.text := by
      rw [pinned, protoValue_set]
      cases l4 <;> rfl
    rw [keyword, portExprs, if_pos]
    cases l4 <;> rfl

/-! ### The line of a rule -/

/-- The predicate that comes back. -/
def echo (m : Match) : Match :=
  { m with proto := echoProto m.proto, iif := echoIif m.iif, oif := .any }

theorem spells_ending (s : Sentence) {r : Rule} (action : s.action = r.action)
    (number : s.number = r.number) :
    Spells (verdictExpr r).toList (s.ending.flatMap Stmt.yield) := by
  have content_low : ∀ c ∈ ("r" ++ toString r.number).toList, c.toNat < 128 := by
    rw [String.toList_append, Text.toList_toString]
    intro c member
    rcases List.mem_append.mp member with letter | digit
    · obtain rfl := List.mem_singleton.mp letter
      decide
    · exact (digit_byte (Text.isDigit_of_mem_toDigits digit)).1
  have absent {c : Char} (letter : c ≠ 'r') (digit : c.isDigit = false) :
      c ∉ ("r" ++ toString r.number).toList := by
    rw [String.toList_append, Text.toList_toString, List.mem_append, not_or]
    refine ⟨fun member => letter (List.mem_singleton.mp member), fun member => ?_⟩
    rw [Text.isDigit_of_mem_toDigits member] at digit
    contradiction
  have comment := spells_str (absent (c := '"') (by decide) (by decide))
    (absent (c := '\\') (by decide) (by decide))
  rw [Utf8.reread_of_all content_low, String.ofList_toList] at comment
  have verdict : isWord r.action.text.toList = true := by
    cases r.action <;> decide
  have spelled := (spells_keyword "counter" (by decide)).then_blank
    ((spells_word verdict).then_blank ((spells_keyword "comment" (by decide)).then_blank
      comment))
  have yielded : s.ending.flatMap Stmt.yield = [.word "counter"] ++ ([.word r.action.text] ++
      ([.word "comment"] ++ [.str ("r" ++ toString r.number)])) := by
    rw [Sentence.ending, action, number]
    cases r.action <;> rfl
  rw [yielded]
  simp only [verdictExpr, String.toList_append, List.append_assoc] at spelled ⊢
  exact spelled

theorem spells_joined {parts : List String} {kss : List (List Tok)}
    (each : List.Forall₂ (fun part ks => Spells part.toList ks) parts kss)
    (nonempty : parts ≠ []) : Spells (" ".intercalate parts).toList kss.flatten := by
  cases each with
  | nil => exact absurd rfl nonempty
  | @cons part ks parts kss first later =>
      have blank {front back : List Char} {ks ls : List Tok} (first : Spells front ks)
          (second : Spells back ls) : Spells (front ++ (" ".toList ++ back)) (ks ++ ([] ++ ls)) :=
        first.then_blank second
      have joined := spells_intercalate blank later first
      simpa only [List.nil_append, List.flatMap_id', List.flatten_cons] using joined

/-- An emitted rule is a sentence, which builds the predicate that comes back. -/
theorem exists_sentence {r : Rule} (image : Emittable r.predicate)
    (quotable : QuotableNames r.predicate.iif) :
    ∃ (s : Sentence) (text : String), rule r = some text ∧
      Spells text.toList (s.stmts.flatMap Stmt.yield) ∧ s.built = echo r.predicate ∧
        s.action = r.action ∧ s.Pinned ∧ s.Clean ∧
          (s.iif = none ↔ ∀ names, r.predicate.iif ≠ .oneOf names) := by
  obtain ⟨srcInhabited, dstInhabited, _⟩ :=
    r.predicate.isUnsatisfiable_eq_false.mp image.satisfiable
  obtain ⟨iif, iifSpelled, iifDenotes, open_, iifSober⟩ := exists_iif image quotable
  obtain ⟨proto, protoSpelled, protoDenotes, protoSober⟩ := exists_proto r.predicate.proto
  obtain ⟨src, srcSpelled, srcDenotes, srcSober⟩ := exists_addr "saddr" (by decide) Stmt.saddr
    (fun _ => rfl) srcInhabited
  obtain ⟨dst, dstSpelled, dstDenotes, dstSober⟩ := exists_addr "daddr" (by decide) Stmt.daddr
    (fun _ => rfl) dstInhabited
  obtain ⟨l4, sport, dport, parts, found, portsSpelled, sportDenotes, dportDenotes, pinned,
    sportSober, dportSober⟩ := exists_ports image
  let s : Sentence := ⟨iif, proto, src, dst, l4, sport, dport, r.action, r.number⟩
  have predicate : SpelledBy ((iifExpr r.predicate.iif).toList ++
      (((protoValue r.predicate.proto).map (fun v => "meta l4proto " ++ protoText v)).toList ++
        ((addrExpr "saddr" r.predicate.srcAddr).toList ++
          ((addrExpr "daddr" r.predicate.dstAddr).toList ++ parts)))) s.predicate :=
    List.rel_append iifSpelled (List.rel_append protoSpelled
      (List.rel_append srcSpelled (List.rel_append dstSpelled portsSpelled)))
  -- The ending is one part of the text and three statements.
  have whole : List.Forall₂ (fun part ks => Spells part.toList ks) (ruleParts r parts)
      (s.predicate.map Stmt.yield ++ [s.ending.flatMap Stmt.yield]) := by
    have appended := List.rel_append (List.forall₂_map_right_iff.mpr predicate)
      (List.Forall₂.cons (spells_ending s rfl rfl) .nil)
    simpa only [ruleParts, List.append_assoc] using appended
  have joined := spells_joined whole (by simp [ruleParts])
  refine ⟨s, "    " ++ " ".intercalate (ruleParts r parts), ?_, ?_, ?_, rfl, ?_, ?_, open_⟩
  · unfold rule
    simp only [found, bind, Option.bind]
  · rw [String.toList_append, Sentence.stmts, List.flatMap_append]
    rw [List.flatten_append, ← List.flatMap_def, List.flatten_singleton] at joined
    exact joined.blank.blank.blank.blank
  · simp only [Sentence.built, echo, s, srcDenotes, dstDenotes, sportDenotes, dportDenotes,
      protoDenotes, iifDenotes]
  · intro given
    have single := pinned given
    rw [show optSet ProtoAtom.form s.proto = _ from protoDenotes, echoProto, single,
      protoValue_set]
    rfl
  · exact ⟨iifSober, protoSober, srcSober, dstSober, sportSober, dportSober⟩

end Fwdelta.Emit
