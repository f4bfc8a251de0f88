import Fwdelta.Engine.Render
import Fwdelta.Ir.PrefixCover

/-
Address sets read back from their text.

The reader takes the text apart in the four forms that it can have: everything,
nothing, a list of prefixes, and a prefix with exceptions.  It gets the set that was
rendered, so that no two sets have the same text.
-/

namespace Fwdelta

namespace Render

/-! ### The reader -/

def readIpv4 (text : String) : Option (BitVec 32) :=
  match (Text.split '.' text).mapM (Text.parseUnsigned 255) with
  | some [a, b, c, d] => some (BitVec.ofNat 32 (a * 2 ^ 24 + b * 2 ^ 16 + c * 2 ^ 8 + d))
  | _ => none

def prefixSet (base : BitVec 32) (len : Nat) : IntervalSet 32 :=
  IntervalSet.ofPrefix 32 base.toNat len address_narrow (address_le base)

def readCidr (text : String) : Option (IntervalSet 32) :=
  match Text.splitOnce '/' text with
  | none => (readIpv4 text).map (fun base => prefixSet base 32)
  | some (base, len) => do
      let base ← readIpv4 base
      let len ← Text.parseUnsigned 32 len
      some (prefixSet base len)

def readList (text : String) : Option (IntervalSet 32) := do
  let terms ← (Text.split ',' text).mapM readCidr
  some (terms.foldl IntervalSet.union (IntervalSet.empty 32))

def readAddrSet (text : String) : Option (IntervalSet 32) :=
  if text = "any" then some (IntervalSet.full 32)
  else if text = "<none>" then some (IntervalSet.empty 32)
  else
    match Text.splitOnce ' ' text with
    | none => readList text
    | some (base, rest) =>
        match Text.splitOnce ' ' rest with
        | some ("except", holes) => do
            let base ← readCidr base
            let holes ← readList holes
            some (base.difference holes)
        | _ => none

/-! ### The characters of a term -/

theorem ipv4_eq_intercalate (v : Nat) :
    ipv4 v = (String.singleton '.').intercalate [toString (v / 2 ^ 24 % 256),
      toString (v / 2 ^ 16 % 256), toString (v / 2 ^ 8 % 256), toString (v % 256)] := by
  apply String.toList_inj.mp
  simp [ipv4]

/-- Digits and the marks between them. -/
def Plain (marks : List Char) (text : String) : Prop :=
  ∀ c ∈ text.toList, c.isDigit = true ∨ c ∈ marks

theorem plain_toString (marks : List Char) (n : Nat) : Plain marks (toString n) :=
  fun _ member => Or.inl (Text.isDigit_of_mem_toString member)

theorem Plain.append {marks : List Char} {first second : String} (front : Plain marks first)
    (back : Plain marks second) : Plain marks (first ++ second) := by
  intro c member
  rw [String.toList_append, List.mem_append] at member
  exact member.elim (front c) (back c)

theorem plain_singleton {marks : List Char} {c : Char} (mark : c ∈ marks) :
    Plain marks (String.singleton c) := by
  intro d member
  rw [String.toList_singleton, List.mem_singleton] at member
  exact Or.inr (member ▸ mark)

theorem plain_intercalate {marks : List Char} {c : Char} (mark : c ∈ marks) {parts : List String}
    (plain : ∀ part ∈ parts, Plain marks part) :
    Plain marks ((String.singleton c).intercalate parts) := by
  induction parts with
  | nil =>
      intro d member
      simp at member
  | cons part rest ih =>
      obtain ⟨first, later⟩ := List.forall_mem_cons.mp plain
      cases rest with
      | nil =>
          rw [String.intercalate_singleton]
          exact first
      | cons second more =>
          rw [String.intercalate_cons_cons]
          exact (first.append (plain_singleton mark)).append (ih later)

theorem Plain.not_mem {marks : List Char} {text : String} (plain : Plain marks text) {c : Char}
    (noDigit : c.isDigit = false) (noMark : c ∉ marks) : c ∉ text.toList := by
  intro member
  rcases plain c member with digit | mark
  · rw [noDigit] at digit
    contradiction
  · exact noMark mark

theorem Plain.weaken {marks more : List Char} {text : String} (plain : Plain marks text)
    (subset : ∀ c ∈ marks, c ∈ more) : Plain more text :=
  fun c member => (plain c member).imp_right (subset c)

theorem plain_ipv4 (v : Nat) : Plain ['.'] (ipv4 v) := by
  rw [ipv4_eq_intercalate]
  apply plain_intercalate List.mem_cons_self
  intro part member
  simp only [List.mem_cons, List.not_mem_nil, or_false] at member
  rcases member with rfl | rfl | rfl | rfl <;> exact plain_toString _ _

theorem plain_cidr (v len : Nat) : Plain ['/', '.'] (cidr v len) := by
  have address : Plain ['/', '.'] (ipv4 v) :=
    (plain_ipv4 v).weaken fun _ => List.mem_cons_of_mem _
  unfold cidr
  split
  · exact address
  · exact (address.append (plain_singleton List.mem_cons_self)).append (plain_toString _ _)

/-! ### Terms read back -/

theorem readIpv4_ipv4 (v : Nat) : readIpv4 (ipv4 v) = some (BitVec.ofNat 32 v) := by
  have octet (n : Nat) : Text.parseUnsigned 255 (toString (n % 256)) = some (n % 256) :=
    Text.parseUnsigned_toString (by omega)
  have parts : Text.split '.' (ipv4 v) = [toString (v / 2 ^ 24 % 256),
      toString (v / 2 ^ 16 % 256), toString (v / 2 ^ 8 % 256), toString (v % 256)] := by
    rw [ipv4_eq_intercalate]
    apply Text.split_intercalate _ (List.cons_ne_nil _ _)
    intro part member
    simp only [List.mem_cons, List.not_mem_nil, or_false] at member
    rcases member with rfl | rfl | rfl | rfl <;>
      exact (plain_toString [] _).not_mem rfl List.not_mem_nil
  unfold readIpv4
  rw [parts]
  simp only [List.mapM_cons, List.mapM_nil, octet, Option.bind_eq_bind, Option.bind_some,
    Option.pure_def, Option.some.injEq]
  apply BitVec.eq_of_toNat_eq
  rw [BitVec.toNat_ofNat, BitVec.toNat_ofNat]
  omega

theorem readCidr_cidr (v : Nat) {len : Nat} (short : len ≤ 32) :
    readCidr (cidr v len) = some (prefixSet (BitVec.ofNat 32 v) len) := by
  have slash : '/' ∉ (ipv4 v).toList := (plain_ipv4 v).not_mem rfl (by simp)
  unfold readCidr
  by_cases whole : len = 32
  · rw [cidr, if_pos whole, Text.splitOnce_eq_none slash, readIpv4_ipv4, whole]
    rfl
  · have parts : Text.splitOnce '/' (cidr v len) = some (ipv4 v, toString len) := by
      rw [cidr, if_neg whole]
      exact Text.splitOnce_append slash _
    rw [parts]
    simp only [readIpv4_ipv4, Text.parseUnsigned_toString short, Option.bind_eq_bind,
      Option.bind_some]

/-- A list of terms. -/
def termList (blocks : List (Nat × Nat)) : String :=
  ",".intercalate (blocks.map (fun block => cidr block.1 block.2))

theorem plain_termList (blocks : List (Nat × Nat)) : Plain [',', '/', '.'] (termList blocks) := by
  apply plain_intercalate List.mem_cons_self
  intro part member
  obtain ⟨block, _, rfl⟩ := List.mem_map.mp member
  exact (plain_cidr block.1 block.2).weaken fun _ => List.mem_cons_of_mem _

theorem split_termList {blocks : List (Nat × Nat)} (nonempty : blocks ≠ []) :
    Text.split ',' (termList blocks) = blocks.map (fun block => cidr block.1 block.2) := by
  apply Text.split_intercalate _ (by simpa using nonempty)
  intro part member
  obtain ⟨block, _, rfl⟩ := List.mem_map.mp member
  exact (plain_cidr block.1 block.2).not_mem rfl (by simp)

theorem contains_prefixSet {v len : Nat} (small : v < 2 ^ 32) (value : Nat) :
    (prefixSet (BitVec.ofNat 32 v) len).contains value = true ↔ InPrefix 32 (v, len) value := by
  rw [prefixSet, IntervalSet.contains_ofPrefix, BitVec.toNat_ofNat, Nat.mod_eq_of_lt small]
  exact Iff.rfl

theorem mapM_readCidr {blocks : List (Nat × Nat)} (short : ∀ block ∈ blocks, block.2 ≤ 32) :
    (blocks.map (fun block => cidr block.1 block.2)).mapM readCidr =
      some (blocks.map (fun block => prefixSet (BitVec.ofNat 32 block.1) block.2)) := by
  induction blocks with
  | nil => rfl
  | cons block rest ih =>
      obtain ⟨first, later⟩ := List.forall_mem_cons.mp short
      simp [List.mapM_cons, readCidr_cidr block.1 first, ih later]

/-- A list of terms is read as the union of its prefixes. -/
theorem readList_termList {blocks : List (Nat × Nat)} (nonempty : blocks ≠ [])
    (aligned : ∀ block ∈ blocks, Aligned 32 block) {set : IntervalSet 32}
    (union : ∀ value, (∃ block ∈ blocks, InPrefix 32 block value) ↔ set.contains value = true) :
    readList (termList blocks) = some set := by
  unfold readList
  rw [split_termList nonempty, mapM_readCidr fun block member => (aligned block member).length_le]
  simp only [Option.bind_eq_bind, Option.bind_some, Option.some.injEq]
  apply IntervalSet.eq_of_contains
  intro value
  rw [IntervalSet.contains_foldl_union (fun term => term), ← union]
  simp only [IntervalSet.contains_empty, Bool.false_eq_true, false_or, List.mem_map,
    exists_exists_and_eq_and]
  apply exists_congr
  intro block
  apply and_congr_right
  intro member
  have positive := Nat.two_pow_pos (32 - block.2)
  have within := (aligned block member).within
  exact contains_prefixSet (by omega) value

/-! ### The enclosing prefix -/

theorem lt_two_pow_leadingZeros {word : Nat} (small : word < 2 ^ 32) :
    word < 2 ^ (32 - leadingZeros32 word) := by
  unfold leadingZeros32
  split
  · next zero =>
      rw [zero]
      exact Nat.two_pow_pos _
  · next nonzero =>
      have top : Nat.log2 word < 32 := (Nat.log2_lt nonzero).mpr small
      have size : 32 - (31 - Nat.log2 word) = Nat.log2 word + 1 := by omega
      rw [size]
      exact Nat.lt_log2_self

theorem commonBits_le (lo hi : Nat) : commonBits lo hi ≤ 32 := by
  unfold commonBits leadingZeros32
  split <;> omega

/-- What lies between two values has the bits that they share. -/
theorem inPrefix_commonBits {lo hi v : Nat} (small : hi < 2 ^ 32) (lower : lo ≤ v)
    (upper : v ≤ hi) : InPrefix 32 (lo, commonBits lo hi) v := by
  have below : lo ^^^ hi < 2 ^ (32 - commonBits lo hi) :=
    lt_two_pow_leadingZeros (Nat.xor_lt_two_pow (by omega) small)
  have ends : lo >>> (32 - commonBits lo hi) = hi >>> (32 - commonBits lo hi) := by
    apply Nat.xor_eq_zero_iff.mp
    rw [← Nat.shiftRight_xor_distrib, Nat.shiftRight_eq_div_pow]
    exact Nat.div_eq_of_lt below
  unfold InPrefix
  simp only [Nat.shiftRight_eq_div_pow] at ends ⊢
  apply Nat.le_antisymm
  · rw [ends]
    exact Nat.div_le_div_right upper
  · exact Nat.div_le_div_right lower

/-! ### The text of a set -/

theorem join_full {terms : List String} (few : terms.length ≤ 2 ^ 64 - 1) :
    Style.full.join terms = ",".intercalate terms :=
  if_pos few

/-- No list of prefixes is longer than the list of all addresses of the set. -/
theorem length_setToPrefixes_small (set : IntervalSet 32) :
    (setToPrefixes set).length ≤ 2 ^ 32 := by
  have hosts : (setToPrefixes set).length ≤
      (((List.range (2 ^ 32)).filter set.contains).map (fun value => (value, 32))).length := by
    apply length_setToPrefixes_le address_narrow set
    intro value
    have within (inside : set.contains value = true) : value < 2 ^ 32 := by
      have top := IntervalSet.contains_le inside
      rw [domainMax_eq address_narrow] at top
      omega
    simp only [List.mem_map, List.mem_filter, List.mem_range, exists_exists_and_eq_and, InPrefix,
      Nat.sub_self, Nat.shiftRight_zero, exists_eq_right']
    exact ⟨fun listed => listed.2, fun inside => ⟨within inside, inside⟩⟩
  rw [List.length_map] at hosts
  apply hosts.trans
  calc ((List.range (2 ^ 32)).filter set.contains).length
      ≤ (List.range (2 ^ 32)).length := List.length_filter_le _ _
    _ = 2 ^ 32 := List.length_range

theorem join_termList (set : IntervalSet 32) :
    Style.full.join ((setToPrefixes set).map (fun block => cidr block.1 block.2)) =
      termList (setToPrefixes set) := by
  apply join_full
  have small := length_setToPrefixes_small set
  rw [List.length_map]
  omega

/-- The four forms of a text, and when each of them is used. -/
inductive Form (set : IntervalSet 32) : String → Prop
  | nothing (empty : set.isEmpty = true) : Form set "<none>"
  | everything (full : set.isFull = true) : Form set "any"
  | direct (inhabited : set.isEmpty = false) : Form set (termList (setToPrefixes set))
  | except (base len : Nat) (holes : IntervalSet 32) (short : len ≤ 32)
      (inhabited : holes.isEmpty = false)
      (rest : (prefixSet (BitVec.ofNat 32 base) len).difference holes = set)
      (fewer : 1 + (setToPrefixes holes).length < (setToPrefixes set).length) :
      Form set (cidr base len ++ " except " ++ termList (setToPrefixes holes))

/-- The prefix as it is printed, with its host bits cleared. -/
theorem prefixSet_base {lo : Nat} (within : lo ≤ domainMax 32) (len : Nat) :
    prefixSet (BitVec.ofNat 32 (IntervalSet.prefixBase 32 lo len)) len =
      IntervalSet.ofPrefix 32 lo len address_narrow within := by
  have small : IntervalSet.prefixBase 32 lo len < 2 ^ 32 := by
    rw [domainMax_eq address_narrow] at within
    have cleared := Nat.div_mul_le_self lo (2 ^ (32 - len))
    rw [IntervalSet.prefixBase_eq]
    omega
  apply IntervalSet.eq_of_contains
  intro value
  rw [contains_prefixSet small, IntervalSet.contains_ofPrefix, InPrefix]
  unfold IntervalSet.prefixBase
  rw [Nat.shiftLeft_shiftRight]

theorem form_addrSet (set : IntervalSet 32) : Form set (addrSet set Style.full) := by
  unfold addrSet
  split
  · next empty => exact .nothing empty
  next inhabited =>
  split
  · next full => exact .everything full
  rw [Bool.not_eq_true] at inhabited
  simp only [join_termList]
  split
  · exact .direct inhabited
  next lo hi found =>
  split
  · exact .direct inhabited
  next holed =>
  split
  · next fewer =>
      rw [Bool.not_eq_true] at holed
      apply Form.except _ _ _ (commonBits_le lo hi) holed _ fewer
      rw [IntervalSet.hull_ofPrefix, Option.map_some, Option.getD_some,
        prefixSet_base (IntervalSet.hull_le found)]
      apply IntervalSet.difference_difference
      intro value inside
      obtain ⟨lower, upper⟩ := IntervalSet.le_of_hull found inside
      rw [IntervalSet.contains_ofPrefix]
      have top := IntervalSet.contains_le (IntervalSet.contains_of_hull found).2
      rw [domainMax_eq address_narrow] at top
      exact inPrefix_commonBits (by omega) lower upper
  · exact .direct inhabited

/-! ### Reading back -/

theorem setToPrefixes_ne_nil {set : IntervalSet 32} (inhabited : set.isEmpty = false) :
    setToPrefixes set ≠ [] := by
  rw [Ne, setToPrefixes_eq_nil_iff address_narrow, inhabited]
  exact Bool.false_ne_true

theorem readList_setToPrefixes {set : IntervalSet 32} (inhabited : set.isEmpty = false) :
    readList (termList (setToPrefixes set)) = some set := by
  exact readList_termList (setToPrefixes_ne_nil inhabited) (setToPrefixes_spec address_narrow set).1
    (exists_inPrefix_iff address_narrow set)

theorem ne_of_not_mem {text other : String} {c : Char} (absent : c ∉ text.toList)
    (present : c ∈ other.toList) : text ≠ other := by
  intro same
  rw [same] at absent
  exact absent present

theorem splitOnce_except {front : String} (noBlank : ' ' ∉ front.toList) (back : String) :
    Text.splitOnce ' ' (front ++ " except " ++ back) = some (front, "except " ++ back) := by
  have parts : front ++ " except " ++ back =
      front ++ String.singleton ' ' ++ ("except " ++ back) := by
    apply String.toList_inj.mp
    simp
  rw [parts, Text.splitOnce_append noBlank]

theorem splitOnce_exceptions (back : String) :
    Text.splitOnce ' ' ("except " ++ back) = some ("except", back) := by
  have parts : "except " ++ back = "except" ++ String.singleton ' ' ++ back := by
    apply String.toList_inj.mp
    simp
  rw [parts, Text.splitOnce_append (by simp)]

/-- Where the parts have no blanks, the text of an exception has one reading. -/
theorem exceptions_unique {front back base holes : String} (noFront : ' ' ∉ front.toList)
    (noBack : ' ' ∉ back.toList)
    (same : front ++ " except " ++ back = base ++ " except " ++ holes) : back = holes := by
  have blanks := congrArg (fun text => text.toList.count ' ') same
  have two : " except ".toList.count ' ' = 2 := by decide
  simp only [String.toList_append, List.count_append, two, List.count_eq_zero_of_not_mem noFront,
    List.count_eq_zero_of_not_mem noBack] at blanks
  have noBase : ' ' ∉ base.toList := List.count_eq_zero.mp (by omega)
  have split := splitOnce_except noFront back
  rw [same, splitOnce_except noBase holes] at split
  have rest := congrArg (Text.splitOnce ' ') (Prod.mk.inj (Option.some.inj split)).2
  rw [splitOnce_exceptions, splitOnce_exceptions] at rest
  exact (Prod.mk.inj (Option.some.inj rest)).2.symm

/-- Each form is read as the set that it was used for. -/
theorem Form.read {set : IntervalSet 32} {text : String} (form : Form set text) :
    readAddrSet text = some set := by
  cases form with
  | nothing empty =>
      have same : IntervalSet.empty 32 = set := by
        apply IntervalSet.eq_of_contains
        intro value
        rw [set.isEmpty_iff.mp empty value, IntervalSet.contains_empty]
      rw [← same]
      rfl
  | everything full =>
      rw [set.isFull_iff_eq_full.mp full]
      rfl
  | direct inhabited =>
      have plain := plain_termList (setToPrefixes set)
      have notAny : termList (setToPrefixes set) ≠ "any" :=
        ne_of_not_mem (plain.not_mem rfl (by simp : 'a' ∉ _)) (by simp)
      have notNone : termList (setToPrefixes set) ≠ "<none>" :=
        ne_of_not_mem (plain.not_mem rfl (by simp : '<' ∉ _)) (by simp)
      unfold readAddrSet
      rw [if_neg notAny, if_neg notNone,
        Text.splitOnce_eq_none (plain.not_mem rfl (by simp : ' ' ∉ _))]
      exact readList_setToPrefixes inhabited
  | except base len holes short inhabited rest fewer =>
      have plain := plain_cidr base len
      have blank :
          ' ' ∈ (cidr base len ++ " except " ++ termList (setToPrefixes holes)).toList := by
        simp
      have notAny : cidr base len ++ " except " ++ termList (setToPrefixes holes) ≠ "any" :=
        (ne_of_not_mem (by simp) blank).symm
      have notNone : cidr base len ++ " except " ++ termList (setToPrefixes holes) ≠ "<none>" :=
        (ne_of_not_mem (by simp) blank).symm
      unfold readAddrSet
      rw [if_neg notAny, if_neg notNone, splitOnce_except (plain.not_mem rfl (by simp))]
      simp only [splitOnce_exceptions, readCidr_cidr base short, readList_setToPrefixes inhabited,
        Option.bind_eq_bind, Option.bind_some, rest]

/-- An exception is printed only where it is the shorter list. -/
theorem Form.fewer_terms {set : IntervalSet 32} {text : String} (form : Form set text)
    {base holes : String} (exception : text = base ++ " except " ++ holes) :
    1 + (Text.split ',' holes).length < (setToPrefixes set).length := by
  have blank : ' ' ∈ text.toList := by simp [exception]
  cases form with
  | nothing empty => simp at blank
  | everything full => simp at blank
  | direct inhabited =>
      exact absurd blank ((plain_termList (setToPrefixes set)).not_mem rfl (by simp))
  | except base' len holes' short inhabited rest fewer =>
      have same := exceptions_unique ((plain_cidr base' len).not_mem rfl (by simp))
        ((plain_termList (setToPrefixes holes')).not_mem rfl (by simp)) exception
      rw [← same, split_termList (setToPrefixes_ne_nil inhabited), List.length_map]
      exact fewer

/-- The text of a set is read back as the set, uses an exception only where that has
fewer terms than the list, and belongs to no other set. -/
theorem addrSet_lossless (set : IntervalSet 32) :
    readAddrSet (addrSet set Style.full) = some set ∧
      (∀ base holes : String, addrSet set Style.full = base ++ " except " ++ holes →
        1 + (Text.split ',' holes).length < (setToPrefixes set).length) ∧
      ∀ other : IntervalSet 32,
        addrSet other Style.full = addrSet set Style.full → other = set := by
  have read (s : IntervalSet 32) : readAddrSet (addrSet s Style.full) = some s :=
    (form_addrSet s).read
  refine ⟨read set, fun base holes => (form_addrSet set).fewer_terms, ?_⟩
  intro other same
  have both := read other
  rw [same, read set] at both
  exact (Option.some.inj both).symm

end Render

end Fwdelta
