import Mathlib.Analysis.SpecialFunctions.Pow.NthRootLemmas
import Mathlib.Data.Nat.Nth
import Mathlib.Data.Nat.Prime.Basic
import Mathlib.Tactic.Ring

/-
SHA-256, as FIPS 180-4 defines it on strings of bits.

The constants are what the standard says they are, the leading bits of the fractional
parts of roots of primes, and not a table.  A message is any list of bits; a message
of bytes is read with the most significant bit of each byte first.
-/

namespace Fips180

abbrev Bits := List Bool

abbrev Word := BitVec 32

/-! ### Bits and numbers -/

/-- The last `n` binary digits of a number, the most significant first. -/
def toBits : Nat → Nat → Bits
  | 0, _ => []
  | n + 1, x => toBits n (x / 2) ++ [x % 2 == 1]

def ofBits (bits : Bits) : Nat :=
  bits.foldl (fun value bit => 2 * value + bit.toNat) 0

def ofBytes (bytes : List UInt8) : Bits :=
  bytes.flatMap (fun byte => toBits 8 byte.toNat)

@[simp] theorem length_toBits (n x : Nat) : (toBits n x).length = n := by
  induction n generalizing x with
  | zero => rfl
  | succ n ih => simp [toBits, ih]

theorem toBits_add (m n x : Nat) : toBits (m + n) x = toBits m (x / 2 ^ n) ++ toBits n x := by
  induction n generalizing x with
  | zero => simp [toBits]
  | succ n ih =>
      rw [← Nat.add_assoc, toBits, toBits, ih, Nat.div_div_eq_div_mul, ← Nat.pow_succ',
        List.append_assoc]

theorem toBits_mod (n x : Nat) : toBits n (x % 2 ^ n) = toBits n x := by
  induction n generalizing x with
  | zero => rfl
  | succ n ih =>
      have half : x % 2 ^ (n + 1) / 2 = x / 2 % 2 ^ n := by
        rw [Nat.pow_succ', Nat.mod_mul_right_div_self]
      have last : x % 2 ^ (n + 1) % 2 = x % 2 :=
        Nat.mod_mod_of_dvd x (Dvd.intro_left (2 ^ n) (Nat.pow_succ 2 n).symm)
      rw [toBits, toBits, half, last, ih]

theorem ofBits_concat (bits : Bits) (bit : Bool) :
    ofBits (bits ++ [bit]) = 2 * ofBits bits + bit.toNat := by
  rw [ofBits, List.foldl_append]
  rfl

theorem ofBits_append_toBits (bits : Bits) (n x : Nat) :
    ofBits (bits ++ toBits n x) = ofBits bits * 2 ^ n + x % 2 ^ n := by
  induction n generalizing x with
  | zero => simp [toBits, Nat.mod_one]
  | succ n ih =>
      have bit : (x % 2 == 1).toNat = x % 2 := by
        rcases Nat.mod_two_eq_zero_or_one x with even | odd
        · rw [even]
          rfl
        · rw [odd]
          rfl
      have parts : x % 2 ^ (n + 1) = 2 * (x / 2 % 2 ^ n) + x % 2 := by
        rw [Nat.pow_succ', Nat.mod_mul, Nat.add_comm]
      rw [toBits, ← List.append_assoc, ofBits_concat, ih, bit, parts, Nat.pow_succ']
      ring

@[simp] theorem length_ofBytes (bytes : List UInt8) :
    (ofBytes bytes).length = 8 * bytes.length := by
  induction bytes with
  | nil => rfl
  | cons byte rest ih =>
      rw [ofBytes, List.flatMap_cons, List.length_append, length_toBits]
      rw [ofBytes] at ih
      rw [ih, List.length_cons]
      omega

theorem ofBytes_append (front back : List UInt8) :
    ofBytes (front ++ back) = ofBytes front ++ ofBytes back :=
  List.flatMap_append

theorem drop_ofBytes (n : Nat) (bytes : List UInt8) :
    (ofBytes bytes).drop (8 * n) = ofBytes (bytes.drop n) := by
  by_cases within : n ≤ bytes.length
  · conv_lhs => rw [← List.take_append_drop n bytes, ofBytes_append]
    rw [List.drop_left']
    rw [length_ofBytes, List.length_take, Nat.min_eq_left within]
  · rw [List.drop_eq_nil_of_le, List.drop_eq_nil_of_le (Nat.le_of_not_le within)]
    · rfl
    · rw [length_ofBytes]
      omega

theorem take_ofBytes (n : Nat) (bytes : List UInt8) :
    (ofBytes bytes).take (8 * n) = ofBytes (bytes.take n) := by
  by_cases within : n ≤ bytes.length
  · conv_lhs => rw [← List.take_append_drop n bytes, ofBytes_append]
    rw [List.take_left']
    rw [length_ofBytes, List.length_take, Nat.min_eq_left within]
  · rw [List.take_of_length_le, List.take_of_length_le (Nat.le_of_not_le within)]
    rw [length_ofBytes]
    omega

/-! ### Functions -/

def ch (x y z : Word) : Word := (x &&& y) ^^^ (~~~x &&& z)

def maj (x y z : Word) : Word := (x &&& y) ^^^ (x &&& z) ^^^ (y &&& z)

def bigSigma0 (x : Word) : Word := x.rotateRight 2 ^^^ x.rotateRight 13 ^^^ x.rotateRight 22

def bigSigma1 (x : Word) : Word := x.rotateRight 6 ^^^ x.rotateRight 11 ^^^ x.rotateRight 25

def smallSigma0 (x : Word) : Word := x.rotateRight 7 ^^^ x.rotateRight 18 ^^^ (x >>> 3)

def smallSigma1 (x : Word) : Word := x.rotateRight 17 ^^^ x.rotateRight 19 ^^^ (x >>> 10)

/-! ### Constants -/

/-- The first 32 bits of the fractional part of the `n`th root of `a`. -/
def rootFraction (n a : Nat) : Word :=
  BitVec.ofNat 32 (Nat.nthRoot n (a * 2 ^ (32 * n)))

noncomputable def prime (t : Nat) : Nat :=
  Nat.nth Nat.Prime t

noncomputable def K (t : Nat) : Word :=
  rootFraction 3 (prime t)

theorem rootFraction_eq {n a word : Nat} (whole : Nat)
    (lower : (whole * 2 ^ 32 + word) ^ n ≤ a * 2 ^ (32 * n))
    (upper : a * 2 ^ (32 * n) < (whole * 2 ^ 32 + word + 1) ^ n) :
    rootFraction n a = BitVec.ofNat 32 word := by
  rw [rootFraction, Nat.nthRoot_eq_of_le_of_lt lower upper]
  apply BitVec.eq_of_toNat_eq
  rw [BitVec.toNat_ofNat, BitVec.toNat_ofNat]
  omega

/-- Below 361 a number without a divisor up to 18 is a prime. -/
theorem prime_iff_of_lt {n : Nat} (small : n < 361) :
    Nat.Prime n ↔ 2 ≤ n ∧ ∀ d < 19, 2 ≤ d → d < n → n % d ≠ 0 := by
  constructor
  · intro isPrime
    refine ⟨isPrime.two_le, ?_⟩
    intro d _ two below divides
    rcases (Nat.dvd_prime isPrime).mp (Nat.dvd_of_mod_eq_zero divides) with one | same
    · omega
    · omega
  · intro both
    rcases both with ⟨two, none⟩
    by_contra composite
    have square := Nat.minFac_sq_le_self (by omega) composite
    have below : n.minFac < 19 := by
      by_contra large
      have squares := Nat.pow_le_pow_left (Nat.le_of_not_lt large) 2
      omega
    have factor := Nat.minFac_prime (show n ≠ 1 by omega)
    have proper : n.minFac < n := (Nat.not_prime_iff_minFac_lt two).mp composite
    exact none _ below factor.two_le proper (Nat.mod_eq_zero_of_dvd (Nat.minFac_dvd n))

theorem count_eq_length_filter (p : Nat → Prop) [DecidablePred p] (n : Nat) :
    Nat.count p n = ((List.range n).filter (fun m => decide (p m))).length := by
  induction n with
  | zero => simp
  | succ n ih =>
      rw [Nat.count_succ, ih, List.range_succ, List.filter_append, List.length_append]
      by_cases holds : p n
      · simp [holds]
      · simp [holds]

/-- The numbers that satisfy a property, in order. -/
theorem nth_eq_of_filter_range (p : Nat → Prop) [DecidablePred p] {n t found : Nat}
    (at_ : ((List.range n).filter (fun m => decide (p m)))[t]? = some found) :
    Nat.nth p t = found := by
  induction n with
  | zero => simp at at_
  | succ n ih =>
      rw [List.range_succ, List.filter_append, List.getElem?_append] at at_
      split at at_
      · exact ih at_
      · next beyond =>
          by_cases holds : p n
          · rw [List.filter_singleton, decide_eq_true holds, Bool.cond_true,
              List.getElem?_singleton] at at_
            split at at_
            · next last =>
                obtain rfl := Option.some.inj at_
                have index : t = Nat.count p n := by
                  rw [count_eq_length_filter]
                  omega
                rw [index]
                exact Nat.nth_count holds
            · contradiction
          · rw [List.filter_singleton, decide_eq_false holds] at at_
            contradiction

/-- The first 64 primes. -/
def primes : List Nat :=
  [2, 3, 5, 7, 11, 13, 17, 19, 23, 29, 31, 37, 41, 43, 47, 53, 59, 61, 67, 71, 73, 79, 83, 89,
    97, 101, 103, 107, 109, 113, 127, 131, 137, 139, 149, 151, 157, 163, 167, 173, 179, 181,
    191, 193, 197, 199, 211, 223, 227, 229, 233, 239, 241, 251, 257, 263, 269, 271, 277, 281,
    283, 293, 307, 311]

theorem filter_prime_range :
    (List.range 312).filter (fun n => decide (Nat.Prime n)) = primes := by
  have sieved : (List.range 312).filter (fun n =>
      decide (2 ≤ n ∧ ∀ d < 19, 2 ≤ d → d < n → n % d ≠ 0)) = primes := by
    decide +kernel
  rw [← sieved]
  apply List.filter_congr
  intro n member
  rw [List.mem_range] at member
  rw [decide_eq_decide]
  exact prime_iff_of_lt (by omega)

theorem prime_eq {t p : Nat} (listed : primes[t]? = some p) : prime t = p := by
  rw [← filter_prime_range] at listed
  exact nth_eq_of_filter_range Nat.Prime listed

/-- The eight words of a hash value, and the eight working variables. -/
@[ext]
structure Words where
  a : Word
  b : Word
  c : Word
  d : Word
  e : Word
  f : Word
  g : Word
  h : Word

noncomputable def initial : Words where
  a := rootFraction 2 (prime 0)
  b := rootFraction 2 (prime 1)
  c := rootFraction 2 (prime 2)
  d := rootFraction 2 (prime 3)
  e := rootFraction 2 (prime 4)
  f := rootFraction 2 (prime 5)
  g := rootFraction 2 (prime 6)
  h := rootFraction 2 (prime 7)

/-! ### Preprocessing -/

theorem exists_padZeros (length : Nat) : ∃ k, (length + 1 + k) % 512 = 448 :=
  ⟨(959 - length % 512) % 512, by omega⟩

/-- The smallest number of zeros that leaves room for the length at the end of a block. -/
def padZeros (length : Nat) : Nat :=
  Nat.find (exists_padZeros length)

theorem padZeros_eq {length k : Nat} (fits : (length + 1 + k) % 512 = 448) (least : k < 512) :
    padZeros length = k := by
  rw [padZeros, Nat.find_eq_iff]
  refine ⟨fits, ?_⟩
  intro m smaller
  omega

def pad (message : Bits) : Bits :=
  message ++ true :: List.replicate (padZeros message.length) false ++
    toBits 64 message.length

def block (padded : Bits) (i : Nat) : Bits :=
  (padded.drop (512 * i)).take 512

def word (block : Bits) (t : Nat) : Word :=
  BitVec.ofNat 32 (ofBits ((block.drop (32 * t)).take 32))

/-! ### The hash computation -/

def schedule (M : Nat → Word) (t : Nat) : Word :=
  if t < 16 then M t
  else smallSigma1 (schedule M (t - 2)) + schedule M (t - 7) + smallSigma0 (schedule M (t - 15)) +
    schedule M (t - 16)
termination_by t

theorem schedule_of_lt (M : Nat → Word) {t : Nat} (early : t < 16) : schedule M t = M t := by
  rw [schedule, if_pos early]

theorem schedule_of_le (M : Nat → Word) {t : Nat} (late : 16 ≤ t) :
    schedule M t = smallSigma1 (schedule M (t - 2)) + schedule M (t - 7) +
      smallSigma0 (schedule M (t - 15)) + schedule M (t - 16) := by
  rw [schedule, if_neg (Nat.not_lt.mpr late)]

noncomputable def round (W : Nat → Word) (v : Words) (t : Nat) : Words :=
  let T1 := v.h + bigSigma1 v.e + ch v.e v.f v.g + K t + W t
  let T2 := bigSigma0 v.a + maj v.a v.b v.c
  { a := T1 + T2, b := v.a, c := v.b, d := v.c, e := v.d + T1, f := v.e, g := v.f, h := v.g }

noncomputable def compress (H : Words) (M : Nat → Word) : Words :=
  let v := (List.range 64).foldl (round (schedule M)) H
  { a := v.a + H.a, b := v.b + H.b, c := v.c + H.c, d := v.d + H.d
    e := v.e + H.e, f := v.f + H.f, g := v.g + H.g, h := v.h + H.h }

noncomputable def hash (message : Bits) : Words :=
  let padded := pad message
  (List.range (padded.length / 512)).foldl (fun H i => compress H (word (block padded i))) initial

def Words.bits (H : Words) : Bits :=
  [H.a, H.b, H.c, H.d, H.e, H.f, H.g, H.h].flatMap (fun w => toBits 32 w.toNat)

/-- The message digest, 256 bits. -/
noncomputable def sha256 (message : Bits) : Bits :=
  (hash message).bits

end Fips180
