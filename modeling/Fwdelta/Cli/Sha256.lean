import Fwdelta.Fips180
import Mathlib.Data.List.Induction

/-
SHA-256 as the command line computes it, for the digests of the attestation.

The code pads a vector of bytes and works on it block by block, with an array of 64
words that it fills from the front and eight registers that it shifts.  It computes
what the standard defines on the bits of the data, and prints 64 digits.
-/

namespace Fwdelta.Cli.Sha256

def K : List (BitVec 32) :=
  [0x428a2f98, 0x71374491, 0xb5c0fbcf, 0xe9b5dba5, 0x3956c25b, 0x59f111f1, 0x923f82a4,
    0xab1c5ed5, 0xd807aa98, 0x12835b01, 0x243185be, 0x550c7dc3, 0x72be5d74, 0x80deb1fe,
    0x9bdc06a7, 0xc19bf174, 0xe49b69c1, 0xefbe4786, 0x0fc19dc6, 0x240ca1cc, 0x2de92c6f,
    0x4a7484aa, 0x5cb0a9dc, 0x76f988da, 0x983e5152, 0xa831c66d, 0xb00327c8, 0xbf597fc7,
    0xc6e00bf3, 0xd5a79147, 0x06ca6351, 0x14292967, 0x27b70a85, 0x2e1b2138, 0x4d2c6dfc,
    0x53380d13, 0x650a7354, 0x766a0abb, 0x81c2c92e, 0x92722c85, 0xa2bfe8a1, 0xa81a664b,
    0xc24b8b70, 0xc76c51a3, 0xd192e819, 0xd6990624, 0xf40e3585, 0x106aa070, 0x19a4c116,
    0x1e376c08, 0x2748774c, 0x34b0bcb5, 0x391c0cb3, 0x4ed8aa4a, 0x5b9cca4f, 0x682e6ff3,
    0x748f82ee, 0x78a5636f, 0x84c87814, 0x8cc70208, 0x90befffa, 0xa4506ceb, 0xbef9a3f7,
    0xc67178f2]

/-- The array `h` of eight words, and the eight working variables. -/
structure Registers where
  a : BitVec 32
  b : BitVec 32
  c : BitVec 32
  d : BitVec 32
  e : BitVec 32
  f : BitVec 32
  g : BitVec 32
  hh : BitVec 32

def H0 : Registers where
  a := 0x6a09e667
  b := 0xbb67ae85
  c := 0x3c6ef372
  d := 0xa54ff53a
  e := 0x510e527f
  f := 0x9b05688c
  g := 0x1f83d9ab
  hh := 0x5be0cd19

/-! ### Slices of bytes -/

/-- The chunks of a slice that have the full length (`chunks_exact`). -/
def chunksExact {α : Type} (size : Nat) (slice : List α) : List (List α) :=
  (List.range (slice.length / size)).map (fun i => (slice.drop (size * i)).take size)

/-- The last bytes of a number, the most significant first (`to_be_bytes`). -/
def toBeBytes : Nat → Nat → List UInt8
  | 0, _ => []
  | count + 1, value => toBeBytes count (value / 256) ++ [UInt8.ofNat value]

def fromBeBytes (bytes : List UInt8) : BitVec 32 :=
  BitVec.ofNat 32 (bytes.foldl (fun value byte => value * 256 + byte.toNat) 0)

/-! ### The digest -/

/-- The loop that pushes zeros; 64 rounds are enough for any message. -/
def pushZeros : Nat → List UInt8 → List UInt8
  | 0, message => message
  | rounds + 1, message =>
      if message.length % 64 != 56 then pushZeros rounds (message ++ [0]) else message

def padMessage (data : List UInt8) : List UInt8 :=
  let bitLen := BitVec.ofNat 64 data.length * 8
  pushZeros 64 (data ++ [0x80]) ++ toBeBytes 8 bitLen.toNat

/-- The first 16 words of the array `w`, which are the block's. -/
def blockWords (block : List UInt8) : List (BitVec 32) :=
  (chunksExact 4 block).zipIdx.foldl (fun w chunk => w.set chunk.2 (fromBeBytes chunk.1))
    (List.replicate 64 0)

def extendWords (w : List (BitVec 32)) (i : Nat) : List (BitVec 32) :=
  let w15 := w.getD (i - 15) 0
  let w2 := w.getD (i - 2) 0
  let s0 := w15.rotateRight 7 ^^^ w15.rotateRight 18 ^^^ (w15 >>> 3)
  let s1 := w2.rotateRight 17 ^^^ w2.rotateRight 19 ^^^ (w2 >>> 10)
  w.set i (w.getD (i - 16) 0 + s0 + w.getD (i - 7) 0 + s1)

def words (block : List UInt8) : List (BitVec 32) :=
  (List.range' 16 48).foldl extendWords (blockWords block)

def round (w : List (BitVec 32)) (r : Registers) (i : Nat) : Registers :=
  let s1 := r.e.rotateRight 6 ^^^ r.e.rotateRight 11 ^^^ r.e.rotateRight 25
  let ch := (r.e &&& r.f) ^^^ (~~~r.e &&& r.g)
  let t1 := r.hh + s1 + ch + K.getD i 0 + w.getD i 0
  let s0 := r.a.rotateRight 2 ^^^ r.a.rotateRight 13 ^^^ r.a.rotateRight 22
  let maj := (r.a &&& r.b) ^^^ (r.a &&& r.c) ^^^ (r.b &&& r.c)
  let t2 := s0 + maj
  { hh := r.g, g := r.f, f := r.e, e := r.d + t1, d := r.c, c := r.b, b := r.a, a := t1 + t2 }

def compressBlock (h : Registers) (block : List UInt8) : Registers :=
  let r := (List.range 64).foldl (round (words block)) h
  { a := h.a + r.a, b := h.b + r.b, c := h.c + r.c, d := h.d + r.d
    e := h.e + r.e, f := h.f + r.f, g := h.g + r.g, hh := h.hh + r.hh }

def Registers.bytes (h : Registers) : List UInt8 :=
  [h.a, h.b, h.c, h.d, h.e, h.f, h.g, h.hh].flatMap (fun word => toBeBytes 4 word.toNat)

def digest (data : List UInt8) : List UInt8 :=
  ((chunksExact 64 (padMessage data)).foldl compressBlock H0).bytes

/-! ### Hexadecimal text -/

/-- The character of a digit (`char::from_digit`). -/
def fromDigit (digit radix : Nat) : Option Char :=
  if digit < radix then some (Nat.digitChar digit) else none

/-- Lowercase hex.  There is no result where the code would panic. -/
def hex (bytes : List UInt8) : Option String :=
  bytes.foldlM (fun s (b : UInt8) => do
    let high ← fromDigit (b >>> 4).toNat 16
    let low ← fromDigit (b &&& 0x0f).toNat 16
    some ((s.push high).push low)) ""

def hexDigest (data : String) : Option String :=
  hex (digest data.toUTF8.data.toList)

example : hexDigest "abc" =
    some "ba7816bf8f01cfea414140de5dae2223b00361a396177a9cb410ff61f20015ad" := by
  decide +kernel

/-! ### Constants -/

open Fips180 (ofBytes toBits ofBits primes)

theorem eq_rootFraction {n t p : Nat} {w : BitVec 32} (listed : primes[t]? = some p)
    (root : ∃ whole < 8, (whole * 2 ^ 32 + w.toNat) ^ n ≤ p * 2 ^ (32 * n) ∧
      p * 2 ^ (32 * n) < (whole * 2 ^ 32 + w.toNat + 1) ^ n) :
    w = Fips180.rootFraction n (Fips180.prime t) := by
  obtain ⟨whole, _, lower, upper⟩ := root
  rw [Fips180.prime_eq listed, Fips180.rootFraction_eq whole lower upper, BitVec.ofNat_toNat]
  exact (BitVec.setWidth_eq w).symm

theorem K_eq {t : Nat} (within : t < 64) : K.getD t 0 = Fips180.K t := by
  have roots : ∀ i : Fin 64, ∃ whole < 8,
      (whole * 2 ^ 32 + (K.getD i 0).toNat) ^ 3 ≤ primes.getD i 0 * 2 ^ (32 * 3) ∧
        primes.getD i 0 * 2 ^ (32 * 3) < (whole * 2 ^ 32 + (K.getD i 0).toNat + 1) ^ 3 := by
    decide +kernel
  have listed : primes[t]? = some (primes.getD t 0) := by
    have bound : t < primes.length := within
    rw [List.getD_eq_getElem?_getD, List.getElem?_eq_getElem bound]
    rfl
  exact eq_rootFraction listed (roots ⟨t, within⟩)

/-- The registers under the names of the standard. -/
def Registers.standard (r : Registers) : Fips180.Words where
  a := r.a
  b := r.b
  c := r.c
  d := r.d
  e := r.e
  f := r.f
  g := r.g
  h := r.hh

theorem standard_H0 : H0.standard = Fips180.initial := by
  ext : 1
  · exact eq_rootFraction (p := 2) rfl (by decide +kernel)
  · exact eq_rootFraction (p := 3) rfl (by decide +kernel)
  · exact eq_rootFraction (p := 5) rfl (by decide +kernel)
  · exact eq_rootFraction (p := 7) rfl (by decide +kernel)
  · exact eq_rootFraction (p := 11) rfl (by decide +kernel)
  · exact eq_rootFraction (p := 13) rfl (by decide +kernel)
  · exact eq_rootFraction (p := 17) rfl (by decide +kernel)
  · exact eq_rootFraction (p := 19) rfl (by decide +kernel)

/-! ### Bytes -/

@[simp] theorem length_toBeBytes (count value : Nat) :
    (toBeBytes count value).length = count := by
  induction count generalizing value with
  | zero => rfl
  | succ count ih => simp [toBeBytes, ih]

theorem ofBytes_singleton (byte : UInt8) : ofBytes [byte] = toBits 8 byte.toNat :=
  List.append_nil _

private theorem two_pow_eight : 2 ^ 8 = 256 := rfl

theorem ofBytes_toBeBytes (count value : Nat) :
    ofBytes (toBeBytes count value) = toBits (8 * count) value := by
  induction count generalizing value with
  | zero => rfl
  | succ count ih =>
      rw [toBeBytes, Fips180.ofBytes_append, ih, ofBytes_singleton, UInt8.toNat_ofNat',
        Fips180.toBits_mod, Nat.mul_succ, Fips180.toBits_add, two_pow_eight]

theorem fromBeBytes_eq (bytes : List UInt8) :
    fromBeBytes bytes = BitVec.ofNat 32 (ofBits (ofBytes bytes)) := by
  unfold fromBeBytes
  congr 1
  induction bytes using List.reverseRecOn with
  | nil => rfl
  | append_singleton front byte ih =>
      have small := byte.toNat_lt
      rw [List.foldl_append, List.foldl_cons, List.foldl_nil, ih, Fips180.ofBytes_append,
        ofBytes_singleton, Fips180.ofBits_append_toBits, Nat.mod_eq_of_lt small, two_pow_eight]

@[simp] theorem length_chunksExact {α : Type} (size : Nat) (slice : List α) :
    (chunksExact size slice).length = slice.length / size := by
  simp [chunksExact]

/-! ### Padding -/

theorem pushZeros_eq {rounds zeros : Nat} {message : List UInt8} (enough : zeros ≤ rounds)
    (fits : (message.length + zeros) % 64 = 56)
    (least : ∀ fewer < zeros, (message.length + fewer) % 64 ≠ 56) :
    pushZeros rounds message = message ++ List.replicate zeros 0 := by
  induction rounds generalizing message zeros with
  | zero =>
      obtain rfl := Nat.le_zero.mp enough
      rw [pushZeros, List.replicate_zero, List.append_nil]
  | succ rounds ih =>
      cases zeros with
      | zero => simp_all [pushZeros]
      | succ zeros =>
          have goesOn : (message.length % 64 != 56) = true := by
            simpa using least 0 (Nat.succ_pos _)
          have longer : ((message ++ [0]).length + zeros) % 64 = 56 := by
            rw [List.length_append, List.length_singleton]
            omega
          have leastLonger : ∀ fewer < zeros, ((message ++ [0]).length + fewer) % 64 ≠ 56 := by
            intro fewer smaller
            have given := least (fewer + 1) (by omega)
            rw [List.length_append, List.length_singleton]
            omega
          rw [pushZeros, if_pos goesOn, ih (Nat.le_of_succ_le_succ enough) longer leastLonger,
            List.append_assoc, List.replicate_succ]
          rfl

/-- The zeros that the code pushes after 0x80. -/
def zerosAfter (length : Nat) : Nat :=
  (119 - length % 64) % 64

theorem zerosAfter_least (length : Nat) :
    (length + 1 + zerosAfter length) % 64 = 56 ∧
      ∀ fewer < zerosAfter length, (length + 1 + fewer) % 64 ≠ 56 := by
  unfold zerosAfter
  exact ⟨by omega, by omega⟩

theorem padMessage_eq (data : List UInt8) :
    padMessage data = data ++ 0x80 :: List.replicate (zerosAfter data.length) 0 ++
      toBeBytes 8 (BitVec.ofNat 64 data.length * 8).toNat := by
  have length : (data ++ [0x80]).length = data.length + 1 := by simp
  obtain ⟨fits, least⟩ := zerosAfter_least data.length
  have enough : zerosAfter data.length ≤ 64 := by
    unfold zerosAfter
    omega
  unfold padMessage
  rw [pushZeros_eq enough (by rw [length]; exact fits) (by rw [length]; exact least),
    List.append_assoc data]
  rfl

theorem length_padMessage (data : List UInt8) : (padMessage data).length % 64 = 0 := by
  have fits := (zerosAfter_least data.length).1
  rw [padMessage_eq]
  simp only [List.length_append, List.length_cons, List.length_replicate, length_toBeBytes]
  omega

theorem toNat_bitLen {length : Nat} (short : length < 2 ^ 61) :
    (BitVec.ofNat 64 length * 8).toNat = 8 * length := by
  rw [BitVec.toNat_mul, BitVec.toNat_ofNat]
  have eight : (8 : BitVec 64).toNat = 8 := rfl
  rw [eight]
  omega

theorem ofBytes_zeros (count : Nat) :
    ofBytes (List.replicate count 0) = List.replicate (8 * count) false := by
  induction count with
  | zero => rfl
  | succ count ih =>
      rw [List.replicate_succ', Fips180.ofBytes_append, ih, ofBytes_singleton, Nat.mul_succ,
        List.replicate_add]
      rfl

/-- The padded bytes are the padded bits. -/
theorem ofBytes_padMessage {data : List UInt8} (short : data.length < 2 ^ 61) :
    ofBytes (padMessage data) = Fips180.pad (ofBytes data) := by
  have zeros : Fips180.padZeros (8 * data.length) = 7 + 8 * zerosAfter data.length := by
    apply Fips180.padZeros_eq
    · have fits := (zerosAfter_least data.length).1
      omega
    · unfold zerosAfter
      omega
  have marker : ofBytes [0x80] = true :: List.replicate 7 false := by decide
  unfold Fips180.pad
  rw [padMessage_eq, toNat_bitLen short, Fips180.ofBytes_append, ofBytes_toBeBytes,
    Fips180.ofBytes_append, ← List.singleton_append, Fips180.ofBytes_append, marker,
    ofBytes_zeros, Fips180.length_ofBytes, zeros, List.replicate_add]
  rfl

/-! ### One block -/

section Block

variable {block : List UInt8}

/-- The words of the block, as the standard parses its bits. -/
abbrev parsed (block : List UInt8) : Nat → BitVec 32 :=
  Fips180.word (ofBytes block)

theorem parsed_eq (block : List UInt8) (t : Nat) :
    parsed block t = fromBeBytes ((block.drop (4 * t)).take 4) := by
  have start : 32 * t = 8 * (4 * t) := by omega
  have size : (ofBytes (block.drop (4 * t))).take 32 = ofBytes ((block.drop (4 * t)).take 4) :=
    Fips180.take_ofBytes 4 _
  rw [parsed, Fips180.word, start, Fips180.drop_ofBytes, size, fromBeBytes_eq]

/-- The loop over the words of a block writes each of them at its index. -/
theorem getD_foldl_zipIdx {α : Type} (f : α → BitVec 32) (chunks : List α) (start : Nat)
    (w : List (BitVec 32)) (fits : start + chunks.length ≤ w.length) :
    ((chunks.zipIdx start).foldl (fun w chunk => w.set chunk.2 (f chunk.1)) w).length = w.length ∧
      ∀ t, ((chunks.zipIdx start).foldl (fun w chunk => w.set chunk.2 (f chunk.1)) w)[t]? =
        if start ≤ t ∧ t < start + chunks.length then (chunks[t - start]?).map f else w[t]? := by
  induction chunks generalizing start w with
  | nil =>
      refine ⟨rfl, fun t => ?_⟩
      rw [if_neg (by simp)]
      rfl
  | cons chunk rest ih =>
      rw [List.length_cons] at fits
      have written : (w.set start (f chunk)).length = w.length := List.length_set
      obtain ⟨length, later⟩ := ih (start + 1) (w.set start (f chunk)) (by omega)
      rw [List.zipIdx_cons, List.foldl_cons]
      refine ⟨length.trans written, fun t => ?_⟩
      rw [later, List.length_cons]
      by_cases here : t = start
      · subst here
        rw [if_neg (by omega), if_pos (by omega), List.getElem?_set_self (by omega), Nat.sub_self]
        rfl
      · by_cases inRest : start + 1 ≤ t ∧ t < start + 1 + rest.length
        · have next : t - start = t - (start + 1) + 1 := by omega
          rw [if_pos inRest, if_pos (by omega), next, List.getElem?_cons_succ]
        · rw [if_neg inRest, if_neg (by omega), List.getElem?_set_ne (Ne.symm here)]

theorem length_blockWords (whole : block.length = 64) : (blockWords block).length = 64 := by
  have fits : 0 + (chunksExact 4 block).length ≤ (List.replicate 64 (0 : BitVec 32)).length := by
    rw [length_chunksExact, List.length_replicate, whole]
    omega
  exact (getD_foldl_zipIdx fromBeBytes (chunksExact 4 block) 0 _ fits).1.trans List.length_replicate

theorem blockWords_getD (whole : block.length = 64) {t : Nat} (within : t < 16) :
    (blockWords block).getD t 0 = parsed block t := by
  have count : (chunksExact 4 block).length = 16 := by rw [length_chunksExact, whole]
  have fits : 0 + (chunksExact 4 block).length ≤ (List.replicate 64 (0 : BitVec 32)).length := by
    rw [count, List.length_replicate]
    omega
  have found := (getD_foldl_zipIdx fromBeBytes (chunksExact 4 block) 0 _ fits).2 t
  have chunk : (chunksExact 4 block)[t]? = some ((block.drop (4 * t)).take 4) := by
    rw [chunksExact, List.getElem?_map, List.getElem?_range (by rw [whole]; omega)]
    rfl
  rw [if_pos ⟨Nat.zero_le _, by omega⟩, Nat.sub_zero, chunk] at found
  rw [parsed_eq, List.getD_eq_getElem?_getD, blockWords, found]
  rfl

/-- After `n` rounds of the loop the array holds the schedule up to there. -/
theorem foldl_extendWords (whole : block.length = 64) (n : Nat) (within : 16 + n ≤ 64) :
    ((List.range' 16 n).foldl extendWords (blockWords block)).length = 64 ∧
      ∀ t < 16 + n, ((List.range' 16 n).foldl extendWords (blockWords block)).getD t 0 =
        Fips180.schedule (parsed block) t := by
  induction n with
  | zero =>
      refine ⟨length_blockWords whole, fun t before => ?_⟩
      rw [Fips180.schedule_of_lt _ before]
      exact blockWords_getD whole before
  | succ n ih =>
      obtain ⟨length, filled⟩ := ih (by omega)
      rw [List.range'_concat, List.foldl_append, List.foldl_cons, List.foldl_nil, Nat.one_mul]
      generalize (List.range' 16 n).foldl extendWords (blockWords block) = w at length filled
      refine ⟨?_, fun t before => ?_⟩
      · rw [extendWords, List.length_set, length]
      · rw [extendWords, List.getD_eq_getElem?_getD]
        by_cases last : t = 16 + n
        · subst last
          rw [List.getElem?_set_self (by omega), Option.getD_some, filled _ (by omega),
            filled _ (by omega), filled _ (by omega), filled _ (by omega),
            Fips180.schedule_of_le _ (show 16 ≤ 16 + n by omega)]
          unfold Fips180.smallSigma0 Fips180.smallSigma1
          ac_rfl
        · rw [List.getElem?_set_ne (Ne.symm last), ← List.getD_eq_getElem?_getD]
          exact filled t (by omega)

theorem words_getD (whole : block.length = 64) {t : Nat} (within : t < 64) :
    (words block).getD t 0 = Fips180.schedule (parsed block) t :=
  (foldl_extendWords whole 48 (by omega)).2 t within

theorem standard_round (whole : block.length = 64) (r : Registers) {t : Nat} (within : t < 64) :
    (round (words block) r t).standard =
      Fips180.round (Fips180.schedule (parsed block)) r.standard t := by
  unfold round Fips180.round
  rw [K_eq within, words_getD whole within]
  rfl

theorem standard_rounds (whole : block.length = 64) (rounds : List Nat)
    (within : ∀ t ∈ rounds, t < 64) (r : Registers) :
    (rounds.foldl (round (words block)) r).standard =
      rounds.foldl (Fips180.round (Fips180.schedule (parsed block))) r.standard := by
  induction rounds generalizing r with
  | nil => rfl
  | cons t rest ih =>
      rw [List.foldl_cons, List.foldl_cons, ih (fun u member => within u (by simp [member])),
        standard_round whole r (within t (by simp))]

theorem standard_compressBlock (whole : block.length = 64) (h : Registers) :
    (compressBlock h block).standard = Fips180.compress h.standard (parsed block) := by
  have rounds := standard_rounds whole (List.range 64) (by simp) h
  unfold compressBlock Fips180.compress
  rw [← rounds]
  ext : 1 <;> exact BitVec.add_comm _ _

end Block

/-! ### The digest and its text -/

theorem ofBytes_bytes (h : Registers) : ofBytes h.bytes = h.standard.bits := by
  unfold Registers.bytes Fips180.Words.bits ofBytes
  rw [List.flatMap_assoc]
  have word (w : BitVec 32) : (toBeBytes 4 w.toNat).flatMap (fun byte => toBits 8 byte.toNat) =
      toBits 32 w.toNat := ofBytes_toBeBytes 4 w.toNat
  simp only [word]
  rfl

theorem standard_blocks (message : List UInt8) (indices : List Nat)
    (within : ∀ i ∈ indices, 64 * (i + 1) ≤ message.length) (h : Registers) :
    ((indices.map (fun i => (message.drop (64 * i)).take 64)).foldl compressBlock h).standard =
      indices.foldl (fun H i => Fips180.compress H
        (Fips180.word (Fips180.block (ofBytes message) i))) h.standard := by
  induction indices generalizing h with
  | nil => rfl
  | cons i rest ih =>
      have bound := within i (by simp)
      have whole : ((message.drop (64 * i)).take 64).length = 64 := by
        rw [List.length_take, List.length_drop]
        omega
      have bits : Fips180.block (ofBytes message) i =
          ofBytes ((message.drop (64 * i)).take 64) := by
        have start : 512 * i = 8 * (64 * i) := by omega
        rw [Fips180.block, start, Fips180.drop_ofBytes]
        exact Fips180.take_ofBytes 64 _
      rw [List.map_cons, List.foldl_cons, List.foldl_cons, bits,
        ih (fun j member => within j (by simp [member])), standard_compressBlock whole]

theorem ofBytes_digest {data : List UInt8} (short : data.length < 2 ^ 61) :
    ofBytes (digest data) = Fips180.sha256 (ofBytes data) := by
  have blocks : (8 * (padMessage data).length) / 512 = (padMessage data).length / 64 := by omega
  have within (i : Nat) (member : i ∈ List.range ((padMessage data).length / 64)) :
      64 * (i + 1) ≤ (padMessage data).length := by
    rw [List.mem_range] at member
    omega
  unfold digest Fips180.sha256 Fips180.hash
  dsimp only
  rw [ofBytes_bytes, ← ofBytes_padMessage short, Fips180.length_ofBytes, blocks, chunksExact,
    standard_blocks _ _ within, standard_H0]

theorem length_digest (data : List UInt8) : (digest data).length = 32 := by
  simp [digest, Registers.bytes]

def hexDigits (byte : UInt8) : List Char :=
  [Nat.digitChar (byte >>> 4).toNat, Nat.digitChar (byte &&& 0x0f).toNat]

theorem high_lt (byte : UInt8) : (byte >>> 4).toNat < 16 := by
  have small := byte.toNat_lt
  have shift : (4 : UInt8).toNat % 8 = 4 := rfl
  rw [UInt8.toNat_shiftRight, shift, Nat.shiftRight_eq_div_pow]
  omega

theorem low_lt (byte : UInt8) : (byte &&& 0x0f).toNat < 16 := by
  rw [UInt8.toNat_and]
  exact Nat.lt_of_le_of_lt Nat.and_le_right (by decide)

/-- No digit is out of range, so the code never panics. -/
theorem hex_eq_some (bytes : List UInt8) :
    ∃ text, hex bytes = some text ∧ text.toList = bytes.flatMap hexDigits := by
  have pushed (s : String) : ∃ text, bytes.foldlM (fun s (b : UInt8) => do
      let high ← fromDigit (b >>> 4).toNat 16
      let low ← fromDigit (b &&& 0x0f).toNat 16
      some ((s.push high).push low)) s = some text ∧
        text.toList = s.toList ++ bytes.flatMap hexDigits := by
    induction bytes generalizing s with
    | nil => exact ⟨s, rfl, (List.append_nil _).symm⟩
    | cons byte rest ih =>
        obtain ⟨text, folded, spelled⟩ := ih
          ((s.push (Nat.digitChar (byte >>> 4).toNat)).push (Nat.digitChar (byte &&& 0x0f).toNat))
        refine ⟨text, ?_, ?_⟩
        · rw [List.foldlM_cons, fromDigit, if_pos (high_lt byte), fromDigit, if_pos (low_lt byte)]
          exact folded
        · rw [spelled, String.toList_push, String.toList_push, List.flatMap_cons, hexDigits]
          simp
  obtain ⟨text, folded, spelled⟩ := pushed ""
  exact ⟨text, folded, spelled⟩

def lowerHex : List Char :=
  "0123456789abcdef".toList

theorem digitChar_mem_lowerHex : ∀ digit < 16, Nat.digitChar digit ∈ lowerHex := by
  decide

theorem flatMap_hexDigits (bytes : List UInt8) :
    (bytes.flatMap hexDigits).length = 2 * bytes.length ∧
      ∀ c ∈ bytes.flatMap hexDigits, c ∈ lowerHex := by
  induction bytes with
  | nil => simp
  | cons byte rest ih =>
      obtain ⟨length, digits⟩ := ih
      rw [List.flatMap_cons, hexDigits]
      refine ⟨?_, ?_⟩
      · rw [List.length_append, length]
        simp only [List.length_cons, List.length_nil]
        omega
      · intro c member
        rcases List.mem_append.mp member with here | later
        · rcases List.mem_pair.mp here with rfl | rfl
          · exact digitChar_mem_lowerHex _ (high_lt byte)
          · exact digitChar_mem_lowerHex _ (low_lt byte)
        · exact digits c later

/-- The digest is SHA-256 of the data, and prints as 64 lowercase digits. -/
theorem digest_is_sha256 (data : List UInt8) :
    (data.length < 2 ^ 61 →
      (∃ zeros, padMessage data =
          data ++ 0x80 :: List.replicate zeros 0 ++ toBeBytes 8 (8 * data.length) ∧
        (data.length + 1 + zeros) % 64 = 56 ∧
        ∀ fewer < zeros, (data.length + 1 + fewer) % 64 ≠ 56) ∧
      (padMessage data).length % 64 = 0 ∧
      ofBytes (digest data) = Fips180.sha256 (ofBytes data)) ∧
    ∃ text, hex (digest data) = some text ∧ text.toList.length = 64 ∧
      ∀ c ∈ text.toList, c ∈ lowerHex := by
  refine ⟨fun short => ⟨⟨zerosAfter data.length, ?_, zerosAfter_least data.length⟩,
    length_padMessage data, ofBytes_digest short⟩, ?_⟩
  · rw [padMessage_eq, toNat_bitLen short]
  · obtain ⟨text, printed, spelled⟩ := hex_eq_some (digest data)
    obtain ⟨length, digits⟩ := flatMap_hexDigits (digest data)
    rw [length_digest] at length
    rw [← spelled] at length digits
    exact ⟨text, printed, length, digits⟩

theorem digest_of_abc_is_sha256 :
    ofBytes (digest [0x61, 0x62, 0x63]) = Fips180.sha256 (ofBytes [0x61, 0x62, 0x63]) :=
  ((digest_is_sha256 [0x61, 0x62, 0x63]).1 (by decide)).2.2

end Fwdelta.Cli.Sha256
