import Fwdelta.Text
import Fwdelta.Utf8
import Mathlib.Data.List.DropRight
import Mathlib.Data.List.Induction

/-
Lines of a text and of its bytes.

A character stands on the line that the newlines before it count, and that line is
what lies between the newlines on both sides.  The same newlines bound it among
the bytes.
-/

/-! ### The end of a list -/

namespace List

theorem rtakeWhile_append_of_pos {α : Type*} {p : α → Bool} {front back : List α}
    (all : ∀ x ∈ back, p x = true) :
    (front ++ back).rtakeWhile p = front.rtakeWhile p ++ back := by
  have reversed : ∀ x ∈ back.reverse, p x = true := by simpa using all
  rw [rtakeWhile, reverse_append, takeWhile_append_of_pos reversed, reverse_append,
    reverse_reverse, rtakeWhile]

theorem rtakeWhile_append_cons_of_neg {α : Type*} {p : α → Bool} {x : α}
    (stops : ¬ p x = true) (front back : List α) :
    (front ++ x :: back).rtakeWhile p = back.rtakeWhile p := by
  induction back using List.reverseRecOn with
  | nil => exact rtakeWhile_concat_neg p front x stops
  | append_singleton back y ih =>
      rw [← cons_append, ← append_assoc, rtakeWhile_concat, rtakeWhile_concat, ih]

end List

/-! ### Lines of characters -/

namespace Text

theorem trimChars_concat_white {c : Char} (white : isWhitespace c = true) (chars : List Char) :
    trimChars (chars ++ [c]) = trimChars chars := by
  unfold trimChars
  rw [List.dropWhile_append]
  split
  · next empty =>
      rw [List.isEmpty_iff] at empty
      rw [empty, List.dropWhile_cons_of_pos white, List.dropWhile_nil]
  · rw [List.reverse_append, List.reverse_singleton, List.singleton_append,
      List.dropWhile_cons_of_pos white]

def otherThanNewline (c : Char) : Bool := c != '\n'

theorem linesFrom_newline (acc rest : List Char) :
    linesFrom acc ('\n' :: rest) =
      (match acc with
        | [] => []
        | first :: line => if first == '\r' then line.reverse else acc.reverse) ::
        linesFrom [] rest := rfl

theorem linesFrom_other {c : Char} (other : c ≠ '\n') (acc rest : List Char) :
    linesFrom acc (c :: rest) = linesFrom (c :: acc) rest :=
  if_neg (by simpa using other)

/-- The line that is being read goes on up to the next newline. -/
theorem linesFrom_head {acc : List Char} (begun : acc ≠ []) (back : List Char) :
    ∃ line, (linesFrom acc back)[0]? = some line ∧
      trimChars line = trimChars (acc.reverse ++ back.takeWhile otherThanNewline) := by
  induction back generalizing acc with
  | nil =>
      refine ⟨acc.reverse, ?_, by simp⟩
      rw [linesFrom, if_neg (by simpa using begun)]
      rfl
  | cons c rest ih =>
      by_cases newline : c = '\n'
      · subst newline
        have stops : ¬ otherThanNewline '\n' = true := by decide
        rw [linesFrom_newline, List.takeWhile_cons_of_neg stops, List.append_nil]
        refine ⟨_, rfl, ?_⟩
        cases acc with
        | nil => contradiction
        | cons first line =>
            dsimp only
            split
            · next carriage =>
                have white : isWhitespace first = true := by
                  rw [eq_of_beq carriage]
                  decide
                rw [List.reverse_cons, trimChars_concat_white white]
            · rfl
      · have goes : otherThanNewline c = true := by simpa [otherThanNewline] using newline
        obtain ⟨line, found, same⟩ := ih (List.cons_ne_nil c acc)
        rw [linesFrom_other newline, List.takeWhile_cons_of_pos goes]
        refine ⟨line, found, ?_⟩
        rw [same, List.reverse_cons, List.append_assoc]
        rfl

/-- A character that is not a newline stands on the line that is counted by the
newlines before it. -/
theorem linesFrom_around {c : Char} (other : c ≠ '\n') (acc front back : List Char)
    (unbroken : ∀ d ∈ acc, otherThanNewline d = true) :
    ∃ line, (linesFrom acc (front ++ c :: back))[front.count '\n']? = some line ∧
      trimChars line = trimChars ((acc.reverse ++ front).rtakeWhile otherThanNewline ++
        (c :: back).takeWhile otherThanNewline) := by
  have goes : otherThanNewline c = true := by simpa [otherThanNewline] using other
  induction front generalizing acc with
  | nil =>
      obtain ⟨line, found, same⟩ := linesFrom_head (List.cons_ne_nil c acc) back
      refine ⟨line, ?_, ?_⟩
      · rw [List.nil_append, linesFrom_other other]
        exact found
      · have all : ∀ d ∈ acc.reverse, otherThanNewline d = true := by simpa using unbroken
        rw [same, List.append_nil, List.rtakeWhile_eq_self_iff.mpr all, List.reverse_cons,
          List.append_assoc, List.takeWhile_cons_of_pos goes]
        rfl
  | cons d rest ih =>
      rw [List.cons_append]
      by_cases newline : d = '\n'
      · subst newline
        obtain ⟨line, found, same⟩ := ih [] (by simp)
        have stops : ¬ otherThanNewline '\n' = true := by decide
        rw [linesFrom_newline, List.count_cons_self, List.getElem?_cons_succ]
        refine ⟨line, found, ?_⟩
        rw [same, List.rtakeWhile_append_cons_of_neg stops]
        rfl
      · have onLine : otherThanNewline d = true := by simpa [otherThanNewline] using newline
        obtain ⟨line, found, same⟩ := ih (d :: acc) (by simpa [onLine] using unbroken)
        rw [linesFrom_other newline, List.count_cons_of_ne newline]
        refine ⟨line, found, ?_⟩
        rw [same, List.reverse_cons, List.append_assoc]
        rfl

/-- The line with a character on it, without white space at its ends. -/
theorem trim_lines_around {c : Char} (other : c ≠ '\n') {text : String} {front back : List Char}
    (split : text.toList = front ++ c :: back) :
    trim ((lines text)[front.count '\n']?.getD "") =
      trim (String.ofList (front.rtakeWhile otherThanNewline ++
        (c :: back).takeWhile otherThanNewline)) := by
  obtain ⟨line, found, same⟩ := linesFrom_around other [] front back (by simp)
  unfold lines
  rw [split, List.getElem?_map, found, Option.map_some, Option.getD_some, trim, trim,
    String.toList_ofList, String.toList_ofList, same]
  rfl

end Text

/-! ### Lines of bytes -/

namespace Utf8

theorem other_of_mem_encodeChar {n : Nat} (low : n < 128) {c : Char} (other : c ≠ Char.ofNat n) :
    ∀ b ∈ String.utf8EncodeChar c, (b != UInt8.ofNat n) = true := by
  intro b member
  rw [bne_iff_ne]
  rintro rfl
  have counted := count_encodeChar low c
  rw [List.count_eq_zero_of_not_mem (a := Char.ofNat n) (by simpa using Ne.symm other)] at counted
  exact absurd member (List.count_eq_zero.mp counted)

/-- A 7-bit value among the bytes of a text is a character of it. -/
theorem encode_eq_append_cons {cs : List Char} {before after : List UInt8} {b : UInt8}
    (low : b.toNat < 128) (split : encode cs = before ++ b :: after) :
    ∃ front back, cs = front ++ latin1 b :: back ∧ encode front = before ∧
      encode back = after := by
  induction cs generalizing before with
  | nil => simp [encode] at split
  | cons c rest ih =>
      rw [encode_cons] at split
      rcases List.append_eq_append_iff.mp split with ⟨more, here, later⟩ | ⟨more, here, later⟩
      · -- The byte is not among those of the first character.
        obtain ⟨front, back, rfl, encoded, after_⟩ := ih later
        exact ⟨c :: front, back, rfl, by rw [encode_cons, encoded, here], after_⟩
      · cases more with
        | nil =>
            rw [List.append_nil] at here
            have whole : encode rest = [] ++ b :: after := later.symm
            obtain ⟨front, back, rfl, encoded, after_⟩ := ih whole
            exact ⟨c :: front, back, rfl, by rw [encode_cons, encoded, List.append_nil, here],
              after_⟩
        | cons first others =>
            obtain ⟨rfl, rfl⟩ := List.cons.inj later
            have member : b ∈ String.utf8EncodeChar c := by
              rw [here]
              simp
            by_cases small : c.toNat < 128
            · rw [encodeChar_of_lt small] at here
              cases before with
              | nil =>
                  obtain ⟨rfl, rfl⟩ := List.cons.inj here
                  exact ⟨[], rest, by rw [latin1_ofNat small]; rfl, rfl, rfl⟩
              | cons first more => simp at here
            · have := le_of_mem_encodeChar small member
              omega

/-- The bytes of a text up to a 7-bit character. -/
theorem takeWhile_encode {n : Nat} (low : n < 128) (cs : List Char) :
    (encode cs).takeWhile (fun b => b != UInt8.ofNat n) =
      encode (cs.takeWhile (fun c => c != Char.ofNat n)) := by
  induction cs with
  | nil => rfl
  | cons c rest ih =>
      rw [encode_cons]
      by_cases same : c = Char.ofNat n
      · have stops : ¬ (c != Char.ofNat n) = true := by simpa using same
        have code : (Char.ofNat n).toNat = n := toNat_ofNat (by omega)
        rw [List.takeWhile_cons_of_neg (p := fun c => c != Char.ofNat n) stops, same,
          encodeChar_of_lt (by omega), code]
        simp [encode]
      · have goes : (c != Char.ofNat n) = true := by simpa using same
        rw [List.takeWhile_append_of_pos (other_of_mem_encodeChar low same), ih,
          List.takeWhile_cons_of_pos (p := fun c => c != Char.ofNat n) goes, encode_cons]

/-- The bytes of a text after the last place of a 7-bit character. -/
theorem rtakeWhile_encode {n : Nat} (low : n < 128) (cs : List Char) :
    (encode cs).rtakeWhile (fun b => b != UInt8.ofNat n) =
      encode (cs.rtakeWhile (fun c => c != Char.ofNat n)) := by
  induction cs using List.reverseRecOn with
  | nil => rfl
  | append_singleton front c ih =>
      have last : encode [c] = String.utf8EncodeChar c := by simp [encode]
      rw [encode_append, last]
      by_cases same : c = Char.ofNat n
      · have stops : ¬ (c != Char.ofNat n) = true := by simpa using same
        have code : (Char.ofNat n).toNat = n := toNat_ofNat (by omega)
        rw [List.rtakeWhile_concat_neg (fun c => c != Char.ofNat n) _ _ stops, same,
          encodeChar_of_lt (by omega), code]
        exact List.rtakeWhile_concat_neg _ _ _ (by simp)
      · have goes : (c != Char.ofNat n) = true := by simpa using same
        rw [List.rtakeWhile_append_of_pos (other_of_mem_encodeChar low same), ih,
          List.rtakeWhile_concat_pos (fun c => c != Char.ofNat n) _ _ goes, encode_append, last]

end Utf8
