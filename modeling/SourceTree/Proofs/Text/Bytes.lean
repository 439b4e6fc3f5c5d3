import SourceTree.Proofs.Text.Edge

/-!
A text byte by byte. A character of one byte stands in the UTF-8 form wherever its byte does, because
every byte of a wider character has the high bit set. So whoever looks for such characters may go over
the bytes, and may even come to stand inside of a wide character.
-/

namespace SourceTree.Text

/-- The bytes of the UTF-8 form. -/
def bytes (cs : Text) : List UInt8 := cs.flatMap String.utf8EncodeChar

theorem bytes_cons (c : Char) (cs : Text) : bytes (c :: cs) = String.utf8EncodeChar c ++ bytes cs :=
  List.flatMap_cons

theorem bytes_append (a b : Text) : bytes (a ++ b) = bytes a ++ bytes b := List.flatMap_append

/-- The size of a text is the number of its bytes. -/
theorem length_bytes (cs : Text) : (bytes cs).length = size cs := by
  induction cs with
  | nil => rfl
  | cons c cs ih => rw [bytes_cons, List.length_append, ih, String.length_utf8EncodeChar, size_cons]

theorem bytes_spaces (n : Nat) : bytes (List.replicate n ' ') = List.replicate n 32 := by
  induction n with
  | zero => rfl
  | succ n ih =>
    rw [List.replicate_succ, bytes_cons, ih, List.replicate_succ]
    rfl

variable {c d : Char} {cs : Text} {n : Nat}

theorem toNat_toUInt8 (one : c.utf8Size = 1) :
    c.toUInt8.toNat = c.val.toNat ∧ c.val.toNat < 128 := by
  have small := UInt32.le_iff_toNat_le.mp (Char.utf8Size_eq_one_iff.mp one)
  have last : (127 : UInt32).toNat = 127 := rfl
  rw [Char.toUInt8, UInt32.toNat_toUInt8]
  omega

/-- A byte with one of the high bits set is no character by itself. -/
theorem or_ne_toUInt8 (one : c.utf8Size = 1) {mark : UInt8} (high : 128 ≤ mark.toNat) (x : UInt8) :
    x ||| mark ≠ c.toUInt8 := by
  intro same
  have value := congrArg UInt8.toNat same
  have le : mark.toNat ≤ x.toNat ||| mark.toNat := Nat.right_le_or
  have small := toNat_toUInt8 one
  rw [UInt8.toNat_or] at value
  omega

/-- The byte of a character of one byte occurs in no other character. -/
theorem eq_of_mem_utf8EncodeChar (one : c.utf8Size = 1)
    (h : c.toUInt8 ∈ String.utf8EncodeChar d) : d = c := by
  have wide {mark x : UInt8} (high : 128 ≤ mark.toNat) (same : c.toUInt8 = x ||| mark) : d = c :=
    absurd same.symm (or_ne_toUInt8 one high x)
  obtain one' | two | three | four := Char.utf8Size_eq d
  · rw [String.utf8EncodeChar_eq_singleton one', List.mem_singleton] at h
    have value := congrArg UInt8.toNat h
    have here := toNat_toUInt8 one
    have there := toNat_toUInt8 one'
    refine Char.ext (UInt32.toNat_inj.mp ?_)
    rw [Char.toUInt8] at there
    omega
  · rw [String.utf8EncodeChar_eq_cons_cons two] at h
    simp only [List.mem_cons, List.not_mem_nil, or_false] at h
    rcases h with h | h <;> exact wide (by decide) h
  · rw [String.utf8EncodeChar_eq_cons_cons_cons three] at h
    simp only [List.mem_cons, List.not_mem_nil, or_false] at h
    rcases h with h | h | h <;> exact wide (by decide) h
  · rw [String.utf8EncodeChar_eq_cons_cons_cons_cons four] at h
    simp only [List.mem_cons, List.not_mem_nil, or_false] at h
    rcases h with h | h | h | h <;> exact wide (by decide) h

theorem utf8EncodeChar_one (one : c.utf8Size = 1) : String.utf8EncodeChar c = [c.toUInt8] :=
  String.utf8EncodeChar_eq_singleton one

/-- Every byte of a text belongs to a character. -/
theorem exists_char {n : Nat} (lt : n < size cs) :
    ∃ front d back, cs = front ++ d :: back ∧ size front ≤ n ∧ n < size front + d.utf8Size := by
  induction cs generalizing n with
  | nil => exact absurd lt (Nat.not_lt_zero n)
  | cons x cs ih =>
    by_cases here : n < x.utf8Size
    · exact ⟨[], x, cs, rfl, Nat.zero_le n, by simpa using here⟩
    · have further : n - x.utf8Size < size cs := by
        rw [size_cons] at lt
        omega
      obtain ⟨front, d, back, rfl, from_le, lt_to⟩ := ih further
      refine ⟨x :: front, d, back, rfl, ?_, ?_⟩
      · rw [size_cons]
        omega
      · rw [size_cons]
        omega

/-- The bytes of a character stand in the text from where the character starts. -/
theorem getElem?_bytes_append (front back : Text) (d : Char) (from_le : size front ≤ n)
    (lt_to : n < size front + d.utf8Size) :
    (bytes (front ++ d :: back))[n]? = (String.utf8EncodeChar d)[n - size front]? := by
  have inside : n - (bytes front).length < (String.utf8EncodeChar d).length := by
    rw [length_bytes, String.length_utf8EncodeChar]
    omega
  rw [bytes_append, bytes_cons, List.getElem?_append_right (by rwa [length_bytes]),
    List.getElem?_append_left inside, length_bytes]

/-- The byte of a character of one byte stands exactly where the character does. -/
theorem getElem?_bytes (one : c.utf8Size = 1) :
    (bytes cs)[n]? = some c.toUInt8 ↔ at? cs n = some c := by
  constructor
  · intro found
    have lt : n < size cs := by
      rw [← length_bytes]
      exact (List.getElem?_eq_some_iff.mp found).1
    obtain ⟨front, d, back, rfl, from_le, lt_to⟩ := exists_char lt
    rw [getElem?_bytes_append front back d from_le lt_to] at found
    obtain rfl : d = c := eq_of_mem_utf8EncodeChar one (List.mem_of_getElem? found)
    obtain rfl : n = size front := by omega
    rw [at?, drop?_append]
    rfl
  · intro here
    obtain ⟨front, back, rfl, rfl⟩ := at?_eq_some here
    rw [getElem?_bytes_append front back c (Nat.le_refl _) (by omega), utf8EncodeChar_one one,
      Nat.sub_self]
    rfl

/-! ### Where a text begins and ends -/

theorem utf8EncodeChar_ne_nil (c : Char) : String.utf8EncodeChar c ≠ [] := by
  rw [← List.length_pos_iff, String.length_utf8EncodeChar]
  exact c.utf8Size_pos

theorem exists_first (c : Char) (cs : Text) : ∃ b behind, bytes (c :: cs) = b :: behind := by
  obtain ⟨b, inner, whole⟩ := List.exists_cons_of_ne_nil (utf8EncodeChar_ne_nil c)
  exact ⟨b, inner ++ bytes cs, by rw [bytes_cons, whole, List.cons_append]⟩

theorem bytes_cons_one (one : c.utf8Size = 1) (cs : Text) :
    bytes (c :: cs) = c.toUInt8 :: bytes cs := by
  rw [bytes_cons, utf8EncodeChar_one one, List.singleton_append]

/-- A text begins with a character of one byte exactly if its bytes do. -/
theorem head?_bytes (one : d.utf8Size = 1) :
    (bytes cs).head? = some d.toUInt8 ↔ cs.head? = some d := by
  rw [List.head?_eq_getElem?, getElem?_bytes one]
  cases cs <;> rfl

theorem first_eq_iff {b : UInt8} {behind : List UInt8} (one : d.utf8Size = 1)
    (first : bytes (c :: cs) = b :: behind) : b = d.toUInt8 ↔ c = d := by
  simpa [first] using @head?_bytes d (c :: cs) one

theorem isPrefixOf_bytes {w : Text} (ones : ∀ c ∈ w, c.utf8Size = 1) :
    (w.map Char.toUInt8).isPrefixOf (bytes cs) = w.isPrefixOf cs := by
  induction w generalizing cs with
  | nil => simp
  | cons x w ih =>
    have one := ones x List.mem_cons_self
    cases cs with
    | nil => rfl
    | cons c cs =>
      by_cases same : c = x
      · subst same
        have rest := @ih cs fun y hy => ones y (List.mem_cons_of_mem _ hy)
        simp [bytes_cons_one one, rest]
      · obtain ⟨b, behind, first⟩ := exists_first c cs
        have other : x.toUInt8 ≠ b := fun h => same ((first_eq_iff one first).mp h.symm)
        rw [first, List.map_cons, List.isPrefixOf_cons_cons, List.isPrefixOf_cons_cons,
          beq_eq_false_iff_ne.mpr other, beq_eq_false_iff_ne.mpr (Ne.symm same)]
        rfl

/-- A text ends in a character of one byte exactly if its bytes do. -/
theorem getLast?_bytes (one : d.utf8Size = 1) :
    (bytes cs).getLast? = some d.toUInt8 ↔ cs.getLast? = some d := by
  rcases List.eq_nil_or_concat cs with rfl | ⟨init, c, rfl⟩
  · simp [bytes]
  · have single : bytes [c] = String.utf8EncodeChar c := List.append_nil _
    obtain ⟨b, last⟩ := Option.isSome_iff_exists.mp
      (List.getLast?_isSome.mpr (utf8EncodeChar_ne_nil c))
    rw [List.concat_eq_append, bytes_append, single, List.getLast?_append, last,
      List.getLast?_concat, Option.some_or, Option.some.injEq, Option.some.injEq]
    constructor
    · rintro rfl
      exact eq_of_mem_utf8EncodeChar one (List.mem_of_getLast? last)
    · rintro rfl
      rw [utf8EncodeChar_one one] at last
      exact (Option.some.inj last).symm

/-- A character of one byte is found at once in the text and in its bytes. -/
theorem dropWhile_bytes (one : d.utf8Size = 1) :
    (bytes cs).dropWhile (· ≠ d.toUInt8) = bytes (cs.dropWhile (· ≠ d)) := by
  induction cs with
  | nil => rfl
  | cons c cs ih =>
    by_cases same : c = d
    · subst same
      simp [bytes_cons_one one]
    · have other : ∀ b ∈ String.utf8EncodeChar c, decide (b ≠ d.toUInt8) = true := by
        intro b mem
        rw [decide_eq_true_iff]
        rintro rfl
        exact same (eq_of_mem_utf8EncodeChar one mem)
      rw [bytes_cons, List.dropWhile_append_of_pos other, ih, List.dropWhile_cons_of_pos]
      simpa using same

/-- Bytes that are no characters by themselves, as those inside of a wide character. -/
def Inner (w : List UInt8) : Prop := ∀ b ∈ w, ∀ d : Char, d.utf8Size = 1 → b ≠ d.toUInt8

theorem inner_nil : Inner [] := fun _ mem => absurd mem List.not_mem_nil

theorem inner_tail (c : Char) : Inner (String.utf8EncodeChar c).tail := by
  rintro b mem d one rfl
  obtain rfl := eq_of_mem_utf8EncodeChar one (List.mem_of_mem_tail mem)
  simp [utf8EncodeChar_one one] at mem

/-- Behind the first byte of a text stands the rest of its first character. -/
theorem drop_one_bytes (c : Char) (cs : Text) :
    (bytes (c :: cs)).drop 1 = (String.utf8EncodeChar c).tail ++ bytes cs := by
  rw [bytes_cons, List.drop_one, List.tail_append_of_ne_nil (utf8EncodeChar_ne_nil c)]

end SourceTree.Text
