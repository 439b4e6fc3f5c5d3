import SourceTree.Proofs.Text.Boundary
import SourceTree.Text.Blank
import SourceTree.Text.Word

/-!
Where a text is solid: which of its offsets touch a character that is no space. What is found by
its characters, and what is left of a text when the blanks around it are trimmed off, begins and
ends at such offsets.
-/

namespace SourceTree.Text

/-- The text begins with a character of the class. -/
def Opens (P : Char → Prop) (w : Text) : Prop := ∃ c r, w = c :: r ∧ P c

/-- The text ends with a character of the class. -/
def Closes (P : Char → Prop) (w : Text) : Prop := ∃ r c, w = r ++ [c] ∧ P c

/-- The offset lies at one side of a character that is no space. -/
def Edge (m : Text) (n : Nat) : Prop :=
  ∃ front x back, m = front ++ x :: back ∧ x ≠ ' ' ∧
    (n = size front ∨ n = size front + x.utf8Size)

section

variable {P Q : Char → Prop} {w front back : Text}

theorem Opens.mono (h : Opens P w) (hPQ : ∀ c, P c → Q c) : Opens Q w := by
  obtain ⟨c, r, rfl, hc⟩ := h
  exact ⟨c, r, rfl, hPQ c hc⟩

theorem Closes.mono (h : Closes P w) (hPQ : ∀ c, P c → Q c) : Closes Q w := by
  obtain ⟨r, c, rfl, hc⟩ := h
  exact ⟨r, c, rfl, hPQ c hc⟩

theorem Opens.append (h : Opens P w) (back : Text) : Opens P (w ++ back) := by
  obtain ⟨c, r, rfl, hc⟩ := h
  exact ⟨c, r ++ back, rfl, hc⟩

theorem Closes.append (h : Closes P w) (front : Text) : Closes P (front ++ w) := by
  obtain ⟨r, c, rfl, hc⟩ := h
  exact ⟨front ++ r, c, by simp, hc⟩

theorem Opens.edge (h : Opens (· ≠ ' ') w) : Edge (front ++ w) (size front) := by
  obtain ⟨c, r, rfl, hc⟩ := h
  exact ⟨front, c, r, rfl, hc, .inl rfl⟩

theorem Closes.edge (h : Closes (· ≠ ' ') w) : Edge (w ++ back) (size w) := by
  obtain ⟨r, c, rfl, hc⟩ := h
  refine ⟨r, c, back, by simp, hc, .inr ?_⟩
  rw [size_append, size_cons, size_nil, Nat.add_zero]

end

theorem Edge.boundary {m : Text} {n : Nat} (h : Edge m n) : Boundary m n := by
  obtain ⟨front, x, back, rfl, -, rfl | rfl⟩ := h
  · exact boundary_append front (x :: back)
  · exact boundary_behind front x back

theorem find?_eq_some {p : Char → Bool} {cs : Text} {n : Nat} (h : find? p cs = some n) :
    ∃ front x back, cs = front ++ x :: back ∧ size front = n ∧ p x = true ∧
      ∀ y ∈ front, p y = false := by
  induction cs generalizing n with
  | nil => simp [find?] at h
  | cons c cs ih =>
    rw [find?] at h
    split at h
    next hc =>
      obtain rfl : 0 = n := by simpa using h
      exact ⟨[], c, cs, rfl, rfl, hc, by simp⟩
    next hc =>
      obtain ⟨k, hk, rfl⟩ := Option.map_eq_some_iff.mp h
      obtain ⟨front, x, back, rfl, rfl, hx, hf⟩ := ih hk
      exact ⟨c :: front, x, back, rfl, rfl, hx, by simpa [hc] using hf⟩

theorem at?_eq_some {cs : Text} {n : Nat} {c : Char} (h : at? cs n = some c) :
    ∃ front back, cs = front ++ c :: back ∧ size front = n := by
  obtain ⟨rest, hd, hr⟩ := Option.bind_eq_some_iff.mp h
  obtain ⟨front, rfl, hs⟩ := split_of_drop? hd
  obtain ⟨back, rfl⟩ := List.head?_eq_some_iff.mp hr
  exact ⟨front, back, rfl, hs⟩

theorem after?_eq_some {cs word rest : Text} (h : after? cs word = some rest) :
    cs = word ++ rest := by
  fun_induction after? cs word with
  | case1 cs => simpa using h
  | case2 c cs word ih => simp [ih h]
  | case3 => simp at h
  | case4 => simp at h

theorem after?_append (word rest : Text) : after? (word ++ rest) word = some rest := by
  induction word with
  | nil => cases rest <;> rfl
  | cons c word ih => simp [after?, ih]

theorem ne_space_of_not_blank {c : Char} (h : isBlank c = false) : c ≠ ' ' := by
  rintro rfl
  simp [isBlank] at h

theorem trimStart_split (cs : Text) : ∃ lead, cs = lead ++ trimStart cs ∧
    size lead = blankSize cs ∧ (∀ c ∈ lead, isBlank c = true) ∧
    (trimStart cs = [] ∨ Opens (fun c => isBlank c = false) (trimStart cs)) := by
  refine ⟨cs.takeWhile isBlank, List.takeWhile_append_dropWhile.symm, rfl,
    List.all_eq_true.mp List.all_takeWhile, ?_⟩
  unfold trimStart
  cases hd : cs.dropWhile isBlank with
  | nil => exact .inl rfl
  | cons c r =>
    have hc := List.head_dropWhile_not isBlank (l := cs) (by simp [hd])
    simp only [hd, List.head_cons] at hc
    exact .inr ⟨c, r, rfl, hc⟩

theorem boundary_blankSize (front rest : Text) :
    Boundary (front ++ rest) (size front + blankSize rest) := by
  obtain ⟨lead, hl, hs, -⟩ := trimStart_split rest
  refine ⟨front ++ lead, trimStart rest, ?_, by rw [size_append, hs]⟩
  rw [List.append_assoc, ← hl]

theorem trimEnd_split (cs : Text) : ∃ tail, cs = trimEnd cs ++ tail ∧
    (∀ c ∈ tail, isBlank c = true) ∧
    (trimEnd cs = [] ∨ Closes (fun c => isBlank c = false) (trimEnd cs)) := by
  obtain ⟨lead, hl, -, hb, ho⟩ := trimStart_split cs.reverse
  have flip : trimEnd cs = (trimStart cs.reverse).reverse := rfl
  rw [flip]
  refine ⟨lead.reverse, ?_, by simpa using hb, ?_⟩
  · rw [← List.reverse_append, ← hl, List.reverse_reverse]
  · rcases ho with ho | ⟨c, r, ho, hc⟩
    · exact .inl (by rw [ho, List.reverse_nil])
    · exact .inr ⟨r.reverse, c, by rw [ho, List.reverse_cons], hc⟩

theorem trimStart_of_opens {cs : Text} (h : Opens (fun c => isBlank c = false) cs) :
    trimStart cs = cs := by
  obtain ⟨c, r, rfl, hc⟩ := h
  rw [trimStart, List.dropWhile_cons_of_neg (by simp [hc])]

/-- Trimming leaves all from a character that is no blank at the front up to the last such
character. -/
theorem exists_trim {front back : Text} {c : Char}
    (opens : Opens (fun c => isBlank c = false) (front ++ c :: back)) (hc : isBlank c = false) :
    ∃ back', back' <+: back ∧ trim (front ++ c :: back) = front ++ c :: back' := by
  rw [trim, trimStart_of_opens opens]
  obtain ⟨tail, split, blank, -⟩ := trimEnd_split (front ++ c :: back)
  have kept : c ∉ tail := fun mem => by simp [blank c mem] at hc
  rcases List.append_eq_append_iff.mp split with ⟨more, hf, hm⟩ | ⟨more, -, hm⟩
  · cases more with
    | nil =>
      rw [List.nil_append] at hm
      exact absurd (hm ▸ List.mem_cons_self) kept
    | cons x more =>
      obtain ⟨rfl, rfl⟩ := List.cons.inj hm
      exact ⟨more, List.prefix_append _ _, hf⟩
  · have mem : c ∈ tail := by simp [hm]
    exact absurd mem kept

theorem trim_of_solid {cs : Text} (opens : Opens (fun c => isBlank c = false) cs)
    (closes : Closes (fun c => isBlank c = false) cs) : trim cs = cs := by
  obtain ⟨r, c, rfl, hc⟩ := closes
  obtain ⟨back, empty, same⟩ := exists_trim opens hc
  rw [same, List.prefix_nil.mp empty]

/-- Trimming takes blanks off both ends, and what it leaves, if anything, begins and ends with no
blank. -/
theorem trim_parts (cs : Text) : ∃ lead tail, cs = lead ++ trim cs ++ tail ∧
    size lead = blankSize cs ∧ (∀ c ∈ lead, isBlank c = true) ∧ (∀ c ∈ tail, isBlank c = true) ∧
    (trim cs = [] ∨
      Opens (fun c => isBlank c = false) (trim cs) ∧ Closes (fun c => isBlank c = false) (trim cs)) := by
  obtain ⟨lead, hl, hs, hb, ho⟩ := trimStart_split cs
  obtain ⟨tail, ht, hb', hc⟩ := trimEnd_split (trimStart cs)
  refine ⟨lead, tail, ?_, hs, hb, hb', ?_⟩
  · rw [trim, List.append_assoc, ← ht, ← hl]
  · rcases hc with hc | hc
    · exact .inl hc
    · refine .inr ⟨?_, hc⟩
      have full : trimStart cs ≠ [] := by
        intro h
        obtain ⟨r, c, he, -⟩ := hc
        simp [h, trimEnd, dropEndWhile] at he
      obtain ⟨c, r, hcr, hcb⟩ := ho.resolve_left full
      obtain ⟨r', c', he, -⟩ := hc
      rw [trim]
      cases htr : trimEnd (trimStart cs) with
      | nil => simp [htr] at he
      | cons x y =>
        rw [htr, hcr] at ht
        obtain ⟨rfl, -⟩ : c = x ∧ r = y ++ tail := by simpa using ht
        exact ⟨c, y, rfl, hcb⟩

theorem trim_split (cs : Text) : ∃ lead tail, cs = lead ++ trim cs ++ tail ∧
    size lead = blankSize cs ∧
    (trim cs = [] ∨ Opens (· ≠ ' ') (trim cs) ∧ Closes (· ≠ ' ') (trim cs)) := by
  obtain ⟨lead, tail, split, size, -, -, solid⟩ := trim_parts cs
  refine ⟨lead, tail, split, size, solid.imp_right fun solid => ⟨?_, ?_⟩⟩
  · exact solid.1.mono fun _ => ne_space_of_not_blank
  · exact solid.2.mono fun _ => ne_space_of_not_blank

/-- The blanks beyond ASCII. -/
def wideBlanks : List Nat :=
  [0x85, 0xA0, 0x1680, 0x2000, 0x2001, 0x2002, 0x2003, 0x2004, 0x2005, 0x2006, 0x2007, 0x2008,
    0x2009, 0x200A, 0x2028, 0x2029, 0x202F, 0x205F, 0x3000]

theorem wideBlanks_outside_wordRanges :
    (wordRanges.toList.all fun r => wideBlanks.all fun n => n < r.1 || r.2 < n) = true := by
  decide +kernel

theorem not_inRanges_of_mem_wideBlanks {n : Nat} (h : n ∈ wideBlanks) :
    inRanges wordRanges n = false := by
  rw [inRanges, ← Array.any_toList, List.any_eq_false]
  intro r hr
  have outside := List.all_eq_true.mp (List.all_eq_true.mp wideBlanks_outside_wordRanges r hr) n h
  simp only [Bool.or_eq_true, decide_eq_true_eq] at outside
  simp only [Bool.and_eq_true, decide_eq_true_eq]
  omega

/-- The letters of ASCII, by their codes. -/
theorem isAlpha_iff {c : Char} : c.isAlpha = true ↔
    65 ≤ c.toNat ∧ c.toNat ≤ 90 ∨ 97 ≤ c.toNat ∧ c.toNat ≤ 122 := by
  have upper : c.isUpper = true ↔ 65 ≤ c.toNat ∧ c.toNat ≤ 90 := decide_eq_true_iff
  have lower : c.isLower = true ↔ 97 ≤ c.toNat ∧ c.toNat ≤ 122 :=
    (Bool.and_eq_true_iff ..).trans (and_congr decide_eq_true_iff decide_eq_true_iff)
  exact (Bool.or_eq_true_iff ..).trans (or_congr upper lower)

/-- No blank stands inside a word. -/
theorem not_isWord_of_isBlank {c : Char} (h : isBlank c = true) : isWord c = false := by
  simp only [isBlank, Bool.or_eq_true, Bool.and_eq_true, beq_iff_eq, decide_eq_true_eq] at h
  unfold isWord
  split
  next small =>
    have ascii : c.toNat = 0x20 ∨ 0x09 ≤ c.toNat ∧ c.toNat ≤ 0x0D := by omega
    have bar : c ≠ '_' := by
      rintro rfl
      revert ascii
      decide
    have val : c.val.toNat = c.toNat := rfl
    have digit : '0'.val.toNat = 48 := rfl
    rw [Bool.eq_false_iff]
    intro word
    simp only [isAsciiWord, Char.isAlphanum, isAlpha_iff, Char.isDigit, UInt32.le_iff_toNat_le,
      ge_iff_le, beq_iff_eq, Bool.or_eq_true, Bool.and_eq_true, decide_eq_true_eq] at word
    have word := word.resolve_right bar
    omega
  next =>
    have wide : c.toNat ∈ wideBlanks := by
      simp only [wideBlanks, List.mem_cons, List.not_mem_nil]
      omega
    exact not_inRanges_of_mem_wideBlanks wide

theorem isWord_of_isNameStart {c : Char} (h : isNameStart c = true) : isWord c = true := by
  simp only [isNameStart, beq_iff_eq, Bool.or_eq_true] at h
  rcases h with h | rfl
  · have code := isAlpha_iff.mp h
    have small : c.toNat < 128 := by omega
    rw [isWord, if_pos small]
    simp only [isAsciiWord, Char.isAlphanum, Bool.or_eq_true]
    exact .inl (.inl h)
  · decide

/-- What comes before a character that it does not hold ends there at the latest. -/
theorem prefix_of_not_mem {u v a b : Text} {x : Char} (h : u ++ v = a ++ x :: b) (hx : x ∉ u) :
    u <+: a := by
  rcases List.append_eq_append_iff.mp h with ⟨more, ha, -⟩ | ⟨more, hu, hm⟩
  · exact ⟨more, ha.symm⟩
  · cases more with
    | nil =>
      rw [List.append_nil] at hu
      exact hu ▸ List.prefix_refl _
    | cons y more =>
      obtain ⟨rfl, -⟩ := List.cons.inj hm
      exact absurd (by simp [hu]) hx

/-- A text has only one cut between characters of a class and a character outside of it. -/
theorem span_unique {p : Char → Bool} {a b a' b' : Text} (h : a ++ b = a' ++ b')
    (ha : ∀ x ∈ a, p x = true) (ha' : ∀ x ∈ a', p x = true)
    (hb : Opens (fun c => p c = false) b) (hb' : Opens (fun c => p c = false) b') :
    a = a' ∧ b = b' := by
  induction a generalizing a' with
  | nil =>
    cases a' with
    | nil => exact ⟨rfl, h⟩
    | cons x a' =>
      obtain ⟨c, r, rfl, hc⟩ := hb
      obtain ⟨rfl, -⟩ : c = x ∧ _ := by simpa using h
      simp [ha' c (by simp)] at hc
  | cons x a ih =>
    cases a' with
    | nil =>
      obtain ⟨c, r, rfl, hc⟩ := hb'
      obtain ⟨rfl, -⟩ : x = c ∧ _ := by simpa using h
      simp [ha x (by simp)] at hc
    | cons y a' =>
      obtain ⟨rfl, h'⟩ : x = y ∧ a ++ b = a' ++ b' := by simpa using h
      obtain ⟨rfl, rfl⟩ := ih h' (fun z hz => ha z (by simp [hz])) fun z hz => ha' z (by simp [hz])
      exact ⟨rfl, rfl⟩

end SourceTree.Text
