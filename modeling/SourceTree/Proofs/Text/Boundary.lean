import SourceTree.Text.Basic

/-!
Byte offsets between characters. A text can be cut at an offset exactly if it splits there into two
texts, and the cuts of one text are ordered as their offsets are.
-/

namespace SourceTree.Text

/-- The offset lies between two characters of the text or at one of its ends. -/
def Boundary (cs : Text) (n : Nat) : Prop := ∃ front back, cs = front ++ back ∧ size front = n

@[simp] theorem size_nil : size [] = 0 := rfl

@[simp] theorem size_cons (c : Char) (cs : Text) : size (c :: cs) = c.utf8Size + size cs := rfl

theorem size_concat (cs : Text) (c : Char) : size (cs ++ [c]) = size cs + c.utf8Size := by
  rw [size_append, size_cons, size_nil, Nat.add_zero]

theorem size_eq_zero {cs : Text} (h : size cs = 0) : cs = [] := by
  cases cs with
  | nil => rfl
  | cons c cs =>
    have pos := c.utf8Size_pos
    simp only [size_cons] at h
    omega

/-- Of two cuts of one text the one at the smaller offset is a cut of the other's front. -/
theorem exists_between {a b c d : Text} (h : a ++ b = c ++ d) (le : size a ≤ size c) :
    ∃ m, c = a ++ m ∧ b = m ++ d := by
  induction a generalizing c with
  | nil => exact ⟨c, rfl, h⟩
  | cons x a ih =>
    cases c with
    | nil =>
      have pos := x.utf8Size_pos
      simp only [size_cons, size_nil] at le
      omega
    | cons y c =>
      simp only [List.cons_append, List.cons.injEq] at h
      obtain ⟨rfl, h⟩ := h
      have le' : size a ≤ size c := by simpa using le
      obtain ⟨m, hm, hb⟩ := ih h le'
      exact ⟨m, by rw [hm, List.cons_append], hb⟩

theorem cut_unique {a b c d : Text} (h : a ++ b = c ++ d) (eq : size a = size c) :
    a = c ∧ b = d := by
  obtain ⟨m, hm, hb⟩ := exists_between h (Nat.le_of_eq eq)
  have zero : size m = 0 := by
    rw [hm, size_append] at eq
    omega
  have nil := size_eq_zero zero
  subst nil
  exact ⟨by simpa using hm.symm, by simpa using hb⟩

theorem drop?_append (front back : Text) : drop? (front ++ back) (size front) = some back := by
  induction front with
  | nil => cases back <;> rfl
  | cons c front ih =>
    obtain ⟨k, hk⟩ : ∃ k, size (c :: front) = k + 1 := by
      have pos := c.utf8Size_pos
      exact ⟨size (c :: front) - 1, by simp only [size_cons]; omega⟩
    have fits : c.utf8Size ≤ k + 1 := by rw [← hk, size_cons]; omega
    have rest : k + 1 - c.utf8Size = size front := by rw [← hk, size_cons]; omega
    rw [hk, List.cons_append, drop?, if_pos fits, rest, ih]

theorem take?_append (front back : Text) : take? (front ++ back) (size front) = some front := by
  induction front with
  | nil => cases back <;> rfl
  | cons c front ih =>
    obtain ⟨k, hk⟩ : ∃ k, size (c :: front) = k + 1 := by
      have pos := c.utf8Size_pos
      exact ⟨size (c :: front) - 1, by simp only [size_cons]; omega⟩
    have fits : c.utf8Size ≤ k + 1 := by rw [← hk, size_cons]; omega
    have rest : k + 1 - c.utf8Size = size front := by rw [← hk, size_cons]; omega
    rw [hk, List.cons_append, take?, if_pos fits, rest, ih]
    rfl

theorem split_of_drop? {cs back : Text} {n : Nat} (h : drop? cs n = some back) :
    ∃ front, cs = front ++ back ∧ size front = n := by
  fun_induction drop? cs n with
  | case1 cs =>
    obtain rfl : cs = back := by simpa using h
    exact ⟨[], rfl, rfl⟩
  | case2 => simp at h
  | case3 c cs n fits ih =>
    obtain ⟨front, rfl, hs⟩ := ih h
    exact ⟨c :: front, rfl, by simp only [size_cons]; omega⟩
  | case4 => simp at h

theorem split_of_take? {cs front : Text} {n : Nat} (h : take? cs n = some front) :
    ∃ back, cs = front ++ back ∧ size front = n := by
  fun_induction take? cs n generalizing front with
  | case1 cs =>
    obtain rfl : [] = front := by simpa using h
    exact ⟨cs, rfl, rfl⟩
  | case2 => simp at h
  | case3 c cs n fits ih =>
    obtain ⟨front', hf, rfl⟩ := Option.map_eq_some_iff.mp h
    obtain ⟨back, rfl, hs⟩ := ih hf
    exact ⟨back, rfl, by simp only [size_cons]; omega⟩
  | case4 => simp at h

theorem drop?_eq_some_iff {cs back : Text} {n : Nat} :
    drop? cs n = some back ↔ ∃ front, cs = front ++ back ∧ size front = n := by
  constructor
  · exact split_of_drop?
  · rintro ⟨front, rfl, rfl⟩
    exact drop?_append front back

theorem slice?_eq_some_iff {cs mid : Text} {start stop : Nat} :
    slice? cs start stop = some mid ↔
      ∃ front back, cs = front ++ mid ++ back ∧ size front = start ∧
        start + size mid = stop := by
  unfold slice?
  constructor
  · intro h
    split at h
    next le =>
      obtain ⟨rest, hd, ht⟩ := Option.bind_eq_some_iff.mp h
      obtain ⟨front, rfl, hf⟩ := split_of_drop? hd
      obtain ⟨back, rfl, hm⟩ := split_of_take? ht
      exact ⟨front, back, by simp, hf, by omega⟩
    next => simp at h
  · rintro ⟨front, back, rfl, rfl, rfl⟩
    rw [if_pos (by omega), List.append_assoc, drop?_append, Option.bind_some]
    have n : size front + size mid - size front = size mid := by omega
    rw [n, take?_append]

theorem slice?_slice? {cs mid inner : Text} {start stop i j : Nat}
    (h : slice? cs start stop = some mid) (k : slice? mid i j = some inner) :
    slice? cs (start + i) (start + j) = some inner := by
  obtain ⟨front, back, rfl, rfl, -⟩ := slice?_eq_some_iff.mp h
  obtain ⟨front', back', rfl, rfl, rfl⟩ := slice?_eq_some_iff.mp k
  refine slice?_eq_some_iff.mpr ⟨front ++ front', back' ++ back, by simp, ?_, ?_⟩
  · rw [size_append]
  · omega

/-- A piece divides into what lies before and what lies behind a place in it. -/
theorem slice?_split {cs whole last : Text} {start mid stop : Nat} (le : start ≤ mid)
    (h : slice? cs start stop = some whole) (k : slice? cs mid stop = some last) :
    ∃ first, slice? cs start mid = some first ∧ whole = first ++ last := by
  obtain ⟨front, back, hc, rfl, hw⟩ := slice?_eq_some_iff.mp h
  obtain ⟨front', back', hc', rfl, hl⟩ := slice?_eq_some_iff.mp k
  have same : front ++ (whole ++ back) = front' ++ (last ++ back') := by
    rw [← List.append_assoc, ← hc, hc', List.append_assoc]
  obtain ⟨first, rfl, rest⟩ := exists_between same le
  rw [size_append] at hl
  have size : size whole = size (first ++ last) := by
    rw [size_append]
    omega
  rw [← List.append_assoc] at rest
  obtain ⟨rfl, -⟩ := cut_unique rest size
  refine ⟨first, slice?_eq_some_iff.mpr ⟨front, last ++ back, ?_, rfl, ?_⟩, rfl⟩
  · rw [hc]
    simp
  · rw [size_append]

theorem boundary_zero (cs : Text) : Boundary cs 0 := ⟨[], cs, rfl, rfl⟩

theorem boundary_size (cs : Text) : Boundary cs (size cs) := ⟨cs, [], by simp, rfl⟩

theorem boundary_append (front back : Text) : Boundary (front ++ back) (size front) :=
  ⟨front, back, rfl, rfl⟩

theorem boundary_behind (front : Text) (x : Char) (back : Text) :
    Boundary (front ++ x :: back) (size front + x.utf8Size) := by
  refine ⟨front ++ [x], back, by simp, ?_⟩
  rw [size_append, size_cons, size_nil, Nat.add_zero]

theorem Boundary.le_size {cs : Text} {n : Nat} (h : Boundary cs n) : n ≤ size cs := by
  obtain ⟨front, back, rfl, rfl⟩ := h
  rw [size_append]
  omega

theorem drop?_isSome_iff {cs : Text} {n : Nat} : (drop? cs n).isSome ↔ Boundary cs n := by
  rw [Option.isSome_iff_exists]
  constructor
  · rintro ⟨back, h⟩
    obtain ⟨front, hc, hs⟩ := split_of_drop? h
    exact ⟨front, back, hc, hs⟩
  · rintro ⟨front, back, hc, hs⟩
    exact ⟨back, drop?_eq_some_iff.mpr ⟨front, hc, hs⟩⟩

/-- Two ordered cuts divide a text in three. -/
theorem Boundary.split {cs : Text} {start stop : Nat} (h : Boundary cs start)
    (k : Boundary cs stop) (le : start ≤ stop) :
    ∃ front mid back, cs = front ++ mid ++ back ∧ size front = start ∧
      start + size mid = stop := by
  obtain ⟨front, rest, rfl, rfl⟩ := h
  obtain ⟨longer, back, hc, rfl⟩ := k
  obtain ⟨mid, rfl, rfl⟩ := exists_between hc le
  exact ⟨front, mid, back, by simp, rfl, by rw [size_append]⟩

theorem exists_slice?_iff {cs : Text} {start stop : Nat} :
    (∃ mid, slice? cs start stop = some mid) ↔
      start ≤ stop ∧ Boundary cs start ∧ Boundary cs stop := by
  constructor
  · rintro ⟨mid, h⟩
    obtain ⟨front, back, rfl, rfl, rfl⟩ := slice?_eq_some_iff.mp h
    refine ⟨by omega, ?_, ?_⟩
    · rw [List.append_assoc]
      exact boundary_append front (mid ++ back)
    · rw [← size_append]
      exact boundary_append (front ++ mid) back
  · rintro ⟨le, h, k⟩
    obtain ⟨front, mid, back, hc, hf, hm⟩ := h.split k le
    exact ⟨mid, slice?_eq_some_iff.mpr ⟨front, back, hc, hf, hm⟩⟩

/-- A cut of the whole text that lies in a piece is a cut of the piece. -/
theorem Boundary.of_slice {cs mid : Text} {start stop i : Nat}
    (h : slice? cs start stop = some mid) (k : Boundary cs (start + i)) (le : i ≤ size mid) :
    Boundary mid i := by
  obtain ⟨front, back, rfl, rfl, -⟩ := slice?_eq_some_iff.mp h
  obtain ⟨a, b, hc, ha⟩ := k
  rw [List.append_assoc] at hc
  obtain ⟨m, rfl, hm⟩ := exists_between hc (by omega)
  rw [size_append] at ha
  obtain ⟨m', hmid, -⟩ := exists_between hm.symm (by omega)
  exact ⟨m, m', hmid, by omega⟩

/-- No cut goes through the last character. -/
theorem Boundary.snoc {init : Text} {c : Char} {n : Nat} (h : Boundary (init ++ [c]) n) :
    n ≤ size init ∨ n = size init + c.utf8Size := by
  obtain ⟨front, back, hc, rfl⟩ := h
  by_cases le : size front ≤ size init
  · exact .inl le
  · obtain ⟨mid, rfl, hm⟩ := exists_between hc (by omega)
    cases mid with
    | nil => simp at le
    | cons x mid =>
      obtain ⟨rfl, rfl, -⟩ : c = x ∧ mid = [] ∧ back = [] := by simpa using hm
      exact .inr (by simp [size_append])

end SourceTree.Text
