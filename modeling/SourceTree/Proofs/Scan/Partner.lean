import SourceTree.Proofs.Scan.Division
import SourceTree.Proofs.Text.Bytes

/-!
The partner of a bracket. A matcher with a stack knows the partner of every bracket of a balanced text;
a counter that looks at one kind of bracket only finds the same, because its depth is the number of
brackets of that kind on the stack. On any text the counter can be run with unsigned numbers: its
depth never has to go below zero. Main statement: `findMatching?_partner`.
-/

namespace SourceTree.Scan

/-! ### A matcher with a stack -/

/-- The places of all brackets, each with the place of its partner. The stack holds the brackets that
stand open, innermost first: where each opened and the closer that it awaits. Nothing if a bracket is
closed by another than its partner or stays open. -/
def partnersFrom? (kinds : List (Char × Char)) :
    List (Nat × Char) → Nat → Text → Option (List (Nat × Nat))
  | stack, _, [] => if stack.isEmpty then some [] else none
  | stack, offset, c :: cs =>
    match kinds.find? (·.1 == c) with
    | some k => partnersFrom? kinds ((offset, k.2) :: stack) (offset + c.utf8Size) cs
    | none =>
      if kinds.any fun k => k.2 == c then
        match stack with
        | (start, closer) :: rest =>
          if c = closer then
            (partnersFrom? kinds rest (offset + c.utf8Size) cs).map ((start, offset) :: ·)
          else none
        | [] => none
      else partnersFrom? kinds stack (offset + c.utf8Size) cs

/-- The partners of all brackets of a text. -/
def partners? (kinds : List (Char × Char)) (text : Text) : Option (List (Nat × Nat)) :=
  partnersFrom? kinds [] 0 text

variable {kinds : List (Char × Char)} {k : Char × Char} {stack above below : List (Nat × Char)}
  {offset start : Nat} {c : Char} {w front : Text} {pairs : List (Nat × Nat)}

/-- A character opens a bracket, closes the innermost one, or is none. -/
theorem partnersFrom?_cons (h : partnersFrom? kinds stack offset (c :: w) = some pairs) :
    (∃ k ∈ kinds, k.1 = c ∧
      partnersFrom? kinds ((offset, k.2) :: stack) (offset + c.utf8Size) w = some pairs) ∨
    (∃ start rest more, (∀ k ∈ kinds, k.1 ≠ c) ∧ stack = (start, c) :: rest ∧
      pairs = (start, offset) :: more ∧
      partnersFrom? kinds rest (offset + c.utf8Size) w = some more) ∨
    (isPlain kinds c = true ∧ partnersFrom? kinds stack (offset + c.utf8Size) w = some pairs) := by
  rw [partnersFrom?.eq_def] at h
  dsimp only at h
  split at h
  next k found =>
    have same := List.find?_some found
    exact .inl ⟨k, List.mem_of_find?_eq_some found, by simpa using same, h⟩
  next none =>
    have opens : ∀ k ∈ kinds, k.1 ≠ c := by simpa using none
    split at h
    next closes =>
      split at h
      next start closer rest =>
        split at h
        next same =>
          obtain ⟨more, behind, rfl⟩ := Option.map_eq_some_iff.mp h
          exact .inr (.inl ⟨start, rest, more, opens, by rw [same], rfl, behind⟩)
        next => cases h
      next => cases h
    next other =>
      refine .inr (.inr ⟨List.all_eq_true.mpr fun k hk => ?_, h⟩)
      have closes : k.2 ≠ c := fun same => other (List.any_eq_true.mpr ⟨k, hk, by simpa using same⟩)
      simp [opens k hk, closes]

/-- The matcher finds partners for all brackets exactly if the text closes what is open. -/
theorem isSome_partnersFrom? (stack : List (Nat × Char)) (offset : Nat) (w : Text) :
    (partnersFrom? kinds stack offset w).isSome =
      nestsFrom kinds (fun _ => true) (stack.map Prod.snd) w := by
  induction w generalizing stack offset with
  | nil => cases stack <;> rfl
  | cons c w ih =>
    rw [partnersFrom?.eq_def, nestsFrom, awaited?.eq_def]
    dsimp only
    cases found : kinds.find? (·.1 == c) with
    | some k => simp [ih]
    | none =>
      cases closes : kinds.any fun k => k.2 == c with
      | false => simp [ih]
      | true =>
        cases stack with
        | nil => rfl
        | cons e stack =>
          obtain ⟨start, closer⟩ := e
          by_cases same : c = closer
          · simp [same, ih]
          · simp [same]

/-- The kinds of bracket differ in their openers and in their closers, and no opener is a closer. -/
def Paired (kinds : List (Char × Char)) : Prop :=
  ∀ k ∈ kinds, ∀ l ∈ kinds, k.1 ≠ l.2 ∧ (k.1 = l.1 → k = l) ∧ (k.2 = l.2 → k = l)

instance : DecidablePred Paired := fun kinds =>
  inferInstanceAs (Decidable (∀ k ∈ kinds, ∀ l ∈ kinds, _))

theorem paired_counted (angles : Bool) : Paired (counted angles) := by
  cases angles <;> decide

/-- The counter of one kind finds what the stack finds: its depth is the number of brackets of its
kind from the one that is to be closed to the top of the stack. -/
theorem closing?_of_partnersFrom? (paired : Paired kinds) (hk : k ∈ kinds)
    (later : ∀ e ∈ above, start < e.1) (lt : start < offset)
    (h : partnersFrom? kinds (above ++ (start, k.2) :: below) offset w = some pairs) :
    ∃ close, closing? k.1 k.2 (above.countP (·.2 == k.2) + 1) offset w = some close ∧
      pairs.lookup start = some close := by
  induction w generalizing above offset pairs with
  | nil => simp [partnersFrom?] at h
  | cons c w ih =>
    have width := c.utf8Size_pos
    rcases partnersFrom?_cons h with ⟨l, hl, rfl, behind⟩ | ⟨s, rest, more, opens, top, rfl, behind⟩ |
      ⟨plain, behind⟩
    · -- A bracket opens: it counts if it is of this kind.
      have pushed : ∀ e ∈ (offset, l.2) :: above, start < e.1 :=
        List.forall_mem_cons.mpr ⟨lt, later⟩
      obtain ⟨close, found, known⟩ := ih pushed (by omega) behind
      refine ⟨close, ?_, known⟩
      rw [closing?]
      by_cases same : l = k
      · subst same
        rw [if_pos rfl]
        simpa using found
      · obtain ⟨-, openers, closers⟩ := paired l hl k hk
        have other : ¬l.2 = k.2 := fun eq => same (closers eq)
        rw [if_neg fun eq => same (openers eq), if_neg (paired l hl k hk).1]
        simpa [other] using found
    · -- The innermost bracket is closed: the one in question, or one above it.
      rw [closing?, if_neg (opens k hk).symm]
      cases above with
      | nil =>
        obtain ⟨here, rfl⟩ := List.cons.inj top
        obtain ⟨rfl, rfl⟩ := Prod.mk.inj here
        exact ⟨offset, by simp, by simp⟩
      | cons e above =>
        obtain ⟨rfl, rfl⟩ := List.cons.inj top
        have inner : start < s := later (s, c) List.mem_cons_self
        have others : ∀ e ∈ above, start < e.1 := fun e he => later e (List.mem_cons_of_mem _ he)
        obtain ⟨close, found, known⟩ := ih others (by omega) behind
        refine ⟨close, ?_, ?_⟩
        · by_cases same : c = k.2
          · rw [if_pos same, if_neg (by simp [same])]
            simpa [same] using found
          · rw [if_neg same]
            simpa [same] using found
        · rw [List.lookup_cons, beq_false_of_ne (Nat.ne_of_lt inner)]
          exact known
    · obtain ⟨close, found, known⟩ := ih later (by omega) behind
      have each : k.1 ≠ c ∧ k.2 ≠ c := by simpa using List.all_eq_true.mp plain k hk
      refine ⟨close, ?_, known⟩
      rw [closing?, if_neg each.1.symm, if_neg each.2.symm]
      exact found

/-- What the matcher finds in the front of a text belongs to brackets of the front. -/
theorem partnersFrom?_append (older : ∀ e ∈ stack, e.1 < offset)
    (h : partnersFrom? kinds stack offset (front ++ w) = some pairs) :
    ∃ next found more, partnersFrom? kinds next (offset + Text.size front) w = some more ∧
      pairs = found ++ more ∧ ∀ p ∈ found, p.1 < offset + Text.size front := by
  induction front generalizing stack offset pairs with
  | nil => exact ⟨stack, [], pairs, h, rfl, by simp⟩
  | cons c front ih =>
    have width := c.utf8Size_pos
    have size : offset + c.utf8Size + Text.size front = offset + Text.size (c :: front) := by
      rw [Text.size_cons, Nat.add_assoc]
    rcases partnersFrom?_cons h with ⟨l, hl, rfl, behind⟩ | ⟨s, rest, more, -, rfl, rfl, behind⟩ |
      ⟨-, behind⟩
    · have pushed : ∀ e ∈ (offset, l.2) :: stack, e.1 < offset + l.1.utf8Size :=
        List.forall_mem_cons.mpr ⟨by omega, fun e he => Nat.lt_add_right _ (older e he)⟩
      have split := ih pushed behind
      rwa [size] at split
    · have lt : s < offset := older (s, c) List.mem_cons_self
      have popped : ∀ e ∈ rest, e.1 < offset + c.utf8Size :=
        fun e he => Nat.lt_add_right _ (older e (List.mem_cons_of_mem _ he))
      obtain ⟨next, found, more, rest, rfl, bounded⟩ := ih popped behind
      rw [size] at rest bounded
      exact ⟨next, (s, offset) :: found, more, rest, rfl,
        List.forall_mem_cons.mpr ⟨by omega, bounded⟩⟩
    · have split := ih (fun e he => Nat.lt_add_right _ (older e he)) behind
      rwa [size] at split

/-- In a balanced text the counter finds the partner that the stack finds. -/
theorem findMatching?_of_partners? (paired : Paired kinds) (hk : k ∈ kinds) {text : Text} {pos : Nat}
    (h : partners? kinds text = some pairs) (here : Text.at? text pos = some k.1) :
    ∃ close, findMatching? text pos k.1 k.2 = some close ∧ pairs.lookup pos = some close := by
  obtain ⟨front, back, rfl, rfl⟩ := Text.at?_eq_some here
  obtain ⟨stack, found, more, behind, rfl, bounded⟩ := partnersFrom?_append (by simp) h
  rw [Nat.zero_add] at behind bounded
  have width := k.1.utf8Size_pos
  have unknown : found.lookup (Text.size front) = none := by
    rw [List.lookup_eq_none_iff]
    intro p hp
    have lt := bounded p hp
    exact bne_iff_ne.mpr (Nat.ne_of_gt lt)
  rcases partnersFrom?_cons behind with ⟨l, hl, opens, pushed⟩ | ⟨_, _, _, opens, -⟩ | ⟨plain, -⟩
  · obtain rfl : l = k := (paired l hl k hk).2.1 opens
    have innermost : ∀ e ∈ ([] : List (Nat × Char)), Text.size front < e.1 := by simp
    obtain ⟨close, closes, known⟩ :=
      closing?_of_partnersFrom? paired hk innermost (Nat.lt_add_of_pos_right width) pushed
    refine ⟨close, ?_, ?_⟩
    · rw [findMatching?, Text.drop?_append]
      dsimp only
      rw [if_pos rfl, closing?, if_pos rfl]
      exact closes
    · rw [List.lookup_append, unknown]
      exact known
  · exact absurd rfl (opens k hk)
  · have each := List.all_eq_true.mp plain k hk
    simp at each

/-! ### A counter that cannot go below zero -/

/-- A depth counter over bytes that fails where the depth would go below zero. It finds the place at
which the depth comes back to zero, if it does. -/
def countdown? (opener closer : UInt8) : Nat → Nat → List UInt8 → Option (Option Nat)
  | _, _, [] => some none
  | depth, offset, b :: bs =>
    if b = opener then countdown? opener closer (depth + 1) (offset + 1) bs
    else if b = closer then
      if depth = 0 then none
      else if depth = 1 then some (some offset)
      else countdown? opener closer (depth - 1) (offset + 1) bs
    else countdown? opener closer depth (offset + 1) bs

/-- The partner of the bracket at `start`, if there is one there, found by the counter. -/
def bytePartner? (bs : List UInt8) (start : Nat) (opener closer : UInt8) : Option (Option Nat) :=
  if bs[start]? = some opener then countdown? opener closer 0 start (bs.drop start) else some none

variable {opener closer : Char} {depth limit : Nat} {cs text : Text}

theorem countdown?_append {o d : UInt8} {xs : List UInt8} (other : ∀ b ∈ xs, b ≠ o ∧ b ≠ d)
    (depth offset : Nat) (ys : List UInt8) :
    countdown? o d depth offset (xs ++ ys) = countdown? o d depth (offset + xs.length) ys := by
  induction xs generalizing offset with
  | nil => rfl
  | cons b xs ih =>
    obtain ⟨first, rest⟩ := List.forall_mem_cons.mp other
    rw [List.cons_append, countdown?, if_neg first.1, if_neg first.2, ih rest, List.length_cons,
      Nat.add_assoc, Nat.add_comm 1]

theorem filter_closing? (le : limit ≤ offset) :
    (closing? opener closer depth offset cs).filter (· < limit) = none := by
  rw [Option.filter_eq_none_iff]
  intro close found
  obtain ⟨mid, -, -, rfl⟩ := closing?_split found
  simp only [decide_eq_true_eq]
  omega

theorem toUInt8_ne (ho : opener.utf8Size = 1) (hc : closer.utf8Size = 1) (ne : opener ≠ closer) :
    opener.toUInt8 ≠ closer.toUInt8 := by
  intro same
  apply ne
  apply Text.eq_of_mem_utf8EncodeChar hc
  rw [Text.utf8EncodeChar_one ho, same]
  exact List.mem_cons_self

/-- Behind an opener the counter never fails, and it finds what stands in front of the limit. -/
theorem countdown?_closing? (ho : opener.utf8Size = 1) (hc : closer.utf8Size = 1)
    (depth offset limit : Nat) (cs : Text) :
    countdown? opener.toUInt8 closer.toUInt8 (depth + 1) offset
        ((Text.bytes cs).take (limit - offset)) =
      some ((closing? opener closer (depth + 1) offset cs).filter (· < limit)) := by
  induction cs generalizing depth offset with
  | nil => simp [Text.bytes, closing?, countdown?]
  | cons c cs ih =>
    rcases Nat.lt_or_ge offset limit with lt | le
    · have first : limit - offset = limit - (offset + 1) + 1 := by omega
      rw [Text.bytes_cons, closing?]
      by_cases opens : c = opener
      · subst opens
        rw [if_pos rfl, Text.utf8EncodeChar_one ho, ho, first, List.singleton_append,
          List.take_succ_cons, countdown?, if_pos rfl]
        exact ih (depth + 1) (offset + 1)
      · rw [if_neg opens]
        by_cases closes : c = closer
        · subst closes
          rw [if_pos rfl, Text.utf8EncodeChar_one hc, hc, first, List.singleton_append,
            List.take_succ_cons, countdown?, if_neg (toUInt8_ne hc ho opens), if_pos rfl,
            if_neg (Nat.succ_ne_zero depth)]
          cases depth with
          | zero => simp [Option.filter, lt]
          | succ depth =>
            rw [if_neg (by omega), if_neg (by omega)]
            exact ih depth (offset + 1)
        · rw [if_neg closes]
          have other : ∀ b ∈ (String.utf8EncodeChar c).take (limit - offset),
              b ≠ opener.toUInt8 ∧ b ≠ closer.toUInt8 := by
            intro b hb
            have mem := List.mem_of_mem_take hb
            constructor
            · rintro rfl
              exact opens (Text.eq_of_mem_utf8EncodeChar ho mem)
            · rintro rfl
              exact closes (Text.eq_of_mem_utf8EncodeChar hc mem)
          rw [List.take_append, countdown?_append other, List.length_take,
            String.length_utf8EncodeChar, Nat.sub_sub]
          rcases Nat.le_total c.utf8Size (limit - offset) with whole | cut
          · rw [Nat.min_eq_right whole]
            exact ih depth (offset + c.utf8Size)
          · -- The limit cuts the character in two: nothing behind it counts.
            have behind : limit ≤ offset + c.utf8Size := by omega
            rw [filter_closing? behind, Nat.sub_eq_zero_of_le behind]
            rfl
    · rw [filter_closing? le, Nat.sub_eq_zero_of_le le]
      rfl

theorem findMatching?_inside {close : Nat} (h : findMatching? text start opener closer = some close) :
    Text.at? text start = some opener ∧ start ≤ close ∧ close < Text.size text := by
  unfold findMatching? at h
  split at h
  next c cs dropped =>
    split at h
    next same =>
      obtain ⟨front, rfl, rfl⟩ := Text.split_of_drop? dropped
      obtain ⟨mid, back, split, rfl⟩ := closing?_split h
      have width := closer.utf8Size_pos
      refine ⟨?_, Nat.le_add_right .., ?_⟩
      · rw [Text.at?, dropped, same]
        rfl
      · rw [split, Text.size_append, Text.size_append, Text.size_cons]
        omega
    next => cases h
  next => cases h

/-- The counter over the bytes in front of a limit never fails, whatever the text, and gives the
partner if it stands in front of the limit. -/
theorem bytePartner?_eq (ho : opener.utf8Size = 1) (hc : closer.utf8Size = 1) (text : Text)
    (start limit : Nat) :
    bytePartner? ((Text.bytes text).take limit) start opener.toUInt8 closer.toUInt8 =
      some (findMatchingBefore? text start limit opener closer) := by
  by_cases here : start < limit ∧ Text.at? text start = some opener
  · obtain ⟨lt, opens⟩ := here
    obtain ⟨front, back, rfl, rfl⟩ := Text.at?_eq_some opens
    have byte : ((Text.bytes (front ++ opener :: back)).take limit)[Text.size front]? =
        some opener.toUInt8 := by
      rw [List.getElem?_take_of_lt lt]
      exact (Text.getElem?_bytes ho).mpr opens
    have width : limit - Text.size front = limit - (Text.size front + 1) + 1 := by omega
    have rest : ((Text.bytes (front ++ opener :: back)).take limit).drop (Text.size front) =
        opener.toUInt8 :: (Text.bytes back).take (limit - (Text.size front + 1)) := by
      rw [List.drop_take, Text.bytes_append, ← Text.length_bytes, List.drop_left, Text.bytes_cons,
        Text.utf8EncodeChar_one ho, Text.length_bytes, width, List.singleton_append,
        List.take_succ_cons]
    have found : findMatching? (front ++ opener :: back) (Text.size front) opener closer =
        closing? opener closer 1 (Text.size front + 1) back := by
      rw [findMatching?, Text.drop?_append]
      dsimp only
      rw [if_pos rfl, closing?, if_pos rfl, ho]
    rw [bytePartner?, if_pos byte, rest, countdown?, if_pos rfl, findMatchingBefore?, found]
    exact countdown?_closing? ho hc 0 (Text.size front + 1) limit back
  · have absent : ((Text.bytes text).take limit)[start]? ≠ some opener.toUInt8 := by
      intro byte
      rw [List.getElem?_take] at byte
      split at byte
      next lt => exact here ⟨lt, (Text.getElem?_bytes ho).mp byte⟩
      next => cases byte
    rw [bytePartner?, if_neg absent]
    cases found : findMatchingBefore? text start limit opener closer with
    | none => rfl
    | some close =>
      obtain ⟨matched, lt⟩ := findMatchingBefore?_eq_some.mp found
      obtain ⟨opens, le, -⟩ := findMatching?_inside matched
      exact absurd ⟨Nat.lt_of_le_of_lt le lt, opens⟩ here

/-- Without a limit the counter runs over all bytes. -/
theorem bytePartner?_bytes (ho : opener.utf8Size = 1) (hc : closer.utf8Size = 1) (text : Text)
    (start : Nat) :
    bytePartner? (Text.bytes text) start opener.toUInt8 closer.toUInt8 =
      some (findMatching? text start opener closer) := by
  have whole : (Text.bytes text).take (Text.size text) = Text.bytes text := by
    rw [← Text.length_bytes, List.take_length]
  have inside : findMatchingBefore? text start (Text.size text) opener closer =
      findMatching? text start opener closer := by
    cases found : findMatching? text start opener closer with
    | none => rw [findMatchingBefore?, found, Option.filter_none]
    | some close => exact findMatchingBefore?_eq_some.mpr ⟨found, (findMatching?_inside found).2.2⟩
  rw [← inside, ← bytePartner?_eq ho hc, whole]

/-- In a text that is balanced in round, square and curly brackets, every opener has the partner that
the stack knows. The counter of its kind finds exactly that, and with a limit it finds it exactly if it
stands in front of the limit. On any text the counter never goes below zero. -/
theorem findMatching?_partner (text : Text) :
    (Balanced false text → ∃ pairs, partners? (counted false) text = some pairs ∧
      ∀ k ∈ counted false, ∀ pos, Text.at? text pos = some k.1 →
        ∃ close, pairs.lookup pos = some close ∧ findMatching? text pos k.1 k.2 = some close ∧
          ∀ limit, findMatchingBefore? text pos limit k.1 k.2 =
            if close < limit then some close else none) ∧
    ∀ opener closer : Char, opener.utf8Size = 1 → closer.utf8Size = 1 → ∀ start,
      bytePartner? (Text.bytes text) start opener.toUInt8 closer.toUInt8 =
          some (findMatching? text start opener closer) ∧
        ∀ limit, bytePartner? ((Text.bytes text).take limit) start opener.toUInt8 closer.toUInt8 =
          some (findMatchingBefore? text start limit opener closer) := by
  constructor
  · intro balanced
    have known : (partners? (counted false) text).isSome = true := by
      rw [partners?, isSome_partnersFrom?]
      exact balanced
    obtain ⟨pairs, found⟩ := Option.isSome_iff_exists.mp known
    refine ⟨pairs, found, fun k hk pos here => ?_⟩
    obtain ⟨close, closes, partner⟩ := findMatching?_of_partners? (paired_counted false) hk found here
    refine ⟨close, partner, closes, fun limit => ?_⟩
    rw [findMatchingBefore?, closes]
    simp [Option.filter]
  · intro opener closer ho hc start
    exact ⟨bytePartner?_bytes ho hc text start, bytePartner?_eq ho hc text start⟩

theorem findMatching?_partner_mixed :
    Balanced false "(a[(b)]\x7b\x7d)".toList ∧
      findMatching? "(a[(b)]\x7b\x7d)".toList 0 '(' ')' = some 9 ∧
      findMatchingBefore? "(a[(b)]\x7b\x7d)".toList 0 9 '(' ')' = none ∧
      findMatching? "(a[(b)]\x7b\x7d)".toList 3 '(' ')' = some 5 ∧
      bytePartner? (Text.bytes "a)b(".toList) 1 40 41 = some none := by
  have balanced : Balanced false "(a[(b)]\x7b\x7d)".toList := by decide
  have round : ('(', ')') ∈ counted false := by decide
  obtain ⟨pairs, found, each⟩ := (findMatching?_partner _).1 balanced
  have known : pairs = [(3, 5), (2, 6), (7, 8), (0, 9)] :=
    Option.some.inj (found.symm.trans (by decide))
  subst known
  obtain ⟨outer, here, outside, before⟩ := each _ round 0 (by decide)
  obtain ⟨inner, there, inside, -⟩ := each _ round 3 (by decide)
  obtain rfl : 9 = outer := Option.some.inj here
  obtain rfl : 5 = inner := Option.some.inj there
  have unopened := ((findMatching?_partner "a)b(".toList).2 '(' ')' (by decide) (by decide) 1).1
  exact ⟨balanced, outside, before 9, inside, unopened⟩

end SourceTree.Scan
