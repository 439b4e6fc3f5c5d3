import SourceTree.Proofs.Scan.Split
import SourceTree.Scan.MaskedSource

/-!
The outermost blocks of a region and the places at which a declaration of the region can begin. The
blocks lie in the region one behind the other, each with an opening brace at its start, and nothing
begins inside one of them.
-/

namespace SourceTree.Scan

open Text (Boundary Edge)

/-- The position lies in none of the blocks. -/
def Outside (blocks : List Range) (pos : Nat) : Prop :=
  ∀ b ∈ blocks, pos < b.start ∨ b.stop ≤ pos

/-- A part of the region that opens with a brace. It ends between two characters, unless the region
cuts it off. -/
structure IsBlock (text : Text) (region b : Range) : Prop where
  le_start : region.start ≤ b.start
  nonempty : b.start < b.stop
  stop_le : b.stop ≤ region.stop
  opens : Text.at? text b.start = some '\x7b'
  ends : b.stop = region.stop ∨ Boundary text b.stop

theorem at?_append (front back : Text) (c : Char) :
    Text.at? (front ++ c :: back) (Text.size front) = some c := by
  rw [Text.at?, Text.drop?_append]
  rfl

theorem closing?_ends {front cs : Text} {depth close : Nat}
    (h : closing? '\x7b' '\x7d' depth (Text.size front) cs = some close) :
    Text.size front < close + 1 ∧ Boundary (front ++ cs) (close + 1) := by
  obtain ⟨mid, back, rfl, rfl⟩ := closing?_split h
  refine ⟨by omega, front ++ mid ++ ['\x7d'], back, by simp, ?_⟩
  rw [Text.size_append, Text.size_append]
  rfl

theorem blocksFrom_spec {text front cs : Text} {stop resume offset : Nat} (ht : text = front ++ cs)
    (hs : Text.size front = offset) :
    (∀ b ∈ blocksFrom stop resume offset cs, IsBlock text ⟨resume, stop⟩ b) ∧
      (blocksFrom stop resume offset cs).Pairwise fun a b => a.stop ≤ b.start := by
  induction cs generalizing front resume offset with
  | nil => simp [blocksFrom]
  | cons c cs ih =>
    have later (resume : Nat) :
        (∀ b ∈ blocksFrom stop resume (offset + c.utf8Size) cs, IsBlock text ⟨resume, stop⟩ b) ∧
          (blocksFrom stop resume (offset + c.utf8Size) cs).Pairwise fun a b => a.stop ≤ b.start := by
      have next : Text.size (front ++ [c]) = offset + c.utf8Size := by
        rw [Text.size_append, Text.size_cons, Text.size_nil, hs, Nat.add_zero]
      exact ih (by simpa using ht) next
    subst hs
    have block (hc : c = '\x7b') (past : resume ≤ Text.size front) (inside : Text.size front < stop)
        (close : Nat) (lt : Text.size front < close) (boundary : Boundary text close) :
        (∀ b ∈ ⟨Text.size front, min close stop⟩ ::
            blocksFrom stop (min close stop) (Text.size front + c.utf8Size) cs,
          IsBlock text ⟨resume, stop⟩ b) ∧
        (⟨Text.size front, min close stop⟩ ::
          blocksFrom stop (min close stop) (Text.size front + c.utf8Size) cs).Pairwise
            fun a b => a.stop ≤ b.start := by
      obtain ⟨all, order⟩ := later (min close stop)
      have first : IsBlock text ⟨resume, stop⟩ ⟨Text.size front, min close stop⟩ := by
        refine ⟨past, Nat.lt_min.mpr ⟨lt, inside⟩, Nat.min_le_right _ _, ?_, ?_⟩
        · rw [ht, hc]
          exact at?_append front cs _
        · by_cases cutOff : stop ≤ close
          · exact .inl (Nat.min_eq_right cutOff)
          · exact .inr (by simpa [Nat.min_eq_left (Nat.le_of_not_le cutOff)] using boundary)
      refine ⟨fun b hb => ?_, List.pairwise_cons.mpr ⟨fun b hb => (all b hb).le_start, order⟩⟩
      rcases List.mem_cons.mp hb with rfl | hb
      · exact first
      · -- Behind the first block is behind the place from which it was looked for.
        obtain ⟨after, nonempty, le, opens, ends⟩ := all b hb
        exact ⟨Nat.le_trans past (Nat.le_trans (Nat.le_of_lt first.nonempty) after), nonempty, le,
          opens, ends⟩
    rw [blocksFrom]
    dsimp only
    split
    next => simp
    next inside =>
      split
      next => exact later resume
      next past =>
        split
        next hc =>
          have start := block hc (Nat.le_of_not_lt past) (Nat.lt_of_not_le inside)
          split
          next found =>
            have ends := closing?_ends found
            exact start _ ends.1 (ht ▸ ends.2)
          next =>
            have whole : Text.size text = Text.size front + c.utf8Size + Text.size cs := by
              rw [ht, Text.size_append, Text.size_cons, Nat.add_assoc]
            have pos := c.utf8Size_pos
            have lt : Text.size front < Text.size text := by omega
            have ends := start (Text.size text) lt (Text.boundary_size text)
            rwa [whole] at ends
        next => exact later resume

theorem firstLevelBlocks_spec (text : Text) (region : Range) :
    (∀ b ∈ firstLevelBlocks text region, IsBlock text region b) ∧
      (firstLevelBlocks text region).Pairwise fun a b => a.stop ≤ b.start :=
  blocksFrom_spec (List.nil_append text).symm rfl

theorem mem_indexed {offset pos : Nat} {c : Char} {cs : Text}
    (h : (pos, c) ∈ Text.indexed offset cs) :
    ∃ front back, cs = front ++ c :: back ∧ pos = offset + Text.size front := by
  induction cs generalizing offset with
  | nil => simp [Text.indexed] at h
  | cons x cs ih =>
    rcases List.mem_cons.mp h with h | h
    · obtain ⟨rfl, rfl⟩ := Prod.mk.inj h
      exact ⟨[], cs, rfl, rfl⟩
    · obtain ⟨front, back, rfl, rfl⟩ := ih h
      exact ⟨x :: front, back, rfl, by rw [Text.size_cons, Nat.add_assoc]⟩

section

variable {m : MaskedSource} {region : Range}

theorem firstLevelSemicolons_spec {pos : Nat} (h : pos ∈ m.firstLevelSemicolons region) :
    region.start ≤ pos ∧ pos < region.stop ∧ Text.at? m.masked pos = some ';' ∧
      Outside (firstLevelBlocks m.masked region) pos := by
  obtain ⟨⟨q, c⟩, mem, hq⟩ := List.mem_filterMap.mp h
  simp only at hq
  split at hq
  next found =>
    obtain ⟨le, lt, rfl, free⟩ := found
    obtain rfl : q = pos := by simpa using hq
    obtain ⟨front, back, hm, rfl⟩ := mem_indexed mem
    have semicolon : Text.at? m.masked (0 + Text.size front) = some ';' := by
      rw [hm, Nat.zero_add]
      exact at?_append front back ';'
    refine ⟨le, lt, semicolon, fun b hb => ?_⟩
    have brace := ((firstLevelBlocks_spec m.masked region).1 b hb).opens
    have other : b.start ≠ 0 + Text.size front := by
      intro same
      rw [same, semicolon] at brace
      exact absurd brace (by decide)
    have notInside : ¬(b.start < 0 + Text.size front ∧ 0 + Text.size front < b.stop) := by
      intro inside
      have nested : isNested (firstLevelBlocks m.masked region) (0 + Text.size front) = true :=
        List.any_eq_true.mpr ⟨b, hb, by simpa using inside⟩
      rw [nested] at free
      exact absurd free (by decide)
    omega
  next => simp at hq

/-- Only blanks are passed over. -/
theorem MaskedSource.skipBlanks?_le {pos next q : Nat} {c : Char}
    (skip : m.skipBlanks? pos = some next) (here : Text.at? m.masked q = some c)
    (solid : Text.isBlank c = false) (le : pos ≤ q) : next ≤ q := by
  obtain ⟨before, behind, hb, rfl⟩ := Text.at?_eq_some here
  obtain ⟨rest, dropped, rfl⟩ := Option.map_eq_some_iff.mp skip
  have inside : min pos (Text.size m.masked) = pos := by
    rw [hb, Text.size_append]
    omega
  rw [inside] at dropped
  obtain ⟨front, hm, rfl⟩ := Text.split_of_drop? dropped
  obtain ⟨lead, hl, size, blank, -⟩ := Text.trimStart_split rest
  obtain ⟨mid, rfl, hmid⟩ := Text.exists_between (hm.symm.trans hb) le
  apply Nat.le_of_not_lt
  intro lt
  have short : Text.size mid < Text.size lead := by
    rw [Text.size_append] at lt
    omega
  obtain ⟨more, hmore, hc⟩ := Text.exists_between (hmid.symm.trans hl) (Nat.le_of_lt short)
  cases more with
  | nil =>
    rw [hmore, List.append_nil] at short
    exact Nat.lt_irrefl _ short
  | cons x more =>
    obtain ⟨rfl, -⟩ := List.cons.inj hc
    have passed := blank c (by simp [hmore])
    rw [solid] at passed
    exact Bool.false_ne_true passed

theorem exists_skipBlanks? {pos : Nat} (h : Boundary m.masked pos) :
    ∃ p, m.skipBlanks? pos = some p ∧ pos ≤ p ∧ Boundary m.masked p := by
  have inside : min pos (Text.size m.masked) = pos := Nat.min_eq_left h.le_size
  obtain ⟨front, rest, hm, rfl⟩ := h
  have found : m.skipBlanks? (Text.size front) = some (Text.size front + Text.blankSize rest) := by
    rw [MaskedSource.skipBlanks?, inside, hm, Text.drop?_append]
    rfl
  refine ⟨_, found, Nat.le_add_right _ _, ?_⟩
  rw [hm]
  exact Text.boundary_blankSize front rest

theorem MaskedSource.skipBlanks?_le_size {pos next : Nat} (le : pos ≤ Text.size m.masked)
    (skip : m.skipBlanks? pos = some next) : next ≤ Text.size m.masked := by
  obtain ⟨rest, dropped, rfl⟩ := Option.map_eq_some_iff.mp skip
  rw [Nat.min_eq_left le] at dropped
  obtain ⟨front, hm, rfl⟩ := Text.split_of_drop? dropped
  rw [hm]
  exact (Text.boundary_blankSize front rest).le_size

/-- Clear of the insides of the blocks; at an opening brace is still clear. -/
def Clear (blocks : List Range) (pos : Nat) : Prop := ∀ b ∈ blocks, pos ≤ b.start ∨ b.stop ≤ pos

theorem exists_clear_skipBlanks? {pos : Nat} (h : Boundary m.masked pos)
    (clear : Clear (firstLevelBlocks m.masked region) pos) :
    ∃ p, m.skipBlanks? pos = some p ∧ pos ≤ p ∧ Boundary m.masked p ∧
      Clear (firstLevelBlocks m.masked region) p := by
  obtain ⟨p, found, le, boundary⟩ := exists_skipBlanks? h
  refine ⟨p, found, le, boundary, fun b hb => ?_⟩
  rcases clear b hb with before | behind
  · have opens := ((firstLevelBlocks_spec m.masked region).1 b hb).opens
    exact .inl (MaskedSource.skipBlanks?_le found opens (by decide) before)
  · exact .inr (Nat.le_trans behind le)

theorem mem_of_mem_eraseReps {xs : List Nat} {x : Nat} (h : x ∈ xs.eraseReps) : x ∈ xs := by
  have loop (ys acc : List Nat) (y : Nat)
      (h : x ∈ List.eraseRepsBy.loop (· == ·) y ys acc) : x = y ∨ x ∈ ys ∨ x ∈ acc := by
    induction ys generalizing y acc with
    | nil => simpa [List.eraseRepsBy.loop, or_comm] using h
    | cons z ys ih =>
      rw [List.eraseRepsBy.loop] at h
      split at h
      · rcases ih acc y h with rfl | h | h <;> simp [h]
      · rcases ih (y :: acc) z h with rfl | h | h
        · simp
        · simp [h]
        · rcases List.mem_cons.mp h with rfl | h <;> simp [*]
  cases xs with
  | nil => exact h
  | cons y ys => simpa using loop ys [] y h

theorem clear_stop {d : Range} (hd : d ∈ firstLevelBlocks m.masked region) :
    Clear (firstLevelBlocks m.masked region) d.stop := by
  obtain ⟨blocks, order⟩ := firstLevelBlocks_spec m.masked region
  have forward : (firstLevelBlocks m.masked region).Pairwise
      fun a b => a.stop ≤ b.start ∨ b.stop ≤ a.stop := order.imp .inl
  have backward : (firstLevelBlocks m.masked region).Pairwise
      (flip fun a b => a.stop ≤ b.start ∨ b.stop ≤ a.stop) :=
    order.imp_of_mem fun {a b} _ hb le => .inr (Nat.le_trans le (Nat.le_of_lt (blocks b hb).nonempty))
  intro b hb
  exact forward.forall_of_forall_of_flip (fun a _ => .inr (Nat.le_refl a.stop)) backward hd hb

/-- The places at which a declaration can begin lie in the region between two characters, clear of
the insides of its blocks. -/
theorem exists_memberStarts? (hs : Boundary m.masked region.start)
    (ht : Boundary m.masked region.stop) : ∃ starts, m.memberStarts? region = some starts ∧
      ∀ p ∈ starts, region.start ≤ p ∧ p < region.stop ∧ Boundary m.masked p ∧
        Clear (firstLevelBlocks m.masked region) p := by
  obtain ⟨blocks, order⟩ := firstLevelBlocks_spec m.masked region
  have candidates : ∀ c ∈ region.start :: ((m.firstLevelSemicolons region).map (· + 1) ++
      (firstLevelBlocks m.masked region).map Range.stop), region.start ≤ c ∧ Boundary m.masked c ∧
        Clear (firstLevelBlocks m.masked region) c := by
    intro c hc
    rcases List.mem_cons.mp hc with rfl | hc
    · exact ⟨Nat.le_refl _, hs, fun b hb => .inl (blocks b hb).le_start⟩
    rcases List.mem_append.mp hc with hc | hc
    · obtain ⟨pos, hpos, rfl⟩ := List.mem_map.mp hc
      obtain ⟨le, -, semicolon, outside⟩ := firstLevelSemicolons_spec hpos
      obtain ⟨front, back, hm, rfl⟩ := Text.at?_eq_some semicolon
      refine ⟨Nat.le_succ_of_le le, ?_, fun b hb => ?_⟩
      · exact ⟨front ++ [';'], back, by simpa using hm, by rw [Text.size_append]; rfl⟩
      · rcases outside b hb with before | behind
        · exact .inl before
        · exact .inr (Nat.le_succ_of_le behind)
    · obtain ⟨d, hd, rfl⟩ := List.mem_map.mp hc
      have block := blocks d hd
      refine ⟨Nat.le_trans block.le_start (Nat.le_of_lt block.nonempty), ?_, clear_stop hd⟩
      rcases block.ends with cutOff | boundary
      · rwa [cutOff]
      · exact boundary
  have reached : ∀ c ∈ region.start :: ((m.firstLevelSemicolons region).map (· + 1) ++
      (firstLevelBlocks m.masked region).map Range.stop), ∃ p, m.skipBlanks? c = some p ∧
        (region.start ≤ p ∧ Boundary m.masked p ∧ Clear (firstLevelBlocks m.masked region) p) := by
    intro c hc
    obtain ⟨le, boundary, clear⟩ := candidates c hc
    obtain ⟨p, found, le', boundary', clear'⟩ := exists_clear_skipBlanks? boundary clear
    exact ⟨p, found, Nat.le_trans le le', boundary', clear'⟩
  obtain ⟨starts, hstarts, all⟩ := exists_mapM reached
  have found : m.memberStarts? region =
      some ((starts.filter (· < region.stop)).mergeSort (· ≤ ·)).eraseReps := by
    rw [MaskedSource.memberStarts?, if_pos (.inr ht.le_size)]
    dsimp only
    rw [hstarts]
    rfl
  refine ⟨_, found, fun p hp => ?_⟩
  obtain ⟨mem, lt⟩ := List.mem_filter.mp (List.mem_mergeSort.mp (mem_of_mem_eraseReps hp))
  obtain ⟨le, boundary, clear⟩ := all p mem
  exact ⟨le, by simpa using lt, boundary, clear⟩

/-- The end of a statement lies behind its start, at the limit or just behind a semicolon. -/
theorem exists_statementEnd? {start limit : Nat} (le : start ≤ limit)
    (ht : limit ≤ Text.size m.masked) : ∃ stop, m.statementEnd? start limit = some stop ∧
      (stop = limit ∨ start < stop ∧ stop ≤ limit ∧ Edge m.masked stop) := by
  rw [MaskedSource.statementEnd?, if_pos ⟨le, ht⟩]
  cases hs : m.firstLevelSemicolons ⟨start, limit⟩ with
  | nil => exact ⟨limit, rfl, .inl rfl⟩
  | cons pos more =>
    obtain ⟨le', lt, semicolon, -⟩ := firstLevelSemicolons_spec (hs ▸ List.mem_cons_self)
    obtain ⟨front, back, hm, rfl⟩ := Text.at?_eq_some semicolon
    exact ⟨_, rfl, .inr ⟨Nat.lt_succ_of_le le', lt, front, ';', back, hm, by decide, .inr rfl⟩⟩

end

end SourceTree.Scan
