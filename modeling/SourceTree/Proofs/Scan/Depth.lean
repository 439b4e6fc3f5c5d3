import SourceTree.Proofs.Scan.Block
import SourceTree.Proofs.Text.Bytes

/-!
The outermost blocks of a region against a counter that goes over the bytes of the region once. The
block finder jumps from a brace to its partner, which it looks for in the whole text, and cuts a block
off where the region ends. Whatever braces the text has, a place lies in a block exactly if the counter
stands above zero there. Main statement: `firstLevelBlocks_depth`.
-/

namespace SourceTree.Scan

/-- The depth in braces behind a byte. A closing brace does not take it below zero. -/
def deepen (depth : Nat) (b : UInt8) : Nat :=
  if b = '\x7b'.toUInt8 then depth + 1
  else if b = '\x7d'.toUInt8 then depth - 1
  else depth

/-- The depth at `stop` if the count begins with zero at `start`. -/
def depthBetween (text : Text) (start stop : Nat) : Nat :=
  (((Text.bytes text).take stop).drop start).foldl deepen 0

variable {text front cs : Text} {start pos next far stop resume offset depth q : Nat} {c d : Char}

/-! ### One step of the counter -/

theorem depthBetween_self (text : Text) (start : Nat) : depthBetween text start start = 0 := by
  rw [depthBetween, List.drop_take, Nat.sub_self]
  rfl

/-- The braces that count are the characters of the text: no byte of a wider character is one. -/
theorem depthBetween_succ (le : start ≤ pos) (lt : pos < Text.size text) :
    depthBetween text start (pos + 1) =
      if Text.at? text pos = some '\x7b' then depthBetween text start pos + 1
      else if Text.at? text pos = some '\x7d' then depthBetween text start pos - 1
      else depthBetween text start pos := by
  have inside : pos < (Text.bytes text).length := by rwa [Text.length_bytes]
  obtain ⟨b, here⟩ : ∃ b, (Text.bytes text)[pos]? = some b := ⟨_, List.getElem?_eq_getElem inside⟩
  have taken : start ≤ ((Text.bytes text).take pos).length := by
    rw [List.length_take]
    omega
  have behind : depthBetween text start (pos + 1) = deepen (depthBetween text start pos) b := by
    rw [depthBetween, List.take_add_one, here, List.drop_append_of_le_length taken, List.foldl_append]
    rfl
  have brace {c : Char} (one : c.utf8Size = 1) : Text.at? text pos = some c ↔ b = c.toUInt8 := by
    rw [← Text.getElem?_bytes one, here, Option.some.injEq]
  rw [behind, deepen]
  simp only [brace (c := '\x7b') (by decide), brace (c := '\x7d') (by decide)]

/-- Inside a character no other one starts. -/
theorem eq_of_at?_inside (from_le : Text.size front ≤ pos)
    (lt_to : pos < Text.size front + c.utf8Size) (here : Text.at? (front ++ c :: cs) pos = some d) :
    pos = Text.size front ∧ d = c := by
  obtain ⟨before, behind, split, rfl⟩ := Text.at?_eq_some here
  obtain ⟨mid, rfl, rest⟩ := Text.exists_between split from_le
  cases mid with
  | nil => exact ⟨by rw [List.append_nil], (List.cons.inj rest).1.symm⟩
  | cons x mid =>
    obtain ⟨rfl, -⟩ := List.cons.inj rest
    rw [Text.size_append, Text.size_cons] at lt_to
    omega

theorem depthBetween_inside (le : start ≤ Text.size front) (from_le : Text.size front ≤ q)
    (lt_to : q < Text.size front + c.utf8Size) :
    depthBetween (front ++ c :: cs) start q =
      depthBetween (front ++ c :: cs) start (Text.size front) := by
  induction from_le with
  | refl => rfl
  | @step q from_le ih =>
    have lt : q < Text.size (front ++ c :: cs) := by
      rw [Text.size_append, Text.size_cons]
      omega
    have narrow {d : Char} (one : d.utf8Size = 1) : Text.at? (front ++ c :: cs) q ≠ some d := by
      intro here
      obtain ⟨rfl, rfl⟩ := eq_of_at?_inside from_le (by omega) here
      omega
    rw [depthBetween_succ (Nat.le_trans le from_le) lt, if_neg (narrow (by decide)),
      if_neg (narrow (by decide))]
    exact ih (by omega)

/-- The depth behind a character is known from the depth in front of it. -/
theorem depthBetween_char (front cs : Text) (c : Char) (le : start ≤ Text.size front) :
    depthBetween (front ++ c :: cs) start (Text.size front + c.utf8Size) =
      if c = '\x7b' then depthBetween (front ++ c :: cs) start (Text.size front) + 1
      else if c = '\x7d' then depthBetween (front ++ c :: cs) start (Text.size front) - 1
      else depthBetween (front ++ c :: cs) start (Text.size front) := by
  have width := c.utf8Size_pos
  obtain ⟨last, hlast⟩ : ∃ last, Text.size front + c.utf8Size = last + 1 :=
    ⟨Text.size front + c.utf8Size - 1, by omega⟩
  have lt : last < Text.size (front ++ c :: cs) := by
    rw [Text.size_append, Text.size_cons]
    omega
  have brace {d : Char} (one : d.utf8Size = 1) :
      Text.at? (front ++ c :: cs) last = some d ↔ c = d := by
    constructor
    · intro here
      exact (eq_of_at?_inside (by omega) (by omega) here).2.symm
    · rintro rfl
      obtain rfl : last = Text.size front := by omega
      exact at?_append front cs c
  rw [hlast, depthBetween_succ (by omega) lt, depthBetween_inside le (by omega) (by omega)]
  simp only [brace (d := '\x7b') (by decide), brace (d := '\x7d') (by decide)]

/-- Nothing is open until a brace opens. -/
theorem depthBetween_shallow (le : start ≤ pos) (from_le : pos ≤ q) (inside : q ≤ Text.size text)
    (zero : depthBetween text start pos = 0)
    (shut : ∀ n, pos ≤ n → n < q → Text.at? text n ≠ some '\x7b') :
    depthBetween text start q = 0 := by
  induction from_le with
  | refl => exact zero
  | @step q from_le ih =>
    have before := ih (by omega) fun n hn lt => shut n hn (by omega)
    rw [depthBetween_succ (Nat.le_trans le from_le) inside, if_neg (shut q from_le (by omega)), before]
    split <;> rfl

/-! ### The block that opens at a brace -/

/-- From `pos` up to `far` some brace stands open, and at `far` none does, unless the text ends
there. -/
structure OpenUntil (text : Text) (start pos far : Nat) : Prop where
  le : pos ≤ far
  deep : ∀ q, pos ≤ q → q < far → 0 < depthBetween text start q
  shut : far < Text.size text → depthBetween text start far = 0

/-- The depth does not change inside a character, so one more character may stand in front. -/
theorem OpenUntil.char (le : start ≤ Text.size front)
    (deep : 0 < depthBetween (front ++ c :: cs) start (Text.size front))
    (rest : OpenUntil (front ++ c :: cs) start (Text.size front + c.utf8Size) far) :
    OpenUntil (front ++ c :: cs) start (Text.size front) far := by
  refine ⟨Nat.le_of_add_right_le rest.le, fun q ge lt => ?_, rest.shut⟩
  rcases Nat.lt_or_ge q (Text.size front + c.utf8Size) with inside | behind
  · rwa [depthBetween_inside le ge inside]
  · exact rest.deep q behind lt

/-- The search for the partner goes as far as braces stand open. -/
theorem closing?_depth (le : start ≤ Text.size front)
    (h : depthBetween (front ++ cs) start (Text.size front) = depth + 1) :
    (∀ close, closing? '\x7b' '\x7d' (depth + 1) (Text.size front) cs = some close →
      OpenUntil (front ++ cs) start (Text.size front) (close + 1)) ∧
    (closing? '\x7b' '\x7d' (depth + 1) (Text.size front) cs = none →
      OpenUntil (front ++ cs) start (Text.size front) (Text.size (front ++ cs))) := by
  induction cs generalizing front depth with
  | nil =>
    refine ⟨fun close found => by simp [closing?] at found, fun _ => ?_⟩
    rw [List.append_nil]
    exact ⟨Nat.le_refl _, fun q ge lt => by omega, fun lt => absurd lt (Nat.lt_irrefl _)⟩
  | cons c cs ih =>
    have deep : 0 < depthBetween (front ++ c :: cs) start (Text.size front) := by
      rw [h]
      exact Nat.succ_pos depth
    have further {d : Nat} (deeper : depthBetween (front ++ c :: cs) start
        (Text.size front + c.utf8Size) = d + 1) :
        (∀ close, closing? '\x7b' '\x7d' (d + 1) (Text.size front + c.utf8Size) cs = some close →
          OpenUntil (front ++ c :: cs) start (Text.size front) (close + 1)) ∧
        (closing? '\x7b' '\x7d' (d + 1) (Text.size front + c.utf8Size) cs = none →
          OpenUntil (front ++ c :: cs) start (Text.size front) (Text.size (front ++ c :: cs))) := by
      have next := Text.size_concat front c
      have whole : front ++ [c] ++ cs = front ++ c :: cs := by simp
      rw [← next, ← whole] at deeper
      have rest := ih (by omega) deeper
      rw [next, whole] at rest
      exact ⟨fun close found => .char le deep (rest.1 close found),
        fun missing => .char le deep (rest.2 missing)⟩
    have behind := depthBetween_char front cs c le
    rw [h] at behind
    rw [closing?]
    split
    next opens =>
      rw [if_pos opens] at behind
      exact further behind
    next shuts =>
      rw [if_neg shuts] at behind
      split
      next closes =>
        subst closes
        rw [if_pos rfl, Nat.add_sub_cancel] at behind
        cases depth with
        | zero =>
          refine ⟨?_, by simp⟩
          intro close found
          obtain rfl : Text.size front = close := by simpa using found
          exact .char le deep
            ⟨Nat.le_refl _, fun q ge lt => absurd lt (Nat.not_lt.mpr ge), fun _ => behind⟩
        | succ depth =>
          rw [if_neg (by omega)]
          exact further behind
      next other =>
        rw [if_neg other] at behind
        exact further behind

/-! ### The blocks of a region -/

theorem le_start_of_mem_blocksFrom {b : Range} (hb : b ∈ blocksFrom stop resume offset cs) :
    offset ≤ b.start := by
  induction cs generalizing resume offset with
  | nil => simp [blocksFrom] at hb
  | cons c cs ih =>
    have later {resume : Nat} (hb : b ∈ blocksFrom stop resume (offset + c.utf8Size) cs) :
        offset ≤ b.start := Nat.le_of_add_right_le (ih hb)
    rw [blocksFrom] at hb
    dsimp only at hb
    split at hb
    next => simp at hb
    next =>
      split at hb
      next => exact later hb
      next =>
        split at hb
        next =>
          rcases List.mem_cons.mp hb with rfl | hb
          · exact Nat.le_refl offset
          · exact later hb
        next => exact later hb

theorem isNested_eq_false {blocks : List Range} (behind : ∀ b ∈ blocks, pos ≤ b.start) :
    isNested blocks pos = false := by
  rw [isNested, List.any_eq_false]
  intro b hb
  have le := behind b hb
  simp only [Bool.and_eq_true, decide_eq_true_eq]
  omega

/-- From `pos` on, the places inside the blocks are those at which the counter stands above zero. -/
def Tracks (text : Text) (start stop pos : Nat) (blocks : List Range) : Prop :=
  ∀ q, pos ≤ q → q < stop → (isNested blocks q = true ↔ 0 < depthBetween text start q)

variable {blocks : List Range}

theorem Tracks.skip (le : start ≤ pos) (inside : stop ≤ Text.size text)
    (zero : pos < stop → depthBetween text start pos = 0)
    (shut : ∀ n, pos ≤ n → n < next → Text.at? text n ≠ some '\x7b')
    (behind : ∀ b ∈ blocks, next ≤ b.start) (rest : Tracks text start stop next blocks) :
    Tracks text start stop pos blocks := by
  intro q ge lt
  rcases Nat.lt_or_ge q next with early | late
  · have apart : isNested blocks q = false :=
      isNested_eq_false fun b hb => Nat.le_trans (Nat.le_of_lt early) (behind b hb)
    have none_open : depthBetween text start q = 0 :=
      depthBetween_shallow le ge (by omega) (zero (by omega)) fun n hn hq => shut n hn (by omega)
    simp [apart, none_open]
  · exact rest q late lt

theorem Tracks.block (zero : depthBetween text start pos = 0)
    (reach : OpenUntil text start (pos + 1) far) (behind : ∀ b ∈ blocks, min far stop ≤ b.start)
    (rest : Tracks text start stop (min far stop) blocks) :
    Tracks text start stop pos (⟨pos, min far stop⟩ :: blocks) := by
  intro q ge lt
  have first : isNested (⟨pos, min far stop⟩ :: blocks) q = true ↔
      (pos < q ∧ q < min far stop) ∨ isNested blocks q = true := by
    simp [isNested]
  rw [first]
  rcases Nat.lt_or_ge q (min far stop) with within | late
  · have apart : isNested blocks q = false :=
      isNested_eq_false fun b hb => Nat.le_trans (Nat.le_of_lt within) (behind b hb)
    rcases Nat.eq_or_lt_of_le ge with rfl | inner
    · simp [apart, zero]
    · have deep := reach.deep q inner (by omega)
      simp [inner, within, deep]
  · rw [rest q late lt]
    simp only [or_iff_right_iff_imp]
    omega

/-- The search for blocks goes on at places where nothing is open, from there to the end of the
region. -/
theorem tracks_blocksFrom (front cs : Text) (hp : pos = max resume (Text.size front)) (le : start ≤ pos)
    (inside : stop ≤ Text.size (front ++ cs))
    (zero : pos < stop → depthBetween (front ++ cs) start pos = 0) :
    Tracks (front ++ cs) start stop pos (blocksFrom stop resume (Text.size front) cs) := by
  induction cs generalizing front resume pos with
  | nil =>
    intro q ge lt
    rw [List.append_nil] at inside
    omega
  | cons c cs ih =>
    have next := Text.size_concat front c
    have whole : front ++ [c] ++ cs = front ++ c :: cs := by simp
    have later {pos resume : Nat} (hp : pos = max resume (Text.size front + c.utf8Size))
        (le : start ≤ pos) (zero : pos < stop → depthBetween (front ++ c :: cs) start pos = 0) :
        Tracks (front ++ c :: cs) start stop pos
          (blocksFrom stop resume (Text.size front + c.utf8Size) cs) := by
      rw [← next] at hp ⊢
      rw [← whole] at inside zero ⊢
      exact ih _ hp le inside zero
    have behind (resume : Nat) :
        ∀ b ∈ blocksFrom stop resume (Text.size front + c.utf8Size) cs, resume ≤ b.start :=
      fun b hb => ((blocksFrom_spec whole.symm next).1 b hb).le_start
    have skip (passed : pos = Text.size front → c ≠ '\x7b') :
        Tracks (front ++ c :: cs) start stop pos
          (blocksFrom stop resume (Text.size front + c.utf8Size) cs) := by
      have shut : ∀ n, pos ≤ n → n < max resume (Text.size front + c.utf8Size) →
          Text.at? (front ++ c :: cs) n ≠ some '\x7b' := by
        intro n ge lt here
        obtain ⟨first, opens⟩ := eq_of_at?_inside (by omega) (by omega) here
        exact passed (by omega) opens.symm
      refine Tracks.skip le inside zero shut
        (fun b hb => Nat.max_le.mpr ⟨behind resume b hb, le_start_of_mem_blocksFrom hb⟩)
        (later rfl (by omega) fun before => ?_)
      exact depthBetween_shallow le (by omega) (by omega) (zero (by omega)) shut
    rw [blocksFrom]
    dsimp only
    split
    next past => exact fun q ge lt => by omega
    next before =>
      split
      next ahead => exact skip fun same => by omega
      next reached =>
        split
        next opens =>
          obtain rfl : pos = Text.size front := by omega
          have one : c.utf8Size = 1 := by rw [opens]; rfl
          have depth : depthBetween (front ++ [c] ++ cs) start (Text.size (front ++ [c])) = 0 + 1 := by
            rw [whole, next, depthBetween_char front cs c le, if_pos opens, zero (by omega)]
          have partner := closing?_depth (by omega) depth
          rw [whole, next] at partner
          have block {far : Nat}
              (reach : OpenUntil (front ++ c :: cs) start (Text.size front + c.utf8Size) far) :
              Tracks (front ++ c :: cs) start stop (Text.size front)
                (⟨Text.size front, min far stop⟩ ::
                  blocksFrom stop (min far stop) (Text.size front + c.utf8Size) cs) := by
            have ahead := reach.le
            refine Tracks.block (zero (by omega)) (by rwa [one] at reach) (behind _)
              (later (by omega) (by omega) fun early => ?_)
            -- The region goes on behind the block, so it is the block's own end.
            have cut : min far stop = far := Nat.min_eq_left (by omega)
            rw [cut]
            exact reach.shut (by omega)
          rw [closing?, if_pos opens]
          split
          next found => exact block (partner.1 _ found)
          next missing =>
            have size : Text.size front + c.utf8Size + Text.size cs =
                Text.size (front ++ c :: cs) := by
              rw [Text.size_append, Text.size_cons, Nat.add_assoc]
            rw [size]
            exact block (partner.2 missing)
        next shuts => exact skip fun _ => shuts

/-! ### The end of a statement -/

theorem mem_indexed_iff {cs : Text} : (pos, c) ∈ Text.indexed 0 cs ↔ Text.at? cs pos = some c := by
  constructor
  · intro mem
    obtain ⟨front, back, rfl, rfl⟩ := mem_indexed mem
    rw [Nat.zero_add]
    exact at?_append front back c
  · intro here
    obtain ⟨front, back, rfl, rfl⟩ := Text.at?_eq_some here
    have further (front : Text) (offset : Nat) :
        (offset + Text.size front, c) ∈ Text.indexed offset (front ++ c :: back) := by
      induction front generalizing offset with
      | nil => exact List.mem_cons_self
      | cons x front ih =>
        rw [Text.size_cons, ← Nat.add_assoc]
        exact List.mem_cons_of_mem _ (ih (offset + x.utf8Size))
    simpa using further front 0

theorem pairwise_indexed (offset : Nat) (cs : Text) :
    (Text.indexed offset cs).Pairwise fun a b => a.1 < b.1 := by
  induction cs generalizing offset with
  | nil => exact List.Pairwise.nil
  | cons c cs ih =>
    refine List.pairwise_cons.mpr ⟨fun e he => ?_, ih (offset + c.utf8Size)⟩
    obtain ⟨front, back, -, hpos⟩ := mem_indexed he
    have width := c.utf8Size_pos
    dsimp only
    omega

section

variable {m : MaskedSource} {region : Range}

theorem mem_firstLevelSemicolons : pos ∈ m.firstLevelSemicolons region ↔
    region.start ≤ pos ∧ pos < region.stop ∧ Text.at? m.masked pos = some ';' ∧
      isNested (firstLevelBlocks m.masked region) pos = false := by
  rw [MaskedSource.firstLevelSemicolons]
  simp only [List.mem_filterMap, Prod.exists, Option.ite_none_right_eq_some, Option.some.injEq,
    Bool.not_eq_true', ← mem_indexed_iff]
  constructor
  · rintro ⟨q, c, mem, ⟨le, lt, rfl, free⟩, rfl⟩
    exact ⟨le, lt, mem, free⟩
  · rintro ⟨le, lt, mem, free⟩
    exact ⟨pos, ';', mem, ⟨le, lt, rfl, free⟩, rfl⟩

theorem pairwise_firstLevelSemicolons (m : MaskedSource) (region : Range) :
    (m.firstLevelSemicolons region).Pairwise (· < ·) := by
  refine List.Pairwise.filterMap _ (fun a b lt x hx y hy => ?_) (pairwise_indexed 0 m.masked)
  simp only [Option.ite_none_right_eq_some, Option.some.injEq] at hx hy
  rwa [← hx.2, ← hy.2]

/-- A semicolon of the region outside all braces of the region. -/
def EndsStatement (text : Text) (region : Range) (pos : Nat) : Prop :=
  region.start ≤ pos ∧ pos < region.stop ∧ Text.at? text pos = some ';' ∧
    depthBetween text region.start pos = 0

instance (text : Text) (region : Range) (pos : Nat) : Decidable (EndsStatement text region pos) :=
  inferInstanceAs (Decidable (_ ∧ _ ∧ _ ∧ _))

theorem isNested_firstLevelBlocks (inside : region.stop ≤ Text.size text) (ge : region.start ≤ pos)
    (lt : pos < region.stop) : isNested (firstLevelBlocks text region) pos = true ↔
      0 < depthBetween text region.start pos :=
  tracks_blocksFrom [] text (Nat.max_eq_left (Nat.zero_le _)).symm (Nat.le_refl _) inside
    (fun _ => depthBetween_self text region.start) pos ge lt

theorem mem_firstLevelSemicolons_iff (inside : region.stop ≤ Text.size m.masked) :
    pos ∈ m.firstLevelSemicolons region ↔ EndsStatement m.masked region pos := by
  rw [mem_firstLevelSemicolons, EndsStatement]
  refine and_congr_right fun ge => and_congr_right fun lt => and_congr_right fun _ => ?_
  rw [← Bool.not_eq_true, isNested_firstLevelBlocks inside ge lt, Nat.not_lt, Nat.le_zero]

/-- The blocks of a region stand in it one behind the other, each with a brace at its start. A place of
the region lies in one of them exactly if a counter over the bytes from the start of the region stands
above zero there. So a statement ends just behind the first semicolon at which the counter is zero, or
at the end of the region if there is none. -/
theorem firstLevelBlocks_depth (text : Text) (region : Range) (ordered : region.start ≤ region.stop)
    (inside : region.stop ≤ Text.size text) :
    (firstLevelBlocks text region).Pairwise (fun a b => a.stop ≤ b.start) ∧
    (∀ b ∈ firstLevelBlocks text region, IsBlock text region b) ∧
    (∀ pos, region.start ≤ pos → pos < region.stop →
      (isNested (firstLevelBlocks text region) pos = true ↔
        0 < depthBetween text region.start pos)) ∧
    ∀ m : MaskedSource, m.masked = text →
      (∃ pos, EndsStatement text region pos ∧ (∀ q, EndsStatement text region q → pos ≤ q) ∧
        m.statementEnd? region.start region.stop = some (pos + 1)) ∨
      (∀ pos, ¬EndsStatement text region pos) ∧
        m.statementEnd? region.start region.stop = some region.stop := by
  obtain ⟨blocks, order⟩ := firstLevelBlocks_spec text region
  refine ⟨order, blocks, fun pos => isNested_firstLevelBlocks inside, ?_⟩
  rintro m rfl
  have ends {pos : Nat} : pos ∈ m.firstLevelSemicolons region ↔ EndsStatement m.masked region pos :=
    mem_firstLevelSemicolons_iff inside
  have ascending := pairwise_firstLevelSemicolons m region
  rw [MaskedSource.statementEnd?, if_pos ⟨ordered, inside⟩]
  cases found : m.firstLevelSemicolons region with
  | nil =>
    refine .inr ⟨fun pos stops => ?_, rfl⟩
    have mem := ends.mpr stops
    rw [found] at mem
    exact List.not_mem_nil mem
  | cons first more =>
    rw [found] at ascending
    refine .inl ⟨first, ends.mp (found ▸ List.mem_cons_self), fun q stops => ?_, rfl⟩
    have mem := ends.mpr stops
    rw [found] at mem
    rcases List.mem_cons.mp mem with rfl | later
    · exact Nat.le_refl q
    · exact Nat.le_of_lt ((List.pairwise_cons.mp ascending).1 q later)

theorem firstLevelBlocks_depth_broken :
    (1 ≤ 8 ∧ 8 ≤ Text.size "a\x7d\x7bé;\x7d;\x7b".toList) ∧
      firstLevelBlocks "a\x7d\x7bé;\x7d;\x7b".toList ⟨1, 8⟩ = [⟨2, 7⟩] ∧
      0 < depthBetween "a\x7d\x7bé;\x7d;\x7b".toList 1 5 ∧
      (MaskedSource.mk [] "a\x7d\x7bé;\x7d;\x7b".toList).statementEnd? 1 8 = some 8 := by
  have inside : 1 ≤ 8 ∧ 8 ≤ Text.size "a\x7d\x7bé;\x7d;\x7b".toList := by decide
  obtain ⟨-, -, nested, ends⟩ :=
    firstLevelBlocks_depth "a\x7d\x7bé;\x7d;\x7b".toList ⟨1, 8⟩ inside.1 inside.2
  have deep := (nested 5 (by decide) (by decide)).mp (by decide)
  have only : ∀ pos < 8, EndsStatement "a\x7d\x7bé;\x7d;\x7b".toList ⟨1, 8⟩ pos ↔ pos = 7 := by decide
  refine ⟨inside, by decide, deep, ?_⟩
  rcases ends ⟨[], _⟩ rfl with ⟨pos, stops, -, found⟩ | ⟨none, -⟩
  · obtain rfl : pos = 7 := (only pos stops.2.1).mp stops
    exact found
  · exact absurd ((only 7 (by decide)).mpr rfl) (none 7)

end

end SourceTree.Scan
