import SourceTree.Proofs.Go.Header
import SourceTree.Proofs.Pattern.Prefers

/-!
What stands in front of the path of a Go import. An import is read from what follows its keyword, and
a second time together with the keyword. The second reading misses those whose keyword is not set off
by blanks from what follows, and those with the keyword twice in front of a name.
-/

namespace SourceTree.Go

open Pattern
open Text (Opens Closes Gap)

variable {cs w g y front path rest gap : Text} {gs : Groups} {m : Match} {offset : Nat}

/-! ### What stands in front of a path -/

/-- What a package can be called: a name or a point. -/
def isAlias (w : Text) : Bool :=
  w == ['.'] || (w.head?.any Text.isNameStart && w.all Text.isWord)

/-- What can stand in front of the path of an import. The keyword is a name as well. -/
inductive Preface : Text → Prop where
  | bare : Preface []
  | named {w g : Text} : isAlias w = true → Gap g → Preface (w ++ g)
  | keyed {w g g' : Text} : Gap g → isAlias w = true → Gap g' →
      Preface ("import".toList ++ (g ++ (w ++ g')))

theorem takes_alias_iff :
    Takes (alt name (lit ".")) offset w gs ↔ isAlias w = true ∧ gs = [] := by
  rw [isAlias, Bool.or_eq_true, Bool.and_eq_true, beq_iff_eq, List.all_eq_true]
  constructor
  · intro h
    rcases h with ⟨u, v, g, g', rfl, rfl, ⟨c, rfl, first, rfl⟩, more⟩ | point
    · obtain ⟨words, rfl⟩ := takes_star_one more
      refine ⟨.inr ⟨by simpa using first, ?_⟩, rfl⟩
      intro x hx
      rcases List.mem_cons.mp hx with rfl | hx
      · exact Text.isWord_of_isNameStart first
      · exact words x hx
    · obtain ⟨rfl, rfl⟩ := takes_lit point
      exact ⟨.inl rfl, rfl⟩
  · rintro ⟨rfl | ⟨first, words⟩, rfl⟩
    · exact .inr (Takes.of_lit "." offset)
    · cases w with
      | nil => simp at first
      | cons c w =>
        refine .inl ⟨[c], w, [], [], rfl, rfl, ⟨c, rfl, by simpa using first, rfl⟩, ?_⟩
        exact Takes.of_star_one _ fun x hx => words x (by simp [hx])

/-- The pattern of what stands in front of a path. -/
def preface : Pattern :=
  opt (lit "import" ++ blanks1) ++ opt (group 1 (alt name (lit ".")) ++ blanks1)

theorem preface_of_takes (h : Takes preface offset w gs) : Preface w := by
  obtain ⟨u, v, _, _, rfl, rfl, hu, hv⟩ := h
  have keyword : u = [] ∨ ∃ g, Gap g ∧ u = "import".toList ++ g := by
    rcases hu with ⟨k, g, _, _, rfl, -, hk, hg⟩ | ⟨rfl, -⟩
    · obtain ⟨rfl, -⟩ := takes_lit hk
      exact .inr ⟨g, (takes_blanks1_iff.mp hg).1, rfl⟩
    · exact .inl rfl
  have naming : v = [] ∨ ∃ a g, isAlias a = true ∧ Gap g ∧ v = a ++ g := by
    rcases hv with ⟨a, g, _, _, rfl, -, ⟨_, -, ha⟩, hg⟩ | ⟨rfl, -⟩
    · exact .inr ⟨a, g, (takes_alias_iff.mp ha).1, (takes_blanks1_iff.mp hg).1, rfl⟩
    · exact .inl rfl
  rcases keyword with rfl | ⟨g, hg, rfl⟩
  · rcases naming with rfl | ⟨a, g', ha, hg', rfl⟩
    · exact .bare
    · rw [List.nil_append]
      exact .named ha hg'
  · rcases naming with rfl | ⟨a, g', ha, hg', rfl⟩
    · rw [List.append_nil]
      exact .named (by decide) hg
    · rw [List.append_assoc]
      exact .keyed hg ha hg'

theorem Preface.takes (h : Preface w) (offset : Nat) : ∃ gs, Takes preface offset w gs := by
  have nothing {p : Pattern} {offset : Nat} : Takes (opt p) offset [] [] := .inr ⟨rfl, rfl⟩
  have naming {a g : Text} (offset : Nat) (ha : isAlias a = true) (hg : Gap g) :
      Takes (opt (group 1 (alt name (lit ".")) ++ blanks1)) offset (a ++ g) [(1, ⟨offset, a⟩)] := by
    refine .inl ⟨a, g, [(1, ⟨offset, a⟩)], [], rfl, rfl, ⟨[], rfl, ?_⟩, ?_⟩
    · exact takes_alias_iff.mpr ⟨ha, rfl⟩
    · exact takes_blanks1_iff.mpr ⟨hg, rfl⟩
  cases h with
  | bare => exact ⟨[], [], [], [], [], rfl, rfl, nothing, nothing⟩
  | named ha hg => exact ⟨_, [], _, [], _, rfl, rfl, nothing, naming _ ha hg⟩
  | @keyed a g g' hg ha hg' =>
    refine ⟨_, "import".toList ++ g, a ++ g', [], _, by simp, rfl, .inl ?_, naming _ ha hg'⟩
    exact ⟨_, g, [], [], rfl, rfl, .of_lit "import" offset, takes_blanks1_iff.mpr ⟨hg, rfl⟩⟩

/-! ### Reading a path -/

theorem importSpec_eq : importSpec =
    preface ++ lit "\x22" ++ group 2 (star (noneOf ['\x22'])) ++ lit "\x22" := rfl

/-- The path lies between the first two quotes. -/
theorem importSpec_reads (h : importSpec.matchFront? cs = some m) : ∃ front path rest,
    cs = front ++ '\x22' :: (path ++ '\x22' :: rest) ∧ Preface front ∧ '\x22' ∉ front ∧
      '/' ∉ front ∧ '\x22' ∉ path ∧ m.groupText 2 = path := by
  obtain ⟨rest, split, -, takes⟩ := matchFront?_takes h
  rw [importSpec_eq, takes_assoc] at takes
  obtain ⟨u, path, v, _, _, _, whole, found, hu, hp, hv⟩ := Scan.takes_group takes (by decide)
  obtain ⟨front, _, _, _, rfl, -, hf, opening⟩ := hu
  obtain ⟨rfl, -⟩ := takes_lit opening
  obtain ⟨rfl, -⟩ := takes_lit hv
  refine ⟨front, path, rest, ?_, preface_of_takes hf, hf.not_mem (by decide),
    hf.not_mem (by decide), hp.not_mem (by decide), ?_⟩
  · rw [split, whole]
    simp
  · rw [Match.groupText, Match.group?, found]
    rfl

theorem importSpec_isSome (hf : Preface front) (hp : '\x22' ∉ path) :
    (importSpec.matchFront? (front ++ '\x22' :: (path ++ '\x22' :: rest))).isSome := by
  have plain : ∀ c ∈ path, (fun c => !(['\x22'].contains c)) c = true := by
    intro c hc
    have other : c ≠ '\x22' := fun same => hp (same ▸ hc)
    simp [other]
  obtain ⟨gs, takes⟩ := hf.takes 0
  have opened : Takes (preface ++ lit "\x22") 0 (front ++ ['\x22']) gs :=
    ⟨front, ['\x22'], gs, [], rfl, rfl, takes, .of_lit "\x22" _⟩
  have quoted : Takes (preface ++ lit "\x22" ++ group 2 (star (noneOf ['\x22']))) 0
      (front ++ ['\x22'] ++ path) ((2, ⟨0 + Text.size (front ++ ['\x22']), path⟩) :: gs) :=
    ⟨_, path, gs, [_], rfl, rfl, opened, [], rfl, Takes.of_star_one _ plain⟩
  have whole : Takes importSpec 0 (front ++ ['\x22'] ++ path ++ ['\x22']) _ :=
    ⟨_, ['\x22'], _, [], rfl, rfl, quoted, .of_lit "\x22" _⟩
  apply (matchFront?_isSome_iff (by decide)).mpr
  exact ⟨_, rest, _, by simp, whole⟩

/-- The second reading finds the path exactly if what stands in front of it is as it should be. -/
theorem importSpec_matchFront? (hf : '\x22' ∉ front) (hp : '\x22' ∉ path) :
    (Preface front → ∃ m, importSpec.matchFront? (front ++ '\x22' :: (path ++ '\x22' :: rest)) =
      some m ∧ m.groupText 2 = path) ∧
    (¬Preface front →
      importSpec.matchFront? (front ++ '\x22' :: (path ++ '\x22' :: rest)) = none) := by
  -- The first two quotes are found at the same places by every match.
  have reads {m : Match}
      (h : importSpec.matchFront? (front ++ '\x22' :: (path ++ '\x22' :: rest)) = some m) :
      Preface front ∧ m.groupText 2 = path := by
    obtain ⟨front', path', rest', split, preface, hf', -, hp', named⟩ := importSpec_reads h
    have unquoted {t : Text} (ht : '\x22' ∉ t) : ∀ c ∈ t, (c != '\x22') = true := by
      intro c hc
      exact bne_iff_ne.mpr fun same => ht (same ▸ hc)
    have quote (t : Text) : Opens (fun c => (c != '\x22') = false) ('\x22' :: t) :=
      ⟨'\x22', t, rfl, by decide⟩
    obtain ⟨rfl, behind⟩ := Text.span_unique split (unquoted hf) (unquoted hf') (quote _) (quote _)
    obtain ⟨rfl, -⟩ := Text.span_unique (List.cons.inj behind).2 (unquoted hp) (unquoted hp')
      (quote _) (quote _)
    exact ⟨preface, named⟩
  constructor
  · intro preface
    obtain ⟨m, found⟩ := Option.isSome_iff_exists.mp (importSpec_isSome preface hp)
    exact ⟨m, found, (reads found).2⟩
  · intro other
    cases found : importSpec.matchFront? (front ++ '\x22' :: (path ++ '\x22' :: rest)) with
    | none => rfl
    | some m => exact absurd (reads found).1 other

/-! ### Texts that cannot be read again -/

/-- Whether a text begins with the keyword, set off by blanks, and no path follows at once. -/
def repeatsKeyword (text : Text) : Bool :=
  (Text.after? text "import".toList).any fun rest =>
    rest.head?.any Text.isBlank && (Text.trimStart rest).head? != some '\x22'

/-- Whether the keyword of an import cannot be told from what follows: it runs into the path or a
point, a comment follows, or it is repeated in front of a name. -/
def blurs (rest : Text) : Bool :=
  rest.head? == some '\x22' || rest.head? == some '.' ||
    (Text.trimStart rest).head? == some '/' || repeatsKeyword (Text.trimStart rest)

/-- Whether an import cannot be read again from this text. -/
def isGarbled (text : Text) : Bool := (Text.after? text "import".toList).any blurs

/-- A word that can stand in front of a path, or the end of one. -/
structure Spelt (z : Text) : Prop where
  nonempty : z ≠ []
  inked : ∀ c ∈ z, Inked c
  other : ∀ c ∈ z, c ≠ '\x22' ∧ c ≠ '/'

theorem spelt_of_words {z : Text} (full : z ≠ []) (words : ∀ c ∈ z, Text.isWord c = true) :
    Spelt z := by
  refine ⟨full, fun c hc => inked_of_isWord (words c hc), fun c hc => ?_⟩
  have word := words c hc
  constructor
  · rintro rfl
    exact absurd word (by decide)
  · rintro rfl
    exact absurd word (by decide)

/-- A name is a point or a word. -/
theorem words_of_isAlias (h : isAlias w = true) :
    w = ['.'] ∨ w ≠ [] ∧ ∀ c ∈ w, Text.isWord c = true := by
  rw [isAlias, Bool.or_eq_true, Bool.and_eq_true, beq_iff_eq, List.all_eq_true] at h
  rcases h with point | ⟨first, words⟩
  · exact .inl point
  · refine .inr ⟨?_, words⟩
    rintro rfl
    simp at first

theorem spelt_of_isAlias (h : isAlias w = true) : Spelt w := by
  rcases words_of_isAlias h with rfl | ⟨full, words⟩
  · exact ⟨by simp, by simp [Inked]; decide, by simp⟩
  · exact spelt_of_words full words

theorem Spelt.opens {z : Text} (h : Spelt z) :
    Opens (fun c => Inked c ∧ c ≠ '\x22' ∧ c ≠ '/') z := by
  cases z with
  | nil => exact absurd rfl h.nonempty
  | cons c z => exact ⟨c, z, rfl, h.inked c (by simp), h.other c (by simp)⟩

theorem trimStart_gap (blank : ∀ c ∈ gap, Text.isBlank c = true) (opens : Opens Inked cs) :
    Text.trimStart (gap ++ cs) = cs := by
  have skipped : Text.trimStart (gap ++ cs) = Text.trimStart cs := List.dropWhile_append_of_pos blank
  rw [skipped, Text.trimStart_of_opens opens]

/-- The keyword at the front of a word that ends with blanks is the front of the word. -/
theorem after?_keyword (h : Text.after? (w ++ (g ++ y)) "import".toList = some rest) (hg : Gap g) :
    ∃ z, w = "import".toList ++ z ∧ rest = z ++ (g ++ y) := by
  rcases List.append_eq_append_iff.mp (Text.after?_eq_some h) with ⟨more, short, hr⟩ | ⟨z, hw, hr⟩
  · cases more with
    | nil => exact ⟨[], by simpa using short.symm, hr.symm⟩
    | cons x more =>
      obtain ⟨c, g, rfl, blank⟩ := hg.opens
      obtain ⟨rfl, -⟩ := List.cons.inj hr
      have letters : ∀ c ∈ "import".toList, Inked c := by simp [Inked]; decide
      have code : Inked c := letters c (by rw [short]; simp)
      rw [Inked, blank] at code
      cases code
  · exact ⟨z, hw, hr⟩

theorem repeatsKeyword_word (inked : ∀ c ∈ w, Inked c) (hg : Gap g) (y : Text) :
    repeatsKeyword (w ++ (g ++ '\x22' :: y)) = false := by
  unfold repeatsKeyword
  cases after : Text.after? (w ++ (g ++ '\x22' :: y)) "import".toList with
  | none => rfl
  | some rest =>
    obtain ⟨z, rfl, rfl⟩ := after?_keyword after hg
    cases z with
    | nil =>
      have path : Text.trimStart (g ++ '\x22' :: y) = '\x22' :: y :=
        trimStart_gap hg.blank ⟨'\x22', y, rfl, by decide⟩
      simp [path]
    | cons c z =>
      have code : Text.isBlank c = false := inked c (by simp)
      simp [code]

/-- The keyword is set off from a word, or the word goes on from it, and the path follows. -/
theorem blurs_word {z : Text} (blank : ∀ c ∈ gap, Text.isBlank c = true) (hz : Spelt z)
    (point : gap = [] → z.head? ≠ some '.') (hg : Gap g) (y : Text) :
    blurs (gap ++ (z ++ (g ++ '\x22' :: y))) = false := by
  have once := repeatsKeyword_word hz.inked hg y
  obtain ⟨c, z, rfl, code, quote, slash⟩ := hz.opens
  have word : Text.trimStart (gap ++ (c :: z ++ (g ++ '\x22' :: y))) = c :: z ++ (g ++ '\x22' :: y) :=
    trimStart_gap blank ⟨c, _, rfl, code⟩
  rw [blurs, word, once]
  cases gap with
  | nil =>
    have other : c ≠ '.' := by simpa using point rfl
    simp [quote, slash, other]
  | cons b gap =>
    have set : b ≠ '\x22' ∧ b ≠ '.' := by
      have first := blank b (by simp)
      constructor <;> rintro rfl <;> exact absurd first (by decide)
    simp [slash, set]

/-- The keyword is set off from the path. -/
theorem blurs_path (hg : Gap g) (y : Text) : blurs (g ++ '\x22' :: y) = false := by
  have path : Text.trimStart (g ++ '\x22' :: y) = '\x22' :: y :=
    trimStart_gap hg.blank ⟨'\x22', y, rfl, by decide⟩
  obtain ⟨b, g, rfl, blank⟩ := hg.opens
  have set : b ≠ '\x22' ∧ b ≠ '.' := by
    constructor <;> rintro rfl <;> exact absurd blank (by decide)
  rw [blurs, path]
  simp [set, repeatsKeyword, Text.after?]

theorem blurs_slash (blank : ∀ c ∈ gap, Text.isBlank c = true) (y : Text) :
    blurs (gap ++ '/' :: y) = true := by
  have slash : Text.trimStart (gap ++ '/' :: y) = '/' :: y :=
    trimStart_gap blank ⟨'/', y, rfl, by decide⟩
  simp [blurs, slash]

theorem blurs_twice {z : Text} (blank : ∀ c ∈ gap, Text.isBlank c = true) (hg : Gap g)
    (hz : Spelt z) (y : Text) : blurs (gap ++ ("import".toList ++ (g ++ (z ++ y)))) = true := by
  have keyword : Text.trimStart (gap ++ ("import".toList ++ (g ++ (z ++ y)))) =
      "import".toList ++ (g ++ (z ++ y)) := trimStart_gap blank ⟨'i', _, rfl, by decide⟩
  obtain ⟨c, z, rfl, code, quote, -⟩ := hz.opens
  have word : Text.trimStart (g ++ (c :: z ++ y)) = c :: z ++ y :=
    trimStart_gap hg.blank ⟨c, _, rfl, code⟩
  obtain ⟨b, g, rfl, first⟩ := hg.opens
  have twice : repeatsKeyword ("import".toList ++ (b :: g ++ (c :: z ++ y))) = true := by
    rw [repeatsKeyword, Text.after?_append, Option.any_some, word]
    simp [first, quote]
  rw [blurs, keyword, twice, Bool.or_true]

/-- What the parser takes for an import without its keyword can always be read again. -/
theorem isGarbled_of_preface (h : Preface front) (y : Text) :
    isGarbled (front ++ '\x22' :: y) = false := by
  cases h with
  | bare => simp [isGarbled, Text.after?]
  | @named w g hw hg =>
    rw [List.append_assoc]
    unfold isGarbled
    cases after : Text.after? (w ++ (g ++ '\x22' :: y)) "import".toList with
    | none => rfl
    | some rest =>
      obtain ⟨z, rfl, rfl⟩ := after?_keyword after hg
      rcases words_of_isAlias hw with point | ⟨-, words⟩
      · simp at point
      · cases z with
        | nil => exact blurs_path hg y
        | cons c z =>
          have word : ∀ x ∈ c :: z, Text.isWord x = true := fun x hx => words x (by simp [hx])
          have other : c ≠ '.' := by
            rintro rfl
            exact absurd (word '.' (by simp)) (by decide)
          have clear : blurs ([] ++ (c :: z ++ (g ++ '\x22' :: y))) = false :=
            blurs_word (by simp) (spelt_of_words (by simp) word) (by simpa using other) hg y
          exact clear
  | @keyed w g g' hg hw hg' =>
    rw [List.append_assoc, List.append_assoc, List.append_assoc, isGarbled, Text.after?_append]
    exact blurs_word hg.blank (spelt_of_isAlias hw) (fun none => absurd none hg.nonempty) hg' y

/-- A text has only one first word. -/
theorem word_unique {x b r s : Text} (h : x ++ (b ++ r) = w ++ (g ++ s)) (hx : Spelt x)
    (hw : Spelt w) (hb : Gap b) (hg : Gap g) : x = w ∧ b ++ r = g ++ s :=
  Text.word_unique h ⟨hx.nonempty, hx.inked⟩ ⟨hw.nonempty, hw.inked⟩ (hb.opens.append r)
    (hg.opens.append s)

/-- No word is made of blanks. -/
theorem gap_not_word (hg : Gap g) {u v : Text} (hw : Spelt w) : g ≠ u ++ (w ++ v) := by
  rintro rfl
  obtain ⟨c, r, rfl, code, -⟩ := hw.opens
  have blank := hg.blank c (by simp)
  rw [Inked, blank] at code
  cases code

/-- The first word of what stands in front of a path is a name, and if more follows it is the keyword
and a single name follows. -/
theorem Preface.first {x b : Text} (h : Preface (x ++ (b ++ rest))) (hx : Spelt x) (hb : Gap b)
    (hr : rest = [] ∨ Opens Inked rest) :
    isAlias x = true ∧ (rest = [] ∨ x = "import".toList ∧
      ∃ w g, isAlias w = true ∧ Gap g ∧ rest = w ++ g) := by
  generalize hf : x ++ (b ++ rest) = f at h
  cases h with
  | bare => simp [hx.nonempty] at hf
  | @named w g hw hg =>
    have same : x ++ (b ++ rest) = w ++ (g ++ []) := by rw [hf, List.append_nil]
    obtain ⟨rfl, behind⟩ := word_unique same hx (spelt_of_isAlias hw) hb hg
    refine ⟨hw, .inl (hr.resolve_right ?_)⟩
    rintro ⟨c, r, rfl, code⟩
    have mem : c ∈ g := by
      rw [List.append_nil] at behind
      simp [← behind]
    rw [Inked, hg.blank c mem] at code
    cases code
  | @keyed w g g' hg hw hg' =>
    have spelt := spelt_of_isAlias hw
    obtain ⟨rfl, behind⟩ := word_unique hf hx (spelt_of_isAlias (by decide)) hb hg
    rcases hr with rfl | opens
    · rw [List.append_nil] at behind
      exact absurd behind (gap_not_word hb spelt)
    · have word : Opens Inked (w ++ g') := (spelt.opens.mono fun c hc => hc.1).append g'
      obtain ⟨-, same⟩ := Text.span_unique behind hb.blank hg.blank opens word
      exact ⟨by decide, .inr ⟨rfl, w, g', hw, hg', same⟩⟩

theorem Preface.closes (h : Preface front) :
    front = [] ∨ Closes (fun c => Text.isBlank c = true) front := by
  have ends {g : Text} (hg : Gap g) : Closes (fun c => Text.isBlank c = true) g := by
    obtain ⟨init, c, rfl⟩ := (List.eq_nil_or_concat g).resolve_left hg.nonempty
    exact ⟨init, c, by simp, hg.blank c (by simp)⟩
  cases h with
  | bare => exact .inl rfl
  | named _ hg => exact .inr ((ends hg).append _)
  | keyed _ _ hg => exact .inr ((((ends hg).append _).append _).append _)

/-- Where a keyword runs into what the parser takes for an import, only a longer name comes of it. -/
theorem blurs_joined (h : Preface front) (y : Text) :
    blurs (front ++ '\x22' :: y) = true ↔ ¬Preface ("import".toList ++ front) := by
  cases h with
  | bare =>
    apply iff_of_true rfl
    intro preface
    rcases preface.closes with none | ⟨init, c, split, last⟩
    · simp at none
    · obtain ⟨-, same⟩ := List.append_inj' (show "impor".toList ++ ['t'] = init ++ [c] from split) rfl
      obtain rfl := List.singleton_inj.mp same
      exact absurd last (by decide)
  | @named w g hw hg =>
    rcases words_of_isAlias hw with rfl | ⟨full, words⟩
    · apply iff_of_true rfl
      intro preface
      have long : Spelt "import.".toList := ⟨by simp, by simp [Inked]; decide, by simp⟩
      have whole : Preface ("import.".toList ++ (g ++ [])) := by simpa using preface
      exact absurd (whole.first long hg (.inl rfl)).1 (by decide)
    · have spelt := spelt_of_words full words
      have point : w.head? ≠ some '.' := by
        intro head
        exact absurd (words '.' (List.mem_of_head? head)) (by decide)
      have clear : blurs ([] ++ (w ++ (g ++ '\x22' :: y))) = false :=
        blurs_word (by simp) spelt (fun _ => point) hg y
      have longer : isAlias ("import".toList ++ w) = true := by
        have all : w.all Text.isWord = true := List.all_eq_true.mpr words
        simp only [isAlias, List.all_append, all, Bool.and_true, Bool.or_eq_true]
        exact .inr rfl
      apply iff_of_false
      · rw [List.append_assoc]
        exact Bool.eq_false_iff.mp clear
      · rw [Classical.not_not, ← List.append_assoc]
        exact .named longer hg
  | @keyed w g g' hg hw hg' =>
    have spelt := spelt_of_isAlias hw
    have twice : blurs ([] ++ ("import".toList ++ (g ++ (w ++ (g' ++ '\x22' :: y))))) = true :=
      blurs_twice (by simp) hg spelt _
    apply iff_of_true
    · simpa using twice
    · intro preface
      have long : Spelt "importimport".toList := spelt_of_isAlias (by decide)
      have whole : Preface ("importimport".toList ++ (g ++ (w ++ g'))) := preface
      have opens : Opens Inked (w ++ g') := (spelt.opens.mono fun c hc => hc.1).append g'
      rcases (whole.first long hg (.inr opens)).2 with none | ⟨keyword, -⟩
      · simp [spelt.nonempty] at none
      · exact absurd keyword (by decide)

/-- Where blanks set the keyword off, all can be read again but a second keyword in front of a name. -/
theorem blurs_apart (hgap : Gap gap) (h : Preface front) (y : Text) :
    blurs (gap ++ (front ++ '\x22' :: y)) = true ↔ ¬Preface ("import".toList ++ (gap ++ front)) := by
  cases h with
  | bare =>
    apply iff_of_false
    · exact Bool.eq_false_iff.mp (blurs_path hgap y)
    · rw [Classical.not_not, List.append_nil]
      exact .named (by decide) hgap
  | @named w g hw hg =>
    apply iff_of_false
    · rw [List.append_assoc]
      apply Bool.eq_false_iff.mp
      exact blurs_word hgap.blank (spelt_of_isAlias hw) (fun none => absurd none hgap.nonempty) hg y
    · exact Classical.not_not.mpr (.keyed hgap hw hg)
  | @keyed w g g' hg hw hg' =>
    have spelt := spelt_of_isAlias hw
    apply iff_of_true
    · simpa using blurs_twice hgap.blank hg spelt (g' ++ '\x22' :: y)
    · intro preface
      have keyword : Spelt "import".toList := spelt_of_isAlias (by decide)
      have opens : Opens Inked ("import".toList ++ (g ++ (w ++ g'))) := ⟨'i', _, rfl, by decide⟩
      rcases (preface.first keyword hgap (.inr opens)).2 with none | ⟨-, w', g'', hw', hg'', split⟩
      · simp at none
      · -- Two names follow the keyword, where only one may.
        rw [← List.append_nil g''] at split
        obtain ⟨-, behind⟩ := word_unique split keyword (spelt_of_isAlias hw') hg hg''
        rw [List.append_nil] at behind
        exact gap_not_word hg'' spelt behind.symm

/-! ### The texts of nodes -/

/-- The text is read again as an import of this path unless it is garbled, and then it is not read. -/
def ReadsAgain (t path : Text) : Prop :=
  if isGarbled t then importSpec.matchFront? (Text.trim t) = none
  else ∃ m, importSpec.matchFront? (Text.trim t) = some m ∧ m.groupText 2 = path

theorem readsAgain_of_front {t : Text} (split : t = front ++ '\x22' :: (path ++ '\x22' :: rest))
    (opens : Opens Inked t) (hf : '\x22' ∉ front) (hp : '\x22' ∉ path)
    (garbled : isGarbled t = true ↔ ¬Preface front) : ReadsAgain t path := by
  obtain ⟨rest', trimmed⟩ : ∃ rest',
      Text.trim t = front ++ '\x22' :: (path ++ '\x22' :: rest') := by
    have closing : t = (front ++ '\x22' :: path) ++ '\x22' :: rest := by simp [split]
    rw [closing] at opens ⊢
    obtain ⟨rest', -, same⟩ := Text.exists_trim opens (by decide)
    exact ⟨rest', by rw [same]; simp⟩
  have again := @importSpec_matchFront? front path rest' hf hp
  rw [ReadsAgain, trimmed]
  split
  next yes => exact again.2 (garbled.mp yes)
  next no => exact again.1 (Classical.not_not.mp fun other => no (garbled.mpr other))

theorem Preface.opens (h : Preface front) (y : Text) : Opens Inked (front ++ '\x22' :: y) := by
  cases h with
  | bare => exact ⟨'\x22', y, rfl, by decide⟩
  | named hw _ =>
    have opens := (spelt_of_isAlias hw).opens.mono fun c hc => hc.1
    exact (opens.append _).append _
  | keyed => exact ⟨'i', _, rfl, by decide⟩

/-- An import in a group is all of its text. -/
theorem readsAgain_item (found : importSpec.matchFront? cs = some m) :
    ReadsAgain cs (m.groupText 2) := by
  obtain ⟨front, path, rest, rfl, preface, hf, -, hp, rfl⟩ := importSpec_reads found
  apply readsAgain_of_front rfl (preface.opens _) hf hp
  apply iff_of_false
  · exact Bool.eq_false_iff.mp (isGarbled_of_preface preface _)
  · exact Classical.not_not.mpr preface

theorem not_mem_gap (blank : ∀ c ∈ gap, Text.isBlank c = true) {x : Char} (hx : Inked x) :
    x ∉ gap := by
  intro mem
  rw [Inked, blank x mem] at hx
  cases hx

/-- An import of its own has the keyword in front. -/
theorem readsAgain_keyed (found : importSpec.matchFront? cs = some m)
    (blank : ∀ c ∈ gap, Text.isBlank c = true) :
    ReadsAgain ("import".toList ++ (gap ++ cs)) (m.groupText 2) := by
  obtain ⟨front, path, rest, rfl, preface, hf, -, hp, named⟩ := importSpec_reads found
  rw [named]
  have opens (t : Text) : Opens Inked ("import".toList ++ t) := ⟨'i', _, rfl, by decide⟩
  have unquoted : '\x22' ∉ "import".toList ++ (gap ++ front) := by
    have clear : '\x22' ∉ gap := not_mem_gap blank (by decide)
    simp [clear, hf]
  have split : "import".toList ++ (gap ++ (front ++ '\x22' :: (path ++ '\x22' :: rest))) =
      ("import".toList ++ (gap ++ front)) ++ '\x22' :: (path ++ '\x22' :: rest) := by simp
  apply readsAgain_of_front split (opens _) unquoted hp
  rw [isGarbled, Text.after?_append, Option.any_some]
  by_cases joined : gap = []
  · subst joined
    exact blurs_joined preface _
  · exact blurs_apart ⟨joined, blank⟩ preface _

/-- A comment behind the keyword hides all that follows. -/
theorem readsAgain_slash (blank : ∀ c ∈ gap, Text.isBlank c = true) (b path : Text) :
    ReadsAgain ("import".toList ++ (gap ++ '/' :: b)) path := by
  have garbled : isGarbled ("import".toList ++ (gap ++ '/' :: b)) = true := by
    rw [isGarbled, Text.after?_append]
    exact blurs_slash blank b
  have opens : Opens Inked (("import".toList ++ gap) ++ '/' :: b) := ⟨'i', _, rfl, by decide⟩
  obtain ⟨b', -, trimmed⟩ := Text.exists_trim opens (by decide)
  rw [ReadsAgain, if_pos garbled, ← List.append_assoc, trimmed]
  cases found : importSpec.matchFront? (("import".toList ++ gap) ++ '/' :: b') with
  | none => rfl
  | some m =>
    obtain ⟨front, path, rest, split, -, -, slash, -⟩ := importSpec_reads found
    have quoted : (front ++ ['\x22']) ++ (path ++ '\x22' :: rest) =
        ("import".toList ++ gap) ++ '/' :: b' := by rw [split]; simp
    obtain ⟨more, early⟩ := Text.prefix_of_not_mem quoted (by simp [slash])
    have mem : '\x22' ∈ "import".toList ++ gap := by rw [← early]; simp
    have clear : '\x22' ∉ gap := not_mem_gap blank (by decide)
    simp [clear] at mem

end SourceTree.Go
