import SourceTree.Proofs.Script.Clause

/-!
Reading import statements. Every statement that is written with blanks between its words is read as
what it states, whatever the names are, save that a default binding called `type` is taken for the
keyword.
-/

namespace SourceTree

open Text (Solid Spaced Opens Closes)

namespace Script

open Pattern

variable {w rest t : Text}

/-! ### Sources -/

/-- A source in quotes. -/
def quotation (q : Char) (source : Text) : Text := [q] ++ source ++ [q]

/-- A source that can stand in quotes. -/
structure IsSource (source : Text) : Prop where
  nonempty : source ≠ []
  unquoted : ∀ c ∈ source, isQuote c = false

instance (source : Text) : Decidable (IsSource source) :=
  decidable_of_iff (source ≠ [] ∧ source.all (fun c => !isQuote c) = true)
    ⟨fun h => ⟨h.1, by simpa using h.2⟩, fun h => ⟨h.1, by simpa using h.2⟩⟩

theorem isBlank_of_isQuote {q : Char} (hq : isQuote q = true) : Text.isBlank q = false := by
  rcases (Bool.or_eq_true_iff ..).mp hq with h | h <;> rw [beq_iff_eq.mp h] <;> decide

theorem quotation_closes {q : Char} (hq : isQuote q = true) (source : Text) :
    Closes (fun c => Text.isBlank c = false) (quotation q source) :=
  ⟨[q] ++ source, q, rfl, isBlank_of_isQuote hq⟩

theorem not_isQuote_of_blank {c : Char} (h : Text.isBlank c = true) : isQuote c = false := by
  rw [Bool.eq_false_iff]
  intro hq
  rw [isBlank_of_isQuote hq] at h
  cases h

theorem noneOf_quotes {c : Char} : (!(['\x27', '\x22'].contains c)) = !isQuote c := by
  rw [Bool.eq_iff_iff]
  simp [isQuote]

section

variable {q : Char} {source : Text} (hq : isQuote q = true) (hs : IsSource source)

include hq hs

theorem quoted_prefers (slot : Nat) (rest : Text) :
    Prefers (quoted slot) (quotation q source) rest [(slot, source)] := by
  have inside : Prefers (plus (noneOf ['\x27', '\x22'])) source ([q] ++ rest) [] := by
    refine prefers_plus_one hs.nonempty (fun c hc => ?_) ?_
    · rw [noneOf_quotes, hs.unquoted c hc]
      rfl
    · intro c hc
      obtain rfl : q = c := by simpa using hc
      rw [noneOf_quotes, hq]
      rfl
  exact ((prefers_one hq _).seq (inside.group slot)).seq (prefers_one hq rest)

theorem fromClause_prefers (hg : ∀ c ∈ w, Text.isBlank c = true) (slot : Nat) (rest : Text) :
    Prefers (fromClause slot) ("from".toList ++ w ++ quotation q source) rest [(slot, source)] := by
  have opens : Opens (fun c => Text.isBlank c = false) (quotation q source ++ rest) :=
    ⟨q, _, rfl, isBlank_of_isQuote hq⟩
  exact ((prefers_lit "from" _).seq (prefers_blanks opens hg)).seq (quoted_prefers hq hs slot rest)

theorem sideEffectImport_prefers (hg : ∀ c ∈ w, Text.isBlank c = true) (rest : Text) :
    Prefers sideEffectImport ("import".toList ++ w ++ quotation q source) rest [(1, source)] := by
  have opens : Opens (fun c => Text.isBlank c = false) (quotation q source ++ rest) :=
    ⟨q, _, rfl, isBlank_of_isQuote hq⟩
  exact ((prefers_lit "import" _).seq (prefers_blanks opens hg)).seq (quoted_prefers hq hs 1 rest)

end

/-- The `from` in front of the first quote stands at one place only. -/
theorem from_unique {b b' u g r r' : Text} {q q' : Char}
    (h : b ++ ("from".toList ++ (b' ++ q :: r)) = u ++ ("from".toList ++ (g ++ q' :: r')))
    (hb : ∀ c ∈ b, Text.isBlank c = true) (hb' : ∀ c ∈ b', Text.isBlank c = true)
    (hg : ∀ c ∈ g, Text.isBlank c = true) (hu : ∀ c ∈ u, isQuote c = false)
    (hq : isQuote q = true) (hq' : isQuote q' = true) : b = u := by
  have word : ∀ c ∈ "from".toList, isQuote c = false := by simp [isQuote]
  have quote {q : Char} (hq : isQuote q = true) (r : Text) :
      Opens (fun c => (!isQuote c) = false) (q :: r) := ⟨q, r, rfl, by simp [hq]⟩
  have letter : Closes (fun c => Text.isBlank c = false) "from".toList :=
    ⟨"fro".toList, 'm', rfl, by decide⟩
  have unquoted {u g : Text} (hu : ∀ c ∈ u, isQuote c = false)
      (hg : ∀ c ∈ g, Text.isBlank c = true) : ∀ c ∈ u ++ "from".toList ++ g, (!isQuote c) = true := by
    intro c hc
    simp only [List.mem_append] at hc
    rcases hc with (hc | hc) | hc
    · simp [hu c hc]
    · simp [word c hc]
    · simp [not_isQuote_of_blank (hg c hc)]
  have fronts : b ++ "from".toList ++ b' = u ++ "from".toList ++ g := by
    have h' : (b ++ "from".toList ++ b') ++ q :: r = (u ++ "from".toList ++ g) ++ q' :: r' := by
      simpa using h
    have plain : ∀ c ∈ b, isQuote c = false := fun c hc => not_isQuote_of_blank (hb c hc)
    exact (@Text.span_unique (fun c => !isQuote c) _ _ _ _ h' (unquoted plain hb')
      (unquoted hu hg) (quote hq r) (quote hq' r')).1
  have words := (Text.gap_unique_end fronts hb' hg (letter.append b) (letter.append u)).1
  exact List.append_cancel_right words

/-! ### Statements -/

section

variable {u g : Text} {q : Char} (hu : ∀ c ∈ u, isQuote c = false)
  (hg : ∀ c ∈ g, Text.isBlank c = true) (hq : isQuote q = true)

include hu hg hq

/-- In front of the `from` of a statement its pattern finds no other. -/
theorem fromClause_refuses (full : u ≠ []) (rest : Text) :
    Refuses (fromClause 1) (u ++ ("from".toList ++ (g ++ q :: rest))) := by
  rintro _ behind offset gs split ⟨_, _, _, _, rfl, -, ⟨k, b, _, _, rfl, -, hk, hb⟩, quoted⟩
  obtain ⟨_, v, _, _, rfl, -, ⟨_, source, _, _, rfl, -, ⟨q', rfl, hq', -⟩, -⟩, -⟩ := quoted
  obtain ⟨rfl, -⟩ := takes_lit hk
  obtain ⟨blank, -⟩ := takes_star_one hb
  have same := @from_unique [] b u g (source ++ v ++ behind) rest q' q (by rw [split]; simp)
    (by simp) blank hg hu hq' hq
  exact full same.symm

/-- The source of a statement is found behind its first `from` in front of a quote. -/
theorem fromClause_search? {source : Text} (hs : IsSource source) (rest : Text) :
    ∃ m, (fromClause 1).search? (u ++ ("from".toList ++ g ++ quotation q source ++ rest)) = some m ∧
      m.groupText 1 = source := by
  have early (u' v : Text) (split : u = u' ++ v) (full : v ≠ []) :
      Refuses (fromClause 1) (v ++ ("from".toList ++ g ++ quotation q source ++ rest)) := by
    have words : v ++ ("from".toList ++ g ++ quotation q source ++ rest) =
        v ++ ("from".toList ++ (g ++ q :: (source ++ [q] ++ rest))) := by simp [quotation]
    rw [words]
    refine fromClause_refuses (fun x hx => hu x ?_) hg hq full _
    rw [split]
    exact List.mem_append_right u' hx
  obtain ⟨m, found, shows⟩ := (fromClause_prefers hq hs hg 1 rest).search? early
  exact ⟨m, found, shows.groupText 1⟩

/-- The rest of a clause's pattern. -/
def clauseEnd : Pattern := blanks ++ lit "from" ++ blanks ++ one isQuote

theorem clauseEnd_refuses (inked : ¬∀ c ∈ u, Text.isBlank c = true) (rest : Text) :
    Refuses clauseEnd (u ++ ("from".toList ++ (g ++ q :: rest))) := by
  rintro _ behind offset gs split
    ⟨_, _, _, _, rfl, -, ⟨_, b', _, _, rfl, -, ⟨b, k, _, _, rfl, -, hb, hk⟩, hb'⟩, q', rfl, hq', -⟩
  obtain ⟨rfl, -⟩ := takes_lit hk
  obtain ⟨blank, -⟩ := takes_star_one hb
  obtain ⟨blank', -⟩ := takes_star_one hb'
  have same := @from_unique b b' u g behind rest q' q (by rw [split]; simp) blank blank' hg hu hq' hq
  exact inked (same ▸ blank)

omit hu in
theorem clauseEnd_prefers {b : Text} (hb : ∀ c ∈ b, Text.isBlank c = true) (rest : Text) :
    Prefers clauseEnd (b ++ "from".toList ++ g ++ [q]) rest [] := by
  have word : Opens (fun c => Text.isBlank c = false) ("from".toList ++ (g ++ ([q] ++ rest))) :=
    ⟨'f', _, rfl, by decide⟩
  have quote : Opens (fun c => Text.isBlank c = false) ([q] ++ rest) :=
    ⟨q, rest, rfl, isBlank_of_isQuote hq⟩
  exact (((prefers_blanks word hb).seq (prefers_lit "from" _)).seq (prefers_blanks quote hg)).seq
    (prefers_one hq rest)

end

/-- The clause is what stands between the keywords, without the blanks around it. -/
theorem importClause_prefers {a b c g : Text} {q : Char} {said : List (Nat × Text)}
    (ha : Prefers (lit "import" ++ blanks1 ++ typeOnly) a
      (c ++ (b ++ "from".toList ++ g ++ [q]) ++ rest) said)
    (hb : ∀ x ∈ b, Text.isBlank x = true) (hg : ∀ x ∈ g, Text.isBlank x = true)
    (hq : isQuote q = true) (unquoted : ∀ x ∈ c, isQuote x = false)
    (closes : c = [] ∨ Closes (fun x => Text.isBlank x = false) c) :
    Prefers importClause (a ++ (c ++ (b ++ "from".toList ++ g ++ [q]))) rest ((2, c) :: said) := by
  -- No shorter clause has the end of the pattern behind it.
  have early (v v' : Text) (split : c = v ++ v') (full : v' ≠ []) :
      Refuses clauseEnd (v' ++ (b ++ "from".toList ++ g ++ [q] ++ rest)) := by
    have words : v' ++ (b ++ "from".toList ++ g ++ [q] ++ rest) =
        v' ++ b ++ ("from".toList ++ (g ++ q :: rest)) := by simp
    rw [words]
    refine clauseEnd_refuses ?_ hg hq ?_ rest
    · intro x hx
      rcases List.mem_append.mp hx with hx | hx
      · exact unquoted x (by simp [split, hx])
      · exact not_isQuote_of_blank (hb x hx)
    · intro blank
      have nonempty : c ≠ [] := by simp [split, full]
      have ends := closes.resolve_left nonempty
      rw [split] at ends
      obtain ⟨r, x, rfl, inked⟩ := ends.of_append full
      rw [blank x (by simp)] at inked
      cases inked
  have clause : Prefers (group 2 (fewest anything) ++ clauseEnd)
      (c ++ (b ++ "from".toList ++ g ++ [q])) rest [(2, c)] :=
    prefers_fewest_one 2 (fun _ _ => rfl) early (clauseEnd_prefers hg hq hb rest)
  exact ha.seq clause

/-- The marks of import statements. -/
def clauseMarks : List Char := [',', '*', '\x7b', '\x7d']

theorem IsToken.not_isQuote (h : IsToken clauseMarks w) : ∀ c ∈ w, isQuote c = false := by
  intro c hc
  rw [Bool.eq_false_iff]
  intro hq
  rcases (Bool.or_eq_true_iff ..).mp hq with same | same
  · rw [beq_iff_eq.mp same] at hc
    exact h.not_mem (by decide) hc
  · rw [beq_iff_eq.mp same] at hc
    exact h.not_mem (by decide) hc

theorem IsToken.opens (h : IsToken clauseMarks w) :
    Opens (fun c => Text.isBlank c = false ∧ isQuote c = false) w := by
  obtain ⟨c, r, rfl, inked⟩ := (h.solid (by decide)).opens
  exact ⟨c, r, rfl, inked, h.not_isQuote c (by simp)⟩

/-- What stands behind the keyword of an import that binds something. -/
theorem sideEffectImport_refuses {g : Text} (gap : Text.Gap g)
    (opens : Opens (fun c => Text.isBlank c = false ∧ isQuote c = false) t) :
    Refuses sideEffectImport ("import".toList ++ (g ++ t)) := by
  rintro _ behind offset gs split ⟨_, _, _, _, rfl, -, ⟨k, b, _, _, rfl, -, hk, hb⟩, quoted⟩
  obtain ⟨_, v, _, _, rfl, -, ⟨_, source, _, _, rfl, -, ⟨q, rfl, hq, -⟩, -⟩, -⟩ := quoted
  obtain ⟨rfl, -⟩ := takes_lit hk
  obtain ⟨blank, -⟩ := takes_star_one hb
  have texts : g ++ t = b ++ q :: (source ++ v ++ behind) := by simpa using split
  obtain ⟨-, rfl⟩ := Text.gap_unique texts gap.blank blank (opens.mono fun c hc => hc.1)
    ⟨q, _, rfl, isBlank_of_isQuote hq⟩
  obtain ⟨c, r, same, -, unquoted⟩ := opens
  rw [(List.cons.inj same).1] at hq
  rw [hq] at unquoted
  cases unquoted

theorem typeOnly_prefers_nothing {g : Text} (hw : Solid w) (other : w ≠ "type".toList) (gap : Text.Gap g) :
    Prefers typeOnly [] (w ++ (g ++ t)) [] := by
  refine Prefers.alt_right ?_ (prefers_done _)
  rintro _ behind offset gs split ⟨_, rfl, k, b, _, _, rfl, -, hk, hb⟩
  obtain ⟨rfl, -⟩ := takes_lit hk
  obtain ⟨blank, -⟩ := takes_blanks1_iff.mp hb
  have texts : w ++ (g ++ t) = "type".toList ++ (b ++ behind) := by simpa using split
  exact other (Text.word_unique texts hw (solid_of_isIdent (by decide)) (gap.opens.append _)
    (blank.opens.append _)).1

theorem typeOnly_prefers {g : Text} (gap : Text.Gap g) (opens : Opens (fun c => Text.isBlank c = false) t) :
    Prefers typeOnly ("type".toList ++ g) t [(1, "type".toList ++ g)] :=
  (((prefers_lit "type" _).seq (prefers_blanks1 opens gap)).group 1).alt_left _

/-- The words of a statement that imports what `clause` binds. -/
def statement (typed : Bool) (clause : List Text) (q : Char) (source : Text) : List Text :=
  "import".toList :: ((if typed then ["type".toList] else []) ++
    (clause ++ ["from".toList, quotation q source]))

/-- A clause of words, in front of the rest of its statement. -/
theorem exists_clause {clause : List Text} {last : Text}
    (words : ∀ v ∈ clause, IsToken clauseMarks v) (h : Spaced (clause ++ ["from".toList, last]) t) :
    ∃ c b g, t = c ++ (b ++ ("from".toList ++ (g ++ last))) ∧ Spaced clause c ∧
      (∀ x ∈ b, Text.isBlank x = true) ∧ Text.Gap g ∧ (∀ x ∈ c ++ b, isQuote x = false) ∧
      (c = [] ∨ Closes (fun x => Text.isBlank x = false) c) := by
  obtain ⟨c, b, _, rfl, hc, hb, behind⟩ := h.divide
  obtain ⟨g, _, rfl, gap, ends⟩ := behind.of_cons
  rw [ends.eq_of_singleton]
  refine ⟨c, b, g, rfl, hc, hb, gap, ?_, ?_⟩
  · intro x hx
    rcases List.mem_append.mp hx with hx | hx
    · rcases hc.mem hx with blank | ⟨v, hv, hx⟩
      · exact not_isQuote_of_blank blank
      · exact (words v hv).not_isQuote x hx
    · exact not_isQuote_of_blank (hb x hx)
  · cases clause with
    | nil =>
      generalize none : ([] : List Text) = ws at hc
      cases hc with
      | nil => exact .inl rfl
      | _ => cases none
    | cons v vs => exact .inr (hc.closes (by simp) fun v hv => (words v hv).solid (by decide))

/-- The words behind `import` and `type` begin with one that is not quoted. -/
theorem opens_clause {clause : List Text} {last : Text} (words : ∀ v ∈ clause, IsToken clauseMarks v)
    (h : Spaced (clause ++ ["from".toList, last]) t) :
    Opens (fun c => Text.isBlank c = false ∧ isQuote c = false) t := by
  cases clause with
  | nil => exact h.opens_head (IsToken.opens (.inl (by decide)))
  | cons v vs => exact h.opens_head (words v (by simp)).opens

/-- Where there is a keyword `type` it is taken with the blanks behind it, and where there is none
nothing is taken for it. -/
theorem exists_opening {typed : Bool} {clause : List Text} {last : Text}
    (words : ∀ v ∈ clause, IsToken clauseMarks v)
    (head : typed = false → ∃ v vs, clause = v :: vs ∧ v ≠ "type".toList)
    (h : Spaced ((if typed then ["type".toList] else []) ++ (clause ++ ["from".toList, last])) t) :
    ∃ k t' said, t = k ++ t' ∧ Spaced (clause ++ ["from".toList, last]) t' ∧
      (∀ x ∈ k, isQuote x = false) ∧ (said.lookup 1).isSome = typed ∧
      Opens (fun c => Text.isBlank c = false ∧ isQuote c = false) t ∧
      ∀ rest, Prefers typeOnly k (t' ++ rest) said := by
  cases typed with
  | true =>
    obtain ⟨_, g, t', rfl, keyword, gap, behind⟩ := h.split (by simp) (by simp)
    rw [keyword.eq_of_singleton]
    refine ⟨"type".toList ++ g, t', _, by simp, behind, ?_, rfl, ⟨'t', _, rfl, by decide⟩,
      fun rest => typeOnly_prefers gap ?_⟩
    · intro x hx
      rcases List.mem_append.mp hx with hx | hx
      · exact IsToken.not_isQuote (w := "type".toList) (.inl (by decide)) x hx
      · exact not_isQuote_of_blank (gap.blank x hx)
    · exact ((opens_clause words behind).mono fun c hc => hc.1).append rest
  | false =>
    refine ⟨[], t, [], rfl, h, by simp, rfl, opens_clause words h, fun rest => ?_⟩
    obtain ⟨v, vs, rfl, other⟩ := head rfl
    obtain ⟨w, ws, more⟩ := List.exists_cons_of_ne_nil (l := vs ++ ["from".toList, last]) (by simp)
    have first : Spaced (v :: w :: ws) t := by
      rw [← more]
      exact h
    obtain ⟨g, behind, rfl, gap, -⟩ := first.of_cons
    rw [List.append_assoc, List.append_assoc]
    exact typeOnly_prefers_nothing ((words v (by simp)).solid (by decide)) other gap

/-- The parts of a statement that binds something, in front of its source: the blanks behind
`import`, what is taken for `type`, the clause, and the blanks around `from`. -/
structure Parts where
  space : Text
  keyword : Text
  clause : Text
  before : Text
  behind : Text

namespace Parts

/-- What stands in front of `from`. -/
def front (p : Parts) : Text := "import".toList ++ p.space ++ p.keyword ++ (p.clause ++ p.before)

/-- What stands behind the clause, up to the quote of the source. -/
def back (p : Parts) (q : Char) : Text := p.before ++ "from".toList ++ p.behind ++ [q]

def text (p : Parts) (q : Char) (source : Text) : Text :=
  p.front ++ ("from".toList ++ p.behind ++ quotation q source)

/-- The parts are those that the patterns of a statement take. -/
structure Proper (p : Parts) (typed : Bool) (q : Char) (source : Text) : Prop where
  space : Text.Gap p.space
  before : ∀ c ∈ p.before, Text.isBlank c = true
  behind : Text.Gap p.behind
  unquoted : ∀ c ∈ p.front, isQuote c = false
  closes : p.clause = [] ∨ Closes (fun c => Text.isBlank c = false) p.clause
  opens : Opens (fun c => Text.isBlank c = false ∧ isQuote c = false)
    (p.keyword ++ (p.clause ++ p.back q ++ (source ++ [q])))
  opening : ∃ said, (said.lookup 1).isSome = typed ∧
    ∀ tail, Prefers typeOnly p.keyword (p.clause ++ p.back q ++ (source ++ [q]) ++ tail) said

section

variable {p : Parts} {typed : Bool} {q : Char} {source : Text} (hp : p.Proper typed q source)
  (tail : Text)

include hp

theorem sideEffectImport_matchFront? :
    sideEffectImport.matchFront? (p.text q source ++ tail) = none := by
  have cut : p.text q source ++ tail = "import".toList ++ (p.space ++
      (p.keyword ++ (p.clause ++ p.back q ++ (source ++ [q])) ++ tail)) := by
    unfold text front back quotation
    simp only [List.append_assoc]
  rw [cut]
  exact (sideEffectImport_refuses hp.space (hp.opens.append tail)).matchFront?

theorem fromClause_search? (hq : isQuote q = true) (hs : IsSource source) :
    ∃ m, (fromClause 1).search? (p.text q source ++ tail) = some m ∧ m.groupText 1 = source := by
  rw [text, List.append_assoc]
  exact Script.fromClause_search? hp.unquoted hp.behind.blank hq hs tail

theorem importClause_matchFront? (hq : isQuote q = true) :
    ∃ m, importClause.matchFront? (p.text q source ++ tail) = some m ∧
      m.groupText 2 = p.clause ∧ (m.group? 1).isSome = typed := by
  have cut : p.text q source ++ tail = "import".toList ++ p.space ++ p.keyword ++
      (p.clause ++ p.back q) ++ (source ++ [q] ++ tail) := by
    unfold text front back quotation
    simp only [List.append_assoc]
  obtain ⟨said, isTyped, opening⟩ := hp.opening
  have space : Prefers blanks1 p.space
      (p.keyword ++ (p.clause ++ p.back q ++ (source ++ [q]) ++ tail)) [] := by
    rw [← List.append_assoc p.keyword]
    exact prefers_blanks1 ((hp.opens.mono fun c hc => hc.1).append tail) hp.space
  have front : Prefers (lit "import" ++ blanks1 ++ typeOnly) ("import".toList ++ p.space ++ p.keyword)
      (p.clause ++ p.back q ++ (source ++ [q]) ++ tail) (said ++ []) :=
    ((prefers_lit "import" _).seq space).seq (opening tail)
  have unquoted : ∀ c ∈ p.clause, isQuote c = false := by
    intro c hc
    apply hp.unquoted c
    unfold Parts.front
    exact List.mem_append_right _ (List.mem_append_left _ hc)
  rw [List.append_nil, List.append_assoc (p.clause ++ p.back q)] at front
  obtain ⟨m, found, shows⟩ := (importClause_prefers front hp.before hp.behind.blank hq unquoted
    hp.closes).matchFront?
  rw [cut]
  refine ⟨m, found, shows.groupText 2, ?_⟩
  rw [shows.isSome 1, ← isTyped]
  rfl

end

end Parts

/-- The words of a statement stand in parts as its patterns take them, if no clause begins with
`type` that has no such keyword in front of it. -/
theorem exists_parts {typed : Bool} {clause : List Text} {q : Char} {source : Text}
    (words : ∀ v ∈ clause, IsToken clauseMarks v)
    (head : typed = false → ∃ v vs, clause = v :: vs ∧ v ≠ "type".toList)
    (h : Spaced (statement typed clause q source) t) :
    ∃ p : Parts, t = p.text q source ∧ p.Proper typed q source ∧ Spaced clause p.clause := by
  have h : Spaced (["import".toList] ++ ((if typed then ["type".toList] else []) ++
    (clause ++ ["from".toList, quotation q source]))) t := h
  obtain ⟨_, space, _, rfl, first, gap, h⟩ := h.split (by simp) (by simp)
  rw [first.eq_of_singleton]
  obtain ⟨keyword, _, said, rfl, h, plain, isTyped, opens, opening⟩ := exists_opening words head h
  obtain ⟨c, before, behind, rfl, spaced, blank, gap', unquoted, closes⟩ := exists_clause words h
  let p : Parts := ⟨space, keyword, c, before, behind⟩
  have remainder : c ++ (before ++ ("from".toList ++ (behind ++ quotation q source))) =
      c ++ p.back q ++ (source ++ [q]) := by
    unfold Parts.back quotation
    simp only [p, List.append_assoc]
  rw [remainder] at opens opening
  refine ⟨p, ?_, ⟨gap, blank, gap', ?_, closes, opens, said, isTyped, opening⟩, spaced⟩
  · unfold Parts.text Parts.front
    simp only [p, List.append_assoc]
  · intro x hx
    unfold Parts.front at hx
    simp only [p, List.mem_append] at hx unquoted
    rcases hx with ((hx | hx) | hx) | hx
    · exact IsToken.not_isQuote (w := "import".toList) (.inl (by decide)) x hx
    · exact not_isQuote_of_blank (gap.blank x hx)
    · exact plain x hx
    · exact unquoted x hx

/-- A statement that binds something is read as its clause says, and as one for types only if the
keyword for that is found. -/
theorem importOf_statement {typed : Bool} {clause : List Text} {q : Char} {source lead text tail : Text}
    (words : ∀ v ∈ clause, IsToken clauseMarks v)
    (head : typed = false → ∃ v vs, clause = v :: vs ∧ v ≠ "type".toList)
    (hq : isQuote q = true) (hs : IsSource source) (hl : ∀ c ∈ lead, Text.isBlank c = true)
    (h : Spaced (statement typed clause q source) text) :
    ∃ c, Spaced clause c ∧ ∀ location, importOf (lead ++ text ++ tail) location =
      some (addClause c
        { source := String.ofList source, location := location, isTypeOnly := typed }) := by
  have opens : Opens (fun c => Text.isBlank c = false) text :=
    Spaced.opens_head (w := "import".toList) h ⟨'i', _, rfl, by decide⟩
  have closes : Closes (fun c => Text.isBlank c = false) text := by
    have whole : Spaced ("import".toList :: ((if typed then ["type".toList] else []) ++
        (clause ++ ["from".toList])) ++ [quotation q source]) text := by
      simpa [statement] using h
    exact whole.closes_last (quotation_closes hq source)
  obtain ⟨tail', trimmed⟩ := Text.exists_trim_append hl opens closes tail
  obtain ⟨p, rfl, proper, spaced⟩ := exists_parts words head h
  refine ⟨p.clause, spaced, fun location => ?_⟩
  have plain := Parts.sideEffectImport_matchFront? proper tail'
  obtain ⟨m, found, sourced⟩ := Parts.fromClause_search? proper tail' hq hs
  obtain ⟨m', found', bound, isTyped⟩ := Parts.importClause_matchFront? proper tail' hq
  unfold importOf
  simp only [trimmed, plain, found, found', bound, isTyped]
  rw [← sourced]
  rfl

/-- A statement that binds nothing is read as its source. -/
theorem importOf_sideEffect {q : Char} {source lead text tail : Text} (hq : isQuote q = true)
    (hs : IsSource source) (hl : ∀ c ∈ lead, Text.isBlank c = true)
    (h : Spaced ["import".toList, quotation q source] text) (location : Location) :
    importOf (lead ++ text ++ tail) location =
      some { source := String.ofList source, location := location } := by
  have opens : Opens (fun c => Text.isBlank c = false) text :=
    h.opens_head ⟨'i', _, rfl, by decide⟩
  have whole : Spaced (["import".toList] ++ [quotation q source]) text := h
  have closes := whole.closes_last (quotation_closes hq source)
  obtain ⟨tail', trimmed⟩ := Text.exists_trim_append hl opens closes tail
  obtain ⟨g, _, split, gap, last⟩ := h.of_cons
  rw [last.eq_of_singleton, ← List.append_assoc] at split
  obtain ⟨m, found, shows⟩ := (sideEffectImport_prefers hq hs gap.blank tail').matchFront?
  rw [← split] at found
  unfold importOf
  simp only [trimmed, found, shows.groupText 1]
  rfl

/-! ### Imports -/

/-- What an import statement says. -/
structure ImportForm where
  default? : Option String
  bound : Bound
  isTypeOnly : Bool
  source : String
  deriving DecidableEq, Repr

namespace ImportForm

/-- The words of what is bound; a comma stands between a default and the rest. -/
def clause (f : ImportForm) : List Text :=
  front f.default? (f.default?.isSome && f.bound != .nothing) ++ f.bound.tokens

/-- The words of the statement. One that binds nothing has the source alone. -/
def tokens (f : ImportForm) (q : Char) : List Text :=
  if f.clause = [] then ["import".toList, quotation q f.source.toList]
  else statement f.isTypeOnly f.clause q f.source.toList

/-- The names are names, the source has no quotes, and only what binds something is for types. -/
structure WellFormed (f : ImportForm) : Prop where
  default? : ∀ d ∈ f.default?, IsIdent d.toList
  bound : f.bound.WellFormed
  source : IsSource f.source.toList
  typed : f.isTypeOnly = true → f.clause ≠ []

instance (f : ImportForm) : Decidable f.WellFormed :=
  decidable_of_iff ((∀ d ∈ f.default?, IsIdent d.toList) ∧ f.bound.WellFormed ∧
      IsSource f.source.toList ∧ (f.isTypeOnly = true → f.clause ≠ []))
    ⟨fun h => ⟨h.1, h.2.1, h.2.2.1, h.2.2.2⟩, fun h => ⟨h.1, h.2, h.3, h.4⟩⟩

/-- The import that the statement states. -/
def stated (f : ImportForm) (location : Location) : Import where
  source := f.source
  defaultImport := f.default?
  namespaceImport := f.bound.space?
  names := f.bound.nameList
  isTypeOnly := f.isTypeOnly
  isWildcard := f.bound.space?.isSome
  location := location

/-- The default binding is called as the keyword that is missing in front of it. -/
def isMistaken (f : ImportForm) : Bool := f.default? == some "type" && !f.isTypeOnly

/-- What the statement is read as: a default binding called `type` is lost to the keyword. -/
def read (f : ImportForm) (location : Location) : Import :=
  if f.isMistaken then { f.stated location with defaultImport := none, isTypeOnly := true }
  else f.stated location

end ImportForm

theorem Bound.WellFormed.isToken {b : Bound} (wf : b.WellFormed) :
    ∀ v ∈ b.tokens, IsToken clauseMarks v := by
  intro v hv
  cases b with
  | nothing => cases hv
  | space name =>
    simp only [Bound.tokens, List.mem_cons, List.not_mem_nil, or_false] at hv
    rcases hv with rfl | rfl | rfl
    · exact .inr ⟨'*', by simp [clauseMarks], rfl⟩
    · exact .inl (by decide)
    · exact .inl wf
  | names ns =>
    simp only [Bound.tokens, List.mem_append, List.mem_singleton] at hv
    rcases hv with (rfl | hv) | rfl
    · exact .inr ⟨'\x7b', by simp [clauseMarks], rfl⟩
    · exact (isToken_of_mem_listed wf v hv).mono (by simp [clauseMarks])
    · exact .inr ⟨'\x7d', by simp [clauseMarks], rfl⟩

namespace ImportForm

variable {f : ImportForm} {q : Char} {lead text tail : Text}

theorem WellFormed.isToken (wf : f.WellFormed) (default? : Option String)
    (known : ∀ d ∈ default?, d ∈ f.default?) (comma : Bool) :
    ∀ v ∈ front default? comma ++ f.bound.tokens, IsToken clauseMarks v := by
  intro v hv
  rcases List.mem_append.mp hv with hv | hv
  · exact (isToken_of_mem_front (fun d hd => wf.default? d (known d hd)) v hv).mono (by simp [clauseMarks])
  · exact wf.bound.isToken v hv

/-- Only a default binding can be called as the keyword at the front of a clause. -/
theorem head_clause (plain : f.isMistaken = false) (full : f.clause ≠ [])
    (untyped : f.isTypeOnly = false) : ∃ v vs, f.clause = v :: vs ∧ v ≠ "type".toList := by
  obtain ⟨default?, bound, isTypeOnly, source⟩ := f
  obtain rfl : isTypeOnly = false := untyped
  cases default? with
  | none =>
    cases bound with
    | nothing => exact absurd rfl full
    | space name => exact ⟨_, _, rfl, by decide⟩
    | names ns => exact ⟨_, _, rfl, by decide⟩
  | some d =>
    refine ⟨d.toList, _, rfl, fun same => ?_⟩
    rw [String.toList_inj] at same
    simp [isMistaken, same] at plain

theorem eq_of_clause_eq_nil (wf : f.WellFormed) (nothing : f.clause = []) :
    f = ⟨none, .nothing, false, f.source⟩ := by
  obtain ⟨default?, bound, isTypeOnly, source⟩ := f
  have untyped : isTypeOnly = false := by
    rw [Bool.eq_false_iff]
    exact fun typed => wf.typed typed nothing
  cases default? <;> cases bound <;> simp_all [clause, front, Bound.tokens]

/-- The words of a statement whose default binding is called `type` are those of a statement for types
without that binding. -/
theorem tokens_of_isMistaken (mistaken : f.isMistaken = true) :
    f.tokens q = statement true (front none (f.bound != .nothing) ++ f.bound.tokens) q
      f.source.toList := by
  obtain ⟨default?, bound, isTypeOnly, source⟩ := f
  obtain ⟨rfl, rfl⟩ : default? = some "type" ∧ isTypeOnly = false := by
    simpa [isMistaken] using mistaken
  simp [tokens, clause, statement, front]

/-- A statement, however its words are set off, is read as what it states, save for a default binding
called `type`. -/
theorem importOf_tokens (wf : f.WellFormed) (hq : isQuote q = true)
    (hl : ∀ c ∈ lead, Text.isBlank c = true) (h : Spaced (f.tokens q) text) (location : Location) :
    importOf (lead ++ text ++ tail) location = some (f.read location) := by
  by_cases nothing : f.clause = []
  · rw [tokens, if_pos nothing] at h
    rw [importOf_sideEffect hq wf.source hl h, eq_of_clause_eq_nil wf nothing]
    simp [read, isMistaken, stated, Bound.space?, Bound.nameList]
  · cases mistaken : f.isMistaken with
    | true =>
      rw [tokens_of_isMistaken mistaken] at h
      obtain ⟨c, spaced, reads⟩ := importOf_statement (wf.isToken none (by simp) _) (by simp) hq
        wf.source hl h
      rw [reads, addClause_spaced (by simp) wf.bound spaced]
      simp [read, mistaken, stated]
    | false =>
      rw [tokens, if_neg nothing] at h
      obtain ⟨c, spaced, reads⟩ := importOf_statement (wf.isToken f.default? (fun _ hd => hd) _)
        (head_clause mistaken nothing) hq wf.source hl h
      rw [reads, addClause_spaced wf.default? wf.bound spaced]
      simp [read, mistaken, stated]

end ImportForm

/-- Reading an import statement that is written with blanks between its words gives what it states,
whatever the names are, except that a default binding called `type` is taken for the keyword. -/
theorem nodeImport_of_tokens {f : ImportForm} {q : Char} {n : Node} {lead text tail : Text}
    (wf : f.WellFormed) (hq : isQuote q = true) (hl : ∀ c ∈ lead, Text.isBlank c = true)
    (h : Spaced (f.tokens q) text) (hn : n.text = some (String.ofList (lead ++ text ++ tail))) :
    nodeImport n = some (f.read n.location) := by
  rw [nodeImport, hn, Option.bind_some, String.toList_ofList]
  exact ImportForm.importOf_tokens wf hq hl h n.location

/-- Contextual keywords as names, as second names and as a default binding. -/
theorem nodeImport_of_tokens_contextual : ∃ n : Node,
    n.text = some "import from , \x7b type as as , type as , type $x as from \x7d from \"./m\";" ∧
      nodeImport n = some
        { source := "./m", defaultImport := some "from", location := n.location
          names := [⟨"type", some "as", false⟩, ⟨"as", none, true⟩, ⟨"$x", some "from", true⟩] } := by
  let f : ImportForm := ⟨some "from",
    .names [⟨"type", some "as", false⟩, ⟨"as", none, true⟩, ⟨"$x", some "from", true⟩], false, "./m"⟩
  let text : String := "import from , \x7b type as as , type as , type $x as from \x7d from \"./m\""
  let n : Node := { Node.bare 0 .importDecl .zero with text := some (text ++ ";") }
  have spaced : Spaced (f.tokens '\x22') text.toList := by
    have words := Text.spaced_intercalate (f.tokens '\x22')
    have same : [' '].intercalate (f.tokens '\x22') = text.toList := by decide +kernel
    rwa [same] at words
  refine ⟨n, rfl, ?_⟩
  exact @nodeImport_of_tokens f '\x22' n [] text.toList [';'] (by decide +kernel) (by decide)
    (by simp) spaced (by decide +kernel)

/-- A default binding called `type` is not read. -/
theorem nodeImport_of_tokens_type : ¬∀ (f : ImportForm) (q : Char) (n : Node) (text : Text),
    f.WellFormed → isQuote q = true → Spaced (f.tokens q) text → n.text = some (String.ofList text) →
      nodeImport n = some (f.stated n.location) := by
  intro all
  let f : ImportForm := ⟨some "type", .nothing, false, "x"⟩
  let text : String := "import type from \"x\""
  let n : Node := { Node.bare 0 .importDecl .zero with text := some text }
  have spaced : Spaced (f.tokens '\x22') text.toList := by
    have words := Text.spaced_intercalate (f.tokens '\x22')
    have same : [' '].intercalate (f.tokens '\x22') = text.toList := by decide +kernel
    rwa [same] at words
  have stated := all f '\x22' n text.toList (by decide +kernel) (by decide) spaced (by decide +kernel)
  have read : nodeImport n = some { source := "x", isTypeOnly := true, location := .zero } := by
    decide +kernel
  rw [read] at stated
  revert stated
  decide +kernel

end Script

end SourceTree
