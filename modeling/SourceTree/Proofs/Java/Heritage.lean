import SourceTree.Proofs.Java.Keyword
import SourceTree.Proofs.Scan.Join
import SourceTree.Proofs.Scan.Uncomment

/-!
The supertypes that a header lists. The keywords in front of the lists are looked for in the whole
header, so the lists are found right if and only if no type has one of them as a word: then each list
is cut at the commas outside of its brackets.
-/

namespace SourceTree.Java

open Pattern
open Scan (Joined MaskedSource Nests Piece Range counted)

variable {c : Cursor} {w u v rest t : Text}

/-! ### Clauses -/

/-- A keyword with the list behind it and the types in the list. -/
structure Clause where
  keyword : String
  list : Text
  types : List Text

namespace Clause

def text (c : Clause) : Text := c.keyword.toList ++ c.list

/-- The list is one of types that nest, without a keyword and with blanks at its ends. -/
structure Proper (c : Clause) : Prop where
  keyword : c.keyword ∈ heritageWords
  joined : Joined ',' c.types c.list
  pieces : ∀ t ∈ c.types, Piece ',' true t t
  unkeyed : Unkeyed c.list
  opens : Apart c.list.head?
  full : c.list ≠ []
  closes : Apart c.list.getLast?

end Clause

/-- The keywords of clauses that stand one behind the other. -/
def keywordSpans (offset : Nat) : List Clause → List Span
  | [] => []
  | c :: cs => ⟨offset, c.keyword.toList⟩ :: keywordSpans (offset + Text.size c.text) cs

/-- The search for keywords finds that of the first clause, and goes on behind it. -/
theorem searchFrom?_clause {clause : Clause} (h : clause.Proper) {lead : Text}
    (unkeyed : Unkeyed lead) (full : lead ≠ []) (ends : Apart lead.getLast?)
    (hc : c.rest = lead ++ (clause.keyword.toList ++ (clause.list ++ rest))) :
    ∃ m d, searchFrom? heritageKeyword c.before c.offset c.rest = some (m, d) ∧
      m.whole = ⟨c.offset + Text.size lead, clause.keyword.toList⟩ ∧
      d.offset = c.offset + Text.size lead + Text.size clause.keyword.toList ∧
      d.rest = clause.list ++ rest := by
  have before : Apart (lead.getLast?.or c.before) := by
    obtain ⟨init, x, rfl⟩ := List.eq_nil_or_concat lead |>.resolve_left full
    rw [List.concat_eq_append, List.getLast?_concat] at ends ⊢
    exact ends
  have behind : Apart (clause.list ++ rest).head? := by
    rw [List.head?_append_of_ne_nil _ h.full]
    exact h.opens
  rw [hc, searchFrom?_unkeyed unkeyed ends, searchFrom?_heritageWord h.keyword before behind]
  exact ⟨_, _, rfl, rfl, rfl, Cursor.rest_past rfl⟩

/-- The keywords of the clauses are found one after the other. -/
theorem findAllFrom_clauses {clauses : List Clause} (proper : ∀ c ∈ clauses, c.Proper)
    {lead : Text} (unkeyed : Unkeyed lead) (full : lead ≠ []) (ends : Apart lead.getLast?)
    {fuel : Nat} (le : clauses.length < fuel) {c : Cursor}
    (hc : c.rest = lead ++ clauses.flatMap Clause.text) :
    (findAllFrom heritageKeyword fuel c).map Match.whole =
      keywordSpans (c.offset + Text.size lead) clauses := by
  induction clauses generalizing lead fuel c with
  | nil =>
    have nothing : searchFrom? heritageKeyword c.before c.offset c.rest = none := by
      rw [hc, searchFrom?_unkeyed unkeyed ends]
      exact searchFrom?_nil
    cases fuel with
    | zero => cases le
    | succ fuel => simp [findAllFrom, nothing, keywordSpans]
  | cons clause clauses ih =>
    obtain ⟨fuel, rfl⟩ := Nat.exists_eq_add_of_lt le
    have proper' := proper clause (by simp)
    rw [List.flatMap_cons, Clause.text, List.append_assoc] at hc
    obtain ⟨m, d, found, whole, offset, rest⟩ := searchFrom?_clause proper' unkeyed full ends hc
    have later := ih (fun c hc => proper c (by simp [hc])) proper'.unkeyed proper'.full proper'.closes
      (Nat.lt_add_right fuel (Nat.lt_succ_self _)) rest
    have more : m.whole.text.isEmpty = false := by
      rw [whole]
      simpa using heritageWords_full proper'.keyword
    have size : d.offset + Text.size clause.list =
        c.offset + Text.size lead + Text.size clause.text := by
      rw [offset, Clause.text, Text.size_append, Nat.add_assoc]
    rw [size] at later
    rw [findAllFrom, found]
    dsimp only
    rw [more, if_neg (by simp), List.map_cons, whole, keywordSpans]
    exact congrArg (List.cons _) later

/-- A text falls apart at the keywords that are found in it, into clauses with no more keywords in
their lists. -/
theorem exists_clauses {fuel : Nat} {c : Cursor} (le : c.rest.length < fuel) :
    ∃ lead clauses, c.rest = lead ++ clauses.flatMap Clause.text ∧
      (findAllFrom heritageKeyword fuel c).map Match.whole =
        keywordSpans (c.offset + Text.size lead) clauses ∧
      Passed c lead ∧ (clauses = [] ∨ Apart (lead.getLast?.or c.before)) ∧
      ∀ clause ∈ clauses, Unkeyed clause.list ∧
        (Scan.splitTopLevel clause.list ',' true).map Span.text = clause.types := by
  induction fuel generalizing c with
  | zero => cases le
  | succ fuel ih =>
    cases found : searchFrom? heritageKeyword c.before c.offset c.rest with
    | none =>
      refine ⟨c.rest, [], by simp, by simp [findAllFrom, found, keywordSpans], ?_, .inl rfl, by simp⟩
      intro u v split full
      rw [split] at found
      have nothing := next?_of_searchFrom?_none found
      rwa [← split] at nothing
    | some r =>
      obtain ⟨m, d⟩ := r
      obtain ⟨lead, word, mem, rest, split, passed, before, behind, whole, rfl⟩ :=
        exists_of_searchFrom? found
      have hd : ((c.past lead).past word.toList).rest = rest :=
        Cursor.rest_past (Cursor.rest_past split)
      have full := heritageWords_full mem
      have short : ((c.past lead).past word.toList).rest.length < fuel := by
        have pos := List.length_pos_iff.mpr full
        rw [split, List.length_append, List.length_append] at le
        rw [hd]
        omega
      obtain ⟨list, clauses, parts, later, passed', edge, unkeyed⟩ := ih short
      have more : m.whole.text.isEmpty = false := by
        rw [whole]
        simpa using full
      refine ⟨lead, ⟨word, list, (Scan.splitTopLevel list ',' true).map Span.text⟩ :: clauses, ?_,
        ?_, passed, .inr before, List.forall_mem_cons.mpr ⟨⟨passed'.unkeyed parts ?_ ?_, rfl⟩, unkeyed⟩⟩
      · rw [split, ← hd, parts]
        simp [Clause.text]
      · rw [findAllFrom, found]
        dsimp only
        rw [more, if_neg (by simp), List.map_cons, later, whole]
        simp [keywordSpans, Clause.text, Cursor.past, Nat.add_assoc, Text.size_append]
      · -- The edge behind the keyword.
        rw [← hd, parts, List.head?_append] at behind
        exact apart_of_or behind
      · -- The edge in front of the next one.
        rcases edge with rfl | edge
        · exact .inr rfl
        · exact .inl (apart_of_or edge)

/-! ### Reading the lists -/

/-- The keywords of the clauses, with where their lists start and stop. -/
def clauseLists (offset : Nat) : List Clause → List (Text × Nat × Nat)
  | [] => []
  | c :: cs => (c.keyword.toList, offset + Text.size c.keyword.toList, offset + Text.size c.text) ::
      clauseLists (offset + Text.size c.text) cs

theorem heritageLists_keywordSpans (clauses : List Clause) (offset : Nat) :
    heritageLists (offset + Text.size (clauses.flatMap Clause.text)) (keywordSpans offset clauses) =
      clauseLists offset clauses := by
  induction clauses generalizing offset with
  | nil => rfl
  | cons c cs ih =>
    have later := ih (offset + Text.size c.text)
    rw [Nat.add_assoc, ← Text.size_append] at later
    rw [keywordSpans, clauseLists, List.flatMap_cons, ← later]
    cases cs with
    | nil => simp [keywordSpans, heritageLists, Span.stop]
    | cons d cs => rfl

/-- Each list stands where its clause says. -/
theorem clauseLists_slices (clauses : List Clause) (front : Text) :
    List.Forall₂ (fun c l => l.1 = c.keyword.toList ∧
        Text.slice? (front ++ clauses.flatMap Clause.text) l.2.1 l.2.2 = some c.list)
      clauses (clauseLists (Text.size front) clauses) := by
  induction clauses generalizing front with
  | nil => exact .nil
  | cons c cs ih =>
    have later := ih (front ++ c.text)
    rw [Text.size_append] at later
    simp only [List.append_assoc] at later
    refine .cons ⟨rfl, Text.slice?_eq_some_iff.mpr ⟨front ++ c.keyword.toList,
      cs.flatMap Clause.text, ?_, Text.size_append _ _, ?_⟩⟩ later
    · simp [Clause.text]
    · rw [Clause.text, Text.size_append, Nat.add_assoc]

/-- The types of the clauses with this keyword. -/
def typesOf (keyword : String) (clauses : List Clause) : List Text :=
  clauses.flatMap fun c => if c.keyword = keyword then c.types else []

variable {text : MaskedSource} {range : Range} {code : Text} {clauses : List Clause}

/-- The types of a list, read where the list stands. -/
theorem mapM_pieces {list : Text} {start stop : Nat} (source : text.text? start stop = some list) :
    (Scan.splitTopLevel list ',' true).mapM (fun piece =>
      text.text? (start + piece.start) (start + piece.stop)) =
        some ((Scan.splitTopLevel list ',' true).map Span.text) := by
  have each := List.forall₂_same.mpr fun (piece : Span)
    (_ : piece ∈ Scan.splitTopLevel list ',' true) => Eq.refl piece
  refine Scan.mapM_of_forall₂ each ?_
  rintro piece mem _ rfl
  exact Text.slice?_slice? source (Scan.splitTopLevel_slice mem).1

/-- The types of each keyword are read off the clauses into which a header falls apart. -/
theorem heritage?_keywordSpans {lead : Text}
    (keywords : (heritageKeyword.findAll (lead ++ clauses.flatMap Clause.text)).map Match.whole =
      keywordSpans (Text.size lead) clauses)
    (types : ∀ c ∈ clauses, (Scan.splitTopLevel c.list ',' true).map Span.text = c.types)
    (source : text.text? range.start range.stop = some (lead ++ clauses.flatMap Clause.text))
    (masked : text.code? range.start range.stop = some (lead ++ clauses.flatMap Clause.text)) :
    heritage? text range = some (typesOf "extends" clauses, typesOf "implements" clauses) := by
  have lists := heritageLists_keywordSpans clauses (Text.size lead)
  rw [← Text.size_append] at lists
  have read := Scan.mapM_of_forall₂ (g := fun c => (c.keyword.toList, c.types))
    (f := fun l => (Text.slice? (lead ++ clauses.flatMap Clause.text) l.2.1 l.2.2).bind fun list =>
      ((Scan.splitTopLevel list ',' true).mapM fun piece => text.text?
        (range.start + l.2.1 + piece.start) (range.start + l.2.1 + piece.stop)).bind fun names =>
          some (l.1, names)) (clauseLists_slices clauses lead) fun c hc l ⟨keyword, list⟩ => by
      have stands : text.text? (range.start + l.2.1) (range.start + l.2.2) = some c.list :=
        Text.slice?_slice? source list
      rw [list, Option.bind_some, mapM_pieces stands, types c hc, Option.bind_some, keyword]
  have pick (word : String) : (clauses.map fun c => (c.keyword.toList, c.types)).flatMap (fun l =>
      if l.1 = word.toList then l.2 else []) = typesOf word clauses := by
    rw [List.flatMap_map, typesOf]
    simp only [String.toList_inj]
  rw [heritage?, masked]
  simp only [Option.bind_eq_bind, Option.bind_some, Option.pure_def, heritageKeywords_eq]
  rw [keywords, lists, read]
  exact congrArg some (Prod.ext (pick "extends") (pick "implements"))

theorem length_le_flatMap (proper : ∀ c ∈ clauses, c.Proper) :
    clauses.length ≤ (clauses.flatMap Clause.text).length := by
  induction clauses with
  | nil => exact Nat.le_refl 0
  | cons c cs ih =>
    have here := List.length_pos_iff.mpr (heritageWords_full (proper c (by simp)).keyword)
    have later := ih fun d hd => proper d (by simp [hd])
    rw [List.flatMap_cons, Clause.text, List.length_cons, List.length_append, List.length_append]
    omega

/-- In a header without literals and comments, whose clauses are proper, the types of each keyword are
found. -/
theorem heritage?_clauses (proper : ∀ c ∈ clauses, c.Proper) {lead : Text}
    (unkeyed : Unkeyed lead) (full : lead ≠ []) (ends : Apart lead.getLast?)
    (source : text.text? range.start range.stop = some (lead ++ clauses.flatMap Clause.text))
    (masked : text.code? range.start range.stop = some (lead ++ clauses.flatMap Clause.text)) :
    heritage? text range = some (typesOf "extends" clauses, typesOf "implements" clauses) := by
  have each : clauses.length ≤ (lead ++ clauses.flatMap Clause.text).length := by
    rw [List.length_append]
    exact Nat.le_add_left_of_le (length_le_flatMap proper)
  have found := findAllFrom_clauses proper unkeyed full ends (Nat.lt_succ_of_le each)
    (c := Cursor.ofText (lead ++ clauses.flatMap Clause.text)) rfl
  rw [show (Cursor.ofText (lead ++ clauses.flatMap Clause.text)).offset = 0 from rfl,
    Nat.zero_add] at found
  refine heritage?_keywordSpans found (fun c hc => ?_) source masked
  exact (proper c hc).joined.texts (Scan.comma_separates true) (proper c hc).pieces

/-- A list without keywords has pieces without keywords. -/
theorem Unkeyed.pieces {list : Text} (h : Unkeyed list) {piece : Span}
    (mem : piece ∈ Scan.splitTopLevel list ',' true) : Unkeyed piece.text := by
  obtain ⟨placed, -⟩ := List.mem_filter.mp mem
  obtain ⟨raw, cut, same⟩ := Scan.exists_of_mem_placePieces placed
  rw [← Scan.intercalate_cutTopLevel ',' true 0 list, unkeyed_intercalate] at h
  rw [same]
  exact (h raw cut).trim

theorem unkeyed_typesOf {keyword : String} (unkeyed : ∀ c ∈ clauses, ∀ t ∈ c.types, Unkeyed t) :
    ∀ t ∈ typesOf keyword clauses, Unkeyed t := by
  intro t ht
  obtain ⟨c, hc, ht⟩ := List.mem_flatMap.mp ht
  split at ht
  next => exact unkeyed c hc t ht
  next => cases ht

/-- In a header without literals and comments, no type that is found has a keyword as a word. -/
theorem unkeyed_of_heritage? {bases interfaces : List Text}
    (source : text.text? range.start range.stop = some code)
    (masked : text.code? range.start range.stop = some code)
    (h : heritage? text range = some (bases, interfaces)) :
    (∀ t ∈ bases, Unkeyed t) ∧ ∀ t ∈ interfaces, Unkeyed t := by
  obtain ⟨lead, clauses, split, keywords, -, -, lists⟩ :=
    exists_clauses (c := Cursor.ofText code) (Nat.lt_succ_self _)
  obtain rfl : code = lead ++ clauses.flatMap Clause.text := split
  rw [show (Cursor.ofText (lead ++ clauses.flatMap Clause.text)).offset = 0 from rfl,
    Nat.zero_add] at keywords
  have unkeyed : ∀ c ∈ clauses, ∀ t ∈ c.types, Unkeyed t := by
    intro c hc t ht
    rw [← (lists c hc).2] at ht
    obtain ⟨piece, mem, rfl⟩ := List.mem_map.mp ht
    exact (lists c hc).1.pieces mem
  rw [heritage?_keywordSpans keywords (fun c hc => (lists c hc).2) source masked] at h
  obtain ⟨rfl, rfl⟩ := Prod.mk.inj (Option.some.inj h)
  exact ⟨unkeyed_typesOf unkeyed, unkeyed_typesOf unkeyed⟩

/-! ### Headers -/

/-- No literal and no comment begins in the text. -/
def Bare (w : Text) : Prop :=
  (∀ c ∈ w, c ≠ '\x22' ∧ c ≠ '\x27' ∧ c ≠ '\x60') ∧ ¬['/', '/'] <:+: w ∧ ¬['/', '*'] <:+: w

instance : DecidablePred Bare := fun _ => inferInstanceAs (Decidable (_ ∧ _))

/-- A type that may stand in a list: text without literals and comments, with its brackets closed and
its commas in brackets. The brackets nest no deeper than the counter of the splitter reaches. -/
structure ListedType (t : Text) : Prop where
  full : t ≠ []
  trimmed : Text.trim t = t
  bare : Bare t
  nests : Nests (counted true) (· != ',') t

/-- A keyword and its types, if there are any. -/
def heritageClause (keyword : String) (types : List Text) : Text :=
  if types = [] then [] else ' ' :: (keyword.toList ++ ' ' :: ", ".toList.intercalate types)

/-- The header of a class with these supertypes. -/
def heritageHeader (bases interfaces : List Text) : Text :=
  heritageClause "extends" bases ++ heritageClause "implements" interfaces ++ [' ']

/-- Nothing here completes the mark of a comment. -/
def Slashless (w : Text) : Prop := ∀ c ∈ w.head?, c ≠ '/' ∧ c ≠ '*'

/-- The text is its own mask, if what follows does not complete the mark of a comment. -/
def Unmasked (w : Text) : Prop := ∀ rest : Text, Slashless rest →
  Scan.maskBraceFrom .code (w ++ rest) = w ++ Scan.maskBraceFrom .code rest

theorem maskBraceFrom_code_kept {x : Char} (other : x ≠ '\x22' ∧ x ≠ '\x27' ∧ x ≠ '\x60')
    (slash : x = '/' → Slashless rest) :
    Scan.maskBraceFrom .code (x :: rest) = x :: Scan.maskBraceFrom .code rest := by
  have plain : Scan.Plain (x :: rest) := by
    apply Scan.plain_of_unmatched
    · rintro r hx rfl
      exact (slash hx '/' rfl).1 rfl
    · rintro r hx rfl
      exact (slash hx '*' rfl).2 rfl
    · exact fun _ hx => absurd hx other.1
  rw [Scan.maskBraceFrom_plain plain]
  simp [Scan.BraceState.behind, other]

theorem Bare.tail {x : Char} (h : Bare (x :: w)) : Bare w :=
  ⟨fun c hc => h.1 c (by simp [hc]), fun line => h.2.1 (List.infix_cons line),
    fun block => h.2.2 (List.infix_cons block)⟩

theorem Bare.slashless (h : Bare ('/' :: w)) : Slashless w := by
  intro c hc
  obtain ⟨w, rfl⟩ := List.head?_eq_some_iff.mp hc
  constructor <;> rintro rfl
  · exact h.2.1 ⟨[], w, rfl⟩
  · exact h.2.2 ⟨[], w, rfl⟩

theorem Bare.unmasked (h : Bare w) : Unmasked w := by
  intro rest behind
  induction w with
  | nil => rfl
  | cons x w ih =>
    rw [List.cons_append, maskBraceFrom_code_kept (h.1 x (by simp)), ih h.tail, List.cons_append]
    rintro rfl
    cases w with
    | nil => exact behind
    | cons y w => exact h.slashless

theorem Unmasked.append (hu : Unmasked u) (hv : Unmasked v) (head : ∀ rest, Slashless (v ++ rest)) :
    Unmasked (u ++ v) := by
  intro rest behind
  rw [List.append_assoc, hu _ (head rest), hv rest behind, List.append_assoc]

/-- Characters that begin no literal and no comment. -/
theorem unmasked_calm (h : ∀ c ∈ w, c ∉ ['/', '\x22', '\x27', '\x60']) (hv : Unmasked v) :
    Unmasked (w ++ v) := by
  intro rest behind
  induction w with
  | nil => exact hv rest behind
  | cons x w ih =>
    have calm := h x (by simp)
    simp only [List.mem_cons, List.not_mem_nil, or_false, not_or] at calm
    rw [List.cons_append, List.cons_append, maskBraceFrom_code_kept calm.2 fun hx => absurd hx calm.1,
      ih fun c hc => h c (by simp [hc])]
    rfl

theorem unmasked_types {types : List Text} (h : ∀ t ∈ types, Bare t) :
    Unmasked (", ".toList.intercalate types) := by
  induction types with
  | nil => exact fun _ _ => rfl
  | cons t types ih =>
    cases types with
    | nil => simpa using (h t (by simp)).unmasked
    | cons next types =>
      rw [List.intercalate_cons_cons, List.append_assoc]
      have later := ih fun t ht => h t (by simp [ht])
      refine (h t (by simp)).unmasked.append (unmasked_calm (by decide) later) ?_
      rintro rest c ⟨⟩
      decide

theorem unmasked_heritageClause {keyword : String} {types : List Text}
    (calm : ∀ c ∈ ' ' :: (keyword.toList ++ [' ']), c ∉ ['/', '\x22', '\x27', '\x60'])
    (h : ∀ t ∈ types, Bare t) : Unmasked (heritageClause keyword types) := by
  unfold heritageClause
  split
  next => exact fun _ _ => rfl
  next => simpa using unmasked_calm calm (unmasked_types h)

/-- The mask of a header is the header. -/
theorem maskBrace_heritageHeader {bases interfaces : List Text} (hb : ∀ t ∈ bases, Bare t)
    (hi : ∀ t ∈ interfaces, Bare t) :
    Scan.maskBrace (heritageHeader bases interfaces) = heritageHeader bases interfaces := by
  have first : Unmasked (heritageClause "extends" bases) :=
    unmasked_heritageClause (by decide) hb
  have second : Unmasked (heritageClause "implements" interfaces) :=
    unmasked_heritageClause (by decide) hi
  have blank : Unmasked [' '] := by
    simpa using @unmasked_calm [' '] [] (by decide) fun _ _ => rfl
  have ends : Unmasked (heritageClause "implements" interfaces ++ [' ']) := by
    refine second.append blank ?_
    rintro rest c ⟨⟩
    decide
  have whole := first.append ends ?_ [] (by rintro c ⟨⟩)
  · simpa [Scan.maskBrace, heritageHeader, Scan.maskBraceFrom] using whole
  · intro rest c hc
    have space : c = ' ' := by
      unfold heritageClause at hc
      split at hc <;> simpa using hc.symm
    rw [space]
    decide

/-! ### The clauses of a header -/

theorem ListedType.piece (h : ListedType t) : Piece ',' true t t :=
  ⟨rfl, (Text.edges_of_trim h.trimmed h.full).1, (Text.edges_of_trim h.trimmed h.full).2, h.nests⟩

theorem unkeyed_types {types : List Text} (h : ∀ t ∈ types, Unkeyed t) :
    Unkeyed (", ".toList.intercalate types) := by
  induction types with
  | nil => decide
  | cons t types ih =>
    cases types with
    | nil => simpa using h t (by simp)
    | cons next types =>
      have later := ih fun t ht => h t (by simp [ht])
      rw [List.intercalate_cons_cons, List.append_assoc]
      exact (unkeyed_cut (by decide)).mpr ⟨h t (by simp), (unkeyed_cons (by decide)).mpr later⟩

/-- The clause of a keyword, as the header has it behind the blank in front of the keyword. -/
def clausesOf (keyword : String) (types : List Text) : List Clause :=
  if types = [] then []
  else [⟨keyword, ' ' :: (", ".toList.intercalate types ++ [' ']), types⟩]

theorem clausesOf_proper {keyword : String} {types : List Text} (mem : keyword ∈ heritageWords)
    (h : ∀ t ∈ types, ListedType t) (unkeyed : ∀ t ∈ types, Unkeyed t) :
    ∀ c ∈ clausesOf keyword types, c.Proper := by
  intro c hc
  unfold clausesOf at hc
  split at hc
  next => cases hc
  next =>
    obtain rfl := List.mem_singleton.mp hc
    have whole : Unkeyed (' ' :: (", ".toList.intercalate types ++ [' '])) := by
      rw [unkeyed_cons (by decide), unkeyed_cut (by decide)]
      exact ⟨unkeyed_types unkeyed, by decide⟩
    refine ⟨mem, ?_, fun t ht => (h t ht).piece, whole, rfl, by simp, ?_⟩
    · exact @Scan.joined_gaps [' '] ',' [' '] [' '] (by decide) (by decide) (by decide) types
    · rw [← List.cons_append, List.getLast?_concat]
      rfl

theorem heritageHeader_eq (bases interfaces : List Text) : heritageHeader bases interfaces =
    ' ' :: (clausesOf "extends" bases ++ clausesOf "implements" interfaces).flatMap Clause.text := by
  unfold heritageHeader heritageClause clausesOf
  split <;> split <;> simp [Clause.text]

theorem typesOf_clausesOf (bases interfaces : List Text) :
    typesOf "extends" (clausesOf "extends" bases ++ clausesOf "implements" interfaces) = bases ∧
      typesOf "implements" (clausesOf "extends" bases ++ clausesOf "implements" interfaces) =
        interfaces := by
  unfold clausesOf
  constructor <;> split <;> split <;> simp_all [typesOf]

/-- The supertypes of a header are found in order, each as it is written, if and only if none of them
has a keyword as a word. -/
theorem heritage?_header_iff {bases interfaces : List Text} (hb : ∀ t ∈ bases, ListedType t)
    (hi : ∀ t ∈ interfaces, ListedType t) :
    heritage? (MaskedSource.ofBrace (heritageHeader bases interfaces))
        ⟨0, Text.size (heritageHeader bases interfaces)⟩ = some (bases, interfaces) ↔
      (∀ t ∈ bases, Unkeyed t) ∧ ∀ t ∈ interfaces, Unkeyed t := by
  have mask := maskBrace_heritageHeader (fun t ht => (hb t ht).bare) fun t ht => (hi t ht).bare
  have whole : Text.slice? (heritageHeader bases interfaces) 0
      (Text.size (heritageHeader bases interfaces)) = some (heritageHeader bases interfaces) :=
    Text.slice?_eq_some_iff.mpr ⟨[], [], by simp, rfl, by simp⟩
  have masked : (MaskedSource.ofBrace (heritageHeader bases interfaces)).code? 0
      (Text.size (heritageHeader bases interfaces)) = some (heritageHeader bases interfaces) := by
    rw [MaskedSource.code?, MaskedSource.ofBrace, mask]
    exact whole
  constructor
  · intro found
    exact @unkeyed_of_heritage? (.ofBrace _) ⟨0, _⟩ _ _ _ whole masked found
  · rintro ⟨unkeyed, unkeyed'⟩
    have proper : ∀ c ∈ clausesOf "extends" bases ++ clausesOf "implements" interfaces, c.Proper := by
      intro c hc
      rcases List.mem_append.mp hc with hc | hc
      · exact clausesOf_proper (by decide) hb unkeyed c hc
      · exact clausesOf_proper (by decide) hi unkeyed' c hc
    have split := heritageHeader_eq bases interfaces
    have found := @heritage?_clauses (.ofBrace (heritageHeader bases interfaces)) ⟨0, _⟩ _ proper
      [' '] (by decide) (by simp) rfl
      (whole.trans (congrArg some split)) (masked.trans (congrArg some split))
    rw [found, (typesOf_clausesOf bases interfaces).1, (typesOf_clausesOf bases interfaces).2]

/-- The supertypes of ` extends Base<K, V> implements Runnable, Comparable<Item> `. -/
theorem heritage?_header_generic :
    heritage? (MaskedSource.ofBrace
        " extends Base<K, V> implements Runnable, Comparable<Item> ".toList) ⟨0, 58⟩ =
      some (["Base<K, V>".toList], ["Runnable".toList, "Comparable<Item>".toList]) := by
  have base : ∀ t ∈ ["Base<K, V>".toList], ListedType t := by
    rintro t mem
    obtain rfl := List.mem_singleton.mp mem
    exact ⟨by decide, by decide, by decide +kernel, by decide⟩
  have interfaces : ∀ t ∈ ["Runnable".toList, "Comparable<Item>".toList], ListedType t := by
    rintro t mem
    rcases List.mem_cons.mp mem with rfl | mem
    · exact ⟨by decide, by decide, by decide +kernel, by decide⟩
    · obtain rfl := List.mem_singleton.mp mem
      exact ⟨by decide, by decide, by decide +kernel, by decide⟩
  have header : heritageHeader ["Base<K, V>".toList] ["Runnable".toList, "Comparable<Item>".toList] =
      " extends Base<K, V> implements Runnable, Comparable<Item> ".toList := by decide
  have size : Text.size " extends Base<K, V> implements Runnable, Comparable<Item> ".toList = 58 := by
    decide +kernel
  have found := (heritage?_header_iff base interfaces).mpr ⟨by decide, by decide⟩
  rwa [header, size] at found

/-- The keyword of a bound is taken for that of a clause, although it stands in brackets. -/
theorem heritage?_bounded :
    heritageHeader ["B<C<? extends D>>".toList] ["I".toList] =
        " extends B<C<? extends D>> implements I ".toList ∧
      Text.trim "B<C<? extends D>>".toList = "B<C<? extends D>>".toList ∧
      Bare "B<C<? extends D>>".toList ∧
      Nests (counted true) (fun c => !Text.isBlank c && c != ',') "B<C<? extends D>>".toList ∧
      heritage? (MaskedSource.ofBrace " extends B<C<? extends D>> implements I ".toList) ⟨0, 40⟩ =
        some (["B<C<?".toList, "D>>".toList], ["I".toList]) := by
  exact ⟨by decide, by decide, by decide +kernel, by decide, by decide +kernel⟩

end SourceTree.Java
