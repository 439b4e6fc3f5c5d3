import SourceTree.Proofs.Script.Declared
import SourceTree.Proofs.Script.Import

/-!
Reading export statements. The patterns are tried one after the other, and a statement is refused by
all that come before its own. So every statement that is written with blanks between its words is
read as what it states, save that a name that goes on behind `function` loses this front where it is
the default.
-/

namespace SourceTree

open Text (Solid Spaced Opens Closes)

namespace Script

open Pattern

variable {t k g b name source rest tail : Text} {word : String} {present : Bool} {q : Char}

/-! ### Statements that are passed on -/

theorem typeOnly_refuses {p : Pattern} (opens : Opens (fun c => Text.isBlank c = false) t)
    (gap : Text.Gap g) (hp : Refuses p ("type".toList ++ (g ++ t))) (hp' : Refuses p t)
    (starts : Starts (fun c => Text.isBlank c = false) p) :
    Refuses (typeOnly ++ p) ("type".toList ++ (g ++ t)) := by
  rintro _ rest offset _ split ⟨u, v, _, gv, rfl, -, hu, hv⟩
  rcases takes_typeOnly_iff.mp hu with ⟨rfl, -⟩ | ⟨b, blank, rfl, -⟩
  · exact hp v rest _ gv split hv
  · have texts : g ++ t = b ++ (v ++ rest) := by simpa using split
    obtain ⟨-, rfl⟩ := Text.gap_unique texts gap.blank blank.blank opens
      ((hv.opens starts).append rest)
    exact hp' v rest _ gv rfl hv

/-- A mark, perhaps behind `type`. -/
theorem starts_mark {mark : String}
    (h : mark.toList.head?.any (fun c => decide (Text.isBlank c = false)) = true) :
    Starts (fun c => Text.isBlank c = false) (typeOnly ++ lit mark) := by
  have keyword : Starts (fun c => Text.isBlank c = false) (lit "type") := starts_lit (by decide)
  exact Starts.opt_append (a := group 1 (lit "type" ++ blanks1)) keyword.append (starts_lit h)

/-- What stands behind `export` begins neither a list of names nor the export of a whole module. -/
structure Unmarked (t : Text) : Prop where
  star : Refuses (typeOnly ++ lit "*") t
  brace : Refuses (typeOnly ++ lit "\x7b") t
  opens : Opens (fun c => Text.isBlank c = false) t

theorem refuses_exportStar (gap : Text.Gap g) (opens : Opens (fun c => Text.isBlank c = false) t)
    (h : Refuses (typeOnly ++ lit "*") t) : Refuses exportStar ("export".toList ++ (g ++ t)) :=
  (((h.behind (starts_mark (by decide)) gap opens).assoc.append _).append _).append _

theorem refuses_exportNamed (gap : Text.Gap g) (opens : Opens (fun c => Text.isBlank c = false) t)
    (h : Refuses (typeOnly ++ lit "\x7b") t) : Refuses exportNamed ("export".toList ++ (g ++ t)) :=
  ((((h.behind (starts_mark (by decide)) gap opens).assoc.append _).append _).append _).append _

theorem refuses_exportDefault (gap : Text.Gap g) (opens : Opens (fun c => Text.isBlank c = false) t)
    (h : Refuses (lit "default") t) : Refuses exportDefault ("export".toList ++ (g ++ t)) :=
  (h.behind (starts_lit (by decide)) gap opens).append _

theorem Unmarked.matchFront? (h : Unmarked t) (gap : Text.Gap g) :
    exportStar.matchFront? ("export".toList ++ (g ++ t)) = none ∧
      exportNamed.matchFront? ("export".toList ++ (g ++ t)) = none :=
  ⟨(refuses_exportStar gap h.opens h.star).matchFront?,
    (refuses_exportNamed gap h.opens h.brace).matchFront?⟩

/-- A declaration begins as no other export does. -/
theorem unmarked_of_front (mem : word ∈ fronts) (hn : IsIdent name)
    (typed : word = "type" → ∃ g, Text.Gap g ∧ t = g ++ name) (rest : Text) :
    Unmarked (word.toList ++ (t ++ rest)) := by
  have opens := (solid_of_mem_fronts mem).opens
  by_cases same : word = "type"
  · obtain ⟨g, gap, rfl⟩ := typed same
    have name_opens := opens_of_isIdent hn rest
    rw [same] at opens ⊢
    rw [List.append_assoc]
    refine ⟨?_, ?_, opens.append _⟩
    · exact typeOnly_refuses name_opens gap (refuses_of_excludes (by decide) _) (star_refuses hn rest)
        (starts_lit (by decide))
    · exact typeOnly_refuses name_opens gap (refuses_of_excludes (by decide) _)
        (refuses_of_isIdent hn (starts_lit (by decide)) rest) (starts_lit (by decide))
  · have checked : ∀ w ∈ fronts, w ≠ "type" → (typeOnly ++ lit "*").excludes w.toList = true ∧
        (typeOnly ++ lit "\x7b").excludes w.toList = true := by decide
    obtain ⟨star, brace⟩ := checked word mem same
    exact ⟨refuses_of_excludes star _, refuses_of_excludes brace _, opens.append _⟩

/-! ### Whole modules -/

theorem Modifies.prefers_typeOnly (h : Modifies "type" present k)
    (opens : Opens (fun c => Text.isBlank c = false) t) (other : Refuses (lit "type") t) :
    Prefers typeOnly k t (if present then [(1, k)] else []) := by
  cases h with
  | absent => exact .alt_right ((other.append _).group 1) (prefers_done t)
  | present gap => exact typeOnly_prefers gap opens

/-- `export` and a mark, with `type` in between if it is there. -/
theorem marked_prefers (mark : String) (gap : Text.Gap g) (typed : Modifies "type" present k)
    (inked : Opens (fun c => Text.isBlank c = false) mark.toList)
    (other : (lit "type").excludes mark.toList = true) (rest : Text) :
    Prefers (lit "export" ++ blanks1 ++ typeOnly ++ lit mark)
      ("export".toList ++ g ++ k ++ mark.toList) rest (if present then [(1, k)] else []) := by
  have opens : Opens (fun c => Text.isBlank c = false) (k ++ (mark.toList ++ rest)) := by
    cases typed with
    | absent => exact inked.append rest
    | present => exact ⟨'t', _, rfl, by decide⟩
  have keyword : Prefers typeOnly k (mark.toList ++ rest) (if present then [(1, k)] else []) :=
    typed.prefers_typeOnly (inked.append rest) (refuses_of_excludes other rest)
  simpa using (((prefers_lit "export" _).seq (prefers_blanks1 opens gap)).seq keyword).seq
    (prefers_lit mark rest)

/-- The words that give a module a name. -/
def spaceWords (space? : Option String) : List Text :=
  (space?.map fun n => ["as".toList, n.toList]).getD []

/-- A name for a module is remembered, and without one nothing is taken. -/
theorem exists_space {space? : Option String} (hn : ∀ n ∈ space?, IsIdent n.toList)
    (h : Spaced (spaceWords space? ++ ["from".toList, quotation q source]) t) :
    ∃ a b, t = a ++ ("from".toList ++ b ++ quotation q source) ∧ (∀ c ∈ b, Text.isBlank c = true) ∧
      Opens (fun c => Text.isBlank c = false) t ∧
      ∀ rest, Prefers (opt (lit "as" ++ blanks1 ++ group 2 ident ++ blanks)) a
        ("from".toList ++ b ++ quotation q source ++ rest)
        (space?.map fun n => (2, n.toList)).toList := by
  cases space? with
  | none =>
    have h : Spaced ["from".toList, quotation q source] t := h
    obtain ⟨b, _, rfl, gap, last⟩ := h.of_cons
    rw [last.eq_of_singleton]
    refine ⟨[], b, by simp, gap.blank, ⟨'f', _, rfl, by decide⟩, fun rest => ?_⟩
    refine .alt_right ?_ (prefers_done _)
    rw [List.nil_append, List.append_assoc, List.append_assoc]
    exact refuses_of_excludes (by decide) _
  | some n =>
    have h : Spaced ["as".toList, n.toList, "from".toList, quotation q source] t := h
    have isName := hn n rfl
    obtain ⟨g, _, rfl, gap, h⟩ := h.of_cons
    obtain ⟨g', _, rfl, gap', h⟩ := h.of_cons
    obtain ⟨b, _, rfl, gap'', last⟩ := h.of_cons
    rw [last.eq_of_singleton]
    refine ⟨"as".toList ++ g ++ n.toList ++ g', b, by simp, gap''.blank, ⟨'a', _, rfl, by decide⟩,
      fun rest => ?_⟩
    have word : Opens (fun c => Text.isBlank c = false)
        ("from".toList ++ b ++ quotation q source ++ rest) := ⟨'f', _, rfl, by decide⟩
    have named : Prefers (group 2 ident) n.toList
        (g' ++ ("from".toList ++ b ++ quotation q source ++ rest)) [(2, n.toList)] :=
      (ident_prefers isName (apart_of_blank (gap'.opens.append _))).group 2
    exact ((((prefers_lit "as" _).seq (prefers_blanks1 (opens_of_isIdent isName _) gap)).seq
      named).seq (prefers_blanks word gap'.blank)).alt_left _

/-- A statement that exports a whole module. -/
theorem exportsOf_all {space? : Option String} {source : String} {cs : Text}
    (hn : ∀ n ∈ space?, IsIdent n.toList) (hq : isQuote q = true) (hs : IsSource source.toList)
    (h : Spaced ("export".toList :: (modifier "type" present ++ ("*".toList ::
      (spaceWords space? ++ ["from".toList, quotation q source.toList])))) t)
    (trimmed : Text.trim cs = t ++ tail) (declared : List String) (location : Location) :
    exportsOf cs declared location = [{
      name := space?.getD "*"
      kind := if space?.isSome then .namespaceReExport else .reExport
      source := some source
      isTypeOnly := present
      location := location }] := by
  obtain ⟨g, _, rfl, gap, h⟩ := h.behind (by simp)
  obtain ⟨k, _, rfl, typed, h⟩ := exists_modifies h (by simp)
  obtain ⟨g', _, rfl, gap', h⟩ := h.behind (by simp)
  obtain ⟨a, b, rfl, blank, opens, named⟩ := exists_space hn h
  let ending : Text := "from".toList ++ b ++ quotation q source.toList
  have module : Prefers (fromClause 3) ending tail [(3, source.toList)] :=
    fromClause_prefers hq hs blank 3 tail
  have space : Prefers blanks g' (a ++ (ending ++ tail)) [] := by
    rw [← List.append_assoc]
    exact prefers_blanks (opens.append tail) gap'.blank
  obtain ⟨m, found, shows⟩ := ((((marked_prefers "*" gap typed ⟨'*', _, rfl, by decide⟩
    (by decide) _).seq space).seq (named tail)).seq module).matchFront?
  have words : Text.trim cs =
      "export".toList ++ g ++ k ++ "*".toList ++ g' ++ a ++ ending ++ tail := by
    rw [trimmed]
    simp only [List.append_assoc, ending]
  have found : exportStar.matchFront? (Text.trim cs) = some m := by
    rw [words]
    exact found
  have sourced : m.groupText 3 = source.toList := shows.groupText 3
  have isTyped : (m.group? 1).isSome = present := by
    rw [shows.isSome 1]
    cases space? <;> cases present <;> rfl
  have spaced : (m.group? 2).map Span.text = space?.map String.toList := by
    rw [shows.group? 2]
    cases space? <;> cases present <;> rfl
  unfold exportsOf
  simp only [found, sourced, isTyped]
  cases space? with
  | none =>
    rw [Option.map_none, Option.map_eq_none_iff] at spaced
    simp [spaced]
  | some n =>
    obtain ⟨s, remembered, same⟩ := Option.map_eq_some_iff.mp spaced
    simp [remembered, same]

/-! ### Lists of names -/

/-- The words that name a source. -/
def sourceWords (q : Char) (source? : Option String) : List Text :=
  (source?.map fun s => ["from".toList, quotation q s.toList]).getD []

/-- What a list of names exports. -/
def namesStated (names : List ImportedName) (isTypeOnly : Bool) (source? : Option String)
    (location : Location) : List Export :=
  names.map fun n =>
    { name := n.localName
      localName := n.rename.map fun _ => n.name
      kind := if source?.isSome then .reExport else .named
      source := source?
      isTypeOnly := isTypeOnly || n.isType
      location := location }

theorem specifierExports_of_specifiers {block : Text} {names : List ImportedName}
    (reads : specifiers block = names) (source? : Option String) (isTypeOnly : Bool)
    (location : Location) :
    specifierExports block (source?.map String.toList) isTypeOnly location =
      namesStated names isTypeOnly source? location := by
  unfold specifierExports namesStated
  rw [reads]
  refine List.map_congr_left fun n _ => ?_
  cases n.rename <;> cases source? <;> simp

/-- A block of names, with or without a source behind it. -/
theorem exportsOf_block (source? : Option String) {block e cs : Text} {names : List ImportedName}
    (gap : Text.Gap g) (typed : Modifies "type" present k) (close : '\x7d' ∉ block)
    (reads : specifiers block = names) (spaces : Prefers blanks b (e ++ rest) [])
    (ending : Prefers (opt (fromClause 3)) e rest (source?.map fun s => (3, s.toList)).toList)
    (trimmed : Text.trim cs = "export".toList ++ (g ++ (k ++ ("\x7b".toList ++ block ++
      "\x7d".toList ++ (b ++ e)))) ++ rest) (declared : List String) (location : Location) :
    exportsOf cs declared location = namesStated names present source? location := by
  -- The pattern of a whole module fails at the brace.
  have brace (r : Text) : Refuses (lit "*") ("\x7b".toList ++ r) := refuses_of_excludes (by decide) r
  have opens (r : Text) : Opens (fun c => Text.isBlank c = false) ("\x7b".toList ++ r) :=
    ⟨'\x7b', _, rfl, by decide⟩
  have star (r : Text) :
      exportStar.matchFront? ("export".toList ++ (g ++ (k ++ ("\x7b".toList ++ r)))) = none := by
    cases typed with
    | absent =>
      exact (refuses_exportStar gap (opens r) (refuses_of_excludes (by decide) r)).matchFront?
    | present gap' =>
      have inked : Opens (fun c => Text.isBlank c = false) "type".toList := ⟨'t', _, rfl, by decide⟩
      refine (refuses_exportStar gap (inked.append _ |>.append _) ?_).matchFront?
      rw [List.append_assoc]
      exact typeOnly_refuses (opens r) gap' (refuses_of_excludes (by decide) _) (brace r)
        (starts_lit (by decide))
  obtain ⟨m, found, shows⟩ := (((((marked_prefers "\x7b" gap typed ⟨'\x7b', _, rfl, by decide⟩
    (by decide) _).seq (block_prefers close 2 _)).seq (prefers_lit "\x7d" _)).seq spaces).seq
    ending).matchFront?
  have none : exportStar.matchFront? (Text.trim cs) = none := by
    rw [trimmed]
    simpa using star (block ++ "\x7d".toList ++ (b ++ e) ++ rest)
  have words : Text.trim cs = "export".toList ++ g ++ k ++ "\x7b".toList ++ block ++ "\x7d".toList ++
      b ++ e ++ rest := by
    rw [trimmed]
    simp only [List.append_assoc]
  have found : exportNamed.matchFront? (Text.trim cs) = some m := by
    rw [words]
    exact found
  have named : m.groupText 2 = block := by
    rw [shows.groupText 2]
    cases source? <;> rfl
  have isTyped : (m.group? 1).isSome = present := by
    rw [shows.isSome 1]
    cases source? <;> cases present <;> rfl
  have sourced : (m.group? 3).map Span.text = source?.map String.toList := by
    rw [shows.group? 3]
    cases source? <;> cases present <;> rfl
  unfold exportsOf
  simp only [none, found, named, isTyped, sourced]
  exact specifierExports_of_specifiers reads source? present location

/-- A statement that exports a list of names. -/
theorem exportsOf_names {names : List ImportedName} {source? : Option String} {cs : Text}
    (wf : ∀ n ∈ names, n.WellFormed) (hq : isQuote q = true)
    (hs : ∀ s ∈ source?, IsSource s.toList) (ends : source? = none → Ends tail)
    (h : Spaced ("export".toList :: (modifier "type" present ++
      ((Bound.names names).tokens ++ sourceWords q source?))) t)
    (trimmed : Text.trim cs = t ++ tail) (declared : List String) (location : Location) :
    exportsOf cs declared location = namesStated names present source? location := by
  have braces : (Bound.names names).tokens ≠ [] := by simp [Bound.tokens]
  obtain ⟨g, _, rfl, gap, h⟩ := h.behind (by simp [braces])
  obtain ⟨k, _, rfl, typed, h⟩ := exists_modifies h (by simp [braces])
  cases source? with
  | none =>
    rw [sourceWords, Option.map_none, Option.getD_none, List.append_nil] at h
    obtain ⟨block, rfl, close, -, reads⟩ := exists_block wf h
    have starts : Starts (· = 'f') (fromClause 3) := by
      have word : Starts (· = 'f') (lit "from") := starts_lit (by decide)
      exact word.append.append
    have unsourced {r : Text} (h : ¬Opens (· = 'f') r) : Prefers (opt (fromClause 3)) [] r [] :=
      .alt_right (starts.refuses h) (prefers_done r)
    cases ends rfl with
    | nothing =>
      have ending := unsourced (r := []) (by rintro ⟨c, r, none, -⟩; cases none)
      exact exportsOf_block none gap typed close reads
        (prefers_star_one (w := []) (by simp) (by simp)) ending (by simpa using trimmed) declared
        location
    | @semicolon b blank =>
      have ending := unsourced (r := [';']) (by rintro ⟨c, r, same, rfl⟩; cases same)
      exact exportsOf_block none gap typed close reads
        (prefers_blanks ⟨';', [], rfl, by decide⟩ blank) ending (by simpa using trimmed) declared
        location
  | some s =>
    obtain ⟨u, b, v, rfl, hu, gap', hv⟩ := h.split braces (by simp [sourceWords])
    obtain ⟨block, rfl, close, -, reads⟩ := exists_block wf hu
    have hv : Spaced ["from".toList, quotation q s.toList] v := hv
    obtain ⟨b', _, rfl, gap'', last⟩ := hv.of_cons
    rw [last.eq_of_singleton, ← List.append_assoc "from".toList] at trimmed
    have ending : Prefers (opt (fromClause 3)) ("from".toList ++ b' ++ quotation q s.toList) tail
        [(3, s.toList)] := (fromClause_prefers hq (hs s rfl) gap''.blank 3 tail).alt_left _
    have word : Opens (fun c => Text.isBlank c = false)
        ("from".toList ++ b' ++ quotation q s.toList ++ tail) := ⟨'f', _, rfl, by decide⟩
    exact exportsOf_block (some s) gap typed close reads (prefers_blanks word gap'.blank)
      ending trimmed declared location

/-! ### Defaults and declarations -/

theorem exportsOf_default {cs : Text} (gap : Text.Gap g) (gap' : Text.Gap b)
    (opens : Opens (fun c => Text.isBlank c = false) t)
    (trimmed : Text.trim cs = "export".toList ++ (g ++ ("default".toList ++ (b ++ t))))
    (declared : List String) (location : Location) :
    exportsOf cs declared location =
      [{ name := "default", kind := .default, localName := localOf t, location := location }] := by
  have inked : Opens (fun c => Text.isBlank c = false) "default".toList := ⟨'d', _, rfl, by decide⟩
  have unmarked : Unmarked ("default".toList ++ (b ++ t)) :=
    ⟨refuses_of_excludes (by decide) _, refuses_of_excludes (by decide) _, inked.append _⟩
  obtain ⟨star, names⟩ := unmarked.matchFront? gap
  have keyword := (prefers_lit "export" _).seq (prefers_blanks1 (inked.append (b ++ t)) gap)
  obtain ⟨m, found, shows⟩ :=
    ((keyword.seq (prefers_lit "default" _)).seq (prefers_blanks1 opens gap')).matchFront?
  have words : "export".toList ++ (g ++ ("default".toList ++ (b ++ t))) =
      "export".toList ++ g ++ "default".toList ++ b ++ t := by simp only [List.append_assoc]
  have found : exportDefault.matchFront? ("export".toList ++ (g ++ ("default".toList ++ (b ++ t)))) =
      some m := by
    rw [words]
    exact found
  have behind :
      ("export".toList ++ (g ++ ("default".toList ++ (b ++ t)))).drop m.whole.text.length = t := by
    rw [shows.whole, words, List.drop_left]
  unfold exportsOf
  simp only [trimmed, star, names, found, behind]
  rfl

/-- A statement that declares what it exports. -/
theorem exportsOf_declaration {d : Declared} {name : String} {declared : List String} {cs : Text}
    (wf : d.WellFormed) (hn : IsIdent name.toList) (stop : Apart tail)
    (unreserved : d = .plain "const" → name ≠ "enum")
    (single : d.isVariable = true → declared = [] ∨ declared = [name])
    (h : Spaced ("export".toList :: (d.tokens ++ [name.toList])) t)
    (trimmed : Text.trim cs = t ++ tail) (location : Location) :
    exportsOf cs declared location =
      [{ name := name, kind := .declaration, isTypeOnly := d.isTypeOnly, location := location }] := by
  obtain ⟨g, t, rfl, gap, h⟩ := h.behind (by simp)
  obtain ⟨w, mem, r, front, typed⟩ := d.exists_front wf h
  have shape : t ++ tail = w.toList ++ (r ++ tail) := by rw [front, List.append_assoc]
  have unmarked : Unmarked (t ++ tail) := shape ▸ unmarked_of_front mem hn typed tail
  have others : ∀ w ∈ fronts, (lit "default").excludes w.toList = true ∧
      (lit "declare").excludes w.toList = true := by decide
  obtain ⟨default, declare⟩ := others w mem
  have default : Refuses (lit "default") (t ++ tail) := shape ▸ refuses_of_excludes default _
  have declare : Refuses (lit "declare") (t ++ tail) := shape ▸ refuses_of_excludes declare _
  obtain ⟨a, u, k, rfl, async, body, reads⟩ := d.exists_body wf hn stop
    (fun same equal => unreserved same (String.toList_inj.mp equal)) h
  obtain ⟨star, names⟩ := unmarked.matchFront? gap
  have noDefault := (refuses_exportDefault gap unmarked.opens default).matchFront?
  rw [List.append_assoc a] at unmarked declare
  have undeclared : Prefers (opt (lit "declare" ++ blanks1)) [] (a ++ (u ++ tail)) [] :=
    .alt_right (declare.append _) (prefers_done _)
  have keyword :
      Prefers (lit "export" ++ blanks1) ("export".toList ++ g) ([] ++ (a ++ (u ++ tail))) [] :=
    (prefers_lit "export" _).seq (prefers_blanks1 unmarked.opens gap)
  obtain ⟨m, found, shows⟩ := (((keyword.seq undeclared).seq async).seq body).matchFront?
  have words : "export".toList ++ g ++ [] ++ a ++ u ++ tail =
      "export".toList ++ (g ++ (a ++ u ++ tail)) := by simp only [List.append_assoc, List.append_nil]
  rw [words] at found
  have found : exportDeclaration.matchFront? ("export".toList ++ (g ++ (a ++ u ++ tail))) = some m :=
    found
  have trimmed : Text.trim cs = "export".toList ++ (g ++ (a ++ u ++ tail)) := by simpa using trimmed
  have kept : m.groupText 1 = k := shows.groupText 1
  have named : m.groupText 2 = name.toList := shows.groupText 2
  unfold exportsOf
  simp only [trimmed, star, names, noDefault, found, kept, named]
  exact declarationExports_of_reads reads single location

/-! ### Exports -/

/-- What an export statement says. -/
inductive ExportForm where
  | all (space? : Option String) (isTypeOnly : Bool) (source : String)
  | names (names : List ImportedName) (isTypeOnly : Bool) (source? : Option String)
  | default (target : Target) (name : String)
  | declaration (declared : Declared) (name : String)
  deriving DecidableEq, Repr

namespace ExportForm

/-- The words of the statement. -/
def tokens (q : Char) : ExportForm → List Text
  | all space? isTypeOnly source => "export".toList :: (modifier "type" isTypeOnly ++ ("*".toList ::
      (spaceWords space? ++ ["from".toList, quotation q source.toList])))
  | names ns isTypeOnly source? => "export".toList :: (modifier "type" isTypeOnly ++
      ((Bound.names ns).tokens ++ sourceWords q source?))
  | default target name => "export".toList :: "default".toList :: (target.tokens ++ [name.toList])
  | declaration d name => "export".toList :: (d.tokens ++ [name.toList])

/-- The names are names and the sources have no quotes. Of the reserved words only `enum` matters:
behind `const` it is part of the keyword. -/
def WellFormed : ExportForm → Prop
  | all space? _ source => (∀ n ∈ space?, IsIdent n.toList) ∧ IsSource source.toList
  | names ns _ source? => (∀ n ∈ ns, n.WellFormed) ∧ ∀ s ∈ source?, IsSource s.toList
  | default _ name => IsIdent name.toList
  | declaration d name => d.WellFormed ∧ IsIdent name.toList ∧ (d = .plain "const" → name ≠ "enum")

instance : ∀ f : ExportForm, Decidable f.WellFormed
  | all space? _ source =>
    inferInstanceAs (Decidable ((∀ n ∈ space?, IsIdent n.toList) ∧ IsSource source.toList))
  | names ns _ source? =>
    inferInstanceAs (Decidable ((∀ n ∈ ns, n.WellFormed) ∧ ∀ s ∈ source?, IsSource s.toList))
  | default _ name => inferInstanceAs (Decidable (IsIdent name.toList))
  | declaration d name =>
    inferInstanceAs (Decidable (d.WellFormed ∧ IsIdent name.toList ∧
      (d = .plain "const" → name ≠ "enum")))

/-- What can stand behind the words, without the blanks at its end: anything behind a source, the end
of the statement behind a list or a name, and behind a declaration what is no part of its name. -/
def Follows : ExportForm → Text → Prop
  | all .., _ | names _ _ (some _), _ => True
  | names _ _ none, tail => Ends tail
  | default target _, tail => target.Follows tail
  | declaration .., tail => Apart tail

/-- Where variables are declared, there is only the one of the statement. -/
def Fits : ExportForm → List String → Prop
  | declaration d name, declared => d.isVariable = true → declared = [] ∨ declared = [name]
  | _, _ => True

/-- The exports that the statement states. -/
def stated (location : Location) : ExportForm → List Export
  | all space? isTypeOnly source => [{
      name := space?.getD "*"
      kind := if space?.isSome then .namespaceReExport else .reExport
      source := some source, isTypeOnly := isTypeOnly, location := location }]
  | names ns isTypeOnly source? => namesStated ns isTypeOnly source? location
  | default _ name =>
    [{ name := "default", localName := some name, kind := .default, location := location }]
  | declaration d name =>
    [{ name := name, kind := .declaration, isTypeOnly := d.isTypeOnly, location := location }]

/-- What the statement is read as: of a default without a keyword, a name that goes on behind
`function` is shortened. -/
def read (location : Location) : ExportForm → List Export
  | default target name =>
    [{ name := "default", localName := some (target.localName name), kind := .default
       location := location }]
  | f => f.stated location

variable {f : ExportForm} {lead text : Text}

theorem opens (h : Spaced (f.tokens q) text) : Opens (fun c => Text.isBlank c = false) text := by
  cases f <;> exact Spaced.opens_head (w := "export".toList) h ⟨'e', _, rfl, by decide⟩

/-- No statement ends with a blank. -/
theorem WellFormed.closes (wf : f.WellFormed) (hq : isQuote q = true) (h : Spaced (f.tokens q) text) :
    Closes (fun c => Text.isBlank c = false) text := by
  suffices last : ∃ init w, f.tokens q = init ++ [w] ∧ Closes (fun c => Text.isBlank c = false) w by
    obtain ⟨init, w, words, closes⟩ := last
    rw [words] at h
    exact h.closes_last closes
  cases f with
  | all space? isTypeOnly source =>
    refine ⟨"export".toList :: (modifier "type" isTypeOnly ++ "*".toList ::
      (spaceWords space? ++ ["from".toList])), _, by simp [tokens],
      quotation_closes hq source.toList⟩
  | names ns isTypeOnly source? =>
    cases source? with
    | none =>
      refine ⟨"export".toList :: (modifier "type" isTypeOnly ++ "\x7b".toList :: listed ns),
        "\x7d".toList, by simp [tokens, Bound.tokens, sourceWords], [], '\x7d', rfl, by decide⟩
    | some s =>
      refine ⟨"export".toList :: (modifier "type" isTypeOnly ++ ((Bound.names ns).tokens ++
        ["from".toList])), _, by simp [tokens, sourceWords], quotation_closes hq s.toList⟩
  | default target name =>
    exact ⟨"export".toList :: "default".toList :: target.tokens, _, by simp [tokens],
      (solid_of_isIdent wf).closes⟩
  | declaration d name =>
    exact ⟨"export".toList :: d.tokens, _, by simp [tokens], (solid_of_isIdent wf.2.1).closes⟩

/-- A statement, however its words are set off, is read as what it states, save for the names that
are shortened. -/
theorem exportsOf_tokens {declared : List String} (wf : f.WellFormed) (hq : isQuote q = true)
    (hl : ∀ c ∈ lead, Text.isBlank c = true) (h : Spaced (f.tokens q) text)
    (follows : f.Follows (Text.trimEnd tail)) (fits : f.Fits declared) (location : Location) :
    exportsOf (lead ++ text ++ tail) declared location = f.read location := by
  have trimmed := Text.trim_append hl (opens h) (wf.closes hq h) tail
  cases f with
  | all space? isTypeOnly source => exact exportsOf_all wf.1 hq wf.2 h trimmed declared location
  | names ns isTypeOnly source? =>
    refine exportsOf_names wf.1 hq wf.2 ?_ h trimmed declared location
    rintro rfl
    exact follows
  | default target name =>
    obtain ⟨g, _, rfl, gap, h⟩ := Spaced.of_cons h
    obtain ⟨g', t, rfl, gap', h⟩ := h.behind (by simp)
    have inked : Opens (fun c => Text.isBlank c = false) (t ++ Text.trimEnd tail) := by
      refine (h.opens (by simp) fun w hw => ?_).append _
      rcases List.mem_append.mp hw with hw | hw
      · exact (target.isToken w hw).solid (by decide)
      · exact List.mem_singleton.mp hw ▸ solid_of_isIdent wf
    have trimmed :
        Text.trim (lead ++ ("export".toList ++ (g ++ ("default".toList ++ (g' ++ t)))) ++ tail) =
          "export".toList ++ (g ++ ("default".toList ++ (g' ++ (t ++ Text.trimEnd tail)))) := by
      simpa using trimmed
    rw [exportsOf_default gap gap' inked trimmed, localOf_target wf follows h]
    rfl
  | declaration d name =>
    exact exportsOf_declaration wf.1 wf.2.1 follows wf.2.2 fits h trimmed location

end ExportForm

/-- Reading an export statement that is written with blanks between its words gives what it states,
whatever the names are, except that of a default name that goes on behind `function` only the rest is
read. -/
theorem nodeExports_of_tokens {f : ExportForm} {n : Node} {lead text : Text} (wf : f.WellFormed)
    (hq : isQuote q = true) (hl : ∀ c ∈ lead, Text.isBlank c = true) (h : Spaced (f.tokens q) text)
    (follows : f.Follows (Text.trimEnd tail)) (fits : f.Fits (variableNames n))
    (hn : n.text = some (String.ofList (lead ++ text ++ tail))) :
    nodeExports n = f.read n.location := by
  rw [nodeExports, hn]
  simp only [String.toList_ofList]
  exact ExportForm.exportsOf_tokens wf hq hl h follows fits n.location

/-- Keywords as names and as second names. -/
theorem nodeExports_of_tokens_contextual : ∃ n : Node,
    n.text = some "export \x7b type as as , default as $y \x7d ;" ∧
      nodeExports n =
        [{ name := "as", localName := some "type", kind := .named, location := n.location },
         { name := "$y", localName := some "default", kind := .named, location := n.location }] := by
  let f : ExportForm := .names [⟨"type", some "as", false⟩, ⟨"default", some "$y", false⟩] false none
  let text : String := "export \x7b type as as , default as $y \x7d"
  let n : Node := { Node.bare 0 .exportDecl .zero with text := some (text ++ " ;") }
  have spaced : Spaced (f.tokens '\x22') text.toList := by
    have words := Text.spaced_intercalate (f.tokens '\x22')
    have same : [' '].intercalate (f.tokens '\x22') = text.toList := by decide +kernel
    rwa [same] at words
  have ends : Ends (Text.trimEnd [' ', ';']) := .semicolon (b := [' ']) (by simp [Text.isBlank])
  refine ⟨n, rfl, ?_⟩
  exact @nodeExports_of_tokens [' ', ';'] '\x22' f n [] text.toList (by decide +kernel) (by decide)
    (by simp) spaced ends trivial (by decide +kernel)

/-- A default name that goes on behind `function` is not read as a whole. -/
theorem nodeExports_of_tokens_functional : ∃ n : Node, n.text = some "export default functional;" ∧
    nodeExports n =
      [{ name := "default", localName := some "al", kind := .default, location := n.location }] ∧
    nodeExports n ≠ (ExportForm.default .bare "functional").stated n.location := by
  let n : Node := { Node.bare 0 .exportDecl .zero with text := some "export default functional;" }
  exact ⟨n, rfl, by decide +kernel, by decide +kernel⟩

end Script

end SourceTree
