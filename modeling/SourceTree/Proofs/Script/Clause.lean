import SourceTree.Proofs.Pattern.Prefers
import SourceTree.Script.Linkage

/-!
Reading import clauses. A clause that is written with blanks between its words is read as what it
binds: `type` and `as` can be names as well, and the number of words tells which of them are.
-/

namespace SourceTree

open Text (Solid Spaced Opens Closes)

/-- A name that can be bound: word characters and dollar signs. -/
def IsIdent (w : Text) : Prop := w ≠ [] ∧ ∀ c ∈ w, Script.isIdentPart c = true

instance (w : Text) : Decidable (IsIdent w) :=
  decidable_of_iff (w ≠ [] ∧ w.all Script.isIdentPart = true)
    (and_congr_right fun _ => List.all_eq_true)

namespace ImportedName

structure WellFormed (n : ImportedName) : Prop where
  name : IsIdent n.name.toList
  rename : ∀ r ∈ n.rename, IsIdent r.toList

instance (n : ImportedName) : Decidable n.WellFormed :=
  decidable_of_iff (IsIdent n.name.toList ∧ ∀ r ∈ n.rename, IsIdent r.toList)
    ⟨fun h => ⟨h.1, h.2⟩, fun h => ⟨h.1, h.2⟩⟩

/-- The words of a specifier. -/
def tokens (n : ImportedName) : List Text :=
  (if n.isType then ["type".toList] else []) ++ [n.name.toList] ++
    (n.rename.map fun r => ["as".toList, r.toList]).getD []

end ImportedName

namespace Script

open Pattern

variable {w : Text}

/-! ### Names -/

theorem isBlank_of_isIdentPart {c : Char} (h : isIdentPart c = true) : Text.isBlank c = false := by
  rw [Bool.eq_false_iff]
  intro blank
  rw [isIdentPart, Text.not_isWord_of_isBlank blank, Bool.false_or, beq_iff_eq] at h
  subst h
  exact absurd blank (by decide)

theorem solid_of_isIdent (h : IsIdent w) : Solid w :=
  ⟨h.1, fun c hc => isBlank_of_isIdentPart (h.2 c hc)⟩

/-- A mark is no part of a name. -/
theorem not_mem_of_isIdent (h : IsIdent w) {c : Char} (mark : isIdentPart c = false) : c ∉ w := by
  intro mem
  rw [h.2 c mem] at mark
  cases mark

/-- A name, or one of these marks. -/
def IsToken (marks : List Char) (w : Text) : Prop := IsIdent w ∨ ∃ c ∈ marks, w = [c]

theorem IsToken.mono {marks marks' : List Char} (h : IsToken marks w) (sub : marks ⊆ marks') :
    IsToken marks' w :=
  h.imp_right fun ⟨c, mem, same⟩ => ⟨c, sub mem, same⟩

theorem IsToken.solid {marks : List Char} (h : IsToken marks w)
    (inked : marks.all (fun c => !Text.isBlank c) = true) : Solid w := by
  rcases h with ident | ⟨c, mem, rfl⟩
  · exact solid_of_isIdent ident
  · refine ⟨by simp, fun x hx => ?_⟩
    rw [List.mem_singleton.mp hx]
    simpa using List.all_eq_true.mp inked c mem

theorem IsToken.not_mem {marks : List Char} {c : Char} (h : IsToken marks w)
    (other : (!isIdentPart c && !(marks.contains c)) = true) : c ∉ w := by
  simp only [Bool.and_eq_true, Bool.not_eq_true', List.contains_eq_mem, decide_eq_false_iff_not]
    at other
  rcases h with ident | ⟨x, mem, rfl⟩
  · exact not_mem_of_isIdent ident other.1
  · rw [List.mem_singleton]
    rintro rfl
    exact other.2 mem

end Script

namespace ImportedName

/-- Every word of a specifier could be a name. -/
theorem WellFormed.words {n : ImportedName} (wf : n.WellFormed) : ∀ w ∈ n.tokens, IsIdent w := by
  intro w hw
  obtain ⟨name, rename, isType⟩ := n
  simp only [tokens, List.mem_append, List.mem_singleton] at hw
  rcases hw with (hw | rfl) | hw
  · split at hw
    · rw [List.mem_singleton.mp hw]
      decide
    · cases hw
  · exact wf.name
  · cases rename with
    | none => cases hw
    | some r =>
      have either : w = "as".toList ∨ w = r.toList := by simpa using hw
      rcases either with rfl | rfl
      · decide
      · exact wf.rename r rfl

theorem WellFormed.solid {n : ImportedName} (wf : n.WellFormed) : ∀ w ∈ n.tokens, Solid w :=
  fun w hw => Script.solid_of_isIdent (wf.words w hw)

theorem WellFormed.not_mem {n : ImportedName} (wf : n.WellFormed) {c : Char}
    (mark : Script.isIdentPart c = false) : ∀ w ∈ n.tokens, c ∉ w :=
  fun w hw => Script.not_mem_of_isIdent (wf.words w hw) mark

theorem tokens_ofList (name : Text) (rename : Option Text) (isType : Bool) :
    ImportedName.tokens ⟨String.ofList name, rename.map String.ofList, isType⟩ =
      (if isType then ["type".toList] else []) ++
        name :: (rename.map fun r => ["as".toList, r]).getD [] := by
  cases rename <;> simp [tokens]

/-- The words of a specifier tell what it is, since their number tells which of them are names. -/
theorem tokens_injective {n n' : ImportedName} (h : n.tokens = n'.tokens) : n = n' := by
  obtain ⟨name, rename, isType⟩ := n
  obtain ⟨name', rename', isType'⟩ := n'
  cases isType <;> cases isType' <;> cases rename <;> cases rename' <;>
    simp_all [tokens, String.toList_inj]

end ImportedName

namespace Script

open Pattern

variable {w gap t : Text} {gs : Groups} {offset : Nat}

/-! ### Specifiers -/

/-- The pattern of a second name. -/
def aliasing : Pattern := opt (blanks1 ++ lit "as" ++ blanks1 ++ group 3 ident)

/-- A specifier without the end of the text behind it. -/
def specifierBody : Pattern := typeOnly ++ group 2 ident ++ aliasing

/-- What the groups of a specifier say. -/
def named (gs : Groups) : ImportedName where
  name := String.ofList (((gs.lookup 2).map Span.text).getD [])
  rename := (gs.lookup 3).map fun g => String.ofList g.text
  isType := (gs.lookup 1).isSome

theorem takes_ident_iff : Takes ident offset w gs ↔ IsIdent w ∧ gs = [] := by
  constructor
  · intro h
    obtain ⟨full, parts, rfl⟩ := takes_plus_one h
    exact ⟨⟨full, parts⟩, rfl⟩
  · rintro ⟨⟨full, parts⟩, rfl⟩
    exact Takes.of_plus_one offset full parts

theorem takes_typeOnly_iff : Takes typeOnly offset w gs ↔ w = [] ∧ gs = [] ∨
    ∃ g, Text.Gap g ∧ w = "type".toList ++ g ∧ gs = [(1, ⟨offset, w⟩)] := by
  constructor
  · rintro (⟨_, rfl, u, g, _, _, rfl, rfl, hu, hg⟩ | nothing)
    · obtain ⟨rfl, rfl⟩ := takes_lit hu
      obtain ⟨gap, rfl⟩ := takes_blanks1_iff.mp hg
      exact .inr ⟨g, gap, rfl, rfl⟩
    · exact .inl nothing
  · rintro (nothing | ⟨g, gap, rfl, rfl⟩)
    · exact .inr nothing
    · exact .inl ⟨[], rfl, _, g, [], [], rfl, rfl, .of_lit "type" _, takes_blanks1_iff.mpr ⟨gap, rfl⟩⟩

theorem takes_aliasing_iff : Takes aliasing offset w gs ↔ w = [] ∧ gs = [] ∨
    ∃ g g' r, Text.Gap g ∧ Text.Gap g' ∧ IsIdent r ∧ w = g ++ ("as".toList ++ (g' ++ r)) ∧
      gs = [(3, ⟨offset + Text.size (g ++ "as".toList ++ g'), r⟩)] := by
  constructor
  · rintro (⟨_, r, _, _, rfl, rfl, ⟨_, g', _, _, rfl, rfl, ⟨g, k, _, _, rfl, rfl, hg, hk⟩, hg'⟩,
      ⟨_, rfl, hr⟩⟩ | nothing)
    · obtain ⟨rfl, rfl⟩ := takes_lit hk
      obtain ⟨gap, rfl⟩ := takes_blanks1_iff.mp hg
      obtain ⟨gap', rfl⟩ := takes_blanks1_iff.mp hg'
      obtain ⟨name, rfl⟩ := takes_ident_iff.mp hr
      exact .inr ⟨g, g', r, gap, gap', name, by simp, rfl⟩
    · exact .inl nothing
  · rintro (nothing | ⟨g, g', r, gap, gap', name, rfl, rfl⟩)
    · exact .inr nothing
    · refine .inl ⟨g ++ "as".toList ++ g', r, [], _, by simp, rfl, ?_, [], rfl, ?_⟩
      · exact ⟨g ++ "as".toList, g', [], [], rfl, rfl,
          ⟨g, _, [], [], rfl, rfl, takes_blanks1_iff.mpr ⟨gap, rfl⟩, .of_lit "as" _⟩,
          takes_blanks1_iff.mpr ⟨gap', rfl⟩⟩
      · exact takes_ident_iff.mpr ⟨name, rfl⟩

/-- What a specifier takes is one, and its groups say which. -/
theorem spaced_of_takes (h : Takes specifierBody offset t gs) :
    (named gs).WellFormed ∧ Spaced (named gs).tokens t := by
  obtain ⟨_, v, _, gv, rfl, rfl, ⟨u, x, gu, _, rfl, rfl, hu, gx, rfl, hx⟩, hv⟩ := h
  obtain ⟨name, rfl⟩ := takes_ident_iff.mp hx
  have reads {w : Text} (second : Option Text) (isType : Bool) (wf : ∀ r ∈ second, IsIdent r)
      (spaced : Spaced ((if isType then ["type".toList] else []) ++
        x :: (second.map fun r => ["as".toList, r]).getD []) w) :
      ImportedName.WellFormed ⟨String.ofList x, second.map String.ofList, isType⟩ ∧
        Spaced (ImportedName.tokens ⟨String.ofList x, second.map String.ofList, isType⟩) w := by
    rw [ImportedName.tokens_ofList]
    exact ⟨⟨by simpa using name, by simpa using wf⟩, spaced⟩
  rcases takes_aliasing_iff.mp hv with ⟨rfl, rfl⟩ | ⟨g', g'', r, gap', gap'', second, rfl, rfl⟩
  · rw [List.append_nil]
    rcases takes_typeOnly_iff.mp hu with ⟨rfl, rfl⟩ | ⟨g, gap, rfl, rfl⟩
    · exact reads none false (by simp) (.last x)
    · have typed : Spaced ["type".toList, x] ("type".toList ++ (g ++ x)) :=
        .cons gap (.last x)
      rw [List.append_assoc "type".toList]
      exact reads none true (by simp) typed
  · have behind : Spaced [x, "as".toList, r] (x ++ (g' ++ ("as".toList ++ (g'' ++ r)))) :=
      .cons gap' (.cons gap'' (.last r))
    rcases takes_typeOnly_iff.mp hu with ⟨rfl, rfl⟩ | ⟨g, gap, rfl, rfl⟩
    · exact reads (some r) false (by simpa using second) behind
    · rw [List.append_assoc "type".toList, List.append_assoc "type".toList, List.append_assoc g]
      exact reads (some r) true (by simpa using second) (.cons (w := "type".toList) gap behind)

theorem takes_of_spaced {n : ImportedName} (wf : n.WellFormed) (h : Spaced n.tokens t) :
    ∃ gs, Takes specifierBody 0 t gs := by
  obtain ⟨name, second, isType⟩ := n
  have taken {u x v : Text} {gu gv : Groups} (hu : Takes typeOnly 0 u gu)
      (hx : IsIdent x) (hv : Takes aliasing (0 + Text.size (u ++ x)) v gv) :
      ∃ gs, Takes specifierBody 0 (u ++ x ++ v) gs :=
    ⟨_, _, v, _, gv, rfl, rfl,
      ⟨u, x, gu, _, rfl, rfl, hu, [], rfl, takes_ident_iff.mpr ⟨hx, rfl⟩⟩, hv⟩
  -- The words behind `type`, if that stands in front.
  have untyped {u v : Text} {gu : Groups} (hu : Takes typeOnly 0 u gu)
      (hv : Spaced (ImportedName.tokens ⟨name, second, false⟩) v) :
      ∃ gs, Takes specifierBody 0 (u ++ v) gs := by
    cases second with
    | none =>
      rw [hv.eq_of_singleton]
      simpa using taken hu wf.name (takes_aliasing_iff.mpr (.inl ⟨rfl, rfl⟩))
    | some r =>
      obtain ⟨g, _, rfl, gap, hv⟩ := hv.of_cons
      obtain ⟨g', _, rfl, gap', hv⟩ := hv.of_cons
      rw [hv.eq_of_singleton]
      have ident := wf.rename r rfl
      simpa using taken hu wf.name
        (takes_aliasing_iff.mpr (.inr ⟨g, g', _, gap, gap', ident, rfl, rfl⟩))
  cases isType with
  | false => exact untyped (takes_typeOnly_iff.mpr (.inl ⟨rfl, rfl⟩)) h
  | true =>
    obtain ⟨g, v, rfl, gap, hv⟩ := h.of_cons
    have typed : Takes typeOnly 0 ("type".toList ++ g) [(1, ⟨0, "type".toList ++ g⟩)] :=
      takes_typeOnly_iff.mpr (.inr ⟨g, gap, rfl, rfl⟩)
    rw [← List.append_assoc]
    exact untyped typed hv

/-- A specifier that is alone in its text is read as what it is, though its words can be names as
well. -/
theorem specifier_matchFront? {n : ImportedName} (wf : n.WellFormed) (h : Spaced n.tokens t) :
    ∃ m, specifier.matchFront? t = some m ∧ named m.groups = n := by
  obtain ⟨gs, takes⟩ := takes_of_spaced wf h
  have some : (specifier.matchFront? t).isSome := by
    have found : (run specifierBody (Cursor.ofText t) []
        fun d hs => run atEnd d hs fun e gs => some (e, gs)).isSome := by
      refine run_isSome_of_takes (by decide) takes (List.append_nil t).symm fun hs => ?_
      have done : ((Cursor.ofText t).past t).rest = [] := Cursor.rest_past (List.append_nil t).symm
      rw [run, done]
      rfl
    rw [matchFront?, matchAt?, Option.isSome_map]
    exact found
  obtain ⟨m, found⟩ := Option.isSome_iff_exists.mp some
  refine ⟨m, found, ?_⟩
  obtain ⟨⟨e, hs⟩, ran, rfl⟩ := Option.map_eq_some_iff.mp found
  obtain ⟨w, g, d, split, -, takes, ended⟩ := run_takes (p := specifierBody) ran
  obtain ⟨empty, last⟩ := run_atEnd_some ended
  obtain rfl : g = hs := by simpa using (Prod.mk.inj (Option.some.inj last)).2
  obtain rfl : t = w := by simpa [Cursor.ofText, empty] using split
  obtain ⟨wf', spaced⟩ := spaced_of_takes takes
  exact ImportedName.tokens_injective (spaced.unique h wf'.solid wf.solid)

/-! ### Lists of specifiers -/

/-- The words of specifiers with commas in between. -/
def listed (names : List ImportedName) : List Text :=
  [",".toList].intercalate (names.map ImportedName.tokens)

theorem listed_cons_cons (n n' : ImportedName) (names : List ImportedName) :
    listed (n :: n' :: names) = n.tokens ++ ([",".toList] ++ listed (n' :: names)) := by
  simp [listed, List.intercalate]

theorem tokens_ne_nil (n : ImportedName) : n.tokens ≠ [] := by
  simp [ImportedName.tokens]

theorem listed_ne_nil (n : ImportedName) (names : List ImportedName) : listed (n :: names) ≠ [] := by
  cases names with
  | nil => simpa [listed, List.intercalate] using tokens_ne_nil n
  | cons => simp [listed_cons_cons]

/-- A comma cuts a list in two. -/
theorem specifiers_append (plain : ',' ∉ t) (rest : Text) :
    specifiers (t ++ ',' :: rest) = specifiers t ++ specifiers rest := by
  unfold specifiers
  rw [Text.splitBy_append plain, Text.splitBy_of_not_mem plain, List.map_cons, List.map_singleton,
    ← List.singleton_append, List.filterMap_append]

/-- Every word of a list of specifiers is a name or a comma. -/
theorem isToken_of_mem_listed {names : List ImportedName} (wf : ∀ n ∈ names, n.WellFormed) :
    ∀ v ∈ listed names, IsToken [','] v := by
  induction names with
  | nil => simp [listed, List.intercalate]
  | cons n names ih =>
    have first (v : Text) (hv : v ∈ n.tokens) : IsToken [','] v := .inl ((wf n (by simp)).words v hv)
    cases names with
    | nil => simpa [listed, List.intercalate] using first
    | cons n' names =>
      intro v hv
      simp only [listed_cons_cons, List.mem_append, List.mem_singleton] at hv
      rcases hv with hv | rfl | hv
      · exact first v hv
      · exact .inr ⟨',', by simp, rfl⟩
      · exact ih (fun m hm => wf m (List.mem_cons_of_mem _ hm)) v hv

section

variable (hw : ∀ c ∈ w, Text.isBlank c = true) (hg : ∀ c ∈ gap, Text.isBlank c = true)

include hw hg

theorem specifiers_nil : specifiers (w ++ gap) = [] := by
  have blank : ∀ c ∈ w ++ gap, Text.isBlank c = true :=
    fun c hc => (List.mem_append.mp hc).elim (hw c) (hg c)
  rw [specifiers, Text.splitBy_of_not_mem (Text.not_mem_of_blank blank (by decide)),
    List.map_singleton, Text.trim_blank blank]
  rfl

theorem specifiers_one {n : ImportedName} (wf : n.WellFormed) (h : Spaced n.tokens t) :
    specifiers (w ++ (t ++ gap)) = [n] := by
  have plain : ',' ∉ w ++ (t ++ gap) := h.not_mem_gaps hw hg (by decide) (wf.not_mem (by decide))
  have trimmed : Text.trim (w ++ (t ++ gap)) = t :=
    Text.trim_gaps hw hg (h.opens (tokens_ne_nil n) wf.solid) (h.closes (tokens_ne_nil n) wf.solid)
  obtain ⟨m, found, reads⟩ := specifier_matchFront? wf h
  rw [specifiers, Text.splitBy_of_not_mem plain, List.map_singleton, trimmed, List.filterMap_cons,
    found]
  exact congrArg (fun n => [n]) reads

/-- A list of specifiers is read as what it is. -/
theorem specifiers_listed {names : List ImportedName} (wf : ∀ n ∈ names, n.WellFormed)
    (h : Spaced (listed names) t) : specifiers (w ++ (t ++ gap)) = names := by
  induction names generalizing w t with
  | nil =>
    generalize none : listed [] = ws at h
    cases h with
    | nil => exact specifiers_nil hw hg
    | _ => cases none
  | cons n names ih =>
    have first := wf n (by simp)
    cases names with
    | nil =>
      have only : listed [n] = n.tokens := by simp [listed, List.intercalate]
      rw [only] at h
      exact specifiers_one hw hg first h
    | cons n' names =>
      rw [listed_cons_cons] at h
      obtain ⟨u, g, _, rfl, hu, gap₁, h⟩ := h.split (tokens_ne_nil n) (by simp)
      obtain ⟨_, g', v, rfl, comma, gap₂, h⟩ := h.split (by simp) (listed_ne_nil n' names)
      rw [comma.eq_of_singleton]
      have cut : w ++ (u ++ (g ++ (",".toList ++ (g' ++ v))) ++ gap) =
          w ++ (u ++ g) ++ ',' :: (g' ++ (v ++ gap)) := by simp
      have plain : ',' ∉ w ++ (u ++ g) :=
        hu.not_mem_gaps hw gap₁.blank (by decide) (first.not_mem (by decide))
      rw [cut, specifiers_append plain, specifiers_one hw gap₁.blank first hu,
        ih gap₂.blank (fun m hm => wf m (List.mem_cons_of_mem _ hm)) h]
      rfl

end

/-! ### Clauses -/

/-- What an import binds beside its default. -/
inductive Bound where
  | nothing
  | space (name : String)
  | names (names : List ImportedName)
  deriving DecidableEq, Repr

namespace Bound

def WellFormed : Bound → Prop
  | nothing => True
  | space name => IsIdent name.toList
  | names ns => ∀ n ∈ ns, n.WellFormed

instance : ∀ b : Bound, Decidable b.WellFormed
  | nothing => inferInstanceAs (Decidable True)
  | space name => inferInstanceAs (Decidable (IsIdent name.toList))
  | names ns => inferInstanceAs (Decidable (∀ n ∈ ns, n.WellFormed))

def tokens : Bound → List Text
  | nothing => []
  | space name => ["*".toList, "as".toList, name.toList]
  | names ns => ["\x7b".toList] ++ listed ns ++ ["\x7d".toList]

def space? : Bound → Option String
  | space name => some name
  | _ => none

def nameList : Bound → List ImportedName
  | names ns => ns
  | _ => []

end Bound

/-- The words in front of the rest of a clause: a default binding, and a comma. -/
def front (default? : Option String) (comma : Bool) : List Text :=
  (default?.map fun d => [d.toList]).getD [] ++ if comma then [",".toList] else []

theorem namedBlock_starts : Starts (· = '\x7b') namedBlock := by
  have brace : Starts (· = '\x7b') (lit "\x7b") := starts_lit (by decide)
  exact brace.append.append

theorem namespaceBinding_starts : Starts (· = '*') namespaceBinding := by
  have star : Starts (· = '*') (lit "*") := starts_lit (by decide)
  exact star.append.append.append.append

/-- What stands between braces is taken as a whole. -/
theorem block_prefers (hw : '\x7d' ∉ w) (slot : Nat) (rest : Text) :
    Prefers (group slot (star (noneOf ['\x7d']))) w ("\x7d".toList ++ rest) [(slot, w)] := by
  have inside : ∀ x ∈ w, (!(['\x7d'].contains x)) = true := by
    intro x hx
    have other : x ≠ '\x7d' := fun same => hw (same ▸ hx)
    simp [other]
  exact (prefers_star_one inside (by simp)).group slot

theorem namedBlock_prefers (hw : '\x7d' ∉ w) (rest : Text) :
    Prefers namedBlock ("\x7b".toList ++ w ++ "\x7d".toList) rest [(1, w)] :=
  ((prefers_lit "\x7b" _).seq (block_prefers hw 1 rest)).seq (prefers_lit "\x7d" rest)

theorem namespaceBinding_prefers {g g' : Text} (hg : Text.Gap g) (hg' : Text.Gap g') (hw : IsIdent w) :
    Prefers namespaceBinding ("*".toList ++ g ++ "as".toList ++ g' ++ w) [] [(1, w)] := by
  have name : Prefers ident w [] [] := prefers_plus_one hw.1 hw.2 (by simp)
  have opens : Opens (fun c => Text.isBlank c = false) (w ++ []) :=
    (solid_of_isIdent hw).opens.append []
  have word : Opens (fun c => Text.isBlank c = false) ("as".toList ++ (g' ++ (w ++ []))) :=
    ⟨'a', _, rfl, by decide⟩
  exact ((((prefers_lit "*" _).seq (prefers_blanks word hg.blank)).seq (prefers_lit "as" _)).seq
    (prefers_blanks1 opens hg')).seq (name.group 1)

/-- What stands in front of the first comma that has something in front of it. -/
def firstPart (t : Text) : Option Text :=
  ((Text.splitBy (· == ',') t).map Text.trim).find? fun part => !part.isEmpty

theorem addClause_nothing (star : '*' ∉ t) (brace : '\x7b' ∉ t) (i : Import) :
    addClause t i = { i with
      namespaceImport := none, isWildcard := false, names := []
      defaultImport := (firstPart t).map String.ofList } := by
  have space := namespaceBinding_starts.search?_eq_none star
  have block := namedBlock_starts.search?_eq_none brace
  rw [addClause, defaultBinding, eraseFirst_of_none block, eraseFirst_of_none space, space, block]
  rfl

theorem addClause_space {g g' : Text} {name : String} (hg : Text.Gap g) (hg' : Text.Gap g')
    (hw : IsIdent name.toList) (star : '*' ∉ t) (brace : '\x7b' ∉ t) (i : Import) :
    addClause (t ++ ("*".toList ++ g ++ "as".toList ++ g' ++ name.toList)) i = { i with
      namespaceImport := some name, isWildcard := true, names := []
      defaultImport := (firstPart t).map String.ofList } := by
  obtain ⟨m, found, shows⟩ := (namespaceBinding_prefers hg hg' hw).search?
    (namespaceBinding_starts.refuses_early star _)
  have plain : '\x7b' ∉ t ++ ("*".toList ++ g ++ "as".toList ++ g' ++ name.toList ++ []) := by
    simpa [brace] using ⟨Text.not_mem_of_blank hg.blank (by decide),
      Text.not_mem_of_blank hg'.blank (by decide), not_mem_of_isIdent hw (by decide)⟩
  have block := namedBlock_starts.search?_eq_none plain
  have kept := eraseFirst_of_search? found shows.whole
  rw [List.append_nil] at found block kept
  rw [addClause, defaultBinding, eraseFirst_of_none block, kept, found, block, Option.map_some,
    shows.groupText, List.append_nil]
  simp [firstPart]

/-- What stands between the braces of a list of specifiers. -/
theorem exists_block {names : List ImportedName} (wf : ∀ n ∈ names, n.WellFormed)
    (h : Spaced (Bound.names names).tokens w) : ∃ block, w = "\x7b".toList ++ block ++ "\x7d".toList ∧
      '\x7d' ∉ block ∧ '*' ∉ block ∧ specifiers block = names := by
  have words := isToken_of_mem_listed wf
  cases names with
  | nil =>
    have h : Spaced ["\x7b".toList, "\x7d".toList] w := h
    obtain ⟨g, v, rfl, gap, last⟩ := h.of_cons
    rw [last.eq_of_singleton, ← List.append_assoc]
    have nothing := specifiers_nil (w := []) (by simp) gap.blank
    exact ⟨g, rfl, Text.not_mem_of_blank gap.blank (by decide),
      Text.not_mem_of_blank gap.blank (by decide), nothing⟩
  | cons n names =>
    have full := listed_ne_nil n names
    have h : Spaced (["\x7b".toList] ++ listed (n :: names) ++ ["\x7d".toList]) w := h
    obtain ⟨u, g', v, rfl, front, gap', last⟩ := h.split (by simp) (by simp)
    obtain ⟨u, g, t, rfl, first, gap, inner⟩ := front.split (by simp) full
    rw [first.eq_of_singleton, last.eq_of_singleton]
    refine ⟨g ++ (t ++ g'), by simp, ?_, ?_, specifiers_listed gap.blank gap'.blank wf inner⟩
    · exact inner.not_mem_gaps gap.blank gap'.blank (by decide) fun v hv =>
        (words v hv).not_mem (by decide)
    · exact inner.not_mem_gaps gap.blank gap'.blank (by decide) fun v hv =>
        (words v hv).not_mem (by decide)

theorem addClause_names {names : List ImportedName} (wf : ∀ n ∈ names, n.WellFormed)
    (h : Spaced (Bound.names names).tokens w) (star : '*' ∉ t) (brace : '\x7b' ∉ t) (i : Import) :
    addClause (t ++ w) i = { i with
      namespaceImport := none, isWildcard := false, names := names
      defaultImport := (firstPart t).map String.ofList } := by
  obtain ⟨block, rfl, close, starless, reads⟩ := exists_block wf h
  obtain ⟨m, found, shows⟩ := (namedBlock_prefers close []).search?
    (namedBlock_starts.refuses_early brace _)
  have whole : '*' ∉ t ++ ("\x7b".toList ++ block ++ "\x7d".toList ++ []) := by
    simpa [star] using starless
  have space := namespaceBinding_starts.search?_eq_none whole
  have space' := namespaceBinding_starts.search?_eq_none star
  have kept := eraseFirst_of_search? found shows.whole
  rw [List.append_nil] at found space kept
  rw [List.append_nil] at kept
  rw [addClause, defaultBinding, kept, eraseFirst_of_none space', space, found, Option.map_some,
    shows.groupText]
  simp [firstPart, reads]

theorem firstPart_append (plain : ',' ∉ t) (rest : Text) :
    firstPart (t ++ ',' :: rest) = if Text.trim t = [] then firstPart rest else some (Text.trim t) := by
  rw [firstPart, Text.splitBy_append plain, List.map_cons, List.find?_cons]
  split <;> simp_all [firstPart]

theorem firstPart_one (plain : ',' ∉ t) :
    firstPart t = if Text.trim t = [] then none else some (Text.trim t) := by
  rw [firstPart, Text.splitBy_of_not_mem plain, List.map_singleton, List.find?_singleton]
  simp

theorem firstPart_front {default? : Option String} {comma : Bool}
    (wf : ∀ d ∈ default?, IsIdent d.toList) (h : Spaced (front default? comma) t)
    (hg : ∀ c ∈ gap, Text.isBlank c = true) :
    firstPart (t ++ gap) = default?.map String.toList := by
  have blanks {g : Text} (hg : ∀ c ∈ g, Text.isBlank c = true) : firstPart g = none := by
    rw [firstPart_one (Text.not_mem_of_blank hg (by decide)), Text.trim_blank hg, if_pos rfl]
  have trimmed {d : String} {g : Text} (hd : IsIdent d.toList) (hg : ∀ c ∈ g, Text.isBlank c = true) :
      Text.trim (d.toList ++ g) = d.toList ∧ ',' ∉ d.toList ++ g := by
    have solid := solid_of_isIdent hd
    refine ⟨Text.trim_gaps (g := []) (by simp) hg solid.opens solid.closes, ?_⟩
    rw [List.mem_append, not_or]
    exact ⟨not_mem_of_isIdent hd (by decide), Text.not_mem_of_blank hg (by decide)⟩
  cases default? with
  | none =>
    cases comma with
    | false =>
      generalize nothing : front none false = ws at h
      cases h with
      | nil => exact blanks hg
      | _ => cases nothing
    | true =>
      rw [Spaced.eq_of_singleton h]
      exact (firstPart_append (t := []) (by simp) gap).trans (blanks hg)
  | some d =>
    have hd := wf d rfl
    cases comma with
    | false =>
      rw [Spaced.eq_of_singleton (w := d.toList) h, firstPart_one (trimmed hd hg).2,
        (trimmed hd hg).1, if_neg hd.1]
      rfl
    | true =>
      have h : Spaced [d.toList, ",".toList] t := h
      obtain ⟨g, v, rfl, gap', last⟩ := h.of_cons
      rw [last.eq_of_singleton]
      have cut : d.toList ++ (g ++ ",".toList) ++ gap = d.toList ++ g ++ ',' :: gap := by simp
      rw [cut, firstPart_append (trimmed hd gap'.blank).2, (trimmed hd gap'.blank).1, if_neg hd.1]
      rfl

theorem isToken_of_mem_front {default? : Option String} {comma : Bool}
    (wf : ∀ d ∈ default?, IsIdent d.toList) : ∀ v ∈ front default? comma, IsToken [','] v := by
  intro v hv
  rcases List.mem_append.mp hv with hv | hv
  · cases default? with
    | none => cases hv
    | some d =>
      rw [List.mem_singleton.mp hv]
      exact .inl (wf d rfl)
  · cases comma with
    | false => cases hv
    | true => exact .inr ⟨',', by simp, List.mem_singleton.mp hv⟩

/-- The words of a clause are read as what they bind. -/
theorem addClause_spaced {default? : Option String} {comma : Bool} {b : Bound}
    (wf : ∀ d ∈ default?, IsIdent d.toList) (bound : b.WellFormed)
    (h : Spaced (front default? comma ++ b.tokens) t) (i : Import) :
    addClause t i = { i with
      namespaceImport := b.space?, isWildcard := b.space?.isSome, names := b.nameList
      defaultImport := default? } := by
  obtain ⟨u, g, w, rfl, hu, hg, hw⟩ := h.divide
  have marks {c : Char} (inked : Text.isBlank c = false)
      (other : (!isIdentPart c && !([','].contains c)) = true) : c ∉ u ++ g := by
    have absent := hu.not_mem inked fun v hv => (isToken_of_mem_front wf v hv).not_mem other
    rw [List.mem_append, not_or]
    exact ⟨absent, Text.not_mem_of_blank hg inked⟩
  have star : '*' ∉ u ++ g := marks (by decide) (by decide)
  have brace : '\x7b' ∉ u ++ g := marks (by decide) (by decide)
  have same : default? = (firstPart (u ++ g)).map String.ofList := by
    rw [firstPart_front wf hu hg]
    cases default? <;> simp
  rw [same, ← List.append_assoc]
  cases b with
  | nothing =>
    generalize none : Bound.nothing.tokens = ws at hw
    cases hw with
    | nil =>
      rw [List.append_nil]
      exact addClause_nothing star brace i
    | _ => cases none
  | space name =>
    obtain ⟨g₁, _, rfl, gap₁, hw⟩ := Spaced.of_cons hw
    obtain ⟨g₂, _, rfl, gap₂, hw⟩ := hw.of_cons
    rw [hw.eq_of_singleton]
    have words : "*".toList ++ (g₁ ++ ("as".toList ++ (g₂ ++ name.toList))) =
        "*".toList ++ g₁ ++ "as".toList ++ g₂ ++ name.toList := by simp
    rw [words]
    exact addClause_space gap₁ gap₂ bound star brace i
  | names ns => exact addClause_names bound hw star brace i

end Script

end SourceTree
