import SourceTree.Java.Tree
import SourceTree.Proofs.Scan.Piece

/-!
The headers of Java declarations: every piece that is cut out of the source for a header begins and
ends at a place that touches code in the mask.
-/

namespace SourceTree.Java

open Pattern
open Scan (MaskedSource Masks Range Firm takes_group_firm takes_opt_firm)
open Text (Boundary Opens Closes)

/-- Neither a space nor an opening brace. -/
def Solid (c : Char) : Prop := c ≠ ' ' ∧ c ≠ '\x7b'

instance : DecidablePred Solid := fun c => inferInstanceAs (Decidable (c ≠ ' ' ∧ c ≠ '\x7b'))

theorem solid_of {p : Char → Bool} (h : p ' ' = false ∧ p '\x7b' = false) :
    ∀ c, p c = true → Solid c := by
  intro c hc
  refine ⟨?_, ?_⟩
  · rintro rfl
    simp [h.1] at hc
  · rintro rfl
    simp [h.2] at hc

theorem solid_ne_space (c : Char) (h : Solid c) : c ≠ ' ' := h.1

theorem stops_one_of {p : Char → Bool} (h : p ' ' = false ∧ p '\x7b' = false) :
    Stops (· ≠ ' ') (one p) :=
  stops_one fun c hc => (solid_of h c hc).1

/-- What every header begins with. -/
structure Fronted (m : Match) : Prop where
  opens : Opens Solid m.whole.text
  annotations : ∃ a rest, m.group? 1 = some ⟨0, a⟩ ∧ m.whole.text = a ++ rest
  modifiers : ∃ s, m.group? 2 = some s ∧ Firm m.whole.text s

theorem starts_annotationMark : Starts Solid annotationMark :=
  (starts_lit (by decide)).append.append

theorem starts_modifier : Starts Solid (anyOf (modifierWords.map lit) ++ blanks1) :=
  (starts_words (by decide) (by decide)).append

theorem fronted {p : Pattern} {m : Match}
    (h : Takes (declarationFront ++ p) 0 m.whole.text m.groups) (starts : Starts Solid p)
    (first : 1 ∉ slots p) (second : 2 ∉ slots p) : Fronted m := by
  obtain ⟨_, tail, _, g, hw, hg, ⟨a, b, _, _, rfl, rfl, ⟨ga, rfl, ha⟩, gb, rfl, hb⟩, ht⟩ := h
  obtain rfl := hb.silent (by decide)
  have solid : Opens Solid tail := ht.opens starts
  have lead {u v : Text} (hu : u = [] ∨ Opens Solid u) (hv : Opens Solid v) : Opens Solid (u ++ v) := by
    rcases hu with rfl | hu
    · exact hv
    · exact hu.append v
  have behind := lead (hb.leads starts_modifier.2) solid
  refine ⟨?_, ⟨a, b ++ tail, ?_, by rw [hw]; simp⟩, ⟨0 + Text.size a, b⟩, ?_, a, tail, hw, by simp,
    .inr (behind.mono solid_ne_space), .inr (solid.mono solid_ne_space)⟩
  · rw [hw, List.append_assoc]
    exact lead (ha.leads starts_annotationMark.append.2) behind
  · rw [Match.group?, hg, List.lookup_append, ht.lookup_eq_none first]
    rfl
  · rw [Match.group?, hg, List.lookup_append, ht.lookup_eq_none second]
    rfl

theorem starts_typeArguments : Starts Solid typeArguments := (starts_lit (by decide)).append.append

theorem stops_typeArguments : Stops (· ≠ ' ') typeArguments := (stops_lit (by decide)).append

theorem starts_javaName : Starts Solid javaName := (starts_one (solid_of (by decide))).append

theorem starts_typeReference : Starts Solid typeReference :=
  (starts_one (solid_of (by decide))).append.append.append

theorem stops_typeReference : Stops (· ≠ ' ') typeReference := by
  have part : Stops (· ≠ ' ') (one fun c => isPathPart c || c == '$') := stops_one_of (by decide)
  exact ((part.append_star part).append_opt stops_typeArguments.append).append_star
    (stops_lit (by decide)).append

theorem typeHeader_match {code : Text} {m : Match} (h : typeHeader.matchFront? code = some m) :
    Fronted m := by
  obtain ⟨rest, -, -, ht⟩ := matchFront?_takes h
  simp only [typeHeader, takes_assoc] at ht
  have keyword : Starts Solid (group 3 (anyOf (["class", "interface", "enum", "record",
      "@interface"].map lit))) := starts_words (by decide) (by decide)
  exact fronted ht keyword.append (by decide) (by decide)

theorem methodHeader_match {code : Text} {m : Match} (h : methodHeader.matchFront? code = some m) :
    Fronted m ∧ (∀ s, m.group? 3 = some s → Firm m.whole.text s) ∧
      ∃ s, m.group? 4 = some s ∧ Firm m.whole.text s := by
  obtain ⟨rest, -, -, ht⟩ := matchFront?_takes h
  simp only [methodHeader, takes_assoc] at ht
  have type : Starts Solid (group 4 typeReference ++ (blanks1 ++ (group 5 javaName ++
      (blanks ++ lit "(")))) := Starts.append starts_typeReference
  have args : Starts Solid (group 3 (typeArguments ++ blanks)) := starts_typeArguments.append
  refine ⟨fronted ht (args.opt_append type) (by decide) (by decide), ?_, ?_⟩
  · exact takes_opt_firm ht (by decide) (by decide) (.inr (Starts.mono args solid_ne_space))
      (.inr (type.mono solid_ne_space))
  · rw [← takes_assoc] at ht
    exact takes_group_firm ht (by decide) (.inr (starts_typeReference.mono solid_ne_space))
      (.inl stops_typeReference)

theorem constructorHeader_match {code : Text} {m : Match}
    (h : constructorHeader.matchFront? code = some m) :
    Fronted m ∧ ∀ s, m.group? 3 = some s → Firm m.whole.text s := by
  obtain ⟨rest, -, -, ht⟩ := matchFront?_takes h
  simp only [constructorHeader, takes_assoc] at ht
  have named : Starts Solid (group 4 javaName ++ (blanks ++ lit "(")) := Starts.append starts_javaName
  have args : Starts Solid (group 3 (typeArguments ++ blanks)) := starts_typeArguments.append
  refine ⟨fronted ht (args.opt_append named) (by decide) (by decide), ?_⟩
  exact takes_opt_firm ht (by decide) (by decide) (.inr (Starts.mono args solid_ne_space))
    (.inr (named.mono solid_ne_space))

theorem fieldHeader_match {code : Text} {m : Match} (h : fieldHeader.matchFront? code = some m) :
    Fronted m ∧ ∃ s, m.group? 3 = some s ∧ Firm m.whole.text s := by
  obtain ⟨rest, -, -, ht⟩ := matchFront?_takes h
  simp only [fieldHeader, takes_assoc] at ht
  refine ⟨fronted ht (Starts.append starts_typeReference) (by decide) (by decide), ?_⟩
  exact takes_group_firm ht (by decide) (.inr (starts_typeReference.mono solid_ne_space))
    (.inl stops_typeReference)

theorem stops_annotationMark : Stops (· ≠ ' ') annotationMark := by
  have part : Stops (· ≠ ' ') (one isPathPart) := stops_one_of (by decide)
  have word : Stops (· ≠ ' ') (lit "@" ++ plus (one isPathPart)) := (part.append_star part).append
  exact word.append_opt (stops_lit (by decide)).append

section

variable {text : MaskedSource} {start limit : Nat}

theorem exists_ofMatch? (hm : Masks text.source text.masked) {m : Match} (front : Fronted m)
    {rest : Text} (hc : text.code? start limit = some (m.whole.text ++ rest)) :
    ∃ f, Front.ofMatch? text start m = some f := by
  obtain ⟨a, tail, hfirst, hw⟩ := front.annotations
  obtain ⟨s, hsecond, firm⟩ := front.modifiers
  obtain ⟨words, hwords⟩ := firm.slice hm hc
  have marks : ∀ mark ∈ annotationMark.findAll a, ∃ t,
      text.text? (start + 0 + mark.whole.start) (start + 0 + mark.stop) = some t ∧ True := by
    intro mark hmark
    obtain ⟨pre, post, ha, hs, ht⟩ := findAll_takes hmark
    have opens := ht.opens (starts_annotationMark.mono solid_ne_space)
    have closes := ht.closes stops_annotationMark
    have piece : Firm m.whole.text mark.whole :=
      ⟨pre, post ++ tail, by rw [hw, ha]; simp, by simpa using hs, .inr (opens.append _),
        .inl closes⟩
    obtain ⟨t, ht⟩ := piece.slice hm hc
    exact ⟨t, ht, trivial⟩
  obtain ⟨found, hfound, -⟩ := Scan.exists_mapM marks
  refine ⟨⟨Text.words words, found⟩, ?_⟩
  rw [Front.ofMatch?, hfirst, hsecond]
  have hwords' : text.text? (start + s.start) (start + s.stop) = some words := hwords
  simp only [Option.bind_eq_bind, Option.bind_some, hwords', hfound]
  rfl

theorem exists_parameters? (hm : Masks text.source text.masked) (range : Range) {code : Text}
    (hc : text.code? range.start range.stop = some code) :
    ∃ ps, parameters? text range = some ps := by
  have pieces : ∀ piece ∈ Scan.splitTopLevel code ',' true, ∃ p,
      ((text.text? (range.start + piece.start) (range.start + piece.stop)).bind fun raw =>
        some (raw, piece.text)) = some p ∧ True := by
    intro piece hp
    obtain ⟨t, ht, -⟩ := hm.slice_piece hc hp
    have found : text.text? (range.start + piece.start) (range.start + piece.stop) = some t := ht
    exact ⟨(t, piece.text), by rw [found]; rfl, trivial⟩
  obtain ⟨found, hfound, -⟩ := Scan.exists_mapM pieces
  refine ⟨found.filterMap fun piece => parameter piece.1 piece.2, ?_⟩
  rw [parameters?, hc]
  simp only [Option.bind_eq_bind, Option.bind_some, Option.pure_def, hfound]

/-- A keyword stands in the text where its offset says. -/
def Stands (code : Text) (s : Span) : Prop :=
  ∃ pre post, code = pre ++ s.text ++ post ∧ s.start = Text.size pre

theorem heritageKeyword_group {m : Match} {code : Text} (h : m ∈ heritageKeyword.findAll code) :
    m.group? 1 = some m.whole ∧ Stands code m.whole := by
  obtain ⟨pre, post, hc, hs, ht⟩ := findAll_takes h
  refine ⟨?_, pre, post, hc, by simpa using hs⟩
  obtain ⟨_, _, _, _, hw, hg, ⟨_, t, _, _, rfl, rfl, ⟨rfl, rfl⟩, g, rfl, -⟩, ⟨rfl, rfl⟩⟩ := ht
  rw [Match.group?, hg]
  simp only [List.append_nil, List.nil_append] at hw
  simp [← hw]

theorem heritageLists_slice {code : Text} {keywords : List Span}
    (stand : ∀ s ∈ keywords, Stands code s)
    (order : keywords.Pairwise fun a b => a.stop ≤ b.start) :
    ∀ l ∈ heritageLists (Text.size code) keywords,
      ∃ t, Text.slice? code l.2.1 l.2.2 = some t := by
  have ends {s : Span} (h : Stands code s) : Boundary code s.start ∧ Boundary code s.stop := by
    obtain ⟨pre, post, rfl, hs⟩ := h
    refine ⟨⟨pre, s.text ++ post, by simp, hs.symm⟩, pre ++ s.text, post, rfl, ?_⟩
    rw [Span.stop, hs, Text.size_append]
  fun_induction heritageLists (Text.size code) keywords with
  | case1 => simp
  | case2 last =>
    intro l hl
    obtain rfl : l = (last.text, last.stop, Text.size code) := by simpa using hl
    have stop := (ends (stand last (by simp))).2
    exact Text.exists_slice?_iff.mpr ⟨stop.le_size, stop, Text.boundary_size code⟩
  | case3 keyword next more ih =>
    intro l hl
    obtain ⟨before, order'⟩ := List.pairwise_cons.mp order
    rcases List.mem_cons.mp hl with rfl | hl
    · exact Text.exists_slice?_iff.mpr ⟨before next (by simp), (ends (stand keyword (by simp))).2,
        (ends (stand next (by simp))).1⟩
    · exact ih (fun s hs => stand s (by simp [hs])) order' l hl

theorem heritageKeywords_eq (code : Text) :
    ((heritageKeyword.findAll code).filterMap fun m => m.group? 1) =
      (heritageKeyword.findAll code).map Match.whole := by
  have each : ∀ m ∈ heritageKeyword.findAll code, m.group? 1 = some m.whole :=
    fun m h => (heritageKeyword_group h).1
  generalize heritageKeyword.findAll code = ms at each ⊢
  induction ms with
  | nil => rfl
  | cons m ms ih =>
    rw [List.filterMap_cons, each m (by simp), ih fun x hx => each x (by simp [hx])]
    rfl

theorem exists_heritage? (hm : Masks text.source text.masked) (range : Range) {code : Text}
    (hc : text.code? range.start range.stop = some code) :
    ∃ lists, heritage? text range = some lists := by
  have stand : ∀ s ∈ (heritageKeyword.findAll code).map Match.whole, Stands code s := by
    intro s hs
    obtain ⟨m, hm, rfl⟩ := List.mem_map.mp hs
    exact (heritageKeyword_group hm).2
  have order : ((heritageKeyword.findAll code).map Match.whole).Pairwise
      fun a b => a.stop ≤ b.start := List.pairwise_map.mpr (findAll_pairwise heritageKeyword code)
  have lists : ∀ l ∈ heritageLists (Text.size code) ((heritageKeyword.findAll code).map Match.whole),
      ∃ r, ((Text.slice? code l.2.1 l.2.2).bind fun list =>
        ((Scan.splitTopLevel list ',' true).mapM fun piece => text.text?
          (range.start + l.2.1 + piece.start) (range.start + l.2.1 + piece.stop)).bind fun names =>
            some (l.1, names)) = some r ∧ True := by
    intro l hl
    obtain ⟨list, hlist⟩ := heritageLists_slice stand order l hl
    have whole : Text.slice? text.masked (range.start + l.2.1) (range.start + l.2.2) = some list :=
      Text.slice?_slice? hc hlist
    have pieces : ∀ piece ∈ Scan.splitTopLevel list ',' true, ∃ t, text.text?
        (range.start + l.2.1 + piece.start) (range.start + l.2.1 + piece.stop) = some t ∧ True := by
      intro piece hp
      obtain ⟨t, ht, -⟩ := hm.slice_piece whole hp
      exact ⟨t, ht, trivial⟩
    obtain ⟨names, hnames, -⟩ := Scan.exists_mapM pieces
    exact ⟨(l.1, names), by rw [hlist, Option.bind_some, hnames]; rfl, trivial⟩
  obtain ⟨found, hfound, -⟩ := Scan.exists_mapM lists
  rw [heritage?, hc]
  simp only [Option.bind_eq_bind, Option.bind_some, Option.pure_def, heritageKeywords_eq]
  exact ⟨_, by rw [hfound]; rfl⟩

end

end SourceTree.Java
