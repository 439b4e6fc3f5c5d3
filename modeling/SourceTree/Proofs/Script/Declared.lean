import SourceTree.Proofs.Script.Target

/-!
Reading exported declarations. The keywords are tried in a fixed order, and each is refused by the
patterns before its own, whatever name is behind it. Only `const` with a name `enum` is not: that is
the front of a keyword of two words.
-/

namespace SourceTree

open Text (Solid Spaced Opens Closes)

namespace Script

open Pattern

variable {t k g b name rest : Text} {word : String}

/-! ### Keywords -/

/-- The patterns of the keywords, in their order. -/
def keywordPatterns : List Pattern :=
  [lit "function" ++ blanks ++ opt (lit "*"), lit "abstract" ++ blanks1 ++ lit "class", lit "class",
    lit "interface", lit "type", lit "const" ++ blanks1 ++ lit "enum", lit "enum", lit "namespace",
    lit "module", lit "const", lit "let", lit "var"]

/-- The name behind a keyword. -/
def declaredName : Pattern := blanks1 ++ group 2 ident

/-- A declaration behind its modifiers. -/
def declarationBody : Pattern := group 1 (anyOf keywordPatterns) ++ declaredName

/-- The keywords of one word that can stand in front of a name without a star. -/
def plainKeywords : List String :=
  ["class", "interface", "type", "enum", "namespace", "module", "const", "let", "var"]

section

variable (hn : IsIdent name) (stop : Apart rest)

include hn stop

theorem declaredName_prefers (gap : Text.Gap g) :
    Prefers declaredName (g ++ name) rest [(2, name)] :=
  (prefers_blanks1 (opens_of_isIdent hn rest) gap).seq ((ident_prefers hn stop).group 2)

/-- One of the patterns, if all before it fail. -/
theorem body_prefers (ps qs : List Pattern) {p : Pattern} {w : Text}
    (order : keywordPatterns = ps ++ p :: qs) (chosen : Prefers p w (g ++ name ++ rest) [])
    (gap : Text.Gap g) (early : ∀ a ∈ ps, Refuses (a ++ declaredName) (w ++ (g ++ name) ++ rest)) :
    Prefers declarationBody (w ++ (g ++ name)) rest [(2, name), (1, w)] := by
  have first : Prefers (group 1 p ++ declaredName) (w ++ (g ++ name)) rest [(2, name), (1, w)] :=
    (chosen.group 1).seq (declaredName_prefers hn stop gap)
  rw [declarationBody, order]
  exact first.anyOf_group early qs

/-- A name that ends with the text or in front of a character that is part of none is no other name
with a blank behind it. -/
theorem ident_unique {x r : Text} (hx : IsIdent x) (hr : Opens (fun c => Text.isBlank c = true) r)
    (h : name ++ rest = x ++ r) : name = x := by
  have apart : Opens (fun c => isIdentPart c = false) r :=
    hr.mono fun c blank => not_isIdentPart_of_blank blank
  cases rest with
  | nil =>
    obtain ⟨c, r, rfl, mark⟩ := apart
    rw [List.append_nil] at h
    rw [hn.2 c (by simp [h])] at mark
    cases mark
  | cons y rest => exact (Text.span_unique h hn.2 hx.2 ⟨y, rest, rfl, stop y rfl⟩ apart).1

theorem constEnum_refuses (gap : Text.Gap g) (other : name ≠ "enum".toList) :
    Refuses (lit "const" ++ blanks1 ++ lit "enum" ++ declaredName)
      ("const".toList ++ (g ++ (name ++ rest))) := by
  rintro _ behind offset _ split ⟨_, _, _, _, rfl, -, ⟨_, e, _, _, rfl, -,
    ⟨k, b, _, _, rfl, -, hk, hb⟩, he⟩, b', x, _, _, rfl, -, hb', -⟩
  obtain ⟨rfl, -⟩ := takes_lit hk
  obtain ⟨rfl, -⟩ := takes_lit he
  obtain ⟨blank, -⟩ := takes_blanks1_iff.mp hb
  obtain ⟨blank', -⟩ := takes_blanks1_iff.mp hb'
  have texts : g ++ (name ++ rest) = b ++ ("enum".toList ++ (b' ++ (x ++ behind))) := by
    simpa using split
  obtain ⟨-, names⟩ := Text.gap_unique texts gap.blank blank.blank (opens_of_isIdent hn rest)
    ⟨'e', _, rfl, by decide⟩
  exact other (ident_unique hn stop (by decide) (blank'.opens.append _) names)

/-- A keyword of one word. With the name `enum` one of them would be a keyword of two words. -/
theorem plain_prefers {keyword : String} (mem : keyword ∈ plainKeywords) (gap : Text.Gap g)
    (unreserved : keyword = "const" → name ≠ "enum".toList) :
    Prefers declarationBody (keyword.toList ++ (g ++ name)) rest
      [(2, name), (1, keyword.toList)] := by
  have early (ps : List Pattern) (checked : ps.all (excludes · keyword.toList) = true) :
      ∀ a ∈ ps, Refuses (a ++ declaredName) (keyword.toList ++ (g ++ name) ++ rest) := by
    intro a ha
    rw [List.append_assoc]
    exact (refuses_of_excludes (List.all_eq_true.mp checked a ha) _).append _
  have chosen (n : Nat) (order : keywordPatterns =
      keywordPatterns.take n ++ lit keyword :: keywordPatterns.drop (n + 1))
      (checked : (keywordPatterns.take n).all (excludes · keyword.toList) = true) :=
    body_prefers hn stop _ _ order (prefers_lit keyword _) gap (early _ checked)
  simp only [plainKeywords, List.mem_cons, List.not_mem_nil, or_false] at mem
  rcases mem with rfl | rfl | rfl | rfl | rfl | rfl | rfl | rfl | rfl
  · exact chosen 2 rfl (by decide)
  · exact chosen 3 rfl (by decide)
  · exact chosen 4 rfl (by decide)
  · exact chosen 6 rfl (by decide)
  · exact chosen 7 rfl (by decide)
  · exact chosen 8 rfl (by decide)
  · -- Of the keywords before it only `const enum` does not fail within the word.
    refine body_prefers hn stop (keywordPatterns.take 5 ++
      (lit "const" ++ blanks1 ++ lit "enum") :: (keywordPatterns.drop 6).take 3)
      (keywordPatterns.drop 10) rfl (prefers_lit "const" _) gap fun a ha => ?_
    rcases List.mem_append.mp ha with ha | ha
    · exact early (keywordPatterns.take 5) (by decide) a ha
    · rcases List.mem_cons.mp ha with rfl | ha
      · simpa using constEnum_refuses hn stop gap (unreserved rfl)
      · exact early ((keywordPatterns.drop 6).take 3) (by decide) a ha
  · exact chosen 10 rfl (by decide)
  · exact chosen 11 rfl (by decide)

/-- A keyword of two words. -/
theorem double_prefers {first second : String} {n : Nat} (gap : Text.Gap b) (gap' : Text.Gap g)
    (order : keywordPatterns = keywordPatterns.take n ++
      (lit first ++ blanks1 ++ lit second) :: keywordPatterns.drop (n + 1))
    (inked : Opens (fun c => Text.isBlank c = false) second.toList)
    (checked : (keywordPatterns.take n).all (excludes · first.toList) = true) :
    Prefers declarationBody (first.toList ++ b ++ second.toList ++ (g ++ name)) rest
      [(2, name), (1, first.toList ++ b ++ second.toList)] := by
  refine body_prefers hn stop _ _ order ?_ gap' fun a ha => ?_
  · exact ((prefers_lit first _).seq (prefers_blanks1 (inked.append _) gap)).seq (prefers_lit second _)
  · rw [List.append_assoc, List.append_assoc, List.append_assoc]
    exact (refuses_of_excludes (List.all_eq_true.mp checked a ha) _).append _

omit stop in
/-- A name has to be set off from its keyword. -/
theorem declaredName_refuses (rest : Text) :
    Refuses (opt (lit "*") ++ declaredName) (name ++ rest) := by
  have gaps : Starts (fun c => isIdentPart c = false) blanks1 :=
    (starts_one fun c hc => not_isIdentPart_of_blank hc).append
  have starts : Starts (fun c => isIdentPart c = false) (opt (lit "*") ++ declaredName) :=
    (starts_lit (by decide)).opt_append gaps.append
  exact refuses_of_isIdent hn starts rest

/-- Without a star the keyword of a function takes all the blanks behind it but the last. -/
theorem function_prefers_blanks {init : Text} {c : Char} (gap : Text.Gap (init ++ [c])) :
    Prefers declarationBody ("function".toList ++ init ++ ([c] ++ name)) rest
      [(2, name), (1, "function".toList ++ init)] := by
  have last : Text.isBlank c = true := gap.blank c (by simp)
  have blank : ∀ x ∈ init, Text.isBlank x = true := fun x hx => gap.blank x (by simp [hx])
  have nothing : Prefers (opt (lit "*")) [] ([c] ++ name ++ rest) [] := by
    have starts : Starts (fun c => Text.isBlank c = false) (lit "*") := starts_lit (by decide)
    refine .alt_right (starts.refuses ?_) (prefers_done _)
    rintro ⟨x, r, same, inked⟩
    obtain ⟨rfl, -⟩ := List.cons.inj same
    rw [last] at inked
    cases inked
  -- Behind all the blanks none is left to stand in front of the name.
  have far (x y : Text) (split : [c] ++ name ++ rest = x ++ y) (full : x ≠ [])
      (blank : ∀ z ∈ x, Text.isBlank z = true) : Refuses (opt (lit "*") ++ declaredName) y := by
    obtain ⟨z, x, rfl⟩ := List.exists_cons_of_ne_nil full
    have behind : name ++ rest = x ++ y := (List.cons.inj split).2
    cases x with
    | nil =>
      rw [List.nil_append] at behind
      exact behind ▸ declaredName_refuses hn rest
    | cons z' x =>
      obtain ⟨n, ns, same, inked⟩ := opens_of_isIdent hn rest
      obtain ⟨rfl, -⟩ := List.cons.inj (same.symm.trans behind)
      rw [blank n (by simp)] at inked
      cases inked
  have space : Text.Gap [c] := ⟨by simp, by simpa using last⟩
  have first : Prefers (group 1 (lit "function" ++ blanks ++ opt (lit "*")) ++ declaredName)
      ("function".toList ++ init ++ ([c] ++ name)) rest [(2, name), (1, "function".toList ++ init)] :=
    prefers_group_star (prefers_lit "function" _) blank nothing
      (declaredName_prefers hn stop space) far
  exact first.anyOf_group (List.forall_mem_nil _) (keywordPatterns.drop 1)

theorem function_prefers {m : Text} {isGenerator : Bool} (gap : Text.Gap g)
    (hm : Modifies "*" isGenerator m) : ∃ r, Prefers declarationBody
      ("function".toList ++ (g ++ (m ++ name))) rest [(2, name), (1, "function".toList ++ r)] := by
  cases hm with
  | absent =>
    obtain ⟨init, c, rfl⟩ := (List.eq_nil_or_concat g).resolve_left gap.nonempty
    rw [List.concat_eq_append] at gap ⊢
    exact ⟨init, by simpa using function_prefers_blanks hn stop gap⟩
  | @present g' gap' =>
    have keyword : Prefers (lit "function" ++ blanks ++ opt (lit "*"))
        ("function".toList ++ g ++ "*".toList) (g' ++ name ++ rest) [] :=
      ((prefers_lit "function" _).seq (prefers_blanks ⟨'*', _, rfl, by decide⟩ gap.blank)).seq
        ((prefers_lit "*" _).alt_left _)
    have read := body_prefers hn stop [] (keywordPatterns.drop 1) rfl keyword gap' (by simp)
    exact ⟨g ++ "*".toList, by simpa using read⟩

end

/-! ### Declarations -/

/-- What is declared, by its keyword. -/
inductive Declared where
  | function (isAsync isGenerator : Bool)
  | abstractClass
  | constEnum
  | plain (keyword : String)
  deriving DecidableEq, Repr

namespace Declared

def tokens : Declared → List Text
  | function isAsync isGenerator => functionWords isAsync isGenerator
  | abstractClass => ["abstract".toList, "class".toList]
  | constEnum => ["const".toList, "enum".toList]
  | plain keyword => [keyword.toList]

def WellFormed : Declared → Prop
  | plain keyword => keyword ∈ plainKeywords
  | _ => True

instance : ∀ d : Declared, Decidable d.WellFormed
  | plain keyword => inferInstanceAs (Decidable (keyword ∈ plainKeywords))
  | function _ _ | abstractClass | constEnum => inferInstanceAs (Decidable True)

/-- Only these are types and nothing else. -/
def isTypeOnly (d : Declared) : Bool := d == plain "interface" || d == plain "type"

/-- Only these can declare several names. -/
def isVariable (d : Declared) : Bool := d == plain "const" || d == plain "let" || d == plain "var"

/-- The text is what stands for the keyword. -/
def Reads : Declared → Text → Prop
  | plain keyword, k => k = keyword.toList
  | _, k => ∀ keyword ∈ plainKeywords, k ≠ keyword.toList

end Declared

/-- Which keywords count as such is told by the text. -/
theorem Declared.Reads.contains {d : Declared} (h : d.Reads k) {keywords : List String}
    (plain : keywords ⊆ plainKeywords) :
    keywords.contains (String.ofList k) = keywords.any fun w => d == .plain w := by
  have other (absent : ∀ keyword ∈ plainKeywords, k ≠ keyword.toList) :
      keywords.contains (String.ofList k) = false := by
    rw [List.contains_eq_mem, decide_eq_false_iff_not]
    intro mem
    exact absent _ (plain mem) (by simp)
  cases d with
  | plain keyword =>
    obtain rfl : k = keyword.toList := h
    rw [String.ofList_toList, Bool.eq_iff_iff]
    simp
  | function isAsync isGenerator =>
    rw [other h]
    simp
  | abstractClass | constEnum =>
    rw [other h]
    simp

theorem declarationExports_of_reads {d : Declared} {name : String} {declared : List String}
    (h : d.Reads k) (single : d.isVariable = true → declared = [] ∨ declared = [name])
    (location : Location) : declarationExports k name.toList declared location =
      [{ name := name, kind := .declaration, isTypeOnly := d.isTypeOnly, location := location }] := by
  have isVariable : ["const", "let", "var"].contains (String.ofList k) = d.isVariable := by
    rw [h.contains (by decide)]
    simp [Declared.isVariable, Bool.or_assoc]
  have isTypeOnly : (k == "interface".toList || k == "type".toList) = d.isTypeOnly := by
    have types : ["interface", "type"].contains (String.ofList k) =
        ["interface", "type"].any fun w => d == .plain w := h.contains (by decide)
    have spelled (w : String) : k = w.toList ↔ String.ofList k = w :=
      ⟨fun same => by simp [same], fun same => by simp [← same]⟩
    rw [Bool.eq_iff_iff] at types ⊢
    rw [Bool.or_eq_true, beq_iff_eq, beq_iff_eq, spelled, spelled]
    simpa [Declared.isTypeOnly] using types
  unfold declarationExports
  rw [isVariable, isTypeOnly, String.ofList_toList]
  cases several : d.isVariable with
  | false => simp
  | true => rcases single several with rfl | rfl <;> simp

/-- The words that a declaration can begin with. -/
def fronts : List String := "async" :: "function" :: "abstract" :: plainKeywords

theorem solid_of_mem_fronts (mem : word ∈ fronts) : Solid word.toList := by
  have names : ∀ w ∈ fronts, IsIdent w.toList := by decide
  exact solid_of_isIdent (names word mem)

theorem mem_fronts {keyword : String} (mem : keyword ∈ plainKeywords) : keyword ∈ fronts := by
  simp [fronts, mem]

/-- What a declaration begins with. A type has its name right behind. -/
theorem Declared.exists_front {d : Declared} (wf : d.WellFormed) (h : Spaced (d.tokens ++ [name]) t) :
    ∃ w ∈ fronts, ∃ r, t = w.toList ++ r ∧ (w = "type" → ∃ g, Text.Gap g ∧ r = g ++ name) := by
  cases d with
  | function isAsync isGenerator =>
    obtain ⟨k, g, m, rfl, hk, -, -⟩ := exists_function h
    cases hk with
    | absent => exact ⟨"function", by decide, _, rfl, by simp⟩
    | present => exact ⟨"async", by decide, _, List.append_assoc _ _ _, by simp⟩
  | abstractClass =>
    obtain ⟨g, r, rfl, -, -⟩ := Spaced.behind h (by simp)
    exact ⟨"abstract", by decide, _, rfl, by simp⟩
  | constEnum =>
    obtain ⟨g, r, rfl, -, -⟩ := Spaced.behind h (by simp)
    exact ⟨"const", by decide, _, rfl, by simp⟩
  | plain keyword =>
    obtain ⟨g, r, rfl, gap, last⟩ := Spaced.behind h (by simp)
    exact ⟨keyword, mem_fronts wf, g ++ r, rfl, fun _ => ⟨g, gap, by rw [last.eq_of_singleton]⟩⟩

/-- No keyword of one word holds blanks. -/
theorem ne_keyword_of_gap {u v : Text} (gap : Text.Gap b) :
    ∀ keyword ∈ plainKeywords, u ++ b ++ v ≠ keyword.toList := by
  intro keyword mem same
  obtain ⟨c, r, rfl, blank⟩ := gap.opens
  have inked := (solid_of_mem_fronts (mem_fronts mem)).inked c (by simp [← same])
  rw [inked] at blank
  cases blank

/-- A declaration is taken as its keyword and its name. -/
theorem Declared.exists_body {d : Declared} (wf : d.WellFormed) (hn : IsIdent name) (stop : Apart rest)
    (unreserved : d = plain "const" → name ≠ "enum".toList) (h : Spaced (d.tokens ++ [name]) t) :
    ∃ a u k, t = a ++ u ∧ Prefers (opt (lit "async" ++ blanks1)) a (u ++ rest) [] ∧
      Prefers declarationBody u rest [(2, name), (1, k)] ∧ d.Reads k := by
  have plainly {w : String} (other : (lit "async").excludes w.toList = true) (r : Text) :
      Prefers (opt (lit "async" ++ blanks1)) [] (w.toList ++ r ++ rest) [] := by
    rw [List.append_assoc]
    exact .alt_right ((refuses_of_excludes other _).append _) (prefers_done _)
  cases d with
  | function isAsync isGenerator =>
    obtain ⟨k, g, m, rfl, hk, gap, hm⟩ := exists_function h
    obtain ⟨r, body⟩ := function_prefers hn stop gap hm
    refine ⟨k, _, _, rfl, hk.prefers ⟨'f', _, rfl, by decide⟩ ?_, body, ?_⟩
    · rw [List.append_assoc]
      exact refuses_of_excludes (by decide) _
    · intro keyword mem same
      have distinct : ∀ w ∈ plainKeywords, ¬"function".toList <+: w.toList := by decide
      exact distinct keyword mem ⟨r, same⟩
  | abstractClass =>
    obtain ⟨b, _, rfl, gap, h⟩ := Spaced.behind h (by simp)
    obtain ⟨g, _, rfl, gap', last⟩ := h.behind (by simp)
    rw [last.eq_of_singleton]
    have body := double_prefers (n := 1) hn stop gap gap' rfl ⟨'c', _, rfl, by decide⟩ (by decide)
    rw [List.append_assoc, List.append_assoc] at body
    exact ⟨[], _, _, rfl, plainly (w := "abstract") (by decide) _, body, ne_keyword_of_gap gap⟩
  | constEnum =>
    obtain ⟨b, _, rfl, gap, h⟩ := Spaced.behind h (by simp)
    obtain ⟨g, _, rfl, gap', last⟩ := h.behind (by simp)
    rw [last.eq_of_singleton]
    have body := double_prefers (n := 5) hn stop gap gap' rfl ⟨'e', _, rfl, by decide⟩ (by decide)
    rw [List.append_assoc, List.append_assoc] at body
    exact ⟨[], _, _, rfl, plainly (w := "const") (by decide) _, body, ne_keyword_of_gap gap⟩
  | plain keyword =>
    obtain ⟨g, _, rfl, gap, last⟩ := Spaced.behind h (by simp)
    rw [last.eq_of_singleton]
    have checked : ∀ w ∈ plainKeywords, (lit "async").excludes w.toList = true := by decide
    have body := plain_prefers hn stop wf gap fun same => unreserved (congrArg plain same)
    exact ⟨[], _, _, rfl, plainly (checked keyword wf) _, body, rfl⟩

end Script

end SourceTree
