import SourceTree.Proofs.Pattern.Refuses
import SourceTree.Proofs.Script.Clause

/-!
Reading what a default export names. A function and a class are told by their keywords, and what is
neither is a name alone. The keyword of a function need not be set off from its name, so a name that
goes on behind `function` is taken for a function called by the rest of it.
-/

namespace SourceTree

open Text (Solid Spaced Opens Closes)

namespace Script

open Pattern

variable {t k g b name rest tail : Text} {ws : List Text} {word : String} {present : Bool}

/-! ### Names -/

/-- What a name in front of it does not go on with. -/
def Apart (rest : Text) : Prop := ∀ x, rest.head? = some x → isIdentPart x = false

theorem not_isIdentPart_of_blank {c : Char} (h : Text.isBlank c = true) : isIdentPart c = false := by
  rw [Bool.eq_false_iff]
  intro part
  rw [isBlank_of_isIdentPart part] at h
  cases h

theorem apart_of_blank (h : Opens (fun c => Text.isBlank c = true) rest) : Apart rest := by
  obtain ⟨c, r, rfl, blank⟩ := h
  intro x hx
  obtain rfl : c = x := by simpa using hx
  exact not_isIdentPart_of_blank blank

theorem ident_prefers (hn : IsIdent name) (stop : Apart rest) : Prefers ident name rest [] :=
  prefers_plus_one hn.1 hn.2 stop

theorem opens_of_isIdent (hn : IsIdent name) (rest : Text) :
    Opens (fun c => Text.isBlank c = false) (name ++ rest) :=
  (solid_of_isIdent hn).opens.append rest

theorem nil_of_blank (blank : ∀ c ∈ b, Text.isBlank c = true) (parts : ∀ c ∈ b, isIdentPart c = true) :
    b = [] := by
  cases b with
  | nil => rfl
  | cons c b =>
    have part := parts c (by simp)
    rw [not_isIdentPart_of_blank (blank c (by simp))] at part
    cases part

/-- A pattern that begins with a mark refuses a name. -/
theorem refuses_of_isIdent {p : Pattern} (hn : IsIdent name)
    (starts : Starts (fun c => isIdentPart c = false) p) (rest : Text) : Refuses p (name ++ rest) := by
  refine starts.refuses ?_
  rintro ⟨c, r, same, mark⟩
  obtain ⟨x, w, rfl⟩ := List.exists_cons_of_ne_nil hn.1
  obtain ⟨rfl, -⟩ := List.cons.inj same
  rw [hn.2 x (by simp)] at mark
  cases mark

theorem star_refuses (hn : IsIdent name) (rest : Text) : Refuses (lit "*") (name ++ rest) :=
  refuses_of_isIdent hn (starts_lit (by decide)) rest

/-- The end of a statement, without the blanks behind it. -/
inductive Ends : Text → Prop where
  | nothing : Ends []
  | semicolon {b : Text} : (∀ c ∈ b, Text.isBlank c = true) → Ends (b ++ [';'])

theorem Ends.not_isIdentPart (h : Ends tail) : ∀ c ∈ tail, isIdentPart c = false := by
  cases h with
  | nothing => simp
  | semicolon blank =>
    intro c hc
    rcases List.mem_append.mp hc with hc | hc
    · exact not_isIdentPart_of_blank (blank c hc)
    · rw [List.mem_singleton.mp hc]
      decide

theorem Ends.apart (h : Ends tail) : Apart tail :=
  fun c hc => h.not_isIdentPart c (List.mem_of_mem_head? hc)

/-- A name in a text that ends behind another name stands inside of that. -/
theorem prefix_of_ends {x u v : Text} (ends : Ends tail) (hx : IsIdent x)
    (h : name ++ tail = u ++ x ++ v) : u ++ x <+: name := by
  rcases List.append_eq_append_iff.mp h with ⟨z, longer, behind⟩ | ⟨z, rfl, -⟩
  · by_cases none : z = []
    · exact ⟨[], by rw [List.append_nil, longer, none, List.append_nil]⟩
    · obtain ⟨init, c, rfl⟩ := (List.eq_nil_or_concat x).resolve_left hx.1
      have closes : Closes (fun c => isIdentPart c = true) (name ++ z) := by
        rw [← longer]
        exact ⟨u ++ init, c, by simp, hx.2 c (by simp)⟩
      obtain ⟨r, y, rfl, part⟩ := closes.of_append none
      rw [ends.not_isIdentPart y (by simp [behind])] at part
      cases part
  · exact List.prefix_append _ _

/-! ### Modifiers -/

/-- The word, if it is there. -/
def modifier (word : String) (present : Bool) : List Text := if present then [word.toList] else []

/-- The word with blanks behind it, if it is there. -/
inductive Modifies (word : String) : Bool → Text → Prop where
  | absent : Modifies word false []
  | present {g : Text} : Text.Gap g → Modifies word true (word.toList ++ g)

theorem exists_modifies (h : Spaced (modifier word present ++ ws) t) (full : ws ≠ []) :
    ∃ k t', t = k ++ t' ∧ Modifies word present k ∧ Spaced ws t' := by
  cases present with
  | false => exact ⟨[], t, rfl, .absent, h⟩
  | true =>
    obtain ⟨g, t', rfl, gap, behind⟩ := Spaced.behind h full
    exact ⟨word.toList ++ g, t', by simp, .present gap, behind⟩

theorem Modifies.prefers (h : Modifies word present k)
    (opens : Opens (fun c => Text.isBlank c = false) t) (other : Refuses (lit word) t) :
    Prefers (opt (lit word ++ blanks1)) k t [] := by
  cases h with
  | absent => exact .alt_right (other.append _) (prefers_done t)
  | present gap => exact ((prefers_lit word _).seq (prefers_blanks1 opens gap)).alt_left _

theorem Modifies.opens_name (h : Modifies word present k) (hn : IsIdent name)
    (inked : Opens (fun c => Text.isBlank c = false) word.toList) (rest : Text) :
    Opens (fun c => Text.isBlank c = false) (k ++ (name ++ rest)) := by
  cases h with
  | absent => exact opens_of_isIdent hn rest
  | present => exact (inked.append _).append _

/-- The words of a function's keyword. -/
def functionWords (isAsync isGenerator : Bool) : List Text :=
  modifier "async" isAsync ++ "function".toList :: modifier "*" isGenerator

theorem exists_function {isAsync isGenerator : Bool}
    (h : Spaced (functionWords isAsync isGenerator ++ [name]) t) :
    ∃ k g m, t = k ++ ("function".toList ++ (g ++ (m ++ name))) ∧ Modifies "async" isAsync k ∧
      Text.Gap g ∧ Modifies "*" isGenerator m := by
  rw [functionWords, List.append_assoc] at h
  obtain ⟨k, _, rfl, hk, h⟩ := exists_modifies h (by simp)
  obtain ⟨g, _, rfl, gap, h⟩ := h.behind (by simp)
  obtain ⟨m, _, rfl, hm, h⟩ := exists_modifies h (by simp)
  rw [h.eq_of_singleton]
  exact ⟨k, g, m, rfl, hk, gap, hm⟩

/-! ### Patterns -/

/-- The three things that can be a default. -/
def functionTarget : Pattern :=
  opt (lit "async" ++ blanks1) ++ lit "function" ++ blanks ++ opt (lit "*") ++ blanks ++ group 1 ident

def classTarget : Pattern :=
  opt (lit "abstract" ++ blanks1) ++ lit "class" ++ blanks1 ++ group 2 ident

def nameTarget : Pattern := group 3 ident ++ blanks ++ opt (lit ";") ++ blanks ++ atEnd

/-- The local name that is read where a default export begins. -/
def localOf (target : Text) : Option String :=
  ((defaultTarget.matchFront? target).bind fun m =>
    ((m.group? 1).or (m.group? 2)).or (m.group? 3)).map fun g => String.ofList g.text

theorem localOf_of_prefers {w : Text} {slot : Nat} (mem : slot ∈ [1, 2, 3])
    (h : Prefers defaultTarget w rest [(slot, name)]) :
    localOf (w ++ rest) = some (String.ofList name) := by
  obtain ⟨m, found, shows⟩ := h.matchFront?
  have read (n : Nat) : (m.group? n).map (fun g => String.ofList g.text) =
      (List.lookup n [(slot, name)]).map String.ofList := by
    rw [← shows.group? n, Option.map_map]
    rfl
  rw [localOf, found, Option.bind_some, Option.map_or, Option.map_or, read, read, read]
  simp only [List.mem_cons, List.not_mem_nil, or_false] at mem
  rcases mem with rfl | rfl | rfl <;> rfl

section

variable (hn : IsIdent name)

include hn

/-- A star is taken with the blanks behind it, and without one nothing is taken. -/
theorem star_prefers {m : Text} (h : Modifies "*" present m) (rest : Text) :
    Prefers (opt (lit "*") ++ blanks) m (name ++ rest) [] := by
  have opens := opens_of_isIdent hn rest
  cases h with
  | absent =>
    have nothing : Prefers (opt (lit "*")) [] ([] ++ (name ++ rest)) [] :=
      .alt_right (star_refuses hn rest) (prefers_done _)
    exact nothing.seq (prefers_blanks opens (by simp))
  | present gap => exact ((prefers_lit "*" _).alt_left _).seq (prefers_blanks opens gap.blank)

variable (stop : Apart rest)

include stop

theorem functionTarget_prefers {m : Text} {isAsync isGenerator : Bool}
    (hk : Modifies "async" isAsync k) (hb : ∀ c ∈ b, Text.isBlank c = true)
    (hm : Modifies "*" isGenerator m) :
    Prefers functionTarget (k ++ "function".toList ++ b ++ m ++ name) rest [(1, name)] := by
  have word (r : Text) : Opens (fun c => Text.isBlank c = false) ("function".toList ++ r) :=
    ⟨'f', _, rfl, by decide⟩
  have behind : Opens (fun c => Text.isBlank c = false) (m ++ (name ++ rest)) :=
    hm.opens_name hn ⟨'*', _, rfl, by decide⟩ rest
  exact ((((hk.prefers (word _) (refuses_of_excludes (by decide) _)).seq
    (prefers_lit "function" _)).seq (prefers_blanks behind hb)).seq (star_prefers hn hm rest)).seq
    ((ident_prefers hn stop).group 1)

theorem classTarget_prefers {isAbstract : Bool} (hk : Modifies "abstract" isAbstract k)
    (gap : Text.Gap g) : Prefers classTarget (k ++ "class".toList ++ g ++ name) rest [(2, name)] := by
  have word (r : Text) : Opens (fun c => Text.isBlank c = false) ("class".toList ++ r) :=
    ⟨'c', _, rfl, by decide⟩
  exact (((hk.prefers (word _) (refuses_of_excludes (by decide) _)).seq (prefers_lit "class" _)).seq
    (prefers_blanks1 (opens_of_isIdent hn rest) gap)).seq ((ident_prefers hn stop).group 2)

end

theorem nameTarget_prefers (hn : IsIdent name) (ends : Ends tail) :
    Prefers nameTarget (name ++ tail) [] [(3, name)] := by
  have named : Prefers (group 3 ident) name tail [(3, name)] := (ident_prefers hn ends.apart).group 3
  have spaces : Prefers blanks [] [] [] := prefers_star_one (by simp) (by simp)
  cases ends with
  | nothing =>
    have nothing : Prefers (opt (lit ";")) [] [] [] := by
      have starts : Starts (· = ';') (lit ";") := starts_lit (by decide)
      refine .alt_right (starts.refuses ?_) (prefers_done [])
      rintro ⟨c, r, none, -⟩
      cases none
    have read := (((named.seq spaces).seq nothing).seq spaces).seq prefers_atEnd
    simp only [List.append_nil] at read ⊢
    exact read
  | @semicolon b blank =>
    have mark : Prefers (opt (lit ";")) ";".toList [] [] := (prefers_lit ";" []).alt_left _
    have gap : Prefers blanks b (";".toList ++ []) [] := prefers_blanks ⟨';', [], rfl, by decide⟩ blank
    have read := (((named.seq gap).seq mark).seq spaces).seq prefers_atEnd
    rw [List.append_nil, List.append_nil, List.append_assoc] at read
    exact read

/-- No name is read as a class. -/
theorem classTarget_refuses (hn : IsIdent name) (ends : Ends tail) :
    Refuses classTarget (name ++ tail) := by
  rintro _ rest offset _ split ⟨u, x, _, _, rfl, -, ⟨_, g, _, _, rfl, -, -, hg⟩, _, rfl, hx⟩
  obtain ⟨gap, -⟩ := takes_blanks1_iff.mp hg
  obtain ⟨hx, -⟩ := takes_ident_iff.mp hx
  obtain ⟨z, rfl⟩ := prefix_of_ends ends hx split
  exact gap.nonempty (nil_of_blank gap.blank fun c hc => hn.2 c (by simp [hc]))

/-- A name is read as a function only if it goes on behind that keyword. -/
theorem functionTarget_refuses (hn : IsIdent name) (ends : Ends tail)
    (plain : ∀ x, x ≠ [] → name ≠ "function".toList ++ x) : Refuses functionTarget (name ++ tail) := by
  rintro _ rest offset _ split ⟨u, x, _, _, rfl, -, ⟨_, b', _, _, rfl, -, ⟨_, s, _, _, rfl, -,
    ⟨_, b, _, _, rfl, -, ⟨k, f, _, _, rfl, -, hk, hf⟩, hb⟩, hs⟩, hb'⟩, _, rfl, hx⟩
  obtain ⟨rfl, -⟩ := takes_lit hf
  obtain ⟨blank, -⟩ := takes_star_one hb
  obtain ⟨blank', -⟩ := takes_star_one hb'
  obtain ⟨isName, -⟩ := takes_ident_iff.mp hx
  obtain ⟨z, rfl⟩ := prefix_of_ends ends isName split
  -- Everything in front of the name is part of one, so there are no blanks and no star.
  obtain rfl : b = [] := nil_of_blank blank fun c hc => hn.2 c (by simp [hc])
  obtain rfl : b' = [] := nil_of_blank blank' fun c hc => hn.2 c (by simp [hc])
  obtain rfl : s = [] := by
    rcases hs with hs | ⟨rfl, -⟩
    · obtain ⟨rfl, -⟩ := takes_lit hs
      exact absurd (hn.2 '*' (by simp)) (by decide)
    · rfl
  obtain rfl : k = [] := by
    rcases hk with ⟨_, g, _, _, rfl, -, -, hg⟩ | ⟨rfl, -⟩
    · obtain ⟨gap, -⟩ := takes_blanks1_iff.mp hg
      exact absurd (nil_of_blank gap.blank fun c hc => hn.2 c (by simp [hc])) gap.nonempty
    · rfl
  exact plain (x ++ z) (by simp [isName.1]) (by simp)

/-! ### Targets -/

/-- What is exported as the default, by its keyword; a name has none. -/
inductive Target where
  | bare
  | function (isAsync isGenerator : Bool)
  | classDecl (isAbstract : Bool)
  deriving DecidableEq, Repr

namespace Target

def tokens : Target → List Text
  | bare => []
  | function isAsync isGenerator => functionWords isAsync isGenerator
  | classDecl isAbstract => modifier "abstract" isAbstract ++ ["class".toList]

theorem isToken (target : Target) : ∀ w ∈ target.tokens, IsToken ['*'] w := by
  have functions : ∀ isAsync isGenerator, ∀ w ∈ functionWords isAsync isGenerator,
      IsIdent w ∨ ∃ c ∈ ['*'], w = [c] := by decide
  have classes : ∀ isAbstract, ∀ w ∈ modifier "abstract" isAbstract ++ ["class".toList],
      IsIdent w := by decide
  cases target with
  | bare => simp [tokens]
  | function isAsync isGenerator => exact functions isAsync isGenerator
  | classDecl isAbstract => exact fun w hw => .inl (classes isAbstract w hw)

/-- What can stand behind the name, without the blanks at its end. -/
def Follows : Target → Text → Prop
  | bare, tail => Ends tail
  | _, tail => Apart tail

end Target

/-- The name goes on behind a keyword that the pattern does not set off from it. -/
def isRunOn (name : String) : Bool := "function".toList.isPrefixOf name.toList && name != "function"

/-- The name behind that keyword. -/
def remainder (name : String) : String := String.ofList (name.toList.drop "function".toList.length)

/-- The local name of a default, as it is read. -/
def Target.localName : Target → String → String
  | bare, name => if isRunOn name then remainder name else name
  | _, name => name

theorem isRunOn_iff {name : String} :
    isRunOn name = true ↔ ∃ x, x ≠ [] ∧ name.toList = "function".toList ++ x := by
  rw [isRunOn, Bool.and_eq_true, List.isPrefixOf_iff_prefix, bne_iff_ne]
  constructor
  · rintro ⟨⟨x, split⟩, other⟩
    refine ⟨x, ?_, split.symm⟩
    rintro rfl
    rw [List.append_nil, String.toList_inj] at split
    exact other split.symm
  · rintro ⟨x, full, split⟩
    refine ⟨⟨x, split.symm⟩, ?_⟩
    rintro rfl
    exact full (List.append_cancel_left (split.symm.trans (List.append_nil _).symm))

theorem localOf_bare {name : String} (hn : IsIdent name.toList) (ends : Ends tail) :
    localOf (name.toList ++ tail) = some (Target.bare.localName name) := by
  rw [Target.localName]
  split
  next runOn =>
    obtain ⟨x, full, split⟩ := isRunOn_iff.mp runOn
    have isName : IsIdent x := ⟨full, fun c hc => hn.2 c (by simp [split, hc])⟩
    have taken : Prefers defaultTarget ("function".toList ++ x) tail [(1, x)] := by
      have keyword := functionTarget_prefers isName ends.apart .absent (b := []) (by simp) .absent
      simp only [List.nil_append, List.append_nil] at keyword
      exact keyword.alt_left _
    rw [remainder, split, List.drop_left]
    exact localOf_of_prefers (by decide) taken
  next plain =>
    have other : ∀ x, x ≠ [] → name.toList ≠ "function".toList ++ x :=
      fun x full split => plain (isRunOn_iff.mpr ⟨x, full, split⟩)
    have isNoFunction := functionTarget_refuses hn ends other
    have isNoClass := classTarget_refuses hn ends
    rw [← List.append_nil (name.toList ++ tail)] at isNoFunction isNoClass
    have taken : Prefers defaultTarget (name.toList ++ tail) [] [(3, name.toList)] :=
      .alt_right isNoFunction (.alt_right isNoClass (nameTarget_prefers hn ends))
    simpa using localOf_of_prefers (by decide) taken

/-- The local name that is read of a default. -/
theorem localOf_target {target : Target} {name : String} (hn : IsIdent name.toList)
    (follows : target.Follows tail) (h : Spaced (target.tokens ++ [name.toList]) t) :
    localOf (t ++ tail) = some (target.localName name) := by
  cases target with
  | bare =>
    rw [Spaced.eq_of_singleton h]
    exact localOf_bare hn follows
  | function isAsync isGenerator =>
    obtain ⟨k, g, m, rfl, hk, gap, hm⟩ := exists_function h
    have taken : Prefers defaultTarget (k ++ "function".toList ++ g ++ m ++ name.toList) tail
        [(1, name.toList)] := (functionTarget_prefers hn follows hk gap.blank hm).alt_left _
    simpa [Target.localName] using localOf_of_prefers (by decide) taken
  | classDecl isAbstract =>
    rw [Target.tokens, List.append_assoc] at h
    obtain ⟨k, _, rfl, hk, h⟩ := exists_modifies h (by simp)
    obtain ⟨g, _, rfl, gap, last⟩ := Spaced.behind h (by simp)
    rw [last.eq_of_singleton]
    have other : Refuses functionTarget (k ++ "class".toList ++ g ++ name.toList ++ tail) := by
      cases hk with
      | absent =>
        simp only [List.nil_append, List.append_assoc]
        exact refuses_of_excludes (by decide) _
      | present =>
        simp only [List.append_assoc]
        exact refuses_of_excludes (by decide) _
    have taken : Prefers defaultTarget (k ++ "class".toList ++ g ++ name.toList) tail
        [(2, name.toList)] := .alt_right other ((classTarget_prefers hn follows hk gap).alt_left _)
    simpa [Target.localName] using localOf_of_prefers (by decide) taken

end Script

end SourceTree
