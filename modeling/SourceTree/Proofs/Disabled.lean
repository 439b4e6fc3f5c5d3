import SourceTree.Proofs.Registry

/-!
Switching a language off. The settings read an entry in two ways: its extensions count for the
language that the name of the entry means in any letter case, but `enabled` counts only under the
exact key. So an entry that is off takes its language out of the registry when it stands under the
key, and leaves it there under any other spelling. Main statement: `parse?_ofSettings_off`.
-/

namespace SourceTree

namespace Language

theorem ofName?_key (l : Language) : ofName? l.key = some l := by cases l <;> decide +kernel

end Language

namespace Settings

/-- The language that an extension stands for before anything is registered: by the built-in table,
else the greatest language that lists it. -/
def Maps (s : Settings) (ext : String) (l : Language) : Prop :=
  Language.ofExtension? ext = some l ∨
    Language.ofExtension? ext = none ∧ ext ≠ "." ∧ s.Prefers ext l

/-- The entry is the only one whose name means the language, in any letter case. -/
structure SoleEntry (s : Settings) (l : Language) (name : String) (entry : LanguageSettings) :
    Prop where
  listed : (name, entry) ∈ s.languages
  named : Language.ofName? name = some l
  only : ∀ other ∈ s.languages, Language.ofName? other.1 = some l → other = (name, entry)

namespace SoleEntry

variable {s : Settings} {l : Language} {name : String} {entry : LanguageSettings}

theorem lookup_key (sole : s.SoleEntry l name entry) :
    s.languages.lookup l.key = if name = l.key then some entry else none := by
  cases found : s.languages.lookup l.key with
  | none =>
    have absent : l.key ≠ name := by
      intro same
      have unequal := List.lookup_eq_none_iff.mp found _ sole.listed
      simp [same] at unequal
    simp [Ne.symm absent]
  | some other =>
    obtain ⟨front, behind, split, -⟩ := List.lookup_eq_some_iff.mp found
    have mem : (l.key, other) ∈ s.languages := by simp [split]
    have equal := sole.only _ mem l.ofName?_key
    simp only [Prod.mk.injEq] at equal
    simp [equal.1, equal.2]

/-- An entry under another spelling than the key does not say whether the language is read. -/
theorem isEnabled_eq (sole : s.SoleEntry l name entry) :
    s.isEnabled l = (decide (name ≠ l.key) || entry.enabled) := by
  rw [isEnabled, sole.lookup_key]
  by_cases exact : name = l.key
  · simp [exact]
  · simp [exact]

end SoleEntry

end Settings

namespace Registry

variable {s : Settings} {l : Language} {path ext : String}

theorem get?_ofSettings (s : Settings) (l : Language) :
    (ofSettings s).get? l = if s.isEnabled l then some l else none := by
  simp only [get?, List.contains_iff_mem, mem_languages_ofSettings]

theorem forPath?_ofSettings (has : dottedExtension? path = some ext) (maps : s.Maps ext l) :
    (ofSettings s).forPath? path = if s.isEnabled l then some l else none := by
  have table : (Language.ofExtension? ext).or ((ofSettings s).extensions.lookup ext) = some l := by
    rw [Option.or_eq_some_iff]
    cases maps with
    | inl builtIn => exact .inl builtIn
    | inr set => exact .inr ⟨set.1, Settings.lookup_overrides.mpr set.2⟩
  simp [forPath?, has, table, get?_ofSettings]

/-- A path whose extension is taken by a language is read by it, or by no language at all. -/
theorem parse?_ofSettings (has : dottedExtension? path = some ext) (maps : s.Maps ext l)
    (source : Text) :
    (ofSettings s).parse? source path =
      if s.isEnabled l then (l.parse? source path).map .ok
      else some (.error (.noParser path ext)) := by
  rw [parse?, forPath?_ofSettings has maps]
  cases s.isEnabled l with
  | true => rfl
  | false => simp [has]

/-- What becomes of a language whose only entry switches it off. Under the key of the language it is
not registered, and no path that it would take is read; under any other spelling of the key it
stays registered and reads all of them. -/
theorem parse?_ofSettings_off (s : Settings) (l : Language) (name : String)
    (entry : LanguageSettings) (sole : s.SoleEntry l name entry) (off : entry.enabled = false) :
    (ofSettings s).get? l = (if name = l.key then none else some l) ∧
      ∀ (source : Text) (path ext : String), dottedExtension? path = some ext → s.Maps ext l →
        (ofSettings s).parse? source path =
          if name = l.key then some (.error (.noParser path ext))
          else (l.parse? source path).map .ok := by
  have enabled : s.isEnabled l = decide (name ≠ l.key) := by simp [sole.isEnabled_eq, off]
  constructor
  · rw [get?_ofSettings, enabled]
    by_cases exact : name = l.key <;> simp [exact]
  · intro source path ext has maps
    rw [parse?_ofSettings has maps, enabled]
    by_cases exact : name = l.key <;> simp [exact]

/-- An entry under the key that lists a further extension: neither extension is read. -/
theorem parse?_ofSettings_off_java :
    let s : Settings := { languages := [("java", ⟨false, ["jsh"]⟩), ("go", {})] }
    (ofSettings s).get? .java = none ∧
      (ofSettings s).parse? [] "A.java" = some (.error (.noParser "A.java" ".java")) ∧
      (ofSettings s).parse? [] "b/A.JSH" = some (.error (.noParser "b/A.JSH" ".jsh")) := by
  intro s
  have java : Language.ofName? "java" = some .java := by decide +kernel
  have go : Language.ofName? "go" = some .go := by decide +kernel
  have sole : s.SoleEntry .java "java" ⟨false, ["jsh"]⟩ := by
    refine ⟨by simp [s], java, ?_⟩
    intro other mem named
    simp only [s, List.mem_cons, List.not_mem_nil, or_false] at mem
    cases mem with
    | inl first => exact first
    | inr second =>
      rw [second, go] at named
      cases named
  have lists : s.Lists ".jsh" .java :=
    ⟨"java", _, sole.listed, java, "jsh", by simp, by decide +kernel⟩
  have greatest (k : Language) (other : s.Lists ".jsh" k) : k.rank ≤ Language.java.rank := by
    obtain ⟨name, entry, mem, named, word, listed, -⟩ := other
    simp only [s, List.mem_cons, Prod.mk.injEq, List.not_mem_nil, or_false] at mem
    cases mem with
    | inl first =>
      rw [first.1, java] at named
      cases named
      exact Nat.le_refl _
    | inr second => simp [second.2] at listed
  have result := parse?_ofSettings_off s .java "java" _ sole rfl
  exact ⟨result.1, result.2 [] "A.java" ".java" (by decide +kernel) (.inl (by decide +kernel)),
    result.2 [] "b/A.JSH" ".jsh" (by decide +kernel)
      (.inr ⟨by decide +kernel, by decide +kernel, lists, greatest⟩)⟩

/-- An entry that is off under a capital letter: the language stays, and its paths are read. -/
theorem parse?_ofSettings_capital :
    let s : Settings := { languages := [("Java", { enabled := false })] }
    s.SoleEntry .java "Java" { enabled := false } ∧ s.Maps ".java" .java ∧
      dottedExtension? "C.java" = some ".java" ∧
      (ofSettings s).get? .java ≠ none ∧
      (ofSettings s).parse? "class C {}".toList "C.java" ≠
        some (.error (.noParser "C.java" ".java")) := by
  intro s
  have java : Language.ofName? "Java" = some .java := by decide +kernel
  have sole : s.SoleEntry .java "Java" { enabled := false } := by
    refine ⟨by simp [s], java, ?_⟩
    intro other mem named
    simpa [s] using mem
  have maps : s.Maps ".java" .java := .inl (by decide +kernel)
  have has : dottedExtension? "C.java" = some ".java" := by decide +kernel
  have enabled : s.isEnabled .java = true := by decide +kernel
  refine ⟨sole, maps, has, ?_, ?_⟩
  · simp [get?_ofSettings, enabled]
  · rw [parse?_ofSettings has maps, enabled]
    cases Language.parse? .java "class C {}".toList "C.java" <;> simp

end Registry

end SourceTree
