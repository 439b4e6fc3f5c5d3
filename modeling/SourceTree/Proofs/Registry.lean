import Mathlib
import SourceTree.Registry

/-!
Whose extension it is. A registry starts from settings and is changed by later registrations; the
language of a path is then read off three tables, the built-in one before the latest registration
before the settings. Main statement: `forPath?_run_eq_some_iff`. The settings are a table without an
order of its own, and the statement says that the order in which it is listed does not show.
-/

namespace SourceTree

/-- A later change of a registry. -/
inductive Registration where
  | language (l : Language)
  | extension (word : String) (l : Language)
  deriving DecidableEq, Repr

namespace Registration

/-- The language that the registration gives an extension. -/
def grants? (ext : String) : Registration → Option Language
  | language _ => none
  | extension word l => if Language.dotted word = ext then some l else none

/-- The language that the latest registration of an extension gives it. -/
def latest? (ext : String) (steps : List Registration) : Option Language :=
  (steps.filterMap (grants? ext)).getLast?

theorem latest?_cons (ext : String) (step : Registration) (steps : List Registration) :
    latest? ext (step :: steps) = (latest? ext steps).or (step.grants? ext) := by
  cases h : step.grants? ext with
  | none => simp [latest?, h]
  | some l =>
    have last := List.getLast?_cons (l := steps.filterMap (grants? ext)) (a := l)
    simp only [latest?, List.filterMap_cons, h, last]
    cases (steps.filterMap (grants? ext)).getLast? <;> rfl

end Registration

namespace Language

theorem rank_injective {l k : Language} (h : l.rank = k.rank) : l = k := by
  cases l <;> cases k <;> first | rfl | cases h

theorem mem_all (l : Language) : l ∈ all := by cases l <;> decide

end Language

namespace Settings

/-- An entry for the language has the extension in its list. -/
def Lists (s : Settings) (ext : String) (l : Language) : Prop :=
  ∃ name entry, (name, entry) ∈ s.languages ∧ Language.ofName? name = some l ∧
    ∃ word ∈ entry.extensions, Language.dotted word = ext

/-- The language is the greatest of those whose entries list the extension. -/
structure Prefers (s : Settings) (ext : String) (l : Language) : Prop where
  lists : s.Lists ext l
  greatest : ∀ k, s.Lists ext k → k.rank ≤ l.rank

theorem overrideLe_iff {a b : String × Language} :
    overrideLe a b = true ↔ a.1 < b.1 ∨ a.1 = b.1 ∧ a.2.rank ≤ b.2.rank := by
  simp [overrideLe]

theorem overrideLe_trans (a b c : String × Language) (ab : overrideLe a b = true)
    (bc : overrideLe b c = true) : overrideLe a c = true := by
  rw [overrideLe_iff] at ab bc ⊢
  cases ab with
  | inl ab =>
    cases bc with
    | inl bc => exact .inl (ab.trans bc)
    | inr bc => exact .inl (bc.1 ▸ ab)
  | inr ab =>
    cases bc with
    | inl bc => exact .inl (ab.1 ▸ bc)
    | inr bc => exact .inr ⟨ab.1.trans bc.1, ab.2.trans bc.2⟩

theorem overrideLe_total (a b : String × Language) :
    (overrideLe a b || overrideLe b a) = true := by
  rw [Bool.or_eq_true, overrideLe_iff, overrideLe_iff]
  cases lt_trichotomy a.1 b.1 with
  | inl lt => exact .inl (.inl lt)
  | inr rest =>
    cases rest with
    | inl eq =>
      cases Nat.le_total a.2.rank b.2.rank with
      | inl le => exact .inl (.inr ⟨eq, le⟩)
      | inr le => exact .inr (.inr ⟨eq.symm, le⟩)
    | inr gt => exact .inr (.inl gt)

theorem mem_overrides {s : Settings} {ext : String} {l : Language} :
    (ext, l) ∈ s.overrides ↔ ext ≠ "." ∧ s.Lists ext l := by
  unfold overrides Lists
  rw [List.mem_mergeSort, List.mem_flatMap]
  constructor
  · rintro ⟨⟨name, entry⟩, mem, found⟩
    cases named : Language.ofName? name with
    | none => simp [named] at found
    | some k =>
      simp only [named, List.mem_filterMap, List.mem_map] at found
      obtain ⟨_, ⟨word, listed, rfl⟩, kept⟩ := found
      by_cases bare : Language.dotted word = "."
      · simp [bare] at kept
      · simp only [beq_iff_eq, bare, if_false, Option.some.injEq, Prod.mk.injEq] at kept
        obtain ⟨rfl, rfl⟩ := kept
        exact ⟨bare, name, entry, mem, named, word, listed, rfl⟩
  · rintro ⟨bare, name, entry, mem, named, word, listed, rfl⟩
    refine ⟨(name, entry), mem, ?_⟩
    simp only [named, List.mem_filterMap, List.mem_map]
    exact ⟨Language.dotted word, ⟨word, listed, rfl⟩, by simp [bare]⟩

/-- The overrides are listed from the last one, so the first hit is the greatest. -/
theorem lookup_overrides {s : Settings} {ext : String} {l : Language} :
    s.overrides.reverse.lookup ext = some l ↔ ext ≠ "." ∧ s.Prefers ext l := by
  have sorted : s.overrides.reverse.Pairwise fun a b => overrideLe b a = true :=
    List.pairwise_reverse.mpr (List.pairwise_mergeSort overrideLe_trans overrideLe_total _)
  have sound : ∀ k, s.overrides.reverse.lookup ext = some k → ext ≠ "." ∧ s.Prefers ext k := by
    intro k found
    obtain ⟨front, behind, split, fresh⟩ := List.lookup_eq_some_iff.mp found
    have mem : (ext, k) ∈ s.overrides := List.mem_reverse.mp (by simp [split])
    obtain ⟨bare, lists⟩ := mem_overrides.mp mem
    refine ⟨bare, lists, fun j other => ?_⟩
    have listed : (ext, j) ∈ front ++ (ext, k) :: behind :=
      split ▸ List.mem_reverse.mpr (mem_overrides.mpr ⟨bare, other⟩)
    rw [split] at sorted
    cases List.mem_append.mp listed with
    | inl early => simpa using fresh _ early
    | inr late =>
      cases late with
      | head => exact Nat.le_refl _
      | tail _ late =>
        have le := List.rel_of_pairwise_cons (List.pairwise_append.mp sorted).2.1 late
        simpa using overrideLe_iff.mp le
  constructor
  · exact sound l
  · rintro ⟨bare, prefers⟩
    cases found : s.overrides.reverse.lookup ext with
    | none =>
      have absent := List.lookup_eq_none_iff.mp found (ext, l)
        (List.mem_reverse.mpr (mem_overrides.mpr ⟨bare, prefers.lists⟩))
      simp at absent
    | some k =>
      have other := (sound k found).2
      have same : k.rank = l.rank :=
        Nat.le_antisymm (prefers.greatest k other.lists) (other.greatest l prefers.lists)
      rw [Language.rank_injective same]

/-- With one entry a name, looking a name up is membership, whatever the order of the entries. -/
theorem lookup_iff_mem {α : Type} {entries : List (String × α)}
    (keys : (entries.map Prod.fst).Nodup) {name : String} {a : α} :
    entries.lookup name = some a ↔ (name, a) ∈ entries := by
  induction entries with
  | nil => simp
  | cons entry entries ih =>
    obtain ⟨key, b⟩ := entry
    obtain ⟨fresh, keys⟩ := List.nodup_cons.mp keys
    by_cases same : name = key
    · subst same
      have absent : (name, a) ∉ entries := fun mem =>
        fresh (List.mem_map.mpr ⟨(name, a), mem, rfl⟩)
      simp [absent, eq_comm]
    · have other : (name == key) = false := beq_eq_false_iff_ne.mpr same
      simp [List.lookup_cons, other, same, ih keys]

section Order

variable {s t : Settings} (same : t.languages.Perm s.languages)
include same

theorem lists_congr {ext : String} {l : Language} : t.Lists ext l ↔ s.Lists ext l := by
  simp only [Lists, same.mem_iff]

theorem prefers_congr {ext : String} {l : Language} : t.Prefers ext l ↔ s.Prefers ext l := by
  constructor
  · intro h
    exact ⟨(lists_congr same).mp h.lists, fun k hk => h.greatest k ((lists_congr same).mpr hk)⟩
  · intro h
    exact ⟨(lists_congr same).mpr h.lists, fun k hk => h.greatest k ((lists_congr same).mp hk)⟩

theorem isEnabled_congr (keys : (s.languages.map Prod.fst).Nodup) (l : Language) :
    t.isEnabled l = s.isEnabled l := by
  have keys' : (t.languages.map Prod.fst).Nodup := (same.map Prod.fst).nodup_iff.mpr keys
  have found : t.languages.lookup l.key = s.languages.lookup l.key := by
    apply Option.ext
    intro entry
    rw [lookup_iff_mem keys', lookup_iff_mem keys, same.mem_iff]
  unfold isEnabled
  rw [found]

end Order

end Settings

namespace Registry

/-- What one registration does. -/
def step (r : Registry) : Registration → Registry
  | .language l => r.register l
  | .extension word l => r.registerExtension word l

def run (r : Registry) (steps : List Registration) : Registry := steps.foldl step r

theorem mem_languages_step (r : Registry) (a : Registration) (l : Language) :
    l ∈ (r.step a).languages ↔ l ∈ r.languages ∨ a = .language l := by
  cases a with
  | extension word k => simp [step, registerExtension]
  | language k =>
    simp only [step, register, Registration.language.injEq]
    split
    case isTrue known =>
      have mem : k ∈ r.languages := by simpa using known
      constructor
      · exact .inl
      · rintro (h | rfl)
        · exact h
        · exact mem
    case isFalse => simp [or_comm, eq_comm]

theorem mem_languages_run (r : Registry) (steps : List Registration) (l : Language) :
    l ∈ (r.run steps).languages ↔ l ∈ r.languages ∨ .language l ∈ steps := by
  induction steps generalizing r with
  | nil => simp [run]
  | cons a steps ih =>
    have rest : l ∈ (r.run (a :: steps)).languages ↔
        l ∈ (r.step a).languages ∨ .language l ∈ steps := ih (r.step a)
    rw [rest, mem_languages_step, List.mem_cons, or_assoc, eq_comm]

theorem lookup_extensions_step (r : Registry) (a : Registration) (ext : String) :
    (r.step a).extensions.lookup ext = (a.grants? ext).or (r.extensions.lookup ext) := by
  cases a with
  | language k =>
    simp only [step, register, Registration.grants?, Option.none_or]
    split <;> rfl
  | extension word k =>
    by_cases same : Language.dotted word = ext
    · simp [step, registerExtension, Registration.grants?, same]
    · have other : (ext == Language.dotted word) = false := beq_eq_false_iff_ne.mpr (Ne.symm same)
      simp [step, registerExtension, Registration.grants?, same, List.lookup_cons, other]

theorem lookup_extensions_run (r : Registry) (steps : List Registration) (ext : String) :
    (r.run steps).extensions.lookup ext =
      (Registration.latest? ext steps).or (r.extensions.lookup ext) := by
  induction steps generalizing r with
  | nil => simp [run, Registration.latest?]
  | cons a steps ih =>
    calc (r.run (a :: steps)).extensions.lookup ext
        = (Registration.latest? ext steps).or ((r.step a).extensions.lookup ext) := ih (r.step a)
      _ = (Registration.latest? ext (a :: steps)).or (r.extensions.lookup ext) := by
          rw [lookup_extensions_step, Registration.latest?_cons, Option.or_assoc]

theorem mem_languages_ofSettings (s : Settings) (l : Language) :
    l ∈ (ofSettings s).languages ↔ s.isEnabled l = true := by
  simp [ofSettings, l.mem_all]

theorem get?_eq_some_iff {r : Registry} {k l : Language} :
    r.get? k = some l ↔ k = l ∧ l ∈ r.languages := by
  simp only [get?, List.contains_iff_mem]
  split
  case isTrue known =>
    constructor
    · intro h
      cases h
      exact ⟨rfl, known⟩
    · rintro ⟨rfl, -⟩
      rfl
  case isFalse unknown =>
    constructor
    · intro h
      cases h
    · rintro ⟨rfl, known⟩
      exact absurd known unknown

theorem forPath?_eq_some_iff {r : Registry} {path : String} {l : Language} :
    r.forPath? path = some l ↔
      ∃ ext, dottedExtension? path = some ext ∧
        (Language.ofExtension? ext).or (r.extensions.lookup ext) = some l ∧ l ∈ r.languages := by
  simp only [forPath?, Option.bind_eq_bind, Option.bind_eq_some_iff, get?_eq_some_iff]
  constructor
  · rintro ⟨ext, has, k, found, rfl, known⟩
    exact ⟨ext, has, found, known⟩
  · rintro ⟨ext, has, found, known⟩
    exact ⟨ext, has, l, found, rfl, known⟩

theorem forPath?_run_iff {s : Settings} {steps : List Registration} {path : String}
    {l : Language} :
    ((ofSettings s).run steps).forPath? path = some l ↔
      ∃ ext, dottedExtension? path = some ext ∧
        (Language.ofExtension? ext = some l ∨
          Language.ofExtension? ext = none ∧
            (Registration.latest? ext steps = some l ∨
              Registration.latest? ext steps = none ∧ ext ≠ "." ∧ s.Prefers ext l)) ∧
        (s.isEnabled l = true ∨ .language l ∈ steps) := by
  have settings (ext : String) :
      (ofSettings s).extensions.lookup ext = some l ↔ ext ≠ "." ∧ s.Prefers ext l :=
    Settings.lookup_overrides
  simp only [forPath?_eq_some_iff, lookup_extensions_run, mem_languages_run,
    mem_languages_ofSettings, Option.or_eq_some_iff, settings]

/-- The language of a path is the one that its extension stands for, by the built-in table, else by
the latest registration, else by the greatest language that lists it, and it has to be enabled or
registered. A word of nothing but dots lists no extension. -/
theorem forPath?_run_eq_some_iff (s : Settings) (steps : List Registration) (path : String)
    (l : Language) :
    (((ofSettings s).run steps).forPath? path = some l ↔
      ∃ ext, dottedExtension? path = some ext ∧
        (Language.ofExtension? ext = some l ∨
          Language.ofExtension? ext = none ∧
            (Registration.latest? ext steps = some l ∨
              Registration.latest? ext steps = none ∧ ext ≠ "." ∧ s.Prefers ext l)) ∧
        (s.isEnabled l = true ∨ .language l ∈ steps)) ∧
    ∀ t : Settings, t.languages.Perm s.languages → (s.languages.map Prod.fst).Nodup →
      ((ofSettings t).run steps).forPath? path = ((ofSettings s).run steps).forPath? path := by
  constructor
  · exact forPath?_run_iff
  · intro t same keys
    apply Option.ext
    intro k
    simp only [forPath?_run_iff, Settings.prefers_congr same, Settings.isEnabled_congr same keys]

/-- Two entries list one extension, and a third language takes it over later. -/
theorem forPath?_run_contested :
    let entries : List (String × LanguageSettings) :=
      [("Python", { extensions := ["..Tpl"] }), ("java", { extensions := ["tpl"] })]
    let s : Settings := { languages := entries }
    let t : Settings := { languages := entries.reverse }
    ((ofSettings s).run []).forPath? "a.TPL" = some .java ∧
      ((ofSettings t).run []).forPath? "a.TPL" = some .java ∧
      ((ofSettings t).run [.extension "tpl" .go]).forPath? "a.TPL" = some .go := by
  intro entries s t
  have same : t.languages.Perm s.languages := entries.reverse_perm
  have keys : (s.languages.map Prod.fst).Nodup := by decide
  have first : ((ofSettings s).run []).forPath? "a.TPL" = some .java := by cbv
  have second : ((ofSettings s).run [.extension "tpl" .go]).forPath? "a.TPL" = some .go := by
    decide +kernel
  have swap (steps : List Registration) :=
    (forPath?_run_eq_some_iff s steps "a.TPL" .java).2 t same keys
  exact ⟨first, (swap []).trans first, (swap _).trans second⟩

/-- The entry of a language can have an empty word, and a path an empty extension; yet the extension
stands for nothing. -/
theorem forPath?_run_bare_dot :
    let s : Settings := { languages := [("python", { extensions := [""] })] }
    dottedExtension? "foo." = some "." ∧ Language.ofExtension? "." = none ∧
      Registration.latest? "." [] = none ∧ s.Prefers "." .python ∧ s.isEnabled .python = true ∧
      ((ofSettings s).run []).forPath? "foo." ≠ some .python := by
  intro s
  have only (k : Language) (h : s.Lists "." k) : k = .python := by
    obtain ⟨name, entry, mem, named, -⟩ := h
    obtain ⟨rfl, rfl⟩ : name = "python" ∧ entry = { extensions := [""] } := by simpa [s] using mem
    exact Option.some.inj (named.symm.trans (by decide +kernel))
  refine ⟨by decide +kernel, by decide +kernel, rfl, ⟨?_, ?_⟩, by decide, by decide +kernel⟩
  · exact ⟨"python", _, List.mem_singleton.mpr rfl, by decide +kernel, "", by simp, by
      decide +kernel⟩
  · intro k h
    rw [only k h]

end Registry

end SourceTree
