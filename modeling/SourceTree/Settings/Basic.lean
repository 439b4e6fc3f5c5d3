import SourceTree.Language
import SourceTree.Value

/-!
Settings: which languages are read, which further extensions stand for them, and how edits are
checked.
-/

namespace SourceTree

structure LanguageSettings where
  enabled : Bool := true
  /-- Extensions beside the built-in ones, with or without a dot. -/
  extensions : List String := []
  deriving DecidableEq, Repr

structure Settings where
  version : Nat := 1
  debug : Bool := false
  logLevel : String := "warn"
  /-- The settings of languages by name; names that no language has are kept. -/
  languages : List (String × LanguageSettings) := Language.all.map fun l => (l.key, {})
  /-- Whether edits that touch may be carried out together. -/
  allowTouching : Bool := true
  deriving DecidableEq, Repr

namespace LanguageSettings

def toValue (s : LanguageSettings) : Value :=
  .object [("enabled", .bool s.enabled), ("extensions", .strings s.extensions)]

def ofValue? (v : Value) : Option LanguageSettings := do
  let fields ← v.record? ["enabled", "extensions"]
  let enabled ← Value.defaulted? fields "enabled" Value.asBool? true
  let extensions ← Value.defaulted? fields "extensions"
    (fun v => v.asList?.bind fun items => items.mapM Value.asString?) []
  return ⟨enabled, extensions⟩

end LanguageSettings

namespace Settings

def toValue (s : Settings) : Value :=
  .object [
    ("version", .nat s.version),
    ("debug", .bool s.debug),
    ("logging", .object [("level", .string s.logLevel)]),
    ("languages", .object (s.languages.map fun (name, l) => (name, l.toValue))),
    ("manipulation", .object [("allow_touching", .bool s.allowTouching)])]

def languagesOfValue? : Value → Option (List (String × LanguageSettings))
  | .object fields => fields.mapM fun (name, v) => do return (name, ← LanguageSettings.ofValue? v)
  | _ => none

/-- A record with one field. -/
def singleOfValue? (key : String) (read : Value → Option α) (missing : α) (v : Value) :
    Option α := do
  let fields ← v.record? [key]
  Value.defaulted? fields key read missing

/-- Reads settings; what is missing has its default, and unknown fields do not matter. -/
def ofValue? (v : Value) : Option Settings := do
  let defaults : Settings := {}
  let fields ← v.record? ["version", "debug", "logging", "languages", "manipulation"]
  let version ← Value.defaulted? fields "version" Value.asNat32? defaults.version
  let debug ← Value.defaulted? fields "debug" Value.asBool? defaults.debug
  let logLevel ← Value.defaulted? fields "logging"
    (singleOfValue? "level" Value.asString? defaults.logLevel) defaults.logLevel
  let languages ← Value.defaulted? fields "languages" languagesOfValue? defaults.languages
  let allowTouching ← Value.defaulted? fields "manipulation"
    (singleOfValue? "allow_touching" Value.asBool? defaults.allowTouching) defaults.allowTouching
  return ⟨version, debug, logLevel, languages, allowTouching⟩

/-- Whether a language is read; it is unless its entry says otherwise. -/
def isEnabled (s : Settings) (l : Language) : Bool :=
  ((s.languages.lookup l.key).map LanguageSettings.enabled).getD true

/-- Orders extensions by their text and then by the rank of their language. -/
def overrideLe (a b : String × Language) : Bool :=
  a.1 < b.1 || (a.1 == b.1 && a.2.rank ≤ b.2.rank)

/-- The extensions that are set for languages, in order; names of languages count in any letter
case. -/
def overrides (s : Settings) : List (String × Language) :=
  let found := s.languages.flatMap fun (name, entry) =>
    match Language.ofName? name with
    | none => []
    | some l => (entry.extensions.map Language.dotted).filterMap fun ext =>
      if ext == "." then none else some (ext, l)
  found.mergeSort overrideLe

end Settings

end SourceTree
