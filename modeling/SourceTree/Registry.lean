import SourceTree.Reader
import SourceTree.Settings.Basic

/-!
The registry of languages: which of them are read, and which further extensions stand for them.
-/

namespace SourceTree

/-- Why a source cannot be read. -/
inductive ReadError where
  | noParser (path : String) (extension : String)
  | unknownLanguage (name : String)
  deriving DecidableEq, Repr

namespace ReadError

/-- The name of the cause. -/
def kind : ReadError → String
  | noParser .. => "NoParser"
  | unknownLanguage .. => "UnknownLanguage"

/-- A code for the cause that stays the same. -/
def status : ReadError → String
  | noParser .. => "NO_PARSER"
  | unknownLanguage .. => "UNKNOWN_LANGUAGE"

def message : ReadError → String
  | noParser path extension =>
    "No parser available for file '" ++ path ++ "' (extension '" ++ extension ++
      "'). Supported extensions: .ts, .tsx, .js, .jsx, .py, .java, .go"
  | unknownLanguage name => "Unknown language '" ++ name ++ "'"

/-- What one can do about it. -/
def suggestions : ReadError → List String
  | noParser .. =>
    ["Check that the file extension belongs to a supported language",
      "Enable the language or map the extension under [languages] in settings.toml"]
  | unknownLanguage .. => ["Use one of: typescript, javascript, python, java, go"]

end ReadError

namespace Language

/-- The language of a name in any letter case, or why there is none. -/
def ofName (name : String) : Except ReadError Language :=
  match ofName? name with
  | some l => .ok l
  | none => .error (.unknownLanguage name)

end Language

/-- The registered languages, and the extensions registered beside the built-in ones, latest
first. -/
structure Registry where
  languages : List Language := []
  extensions : List (String × Language) := []
  deriving DecidableEq, Repr

namespace Registry

def full : Registry := { languages := Language.all }

def register (r : Registry) (l : Language) : Registry :=
  if r.languages.contains l then r else { r with languages := l :: r.languages }

def registerExtension (r : Registry) (ext : String) (l : Language) : Registry :=
  { r with extensions := (Language.dotted ext, l) :: r.extensions }

/-- The registry that settings ask for: the enabled languages, and the extensions set for any
language. Of two languages with one extension the later in the order of languages has it. -/
def ofSettings (s : Settings) : Registry where
  languages := Language.all.filter s.isEnabled
  extensions := s.overrides.reverse

/-- The registered languages in their order. -/
def supported (r : Registry) : List Language := Language.all.filter r.languages.contains

def get? (r : Registry) (l : Language) : Option Language :=
  if r.languages.contains l then some l else none

/-- The language of a path: by the built-in extensions first, then by the registered ones; it has to
be registered itself. -/
def forPath? (r : Registry) (path : String) : Option Language := do
  let ext ← dottedExtension? path
  let l ← (Language.ofExtension? ext).or (r.extensions.lookup ext)
  r.get? l

/-- Reads a source by the extension of its path. The inner result says why no language was
found. -/
def parse? (r : Registry) (source : Text) (path : String) : Option (Except ReadError ParsedFile) :=
  match r.forPath? path with
  | some l => (l.parse? source path).map .ok
  | none => some (.error (.noParser path ((dottedExtension? path).getD "")))

end Registry

end SourceTree
