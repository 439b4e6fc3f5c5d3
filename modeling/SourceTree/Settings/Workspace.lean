import SourceTree.Settings.Environment
import SourceTree.Toml.Document

/-!
Where settings come from: the defaults, then a file, then environment variables.
-/

namespace SourceTree

/-- A place below the root of a workspace, from the outermost directory inwards. -/
abbrev Place := List String

/-- The files, directories and environment variables that settings can come from. -/
structure Workspace where
  files : List (Place × Text) := []
  directories : List Place := []
  environment : List (String × String) := []

/-- Why settings cannot be had or kept. -/
inductive SettingsError where
  | unreadable
  | unwritable
  deriving DecidableEq, Repr

namespace Workspace

def place (path : String) : Place :=
  (Text.splitBy (· == '/') path.toList).foldl (fun place part =>
    if part.isEmpty || part == ['.'] then place
    else if part == ['.', '.'] then place.dropLast
    else place ++ [String.ofList part]) []

/-- The place of a file; a path that ends in a slash names none. -/
def filePlace? (path : String) : Option Place :=
  let place := place path
  if place.isEmpty || Text.endsWith path.toList ['/'] then none else some place

def file? (w : Workspace) (place : Place) : Option Text := w.files.lookup place

/-- Whether there is a directory: every place above a file or a directory is one. -/
def isDirectory (w : Workspace) (place : Place) : Bool :=
  place.isEmpty || w.directories.any place.isPrefixOf ||
    w.files.any fun (file, _) => place.isPrefixOf file && place.length < file.length

/-- The places from a directory up to the root. -/
def upwards (place : Place) : List Place :=
  (List.range (place.length + 1)).reverse.map place.take

/-- Writes a file and makes the directories above it. -/
def write? (w : Workspace) (place : Place) (text : Text) : Option Workspace :=
  let isBlocked := (upwards place.dropLast).any fun above => (w.file? above).isSome
  if isBlocked || w.isDirectory place then none
  else some { w with files := (place, text) :: w.files.filter fun (file, _) => file != place }

/-- The settings file of the nearest directory upwards that has a settings directory. -/
def settingsPlace? (w : Workspace) (place : Place) : Option Place :=
  let folders := (upwards place).map (· ++ [".codeshape"])
  (folders.find? w.isDirectory).map (· ++ ["settings.toml"])

end Workspace

namespace Settings

/-- Settings from a document and environment variables over the defaults. -/
def ofLayers? (document : Option Text) (environment : List (String × String)) :
    Option Settings := do
  let file ← match document with
    | none => some (.object [])
    | some text => Toml.read? text
  let defaults := Settings.toValue {}
  ofValue? ((defaults.overlay file).overlay (Environment.layer environment))

/-- Settings with a given file, which may be missing. -/
def loadFrom (w : Workspace) (place : Option Place) : Except SettingsError Settings :=
  match ofLayers? (place.bind w.file?) w.environment with
  | some s => .ok s
  | none => .error .unreadable

def load (w : Workspace) (directory : Place) : Except SettingsError Settings :=
  loadFrom w (w.settingsPlace? directory)

/-- Keeps settings in a file. -/
def save (s : Settings) (w : Workspace) (place : Option Place) : Except SettingsError Workspace :=
  match place.bind fun p => w.write? p (Toml.write s.toValue) with
  | some w => .ok w
  | none => .error .unwritable

end Settings

end SourceTree
