import SourceTree.Text.Case
import SourceTree.Text.Split

/-!
The languages whose sources can be read, and how a path tells its language: by the extension of
its last component alone.
-/

namespace SourceTree

inductive Language where
  | typescript | javascript | python | java | go
  deriving DecidableEq, Repr

namespace Language

/-- All languages in their order. -/
def all : List Language := [typescript, javascript, python, java, go]

/-- The place of a language in the order. -/
def rank : Language → Nat
  | typescript => 0
  | javascript => 1
  | python => 2
  | java => 3
  | go => 4

def key : Language → String
  | typescript => "typescript"
  | javascript => "javascript"
  | python => "python"
  | java => "java"
  | go => "go"

/-- The name of a language for people. -/
def title : Language → String
  | typescript => "TypeScript"
  | javascript => "JavaScript"
  | python => "Python"
  | java => "Java"
  | go => "Go"

/-- The extensions of a language, with their dots. -/
def extensions : Language → List String
  | typescript => [".ts", ".tsx", ".mts", ".cts"]
  | javascript => [".js", ".jsx", ".mjs", ".cjs"]
  | python => [".py", ".pyi"]
  | java => [".java"]
  | go => [".go"]

/-- The language of exactly this key. -/
def ofKey? (s : String) : Option Language := all.find? fun l => l.key == s

/-- The language of this key in any letter case. -/
def ofName? (s : String) : Option Language := ofKey? (String.ofList (Text.lower s.toList))

/-- An extension in lower case with exactly one dot in front. -/
def dotted (ext : String) : String :=
  String.ofList ('.' :: Text.lower (ext.toList.dropWhile (· == '.')))

/-- The language of an extension, in any letter case and with any number of dots in front. -/
def ofExtension? (ext : String) : Option Language :=
  all.find? fun l => l.extensions.contains (dotted ext)

end Language

namespace Text

/-- The last component of a path, unless it leads upwards. Empty components and single dots do not
count. -/
def fileName? (path : Text) : Option Text :=
  let components := (splitBy (· == '/') path).filter fun c => !c.isEmpty && c != ['.']
  match components.getLast? with
  | none => none
  | some c => if c = ['.', '.'] then none else some c

/-- What follows the last dot of the last component; a dot in front of everything else does not
start an extension. -/
def extension? (path : Text) : Option Text := do
  let name ← fileName? path
  let (stem, ext) ← splitLast? (· == '.') name
  if stem.isEmpty then none else some ext

end Text

/-- The extension of a path in lower case, with its dot. -/
def dottedExtension? (path : String) : Option String :=
  (Text.extension? path.toList).map fun ext => String.ofList ('.' :: Text.lower ext)

namespace Language

def ofPath? (path : String) : Option Language :=
  (Text.extension? path.toList).bind fun ext => ofExtension? (String.ofList ext)

/-- Whether a path has one of the extensions of the language. -/
def supports (l : Language) (path : String) : Bool :=
  match dottedExtension? path with
  | some ext => l.extensions.contains ext
  | none => false

end Language

end SourceTree
