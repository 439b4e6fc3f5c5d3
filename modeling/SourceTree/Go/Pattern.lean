import SourceTree.Pattern.Search
import SourceTree.Text.Case
import SourceTree.Text.Split

/-!
The shapes of Go declarations, and the spelling rule for exported names.
-/

namespace SourceTree.Go

open Pattern

/-- A name is exported if its first letter is a capital. -/
def isExported (name : Text) : Bool := (name.head?.map Text.isUpper).getD false

/-- A keyword that opens a declaration at the start of a line; it is group 1. -/
def declaration : Pattern :=
  lineStart ++ star (one fun c => c == ' ' || c == '\t') ++
    group 1 (anyOf (["package", "import", "func", "type", "var", "const"].map lit)) ++ wordEdge

/-- `package NAME` with the name as group 1. -/
def packageClause : Pattern := lit "package" ++ blanks1 ++ group 1 name

/-- An import path in quotes (group 2), perhaps with a name or point (group 1) in front. -/
def importSpec : Pattern :=
  opt (lit "import" ++ blanks1) ++ opt (group 1 (alt name (lit ".")) ++ blanks1) ++ lit "\x22" ++
    group 2 (star (noneOf ['\x22'])) ++ lit "\x22"

def bracketed : Pattern := lit "[" ++ star (noneOf [']']) ++ lit "]"

/-- The header of a function: receiver, name and type parameters are groups 1 to 3. -/
def funcHeader : Pattern :=
  lit "func" ++ blanks ++ opt (lit "(" ++ group 1 (star (noneOf ['(', ')'])) ++ lit ")" ++ blanks) ++
    group 2 name ++ blanks ++ opt (group 3 bracketed) ++ blanks ++ lit "("

/-- The front of a type declaration: its name, what follows in brackets, and an equals sign are
groups 1 to 3. -/
def typeSpec : Pattern :=
  group 1 name ++ blanks ++ opt (group 2 bracketed) ++ blanks ++ opt (group 3 (lit "=")) ++ blanks

/-- Names separated by commas. -/
def nameList : Pattern := name ++ star (blanks ++ lit "," ++ blanks ++ name)

/-- The names of fields (group 1) and their type with all that follows (group 2). -/
def field : Pattern :=
  group 1 nameList ++ blanks1 ++
    group 2 (one (fun c => !Text.isBlank c && c != '\x60') ++ star anything) ++ atEnd

/-- The front of a method of an interface; its name is group 1. -/
def interfaceMethod : Pattern := group 1 name ++ blanks ++ lit "("

def listedNames (names : Text) : List Text := (Text.splitBy (· == ',') names).map Text.trim

end SourceTree.Go
