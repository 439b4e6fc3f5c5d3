import SourceTree.Pattern.Search
import SourceTree.Text.Split

/-!
The shapes of the Python statements that declare something.
-/

namespace SourceTree.Python

open Pattern

/-- `class NAME`; the name is group 1. -/
def classHeader : Pattern := lit "class" ++ blanks1 ++ group 1 name

/-- `def NAME`, perhaps `async` (group 1); the name is group 2. -/
def defHeader : Pattern :=
  opt (group 1 (lit "async" ++ blanks1)) ++ lit "def" ++ blanks1 ++ group 2 name

/-- `import MODULES`; what is imported is group 1. -/
def importStatement : Pattern := lit "import" ++ blanks1 ++ group 1 (plus anything) ++ atEnd

/-- `from MODULE import NAMES`; the module is group 1 and the names group 2. -/
def fromImport : Pattern :=
  lit "from" ++ blanks1 ++ group 1 (plus (one fun c => c == '.' || Text.isWord c)) ++ blanks1 ++
    lit "import" ++ blanks1 ++ group 2 (plus anything) ++ atEnd

/-- `NAME = VALUE` or `NAME: TYPE = VALUE`; the name is group 1 and the type group 2. -/
def assignment : Pattern :=
  group 1 name ++ blanks ++ opt (lit ":" ++ blanks ++ group 2 (fewestPlus (noneOf ['=']))) ++
    blanks ++ lit "=" ++ blanks ++ group 3 (noneOf ['='] ++ star anything) ++ atEnd

/-- `NAME: TYPE`; the name is group 1 and the type group 2. -/
def annotatedName : Pattern :=
  group 1 name ++ blanks ++ lit ":" ++ blanks ++ group 2 (plus (noneOf ['='])) ++ atEnd

/-- A string between quotes of any kind; what it holds is group 1. -/
def stringLiteral : Pattern :=
  one (fun c => c == '\x27' || c == '\x22') ++ group 1 (plus (noneOf ['\x27', '\x22'])) ++
    one (fun c => c == '\x27' || c == '\x22')

def listedStrings (value : Text) : List Text :=
  (stringLiteral.findAll value).map fun m => m.groupText 1

/-- What follows the first equals sign, or nothing. -/
def assignedValue (text : Text) : Text :=
  ((Text.splitFirst? (· == '=') text).map (·.2)).getD []

end SourceTree.Python
