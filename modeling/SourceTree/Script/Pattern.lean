import SourceTree.Pattern.Search

/-!
The shapes of import and export statements.
-/

namespace SourceTree.Script

open Pattern

def isIdentPart (c : Char) : Bool := Text.isWord c || c == '$'

/-- A name of word characters and dollar signs. -/
def ident : Pattern := plus (one isIdentPart)

def isQuote (c : Char) : Bool := c == '\x27' || c == '\x22'

/-- A quoted module name; it is remembered as `slot`. -/
def quoted (slot : Nat) : Pattern :=
  one isQuote ++ group slot (plus (noneOf ['\x27', '\x22'])) ++ one isQuote

/-- `from "MODULE"` with the module remembered as `slot`. -/
def fromClause (slot : Nat) : Pattern := lit "from" ++ blanks ++ quoted slot

/-- `type` and blanks, remembered as group 1 if present. -/
def typeOnly : Pattern := opt (group 1 (lit "type" ++ blanks1))

/-- `import "MODULE"`; the module is group 1. -/
def sideEffectImport : Pattern := lit "import" ++ blanks ++ quoted 1

/-- `import CLAUSE from "`; `type` is group 1 and the clause group 2. -/
def importClause : Pattern :=
  lit "import" ++ blanks1 ++ typeOnly ++ group 2 (fewest anything) ++ blanks ++ lit "from" ++
    blanks ++ one isQuote

/-- Names in braces; what stands between the braces is group 1. -/
def namedBlock : Pattern := lit "\x7b" ++ group 1 (star (noneOf ['\x7d'])) ++ lit "\x7d"

/-- `* as NAME`; the name is group 1. -/
def namespaceBinding : Pattern := lit "*" ++ blanks ++ lit "as" ++ blanks1 ++ group 1 ident

/-- `NAME` or `NAME as ALIAS`, perhaps after `type`: groups 2, 3 and 1. -/
def specifier : Pattern :=
  typeOnly ++ group 2 ident ++ opt (blanks1 ++ lit "as" ++ blanks1 ++ group 3 ident) ++ atEnd

/-- `export * from "MODULE"`, perhaps with `type` (group 1) and `as NAME` (group 2); the module is
group 3. -/
def exportStar : Pattern :=
  lit "export" ++ blanks1 ++ typeOnly ++ lit "*" ++ blanks ++
    opt (lit "as" ++ blanks1 ++ group 2 ident ++ blanks) ++ fromClause 3

/-- `export` of names in braces (group 2), perhaps with `type` (group 1) and from a module
(group 3). -/
def exportNamed : Pattern :=
  lit "export" ++ blanks1 ++ typeOnly ++ lit "\x7b" ++ group 2 (star (noneOf ['\x7d'])) ++
    lit "\x7d" ++ blanks ++ opt (fromClause 3)

def exportDefault : Pattern := lit "export" ++ blanks1 ++ lit "default" ++ blanks1

/-- What a default export exports: the name of a function (group 1), of a class (group 2), or a name
alone (group 3). -/
def defaultTarget : Pattern :=
  anyOf [
    opt (lit "async" ++ blanks1) ++ lit "function" ++ blanks ++ opt (lit "*") ++ blanks ++
      group 1 ident,
    opt (lit "abstract" ++ blanks1) ++ lit "class" ++ blanks1 ++ group 2 ident,
    group 3 ident ++ blanks ++ opt (lit ";") ++ blanks ++ atEnd]

/-- The keyword of an exported declaration (group 1) and the name behind it (group 2). -/
def exportDeclaration : Pattern :=
  lit "export" ++ blanks1 ++ opt (lit "declare" ++ blanks1) ++ opt (lit "async" ++ blanks1) ++
    group 1 (anyOf [lit "function" ++ blanks ++ opt (lit "*"),
      lit "abstract" ++ blanks1 ++ lit "class", lit "class", lit "interface", lit "type",
      lit "const" ++ blanks1 ++ lit "enum", lit "enum", lit "namespace", lit "module", lit "const",
      lit "let", lit "var"]) ++
    blanks1 ++ group 2 ident

end SourceTree.Script
