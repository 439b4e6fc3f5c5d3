import SourceTree.Pattern.Search
import SourceTree.Text.Split

/-!
The shapes of Java declarations, as far as their headers show them.
-/

namespace SourceTree.Java

open Pattern

def isNameStart (c : Char) : Bool := Text.isNameStart c || c == '$'

def isNamePart (c : Char) : Bool := Text.isWord c || c == '$'

def javaName : Pattern := one isNameStart ++ star (one isNamePart)

/-- A word or a point. -/
def isPathPart (c : Char) : Bool := Text.isWord c || c == '.'

/-- The modifiers that may stand in front of a declaration. -/
def modifierWords : List String :=
  ["public", "protected", "private", "static", "final", "abstract", "sealed", "non-sealed",
    "strictfp", "synchronized", "native", "default", "transient", "volatile"]

/-- The words that can never be the type of a method or field. -/
def nonTypes : List String :=
  modifierWords ++
    ["new", "return", "throw", "else", "case", "package", "import", "class", "interface", "enum",
      "record"]

/-- An annotation with its arguments, which may hold one further level of parentheses. -/
def annotationMark : Pattern :=
  lit "@" ++ plus (one isPathPart) ++
    opt (blanks ++ lit "(" ++
      star (alt (noneOf ['(', ')']) (lit "(" ++ star (noneOf ['(', ')']) ++ lit ")")) ++ lit ")")

/-- Annotations and modifiers; they are groups 1 and 2. -/
def declarationFront : Pattern :=
  group 1 (star (annotationMark ++ blanks)) ++
    group 2 (star (anyOf (modifierWords.map lit) ++ blanks1))

/-- Something in angle brackets that stays clear of statements and calls. -/
def typeArguments : Pattern := lit "<" ++ star (noneOf [';', '(', ')']) ++ lit ">"

/-- A type with its arguments and array brackets. -/
def typeReference : Pattern :=
  plus (one fun c => isPathPart c || c == '$') ++ opt (blanks ++ typeArguments) ++
    star (blanks ++ lit "[" ++ blanks ++ lit "]")

/-- The header of a type; the keyword is group 3 and the name group 4. -/
def typeHeader : Pattern :=
  declarationFront ++
    group 3 (anyOf (["class", "interface", "enum", "record", "@interface"].map lit)) ++ blanks1 ++
    group 4 javaName

/-- The header of a method; its type parameters, type and name are groups 3 to 5. -/
def methodHeader : Pattern :=
  declarationFront ++ opt (group 3 (typeArguments ++ blanks)) ++ group 4 typeReference ++ blanks1 ++
    group 5 javaName ++ blanks ++ lit "("

/-- The header of a constructor; its type parameters and name are groups 3 and 4. -/
def constructorHeader : Pattern :=
  declarationFront ++ opt (group 3 (typeArguments ++ blanks)) ++ group 4 javaName ++ blanks ++
    lit "("

/-- The header of a field; its type and name are groups 3 and 4. -/
def fieldHeader : Pattern :=
  declarationFront ++ group 3 typeReference ++ blanks1 ++ group 4 javaName ++ blanks ++
    star (lit "[" ++ blanks ++ lit "]" ++ blanks) ++ one fun c => c == '=' || c == ';' || c == ','

/-- `package NAME;` with the name as group 1. -/
def packageStatement : Pattern :=
  lit "package" ++ blanks1 ++ group 1 (plus (one isPathPart)) ++ blanks ++ lit ";"

/-- `import PATH;`: `static` is group 1, the path group 2 and a wildcard group 3. -/
def importStatement : Pattern :=
  lit "import" ++ blanks1 ++ opt (group 1 (lit "static" ++ blanks1)) ++
    group 2 (fewestPlus (one isPathPart)) ++ opt (group 3 (lit ".*")) ++ blanks ++ lit ";"

/-- A keyword that opens a list of supertypes; it is group 1. -/
def heritageKeyword : Pattern :=
  wordEdge ++ group 1 (anyOf (["extends", "implements", "permits"].map lit)) ++ wordEdge

end SourceTree.Java
