import SourceTree.Language

/-!
The dialects of scripts: with or without types, with or without elements in angle brackets.
-/

namespace SourceTree.Script

inductive Dialect where
  | javascript
  | typescript
  | tsx
  deriving DecidableEq, Repr

namespace Dialect

/-- The dialect of a file. Only typed files tell by their extension whether they have elements. -/
def ofPath (language : Language) (path : String) : Dialect :=
  match language with
  | .typescript => if dottedExtension? path == some ".tsx" then tsx else typescript
  | _ => javascript

def isTyped : Dialect → Bool
  | javascript => false
  | typescript | tsx => true

/-- Whether an expression may be an element. Where it may not, an opening angle bracket starts a
type assertion. -/
def hasElements : Dialect → Bool
  | javascript | tsx => true
  | typescript => false

end Dialect

end SourceTree.Script
