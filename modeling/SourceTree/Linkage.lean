import SourceTree.Location

/-!
What a file takes from others and what it offers them, in a form common to all languages.
-/

namespace SourceTree

structure ImportedName where
  name : String
  rename : Option String := none
  isType : Bool := false
  deriving DecidableEq, Repr

namespace ImportedName

/-- The name under which the import is known in the file. -/
def localName (n : ImportedName) : String := n.rename.getD n.name

end ImportedName

structure Import where
  source : String
  defaultImport : Option String := none
  namespaceImport : Option String := none
  names : List ImportedName := []
  isTypeOnly : Bool := false
  isStatic : Bool := false
  isWildcard : Bool := false
  location : Location
  deriving DecidableEq, Repr

namespace Import

/-- An import that binds no name. -/
def isSideEffectOnly (i : Import) : Bool :=
  i.defaultImport.isNone && i.namespaceImport.isNone && i.names.isEmpty && !i.isWildcard

end Import

inductive ExportKind where
  | named | default | declaration | reExport | namespaceReExport
  deriving DecidableEq, Repr

namespace ExportKind

def label : ExportKind → String
  | named => "named"
  | default => "default"
  | declaration => "declaration"
  | reExport => "re_export"
  | namespaceReExport => "namespace_re_export"

end ExportKind

structure Export where
  name : String
  localName : Option String := none
  kind : ExportKind
  source : Option String := none
  isTypeOnly : Bool := false
  location : Location
  deriving DecidableEq, Repr

end SourceTree
