import SourceTree.Codec.Node
import SourceTree.Linkage
import SourceTree.ParsedFile
import SourceTree.Symbol

/-!
The written form of symbols, imports, exports, diagnostics and whole parsed files.
-/

namespace SourceTree

namespace SymbolInfo

def toValue (s : SymbolInfo) : Value :=
  .object <|
    [("name", .string s.name), ("kind", .string s.kind.label), ("location", s.location.toValue),
      ("visibility", .string s.visibility.label), ("exported", .bool s.exported),
      ("isAsync", .bool s.isAsync), ("isStatic", .bool s.isStatic),
      ("isAbstract", .bool s.isAbstract), ("parameters", Parameter.listValue s.parameters)] ++
    Value.field? "returnType" .string s.returnType ++
    Value.field? "parentName" .string s.parentName

end SymbolInfo

namespace ImportedName

def toValue (n : ImportedName) : Value :=
  .object <|
    [("name", .string n.name)] ++ Value.field? "alias" .string n.rename ++
    [("isType", .bool n.isType)]

end ImportedName

namespace Import

def toValue (i : Import) : Value :=
  .object <|
    [("source", .string i.source)] ++
    Value.field? "defaultImport" .string i.defaultImport ++
    Value.field? "namespaceImport" .string i.namespaceImport ++
    [("names", .list (i.names.map ImportedName.toValue)), ("isTypeOnly", .bool i.isTypeOnly),
      ("isStatic", .bool i.isStatic), ("isWildcard", .bool i.isWildcard),
      ("location", i.location.toValue)]

/-- What an import binds: whether it binds nothing, and the local names. -/
def bindings (i : Import) : Value :=
  .object [("sideEffectOnly", .bool i.isSideEffectOnly),
    ("locals", .strings (i.names.map ImportedName.localName))]

end Import

namespace Export

def toValue (e : Export) : Value :=
  .object <|
    [("name", .string e.name)] ++ Value.field? "localName" .string e.localName ++
    [("kind", .string e.kind.label)] ++ Value.field? "source" .string e.source ++
    [("isTypeOnly", .bool e.isTypeOnly), ("location", e.location.toValue)]

end Export

namespace Diagnostic

def toValue (d : Diagnostic) : Value :=
  .object [("message", .string d.message), ("location", d.location.toValue),
    ("severity", .string d.severity.label)]

def ofValue? (v : Value) : Option Diagnostic := do
  let fields ← v.record? ["message", "location", "severity"]
  let message ← Value.required? fields "message" Value.asString?
  let location ← Value.required? fields "location" Location.ofValue?
  let severity ← Value.required? fields "severity" fun s => s.asString?.bind Severity.ofLabel?
  return ⟨message, location, severity⟩

end Diagnostic

namespace ParsedFile

def toValue (f : ParsedFile) : Value :=
  .object [("filePath", .string f.path), ("language", .string f.language.key),
    ("root", f.root.toValue), ("source", .string f.source),
    ("errors", .list (f.diagnostics.map Diagnostic.toValue))]

/-- Reads a parsed file and restores the parent links of its tree. -/
def ofValue? (v : Value) : Option ParsedFile := do
  let fields ← v.record? ["filePath", "language", "root", "source", "errors"]
  let path ← Value.required? fields "filePath" Value.asString?
  let language ← Value.required? fields "language" fun s => s.asString?.bind Language.ofKey?
  let root ← Value.required? fields "root" Node.ofValue?
  let source ← Value.required? fields "source" Value.asString?
  let errors ← Value.required? fields "errors" Value.asList?
  let diagnostics ← errors.mapM Diagnostic.ofValue?
  return ⟨path, language, root.relinked, source, diagnostics⟩

end ParsedFile

end SourceTree
