import SourceTree.Value

/-!
Parameters of callables, and their form as node metadata.
-/

namespace SourceTree

structure Parameter where
  name : String
  type : Option String := none
  defaultValue : Option String := none
  optional : Bool := false
  variadic : Bool := false
  deriving DecidableEq, Repr

namespace Parameter

def toValue (p : Parameter) : Value :=
  .object <|
    [("name", .string p.name)] ++
    Value.field? "typeAnnotation" .string p.type ++
    Value.field? "defaultValue" .string p.defaultValue ++
    [("optional", .bool p.optional), ("variadic", .bool p.variadic)]

def ofValue? (v : Value) : Option Parameter := do
  let fields ← v.record? ["name", "typeAnnotation", "defaultValue", "optional", "variadic"]
  let name ← Value.required? fields "name" Value.asString?
  let type ← Value.optional? fields "typeAnnotation" Value.asString?
  let defaultValue ← Value.optional? fields "defaultValue" Value.asString?
  let optional ← Value.defaulted? fields "optional" Value.asBool? false
  let variadic ← Value.defaulted? fields "variadic" Value.asBool? false
  return ⟨name, type, defaultValue, optional, variadic⟩

def listValue (ps : List Parameter) : Value := .list (ps.map toValue)

/-- A parameter list read back; every item has to be a parameter. -/
def listOfValue? (v : Value) : Option (List Parameter) := do (← v.asList?).mapM ofValue?

end Parameter

end SourceTree
