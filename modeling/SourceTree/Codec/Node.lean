import SourceTree.Node.Basic

/-!
The written form of locations and nodes. Parent links are not written; reading gives nodes
without links.
-/

namespace SourceTree

namespace Location

def toValue (l : Location) : Value :=
  .object [("startLine", .nat l.startLine.toNat), ("startColumn", .nat l.startColumn.toNat),
    ("endLine", .nat l.endLine.toNat), ("endColumn", .nat l.endColumn.toNat),
    ("startIndex", .nat l.startIndex), ("endIndex", .nat l.endIndex)]

def ofValue? (v : Value) : Option Location := do
  let fields ← v.record? ["startLine", "startColumn", "endLine", "endColumn", "startIndex",
    "endIndex"]
  let startLine ← Value.required? fields "startLine" Value.asUInt32?
  let startColumn ← Value.required? fields "startColumn" Value.asUInt32?
  let endLine ← Value.required? fields "endLine" Value.asUInt32?
  let endColumn ← Value.required? fields "endColumn" Value.asUInt32?
  let startIndex ← Value.required? fields "startIndex" Value.asNat64?
  let endIndex ← Value.required? fields "endIndex" Value.asNat64?
  return ⟨startLine, startColumn, endLine, endColumn, startIndex, endIndex⟩

end Location

namespace NodeKind

def ofValue? (v : Value) : Option NodeKind := v.asString?.bind ofLabel?

end NodeKind

namespace Node

mutual

/-- A node as an object; a missing name or text and empty metadata are left out. -/
def toValue : Node → Value
  | ⟨id, kind, name, location, children, _, text, metadata⟩ =>
    .object <|
      [("id", .nat id), ("type", .string kind.label)] ++
      Value.field? "name" .string name ++
      [("location", location.toValue), ("children", .list (toValues children))] ++
      Value.field? "text" .string text ++
      (if metadata.isEmpty then [] else [("metadata", .object metadata)])

def toValues : List Node → List Value
  | [] => []
  | n :: ns => toValue n :: toValues ns

end

/-- The names under which the parts of a node are written, in order. -/
def fieldNames : List String := ["id", "type", "name", "location", "children", "text", "metadata"]

/-- Metadata has to be an object. -/
def metadataOfValue? : Value → Option Metadata
  | .object fields => some (Metadata.ofList fields)
  | _ => none

mutual

/-- Reads a node. Unknown fields are ignored. -/
def ofValue? : Value → Option Node
  | .object fields => do
    let children ← ofChildrenField? fields
    ofFields? fields children
  | .list items => do
    let children ← ofChildrenItem? 4 items
    if items.length ≤ fieldNames.length then ofFields? (fieldNames.zip items) children else none
  | _ => none
where
  /-- Reads a node whose children are known already. -/
  ofFields? (fields : List (String × Value)) (children : List Node) : Option Node := do
    let id ← Value.required? fields "id" Value.asNat32?
    let kind ← Value.required? fields "type" NodeKind.ofValue?
    let name ← Value.optional? fields "name" Value.asString?
    let location ← Value.required? fields "location" Location.ofValue?
    let text ← Value.optional? fields "text" Value.asString?
    let metadata ← Value.defaulted? fields "metadata" metadataOfValue? []
    return ⟨id, kind, name, location, children, none, text, metadata⟩

/-- Reads the first field named `children`; without it there are none. -/
def ofChildrenField? : List (String × Value) → Option (List Node)
  | [] => some []
  | (key, v) :: rest => if key = "children" then ofList? v else ofChildrenField? rest

/-- Reads the children that stand at a place of a list; without it there are none. -/
def ofChildrenItem? : Nat → List Value → Option (List Node)
  | _, [] => some []
  | 0, v :: _ => ofList? v
  | n + 1, _ :: rest => ofChildrenItem? n rest

def ofList? : Value → Option (List Node)
  | .list items => ofValues? items
  | _ => none

def ofValues? : List Value → Option (List Node)
  | [] => some []
  | v :: vs => do return (← ofValue? v) :: (← ofValues? vs)

end

end Node

end SourceTree
