import SourceTree.Node.Basic
import SourceTree.Parameter

/-!
Symbols: the named declarations of a tree in the order of the source. Which nodes count and who
owns them differs by language and is given by `SymbolRules`; the walk is the same for all.
-/

namespace SourceTree

/-- A declaration, flattened out of its tree. -/
structure SymbolInfo where
  name : String
  kind : NodeKind
  location : Location
  visibility : Visibility
  exported : Bool
  isAsync : Bool
  isStatic : Bool
  isAbstract : Bool
  parameters : List Parameter
  returnType : Option String
  parentName : Option String
  deriving DecidableEq, Repr

namespace SymbolInfo

/-- Reads a symbol off a named node. Without a stated visibility an exported node is public and any
other private. -/
def ofNode? (n : Node) (parentName : Option String) : Option SymbolInfo := do
  let name ← n.name
  let exported := n.flag "exported"
  let visibility := ((n.note? "visibility").bind Visibility.ofLabel?).getD
    (if exported then .pub else .priv)
  let parameters := ((n.metadata.get? "parameters").bind Parameter.listOfValue?).getD []
  return {
    name := name
    kind := n.kind
    location := n.location
    visibility := visibility
    exported := exported
    isAsync := n.flag "async"
    isStatic := n.flag "static"
    isAbstract := n.flag "abstract"
    parameters := parameters
    returnType := n.note? "returnType"
    parentName := parentName }

end SymbolInfo

/-- What a language counts as a symbol. -/
structure SymbolRules where
  /-- Whether a node counts, given whether it lies inside a callable. -/
  counts : Bool → Node → Bool
  /-- The tags whose nodes own what is declared inside them. -/
  owns : NodeKind → Bool
  statedOwner? : Node → Option String := fun _ => none

namespace NodeKind

/-- The tags of things that can be called. -/
def isCallable : NodeKind → Bool
  | function | arrowFunction | method => true
  | _ => false

end NodeKind

namespace Node

mutual

/-- The symbols of a tree that lies inside `owner`. -/
def symbolsFrom (rules : SymbolRules) (owner : Option String) (inCallable : Bool) :
    Node → List SymbolInfo
  | n@⟨_, kind, name, _, children, _, _, _⟩ =>
    let own :=
      if rules.counts inCallable n then
        (SymbolInfo.ofNode? n ((rules.statedOwner? n).or owner)).toList
      else []
    own ++ symbolsAll rules (if rules.owns kind then name else owner)
      (inCallable || kind.isCallable) children

def symbolsAll (rules : SymbolRules) (owner : Option String) (inCallable : Bool) :
    List Node → List SymbolInfo
  | [] => []
  | n :: ns => symbolsFrom rules owner inCallable n ++ symbolsAll rules owner inCallable ns

end

/-- The symbols of a tree, each before those inside it. -/
def symbols (rules : SymbolRules) (root : Node) : List SymbolInfo :=
  root.symbolsFrom rules none false

end Node

end SourceTree
