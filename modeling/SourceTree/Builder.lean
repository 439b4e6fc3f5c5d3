import SourceTree.LineIndex
import SourceTree.Node.Basic
import SourceTree.ParsedFile

/-!
Building a tree from the leaves up. The builder hands out ids in ascending order, so a node's id is
greater than those of its children, and an id once handed out is never used again, even if the node
is thrown away.
-/

namespace SourceTree

/-- The parts of a node that are not its id, tag and place. -/
structure Draft where
  name : Option String := none
  text : Option String := none
  metadata : Metadata := []
  children : List Node := []

namespace Draft

def named (name : Text) : Draft := { name := some (String.ofList name) }

/-- Adds a piece of metadata. -/
def note (d : Draft) (key : String) (v : Value) : Draft :=
  { d with metadata := d.metadata.insert key v }

/-- Adds a piece of metadata that is text. -/
def noteText (d : Draft) (key : String) (t : Text) : Draft := d.note key (.string (String.ofList t))

/-- Adds a piece of metadata that is text if there is one. -/
def noteText? (d : Draft) (key : String) : Option Text → Draft
  | some t => d.noteText key t
  | none => d

/-- Adds a flag if the condition holds. -/
def noteIf (d : Draft) (condition : Bool) (key : String) : Draft :=
  if condition then d.note key (.bool true) else d

/-- Adds a list of texts unless it is empty. -/
def noteTexts (d : Draft) (key : String) (ts : List Text) : Draft :=
  if ts.isEmpty then d else d.note key (.strings (ts.map String.ofList))

def withChildren (d : Draft) (children : List Node) : Draft := { d with children := children }

end Draft

/-- A source under construction: how many ids have been handed out and what has been found odd. -/
structure Builder where
  source : Text
  lines : LineIndex
  issued : Nat := 0
  diagnostics : List Diagnostic := []

namespace Builder

def ofSource (source : Text) : Builder := { source := source, lines := LineIndex.ofText source }

def location (b : Builder) (start stop : Nat) : Location := b.lines.location start stop

def nextId (b : Builder) : NodeId × Builder := (b.issued + 1, { b with issued := b.issued + 1 })

/-- Makes a node with a fresh id and adopts its children. -/
def create (b : Builder) (kind : NodeKind) (location : Location) (d : Draft) : Node × Builder :=
  let (id, b) := b.nextId
  (⟨id, kind, d.name, location, d.children.map (·.adoptedBy id), none, d.text, d.metadata⟩, b)

/-- Makes a node that covers a piece of the source and has that piece as its text. -/
def span? (b : Builder) (kind : NodeKind) (start stop : Nat) (d : Draft) :
    Option (Node × Builder) := do
  let text ← Text.slice? b.source start stop
  return b.create kind (b.location start stop) { d with text := some (String.ofList text) }

/-- Makes the root, which covers the whole source. -/
def root? (b : Builder) (kind : NodeKind) (children : List Node) : Option (Node × Builder) :=
  b.span? kind 0 (Text.size b.source) { children := children }

/-- Records something odd about a piece of the source. -/
def report (b : Builder) (message : String) (severity : Severity) (start stop : Nat) : Builder :=
  { b with diagnostics := b.diagnostics ++ [⟨message, b.location start stop, severity⟩] }

def warn (b : Builder) (message : String) (start stop : Nat) : Builder :=
  b.report message .warning start stop

/-- The recorded diagnostics; the builder forgets them. -/
def takeDiagnostics (b : Builder) : List Diagnostic × Builder :=
  (b.diagnostics, { b with diagnostics := [] })

end Builder

/-- What can be odd about a construct. -/
inductive Oddity where
  | unclosedComponents (name : Text)
  | unclosedParameters (name : Text)
  | unclosedBody (name : Text)
  | unclosedGroup (keyword : Text)
  | unexpected
  | missing (construct : Text)
  deriving DecidableEq, Repr

namespace Oddity

/-- A word between backticks. -/
def ticked (word : Text) : String := "\x60" ++ String.ofList word ++ "\x60"

def message : Oddity → String
  | unclosedComponents name => "unclosed component list of record " ++ ticked name
  | unclosedParameters name => "unclosed parameter list of " ++ ticked name
  | unclosedBody name => "unclosed body of " ++ ticked name
  | unclosedGroup keyword => "unclosed " ++ ticked keyword ++ " group"
  | unexpected => "Unexpected syntax"
  | missing construct => "Missing " ++ ticked construct

/-- What cannot be read is an error; what is only left open is not. -/
def severity : Oddity → Severity
  | unexpected => .error
  | _ => .warning

end Oddity

/-- A step of building a tree. It fails as a whole if a piece of the source is asked for that does
not lie between two characters of it. -/
abbrev Build := StateT Builder Option

namespace Build

/-- Uses an answer that may be missing because of a misplaced offset. -/
def need (a : Option α) : Build α := StateT.lift a

def span (kind : NodeKind) (start stop : Nat) (d : Draft) : Build Node := fun b =>
  b.span? kind start stop d

def create (kind : NodeKind) (location : Location) (d : Draft) : Build Node := fun b =>
  some (b.create kind location d)

def root (kind : NodeKind) (children : List Node) : Build Node := fun b => b.root? kind children

def warn (oddity : Oddity) (start stop : Nat) : Build Unit := fun b =>
  some ((), b.report oddity.message oddity.severity start stop)

def file? (path : String) (language : Language) (source : Text) (tree : Build Node) :
    Option ParsedFile := do
  let (root, b) ← tree.run (Builder.ofSource source)
  return ⟨path, language, root, String.ofList source, b.diagnostics⟩

end Build

/-- The building of a construct that may turn out not to be there. Abandoning it keeps the ids that
were handed out meanwhile. -/
abbrev Attempt := OptionT Build

namespace Attempt

/-- Abandons the construct if the answer is missing. -/
def expect (a : Option α) : Attempt α := OptionT.mk (pure a)

/-- Abandons the construct unless the condition holds. -/
def check (condition : Bool) : Attempt Unit := expect (if condition then some () else none)

/-- Uses an answer that may be missing because of a misplaced offset. -/
def need (a : Option α) : Attempt α := OptionT.lift (Build.need a)

def span (kind : NodeKind) (start stop : Nat) (d : Draft) : Attempt Node :=
  OptionT.lift (Build.span kind start stop d)

def warn (oddity : Oddity) (start stop : Nat) : Attempt Unit :=
  OptionT.lift (Build.warn oddity start stop)

/-- The first of several constructs that is there. -/
def firstOf : List (Attempt α) → Attempt α
  | [] => expect none
  | a :: as => OptionT.mk do
    match ← a.run with
    | some r => return some r
    | none => (firstOf as).run

end Attempt

end SourceTree
