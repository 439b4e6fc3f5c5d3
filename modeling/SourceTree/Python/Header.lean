import SourceTree.Builder
import SourceTree.Python.Name
import SourceTree.Python.Parameters
import SourceTree.Python.Pattern
import SourceTree.Scan.Bracket

/-!
What the header of a Python class or function says about it. A header is given as its text and its
mask.
-/

namespace SourceTree.Python

open Pattern

/-- Where a statement stands. -/
inductive Scope where
  | moduleBody | classBody | functionBody
  deriving DecidableEq, Repr

/-- A header line: its text and the mask of it. -/
structure Header where
  text : Text
  masked : Text

namespace Header

def codeFrom (h : Header) (pos : Nat) : Attempt Text := Attempt.need (Text.drop? h.masked pos)

/-- The first offset from `pos` on that is not blank. -/
def skipBlanks (h : Header) (pos : Nat) : Attempt Nat := do
  return pos + Text.blankSize (← h.codeFrom pos)

/-- Whether a character stands at an offset. -/
def hasAt (h : Header) (pos : Nat) (c : Char) : Attempt Bool := do
  return (← h.codeFrom pos).head? == some c

def cut (h : Header) (start stop : Nat) : Attempt Text := Attempt.need (Text.slice? h.text start stop)

/-- The offset of the bracket that closes the one at `pos`; the header is no header without it. -/
def closing (h : Header) (pos : Nat) (opener closer : Char) : Attempt Nat :=
  Attempt.expect (Scan.findMatching? h.masked pos opener closer)

/-- Notes type parameters that stand at `pos`, and gives the offset from which to go on. -/
def typeParameters (h : Header) (pos : Nat) (d : Draft) : Attempt (Nat × Draft) := do
  let pos ← h.skipBlanks pos
  if ← h.hasAt pos '[' then
    let close ← h.closing pos '[' ']'
    let text ← h.cut pos (close + 1)
    return (← h.skipBlanks (close + 1), d.noteText "typeParameters" text)
  else return (pos, d)

end Header

/-- The bases that a class names, and whether one of them or its metaclass makes it abstract. -/
structure Bases where
  names : List Text := []
  isAbstract : Bool := false

namespace Bases

/-- Takes in one argument of a class header. -/
def add (b : Bases) (arg : Text) : Bases :=
  match Text.splitFirst? (· == '=') arg with
  | some (key, value) =>
    if Text.trim key = "metaclass".toList then
      { b with isAbstract := b.isAbstract || Text.endsWith (Text.trim value) "ABCMeta".toList }
    else b
  | none =>
    { names := b.names ++ [arg]
      isAbstract := b.isAbstract || arg == "ABC".toList || Text.endsWith arg ".ABC".toList }

end Bases

/-- Whether a decorator of this kind is among the decorators. -/
def hasAbstractDecorator (decorators : List Text) : Bool :=
  decorators.any fun d => Text.endsWith (decoratorName d) "abstractmethod".toList

def classDraft (h : Header) (decorators : List Text) : Attempt Draft := do
  let m ← Attempt.expect (classHeader.matchFront? h.masked)
  let (pos, d) ← h.typeParameters m.stop (Draft.named (m.groupText 1))
  let bases ← if ← h.hasAt pos '(' then do
      let close ← h.closing pos '(' ')'
      let list ← Attempt.need (Text.slice? h.masked (pos + 1) close)
      let args ← (Scan.splitTopLevel list ',' false).mapM fun piece =>
        h.cut (pos + 1 + piece.start) (pos + 1 + piece.stop)
      pure (args.foldl Bases.add {})
    else pure {}
  return (d.noteTexts "bases" bases.names).noteIf
    (bases.isAbstract || hasAbstractDecorator decorators) "abstract"

/-- The return type between the arrow and the colon, if the text begins with an arrow. -/
def returnType (h : Header) (pos : Nat) : Attempt (Option Text) := do
  let rest := Text.trimStart (← h.codeFrom pos)
  match Text.after? rest ['-', '>'] with
  | none => return none
  | some code =>
    let offset := Text.size h.masked - Text.size code
    let colon := (Text.find? (· == ':') code).getD (Text.size code)
    let type := Text.trim (← h.cut offset (offset + colon))
    return if type.isEmpty then none else some type

/-- What a function header says. -/
def defDraft (h : Header) (decorators : List Text) (scope : Scope) : Attempt Draft := do
  let m ← Attempt.expect (defHeader.matchFront? h.masked)
  let name := m.groupText 2
  let start := (Draft.named name).note "async" (.bool (m.group? 1).isSome)
  let (pos, d) ← h.typeParameters m.stop start
  Attempt.check (← h.hasAt pos '(')
  let close ← h.closing pos '(' ')'
  let list ← h.cut (pos + 1) close
  let maskedList ← Attempt.need (Text.slice? h.masked (pos + 1) close)
  let parameters ← Attempt.need (parameters? list maskedList)
  let d := d.note "parameters" (Parameter.listValue parameters)
  let d := d.noteText? "returnType" (← returnType h (close + 1))
  let names := decorators.map decoratorName
  let isStatic := names.any fun n => n == "staticmethod".toList || n == "classmethod".toList
  return ((d.noteIf isStatic "static").noteIf (hasAbstractDecorator decorators) "abstract").noteIf
    (scope == .classBody && name == "__init__".toList) "constructor"

end SourceTree.Python
