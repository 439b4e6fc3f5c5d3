import SourceTree.Script.Construct
import SourceTree.Script.Dialect
import SourceTree.Script.Lexeme

/-!
Reading constructs from the front of a script. A reading either fails or gives constructs and what
follows them; spaces in front of a token are passed over, and comments there are given as
constructs of their own.
-/

namespace SourceTree.Script

/-- A place in a script: its byte offset and what follows. -/
structure Input where
  offset : Nat
  rest : Text

def commentAt (start stop : Nat) : Construct :=
  { kind := "comment", isNamed := true, start := start, stop := stop }

/-- Where in a gap between tokens a place is. -/
inductive Gap where
  | blank
  | line (start : Nat)
  | block (start : Nat)

/-- The comments in the gap that starts at a place, each with the place behind it, and the end of
the gap. -/
def gapFrom : Gap → Nat → Text → List (Construct × Input) × Input
  | .blank, offset, [] => ([], ⟨offset, []⟩)
  | .line start, offset, [] => ([(commentAt start offset, ⟨offset, []⟩)], ⟨offset, []⟩)
  | .block start, offset, [] => ([(commentAt start offset, ⟨offset, []⟩)], ⟨offset, []⟩)
  | .blank, offset, '/' :: '/' :: cs => gapFrom (.line offset) (offset + 2) cs
  | .blank, offset, '/' :: '*' :: cs => gapFrom (.block offset) (offset + 2) cs
  | .blank, offset, c :: cs =>
    if isSpace c then gapFrom .blank (offset + c.utf8Size) cs else ([], ⟨offset, c :: cs⟩)
  | .line start, offset, c :: cs =>
    if endsLine c then
      let (more, stop) := gapFrom .blank (offset + c.utf8Size) cs
      ((commentAt start offset, ⟨offset, c :: cs⟩) :: more, stop)
    else gapFrom (.line start) (offset + c.utf8Size) cs
  | .block start, offset, '*' :: '/' :: cs =>
    let (more, stop) := gapFrom .blank (offset + 2) cs
    ((commentAt start (offset + 2), ⟨offset + 2, cs⟩) :: more, stop)
  | .block start, offset, c :: cs => gapFrom (.block start) (offset + c.utf8Size) cs

namespace Input

def gap (i : Input) : List (Construct × Input) × Input := gapFrom .blank i.offset i.rest

def ahead (i : Input) : Text := i.gap.2.rest

/-- Whether a line ends before anything else follows. -/
def atLineEnd (i : Input) : Bool :=
  match i.rest.dropWhile fun c => isSpace c && !endsLine c with
  | [] => true
  | '/' :: '/' :: _ => true
  | c :: _ => endsLine c

end Input

abbrev Reading := ReaderT Dialect (StateT Input Option)

abbrev Piece := Reading (List Construct)

instance : Append Piece := ⟨fun p q => do return (← p) ++ (← q)⟩

namespace Piece

def nothing : Piece := pure []

def opt (p : Piece) : Piece := p <|> nothing

/-- The first of several readings that succeeds. -/
def firstOf : List Piece → Piece
  | [] => failure
  | p :: ps => p <|> firstOf ps

/-- At most so many rounds of a reading; a round that reads nothing is not taken. -/
def rounds (p : Piece) : Nat → Piece
  | 0 => nothing
  | n + 1 => opt do
    let before ← get
    let first ← p
    if (← get).offset ≤ before.offset then failure
    return first ++ (← rounds p n)

/-- As many rounds of a reading as possible. -/
def many (p : Piece) : Piece := do rounds p (← get).rest.length

/-- One or more of a reading with separators between them. -/
def sepBy1 (p separator : Piece) : Piece := p ++ many (separator ++ p)

def node (kind : String) (p : Piece) : Piece := do return Construct.wrap kind (← p)

def role (name : String) (p : Piece) : Piece := do return Construct.mark name (← p)

/-- A reading that is possible only in typed dialects. -/
def typed (p : Piece) : Piece := do if (← read).isTyped then p else failure

/-- A reading that is possible only if what follows satisfies a condition. -/
def provided (condition : Text → Bool) (p : Piece) : Piece := do
  if condition (← get).ahead then p else failure

/-- A reading that is possible only on the same line. -/
def onLine (p : Piece) : Piece := do if (← get).atLineEnd then failure else p

/-- One token; comments in front of it come along. -/
def lexeme (kind : String) (isNamed : Bool) (cut : Text → Option Cut) : Piece := do
  let (comments, i) := (← get).gap
  match cut i.rest with
  | none => failure
  | some (taken, rest) =>
    let stop := i.offset + Text.size taken
    set (Input.mk stop rest)
    return comments.map Prod.fst ++
      [{ kind := kind, isNamed := isNamed, start := i.offset, stop := stop }]

/-- Text up to where `cut` ends, spaces included; it must not be empty. -/
def raw (kind : String) (cut : Text → Cut) : Piece := do
  let i ← get
  let (taken, rest) := cut i.rest
  if taken.isEmpty then failure
  let stop := i.offset + Text.size taken
  set (Input.mk stop rest)
  return [{ kind := kind, isNamed := true, start := i.offset, stop := stop }]

/-- A punctuator, if no longer one stands there. -/
def punct (mark : String) : Piece :=
  lexeme mark false fun cs =>
    if punctuator? cs == some mark then some (mark.toList, cs.drop mark.length) else none

/-- A mark, even at the front of a longer punctuator. -/
def sign (mark : String) : Piece :=
  lexeme mark false fun cs => (Text.after? cs mark.toList).map fun rest => (mark.toList, rest)

def nameWhere (kind : String) (isNamed : Bool) (condition : String → Bool) : Piece :=
  lexeme kind isNamed fun cs => (name? cs).filter fun cut => condition (String.ofList cut.1)

/-- A fixed word. -/
def word (w : String) : Piece := nameWhere w false (· == w)

/-- A name that is no reserved word. -/
def identifier : Piece := nameWhere "identifier" true fun w => !reserved.contains w

/-- Any name, also a reserved word. -/
def anyName (kind : String) : Piece := nameWhere kind true fun _ => true

def quotedText : Piece := lexeme "string" true quoted?

def number : Piece := lexeme "number" true number?

def privateName : Piece := lexeme "private_property_identifier" true privateName?

/-- Items up to a closing bracket, with commas between them. -/
def items (p : Piece) : Piece := many (p <|> punct ",")

def bracketed (opening : String) (p : Piece) (closing : String) : Piece :=
  punct opening ++ items p ++ punct closing

end Piece

end SourceTree.Script
