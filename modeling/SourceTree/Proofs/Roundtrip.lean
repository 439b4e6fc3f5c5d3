import SourceTree.Proofs.Codec
import SourceTree.Proofs.Fidelity
import SourceTree.Proofs.Script.Growth

/-!
The round trip of a parsed file through its written form. It keeps everything but the parent links,
and sets these to what the shape of the tree says. The trees that are built from sources, of whatever
language, have such links from the start, so they come back as they were. Main statement:
`round_trip`.
-/

namespace SourceTree

variable {source : Text} {path : String} {file : ParsedFile}

namespace Language

/-- How the tree of a source is built; the path tells dialects apart. -/
def build (reader : Script.ConcreteReader) (l : Language) (path : String) (source : Text) :
    Build Node :=
  match l with
  | typescript | javascript => Script.tree (reader (.ofPath l path) source) source
  | python => Python.tree source
  | java => Java.tree source
  | go => Go.tree source

variable {reader : Script.ConcreteReader}

theorem parseWith?_eq_build (l : Language) (source : Text) (path : String) :
    l.parseWith? reader source path = Build.file? path l source (l.build reader path source) := by
  cases l <;> rfl

theorem build_grows (l : Language) (path : String) (source : Text) :
    Build.Grows source 0 (l.build reader path source) fun j n =>
      Grown source 0 j [n] ∧ n.id = j ∧ n.parent = none := by
  cases l with
  | typescript => exact Script.tree_grows _ source
  | javascript => exact Script.tree_grows _ source
  | python => exact Python.tree_grows source
  | java => exact Java.tree_grows source
  | go => exact Go.tree_grows source

/-- The tree of a source, of whatever language, is linked, and what it says of its nodes are
tables. -/
theorem linked_of_parseWith? {l : Language}
    (parsed : l.parseWith? reader source path = some file) :
    file.root.Linked ∧ file.Ordered := by
  rw [parseWith?_eq_build] at parsed
  obtain ⟨b, -, grown, -, orphan⟩ := (l.build_grows path source).of_file? parsed
  constructor
  · intro v hv
    cases grown with
    | cons below _ _ linked _ _ =>
      rw [Node.visits, Node.walk, Node.walkFrom_all, List.mem_cons] at hv
      cases hv with
      | inl here => rw [here, orphan, Option.map_none]
      | inr there => exact (below.visits linked 1 v there).2
  · intro n hn
    have listed : n ∈ Node.postOrderAll [file.root] :=
      Node.mem_postOrderAll.mpr ⟨file.root, List.mem_singleton.mpr rfl, hn⟩
    exact (grown.each n listed).2

end Language

namespace ParsedFile

/-- A file comes back with all that was in it, except for the parent links: that of the root is gone
and every other node is linked to the node that holds it. So a file whose links are right already
comes back as it was, and so does every file that was read from a source, whatever constructs a reader
gives for a script. -/
theorem round_trip :
    (∀ f : ParsedFile, f.Fits → f.Ordered →
      ofValue? f.toValue = some { f with root := f.root.detached } ∧
        f.root.detached.unlinked = f.root.unlinked ∧ f.root.detached.Linked ∧
        (f.root.Linked → ofValue? f.toValue = some f)) ∧
    ∀ (reader : Script.ConcreteReader) (l : Language) (source : Text) (path : String)
      (f : ParsedFile), l.parseWith? reader source path = some f → f.Fits →
        ofValue? f.toValue = some f := by
  have whole (f : ParsedFile) (fits : f.Fits) (ordered : f.Ordered) (linked : f.root.Linked) :
      ofValue? f.toValue = some f := by
    rw [ofValue?_toValue fits ordered, linked.detached_eq]
  constructor
  · intro f fits ordered
    exact ⟨ofValue?_toValue fits ordered, f.root.unlinked_detached, f.root.linked_detached,
      whole f fits ordered⟩
  · intro reader l source path f parsed fits
    obtain ⟨linked, ordered⟩ := Language.linked_of_parseWith? parsed
    exact whole f fits ordered linked

/-- The constructs of the script `f()`. -/
def callScript : Script.Construct :=
  let name : Script.Construct :=
    { kind := "identifier", isNamed := true, role := some "function", start := 0, stop := 1 }
  let opener : Script.Construct := { kind := "(", isNamed := false, start := 1, stop := 2 }
  let closer : Script.Construct := { kind := ")", isNamed := false, start := 2, stop := 3 }
  let arguments : Script.Construct :=
    { kind := "arguments", isNamed := true, role := some "arguments", start := 1, stop := 3,
      parts := [opener, closer] }
  let call : Script.Construct :=
    { kind := "call_expression", isNamed := true, start := 0, stop := 3, parts := [name, arguments] }
  let statement : Script.Construct :=
    { kind := "expression_statement", isNamed := true, start := 0, stop := 3, parts := [call] }
  { kind := "program", isNamed := true, start := 0, stop := 3, parts := [statement] }

/-- A class that is linked nowhere below a root that is linked to a node outside; and a script that
was read. -/
theorem round_trip_strayed :
    let child : Node := { id := 4, kind := .classDecl, location := .zero, text := some "" }
    let root : Node :=
      { id := 1, kind := .program, location := .zero, children := [child], parent := some 9,
        metadata := [("a", .null), ("b", .list [])] }
    let f : ParsedFile := ⟨"a.ts", .typescript, root, "", []⟩
    f.Fits ∧ f.Ordered ∧
      ofValue? f.toValue =
        some { f with root := { root with children := [child.adoptedBy 1], parent := none } } ∧
      ∃ g, Language.parseWith? (fun _ _ => some callScript) .typescript "f()".toList "a.ts" = some g ∧
        g.root.nodes.map (fun n => (n.kind, n.name)) =
          [(.program, none), (.statement, none), (.callExpression, some "f")] ∧
        g.Fits ∧ ofValue? g.toValue = some g := by
  intro child root f
  have fits : f.Fits := by decide
  have ordered : f.Ordered := by
    have keys : root.metadata.Ascending := List.pairwise_pair.mpr (by decide)
    intro n hn
    have all : f.root.nodes = [root, child] := rfl
    have listed : n = root ∨ n = child := by simpa [all] using hn
    cases listed with
    | inl here => exact here ▸ keys
    | inr below => exact below ▸ Metadata.ascending_nil
  have check : (Language.parseWith? (fun _ _ => some callScript) .typescript "f()".toList "a.ts").map
      (fun g => (g.root.nodes.map (fun n => (n.kind, n.name)), decide g.Fits)) =
      some ([(.program, none), (.statement, none), (.callExpression, some "f")], true) := by
    decide +kernel
  obtain ⟨g, parsed, same⟩ := Option.map_eq_some_iff.mp check
  obtain ⟨nodes, fitting⟩ := Prod.mk.inj same
  have fitting : g.Fits := of_decide_eq_true fitting
  exact ⟨fits, ordered, (round_trip.1 f fits ordered).1, g, parsed, nodes, fitting,
    round_trip.2 _ .typescript _ _ g parsed fitting⟩

end ParsedFile

end SourceTree
