import SourceTree.Proofs.Draft
import SourceTree.Proofs.Growth
import SourceTree.Proofs.Python.Definition

/-!
How the tree of a Python source grows. A definition grows on its decorators and on the statements of
its body; it can still be abandoned when these are built, and then their ids are lost.
-/

namespace SourceTree.Python

open Scan (LogicalLine)
open Attempt (Sprouts)

variable {source : Text} {i : Nat} {cx : Context} {scope : Scope} {line : LogicalLine}

namespace Header

variable (h : Header)

theorem codeFrom_quiet (pos : Nat) : Attempt.Quiet (h.codeFrom pos) fun _ => True :=
  (Attempt.Keeps.need _).mono fun _ _ => trivial

theorem skipBlanks_quiet (pos : Nat) : Attempt.Quiet (h.skipBlanks pos) fun _ => True :=
  Attempt.Keeps.bind (h.codeFrom_quiet pos) fun _ _ => Attempt.Keeps.pure trivial

theorem hasAt_quiet (pos : Nat) (c : Char) : Attempt.Quiet (h.hasAt pos c) fun _ => True :=
  Attempt.Keeps.bind (h.codeFrom_quiet pos) fun _ _ => Attempt.Keeps.pure trivial

theorem typeParameters_quiet (pos : Nat) (d : Draft) :
    Attempt.Quiet (h.typeParameters pos d) fun r =>
      r.2.name = d.name ∧ (d.Ordered → r.2.Ordered) := by
  refine Attempt.Keeps.bind (h.skipBlanks_quiet pos) fun pos _ => ?_
  refine Attempt.Keeps.bind (h.hasAt_quiet pos '[') fun opens _ => ?_
  split
  next =>
    refine Attempt.Keeps.bind (Attempt.Keeps.expect _) fun close _ => ?_
    refine Attempt.Keeps.bind (Attempt.Keeps.need _) fun text _ => ?_
    refine Attempt.Keeps.bind (h.skipBlanks_quiet _) fun _ _ => ?_
    exact Attempt.Keeps.pure ⟨rfl, Draft.Ordered.noteText⟩
  next => exact Attempt.Keeps.pure ⟨rfl, id⟩

end Header

/-- The draft has a name, and the keys of its metadata ascend. -/
structure Named (d : Draft) : Prop where
  name : ∃ name, d.name = some (String.ofList name)
  ordered : d.Ordered

theorem Named.notes {d e : Draft} {key : String} (h : Named d) (notes : d.Notes key e) : Named e := by
  obtain ⟨name, hname⟩ := h.name
  exact ⟨⟨name, notes.name.trans hname⟩, notes.ordered h.ordered⟩

theorem classDraft_quiet (h : Header) (decorators : List Text) :
    Attempt.Quiet (classDraft h decorators) Named := by
  refine Attempt.Keeps.bind (Attempt.Keeps.expect _) fun m _ => ?_
  refine Attempt.Keeps.bind (h.typeParameters_quiet _ _) fun ⟨pos, d⟩ ⟨same, kept⟩ => ?_
  have start : Named d := ⟨⟨m.groupText 1, same⟩, kept (Draft.ordered_named _)⟩
  have named (bases : Bases) : Named ((d.noteTexts "bases" bases.names).noteIf
      (bases.isAbstract || hasAbstractDecorator decorators) "abstract") :=
    (start.notes (.noteTexts _ _ _)).notes (.noteIf _ _ _)
  refine Attempt.Keeps.bind (h.hasAt_quiet pos '(') fun opens _ => ?_
  dsimp only
  split
  next =>
    refine Attempt.Keeps.bind (Attempt.Keeps.expect _) fun close _ => ?_
    refine Attempt.Keeps.bind (Attempt.Keeps.need _) fun list _ => ?_
    refine Attempt.Keeps.bind (Attempt.Keeps.mapM fun piece => ?_) fun args _ => ?_
    · exact (Attempt.Keeps.need _).mono fun _ _ => trivial
    · exact Attempt.Keeps.pure (named _)
  next => exact Attempt.Keeps.pure (named _)

theorem returnType_quiet (h : Header) (pos : Nat) :
    Attempt.Quiet (returnType h pos) fun _ => True := by
  refine Attempt.Keeps.bind (h.codeFrom_quiet pos) fun code _ => ?_
  dsimp only
  split
  next => exact Attempt.Keeps.pure trivial
  next => exact Attempt.Keeps.bind (Attempt.Keeps.need _) fun _ _ => Attempt.Keeps.pure trivial

theorem defDraft_quiet (h : Header) (decorators : List Text) (scope : Scope) :
    Attempt.Quiet (defDraft h decorators scope) Named := by
  refine Attempt.Keeps.bind (Attempt.Keeps.expect _) fun m _ => ?_
  refine Attempt.Keeps.bind (h.typeParameters_quiet _ _) fun ⟨pos, d⟩ ⟨same, kept⟩ => ?_
  have start : Named d := ⟨⟨m.groupText 2, same⟩, kept (Draft.ordered_named _).note⟩
  refine Attempt.Keeps.bind (h.hasAt_quiet pos '(') fun opens _ => ?_
  refine Attempt.Keeps.bind (Attempt.Keeps.check _) fun _ _ => ?_
  refine Attempt.Keeps.bind (Attempt.Keeps.expect _) fun close _ => ?_
  refine Attempt.Keeps.bind (Attempt.Keeps.need _) fun list _ => ?_
  refine Attempt.Keeps.bind (Attempt.Keeps.need _) fun maskedList _ => ?_
  refine Attempt.Keeps.bind (Attempt.Keeps.need _) fun parameters _ => ?_
  refine Attempt.Keeps.bind (returnType_quiet h _) fun type _ => ?_
  have noted := (start.notes (.note "parameters" _ (Parameter.listValue parameters))).notes
    (.noteText? "returnType" _ type)
  exact Attempt.Keeps.pure (((noted.notes (.noteIf _ _ _)).notes (.noteIf _ _ _)).notes
    (.noteIf _ _ _))

/-! ### What nodes are made of -/

/-- The tags of nodes that have a block. -/
def definitionKinds : List NodeKind := [.classDecl, .function, .method]

/-- The tags of statements that have none. -/
def statementKinds : List NodeKind := [.importDecl, .variableDecl, .property]

/-- A draft for a leaf that begins with the first character of a line that is not blank and ends no
later than the line. -/
structure Fits (line : LogicalLine) (start stop : Nat) (d : Draft) : Prop where
  leaf : d.children = []
  ordered : d.Ordered
  start_eq : start = line.contentStart
  stop_le : stop ≤ line.stop

/-- In a module, all but imports have a name and note whether it is offered to others. -/
def Flagged (cx : Context) (scope : Scope) (kind : NodeKind) (d : Draft) : Prop :=
  scope = .moduleBody → kind ≠ .importDecl → ∃ name, d.name = some (String.ofList name) ∧
    d.metadata.get? "exported" = some (.bool (cx.isExported name))

theorem statement_quiet (cx : Context) (line : LogicalLine) :
    Build.Quiet (cx.statement line) fun r => r.1 = line.contentStart ∧ r.2 ≤ line.stop := by
  refine Build.Keeps.bind (Build.Keeps.need _) fun code found => Build.Keeps.pure ⟨rfl, ?_⟩
  obtain ⟨front, back, -, -, size⟩ := Text.slice?_eq_some_iff.mp found
  obtain ⟨tail, split, -⟩ := Text.trimEnd_split code
  have whole := congrArg Text.size split
  rw [Text.size_append] at whole
  dsimp only
  omega

section

variable {post : Nat → Node → Prop}

theorem importNode_made
    (made : ∀ {kind start stop d}, kind ∈ statementKinds → Fits line start stop d →
      Flagged cx .moduleBody kind d →
      Attempt.Grows source i (Attempt.span kind start stop d) post) :
    Attempt.Grows source i (importNode cx line) post := by
  refine Attempt.Grows.after (Attempt.Keeps.lift (Build.Keeps.need _)) fun code _ => ?_
  refine Attempt.Grows.after (Attempt.Keeps.expect _) fun name _ => ?_
  refine Attempt.Grows.after (Attempt.Keeps.lift (statement_quiet cx line)) ?_
  rintro ⟨start, stop⟩ ⟨hs, ht⟩
  exact made (by decide) ⟨rfl, (Draft.ordered_named _).noteText, hs, ht⟩ fun _ other => absurd rfl other

theorem assignmentNode_made
    (made : ∀ {kind start stop d}, kind ∈ statementKinds → Fits line start stop d →
      Flagged cx scope kind d →
      Attempt.Grows source i (Attempt.span kind start stop d) post) :
    Attempt.Grows source i (assignmentNode cx line scope) post := by
  refine Attempt.Grows.after (Attempt.Keeps.lift (Build.Keeps.need _)) fun code _ => ?_
  refine Attempt.Grows.after (Attempt.Keeps.expect _) fun m _ => ?_
  refine Attempt.Grows.after (Attempt.Keeps.check _) fun _ _ => ?_
  refine Attempt.Grows.after (Attempt.Keeps.lift (statement_quiet cx line)) ?_
  rintro ⟨start, stop⟩ ⟨hs, ht⟩
  have node (d : Draft) (leaf : d.children = []) (ordered : d.Ordered)
      (named : d.name = some (String.ofList (m.groupText 1))) : Attempt.Grows source i
        (if scope == .classBody then Attempt.span .property start stop d
          else Attempt.span .variableDecl start stop
            (d.note "exported" (.bool (cx.isExported (m.groupText 1))))) post := by
    split
    next inClass =>
      refine made (by decide) ⟨leaf, ordered, hs, ht⟩ fun inModule _ => ?_
      rw [inModule] at inClass
      exact absurd inClass (by decide)
    next =>
      refine made (by decide) ⟨leaf, ordered.note, hs, ht⟩ fun _ _ => ?_
      exact ⟨m.groupText 1, named, d.get?_note _ _⟩
  dsimp only
  split
  next =>
    refine Attempt.Grows.after (Attempt.Keeps.need _) fun text _ => ?_
    rw [pure_bind]
    exact node _ rfl (Draft.ordered_named _).note.noteText rfl
  next =>
    rw [pure_bind]
    exact node _ rfl (Draft.ordered_named _).note rfl

/-- A simple statement is one leaf or none. -/
theorem simpleStatement_made
    (made : ∀ {k kind start stop d}, i ≤ k → kind ∈ statementKinds → Fits line start stop d →
      Flagged cx scope kind d → Attempt.Grows source k (Attempt.span kind start stop d) post) :
    Build.Grows source i (simpleStatement cx scope line) fun j ns =>
      ∃ found : Option Node, ns = found.toList ∧ ∀ n, found = some n → post j n := by
  unfold simpleStatement
  have listed {m : Attempt Node} (h : Attempt.Grows source i m post) :
      Build.Grows source i (do return (← m.run).toList) fun j ns =>
        ∃ found : Option Node, ns = found.toList ∧ ∀ n, found = some n → post j n :=
    Build.Grows.bind h fun _ r _ hr => Build.Grows.pure ⟨r, rfl, hr⟩
  refine listed ?_
  cases scope with
  | moduleBody =>
    refine Attempt.Grows.firstOf fun a ha k le => ?_
    simp only [List.mem_cons, List.not_mem_nil, or_false] at ha
    rcases ha with rfl | rfl
    · exact importNode_made (made le)
    · exact assignmentNode_made (made le)
  | classBody => exact assignmentNode_made (made (Nat.le_refl i))
  | functionBody => exact Attempt.Grows.abandoned

theorem decoratorNode_made
    (made : ∀ {start stop d}, Fits line start stop d →
      Build.Grows source i (Build.span .decorator start stop d) post) :
    Build.Grows source i (decoratorNode cx line) post := by
  refine Build.Grows.after (statement_quiet cx line) ?_
  rintro ⟨start, stop⟩ ⟨hs, ht⟩
  refine Build.Grows.after (Build.Keeps.need _) fun text _ => ?_
  exact made ⟨rfl, Draft.ordered_named _, hs, ht⟩

/-- The draft of a definition with all that is noted about it. -/
theorem flagged_of_named {d : Draft} (named : Named d) (kind : NodeKind) (texts : List Text)
    (children : List Node) :
    Flagged cx scope kind (((if scope == .moduleBody then
      (d.note "visibility" (.string (visibility (d.name.getD "").toList).label)).note "exported"
        (.bool (cx.isExported (d.name.getD "").toList))
      else d.note "visibility" (.string (visibility (d.name.getD "").toList).label)).noteTexts
        "decorators" texts).withChildren children) := by
  intro inModule _
  subst inModule
  obtain ⟨name, hname⟩ := named.name
  have spelt : (d.name.getD "").toList = name := by rw [hname, Option.getD_some, String.toList_ofList]
  have notes := Draft.Notes.noteTexts "decorators"
    ((d.note "visibility" (.string (visibility name).label)).note "exported"
      (.bool (cx.isExported name))) texts
  have flag := (notes.others "exported" (by decide)).trans (Draft.get?_note _ _ _)
  rw [spelt]
  exact ⟨name, notes.name.trans hname, flag⟩

theorem ordered_of_named {d : Draft} {v w : Value} {texts : List Text} {children : List Node}
    (named : Named d) :
    (((if scope == .moduleBody then (d.note "visibility" v).note "exported" w
      else d.note "visibility" v).noteTexts "decorators" texts).withChildren children).Ordered := by
  apply Draft.Ordered.withChildren
  apply Draft.Ordered.noteTexts
  split
  · exact named.ordered.note.note
  · exact named.ordered.note

/-- A definition is made of its decorators, then of the members of its body; it is made at all only
under a header. -/
theorem definition_made {decorators : List LogicalLine} {stop : Nat}
    {body : Scope → Build (List Node)} {above : Nat → List Node → Prop}
    {below : List Node → Nat → List Node → Prop}
    (hd : Attempt.Grows source i (decorators.mapM fun d => (decoratorNode cx d : Attempt Node)) above)
    (hb : ∀ {inner j ds}, above j ds → Build.Grows source j (body inner) (below ds))
    (made : ∀ {k kind d ds ms code}, below ds k ms → Context.code? cx.text line = some code →
      heads code ≠ none → kind ∈ definitionKinds → d.children = ds ++ ms → Flagged cx scope kind d →
      d.Ordered →
      Attempt.Grows source k
        (Attempt.span kind (decorators.head?.getD line).contentStart stop d) post) :
    Attempt.Grows source i (definition cx scope decorators line stop body) post := by
  refine Attempt.Grows.after (Attempt.Keeps.lift (Build.Keeps.need _)) fun code found => ?_
  refine Attempt.Grows.after (Attempt.Keeps.check _) fun _ checked => ?_
  have head : heads code ≠ none := by
    unfold heads
    rcases Bool.or_eq_true_iff.mp checked with isClass | isDef
    · simp [isClass]
    · simp only [isDef]
      split <;> simp
  refine Attempt.Grows.bind hd fun j ds _ first => ?_
  refine Attempt.Grows.bind (Attempt.Grows.lift (hb first)) fun k ms _ later => ?_
  refine Attempt.Grows.after (Attempt.Keeps.need _) fun text _ => ?_
  dsimp only
  split
  next =>
    refine Attempt.Grows.after (classDraft_quiet _ _) fun draft named => ?_
    exact made later found head (by decide) rfl (flagged_of_named named _ _ _)
      (ordered_of_named named)
  next =>
    refine Attempt.Grows.after (defDraft_quiet _ _ _) fun draft named => ?_
    exact made later found head (by split <;> decide) rfl (flagged_of_named named _ _ _)
      (ordered_of_named named)

end

/-! ### Trees -/

theorem importNode_sprouts : Sprouts source (importNode cx line) :=
  fun i => importNode_made fun _ fits _ => Attempt.Grows.leaf fits.leaf fits.ordered (Nat.le_refl i)

theorem decoratorNode_sprouts (line : LogicalLine) :
    Sprouts source (OptionT.lift (decoratorNode cx line)) :=
  fun i => Attempt.Grows.lift (decoratorNode_made fun fits =>
    Build.Grows.leaf fits.leaf fits.ordered (Nat.le_refl i))

theorem definition_sprouts {decorators : List LogicalLine} {stop : Nat}
    {body : Scope → Build (List Node)} (hb : ∀ inner, Build.Sprouts source (body inner)) :
    Sprouts source (definition cx scope decorators line stop body) := by
  intro i
  refine definition_made (Sprouts.mapM decoratorNode_sprouts) (fun {inner j ds} first => ?_)
    fun grown _ _ _ children _ ordered => Attempt.Grows.span (children ▸ grown) ordered
  exact (hb inner j).mono fun _ _ _ later => first.append later

theorem simpleStatement_sprouts : Build.Sprouts source (simpleStatement cx scope line) := by
  intro i
  refine (simpleStatement_made fun le _ fits _ =>
    Attempt.Grows.leaf fits.leaf fits.ordered le).mono ?_
  rintro j ns le ⟨found, rfl, grown⟩
  cases found with
  | none => exact .nil le
  | some n => exact grown n rfl

/-- A construct that may be missing, and the trees behind it. -/
theorem found_sprouts {m : Attempt Node} {next : Build (List Node)} (h : Sprouts source m)
    (hn : Build.Sprouts source next) :
    Build.Sprouts source (do
      let found ← m.run
      return found.toList ++ (← next)) := by
  intro i
  refine Build.Grows.bind (h i) fun j r le hr => ?_
  cases r with
  | none => exact Build.Sprouts.behind hn (.nil le)
  | some n => exact Build.Sprouts.behind hn (hr n rfl)

/-- A definition and what is behind its block, or a simple statement and what is behind it. A
definition that is abandoned leaves the count where its decorators and members have brought it. -/
theorem statement_sprouts {attempt : Attempt Node} {next next' : Build (List Node)}
    (h : Sprouts source attempt) (hn : Build.Sprouts source next)
    (hn' : Build.Sprouts source next') :
    Build.Sprouts source (do
      match ← attempt.run with
      | some node => return node :: (← next)
      | none =>
        let nodes ← simpleStatement cx scope line
        return nodes ++ (← next')) := by
  intro i
  refine Build.Grows.bind (h i) fun j r le hr => ?_
  cases r with
  | some node => exact Build.Sprouts.behind hn (hr node rfl)
  | none =>
    refine Build.Grows.bind (simpleStatement_sprouts j) fun k nodes _ first => ?_
    exact Build.Sprouts.behind hn' (first.since le)

theorem statements_sprouts (lines : List LogicalLine) (scope : Scope) (base : Nat)
    (decorators : List LogicalLine) (skip count : Nat) :
    Build.Sprouts source (statements cx scope base decorators skip count lines) := by
  induction lines generalizing scope base decorators skip count with
  | nil => exact Build.Sprouts.nil
  | cons line rest ih =>
    match skip, count with
    | _, 0 =>
      rw [statements]
      exact Build.Sprouts.nil
    | skip + 1, count + 1 => exact ih scope base decorators skip count
    | 0, count + 1 =>
      intro i
      rw [statements]
      split
      next => exact ih scope base decorators 0 count i
      next =>
        split
        next =>
          dsimp only
          split
          next => exact found_sprouts importNode_sprouts (ih scope base [] 0 count) i
          next =>
            rw [pure_bind]
            exact Build.Sprouts.behind (ih scope base [] 0 count) (.nil (Nat.le_refl i))
        next =>
          refine Build.Grows.after (Build.Keeps.need _) fun code _ => ?_
          split
          next => exact ih scope base (decorators ++ [line]) 0 count i
          next =>
            refine statement_sprouts (definition_sprouts fun inner => ?_) (ih _ _ _ _ _)
              (ih _ _ _ _ _) i
            split
            next => exact Build.Sprouts.nil
            next => exact ih _ _ _ _ _

theorem tree_grows (source : Text) :
    Build.Grows source 0 (tree source) fun j n => Grown source 0 j [n] ∧ n.id = j ∧ n.parent = none := by
  refine Build.Grows.after (Build.Keeps.need _) fun cx _ => ?_
  cases baseIndent? (Scan.logicalLines source) with
  | none => exact Build.Grows.root (.nil (Nat.le_refl 0))
  | some base =>
    refine Build.Grows.bind (statements_sprouts _ _ _ _ _ _ 0) fun _ children _ grown => ?_
    exact Build.Grows.root grown

end SourceTree.Python
