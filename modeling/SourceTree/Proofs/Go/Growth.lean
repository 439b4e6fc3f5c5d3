import SourceTree.Proofs.Go.Declaration
import SourceTree.Proofs.Growth

/-!
How the tree of a Go source grows. A line of a body and an item of a group may give several nodes;
each of them takes an id of its own, and a struct or an interface grows on those of its body.
-/

namespace SourceTree.Go

open Scan (MaskedSource)

variable {σ : Type} {view : Builder → σ} {source : Text} {text : MaskedSource}
  {start stop limit pos : Nat}

/-- From every count on, the declaration grows its nodes. -/
def Declares (source : Text) (m : Attempt Declared) : Prop :=
  ∀ i, Attempt.Grows source i m fun j d => Grown source i j d.nodes

theorem ordered_access {d : Draft} {name : Text} (h : d.Ordered) : (access name d).Ordered :=
  h.note.note

theorem ordered_receiver {d : Draft} {part : Text} (h : d.Ordered) : (receiver part d).Ordered :=
  h.noteText?.noteText.note

/-- A declaration of a single node, which grows on what is there. -/
theorem single_grows {i first : Nat} {kind : NodeKind} {d : Draft}
    (h : Grown source first i d.children) (ordered : d.Ordered) :
    Attempt.Grows source i (do return ⟨[← Attempt.span kind start stop d], stop⟩)
      fun j (d : Declared) => Grown source first j d.nodes :=
  Attempt.Grows.bind (Attempt.Grows.span h ordered) fun _ _ _ grown => Attempt.Grows.pure grown

theorem single_declares {kind : NodeKind} {d : Draft} (empty : d.children = [])
    (ordered : d.Ordered) :
    Declares source (do return ⟨[← Attempt.span kind start stop d], stop⟩) := by
  intro i
  refine single_grows ?_ ordered
  rw [empty]
  exact .nil (Nat.le_refl i)

theorem packageDecl_declares : Declares source (packageDecl text start) := by
  intro i
  refine Attempt.Grows.after (Attempt.Keeps.need _) fun code _ => ?_
  refine Attempt.Grows.after (Attempt.Keeps.expect _) fun m _ => ?_
  exact single_declares rfl (Draft.ordered_named _) i

theorem importItem_declares (nodeStart : Nat) :
    Declares source (importItem text nodeStart start limit) := by
  intro i
  refine Attempt.Grows.after (Attempt.Keeps.need _) fun stop _ => ?_
  refine Attempt.Grows.after (Attempt.Keeps.need _) fun line _ => ?_
  refine Attempt.Grows.after (Attempt.Keeps.expect _) fun m _ => ?_
  exact single_declares rfl (Draft.ordered_named _).noteText i

theorem receiverPart_keeps (m : Match) (d : Draft) :
    Attempt.Keeps view (receiverPart text start m d) fun r =>
      r.2.children = d.children ∧ (d.Ordered → r.2.Ordered) := by
  unfold receiverPart
  split
  next =>
    refine Attempt.Keeps.bind (Attempt.Keeps.need _) fun part _ => ?_
    exact Attempt.Keeps.pure ⟨children_receiver part d, ordered_receiver⟩
  next => exact Attempt.Keeps.pure ⟨rfl, id⟩

theorem typeParameters_keeps (m : Match) (d : Draft) :
    Attempt.Keeps view (typeParameters text start m d) fun r =>
      r.children = d.children ∧ (d.Ordered → r.Ordered) := by
  unfold typeParameters
  split
  next =>
    refine Attempt.Keeps.bind (Attempt.Keeps.need _) fun _ _ => ?_
    exact Attempt.Keeps.pure ⟨rfl, Draft.Ordered.noteText⟩
  next => exact Attempt.Keeps.pure ⟨rfl, id⟩

theorem resultsEnd_keeps (body : Option Nat) :
    Attempt.Keeps view (resultsEnd text start body) fun _ => True := by
  cases body with
  | some brace => exact Attempt.Keeps.pure trivial
  | none => exact (Attempt.Keeps.need _).mono fun _ _ => trivial

theorem funcEnd_quiet (name : Text) (body : Option Nat) :
    Attempt.Quiet (funcEnd text name stop body) fun _ => True := by
  cases body with
  | some brace =>
    exact Attempt.Keeps.bind (Attempt.bodyEnds_quiet _ _ _ _) fun _ _ => Attempt.Keeps.pure trivial
  | none => exact Attempt.Keeps.pure trivial

theorem funcDecl_declares : Declares source (funcDecl text start) := by
  intro i
  refine Attempt.Grows.after (Attempt.Keeps.need _) fun code _ => ?_
  refine Attempt.Grows.after (Attempt.Keeps.expect _) fun m _ => ?_
  dsimp only
  split
  next => exact Attempt.Grows.after (Attempt.Quiet.warn _ _ _) fun _ _ => Attempt.Grows.abandoned
  next =>
    refine Attempt.Grows.after (receiverPart_keeps m _) fun ⟨kind, d⟩ ⟨empty, placed⟩ => ?_
    refine Attempt.Grows.after (typeParameters_keeps m d) fun d' ⟨same, kept⟩ => ?_
    refine Attempt.Grows.after (Attempt.Keeps.need _) fun list _ => ?_
    refine Attempt.Grows.after (Attempt.Keeps.need _) fun body _ => ?_
    refine Attempt.Grows.after (resultsEnd_keeps body) fun last _ => ?_
    refine Attempt.Grows.after (Attempt.Keeps.need _) fun results _ => ?_
    refine Attempt.Grows.after (funcEnd_quiet _ body) fun stop _ => ?_
    have leaf : d'.children = [] := same.trans empty
    have ordered : d'.Ordered := kept (placed (Draft.ordered_named _))
    refine single_declares ?_ (ordered_access ?_) i
    · rw [children_access]
      split <;> simpa using leaf
    · split
      · exact ordered.note
      · exact ordered.note.noteText

theorem lineFields_sprouts (start stop : Nat) : Build.Sprouts source (lineFields text start stop) := by
  intro i
  refine Build.Grows.after (Build.Keeps.need _) fun masked _ => ?_
  refine Build.Grows.after (Build.Keeps.need _) fun raw _ => ?_
  refine Build.Grows.after (Build.Keeps.need _) fun named _ => ?_
  dsimp only
  split
  next =>
    refine Build.Sprouts.mapM (fun name k => ?_) i
    refine Build.Grows.leaf (by simp [Draft.named]) ?_ (Nat.le_refl k)
    exact (ordered_access (Draft.ordered_named name).noteText).noteText?
  next =>
    split
    next => exact Build.Sprouts.nil i
    next =>
      refine Build.Grows.bind (Build.Grows.leaf (by simp [Draft.named]) ?_ (Nat.le_refl i)) ?_
      · exact (ordered_access (Draft.ordered_named _).noteText.note).noteText?
      · exact fun _ n _ grown => Build.Grows.pure grown

/-- A loop over lines grows what its lines grow. -/
theorem eachLine_grows {α : Type} {read : Nat → Nat → Build (List α)} {nodeOf : α → Option Node}
    (h : ∀ start stop i, Build.Grows source i (read start stop) fun j as =>
      Grown source i j (as.filterMap nodeOf)) (pos i : Nat) :
    Build.Grows source i (eachLine text limit read pos) fun j as =>
      Grown source i j (as.filterMap nodeOf) := by
  induction hd : limit - pos using Nat.strongRecOn generalizing pos i with
  | ind d ih =>
    rw [eachLine]
    split
    next lt =>
      refine Build.Grows.after (Build.Keeps.need _) fun stop _ => ?_
      refine Build.Grows.bind (h pos stop i) fun j found _ first => ?_
      refine Build.Grows.after (Build.Keeps.need _) ?_
      rintro ⟨next, progress⟩ -
      have smaller : limit - next < d := by omega
      refine Build.Grows.bind (ih (limit - next) smaller next j rfl) fun k later _ rest => ?_
      refine Build.Grows.pure ?_
      rw [List.filterMap_append]
      exact first.append rest
    next => exact Build.Grows.pure (.nil (Nat.le_refl i))

theorem structFields_sprouts (start limit : Nat) :
    Build.Sprouts source (structFields text start limit) := by
  intro i
  refine Build.Grows.after (Build.Keeps.need _) fun pos _ => ?_
  have each : Build.Grows source i (eachLine text limit (lineFields text) pos) fun j ns =>
      Grown source i j (ns.filterMap some) := by
    refine eachLine_grows (fun start stop i => ?_) pos i
    simpa using lineFields_sprouts start stop i
  simpa using each

theorem interfaceItem_grows (start stop i : Nat) :
    Build.Grows source i (interfaceItem text start stop) fun j items =>
      Grown source i j (items.filterMap InterfaceItem.node?) := by
  refine Build.Grows.after (Build.Keeps.need _) fun masked _ => ?_
  dsimp only
  split
  next =>
    refine Build.Grows.after (Build.Keeps.need _) fun list _ => ?_
    refine Build.Grows.after (Build.Keeps.need _) fun results _ => ?_
    refine Build.Grows.bind (Build.Grows.leaf ?_ ?_ (Nat.le_refl i)) fun j n _ grown =>
      Build.Grows.pure grown
    · split <;> simp [Draft.named]
    · split
      · exact ordered_access (Draft.ordered_named _).note.note
      · exact (ordered_access (Draft.ordered_named _).note.note).noteText
  next =>
    split
    next => exact Build.Grows.pure (.nil (Nat.le_refl i))
    next =>
      refine Build.Grows.after (Build.Keeps.need _) fun embedded _ => ?_
      exact Build.Grows.pure (.nil (Nat.le_refl i))

theorem interfaceMembers_grows (start limit i : Nat) :
    Build.Grows source i (interfaceMembers text start limit) fun j r => Grown source i j r.1 := by
  refine Build.Grows.after (Build.Keeps.need _) fun pos _ => ?_
  refine Build.Grows.bind (eachLine_grows interfaceItem_grows pos i) fun j items _ grown => ?_
  exact Build.Grows.pure grown

theorem bodyType_declares (name rest : Text) (nodeStart typeStart : Nat) {d : Draft}
    (h : d.Ordered) :
    Declares source (bodyType text name nodeStart typeStart limit rest d) := by
  intro i
  refine Attempt.Grows.after (Attempt.Keeps.expect _) fun offset _ => ?_
  refine Attempt.Grows.after (Attempt.bodyEnds_quiet _ _ _ _) fun ⟨bodyEnd, stop⟩ _ => ?_
  dsimp only
  split
  next =>
    refine Attempt.Grows.bind (Attempt.Grows.lift (structFields_sprouts _ _ i)) fun j fields _ grown => ?_
    exact single_grows grown h.withChildren
  next =>
    refine Attempt.Grows.bind (Attempt.Grows.lift (interfaceMembers_grows _ _ i))
      fun j ⟨methods, embedded⟩ _ grown => ?_
    exact single_grows grown h.noteTexts.withChildren

theorem typePlace_keeps (m : Match) :
    Attempt.Keeps view (typePlace text start m) fun r =>
      start ≤ r.1 ∧ r.2.children = [] ∧ r.2.Ordered := by
  unfold typePlace
  dsimp only
  have named := Draft.ordered_named (m.groupText 1)
  split
  next => exact Attempt.Keeps.pure ⟨Nat.le_add_right .., rfl, named⟩
  next =>
    split
    next =>
      refine Attempt.Keeps.bind (Attempt.Keeps.need _) fun _ _ => ?_
      exact Attempt.Keeps.pure ⟨Nat.le_add_right .., rfl, named.noteText⟩
    next => exact Attempt.Keeps.pure ⟨Nat.le_add_right .., rfl, named⟩

theorem typeItem_declares (nodeStart : Nat) :
    Declares source (typeItem text nodeStart start limit) := by
  intro i
  refine Attempt.Grows.after (Attempt.Keeps.need _) fun code _ => ?_
  refine Attempt.Grows.after (Attempt.Keeps.expect _) fun m _ => ?_
  refine Attempt.Grows.after (typePlace_keeps m) fun ⟨typeStart, d⟩ ⟨_, empty, named⟩ => ?_
  refine Attempt.Grows.after (Attempt.Keeps.need _) fun rest _ => ?_
  have noted : (access (m.groupText 1) d).Ordered := ordered_access named
  dsimp only
  split
  next => exact bodyType_declares _ _ _ _ noted i
  next =>
    refine Attempt.Grows.after (Attempt.Keeps.need _) fun stop _ => ?_
    refine Attempt.Grows.after (Attempt.Keeps.need _) fun target _ => ?_
    refine single_declares ?_ ?_ i
    · split <;> simpa using empty
    · split
      · exact noted.noteText.note
      · exact noted.noteText

theorem valueItem_declares (keyword : Text) (nodeStart : Nat) :
    Declares source (valueItem text keyword nodeStart start limit) := by
  intro i
  refine Attempt.Grows.after (Attempt.Keeps.need _) fun stop _ => ?_
  refine Attempt.Grows.after (Attempt.Keeps.need _) fun masked _ => ?_
  refine Attempt.Grows.after (Attempt.Keeps.expect _) fun names _ => ?_
  refine Attempt.Grows.after (Attempt.Keeps.need _) fun rest _ => ?_
  dsimp only
  have nodes (type : Option Text) : Attempt.Grows source i (do
      let nodes ← ((listedNames names.whole.text).filter (· != ['_'])).mapM fun name =>
        Attempt.span .variableDecl nodeStart stop
          ((access name ((Draft.named name).noteText "declarationKind" keyword)).noteText?
            "typeAnnotation" type)
      return (⟨nodes, stop⟩ : Declared)) fun j d => Grown source i j d.nodes := by
    refine Attempt.Grows.bind (Attempt.Sprouts.mapM fun name k => ?_) fun j ns _ grown => ?_
    · refine Attempt.Grows.leaf (by simp [Draft.named]) ?_ (Nat.le_refl k)
      exact (ordered_access (Draft.ordered_named name).noteText).noteText?
    · exact Attempt.Grows.pure grown
  split
  next => exact nodes none
  next => exact Attempt.Grows.after (Attempt.Keeps.need _) fun type _ => nodes (some type)

theorem itemOrLine_grows {item : ItemReader} {close : Nat}
    (h : ∀ nodeStart start limit, Declares source (item nodeStart start limit)) (i : Nat) :
    Build.Grows source i (itemOrLine text item close pos) fun j d => Grown source i j d.nodes := by
  refine Build.Grows.bind (h pos pos close i) fun j r le hr => ?_
  cases r with
  | some declared => exact Build.Grows.pure (hr declared rfl)
  | none => exact Build.Grows.after (Build.Keeps.need _) fun _ _ => Build.Grows.pure (.nil le)

theorem groupItems_sprouts {item : ItemReader} {close : Nat}
    (h : ∀ nodeStart start limit, Declares source (item nodeStart start limit)) (pos : Nat) :
    Build.Sprouts source (groupItems text item close pos) := by
  intro i
  induction hd : close - pos using Nat.strongRecOn generalizing pos i with
  | ind d ih =>
    rw [groupItems]
    split
    next lt =>
      refine Build.Grows.bind (itemOrLine_grows h i) fun j declared _ first => ?_
      refine Build.Grows.after (Build.Keeps.need _) fun ⟨next, progress⟩ _ => ?_
      have smaller : close - next < d := by omega
      exact Build.Sprouts.behind (fun k => ih (close - next) smaller next k rfl) first
    next => exact Build.Sprouts.nil i

theorem groupClose_quiet (keyword : Text) :
    Attempt.Quiet (groupClose text keyword start) fun _ => True := by
  unfold groupClose
  split
  next => exact Attempt.Keeps.pure trivial
  next => exact Attempt.Keeps.bind (Attempt.Quiet.warn _ _ _) fun _ _ => Attempt.Keeps.pure trivial

theorem grouped_declares {item : ItemReader} (keyword : Text)
    (h : ∀ nodeStart start limit, Declares source (item nodeStart start limit)) :
    Declares source (grouped text keyword item start) := by
  intro i
  refine Attempt.Grows.after (Attempt.Keeps.need _) fun after _ => ?_
  split
  next => exact h _ _ _ i
  next =>
    refine Attempt.Grows.after (groupClose_quiet keyword) fun close _ => ?_
    refine Attempt.Grows.after (Attempt.Keeps.need _) fun pos _ => ?_
    refine Attempt.Grows.bind (Attempt.Grows.lift (groupItems_sprouts h pos i)) fun j nodes _ grown => ?_
    exact Attempt.Grows.pure grown

theorem declared_declares (keyword : Text) : Declares source (declared text keyword start) := by
  unfold declared
  split
  next => exact packageDecl_declares
  next => exact grouped_declares keyword fun nodeStart _ _ => importItem_declares nodeStart
  next => exact funcDecl_declares
  next => exact grouped_declares keyword fun nodeStart _ _ => typeItem_declares nodeStart
  next => exact grouped_declares keyword fun nodeStart _ _ => valueItem_declares keyword nodeStart

theorem declarations_sprouts (blocks : List Scan.Range) (covered : Nat) (keywords : List Span) :
    Build.Sprouts source (declarations text blocks covered keywords) := by
  intro i
  induction keywords generalizing covered i with
  | nil => exact Build.Sprouts.nil i
  | cons keyword keywords ih =>
    rw [declarations]
    split
    next => exact ih covered i
    next =>
      refine Build.Grows.bind (declared_declares keyword.text i) fun j r le hr => ?_
      cases r with
      | none => exact (ih covered j).mono fun _ _ _ later => later.since le
      | some found => exact Build.Sprouts.behind (ih found.stop) (hr found rfl)

theorem tree_grows (source : Text) :
    Build.Grows source 0 (tree source) fun j n => Grown source 0 j [n] ∧ n.id = j ∧ n.parent = none :=
  Build.Grows.bind (declarations_sprouts _ _ _ 0) fun _ _ _ grown => Build.Grows.root grown

end SourceTree.Go
