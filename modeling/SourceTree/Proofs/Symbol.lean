import SourceTree.Proofs.Node.Family
import SourceTree.Reader

/-!
Which declarations of a tree are listed as symbols, and to whom they belong. The walk hands the name
of an owner and whether it is inside a callable down the tree; read on the trail that leads to a
node, the one is the name of the nearest owner above it and the other says whether any node above it
can be called. Main statement: `symbols_of_trails`.
-/

namespace SourceTree

open Node (Trail trailsFrom trailsFrom_eq trailsAll_eq_flatMap)

namespace Node

/-- The name of the nearest node above whose tag is one of the owners. Nodes further up do not count,
even if the nearest has no name. -/
def Trail.nearest (owns : NodeKind → Bool) (t : Trail) : Option String :=
  (t.above.find? fun n => owns n.kind).bind name

/-- Whether some node above can be called. -/
def Trail.inCallable (t : Trail) : Bool := t.above.any fun n => n.kind.isCallable

/-- What a walk for symbols reads off the node at the end of a trail. -/
def Trail.symbol (rules : SymbolRules) (t : Trail) : List SymbolInfo :=
  if rules.counts t.inCallable t.node then
    (SymbolInfo.ofNode? t.node ((rules.statedOwner? t.node).or (t.nearest rules.owns))).toList
  else []

variable {rules : SymbolRules}

theorem symbolsFrom_eq (owner : Option String) (inCallable : Bool) (n : Node) :
    symbolsFrom rules owner inCallable n =
      (if rules.counts inCallable n then
        (SymbolInfo.ofNode? n ((rules.statedOwner? n).or owner)).toList else []) ++
      symbolsAll rules (if rules.owns n.kind then n.name else owner)
        (inCallable || n.kind.isCallable) n.children := by
  cases n
  rw [symbolsFrom]

theorem symbolsAll_eq_flatMap (owner : Option String) (inCallable : Bool) (ns : List Node) :
    symbolsAll rules owner inCallable ns = ns.flatMap (symbolsFrom rules owner inCallable) := by
  induction ns with
  | nil => rfl
  | cons n ns ih => rw [symbolsAll, ih, List.flatMap_cons]

/-- What the walk hands down from a node is what the trails to its children say. -/
theorem handed_down (rules : SymbolRules) (above : List Node) (n c : Node) :
    Trail.nearest rules.owns ⟨c, n :: above⟩ =
        (if rules.owns n.kind then n.name else Trail.nearest rules.owns ⟨n, above⟩) ∧
      Trail.inCallable ⟨c, n :: above⟩ =
        (Trail.inCallable ⟨n, above⟩ || n.kind.isCallable) := by
  constructor
  · unfold Trail.nearest
    cases owns : rules.owns n.kind <;> simp [owns]
  · simp [Trail.inCallable, Bool.or_comm]

/-- Below some nodes the walk reads the symbols of the trails, if it is given what they say of the
node where it begins. -/
theorem symbolsFrom_trails (above : List Node) (n : Node) :
    symbolsFrom rules (Trail.nearest rules.owns ⟨n, above⟩) (Trail.inCallable ⟨n, above⟩) n =
      (trailsFrom above n).flatMap (Trail.symbol rules) := by
  induction n using induct generalizing above with
  | step n ih =>
    rw [symbolsFrom_eq, trailsFrom_eq, List.flatMap_cons, symbolsAll_eq_flatMap,
      trailsAll_eq_flatMap, List.flatMap_assoc]
    congr 1
    refine List.flatMap_congr fun c hc => ?_
    obtain ⟨owner, inside⟩ := handed_down rules above n c
    rw [← owner, ← inside]
    exact ih c hc (n :: above)

theorem symbols_eq_flatMap (root : Node) :
    root.symbols rules = root.trails.flatMap (Trail.symbol rules) :=
  symbolsFrom_trails [] root

end Node

namespace Language

/-- The tags that a language lists. -/
def symbolKinds : Language → List NodeKind
  | typescript | javascript =>
    [.function, .arrowFunction, .method, .classDecl, .interface, .typeAlias, .moduleDecl, .property,
      .variableDecl]
  | python => [.function, .method, .classDecl, .variableDecl, .property]
  | java => [.classDecl, .interface, .method, .property]
  | go => [.function, .method, .struct, .interface, .typeAlias, .variableDecl, .property]

/-- The tags whose nodes own what is declared inside them. -/
def ownerKinds : Language → List NodeKind
  | typescript | javascript => [.classDecl, .interface]
  | python | java => [.classDecl, .struct, .interface]
  | go => [.struct, .interface]

/-- Whether the node at the end of a trail is listed: it has a name and a tag of the language. In
scripts a variable has to stand outside everything that can be called, and must not hold a function
itself. -/
structure Lists (l : Language) (t : Trail) : Prop where
  named : t.node.name.isSome
  kind : t.node.kind ∈ l.symbolKinds
  freestanding : l = typescript ∨ l = javascript → t.node.kind = .variableDecl →
    (∀ n ∈ t.above, n.kind.isCallable = false) ∧ t.node.flag "functionValue" = false

/-- The name of the owner of the node at the end of a trail. In Go the receiver of a method says it
first. -/
def ownerName (l : Language) (t : Trail) : Option String :=
  let nearest := t.nearest fun kind => l.ownerKinds.contains kind
  match l with
  | go => (t.node.note? "receiverType").or nearest
  | typescript | javascript | python | java => nearest

variable {l : Language} {t : Trail}

theorem counts_iff : l.symbolRules.counts t.inCallable t.node = true ↔
    t.node.kind ∈ l.symbolKinds ∧
      (l = typescript ∨ l = javascript → t.node.kind = .variableDecl →
        (∀ n ∈ t.above, n.kind.isCallable = false) ∧ t.node.flag "functionValue" = false) := by
  have outside : t.inCallable = false ↔ ∀ n ∈ t.above, n.kind.isCallable = false := by
    simp [Node.Trail.inCallable]
  rw [← outside]
  cases l <;> cases kind : t.node.kind <;>
    simp [symbolRules, symbolKinds, Script.symbolRules, Python.symbolRules, Java.symbolRules,
      Go.symbolRules, kind]

theorem owns_eq (l : Language) : l.symbolRules.owns = fun kind => l.ownerKinds.contains kind := by
  funext kind
  cases l <;> cases kind <;> rfl

theorem ownerName_eq (l : Language) (t : Trail) :
    l.ownerName t = (l.symbolRules.statedOwner? t.node).or (t.nearest l.symbolRules.owns) := by
  rw [owns_eq]
  cases l <;> rfl

instance (l : Language) : DecidablePred l.Lists := fun t =>
  decidable_of_iff (t.node.name.isSome ∧ t.node.kind ∈ l.symbolKinds ∧
    (l = typescript ∨ l = javascript → t.node.kind = .variableDecl →
      (∀ n ∈ t.above, n.kind.isCallable = false) ∧ t.node.flag "functionValue" = false))
    ⟨fun ⟨named, kind, freestanding⟩ => ⟨named, kind, freestanding⟩,
      fun h => ⟨h.named, h.kind, h.freestanding⟩⟩

/-- The symbol is the one of the node at the end of the trail, and the owner's name is its parent
name. -/
structure Describes (l : Language) (t : Trail) (s : SymbolInfo) : Prop where
  read : SymbolInfo.ofNode? t.node (l.ownerName t) = some s
  name : t.node.name = some s.name
  kind : t.node.kind = s.kind
  location : t.node.location = s.location
  parent : s.parentName = l.ownerName t

theorem symbol_of_lists (lists : l.Lists t) :
    ∃ s, t.symbol l.symbolRules = [s] ∧ l.Describes t s := by
  obtain ⟨name, named⟩ := Option.isSome_iff_exists.mp lists.named
  have counts := counts_iff.mpr ⟨lists.kind, lists.freestanding⟩
  obtain ⟨s, read⟩ : ∃ s, SymbolInfo.ofNode? t.node (l.ownerName t) = some s := by
    simp [SymbolInfo.ofNode?, named]
  refine ⟨s, ?_, ?_⟩
  · rw [Node.Trail.symbol, if_pos counts, ← ownerName_eq, read, Option.toList_some]
  · have fields := read
    simp only [SymbolInfo.ofNode?, named, Option.pure_def, Option.bind_eq_bind, Option.bind_some,
      Option.some.injEq] at fields
    exact ⟨read, by rw [named, ← fields], by rw [← fields], by rw [← fields], by rw [← fields]⟩

theorem symbol_of_not_lists (omits : ¬l.Lists t) : t.symbol l.symbolRules = [] := by
  unfold Node.Trail.symbol
  split
  next counts =>
    obtain ⟨kind, freestanding⟩ := counts_iff.mp counts
    have unnamed : t.node.name = none := by
      rw [Option.eq_none_iff_forall_ne_some]
      exact fun name named => omits ⟨by rw [named, Option.isSome_some], kind, freestanding⟩
    simp [SymbolInfo.ofNode?, unnamed]
  next => rfl

/-- The symbols of a tree are those of the named nodes whose tag the language lists, each before those
below it and in the order of the source. The parent name is the name of the nearest node above that
owns its members; if that one has no name, or there is none, there is no parent name. -/
theorem symbols_of_trails (l : Language) (root : Node) :
    List.Forall₂ l.Describes (root.trails.filter l.Lists) (l.symbols root) ∧
      root.trails.map Trail.node = root.nodes ∧ ∀ t, t ∈ root.trails ↔ Node.Leads root t := by
  refine ⟨?_, (Node.nodes_eq root).symm, fun _ => Node.mem_trails_iff⟩
  rw [symbols, Node.symbols_eq_flatMap]
  induction root.trails with
  | nil => exact .nil
  | cons t ts ih =>
    rw [List.flatMap_cons]
    by_cases lists : l.Lists t
    · obtain ⟨s, read, describes⟩ := symbol_of_lists lists
      rw [List.filter_cons_of_pos (by simpa using lists), read]
      exact .cons describes ih
    · rw [List.filter_cons_of_neg (by simpa using lists), symbol_of_not_lists lists]
      exact ih

end Language

end SourceTree
