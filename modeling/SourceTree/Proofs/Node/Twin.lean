import Mathlib.Data.List.Forall2
import SourceTree.Proofs.Draft
import SourceTree.Proofs.Node.Nested

/-!
Trees that differ in what their nodes say but not in what they are. The outline of a tree is what
remains when the texts and the metadata of its nodes are left out; two trees are twins if their
outlines agree and their nodes share the metadata that is asked for.
-/

namespace SourceTree

/-- Which pieces of metadata two nodes that start at this offset have in common. -/
abbrev Shared := Nat → String → Prop

variable {shared : Shared} {start : Nat}

/-- The two pieces of metadata agree as far as they are shared. -/
def Metadata.Alike (shared : Shared) (start : Nat) (m m' : Metadata) : Prop :=
  ∀ key, shared start key → m.get? key = m'.get? key

theorem Metadata.Alike.insert {m m' : Metadata} {key : String} {v v' : Value}
    (h : Alike shared start m m') (same : shared start key → v = v') :
    Alike shared start (m.insert key v) (m'.insert key v') := by
  intro key' hkey
  rw [get?_insert, get?_insert]
  split
  next here => rw [same (here ▸ hkey)]
  next => exact h key' hkey

namespace Node

mutual

/-- The tree without the texts and the metadata of its nodes. -/
def outline : Node → Node
  | ⟨id, kind, name, location, children, parent, _, _⟩ =>
    ⟨id, kind, name, location, outlineAll children, parent, none, []⟩

def outlineAll : List Node → List Node
  | [] => []
  | n :: ns => outline n :: outlineAll ns

end

/-- The two nodes are the same but for their texts, their children and metadata that is not
shared. -/
structure Alike (shared : Shared) (n n' : Node) : Prop where
  id : n.id = n'.id
  kind : n.kind = n'.kind
  name : n.name = n'.name
  location : n.location = n'.location
  parent : n.parent = n'.parent
  metadata : Metadata.Alike shared n.location.startIndex n.metadata n'.metadata

/-- The two trees have the same outline, and at every place the same shared metadata. -/
inductive Twin (shared : Shared) : Node → Node → Prop where
  | node {n n' : Node} : Alike shared n n' → List.Forall₂ (Twin shared) n.children n'.children →
      Twin shared n n'

namespace Twin

variable {n n' : Node} {ns ns' : List Node}

theorem alike (h : Twin shared n n') : Alike shared n n' := by
  cases h with
  | node alike _ => exact alike

theorem children (h : Twin shared n n') : List.Forall₂ (Twin shared) n.children n'.children := by
  cases h with
  | node _ below => exact below

/-- What holds of alike nodes whenever it holds of their children, one by one, holds of twins. -/
theorem induct {motive : Node → Node → Prop}
    (step : ∀ n n', Alike shared n n' → List.Forall₂ motive n.children n'.children → motive n n')
    (h : Twin shared n n') : motive n n' := by
  induction n using Node.induct generalizing n' with
  | step n ih =>
    refine step n n' h.alike ?_
    have below := h.children
    generalize n.children = ns, n'.children = ns' at ih below
    induction below with
    | nil => exact .nil
    | cons first _ ih' =>
      exact .cons (ih _ (by simp) first) (ih' fun c hc => ih c (by simp [hc]))

theorem adopted (h : Twin shared n n') (id : NodeId) :
    Twin shared (n.adoptedBy id) (n'.adoptedBy id) := by
  obtain ⟨⟨hid, hkind, hname, hlocation, -, hmetadata⟩, below⟩ := h
  exact .node ⟨hid, hkind, hname, hlocation, rfl, hmetadata⟩ below

theorem outline_eq (h : Twin shared n n') : n.outline = n'.outline := by
  refine induct (motive := fun n n' => n.outline = n'.outline) (fun n n' alike below => ?_) h
  have same : outlineAll n.children = outlineAll n'.children := by
    generalize n.children = ns, n'.children = ns' at below
    induction below with
    | nil => rfl
    | cons first _ ih => rw [outlineAll, outlineAll, first, ih]
  obtain ⟨hid, hkind, hname, hlocation, hparent, -⟩ := alike
  cases n
  cases n'
  simp_all only [outline]

/-- Walks through twins meet nodes that are alike. -/
def WalksAlike (shared : Shared) (n n' : Node) : Prop := ∀ parent parent' depth,
  List.Forall₂ (Alike shared) ((walkFrom (fun _ => false) parent depth n).map Visit.node)
    ((walkFrom (fun _ => false) parent' depth n').map Visit.node)

theorem walksAlike (h : Twin shared n n') : WalksAlike shared n n' := by
  refine induct (fun n n' alike below parent parent' depth => ?_) h
  rw [walkFrom_all, walkFrom_all]
  refine .cons alike ?_
  generalize n.children = ns, n'.children = ns' at below
  induction below with
  | nil => exact .nil
  | cons first _ ih =>
    rw [walkAll, walkAll, List.map_append, List.map_append]
    exact List.rel_append (first _ _ _) ih

/-- Listed in order, the nodes of twins are alike one by one. -/
theorem nodes_alike (h : Twin shared n n') : List.Forall₂ (Alike shared) n.nodes n'.nodes :=
  h.walksAlike none none 0

end Twin

end Node

end SourceTree
