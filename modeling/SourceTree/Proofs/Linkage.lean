import Mathlib.Data.List.Forall2
import SourceTree.Linkage
import SourceTree.Proofs.Growth

/-!
Imports that are read twice: once to build their nodes, and a second time from the texts of the nodes.
The second reading passes over the texts that it cannot make out.
-/

namespace SourceTree

/-- The import names the source that its node names, and stands where the node stands. -/
structure Import.States (i : Import) (n : Node) : Prop where
  source : n.name = some i.source
  location : i.location = n.location

namespace Node

variable {read : Node → Option Import} {garbled : Text → Bool} {n : Node}

/-- An import is read from the text of its node exactly if the text is not garbled, and then it says
the same as the node. -/
def Reread (read : Node → Option Import) (garbled : Text → Bool) (n : Node) : Prop :=
  n.kind = .importDecl → ∃ text, n.text = some (String.ofList text) ∧
    if garbled text then read n = none else ∃ i, read n = some i ∧ i.States n

theorem Reread.of_kind (h : n.kind ≠ .importDecl) : n.Reread read garbled :=
  fun isImport => absurd isImport h

theorem Reread.adoptedBy {id : NodeId} (h : n.Reread read garbled)
    (same : read (n.adoptedBy id) = read n) : (n.adoptedBy id).Reread read garbled := by
  intro isImport
  obtain ⟨text, ht, again⟩ := h isImport
  refine ⟨text, ht, ?_⟩
  rw [same]
  split
  next garbled => rwa [if_pos garbled] at again
  next legible =>
    rw [if_neg legible] at again
    obtain ⟨i, found, states⟩ := again
    exact ⟨i, found, states.source, states.location⟩

/-- The nodes of imports with a text that is not garbled. -/
def legibleImports (garbled : Text → Bool) (ns : List Node) : List Node :=
  ns.filter fun n => n.kind == .importDecl && !garbled (n.text.getD "").toList

/-- Of the imports exactly those are found that can be made out, in their order. -/
theorem imports_reread {ns : List Node} (h : ∀ n ∈ ns, n.Reread read garbled) :
    List.Forall₂ Import.States ((ns.filter fun n => n.kind == .importDecl).filterMap read)
      (legibleImports garbled ns) := by
  induction ns with
  | nil => exact .nil
  | cons n ns ih =>
    have later := ih fun m hm => h m (by simp [hm])
    by_cases isImport : n.kind = .importDecl
    · obtain ⟨text, ht, again⟩ := h n (by simp) isImport
      rw [List.filter_cons_of_pos (by simp [isImport]), legibleImports]
      cases hg : garbled text with
      | true =>
        rw [hg, if_pos rfl] at again
        rw [List.filterMap_cons_none again, List.filter_cons_of_neg (by simp [ht, hg])]
        exact later
      | false =>
        simp only [hg, Bool.false_eq_true, if_false] at again
        obtain ⟨i, found, states⟩ := again
        rw [List.filterMap_cons_some found, List.filter_cons_of_pos (by simp [isImport, ht, hg])]
        exact .cons states later
    · rw [List.filter_cons_of_neg (by simp [isImport]), legibleImports,
        List.filter_cons_of_neg (by simp [isImport])]
      exact later

end Node

section Tree

variable {source : Text} {i start stop : Nat} {read : Node → Option Import} {garbled : Text → Bool}

/-- There is nothing to read in a node of another kind. -/
theorem Attempt.Grows.span_reread {kind : NodeKind} {d : Draft} (h : kind ≠ .importDecl) :
    Attempt.Grows source i (Attempt.span kind start stop d) fun _ => Node.Reread read garbled := by
  apply Attempt.Grows.lift
  apply (Build.Grows.states kind start stop d).mono
  intro _ n _ made
  apply Node.Reread.of_kind
  rw [made.1]
  exact h

/-- The root adopts its children, which leaves their texts as they are. -/
theorem Build.Grows.root_reread {children : List Node} (h : ∀ n ∈ children, n.Reread read garbled)
    (adopts : ∀ n id, read (n.adoptedBy id) = read n) :
    Build.Grows source i (Build.root .program children) fun _ root =>
      ∀ n ∈ root.children, n.Reread read garbled := by
  apply (Build.Grows.root_covers .program children).mono
  intro _ root _ made
  obtain ⟨-, -, id, adopted⟩ := made
  rw [adopted, List.forall_mem_map]
  intro n hn
  exact (h n hn).adoptedBy (adopts n id)

end Tree

end SourceTree
