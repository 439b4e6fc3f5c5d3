import SourceTree.Proofs.Growth
import SourceTree.Script.Tree

/-!
How the tree of a script grows, whatever constructs it is made of. A construct with a tag grows on the
nodes of its parts, and one without a tag leaves them to the construct around it.
-/

namespace SourceTree.Script

namespace Site

variable {s : Site} {d : Draft}

theorem ordered_noteModifiers (h : d.Ordered) : (s.noteModifiers d).Ordered :=
  h.noteIf.noteIf.noteIf.noteText

theorem ordered_noteMethod (h : d.Ordered) : (s.noteMethod d).Ordered := by
  unfold noteMethod
  split
  · exact h
  · exact (ordered_noteModifiers h).noteIf.ite_noteText.ite_noteText.noteTexts

theorem ordered_noteCallable (h : d.Ordered) : (s.noteCallable d).Ordered := by
  apply ordered_noteMethod
  exact h.note.noteIf.note.noteText?.noteText?

theorem ordered_noteClass {tag : NodeKind} (h : d.Ordered) : (s.noteClass tag d).Ordered :=
  h.ite_noteText.noteIf.noteText?.noteTexts.noteTexts.noteTexts

theorem ordered_noteExported {tag : NodeKind} (h : d.Ordered) : (s.noteExported tag d).Ordered := by
  unfold noteExported
  split
  · exact h.note.noteIf
  · exact h

theorem ordered_draft (s : Site) (tag : NodeKind) : (s.draft tag).Ordered := by
  have plain : Draft.Ordered { name := (s.nameFor tag).map String.ofList } := Metadata.ascending_nil
  have exported := @ordered_noteExported s _ tag plain
  unfold draft
  dsimp only
  split
  · exact ordered_noteCallable exported
  · exact ordered_noteCallable exported
  · exact ordered_noteCallable exported
  · exact ordered_noteClass exported
  · exact ordered_noteClass exported
  · exact exported.noteText?
  · exact ordered_noteModifiers exported
  · exact exported.noteIf.noteText?
  · exact exported.noteText?.noteIf
  · exact exported.noteIf.noteText?
  · exact exported

end Site

variable {source : Text}

mutual

theorem nodesOf_sprouts (text : Text) (around before : List Construct) :
    (c : Construct) → Build.Sprouts source (nodesOf text around before c)
  | ⟨kind, isNamed, isMissing, role, start, stop, parts⟩ => by
    rw [nodesOf]
    cases isMissing with
    | true => exact Build.Sprouts.nil
    | false =>
      intro i
      refine Build.Grows.bind (nodesOfAll_sprouts text _ [] parts i) fun j children _ grown => ?_
      generalize Site.mk text ⟨kind, isNamed, false, role, start, stop, parts⟩ around before = site
      cases site.tag? with
      | none => exact Build.Grows.pure grown
      | some tag =>
        refine Build.Grows.bind (Build.Grows.span grown (site.ordered_draft tag).withChildren) ?_
        intro k n _ made
        exact Build.Grows.pure made.1

theorem nodesOfAll_sprouts (text : Text) (around before : List Construct) :
    (cs : List Construct) → Build.Sprouts source (nodesOfAll text around before cs)
  | [] => by
    rw [nodesOfAll]
    exact Build.Sprouts.nil
  | c :: cs => by
    intro i
    rw [nodesOfAll]
    split
    next =>
      refine Build.Grows.bind (nodesOf_sprouts text around before c i) fun j first _ grown => ?_
      exact Build.Sprouts.behind (nodesOfAll_sprouts text around _ cs) grown
    next => exact nodesOfAll_sprouts text around _ cs i

end

mutual

theorem warnOf_quiet : (c : Construct) → Build.Quiet (warnOf c) fun _ => True
  | ⟨kind, isNamed, isMissing, role, start, stop, parts⟩ => by
    rw [warnOf]
    split
    · exact Build.Quiet.warn _ _ _
    · split
      · exact Build.Quiet.warn _ _ _
      · exact warnOfAll_quiet parts

theorem warnOfAll_quiet : (cs : List Construct) → Build.Quiet (warnOfAll cs) fun _ => True
  | [] => by
    rw [warnOfAll]
    exact Build.Keeps.pure trivial
  | c :: cs => by
    rw [warnOfAll]
    exact Build.Keeps.bind (warnOf_quiet c) fun _ _ => warnOfAll_quiet cs

end

theorem tree_grows (whole : Option Construct) (source : Text) :
    Build.Grows source 0 (tree whole source) fun j n =>
      Grown source 0 j [n] ∧ n.id = j ∧ n.parent = none := by
  cases whole with
  | none =>
    exact Build.Grows.after (Build.Quiet.warn _ _ _) fun _ _ => Build.Grows.root (.nil (Nat.le_refl 0))
  | some program =>
    refine Build.Grows.bind (nodesOfAll_sprouts _ _ _ _ 0) fun _ _ _ grown => ?_
    exact Build.Grows.after (warnOf_quiet program) fun _ _ => Build.Grows.root grown

end SourceTree.Script
