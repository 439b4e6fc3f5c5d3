import SourceTree.Proofs.Growth
import SourceTree.Proofs.Java.Declaration

/-!
How the tree of a Java source grows. Headers make no node; a type grows on the members of its body,
and everything else is a leaf.
-/

namespace SourceTree.Java

open Scan (MaskedSource Range)
open Attempt (Sprouts)

variable {σ : Type} {view : Builder → σ} {source : Text} {i : Nat} {text : MaskedSource}
  {start limit pos : Nat}

theorem ordered_apply {f : Front} {inInterface : Bool} {d : Draft} (h : d.Ordered) :
    (f.apply inInterface d).Ordered :=
  h.note.note.noteIf.noteIf.noteIf.noteTexts

theorem typeParameters_quiet {d : Draft} (h : d.Ordered) :
    Attempt.Quiet (typeParameters text pos limit d) fun r => r.2.Ordered := by
  unfold typeParameters
  split
  next =>
    refine Attempt.Keeps.bind (Attempt.Keeps.expect _) fun close _ => ?_
    refine Attempt.Keeps.bind (Attempt.Keeps.need _) fun params _ => ?_
    refine Attempt.Keeps.bind (Attempt.Keeps.need _) fun next _ => ?_
    exact Attempt.Keeps.pure h.noteText
  next => exact Attempt.Keeps.pure h

theorem recordComponents_quiet (name : Text) {d : Draft} (h : d.Ordered) :
    Attempt.Quiet (recordComponents text name pos limit d) fun r => r.2.Ordered := by
  unfold recordComponents
  split
  next =>
    split
    next => exact Attempt.Keeps.bind (Attempt.Quiet.warn _ _ _) fun _ _ => Attempt.Keeps.abandoned
    next =>
      refine Attempt.Keeps.bind (Attempt.Keeps.need _) fun _ _ => ?_
      exact Attempt.Keeps.pure h.note
  next => exact Attempt.Keeps.pure h

theorem typeRest_quiet (front : Front) (keyword name : Text) {d : Draft} (h : d.Ordered) :
    Attempt.Quiet (typeRest text front keyword name pos limit d) fun head => head.draft.Ordered := by
  refine Attempt.Keeps.bind (Attempt.Keeps.expect _) fun header _ => ?_
  refine Attempt.Keeps.bind (Attempt.Keeps.expect _) fun brace _ => ?_
  refine Attempt.Keeps.bind (Attempt.Keeps.need _) fun code _ => ?_
  refine Attempt.Keeps.bind (Attempt.Keeps.check _) fun _ _ => ?_
  refine Attempt.Keeps.bind (Attempt.bodyEnds_quiet _ _ _ _) fun ends _ => ?_
  refine Attempt.Keeps.bind (Attempt.Keeps.need _) fun lists _ => ?_
  exact Attempt.Keeps.pure h.noteTexts.noteTexts.noteText

theorem typeHead_quiet :
    Attempt.Quiet (typeHead text start limit) fun head => head.draft.Ordered := by
  refine Attempt.Keeps.bind (Attempt.Keeps.need _) fun code _ => ?_
  refine Attempt.Keeps.bind (Attempt.Keeps.expect _) fun m _ => ?_
  refine Attempt.Keeps.bind (Attempt.Keeps.need _) fun front _ => ?_
  refine Attempt.Keeps.bind (Attempt.Keeps.need _) fun pos _ => ?_
  have empty := Draft.ordered_named (m.groupText 4)
  refine Attempt.Keeps.bind (typeParameters_quiet empty) fun ⟨pos, d⟩ ordered => ?_
  dsimp only
  split
  next =>
    refine Attempt.Keeps.bind (recordComponents_quiet _ ordered) fun ⟨pos, d⟩ ordered => ?_
    exact typeRest_quiet front _ _ ordered
  next =>
    rw [pure_bind]
    exact typeRest_quiet front _ _ ordered

theorem constructorHead_keeps (owner : Owner) :
    Attempt.Keeps view (constructorHead text owner start limit) fun head =>
      ∃ code, text.code? start limit = some code ∧
        constructorHeader.matchFront? code = some head.found := by
  refine Attempt.Keeps.bind (Attempt.Keeps.need _) fun code cut => ?_
  refine Attempt.Keeps.bind (Attempt.Keeps.expect _) fun m found => ?_
  refine Attempt.Keeps.bind (Attempt.Keeps.check _) fun _ _ => ?_
  exact Attempt.Keeps.pure ⟨code, cut, found⟩

theorem methodHead_keeps :
    Attempt.Keeps view (methodHead text start limit) fun head =>
      ∃ code, text.code? start limit = some code ∧
        methodHeader.matchFront? code = some head.found := by
  refine Attempt.Keeps.bind (Attempt.Keeps.need _) fun code cut => ?_
  refine Attempt.Keeps.bind (Attempt.Keeps.expect _) fun m found => ?_
  refine Attempt.Keeps.bind (Attempt.Keeps.expect _) fun type _ => ?_
  refine Attempt.Keeps.bind (Attempt.Keeps.check _) fun _ _ => ?_
  refine Attempt.Keeps.bind (Attempt.Keeps.need _) fun _ _ => ?_
  exact Attempt.Keeps.pure ⟨code, cut, found⟩

theorem callableTypeParameters_keeps (m : Match) :
    Attempt.Keeps view (callableTypeParameters text start m) fun _ => True := by
  unfold callableTypeParameters
  split
  next => exact Attempt.Keeps.bind (Attempt.Keeps.need _) fun _ _ => Attempt.Keeps.pure trivial
  next => exact Attempt.Keeps.pure trivial

theorem callableEnd_quiet (name : Text) :
    Attempt.Quiet (callableEnd text name pos limit) fun _ => True := by
  refine Attempt.Keeps.bind (Attempt.Keeps.expect _) fun rest _ => ?_
  refine Attempt.Keeps.bind (Attempt.Keeps.expect _) fun offset _ => ?_
  split
  next =>
    exact Attempt.Keeps.bind (Attempt.bodyEnds_quiet _ _ _ _) fun _ _ => Attempt.Keeps.pure trivial
  next => exact Attempt.Keeps.pure trivial

theorem packageNode_sprouts : Sprouts source (packageNode text start limit) := by
  intro i
  refine Attempt.Grows.after (Attempt.Keeps.need _) fun code _ => ?_
  refine Attempt.Grows.after (Attempt.Keeps.expect _) fun m _ => ?_
  exact Attempt.Grows.leaf rfl (Draft.ordered_named _) (Nat.le_refl i)

theorem importNode_sprouts : Sprouts source (importNode text start limit) := by
  intro i
  refine Attempt.Grows.after (Attempt.Keeps.need _) fun code _ => ?_
  refine Attempt.Grows.after (Attempt.Keeps.expect _) fun m _ => ?_
  exact Attempt.Grows.leaf (by simp [Draft.named]) (Draft.ordered_named _).noteText.noteIf (Nat.le_refl i)

theorem typeNode_sprouts {body : Range → Owner → Build (List Node)}
    (hb : ∀ region owner, Build.Sprouts source (body region owner)) :
    Sprouts source (typeNode text body start limit) := by
  intro i
  refine Attempt.Grows.after typeHead_quiet fun head ordered => ?_
  refine Attempt.Grows.bind (Attempt.Grows.lift (hb _ _ i)) fun j members _ grown => ?_
  exact Attempt.Grows.span grown (ordered_apply ordered).withChildren

theorem callableNode_sprouts {head : Nat → Nat → Attempt CallableHeader}
    {post : CallableHeader → Prop} (hh : Attempt.Quiet (head start limit) post) (owner : Owner)
    (isConstructor : Bool) :
    Sprouts source (callableNode text owner head isConstructor start limit) := by
  intro i
  refine Attempt.Grows.after hh fun ⟨m, name, returnType⟩ _ => ?_
  refine Attempt.Grows.after (Attempt.Keeps.need _) fun front _ => ?_
  refine Attempt.Grows.after (callableTypeParameters_keeps m) fun typeParams _ => ?_
  dsimp only
  split
  next => exact Attempt.Grows.after (Attempt.Quiet.warn _ _ _) fun _ _ => Attempt.Grows.abandoned
  next =>
    refine Attempt.Grows.after (Attempt.Keeps.need _) fun parameters _ => ?_
    refine Attempt.Grows.after (callableEnd_quiet name) fun ⟨stop, hasBody⟩ _ => ?_
    refine Attempt.Grows.leaf (by simp [Draft.named]) (ordered_apply ?_) (Nat.le_refl i)
    exact (Draft.ordered_named name).note.noteText?.noteText?.noteIf.noteIf.noteIf

theorem fieldNode_sprouts (owner : Owner) : Sprouts source (fieldNode text owner start limit) := by
  intro i
  refine Attempt.Grows.after (Attempt.Keeps.need _) fun code _ => ?_
  refine Attempt.Grows.after (Attempt.Keeps.expect _) fun m _ => ?_
  refine Attempt.Grows.after (Attempt.Keeps.need _) fun front _ => ?_
  refine Attempt.Grows.after (Attempt.Keeps.expect _) fun type _ => ?_
  refine Attempt.Grows.after (Attempt.Keeps.check _) fun _ _ => ?_
  refine Attempt.Grows.after (Attempt.Keeps.need _) fun typeText _ => ?_
  refine Attempt.Grows.after (Attempt.Keeps.need _) fun stop _ => ?_
  refine Attempt.Grows.leaf (by simp [Draft.named]) (ordered_apply ?_) (Nat.le_refl i)
  exact (Draft.ordered_named _).noteText.noteIf

theorem member_sprouts {body : Range → Owner → Build (List Node)}
    (hb : ∀ region owner, Build.Sprouts source (body region owner))
    (owner : Option Owner) : Sprouts source (member text body owner limit start) := by
  cases owner with
  | none =>
    refine Sprouts.firstOf ?_
    simp only [List.forall_mem_cons]
    exact ⟨packageNode_sprouts, importNode_sprouts, typeNode_sprouts hb, by simp⟩
  | some owner =>
    refine Sprouts.firstOf ?_
    simp only [List.forall_mem_cons]
    exact ⟨typeNode_sprouts hb, callableNode_sprouts (constructorHead_keeps owner) owner true,
      callableNode_sprouts methodHead_keeps owner false, fieldNode_sprouts owner, by simp⟩

theorem collect_sprouts {build : Nat → Attempt Node} (h : ∀ start, Sprouts source (build start))
    (starts : List Nat) (covered : Nat) : Build.Sprouts source (collect build covered starts) := by
  intro i
  induction starts generalizing covered i with
  | nil => exact Build.Sprouts.nil i
  | cons start starts ih =>
    rw [collect]
    split
    next => exact ih covered i
    next =>
      refine Build.Grows.bind (h start i) fun j r le hr => ?_
      cases r with
      | none => exact (ih covered j).mono fun _ _ _ later => later.since le
      | some n => exact Build.Sprouts.behind (ih _) (hr n rfl)

theorem members_sprouts (depth : Nat) (region : Range) (owner : Option Owner) :
    Build.Sprouts source (members text depth region owner) := by
  induction depth generalizing region owner with
  | zero => exact Build.Sprouts.nil
  | succ depth ih =>
    intro i
    refine Build.Grows.after (Build.Keeps.need _) fun starts _ => ?_
    refine collect_sprouts (fun start => member_sprouts ?_ owner) starts _ i
    exact fun inner innerOwner => ih inner (some innerOwner)

theorem tree_grows (source : Text) :
    Build.Grows source 0 (tree source) fun j n => Grown source 0 j [n] ∧ n.id = j ∧ n.parent = none :=
  Build.Grows.bind (members_sprouts _ _ _ 0) fun _ _ _ grown => Build.Grows.root grown

end SourceTree.Java
