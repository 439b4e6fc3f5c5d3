import SourceTree.Proofs.Java.Growth
import SourceTree.Proofs.Java.Members
import SourceTree.Proofs.Silence

/-!
Where a Java source is read without a report. Each declaration is looked for in a well-nested
region, its component list, its parameters and its body close there, and the body is handed down as
such a region again.
-/

namespace SourceTree.Java

open Attempt (Silent Keeps)
open Pattern
open Scan (Held MaskedSource Range WellNested)
open Text (Closes)

variable {text : MaskedSource} {first start limit pos : Nat}

theorem packageNode_silent : Silent (packageNode text start limit) fun _ => True := by
  apply Keeps.bind (Keeps.need _)
  intro code _
  apply Keeps.bind (Keeps.expect _)
  intro m _
  exact Silent.span _ _ _ _

theorem importNode_silent : Silent (importNode text start limit) fun _ => True := by
  apply Keeps.bind (Keeps.need _)
  intro code _
  apply Keeps.bind (Keeps.expect _)
  intro m _
  exact Silent.span _ _ _ _

theorem typeParameters_silent (held : Held text.masked first limit) (ge : first ≤ pos)
    (le : pos ≤ limit) (d : Draft) :
    Silent (typeParameters text pos limit d) fun r => first ≤ r.1 ∧ r.1 ≤ limit := by
  unfold typeParameters
  split
  next =>
    apply Keeps.bind (Keeps.expect _)
    intro close found
    apply Keeps.bind (Keeps.need _)
    intro params _
    apply Keeps.bind (Keeps.need _)
    intro next skip
    obtain ⟨behind, inside, -⟩ := Scan.closes_before (by decide) found
    have further := MaskedSource.le_of_skipBlanks? skip
    exact Keeps.pure ⟨by omega, held.skipBlanks?_le inside skip⟩
  next => exact Keeps.pure ⟨ge, le⟩

theorem recordComponents_silent (name : Text) (held : Held text.masked first limit)
    (ge : first ≤ pos) (le : pos ≤ limit) (d : Draft) :
    Silent (recordComponents text name pos limit d) fun r => first ≤ r.1 ∧ r.1 ≤ limit := by
  unfold recordComponents
  split
  next opens =>
    obtain ⟨close, found, -⟩ := held.exists_close (k := .paren) ge le (eq_of_beq opens)
    change Scan.findMatchingBefore? text.masked pos limit '(' ')' = some close at found
    obtain ⟨behind, inside, -⟩ := Scan.closes_before (by decide) found
    rw [found]
    apply Keeps.bind (Keeps.need _)
    intro components _
    exact Keeps.pure ⟨by omega, inside⟩
  next => exact Keeps.pure ⟨ge, le⟩

theorem typeRest_silent (front : Front) (keyword name : Text) (held : Held text.masked first limit)
    (ge : first ≤ pos) (d : Draft) :
    Silent (typeRest text front keyword name pos limit d) fun head =>
      Held text.masked head.body.start head.body.stop := by
  apply Keeps.bind (Keeps.expect _)
  intro header cut
  apply Keeps.bind (Keeps.expect _)
  intro offset found
  obtain ⟨left, x, right, rfl, rfl, hx, -⟩ := Text.find?_eq_some found
  obtain rfl : x = '\x7b' := eq_of_beq hx
  obtain ⟨opens, inside⟩ := Scan.at?_slice cut
  apply Keeps.bind (Keeps.need _)
  intro code _
  apply Keeps.bind (Keeps.check _)
  intro _ _
  apply Keeps.bind (Attempt.bodyEnds_silent name held (by omega) (by omega) opens)
  intro ⟨bodyEnd, stop⟩ inner
  apply Keeps.bind (Keeps.need _)
  intro lists _
  exact Keeps.pure inner

theorem typeHead_silent (held : Held text.masked first limit) (ge : first ≤ start) :
    Silent (typeHead text start limit) fun head =>
      Held text.masked head.body.start head.body.stop := by
  apply Keeps.bind (Keeps.need _)
  intro code cut
  apply Keeps.bind (Keeps.expect _)
  intro m found
  obtain ⟨rest, matched⟩ := Scan.matched cut found
  apply Keeps.bind (Keeps.need _)
  intro front _
  apply Keeps.bind (Keeps.need _)
  intro pos skip
  have ge' := MaskedSource.le_of_skipBlanks? skip
  have le' := held.skipBlanks?_le matched.le skip
  apply Keeps.bind (typeParameters_silent held (by omega) le' _)
  intro ⟨pos, d⟩ ⟨ge, le⟩
  dsimp only
  split
  next =>
    apply Keeps.bind (recordComponents_silent _ held ge le d)
    intro ⟨pos, d⟩ ⟨ge, le⟩
    exact typeRest_silent front _ _ held ge d
  next =>
    rw [pure_bind]
    exact typeRest_silent front _ _ held ge d

/-- Bodies are read without a report wherever the scanner hands them down. -/
def SilentBody (text : MaskedSource) (body : Range → Owner → Build (List Node)) : Prop :=
  ∀ region owner, Held text.masked region.start region.stop →
    Build.Silent (body region owner) fun _ => True

theorem typeNode_silent {body : Range → Owner → Build (List Node)} (hb : SilentBody text body)
    (held : Held text.masked first limit) (ge : first ≤ start) :
    Silent (typeNode text body start limit) fun _ => True := by
  apply Keeps.bind (typeHead_silent held ge)
  intro head inner
  apply Keeps.bind (Keeps.lift (hb head.body head.owner inner))
  intro members _
  exact Silent.span _ _ _ _

theorem callableEnd_silent (name : Text) (held : Held text.masked first limit) (ge : first ≤ pos) :
    Silent (callableEnd text name pos limit) fun _ => True := by
  apply Keeps.bind (Keeps.expect _)
  intro rest cut
  apply Keeps.bind (Keeps.expect _)
  intro offset found
  split
  next opens =>
    obtain ⟨left, right, rfl, rfl⟩ := Text.at?_eq_some (eq_of_beq opens)
    obtain ⟨opens, inside⟩ := Scan.at?_slice cut
    apply Keeps.bind (Attempt.bodyEnds_silent name held (by omega) (by omega) opens)
    intro ends _
    exact Keeps.pure trivial
  next => exact Keeps.pure trivial

theorem stops_constructorHeader : Stops (· = '(') constructorHeader :=
  (stops_lit (by decide)).append

theorem stops_methodHeader : Stops (· = '(') methodHeader :=
  (stops_lit (by decide)).append

/-- A header that ends with the parenthesis that opens the parameters. -/
theorem callableNode_silent {head : Nat → Nat → Attempt CallableHeader} {p : Pattern}
    (paren : Stops (· = '(') p)
    (hh : Silent (head start limit) fun head => ∃ code, text.code? start limit = some code ∧
      p.matchFront? code = some head.found)
    (owner : Owner) (isConstructor : Bool) (held : Held text.masked first limit)
    (ge : first ≤ start) :
    Silent (callableNode text owner head isConstructor start limit) fun _ => True := by
  apply Keeps.bind hh
  intro ⟨m, name, returnType⟩ ⟨code, cut, found⟩
  obtain ⟨rest, matched⟩ := Scan.matched cut found
  obtain ⟨-, -, -, takes⟩ := matchFront?_takes found
  obtain ⟨positive, opens⟩ := matched.at?_last (takes.closes paren) (by decide)
  have inside := matched.le
  obtain ⟨close, closed, -⟩ := held.exists_close (k := .paren) (by omega) (by omega) opens
  have found : Scan.findMatchingBefore? text.masked (start + m.stop - 1) limit '(' ')' =
      some close := closed
  obtain ⟨behind, -, -⟩ := Scan.closes_before (by decide) found
  apply Keeps.bind (Keeps.need _)
  intro front _
  apply Keeps.bind (callableTypeParameters_keeps m)
  intro typeParams _
  dsimp only
  rw [found]
  apply Keeps.bind (Keeps.need _)
  intro parameters _
  apply Keeps.bind (callableEnd_silent name held (by omega))
  intro ends _
  exact Silent.span _ _ _ _

theorem fieldNode_silent (owner : Owner) :
    Silent (fieldNode text owner start limit) fun _ => True := by
  apply Keeps.bind (Keeps.need _)
  intro code _
  apply Keeps.bind (Keeps.expect _)
  intro m _
  apply Keeps.bind (Keeps.need _)
  intro front _
  apply Keeps.bind (Keeps.expect _)
  intro type _
  apply Keeps.bind (Keeps.check _)
  intro _ _
  apply Keeps.bind (Keeps.need _)
  intro typeText _
  apply Keeps.bind (Keeps.need _)
  intro stop _
  exact Silent.span _ _ _ _

theorem member_silent {body : Range → Owner → Build (List Node)} (hb : SilentBody text body)
    (owner : Option Owner) (held : Held text.masked first limit) (ge : first ≤ start) :
    Silent (member text body owner limit start) fun _ => True := by
  cases owner with
  | none =>
    apply Keeps.firstOf
    simp only [List.forall_mem_cons]
    exact ⟨packageNode_silent, importNode_silent, typeNode_silent hb held ge, by simp⟩
  | some owner =>
    apply Keeps.firstOf
    simp only [List.forall_mem_cons]
    exact ⟨typeNode_silent hb held ge,
      callableNode_silent stops_constructorHeader (constructorHead_keeps owner) owner true held ge,
      callableNode_silent stops_methodHeader methodHead_keeps owner false held ge,
      fieldNode_silent owner, by simp⟩

theorem collect_silent {build : Nat → Attempt Node} {starts : List Nat}
    (h : ∀ start ∈ starts, Silent (build start) fun _ => True) (covered : Nat) :
    Build.Silent (collect build covered starts) fun _ => True := by
  induction starts generalizing covered with
  | nil => exact Build.Keeps.pure trivial
  | cons start starts ih =>
    obtain ⟨here, later⟩ := List.forall_mem_cons.mp h
    rw [collect]
    split
    next => exact ih later covered
    next =>
      apply Build.Keeps.bind here
      intro r _
      cases r with
      | none => exact ih later covered
      | some node =>
        apply Build.Keeps.bind (ih later node.location.endIndex)
        intro nodes _
        exact Build.Keeps.pure trivial

/-- By induction on the depth: a body is a well-nested region again. -/
theorem members_silent (depth : Nat) (region : Range) (owner : Option Owner)
    (held : Held text.masked region.start region.stop) :
    Build.Silent (members text depth region owner) fun _ => True := by
  induction depth generalizing region owner with
  | zero => exact Build.Keeps.pure trivial
  | succ depth ih =>
    obtain ⟨starts, found, placed⟩ :=
      Scan.exists_memberStarts? held.boundary_first held.boundary_limit
    apply Build.Keeps.bind (Build.Keeps.need _)
    intro starts' found'
    obtain rfl : starts = starts' := Option.some.inj (found.symm.trans found')
    apply collect_silent
    intro start mem
    have ge := (placed start mem).1
    exact member_silent (fun inner innerOwner => ih inner (some innerOwner)) owner held ge

theorem tree_silent {source : Text} (h : WellNested (Scan.maskBrace source)) :
    Build.Silent (tree source) fun _ => True := by
  have whole : Held (Scan.maskBrace source) 0 (Text.size source) := by
    rw [← (Scan.maskBrace_masks source).size_eq]
    exact h.held
  apply Build.Keeps.bind (members_silent _ ⟨0, Text.size source⟩ none whole)
  intro children _
  exact Build.Silent.root _ _

end SourceTree.Java
