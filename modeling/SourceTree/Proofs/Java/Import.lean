import SourceTree.Java.Linkage
import SourceTree.Proofs.Draft
import SourceTree.Proofs.Java.Growth
import SourceTree.Proofs.Linkage
import SourceTree.Proofs.Pattern.Local
import SourceTree.Proofs.Scan.Code

/-!
Java imports are found in the mask and read again from the source. Without a comment the two are the
same, and what was matched at the front of a longer text is matched alone too; with a comment the
second reading stops at its slash.
-/

namespace SourceTree.Java

open Pattern
open Scan (MaskedSource Range)
open Text (Opens Closes)

variable {source : Text} {i start limit : Nat} {w t : Text} {gs : Groups} {m : Match}

/-- A statement runs from its keyword to its only semicolon. -/
theorem importStatement_takes (h : Takes importStatement 0 w gs) :
    Opens (· = 'i') w ∧ ∃ init, w = init ++ [';'] ∧ ';' ∉ init := by
  constructor
  · exact h.opens (starts_lit (by decide)).append.append.append.append.append.append
  · obtain ⟨init, last, g, g', rfl, -, front, semicolon⟩ := h
    obtain ⟨rfl, -⟩ := takes_lit semicolon
    exact ⟨init, rfl, front.not_mem (by decide)⟩

theorem importStatement_unquoted (h : Takes importStatement 0 w gs) :
    ∀ c ∈ w, c ≠ '\x22' ∧ c ≠ '\x27' ∧ c ≠ '\x60' := by
  have double : '\x22' ∉ w := h.not_mem (by decide)
  have single : '\x27' ∉ w := h.not_mem (by decide)
  have tick : '\x60' ∉ w := h.not_mem (by decide)
  intro c hc
  refine ⟨?_, ?_, ?_⟩ <;> rintro rfl <;> contradiction

/-- A slash in front of the semicolon ends the search for it. -/
theorem importStatement_slash {a b : Text} (unfinished : ';' ∉ a) :
    importStatement.matchFront? (a ++ '/' :: b) = none := by
  cases found : importStatement.matchFront? (a ++ '/' :: b) with
  | none => rfl
  | some m =>
    obtain ⟨rest, split, -, takes⟩ := matchFront?_takes found
    obtain ⟨-, init, whole, -⟩ := importStatement_takes takes
    obtain ⟨more, ha⟩ := Text.prefix_of_not_mem split.symm (takes.not_mem (by decide))
    exact absurd (by simp [← ha, whole]) unfinished

/-- The text of an import cannot be read again if it holds a comment, that is, a slash. -/
def isGarbled (text : Text) : Bool := decide ('/' ∈ text)

/-- From the text of a node the match is found again by which the node was made, unless there is a
comment in between. -/
theorem importStatement_reread {code : Text}
    (hc : (MaskedSource.ofBrace source).code? start limit = some code)
    (found : importStatement.matchFront? code = some m)
    (ht : Text.slice? source start (start + m.stop) = some t) :
    importStatement.matchFront? (Text.trim t) = if isGarbled t then none else some m := by
  obtain ⟨rest, found, masked, stop, -, -⟩ := Scan.matched hc found
  obtain ⟨-, -, -, takes⟩ := matchFront?_takes found
  obtain ⟨opens, init, whole, only⟩ := importStatement_takes takes
  have piece : Text.slice? (Scan.maskBrace source) start (start + m.stop) = some m.whole.text := by
    obtain ⟨front, back, split, size, -⟩ := Text.slice?_eq_some_iff.mp masked
    refine Text.slice?_eq_some_iff.mpr ⟨front, rest ++ back, ?_, size, by rw [stop]⟩
    have same : Scan.maskBrace source = front ++ (m.whole.text ++ rest) ++ back := split
    rw [same]
    simp
  have code : Opens (¬Scan.Faint ·) m.whole.text := opens.mono (by simp; decide)
  rcases Scan.slice_until_slash piece ht code (importStatement_unquoted takes) with rfl | cut
  · have plain : isGarbled m.whole.text = false := by
      have slash : '/' ∉ m.whole.text := takes.not_mem (by decide)
      simp [isGarbled, slash]
    have solid : Text.trim m.whole.text = m.whole.text := by
      apply Text.trim_of_solid
      · exact opens.mono (by simp; decide)
      · exact ⟨init, ';', whole, by decide⟩
    rw [solid, plain]
    exact matchFront?_cut (by decide) found (List.prefix_refl _)
  · obtain ⟨a, b, _, rfl, split, x, r, rfl, slash⟩ := cut
    have garbled : isGarbled (a ++ '/' :: b) = true := by simp [isGarbled]
    have opens : Opens (fun c => Text.isBlank c = false) (a ++ '/' :: b) := by
      obtain ⟨c, r', hw, rfl⟩ := opens
      rw [split] at hw
      cases a with
      | nil =>
        obtain ⟨rfl, -⟩ := List.cons.inj hw
        simp at slash
      | cons y a =>
        obtain ⟨rfl, -⟩ := List.cons.inj hw
        exact ⟨'i', a ++ '/' :: b, rfl, by decide⟩
    -- The semicolon of the mask lies behind the slash.
    have unfinished : ';' ∉ a := by
      intro mem
      rw [split] at whole
      rcases List.append_eq_append_iff.mp whole with ⟨more, rfl, -⟩ | ⟨more, rfl, last⟩
      · exact only (List.mem_append_left _ mem)
      · cases more with
        | nil => exact only (by simpa using mem)
        | cons y more => simp at last
    obtain ⟨b', -, trimmed⟩ := Text.exists_trim opens (by decide)
    rw [garbled, if_pos rfl, trimmed]
    exact importStatement_slash unfinished

theorem importNode_reread :
    Attempt.Grows source i (importNode (MaskedSource.ofBrace source) start limit) fun _ =>
      Node.Reread nodeImport isGarbled := by
  apply Attempt.Grows.after (Attempt.Keeps.need _)
  intro code hc
  apply Attempt.Grows.after (Attempt.Keeps.expect _)
  intro m found
  apply Attempt.Grows.lift
  apply (Build.Grows.cuts _ _ _ _).mono
  intro _ n _ made _
  obtain ⟨-, name, t, ht, text⟩ := made
  refine ⟨t, text, ?_⟩
  have again := importStatement_reread hc found ht
  cases garbled : isGarbled t with
  | true =>
    rw [garbled, if_pos rfl] at again
    simp [nodeImport, text, again]
  | false =>
    simp only [garbled, Bool.false_eq_true, if_false] at again
    simp only [nodeImport, text, Option.bind_eq_bind, Option.bind_some, String.toList_ofList, again]
    exact ⟨_, rfl, name.trans (Draft.Notes.noteIf _ _ _).name, rfl⟩

theorem member_reread {body : Range → Owner → Build (List Node)}
    (hb : ∀ region owner, Build.Sprouts source (body region owner)) :
    Attempt.Grows source i (member (MaskedSource.ofBrace source) body none limit start) fun _ =>
      Node.Reread nodeImport isGarbled := by
  apply Attempt.Grows.firstOf
  simp only [List.forall_mem_cons]
  refine ⟨fun k _ => ?_, fun k _ => importNode_reread, fun k _ => ?_, by simp⟩
  · apply Attempt.Grows.after (Attempt.Keeps.need _)
    intro code _
    apply Attempt.Grows.after (Attempt.Keeps.expect _)
    intro m _
    exact Attempt.Grows.span_reread (by decide)
  · apply Attempt.Grows.after typeHead_quiet
    intro head _
    apply Attempt.Grows.bind (Attempt.Grows.lift (hb _ _ k))
    intro j members _ _
    apply Attempt.Grows.span_reread
    split <;> decide

theorem collect_forall {P : Node → Prop} {build : Nat → Attempt Node}
    (h : ∀ start i, Attempt.Grows source i (build start) fun _ => P) (starts : List Nat)
    (covered : Nat) :
    Build.Grows source i (collect build covered starts) fun _ ns => ∀ n ∈ ns, P n := by
  induction starts generalizing covered i with
  | nil => exact Build.Grows.pure (by simp)
  | cons start starts ih =>
    rw [collect]
    split
    next => exact ih covered
    next =>
      apply Build.Grows.bind (h start i)
      intro j r _ hr
      cases r with
      | none => exact ih covered
      | some n =>
        apply Build.Grows.bind (ih _)
        intro k ns _ later
        exact Build.Grows.pure (List.forall_mem_cons.mpr ⟨hr n rfl, later⟩)

/-- Every import of a file can be read again from its node if it holds no comment. -/
theorem tree_reread (source : Text) :
    Build.Grows source 0 (tree source) fun _ root =>
      ∀ n ∈ root.children, n.Reread nodeImport isGarbled := by
  have members : Build.Grows source 0
      (members (MaskedSource.ofBrace source) (Text.size source + 1) ⟨0, Text.size source⟩ none)
      fun _ ns => ∀ n ∈ ns, n.Reread nodeImport isGarbled := by
    apply Build.Grows.after (Build.Keeps.need _)
    intro starts _
    apply collect_forall
    intro start i
    apply member_reread
    intro inner owner
    exact members_sprouts _ inner (some owner)
  apply Build.Grows.bind members
  intro j children _ reread
  exact Build.Grows.root_reread reread fun _ _ => rfl

end SourceTree.Java
