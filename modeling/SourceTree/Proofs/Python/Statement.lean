import SourceTree.Proofs.Python.Header
import SourceTree.Proofs.Python.Stranded

/-!
When a single statement cannot be built: only where an annotation is stranded and the statement is
looked at as an annotation.
-/

namespace SourceTree.Python

open Pattern
open Scan (LogicalLine LiesIn Masks maskIndent)
open Text (Boundary)

variable {source : Text} {cx : Context} {line : LogicalLine}

/-- The context reads the source through its mask. -/
def Context.Reads (cx : Context) (source : Text) : Prop := cx.text = ⟨source, maskIndent source⟩

theorem code_safe (hcx : cx.Reads source) (hl : LiesIn source line) :
    Build.Safe source (cx.code line) fun code => code = maskIndent line.content := by
  refine Build.Safe.need ⟨maskIndent line.content, ?_, rfl⟩
  rw [Context.code?, hcx]
  exact hl.slice_mask

/-- A statement ends where its code does. -/
theorem statement_safe (hcx : cx.Reads source) (hl : LiesIn source line) :
    Build.Safe source (cx.statement line) fun s => s.1 = line.contentStart ∧
      ∃ t, Text.slice? source s.1 s.2 = some t := by
  refine Build.Safe.bind (code_safe hcx hl) fun code hcode => ?_
  subst hcode
  refine Build.Safe.pure ⟨rfl, ?_⟩
  have masks := Scan.maskIndent_masks line.content
  have stop : Boundary line.content (Text.size (Text.trimEnd (maskIndent line.content))) := by
    obtain ⟨tail, ht, -, closes⟩ := Text.trimEnd_split (maskIndent line.content)
    rcases closes with empty | closes
    · rw [empty]
      exact Text.boundary_zero _
    · have edge : Text.Edge (Text.trimEnd (maskIndent line.content) ++ tail) _ :=
        (closes.mono fun _ => Text.ne_space_of_not_blank).edge
      rw [← ht] at edge
      exact masks.boundary_of_edge edge
  obtain ⟨t, ht⟩ := Text.exists_slice?_iff.mpr
    ⟨Nat.zero_le _, Text.boundary_zero line.content, stop⟩
  exact ⟨t, Text.slice?_slice? hl.slice_content ht⟩

/-- An import is found exactly where the code names a module. -/
theorem importNode_safe (hcx : cx.Reads source) (hl : LiesIn source line) :
    Build.Safe source (importNode cx line).run fun r =>
      r.isSome = (importedModule? (maskIndent line.content)).isSome := by
  change Build.Safe source (OptionT.lift (cx.code line) >>= _).run _
  rw [Attempt.run_lift_bind]
  refine Build.Safe.bind (code_safe hcx hl) fun code hcode => ?_
  subst hcode
  cases importedModule? (maskIndent line.content) with
  | none =>
    rw [Attempt.expect_none_bind]
    exact Build.Safe.pure rfl
  | some module =>
    rw [Attempt.expect_some_bind]
    change Build.Safe source (OptionT.lift (cx.statement line) >>= _).run _
    rw [Attempt.run_lift_bind]
    refine Build.Safe.bind (statement_safe hcx hl) fun ⟨start, stop⟩ ⟨_, hspan⟩ => ?_
    exact Build.Safe.bind (Build.Safe.span hspan) fun _ _ => Build.Safe.pure rfl

theorem exists_type_slice (hl : LiesIn source line) (h : ¬Stranded line.content) {m : Match}
    {type : Span} (hm : (assignment.matchFront? (maskIndent line.content)).or
      (annotatedName.matchFront? (maskIndent line.content)) = some m)
    (hk : String.ofList (m.groupText 1) ∉ keywords) (ht : m.group? 2 = some type) :
    ∃ t, Text.slice? line.content type.start type.stop = some t := by
  rcases Option.or_eq_some_iff.mp hm with hm | ⟨-, hm⟩
  · exact assignment_slice (Scan.maskIndent_masks line.content) hm ht
  · obtain ⟨ending, one⟩ := hl.unbroken
    have start : Boundary line.content type.start := by
      apply Classical.byContradiction
      exact fun inside => h (stranded_of_not_boundary one hm hk ht inside)
    obtain ⟨type', ht', stop⟩ := annotatedName_type hm
    obtain rfl := Option.some.inj (ht.symm.trans ht')
    refine Text.exists_slice?_iff.mpr ⟨Nat.le_add_right _ _, start, ?_⟩
    rw [stop]
    exact Text.boundary_size line.content

theorem assignmentNode_safe (hcx : cx.Reads source) (hl : LiesIn source line) (scope : Scope)
    (h : ¬Stranded line.content) :
    Attempt.Safe source (assignmentNode cx line scope) fun _ => True := by
  refine Attempt.Safe.lift_bind (code_safe hcx hl) fun code hcode => ?_
  subst hcode
  refine Attempt.Settles.bind (Attempt.Safe.expect fun m hm => hm) fun m hm => ?_
  refine Attempt.Settles.bind (Attempt.Safe.check _) fun _ keyword => ?_
  refine Attempt.Safe.lift_bind (statement_safe hcx hl) fun ⟨start, stop⟩ ⟨hstart, hspan⟩ => ?_
  obtain rfl : start = line.contentStart := hstart
  have node (d : Draft) : Attempt.Safe source
      (if scope == .classBody then Attempt.span .property line.contentStart stop d
        else Attempt.span .variableDecl line.contentStart stop
          (d.note "exported" (.bool (cx.isExported (m.groupText 1))))) fun _ => True := by
    split <;> exact (Attempt.Safe.span hspan).mono fun _ _ => trivial
  dsimp only
  split
  next type ht =>
    have hk : String.ofList (m.groupText 1) ∉ keywords := by simpa using keyword
    obtain ⟨t, hslice⟩ := exists_type_slice hl h hm hk ht
    have found : cx.text.text? (line.contentStart + type.start) (line.contentStart + type.stop) =
        some t := by
      rw [hcx]
      exact Text.slice?_slice? hl.slice_content hslice
    refine Attempt.Settles.bind (Attempt.Safe.need_some found) fun text _ => ?_
    rw [pure_bind]
    exact node _
  next =>
    rw [pure_bind]
    exact node _

theorem assignmentNode_fails (hcx : cx.Reads source) (hl : LiesIn source line) (scope : Scope)
    (h : Stranded line.content) :
    Attempt.Settles source True (assignmentNode cx line scope) fun _ => True := by
  obtain ⟨none, m, type, hm, hk, ht, le, inside⟩ := h.matches
  refine Attempt.Safe.lift_bind (code_safe hcx hl) fun code hcode => ?_
  subst hcode
  have keyword : (!keywords.contains (String.ofList (m.groupText 1))) = true := by simpa using hk
  rw [none, hm, Option.none_or, Attempt.expect_some_bind]
  dsimp only
  rw [keyword, Attempt.check_true, Attempt.expect_some_bind]
  refine Attempt.Safe.lift_bind (statement_safe hcx hl) fun ⟨start, stop⟩ ⟨hstart, _⟩ => ?_
  obtain rfl : start = line.contentStart := hstart
  have missing : cx.text.text? (line.contentStart + type.start) (line.contentStart + type.stop) =
      Option.none := by
    rw [hcx, Option.eq_none_iff_forall_ne_some]
    intro t hslice
    have boundary := (Text.exists_slice?_iff.mp ⟨t, hslice⟩).2.1
    exact inside (boundary.of_slice hl.slice_content le)
  dsimp only
  rw [ht]
  dsimp only
  rw [missing]
  exact Attempt.Settles.need_none_bind

theorem assignmentNode_settles (hcx : cx.Reads source) (hl : LiesIn source line) (scope : Scope) :
    Attempt.Settles source (Stranded line.content) (assignmentNode cx line scope) fun _ => True := by
  by_cases h : Stranded line.content
  · exact (assignmentNode_fails hcx hl scope h).congr ⟨fun _ => h, fun _ => trivial⟩
  · exact (assignmentNode_safe hcx hl scope h).congr ⟨False.elim, h⟩

/-- The line is looked at as an annotation and stranded. A module looks for an import first, and the
body of a function is not looked at. -/
def Fatal (scope : Scope) (line : LogicalLine) : Prop :=
  Stranded line.content ∧ (scope = .classBody ∨
    scope = .moduleBody ∧ importedModule? (maskIndent line.content) = none)

theorem simpleStatement_settles (hcx : cx.Reads source) (hl : LiesIn source line) (scope : Scope) :
    Build.Settles source (Fatal scope line) (simpleStatement cx scope line) fun _ => True := by
  have assigned : Build.Settles source (Stranded line.content) (assignmentNode cx line scope).run
      fun _ => True := Build.Settles.mono (assignmentNode_settles hcx hl scope) fun _ _ => trivial
  have nodes (found : Option Node) :
      Build.Safe source (pure found.toList) fun _ => True := Build.Safe.pure trivial
  unfold simpleStatement
  cases scope with
  | moduleBody =>
    refine Build.Settles.bind_safe ?_ fun found (_ : True) => nodes found
    refine Build.Safe.bind (importNode_safe hcx hl) fun r hr => ?_
    cases r with
    | some node =>
      refine (Build.Safe.pure trivial).congr ⟨False.elim, fun fatal => ?_⟩
      obtain ⟨-, no | ⟨-, no⟩⟩ := fatal
      · exact Scope.noConfusion no
      · simp [no] at hr
    | none =>
      have missing : importedModule? (maskIndent line.content) = none := by simpa using hr.symm
      refine Build.Settles.congr (Build.Settles.bind_safe assigned fun r _ => ?_)
        (by simp [Fatal, missing])
      cases r with
      | some node => exact Build.Safe.pure trivial
      | none => exact Build.Safe.pure trivial
  | classBody =>
    exact (Build.Settles.bind_safe assigned fun found _ => nodes found).congr (by simp [Fatal])
  | functionBody =>
    exact (nodes none).congr (by simp [Fatal])

end SourceTree.Python
