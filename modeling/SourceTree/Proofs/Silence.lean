import SourceTree.Proofs.Keeps
import SourceTree.Proofs.Scan.Nesting
import SourceTree.Proofs.Scan.Piece

/-!
Steps that report nothing. What is reported is only that something is left open, so a step is silent
where the scanner stands in a well-nested region.
-/

namespace SourceTree

open Scan (Held MaskedSource)

variable {α : Type}

namespace Build

/-- When the step succeeds it has reported nothing. -/
abbrev Silent (m : Build α) (post : α → Prop) : Prop := Keeps Builder.diagnostics m post

theorem Silent.span (kind : NodeKind) (start stop : Nat) (d : Draft) :
    Silent (Build.span kind start stop d) fun _ => True := by
  intro b n b' run
  obtain ⟨t, -, -, rfl⟩ := span_eq_some run
  exact ⟨rfl, trivial⟩

theorem Silent.root (kind : NodeKind) (children : List Node) :
    Silent (Build.root kind children) fun _ => True := by
  intro b n b' run
  exact Silent.span kind 0 (Text.size b.source) { children := children } b n b' run

/-- A file holds what has been reported while its tree was built. -/
theorem Silent.of_file? {path : String} {language : Language} {source : Text} {tree : Build Node}
    {file : ParsedFile} {post : Node → Prop} (h : Silent tree post)
    (parsed : file? path language source tree = some file) : file.diagnostics = [] := by
  obtain ⟨⟨root, b⟩, run, made⟩ := Option.bind_eq_some_iff.mp parsed
  obtain rfl := Option.some.inj made
  exact (h _ root b run).1

end Build

namespace Attempt

abbrev Silent (m : Attempt α) (post : α → Prop) : Prop := Keeps Builder.diagnostics m post

theorem Silent.span (kind : NodeKind) (start stop : Nat) (d : Draft) :
    Silent (Attempt.span kind start stop d) fun _ => True :=
  Keeps.lift (Build.Silent.span kind start stop d)

variable {text : MaskedSource} {first limit brace : Nat}

/-- A body that opens in a well-nested region ends in it and is such a region. -/
theorem bodyEnds_silent (name : Text) (held : Held text.masked first limit) (ge : first ≤ brace)
    (le : brace ≤ limit) (opens : Text.at? text.masked brace = some '\x7b') :
    Silent (bodyEnds text name brace limit) fun ends => Held text.masked (brace + 1) ends.1 := by
  obtain ⟨close, found, inner⟩ := held.exists_close (k := .brace) ge le opens
  change Scan.findMatchingBefore? text.masked brace limit '\x7b' '\x7d' = some close at found
  rw [bodyEnds, found]
  exact Keeps.pure inner

end Attempt

end SourceTree
