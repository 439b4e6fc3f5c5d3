import SourceTree.Proofs.Go.Growth
import SourceTree.Proofs.Go.Header
import SourceTree.Proofs.Silence

/-!
Where a Go source is read without a report. Parameters, groups and bodies of functions close
somewhere in a well-nested source; a type is looked for in the whole source or in its group, which is
a well-nested region, and its body closes there.
-/

namespace SourceTree.Go

open Attempt (Silent Keeps)
open Pattern (matchFront?_takes)
open Scan (Held Masks MaskedSource WellNested)

variable {text : MaskedSource} {first start stop limit pos : Nat}

theorem single_silent (kind : NodeKind) (d : Draft) :
    Silent (do return (⟨[← Attempt.span kind start stop d], stop⟩ : Declared)) fun _ => True := by
  apply Keeps.bind (Silent.span _ _ _ _)
  intro node _
  exact Keeps.pure trivial

theorem packageDecl_silent : Silent (packageDecl text start) fun _ => True := by
  apply Keeps.bind (Keeps.need _)
  intro code _
  apply Keeps.bind (Keeps.expect _)
  intro m _
  exact single_silent _ _

/-! ### Functions -/

theorem held_whole (hm : Masks text.source text.masked) (nested : WellNested text.masked) :
    Held text.masked 0 text.size := by
  rw [MaskedSource.size, ← hm.size_eq]
  exact nested.held

theorem le_size_of_at? {c : Char} (hm : Masks text.source text.masked)
    (here : Text.at? text.masked pos = some c) : pos ≤ text.size := by
  obtain ⟨front, back, split, rfl⟩ := Text.at?_eq_some here
  rw [MaskedSource.size, ← hm.size_eq, split, Text.size_append]
  exact Nat.le_add_right _ _

theorem code?_of_drop? {code : Text} (h : Text.drop? text.masked start = some code) :
    text.code? start (Text.size text.masked) = some code := by
  obtain ⟨front, split, rfl⟩ := Text.split_of_drop? h
  apply Text.slice?_eq_some_iff.mpr
  exact ⟨front, [], by rw [List.append_nil, split], rfl, by rw [split, Text.size_append]⟩

theorem bodyOpen?_opens {brace : Nat} (h : bodyOpen? text start = some (some brace)) :
    Text.at? text.masked brace = some '\x7b' := by
  obtain ⟨rest, dropped, found⟩ := Option.bind_eq_some_iff.mp h
  obtain ⟨front, split, size⟩ := Text.split_of_drop? dropped
  exact (bodyOpenFrom_opens split size (Option.some.inj found)).2

theorem funcEnd_silent (hm : Masks text.source text.masked) (nested : WellNested text.masked)
    (name : Text) {body : Option Nat} (found : bodyOpen? text start = some body) :
    Silent (funcEnd text name stop body) fun _ => True := by
  cases body with
  | none => exact Keeps.pure trivial
  | some brace =>
    have opens := bodyOpen?_opens found
    have le := le_size_of_at? hm opens
    have whole := held_whole hm nested
    apply Keeps.bind (Attempt.bodyEnds_silent name whole (Nat.zero_le brace) le opens)
    intro ends _
    exact Keeps.pure trivial

theorem funcDecl_silent (hm : Masks text.source text.masked) (nested : WellNested text.masked) :
    Silent (funcDecl text start) fun _ => True := by
  apply Keeps.bind (Keeps.need _)
  intro code dropped
  apply Keeps.bind (Keeps.expect _)
  intro m found
  obtain ⟨rest, matched⟩ := Scan.matched (code?_of_drop? dropped) found
  have opens := (matched.at?_last (funcHeader_match found).1 (by decide)).2
  obtain ⟨close, closes, -⟩ := nested.exists_close (k := .paren) opens
  change Scan.findMatching? text.masked (start + m.stop - 1) '(' ')' = some close at closes
  dsimp only
  rw [closes]
  apply Keeps.bind (receiverPart_keeps m _)
  intro part _
  apply Keeps.bind (typeParameters_keeps m part.2)
  intro d _
  apply Keeps.bind (Keeps.need _)
  intro list _
  apply Keeps.bind (Keeps.need _)
  intro body hbody
  apply Keeps.bind (resultsEnd_keeps body)
  intro last _
  apply Keeps.bind (Keeps.need _)
  intro results _
  apply Keeps.bind (funcEnd_silent hm nested _ hbody)
  intro stop _
  exact single_silent _ _

/-! ### The bodies of types -/

theorem lineFields_silent (start stop : Nat) :
    Build.Silent (lineFields text start stop) fun _ => True := by
  apply Build.Keeps.bind (Build.Keeps.need _)
  intro masked _
  apply Build.Keeps.bind (Build.Keeps.need _)
  intro raw _
  apply Build.Keeps.bind (Build.Keeps.need _)
  intro named _
  dsimp only
  split
  next => exact Build.Keeps.mapM fun name => Build.Silent.span _ _ _ _
  next =>
    split
    next => exact Build.Keeps.pure trivial
    next =>
      apply Build.Keeps.bind (Build.Silent.span _ _ _ _)
      intro node _
      exact Build.Keeps.pure trivial

theorem eachLine_silent {α : Type} {read : Nat → Nat → Build (List α)}
    (h : ∀ start stop, Build.Silent (read start stop) fun _ => True) (pos : Nat) :
    Build.Silent (eachLine text limit read pos) fun _ => True := by
  induction hd : limit - pos using Nat.strongRecOn generalizing pos with
  | ind d ih =>
    rw [eachLine]
    split
    next lt =>
      apply Build.Keeps.bind (Build.Keeps.need _)
      intro stop _
      apply Build.Keeps.bind (h pos stop)
      intro found _
      apply Build.Keeps.bind (Build.Keeps.need _)
      intro next _
      have progress := next.2
      have smaller : limit - next.1 < d := by omega
      apply Build.Keeps.bind (ih (limit - next.1) smaller next.1 rfl)
      intro later _
      exact Build.Keeps.pure trivial
    next => exact Build.Keeps.pure trivial

theorem structFields_silent (start limit : Nat) :
    Build.Silent (structFields text start limit) fun _ => True := by
  apply Build.Keeps.bind (Build.Keeps.need _)
  intro pos _
  exact eachLine_silent lineFields_silent pos

theorem interfaceItem_silent (start stop : Nat) :
    Build.Silent (interfaceItem text start stop) fun _ => True := by
  apply Build.Keeps.bind (Build.Keeps.need _)
  intro masked _
  dsimp only
  split
  next =>
    apply Build.Keeps.bind (Build.Keeps.need _)
    intro list _
    apply Build.Keeps.bind (Build.Keeps.need _)
    intro results _
    apply Build.Keeps.bind (Build.Silent.span _ _ _ _)
    intro node _
    exact Build.Keeps.pure trivial
  next =>
    split
    next => exact Build.Keeps.pure trivial
    next =>
      apply Build.Keeps.bind (Build.Keeps.need _)
      intro embedded _
      exact Build.Keeps.pure trivial

theorem interfaceMembers_silent (start limit : Nat) :
    Build.Silent (interfaceMembers text start limit) fun _ => True := by
  apply Build.Keeps.bind (Build.Keeps.need _)
  intro pos _
  apply Build.Keeps.bind (eachLine_silent interfaceItem_silent pos)
  intro items _
  exact Build.Keeps.pure trivial

/-! ### Items -/

/-- The items are read without a report in every well-nested region. -/
def SilentItem (text : MaskedSource) (item : ItemReader) : Prop :=
  ∀ nodeStart first start limit, Held text.masked first limit → first ≤ start →
    Silent (item nodeStart start limit) fun _ => True

theorem importItem_silent : SilentItem text (importItem text) := by
  intro nodeStart first start limit _ _
  apply Keeps.bind (Keeps.need _)
  intro stop _
  apply Keeps.bind (Keeps.need _)
  intro line _
  apply Keeps.bind (Keeps.expect _)
  intro m _
  exact single_silent _ _

theorem bodyType_silent (held : Held text.masked first limit) (ge : first ≤ start) (name : Text)
    (nodeStart : Nat) {rest : Text} (cut : text.code? start limit = some rest) (d : Draft) :
    Silent (bodyType text name nodeStart start limit rest d) fun _ => True := by
  apply Keeps.bind (Keeps.expect _)
  intro offset found
  obtain ⟨left, x, right, rfl, rfl, hx, -⟩ := Text.find?_eq_some found
  obtain rfl : x = '\x7b' := eq_of_beq hx
  obtain ⟨opens, inside⟩ := Scan.at?_slice cut
  apply Keeps.bind (Attempt.bodyEnds_silent name held (by omega) (by omega) opens)
  intro ends _
  dsimp only
  split
  next =>
    apply Keeps.bind (Keeps.lift (structFields_silent _ _))
    intro fields _
    exact single_silent _ _
  next =>
    apply Keeps.bind (Keeps.lift (interfaceMembers_silent _ _))
    intro members _
    exact single_silent _ _

theorem typeItem_silent : SilentItem text (typeItem text) := by
  intro nodeStart first start limit held ge
  apply Keeps.bind (Keeps.need _)
  intro code _
  apply Keeps.bind (Keeps.expect _)
  intro m _
  apply Keeps.bind (typePlace_keeps m)
  intro ⟨typeStart, d⟩ ⟨behind, _⟩
  apply Keeps.bind (Keeps.need _)
  intro rest cut
  dsimp only
  split
  next => exact bodyType_silent held (Nat.le_trans ge behind) _ _ cut _
  next =>
    apply Keeps.bind (Keeps.need _)
    intro stop _
    apply Keeps.bind (Keeps.need _)
    intro target _
    exact single_silent _ _

theorem valueItem_silent (keyword : Text) : SilentItem text (valueItem text keyword) := by
  intro nodeStart first start limit _ _
  apply Keeps.bind (Keeps.need _)
  intro stop _
  apply Keeps.bind (Keeps.need _)
  intro masked _
  apply Keeps.bind (Keeps.expect _)
  intro names _
  apply Keeps.bind (Keeps.need _)
  intro rest _
  have nodes (type : Option Text) : Silent (do
      let nodes ← ((listedNames names.whole.text).filter (· != ['_'])).mapM fun name =>
        Attempt.span .variableDecl nodeStart stop
          ((access name ((Draft.named name).noteText "declarationKind" keyword)).noteText?
            "typeAnnotation" type)
      return (⟨nodes, stop⟩ : Declared)) fun _ => True := by
    apply Keeps.bind (Keeps.mapM fun name => Silent.span _ _ _ _)
    intro nodes _
    exact Keeps.pure trivial
  dsimp only
  split
  next => exact nodes none
  next =>
    apply Keeps.bind (Keeps.need _)
    intro type _
    exact nodes (some type)

/-! ### Groups -/

variable {item : ItemReader} {close : Nat}

theorem itemOrLine_silent (h : SilentItem text item) (held : Held text.masked first close)
    (ge : first ≤ pos) : Build.Silent (itemOrLine text item close pos) fun _ => True := by
  apply Build.Keeps.bind (h pos first pos close held ge)
  intro r _
  cases r with
  | some declared => exact Build.Keeps.pure trivial
  | none =>
    apply Build.Keeps.bind (Build.Keeps.need _)
    intro stop _
    exact Build.Keeps.pure trivial

theorem groupItems_silent (h : SilentItem text item) (held : Held text.masked first close)
    (ge : first ≤ pos) : Build.Silent (groupItems text item close pos) fun _ => True := by
  induction hd : close - pos using Nat.strongRecOn generalizing pos with
  | ind d ih =>
    rw [groupItems]
    split
    next lt =>
      apply Build.Keeps.bind (itemOrLine_silent h held ge)
      intro declared _
      apply Build.Keeps.bind (Build.Keeps.need _)
      intro next _
      have progress := next.2
      have smaller : close - next.1 < d := by omega
      apply Build.Keeps.bind (ih (close - next.1) smaller (by omega) rfl)
      intro later _
      exact Build.Keeps.pure trivial
    next => exact Build.Keeps.pure trivial

/-- A group closes, and what it encloses is a well-nested region. -/
theorem groupClose_silent (nested : WellNested text.masked) (keyword : Text)
    (opens : Text.at? text.masked start = some '(') :
    Silent (groupClose text keyword start) fun close => Held text.masked (start + 1) close := by
  obtain ⟨close, closes, inner⟩ := nested.exists_close (k := .paren) opens
  change Scan.findMatching? text.masked start '(' ')' = some close at closes
  rw [groupClose, closes]
  exact Keeps.pure inner

theorem grouped_silent (hm : Masks text.source text.masked) (nested : WellNested text.masked)
    (h : SilentItem text item) (keyword : Text) :
    Silent (grouped text keyword item start) fun _ => True := by
  apply Keeps.bind (Keeps.need _)
  intro after _
  split
  next => exact h start 0 after text.size (held_whole hm nested) (Nat.zero_le _)
  next single =>
    have opens : Text.at? text.masked after = some '(' := by simpa using single
    apply Keeps.bind (groupClose_silent nested keyword opens)
    intro close inner
    apply Keeps.bind (Keeps.need _)
    intro pos skip
    have behind := MaskedSource.le_of_skipBlanks? skip
    apply Keeps.bind (Keeps.lift (groupItems_silent h inner behind))
    intro nodes _
    exact Keeps.pure trivial

/-! ### The source -/

theorem declared_silent (hm : Masks text.source text.masked) (nested : WellNested text.masked)
    (keyword : Text) : Silent (declared text keyword start) fun _ => True := by
  unfold declared
  split
  next => exact packageDecl_silent
  next => exact grouped_silent hm nested importItem_silent keyword
  next => exact funcDecl_silent hm nested
  next => exact grouped_silent hm nested typeItem_silent keyword
  next => exact grouped_silent hm nested (valueItem_silent keyword) keyword

theorem declarations_silent (hm : Masks text.source text.masked) (nested : WellNested text.masked)
    (blocks : List Scan.Range) (covered : Nat) (keywords : List Span) :
    Build.Silent (declarations text blocks covered keywords) fun _ => True := by
  induction keywords generalizing covered with
  | nil => exact Build.Keeps.pure trivial
  | cons keyword keywords ih =>
    rw [declarations]
    split
    next => exact ih covered
    next =>
      apply Build.Keeps.bind (declared_silent hm nested keyword.text)
      intro r _
      cases r with
      | none => exact ih covered
      | some found =>
        apply Build.Keeps.bind (ih found.stop)
        intro later _
        exact Build.Keeps.pure trivial

theorem tree_silent {source : Text} (nested : WellNested (Scan.maskBrace source)) :
    Build.Silent (tree source) fun _ => True := by
  have hm : Masks (MaskedSource.ofBrace source).source (MaskedSource.ofBrace source).masked :=
    Scan.maskBrace_masks source
  apply Build.Keeps.bind (declarations_silent hm nested _ 0 _)
  intro children _
  exact Build.Silent.root _ _

end SourceTree.Go
