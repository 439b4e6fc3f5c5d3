import SourceTree.Go.Linkage
import SourceTree.Proofs.Go.Growth
import SourceTree.Proofs.Go.Preface
import SourceTree.Proofs.Linkage
import SourceTree.Proofs.Scan.Code

/-!
The imports of a Go tree. The node of an import that stands alone begins at its keyword, and the node
of an import in a group begins behind it, so only the first can be garbled.
-/

namespace SourceTree.Go

open Scan (MaskedSource)
open Text (Opens)

variable {source line t path : Text} {text : MaskedSource} {nodeStart start stop limit pos i : Nat}
  {m : Match}

/-- In the mask the keyword stands at `nodeStart`, and from there to `start` there are only blanks. -/
def Keyed (source : Text) (nodeStart start : Nat) : Prop :=
  ∃ gap, Text.slice? (Scan.maskBrace source) nodeStart start = some ("import".toList ++ gap) ∧
    ∀ c ∈ gap, Text.isBlank c = true

theorem Keyed.le (h : Keyed source nodeStart start) : nodeStart ≤ start := by
  obtain ⟨gap, masked, -⟩ := h
  obtain ⟨front, back, -, -, rfl⟩ := Text.slice?_eq_some_iff.mp masked
  exact Nat.le_add_right ..

/-- In the source there may be a comment behind the keyword. -/
theorem Keyed.piece (h : Keyed source nodeStart start)
    (ht : Text.slice? source nodeStart start = some t) :
    ∃ gap, (∀ c ∈ gap, Text.isBlank c = true) ∧
      (t = "import".toList ++ gap ∨ ∃ b, t = "import".toList ++ (gap ++ '/' :: b)) := by
  obtain ⟨gap, masked, blank⟩ := h
  have code : Opens (¬Scan.Faint ·) ("import".toList ++ gap) := ⟨'i', _, rfl, by decide⟩
  have absent {x : Char} (hx : Inked x) (other : x ∉ "import".toList) :
      x ∉ "import".toList ++ gap := by
    rw [List.mem_append, not_or]
    exact ⟨other, not_mem_gap blank hx⟩
  have unquoted : ∀ c ∈ "import".toList ++ gap, c ≠ '\x22' ∧ c ≠ '\x27' ∧ c ≠ '\x60' := by
    intro c hc
    refine ⟨?_, ?_, ?_⟩ <;> rintro rfl <;> exact absent (by decide) (by decide) hc
  rcases Scan.slice_until_slash masked ht code unquoted with same | cut
  · exact ⟨gap, blank, .inl same⟩
  · obtain ⟨a, b, _, rfl, split, c, r, rfl, hc⟩ := cut
    have letters : c ∉ "import".toList := by
      rcases hc with rfl | rfl <;> decide
    obtain ⟨more, rfl⟩ := Text.prefix_of_not_mem split letters
    rw [List.append_assoc, List.append_cancel_left_eq] at split
    have kept : ∀ x ∈ more, Text.isBlank x = true := by
      intro x hx
      apply blank
      simp [split, hx]
    exact ⟨more, kept, .inr ⟨b, by simp⟩⟩

/-- The text of a node is read again as the piece that the node was made from. -/
theorem readsAgain_piece (place : nodeStart = start ∨ Keyed source nodeStart start)
    (hline : Text.slice? source start stop = some line)
    (ht : Text.slice? source nodeStart stop = some t)
    (found : importSpec.matchFront? line = some m) :
    ReadsAgain t (m.groupText 2) := by
  rcases place with rfl | keyed
  · obtain rfl := Option.some.inj (hline.symm.trans ht)
    exact readsAgain_item found
  · obtain ⟨first, hfirst, rfl⟩ := Text.slice?_split keyed.le ht hline
    obtain ⟨gap, blank, rfl | ⟨b, rfl⟩⟩ := keyed.piece hfirst
    · rw [List.append_assoc]
      exact readsAgain_keyed found blank
    · have hidden := readsAgain_slash blank (b ++ line) (m.groupText 2)
      simpa using hidden

theorem reread_of_readsAgain {n : Node} (text : n.text = some (String.ofList t))
    (name : n.name = some (String.ofList path)) (h : ReadsAgain t path) :
    n.Reread nodeImport isGarbled := by
  intro
  refine ⟨t, text, ?_⟩
  rw [ReadsAgain] at h
  split
  next garbled =>
    rw [if_pos garbled] at h
    simp [nodeImport, text, h]
  next legible =>
    rw [if_neg legible] at h
    obtain ⟨m, found, rfl⟩ := h
    simp only [nodeImport, text, Option.bind_eq_bind, Option.bind_some, String.toList_ofList, found]
    split
    next => exact ⟨_, rfl, name, rfl⟩
    next =>
      split
      next => exact ⟨_, rfl, name, rfl⟩
      next =>
        split
        next => exact ⟨_, rfl, name, rfl⟩
        next => exact ⟨_, rfl, name, rfl⟩

/-- From every count on, the imports that the declaration makes can be read again. -/
def Rereads (source : Text) (m : Attempt Declared) : Prop :=
  ∀ i, Attempt.Grows source i m fun _ d => ∀ n ∈ d.nodes, n.Reread nodeImport isGarbled

theorem importItem_rereads (place : nodeStart = start ∨ Keyed source nodeStart start) :
    Rereads source (importItem (MaskedSource.ofBrace source) nodeStart start limit) := by
  intro i
  apply Attempt.Grows.after (Attempt.Keeps.need _)
  intro stop _
  apply Attempt.Grows.after (Attempt.Keeps.need _)
  intro line hline
  apply Attempt.Grows.after (Attempt.Keeps.expect _)
  intro m found
  apply Attempt.Grows.bind (Attempt.Grows.lift (Build.Grows.cuts _ _ _ _))
  intro j n _ made
  obtain ⟨-, name, t, ht, text⟩ := made
  have reread : n.Reread nodeImport isGarbled :=
    reread_of_readsAgain text name (readsAgain_piece place hline ht found)
  exact Attempt.Grows.pure (by simpa using reread)

/-! ### Declarations that make no import -/

theorem single_rereads {kind : NodeKind} {d : Draft} (h : kind ≠ .importDecl) :
    Rereads source (do return ⟨[← Attempt.span kind start stop d], stop⟩) := by
  intro i
  apply Attempt.Grows.bind (Attempt.Grows.span_reread h)
  intro j n _ reread
  exact Attempt.Grows.pure (by simpa using reread)

theorem packageDecl_rereads : Rereads source (packageDecl text start) := by
  intro i
  apply Attempt.Grows.after (Attempt.Keeps.need _)
  intro code _
  apply Attempt.Grows.after (Attempt.Keeps.expect _)
  intro m _
  exact single_rereads (by decide) i

theorem receiverPart_kind (m : Match) (d : Draft) :
    Attempt.Quiet (receiverPart text start m d) fun r => r.1 ≠ .importDecl := by
  unfold receiverPart
  split
  next =>
    apply Attempt.Keeps.bind (Attempt.Keeps.need _)
    intro part _
    exact Attempt.Keeps.pure (by simp)
  next => exact Attempt.Keeps.pure (by simp)

theorem funcDecl_rereads : Rereads source (funcDecl text start) := by
  intro i
  apply Attempt.Grows.after (Attempt.Keeps.need _)
  intro code _
  apply Attempt.Grows.after (Attempt.Keeps.expect _)
  intro m _
  dsimp only
  split
  next => exact Attempt.Grows.after (Attempt.Quiet.warn _ _ _) fun _ _ => Attempt.Grows.abandoned
  next =>
    apply Attempt.Grows.after (receiverPart_kind m _)
    intro part other
    obtain ⟨kind, d⟩ := part
    apply Attempt.Grows.after (typeParameters_keeps m d)
    intro d' _
    apply Attempt.Grows.after (Attempt.Keeps.need _)
    intro list _
    apply Attempt.Grows.after (Attempt.Keeps.need _)
    intro body _
    apply Attempt.Grows.after (resultsEnd_keeps body)
    intro last _
    apply Attempt.Grows.after (Attempt.Keeps.need _)
    intro results _
    apply Attempt.Grows.after (funcEnd_quiet _ body)
    intro stop _
    exact single_rereads other i

theorem bodyType_rereads (name rest : Text) (typeStart : Nat) (d : Draft) :
    Rereads source (bodyType text name nodeStart typeStart limit rest d) := by
  intro i
  apply Attempt.Grows.after (Attempt.Keeps.expect _)
  intro offset _
  apply Attempt.Grows.after (Attempt.bodyEnds_quiet _ _ _ _)
  intro ends _
  obtain ⟨bodyEnd, stop⟩ := ends
  dsimp only
  split
  next =>
    apply Attempt.Grows.bind (Attempt.Grows.lift (structFields_sprouts _ _ i))
    intro j fields _ _
    exact single_rereads (by decide) j
  next =>
    apply Attempt.Grows.bind (Attempt.Grows.lift (interfaceMembers_grows _ _ i))
    intro j _ _ _
    exact single_rereads (by decide) j

theorem typeItem_rereads : Rereads source (typeItem text nodeStart start limit) := by
  intro i
  apply Attempt.Grows.after (Attempt.Keeps.need _)
  intro code _
  apply Attempt.Grows.after (Attempt.Keeps.expect _)
  intro m _
  apply Attempt.Grows.after (typePlace_keeps m)
  intro place _
  obtain ⟨typeStart, d⟩ := place
  apply Attempt.Grows.after (Attempt.Keeps.need _)
  intro rest _
  dsimp only
  split
  next => exact bodyType_rereads _ _ _ _ i
  next =>
    apply Attempt.Grows.after (Attempt.Keeps.need _)
    intro stop _
    apply Attempt.Grows.after (Attempt.Keeps.need _)
    intro target _
    exact single_rereads (by decide) i

theorem valueItem_rereads (keyword : Text) :
    Rereads source (valueItem text keyword nodeStart start limit) := by
  intro i
  apply Attempt.Grows.after (Attempt.Keeps.need _)
  intro stop _
  apply Attempt.Grows.after (Attempt.Keeps.need _)
  intro masked _
  apply Attempt.Grows.after (Attempt.Keeps.expect _)
  intro names _
  apply Attempt.Grows.after (Attempt.Keeps.need _)
  intro rest _
  have nodes (type : Option Text) : Attempt.Grows source i (do
      let nodes ← ((listedNames names.whole.text).filter (· != ['_'])).mapM fun name =>
        Attempt.span .variableDecl nodeStart stop
          ((access name ((Draft.named name).noteText "declarationKind" keyword)).noteText?
            "typeAnnotation" type)
      return (⟨nodes, stop⟩ : Declared)) fun _ d => ∀ n ∈ d.nodes, n.Reread nodeImport isGarbled := by
    apply Attempt.Grows.bind (Attempt.Grows.mapM fun name k => Attempt.Grows.span_reread (by decide))
    intro j ns _ reread
    exact Attempt.Grows.pure reread
  dsimp only
  split
  next => exact nodes none
  next => exact Attempt.Grows.after (Attempt.Keeps.need _) fun type _ => nodes (some type)

/-! ### Groups, declarations and files -/

theorem groupItems_rereads {item : ItemReader} {close : Nat}
    (h : ∀ pos, Rereads source (item pos pos close)) (pos : Nat) :
    Build.Grows source i (groupItems text item close pos) fun _ ns =>
      ∀ n ∈ ns, n.Reread nodeImport isGarbled := by
  have item (pos i : Nat) : Build.Grows source i (itemOrLine text item close pos) fun _ d =>
      ∀ n ∈ d.nodes, n.Reread nodeImport isGarbled := by
    apply Build.Grows.bind (h pos i)
    intro j r _ hr
    cases r with
    | some declared => exact Build.Grows.pure (hr declared rfl)
    | none => exact Build.Grows.after (Build.Keeps.need _) fun _ _ => Build.Grows.pure (by simp)
  induction hd : close - pos using Nat.strongRecOn generalizing pos i with
  | ind d ih =>
    rw [groupItems]
    split
    next lt =>
      apply Build.Grows.bind (item pos i)
      intro j declared _ first
      apply Build.Grows.after (Build.Keeps.need _)
      intro reached _
      obtain ⟨next, progress⟩ := reached
      have smaller : close - next < d := by omega
      apply Build.Grows.bind (ih (close - next) smaller next rfl)
      intro k ns _ later
      exact Build.Grows.pure (List.forall_mem_append.mpr ⟨first, later⟩)
    next => exact Build.Grows.pure (by simp)

theorem grouped_rereads {item : ItemReader} {keyword : Text}
    (single : ∀ after, text.skipBlanks? (start + Text.size keyword) = some after →
      Rereads source (item start after text.size))
    (each : ∀ close pos, Rereads source (item pos pos close)) :
    Rereads source (grouped text keyword item start) := by
  intro i
  apply Attempt.Grows.after (Attempt.Keeps.need _)
  intro after skipped
  split
  next => exact single after skipped i
  next =>
    apply Attempt.Grows.after (groupClose_quiet keyword)
    intro close _
    apply Attempt.Grows.after (Attempt.Keeps.need _)
    intro pos _
    apply Attempt.Grows.bind (Attempt.Grows.lift (groupItems_rereads (each close) pos))
    intro j nodes _ reread
    exact Attempt.Grows.pure reread

/-- Only blanks are skipped. -/
theorem gap_of_skipBlanks? {front back : Text} {after : Nat} (split : text.masked = front ++ back)
    (skipped : text.skipBlanks? (Text.size front) = some after) :
    ∃ gap rest, back = gap ++ rest ∧ after = Text.size front + Text.size gap ∧
      ∀ c ∈ gap, Text.isBlank c = true := by
  have inside : min (Text.size front) (Text.size (front ++ back)) = Text.size front := by
    rw [Text.size_append]
    omega
  obtain ⟨gap, hgap, size, blank, -⟩ := Text.trimStart_split back
  rw [MaskedSource.skipBlanks?, split, inside, Text.drop?_append, Option.map_some, ← size] at skipped
  exact ⟨gap, _, hgap, (Option.some.inj skipped).symm, blank⟩

theorem keyed_of_skipBlanks? {after : Nat}
    (there : Text.slice? (Scan.maskBrace source) start (start + Text.size "import".toList) =
      some "import".toList)
    (skipped : (MaskedSource.ofBrace source).skipBlanks? (start + Text.size "import".toList) =
      some after) : Keyed source start after := by
  obtain ⟨front, back, split, rfl, -⟩ := Text.slice?_eq_some_iff.mp there
  rw [← Text.size_append] at skipped
  obtain ⟨gap, rest, rfl, rfl, blank⟩ := gap_of_skipBlanks? split skipped
  refine ⟨gap, Text.slice?_eq_some_iff.mpr ⟨front, rest, ?_, rfl, ?_⟩, blank⟩
  · rw [split]
    simp
  · rw [Text.size_append, Text.size_append, Nat.add_assoc]

theorem declared_rereads {keyword : Text}
    (there : Text.slice? (Scan.maskBrace source) start (start + Text.size keyword) = some keyword) :
    Rereads source (declared (MaskedSource.ofBrace source) keyword start) := by
  unfold declared
  split
  next => exact packageDecl_rereads
  next isImport =>
    obtain rfl : keyword = "import".toList := by rw [← isImport, String.toList_ofList]
    apply grouped_rereads
    · intro after skipped
      exact importItem_rereads (.inr (keyed_of_skipBlanks? there skipped))
    · intro close pos
      exact importItem_rereads (.inl rfl)
  next => exact funcDecl_rereads
  next => exact grouped_rereads (fun _ _ => typeItem_rereads) fun _ _ => typeItem_rereads
  next =>
    exact grouped_rereads (fun _ _ => valueItem_rereads keyword) fun _ _ => valueItem_rereads keyword

theorem declarations_reread (blocks : List Scan.Range) {keywords : List Span}
    (there : ∀ s ∈ keywords,
      Text.slice? (Scan.maskBrace source) s.start (s.start + Text.size s.text) = some s.text)
    (covered : Nat) :
    Build.Grows source i (declarations (MaskedSource.ofBrace source) blocks covered keywords)
      fun _ ns => ∀ n ∈ ns, n.Reread nodeImport isGarbled := by
  induction keywords generalizing covered i with
  | nil => exact Build.Grows.pure (by simp)
  | cons keyword keywords ih =>
    have later (covered i : Nat) := @ih i (fun s hs => there s (by simp [hs])) covered
    rw [declarations]
    split
    next => exact later covered i
    next =>
      apply Build.Grows.bind (declared_rereads (there keyword (by simp)) i)
      intro j r _ hr
      cases r with
      | none => exact later covered j
      | some found =>
        apply Build.Grows.bind (later found.stop j)
        intro k ns _ rest
        exact Build.Grows.pure (List.forall_mem_append.mpr ⟨hr found rfl, rest⟩)

/-- Every import of a file can be read again from its node if its keyword is told apart there. -/
theorem tree_reread (source : Text) :
    Build.Grows source 0 (tree source) fun _ root =>
      ∀ n ∈ root.children, n.Reread nodeImport isGarbled := by
  have there : ∀ s ∈ (declaration.findAll (Scan.maskBrace source)).filterMap (fun m => m.group? 1),
      Text.slice? (Scan.maskBrace source) s.start (s.start + Text.size s.text) = some s.text := by
    intro s hs
    obtain ⟨m, hm, hgroup⟩ := List.mem_filterMap.mp hs
    obtain ⟨front, back, split, start, -⟩ := declaration_keyword hm hgroup
    exact Text.slice?_eq_some_iff.mpr ⟨front, back, split, start.symm, rfl⟩
  apply Build.Grows.bind (declarations_reread _ there 0)
  intro j children _ reread
  exact Build.Grows.root_reread reread fun _ _ => rfl

end SourceTree.Go
