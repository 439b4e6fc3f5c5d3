import SourceTree.Proofs.Go.Declaration

/-!
Where the declarations of a Go source lie. What a group or a declaration yields ends by the place at
which the next one is looked for, so the nodes of the whole source follow each other, or share a
piece where one declaration gives several names.
-/

namespace SourceTree.Go

open Scan (MaskedSource Masks Range edge_at)
open Text (Boundary Opens)

variable {text : MaskedSource} {start limit close pos : Nat}

/-- Items of one kind can be looked for everywhere. -/
abbrev ReadsItems (text : MaskedSource) (item : ItemReader) : Prop :=
  ∀ nodeStart start limit, Site text nodeStart start limit →
    Attempt.Safe text.source (item nodeStart start limit) (Yields text nodeStart start limit)

theorem itemOrLine_safe {item : ItemReader} (hi : ReadsItems text item)
    (hm : Masks text.source text.masked) (last : Boundary text.source close) (lt : pos < close)
    (code : IsCode text pos) :
    Build.Safe text.source (itemOrLine text item close pos) (Yields text pos pos close) := by
  have first := code.boundary hm
  have site : Site text pos pos close :=
    ⟨hm, first, .inr code, last, Nat.le_refl _, Nat.le_of_lt lt⟩
  refine Build.Safe.bind (hi pos pos close site) fun r hr => ?_
  cases r with
  | some declared => exact Build.Safe.pure (hr declared rfl)
  | none =>
    obtain ⟨stop, found, line, ends⟩ := site.exists_line
    refine Build.Settles.need_bind found (Build.Safe.pure ?_)
    exact ⟨Row.nil pos stop, by simp, .of_leaves (by simp), line.lt lt code, line.stop_le, ends⟩

/-- Declarations in a row. -/
def Declarations (masked : Text) (first last : Nat) (ns : List Node) : Prop :=
  Row first last ns ∧ ∀ n ∈ ns, Shaped masked n

/-- Declarations in a row, what each of them holds ending before the next begins. -/
def Sequence (masked : Text) (first last : Nat) (ns : List Node) : Prop :=
  Declarations masked first last ns ∧ ns.Pairwise Node.Seals

theorem Sequence.nil (masked : Text) (first last : Nat) : Sequence masked first last [] :=
  ⟨⟨Row.nil first last, by simp⟩, .nil⟩

theorem Yields.append {nodeStart mid last : Nat} {d : Declared} {ns : List Node}
    (h : Yields text nodeStart start last d) (rest : Sequence text.masked mid last ns)
    (le : d.stop ≤ mid) (le' : nodeStart ≤ mid) :
    Sequence text.masked nodeStart last (d.nodes ++ ns) := by
  refine ⟨⟨h.row.append rest.1.1 le le' h.stop_le, fun n hn => ?_⟩, ?_⟩
  · rcases List.mem_append.mp hn with hn | hn
    · exact h.shaped n hn
    · exact rest.1.2 n hn
  · refine List.pairwise_append.mpr ⟨h.shut.seals, rest.2, fun a ha b hb c hc => ?_⟩
    have behind := rest.1.1.within b hb
    rcases h.shut.ends a ha c hc with before | last
    · omega
    · omega

/-- What a node of the row holds ends by the end of the row. -/
theorem Declarations.below {masked : Text} {first last : Nat} {ns : List Node} {n c : Node}
    (h : Declarations masked first last ns) (hn : n ∈ ns) (hc : c ∈ n.children) :
    c.location.endIndex ≤ last := by
  have within := h.1.within n hn
  rcases h.2 n hn with empty | ⟨body, isBody, members⟩
  · rw [empty] at hc
    cases hc
  · have inner := members.1.within c hc
    obtain ⟨brace, -, -, -, ⟨-, hstop⟩ | ⟨-, hstop⟩⟩ := isBody <;> omega

theorem groupItems_safe {item : ItemReader} (hi : ReadsItems text item)
    (hm : Masks text.source text.masked) (last : Boundary text.source close)
    (ready : Ready text pos) :
    Build.Safe text.source (groupItems text item close pos)
      (Sequence text.masked pos close) := by
  induction hd : close - pos using Nat.strongRecOn generalizing pos with
  | ind d ih =>
    rw [groupItems]
    split
    next lt =>
      have code : IsCode text pos := by
        rcases ready with rfl | code
        · exact absurd lt (Nat.not_lt_of_le last.le_size)
        · exact code
      refine Build.Safe.bind (itemOrLine_safe hi hm last lt code) fun declared here => ?_
      obtain ⟨next, hnext, le, ready'⟩ := exists_goOn hm here.lt here.ends
      have progress := here.lt
      refine Build.Settles.need_bind hnext ?_
      refine Build.Safe.bind (ih (close - next.1) (by omega) ready' rfl) fun ns rest => ?_
      exact Build.Safe.pure (here.append rest le (by omega))
    next => exact Build.Safe.pure (Sequence.nil ..)

theorem groupClose_safe (keyword : Text) (hm : Masks text.source text.masked)
    (here : Text.at? text.masked start = some '(') :
    Attempt.Safe text.source (groupClose text keyword start) fun close =>
      start < close ∧ close ≤ text.size ∧ Boundary text.source close ∧
        Boundary text.source (min (close + 1) text.size) := by
  have whole := Text.boundary_size text.source
  have inside : start < text.size := by
    obtain ⟨front, back, hs, rfl⟩ := Text.at?_eq_some here
    rw [MaskedSource.size, ← hm.size_eq, hs, Text.size_append, Text.size_cons]
    have width := ('(').utf8Size_pos
    omega
  unfold groupClose
  split
  next close closes =>
    obtain ⟨behind, there⟩ := Scan.closes_at (by decide) closes
    obtain ⟨edge, edge'⟩ := edge_at there (by decide)
    have after : Boundary text.source (close + 1) := hm.boundary_of_edge edge'
    have le : close + 1 ≤ text.size := after.le_size
    refine Attempt.Safe.pure ⟨behind, by omega, hm.boundary_of_edge edge, ?_⟩
    rwa [Nat.min_eq_left le]
  next =>
    refine Attempt.Safe.lift_bind (Build.Safe.warn _ _ _) fun _ _ => ?_
    refine Attempt.Safe.pure ⟨inside, Nat.le_refl _, whole, ?_⟩
    rwa [Nat.min_eq_right (by omega)]

theorem grouped_safe {item : ItemReader} {keyword : Text} (hi : ReadsItems text item)
    (hm : Masks text.source text.masked) (code : IsCode text start)
    (word : Boundary text.masked (start + Text.size keyword)) :
    Attempt.Safe text.source (grouped text keyword item start) (Yields text start start text.size) := by
  have first := code.boundary hm
  have whole := Text.boundary_size text.source
  obtain ⟨after, found, le, ready⟩ := exists_ready hm word
  have inside : after ≤ text.size := (ready.boundary hm).le_size
  refine Attempt.Settles.need_bind found ?_
  split
  next =>
    have site : Site text start after text.size := ⟨hm, first, ready, whole, by omega, inside⟩
    refine (hi start after text.size site).mono fun d yields => ?_
    have lt := yields.lt
    exact ⟨yields.row, yields.shaped, yields.shut, by omega, yields.stop_le, yields.ends⟩
  next parenthesis =>
    have here : Text.at? text.masked after = some '(' := by simpa using parenthesis
    have opened := (edge_at here (by decide)).2.boundary
    obtain ⟨pos, hpos, le', ready'⟩ := exists_ready hm opened
    refine Attempt.Settles.bind (groupClose_safe keyword hm here) ?_
    rintro close ⟨behind, close_le, last, ends⟩
    refine Attempt.Settles.need_bind hpos ?_
    refine Attempt.Safe.lift_bind (groupItems_safe hi hm last ready') fun ns ⟨members, seals⟩ => ?_
    have width : ('(').utf8Size = 1 := by decide
    have shut : Shut text.size (min (close + 1) text.size) ns := by
      refine ⟨fun n hn c hc => ?_, seals⟩
      have below := members.below hn hc
      omega
    refine Attempt.Safe.pure ⟨members.1.mono (by omega) ?_, members.2, shut, ?_, ?_, ends⟩
    · dsimp only
      omega
    · dsimp only
      omega
    · exact Nat.min_le_right ..

theorem declared_safe {keyword : Text} (hm : Masks text.source text.masked)
    (code : IsCode text start) (word : Boundary text.masked (start + Text.size keyword)) :
    Attempt.Safe text.source (declared text keyword start) (Yields text start start text.size) := by
  unfold declared
  split
  next => exact packageDecl_safe hm code
  next => exact grouped_safe (fun _ _ _ => importItem_safe) hm code word
  next => exact funcDecl_safe hm code
  next => exact grouped_safe (fun _ _ _ => typeItem_safe) hm code word
  next => exact grouped_safe (fun _ _ _ => valueItem_safe keyword) hm code word

/-- A keyword that stands in the mask. -/
def Stands (text : MaskedSource) (s : Span) : Prop :=
  IsCode text s.start ∧ Boundary text.masked (s.start + Text.size s.text)

theorem declarations_safe {keywords : List Span} (hm : Masks text.source text.masked)
    (blocks : List Range) (stand : ∀ s ∈ keywords, Stands text s) {covered : Nat}
    (le : covered ≤ text.size) :
    Build.Safe text.source (declarations text blocks covered keywords)
      (Sequence text.masked covered text.size) := by
  induction keywords generalizing covered with
  | nil => exact Build.Safe.pure (Sequence.nil ..)
  | cons keyword keywords ih =>
    have later {covered : Nat} (le : covered ≤ text.size) :=
      ih (fun s hs => stand s (by simp [hs])) le
    rw [declarations]
    split
    next => exact later le
    next free =>
      have reached : covered ≤ keyword.start := by
        simp only [Bool.or_eq_true, decide_eq_true_eq, not_or] at free
        omega
      obtain ⟨code, word⟩ := stand keyword (by simp)
      refine Build.Safe.bind (declared_safe hm code word) fun r hr => ?_
      cases r with
      | none => exact later le
      | some found =>
        have yields := hr found rfl
        have lt := yields.lt
        refine Build.Safe.bind (later yields.stop_le) fun ns rest => Build.Safe.pure ?_
        obtain ⟨⟨row, shaped⟩, seals⟩ := yields.append rest (Nat.le_refl _) (by omega)
        exact ⟨⟨row.mono reached (Nat.le_refl _), shaped⟩, seals⟩

theorem keywords_stand (text : MaskedSource) :
    ∀ s ∈ (declaration.findAll text.masked).filterMap (fun m => m.group? 1), Stands text s := by
  intro s hs
  obtain ⟨m, hm, hgroup⟩ := List.mem_filterMap.mp hs
  obtain ⟨front, back, split, hstart, opens⟩ := declaration_keyword hm hgroup
  constructor
  · rw [hstart]
    refine isCode_of_opens (w := s.text ++ back) ?_ (opens.append back)
    rw [split, List.append_assoc]
  · exact ⟨front ++ s.text, back, split, by rw [hstart, Text.size_append]⟩

theorem tree_sequence (source : Text) :
    Build.Safe source (tree source) fun root =>
      root.location.startIndex = 0 ∧ root.location.endIndex = Text.size source ∧
        Sequence (Scan.maskBrace source) 0 (Text.size source) root.children := by
  have hm : Masks source (Scan.maskBrace source) := Scan.maskBrace_masks source
  have all (blocks : List Range) : Build.Safe source
      (declarations (MaskedSource.ofBrace source) blocks 0
        ((declaration.findAll (Scan.maskBrace source)).filterMap fun m => m.group? 1))
      (Sequence (Scan.maskBrace source) 0 (Text.size source)) :=
    declarations_safe hm blocks (keywords_stand (MaskedSource.ofBrace source)) (Nat.zero_le _)
  refine Build.Safe.bind (all _) fun children ⟨placed, seals⟩ => ?_
  refine Build.Safe.root.mono fun n ⟨hs, ht, id, hchildren⟩ => ⟨hs, ht, ?_⟩
  rw [hchildren]
  exact ⟨⟨placed.1.adopted id, List.forall_mem_map.mpr placed.2⟩, List.pairwise_map.mpr seals⟩

theorem tree_safe (source : Text) :
    Build.Safe source (tree source) fun root =>
      root.location.startIndex = 0 ∧ root.location.endIndex = Text.size source ∧
        Declarations (Scan.maskBrace source) 0 (Text.size source) root.children :=
  (tree_sequence source).mono fun _ ⟨start, stop, placed, _⟩ => ⟨start, stop, placed⟩

/-- Every source is read. The root covers the source; the declarations lie in it and the members of a
struct or an interface between its braces, none of them empty, each on the same piece as the one
before it or behind it; members have no members. -/
theorem parse?_arranged (source : Text) (path : String) :
    ∃ file, parse? source path = some file ∧
      file.root.location.startIndex = 0 ∧ file.root.location.endIndex = Text.size source ∧
      Row 0 (Text.size source) file.root.children ∧
      ∀ n ∈ file.root.children, n.children = [] ∨ ∃ body,
        IsBody (Scan.maskBrace source) n body ∧ n.location.startIndex < body.start ∧
        body.stop ≤ n.location.endIndex ∧ Row body.start body.stop n.children ∧
        ∀ m ∈ n.children, m.children = [] := by
  obtain ⟨file, parsed, hs, ht, row, shaped⟩ := Build.exists_file? (tree_safe source)
  refine ⟨file, parsed, hs, ht, row, fun n hn => (shaped n hn).imp_right ?_⟩
  rintro ⟨body, isBody, members⟩
  refine ⟨body, isBody, ?_, ?_, members.1, members.2⟩
  · obtain ⟨brace, -, lt, hstart, -⟩ := isBody
    omega
  · obtain ⟨brace, -, -, -, ⟨-, hstop⟩ | ⟨-, hstop⟩⟩ := isBody <;> omega

end SourceTree.Go
