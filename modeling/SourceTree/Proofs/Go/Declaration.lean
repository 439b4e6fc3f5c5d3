import SourceTree.Proofs.Go.Member
import SourceTree.Proofs.Node.Nested

/-!
The recognisers of Go declarations. Each is tried at a place of the mask and gives up or yields nodes
between the start of the declaration and its end, which lies behind the place and by the limit. None
of them fails.
-/

namespace SourceTree.Go

open Scan (MaskedSource Masks Range Bodied Firm edge_at at?_slice matched)
open Text (Boundary Edge Opens Closes)

variable {text : MaskedSource} {nodeStart start stop limit pos : Nat}

/-- The part of a node between the braces of its body. The body is closed at the end of the node, or
it is not closed by then and reaches to the end of the node. -/
def IsBody (masked : Text) (n : Node) (body : Range) : Prop :=
  ∃ brace, Text.at? masked brace = some '\x7b' ∧ n.location.startIndex < brace ∧
    body.start = brace + 1 ∧
    (Scan.findMatching? masked brace '\x7b' '\x7d' = some body.stop ∧
        n.location.endIndex = body.stop + 1 ∨
      Scan.findMatchingBefore? masked brace n.location.endIndex '\x7b' '\x7d' = none ∧
        n.location.endIndex = body.stop)

/-- A declaration holds nothing, or members between its braces. -/
def Shaped (masked : Text) (n : Node) : Prop :=
  n.children = [] ∨ ∃ body, IsBody masked n body ∧ Members body.start body.stop n.children

/-- Where an item is looked for, and where its node begins. -/
structure Site (text : MaskedSource) (nodeStart start limit : Nat) : Prop where
  masks : Masks text.source text.masked
  first : Boundary text.source nodeStart
  ready : Ready text start
  last : Boundary text.source limit
  le_start : nodeStart ≤ start
  le_limit : start ≤ limit

/-- What the nodes hold ends before the next of them begins, and before the declaration ends unless
that reaches its limit. -/
structure Shut (limit stop : Nat) (ns : List Node) : Prop where
  ends : ∀ n ∈ ns, ∀ c ∈ n.children, c.location.endIndex < stop ∨ stop = limit
  seals : ns.Pairwise Node.Seals

theorem Shut.of_leaves {ns : List Node} (leaves : ∀ n ∈ ns, n.children = []) :
    Shut limit stop ns := by
  constructor
  · intro n hn c hc
    rw [leaves n hn] at hc
    cases hc
  · have all : ns.Pairwise fun _ _ => True := List.pairwise_of_forall fun _ _ => trivial
    exact all.imp_of_mem fun ha _ _ => .of_leaf (leaves _ ha) _

/-- What a declaration that was looked for from `start` on yields. -/
structure Yields (text : MaskedSource) (nodeStart start limit : Nat) (d : Declared) : Prop where
  row : Row nodeStart d.stop d.nodes
  shaped : ∀ n ∈ d.nodes, Shaped text.masked n
  shut : Shut limit d.stop d.nodes
  lt : start < d.stop
  stop_le : d.stop ≤ limit
  ends : Boundary text.source d.stop

theorem yields_of_covers {ns : List Node} (le : nodeStart ≤ start) (lt : start < stop)
    (stop_le : stop ≤ limit) (ends : Boundary text.source stop)
    (h : ∀ n ∈ ns, Covers nodeStart stop n) : Yields text nodeStart start limit ⟨ns, stop⟩ :=
  ⟨row_of_covers (Nat.lt_of_le_of_lt le lt) h, fun n hn => .inl (h n hn).2.2,
    .of_leaves fun n hn => (h n hn).2.2, lt, stop_le, ends⟩

/-- A declaration of one node without children. -/
theorem leaf_safe {kind : NodeKind} {d : Draft} (first : Boundary text.source nodeStart)
    (ends : Boundary text.source stop) (le : nodeStart ≤ start) (lt : start < stop)
    (stop_le : stop ≤ limit) (empty : d.children = []) :
    Attempt.Safe text.source (do
      let node ← Attempt.span kind nodeStart stop d
      return ⟨[node], stop⟩) (Yields text nodeStart start limit) := by
  refine Attempt.Safe.lift_bind (span_covers first ends (by omega) empty) fun n covers => ?_
  exact Attempt.Safe.pure (yields_of_covers le lt stop_le ends (by simpa using covers))

theorem Site.exists_line (site : Site text nodeStart start limit) :
    ∃ stop, lineEnd? text start limit = some stop ∧ IsLine text start limit stop ∧
      Boundary text.source stop := by
  have first := site.ready.boundary site.masks
  obtain ⟨stop, found, line⟩ := exists_lineEnd (site.masks.boundary first)
    (site.masks.boundary site.last) site.le_limit
  exact ⟨stop, found, line, line.boundary site.masks first⟩

theorem size_pos {cs : Text} (h : cs ≠ []) : 0 < Text.size cs := by
  cases cs with
  | nil => exact absurd rfl h
  | cons c cs =>
    have width := c.utf8Size_pos
    rw [Text.size_cons]
    omega

theorem importItem_safe (site : Site text nodeStart start limit) :
    Attempt.Safe text.source (importItem text nodeStart start limit)
      (Yields text nodeStart start limit) := by
  obtain ⟨stop, found, line, last⟩ := site.exists_line
  obtain ⟨raw, hr⟩ := Text.exists_slice?_iff.mpr
    ⟨line.le, site.ready.boundary site.masks, last⟩
  refine Attempt.Settles.need_bind found (Attempt.Settles.need_bind hr ?_)
  refine Attempt.Settles.bind (Attempt.Safe.expect fun m h => h) fun m hm => ?_
  have lt : start < stop := by
    obtain ⟨rest, rfl, -, -⟩ := Pattern.matchFront?_takes hm
    obtain ⟨-, -, -, -, size⟩ := Text.slice?_eq_some_iff.mp hr
    have full := size_pos (importSpec_match hm)
    rw [Text.size_append] at size
    omega
  exact leaf_safe site.first last site.le_start lt line.stop_le rfl

/-! ### Values -/

/-- The blanks at the front end at the first code. -/
theorem blankSize_append {front : Text} (back : Text) (h : Text.trim front ≠ []) :
    Text.blankSize (front ++ back) = Text.blankSize front := by
  rw [Text.blankSize, Text.blankSize, List.takeWhile_append]
  split
  next all =>
    have empty : front.dropWhile Text.isBlank = [] := by
      have split := congrArg List.length (List.takeWhile_append_dropWhile (p := Text.isBlank) (l := front))
      rw [List.length_append] at split
      exact List.eq_nil_of_length_eq_zero (by omega)
    rw [Text.trim, Text.trimStart, empty] at h
    exact absurd rfl h
  next => rfl

/-- The type between the names and the value of a declaration. -/
theorem type_slice {masked names rest : Text} (hm : Masks text.source text.masked)
    (hc : text.code? start stop = some masked) (hs : masked = names ++ rest)
    (full : Text.trim (Text.upTo (· == '=') rest) ≠ []) :
    ∃ t, text.text? (start + Text.size names + Text.blankSize rest)
      (start + Text.size names + Text.blankSize rest +
        Text.size (Text.trim (Text.upTo (· == '=') rest))) = some t := by
  let type := Text.upTo (· == '=') rest
  let value := rest.dropWhile fun c => !(c == '=')
  have hrest : rest = type ++ value := List.takeWhile_append_dropWhile.symm
  have blanks : Text.blankSize rest = Text.blankSize type := by
    rw [hrest]
    exact blankSize_append value full
  obtain ⟨lead, tail, hfront, hlead, solid⟩ := Text.trim_split type
  obtain ⟨opens, closes⟩ := solid.resolve_left full
  obtain ⟨front, back, hmasked, rfl, -⟩ := Text.slice?_eq_some_iff.mp hc
  have piece : Text.slice? text.masked (Text.size front + Text.size names + Text.blankSize rest)
      (Text.size front + Text.size names + Text.blankSize rest + Text.size (Text.trim type)) =
        some (Text.trim type) := by
    refine Text.slice?_eq_some_iff.mpr ⟨front ++ names ++ lead, tail ++ value ++ back, ?_, ?_, rfl⟩
    · have whole : type ++ value = lead ++ Text.trim type ++ tail ++ value := by rw [← hfront]
      rw [hmasked, hs, hrest, whole]
      simp
    · rw [Text.size_append, Text.size_append, hlead, blanks]
  obtain ⟨t, ht, -⟩ := hm.slice_solid piece opens closes
  exact ⟨t, ht⟩

theorem valueItem_safe (keyword : Text) (site : Site text nodeStart start limit) :
    Attempt.Safe text.source (valueItem text keyword nodeStart start limit)
      (Yields text nodeStart start limit) := by
  obtain ⟨stop, found, line, last⟩ := site.exists_line
  have hs := site.ready.boundary site.masks
  obtain ⟨masked, hc⟩ := Text.exists_slice?_iff.mpr
    ⟨line.le, site.masks.boundary hs, site.masks.boundary last⟩
  refine Attempt.Settles.need_bind found (Attempt.Settles.need_bind hc ?_)
  refine Attempt.Settles.bind (Attempt.Safe.expect fun m h => h) fun m hm => ?_
  obtain ⟨rest, hsplit, zero, -⟩ := Pattern.matchFront?_takes hm
  have hstop : m.stop = Text.size m.whole.text := by rw [Match.stop, Span.stop, zero, Nat.zero_add]
  have lt : start < stop := by
    obtain ⟨-, -, -, -, size⟩ := Text.slice?_eq_some_iff.mp hc
    have full := size_pos (nameList_match hm)
    rw [hsplit, Text.size_append] at size
    omega
  have hdrop : Text.drop? masked m.stop = some rest := by
    rw [hstop, hsplit, Text.drop?_append]
  refine Attempt.Settles.need_bind hdrop ?_
  dsimp only
  have nodes (type : Option Text) : Attempt.Safe text.source (do
      let nodes ← ((listedNames m.whole.text).filter (· != ['_'])).mapM fun name =>
        Attempt.span .variableDecl nodeStart stop
          ((access name ((Draft.named name).noteText "declarationKind" keyword)).noteText?
            "typeAnnotation" type)
      return (⟨nodes, stop⟩ : Declared)) (Yields text nodeStart start limit) := by
    have le := site.le_start
    have each (d : Draft) (empty : d.children = []) : Attempt.Safe text.source
        (Attempt.span .variableDecl nodeStart stop d) (Covers nodeStart stop) :=
      Attempt.Safe.lift (span_covers site.first last (by omega) empty)
    refine Attempt.Settles.bind (Attempt.Safe.mapM fun name _ => each _ ?_) fun ns covers => ?_
    · simp [Draft.named]
    · exact Attempt.Safe.pure (yields_of_covers le lt line.stop_le last covers)
  split
  next => exact nodes none
  next full =>
    rw [hstop]
    obtain ⟨t, ht⟩ := type_slice site.masks hc hsplit (by simpa using full)
    exact Attempt.Settles.need_bind ht (nodes (some t))

/-! ### Types -/

theorem Members.adopted {ns : List Node} {first last : Nat} (h : Members first last ns)
    (id : NodeId) : Members first last (ns.map (·.adoptedBy id)) :=
  ⟨h.1.adopted id, List.forall_mem_map.mpr h.2⟩

theorem isBody_of_bodied {brace bodyEnd : Nat} {n : Node} (h : Bodied text.masked limit brace bodyEnd stop)
    (here : Text.at? text.masked brace = some '\x7b') (lt : n.location.startIndex < brace)
    (ends : n.location.endIndex = stop) : IsBody text.masked n ⟨brace + 1, bodyEnd⟩ := by
  refine ⟨brace, here, lt, rfl, ?_⟩
  rw [ends]
  rcases h with ⟨found, rfl⟩ | ⟨none, rfl, rfl⟩
  · exact .inl ⟨(Scan.findMatchingBefore?_eq_some.mp found).1, rfl⟩
  · exact .inr ⟨none, rfl⟩

/-- The node of a type with members. -/
theorem bodied_safe {brace bodyEnd : Nat} {kind : NodeKind} {d : Draft}
    (hm : Masks text.source text.masked) (first : Boundary text.source nodeStart)
    (last : Boundary text.source limit) (le : nodeStart ≤ start) (lt : start < brace)
    (here : Text.at? text.masked brace = some '\x7b') (inside : brace < limit)
    (bodied : Bodied text.masked limit brace bodyEnd stop)
    (members : Members (brace + 1) bodyEnd d.children) :
    Attempt.Safe text.source (do
      let node ← Attempt.span kind nodeStart stop d
      return ⟨[node], stop⟩) (Yields text nodeStart start limit) := by
  obtain ⟨behind, le', stop_le⟩ := bodied.bounds inside
  have ends := (bodied.boundaries hm last).2
  have piece := Text.exists_slice?_iff.mpr ⟨(by omega : nodeStart ≤ stop), first, ends⟩
  refine Attempt.Settles.bind (Attempt.Safe.span piece) ?_
  rintro n ⟨hstart, hstop, id, hchildren⟩
  have shaped : Shaped text.masked n := by
    refine .inr ⟨⟨brace + 1, bodyEnd⟩, isBody_of_bodied bodied here (by omega) hstop, ?_⟩
    rw [hchildren]
    exact members.adopted id
  have shut : Shut limit stop [n] := by
    refine ⟨fun x hx c hc => ?_, List.pairwise_singleton ..⟩
    obtain rfl := List.mem_singleton.mp hx
    rw [hchildren] at hc
    have below := ((members.adopted id).1.within c hc).2.2
    -- A body that is not closed reaches to the limit.
    rcases bodied with ⟨-, rfl⟩ | ⟨-, -, last⟩
    · exact .inl (by omega)
    · exact .inr last
  refine Attempt.Safe.pure
    ⟨⟨?_, List.pairwise_singleton ..⟩, ?_, shut, by dsimp only; omega, stop_le, ends⟩
  · intro x hx
    obtain rfl := List.mem_singleton.mp hx
    dsimp only
    omega
  · intro x hx
    obtain rfl := List.mem_singleton.mp hx
    exact shaped

theorem bodyType_safe {typeStart : Nat} {rest : Text} {d : Draft} (name : Text)
    (site : Site text nodeStart start limit) (lt : start < typeStart)
    (hc : text.code? typeStart limit = some rest) :
    Attempt.Safe text.source (bodyType text name nodeStart typeStart limit rest d)
      (Yields text nodeStart start limit) := by
  refine Attempt.Settles.bind (Attempt.Safe.expect fun brace h => h) fun offset found => ?_
  obtain ⟨left, x, right, rfl, rfl, hx, -⟩ := Text.find?_eq_some found
  obtain rfl : x = '\x7b' := by simpa using hx
  obtain ⟨here, inside⟩ := at?_slice hc
  have opened := site.masks.boundary (site.masks.boundary_of_edge (edge_at here (by decide)).2)
  refine Attempt.Settles.bind (Scan.bodyEnds_safe name _) fun ⟨bodyEnd, stop⟩ bodied => ?_
  dsimp only at bodied ⊢
  have cut := (bodied.boundaries site.masks site.last).1
  split
  · refine Attempt.Safe.lift_bind (structFields_safe site.masks opened cut) fun fields members => ?_
    exact bodied_safe site.masks site.first site.last site.le_start (by omega) here inside bodied
      members
  · refine Attempt.Safe.lift_bind (interfaceMembers_safe site.masks opened cut) ?_
    rintro ⟨methods, embedded⟩ members
    exact bodied_safe site.masks site.first site.last site.le_start (by omega) here inside bodied
      members

/-- The rest of an alias or of a type without members is its line. -/
theorem aliasType_safe {typeStart : Nat} (site : Site text nodeStart start limit)
    (lt : start < typeStart) (le : typeStart ≤ limit) (hs : Boundary text.source typeStart)
    {draft : Text → Draft} (empty : ∀ t, (draft t).children = []) :
    Attempt.Safe text.source (do
      let stop ← lineEnd text typeStart limit
      let target ← Attempt.need (text.text? typeStart stop)
      return ⟨[← Attempt.span .typeAlias nodeStart stop (draft target)], stop⟩)
        (Yields text nodeStart start limit) := by
  obtain ⟨stop, found, line⟩ :=
    exists_lineEnd (site.masks.boundary hs) (site.masks.boundary site.last) le
  have last := line.boundary site.masks hs
  obtain ⟨target, ht⟩ := Text.exists_slice?_iff.mpr ⟨line.le, hs, last⟩
  refine Attempt.Settles.need_bind found (Attempt.Settles.need_bind ht ?_)
  have behind := line.le
  exact leaf_safe site.first last site.le_start (by omega) line.stop_le (empty target)

/-- Behind a match that took all blanks comes code or the end of what was looked at. -/
theorem boundary_behind_match {whole rest : Text} (hm : Masks text.source text.masked)
    (last : Boundary text.source limit) (hc : text.code? start limit = some (whole ++ rest))
    (ends : rest = [] ∨ Opens Inked rest) : Boundary text.source (start + Text.size whole) := by
  rcases ends with rfl | ⟨c, r, rfl, inked⟩
  · obtain ⟨-, -, -, -, size⟩ := Text.slice?_eq_some_iff.mp hc
    rw [List.append_nil] at size
    rwa [size]
  · obtain ⟨here, -⟩ := at?_slice hc
    exact hm.boundary_of_edge (edge_at here (inked_ne_space c inked)).1

theorem typePlace_safe {code : Text} {m : Match} (site : Site text nodeStart start limit)
    (hc : text.code? start limit = some code) (found : typeSpec.matchFront? code = some m) :
    Attempt.Safe text.source (typePlace text start m) fun r =>
      start < r.1 ∧ r.1 ≤ limit ∧ Boundary text.source r.1 ∧ r.2.children = [] := by
  obtain ⟨opens, ⟨rest, rfl, ends⟩, brackets⟩ := typeSpec_match found
  obtain ⟨-, -, -, hstop, le, -⟩ := matched hc found
  have positive : 0 < m.stop := by
    obtain ⟨c, r, hw, -⟩ := opens
    rw [hstop, hw]
    exact size_pos (by simp)
  have after := boundary_behind_match site.masks site.last hc ends
  rw [← hstop] at after
  unfold typePlace
  dsimp only
  split
  next => exact Attempt.Safe.pure ⟨by dsimp only; omega, le, after, rfl⟩
  next s hs =>
    obtain ⟨firm, inner, stop_le⟩ := brackets s hs
    obtain ⟨t, ht⟩ := firm.slice site.masks hc
    split
    · refine Attempt.Settles.need_bind ht (Attempt.Safe.pure ?_)
      exact ⟨by dsimp only; omega, le, after, rfl⟩
    · have bound : s.start ≤ s.stop := Nat.le_add_right ..
      obtain ⟨-, here, -⟩ := Text.exists_slice?_iff.mp ⟨t, ht⟩
      exact Attempt.Safe.pure ⟨by dsimp only; omega, by dsimp only; omega, here, rfl⟩

theorem typeItem_safe (site : Site text nodeStart start limit) :
    Attempt.Safe text.source (typeItem text nodeStart start limit)
      (Yields text nodeStart start limit) := by
  have hs := site.ready.boundary site.masks
  obtain ⟨code, hc⟩ := Text.exists_slice?_iff.mpr
    ⟨site.le_limit, site.masks.boundary hs, site.masks.boundary site.last⟩
  refine Attempt.Settles.need_bind hc ?_
  refine Attempt.Settles.bind (Attempt.Safe.expect fun m h => h) fun m found => ?_
  refine Attempt.Settles.bind (typePlace_safe site hc found) ?_
  rintro ⟨typeStart, d⟩ ⟨lt, le, hstart, empty⟩
  dsimp only at lt le hstart empty ⊢
  obtain ⟨type, ht⟩ := Text.exists_slice?_iff.mpr
    ⟨le, site.masks.boundary hstart, site.masks.boundary site.last⟩
  refine Attempt.Settles.need_bind ht ?_
  split
  · exact bodyType_safe _ site lt ht
  · refine aliasType_safe site lt le hstart fun t => ?_
    split <;> simpa using empty

/-! ### Packages and functions -/

theorem exists_codeFrom (hm : Masks text.source text.masked) (hs : Boundary text.masked start) :
    ∃ code, Text.drop? text.masked start = some code ∧ text.code? start text.size = some code := by
  obtain ⟨front, code, split, rfl⟩ := hs
  refine ⟨code, by rw [split, Text.drop?_append], ?_⟩
  refine Text.slice?_eq_some_iff.mpr ⟨front, [], by rw [split, List.append_nil], rfl, ?_⟩
  rw [MaskedSource.size, ← hm.size_eq, split, Text.size_append]

theorem packageDecl_safe (hm : Masks text.source text.masked) (code : IsCode text start) :
    Attempt.Safe text.source (packageDecl text start) (Yields text start start text.size) := by
  have first := code.boundary hm
  obtain ⟨code, hd, hc⟩ := exists_codeFrom hm (hm.boundary first)
  refine Attempt.Settles.need_bind hd ?_
  refine Attempt.Settles.bind (Attempt.Safe.expect fun m h => h) fun m found => ?_
  obtain ⟨rest, -, hcode, hstop, le, -⟩ := matched hc found
  obtain ⟨r, c, hw, inked⟩ := packageClause_match found
  have size : start + m.stop = start + Text.size r + c.utf8Size := by
    rw [hstop, hw, Text.size_append, Text.size_cons, Text.size_nil]
    omega
  have ends : Boundary text.source (start + m.stop) := by
    have last : text.code? start text.size = some (r ++ c :: rest) := by
      rw [hcode, hw, List.append_assoc]
      rfl
    rw [size]
    exact hm.boundary_of_edge (edge_at (at?_slice last).1 (inked_ne_space c inked)).2
  have width := c.utf8Size_pos
  exact leaf_safe first ends (Nat.le_refl _) (by omega) le rfl

@[simp] theorem children_receiver (part : Text) (d : Draft) :
    (receiver part d).children = d.children := by
  simp [receiver]

theorem receiverPart_safe {m : Match} {rest : Text} (hm : Masks text.source text.masked)
    (hc : text.code? start text.size = some (m.whole.text ++ rest))
    (firm : ∀ s, m.group? 1 = some s → Firm m.whole.text s) (d : Draft) :
    Attempt.Safe text.source (receiverPart text start m d) fun r => r.2.children = d.children := by
  unfold receiverPart
  split
  next s hs =>
    obtain ⟨t, ht⟩ := (firm s hs).slice hm hc
    exact Attempt.Settles.need_bind ht (Attempt.Safe.pure (by simp))
  next => exact Attempt.Safe.pure rfl

theorem typeParameters_safe {m : Match} {rest : Text} (hm : Masks text.source text.masked)
    (hc : text.code? start text.size = some (m.whole.text ++ rest))
    (firm : ∀ s, m.group? 3 = some s → Firm m.whole.text s) (d : Draft) :
    Attempt.Safe text.source (typeParameters text start m d) fun r => r.children = d.children := by
  unfold typeParameters
  split
  next s hs =>
    obtain ⟨t, ht⟩ := (firm s hs).slice hm hc
    exact Attempt.Settles.need_bind ht (Attempt.Safe.pure (by simp))
  next => exact Attempt.Safe.pure rfl

/-- The results and the body of a function lie behind its parameters. -/
theorem resultsEnd_safe {body : Option Nat} (hm : Masks text.source text.masked)
    (hs : Boundary text.source start)
    (hb : ∀ brace, body = some brace → start ≤ brace ∧ Text.at? text.masked brace = some '\x7b') :
    Attempt.Safe text.source (resultsEnd text start body) fun stop =>
      start ≤ stop ∧ stop ≤ text.size ∧ Boundary text.source stop := by
  cases body with
  | some brace =>
    obtain ⟨le, here⟩ := hb brace rfl
    have ends := hm.boundary_of_edge (edge_at here (by decide)).1
    exact Attempt.Safe.pure ⟨le, ends.le_size, ends⟩
  | none =>
    obtain ⟨stop, found, line⟩ := exists_lineEnd (hm.boundary hs)
      (hm.boundary (Text.boundary_size text.source)) hs.le_size
    exact Attempt.Safe.need ⟨stop, found, line.le, line.stop_le, line.boundary hm hs⟩

theorem funcEnd_safe {body : Option Nat} {results : Nat} (name : Text)
    (hm : Masks text.source text.masked)
    (hr : start ≤ results ∧ results ≤ text.size ∧ Boundary text.source results)
    (hb : ∀ brace, body = some brace → start ≤ brace ∧ Text.at? text.masked brace = some '\x7b') :
    Attempt.Safe text.source (funcEnd text name results body) fun stop =>
      start ≤ stop ∧ stop ≤ text.size ∧ Boundary text.source stop := by
  cases body with
  | some brace =>
    obtain ⟨le, here⟩ := hb brace rfl
    have inside : brace < text.size := by
      obtain ⟨front, back, hs, rfl⟩ := Text.at?_eq_some here
      rw [MaskedSource.size, ← hm.size_eq, hs, Text.size_append, Text.size_cons]
      have width := ('\x7b').utf8Size_pos
      omega
    refine Attempt.Settles.bind (Scan.bodyEnds_safe name brace) ?_
    rintro ⟨bodyEnd, stop⟩ bodied
    obtain ⟨behind, le', stop_le⟩ := bodied.bounds inside
    have ends := (bodied.boundaries hm (Text.boundary_size text.source)).2
    exact Attempt.Safe.pure ⟨by omega, stop_le, ends⟩
  | none => exact Attempt.Safe.pure hr

theorem funcDecl_safe (hm : Masks text.source text.masked) (code : IsCode text start) :
    Attempt.Safe text.source (funcDecl text start) (Yields text start start text.size) := by
  have first := code.boundary hm
  obtain ⟨code, hd, hc⟩ := exists_codeFrom hm (hm.boundary first)
  refine Attempt.Settles.need_bind hd ?_
  refine Attempt.Settles.bind (Attempt.Safe.expect fun m h => h) fun m found => ?_
  obtain ⟨rest, -, hcode, hstop, le, -⟩ := matched hc found
  obtain ⟨⟨r, c, hw, rfl⟩, receivers, brackets⟩ := funcHeader_match found
  dsimp only
  split
  next =>
    refine Attempt.Safe.lift_bind (Build.Safe.warn _ _ _) fun _ _ => ?_
    exact Attempt.Safe.expect (by simp)
  next closeParen closes =>
    obtain ⟨behind, here⟩ := Scan.closes_at (by decide) closes
    have after : Boundary text.source (closeParen + 1) :=
      hm.boundary_of_edge (edge_at here (by decide)).2
    obtain ⟨-, list, -, hlist, -⟩ := hm.slice_inner closes (by decide) (by decide) (by decide)
    obtain ⟨body, hbody, opens⟩ := exists_bodyOpen (hm.boundary after)
    refine Attempt.Settles.bind (receiverPart_safe hm hcode receivers _) ?_
    rintro ⟨kind, d⟩ empty
    refine Attempt.Settles.bind (typeParameters_safe hm hcode brackets d) fun d' empty' => ?_
    refine Attempt.Settles.need_bind hlist (Attempt.Settles.need_bind hbody ?_)
    refine Attempt.Settles.bind (resultsEnd_safe hm after opens) fun results hr => ?_
    obtain ⟨t, ht⟩ := Text.exists_slice?_iff.mpr ⟨hr.1, after, hr.2.2⟩
    refine Attempt.Settles.need_bind ht ?_
    refine Attempt.Settles.bind (funcEnd_safe _ hm hr opens) fun stop ⟨le', stop_le, ends⟩ => ?_
    have positive : 0 < m.stop := by
      rw [hstop, hw]
      exact size_pos (by simp)
    refine leaf_safe first ends (Nat.le_refl _) (by omega) stop_le ?_
    have none : d'.children = [] := empty'.trans empty
    split <;> simpa using none

end SourceTree.Go
