import SourceTree.Proofs.Echo
import SourceTree.Proofs.Go.Tree

/-!
What a Go tree takes from the mask alone. As in other languages the source is asked for texts that
become metadata, but with one exception: the path of an import stands in a literal, so whether a
line of an import declaration is an import is read from the source.
-/

namespace SourceTree.Go

open Scan (MaskedSource Masks Range)

variable {source source' masked : Text} {start stop limit pos : Nat}

/-! ### The pieces that are read from the source -/

/-- The parameter list of a function or of a method of an interface whose header is found at the
offset. -/
inductive ListAt (masked : Text) (start : Nat) : Range → Prop where
  | func {rest : Text} {m : Match} {close : Nat} : Text.drop? masked start = some rest →
      funcHeader.matchFront? rest = some m →
      Scan.findMatching? masked (start + m.stop - 1) '(' ')' = some close →
      ListAt masked start ⟨start + m.stop - 1 + 1, close⟩
  | method {stop close : Nat} {code : Text} {m : Match} :
      Text.slice? masked start stop = some code → interfaceMethod.matchFront? code = some m →
      Scan.findMatchingBefore? masked (start + m.stop - 1) stop '(' ')' = some close →
      ListAt masked start ⟨start + m.stop - 1 + 1, close⟩

/-- Both sources have the same parameter list at the offset. -/
def SameParameters (source source' masked : Text) (start : Nat) : Prop :=
  ∀ list, ListAt masked start list → SameIn source source' list

/-- What the trees of two sources with one mask share. Names, which decide on access, are read from
the mask. -/
abbrev shared (source source' masked : Text) : Shared :=
  .header (fun _ => True) (SameParameters source source' masked)

/-- The lines of a group that is read from `first` on and ends at `close`. -/
inductive LineAt (masked : Text) (close first : Nat) : Nat → Prop where
  | top : LineAt masked close first first
  | next {pos stop : Nat} {next : { next : Nat // pos < next }} : LineAt masked close first pos →
      lineEnd? ⟨masked, masked⟩ pos close = some stop →
      goOn? ⟨masked, masked⟩ pos stop = some next → LineAt masked close first next

/-- The parenthesis that closes a group, or the end of the text. -/
def groupStop? (masked : Text) (start : Nat) : Nat :=
  (Scan.findMatching? masked start '(' ')').getD (Text.size masked)

/-- A line of the import declaration whose keyword is at the offset. -/
inductive ImportLine (masked : Text) (keyword : Span) : Range → Prop where
  | single {after stop : Nat} :
      MaskedSource.skipBlanks? ⟨masked, masked⟩ (keyword.start + Text.size keyword.text) = some after →
      Text.at? masked after ≠ some '(' →
      lineEnd? ⟨masked, masked⟩ after (Text.size masked) = some stop →
      ImportLine masked keyword ⟨after, stop⟩
  | grouped {after first pos stop : Nat} :
      MaskedSource.skipBlanks? ⟨masked, masked⟩ (keyword.start + Text.size keyword.text) = some after →
      Text.at? masked after = some '(' →
      MaskedSource.skipBlanks? ⟨masked, masked⟩ (after + 1) = some first →
      LineAt masked (groupStop? masked after) first pos →
      lineEnd? ⟨masked, masked⟩ pos (groupStop? masked after) = some stop →
      ImportLine masked keyword ⟨pos, stop⟩

/-- The keywords that open declarations. -/
def keywords (masked : Text) : List Span :=
  (declaration.findAll masked).filterMap fun m => m.group? 1

/-- The path of the import on a line. -/
def importPath? (line : Text) : Option Text :=
  (importSpec.matchFront? line).map fun m => m.groupText 2

/-- Both sources have an import of the same path on the line, or none. -/
def SameImport (source source' : Text) (line : Range) : Prop :=
  (Text.slice? source line.start line.stop).bind importPath? =
    (Text.slice? source' line.start line.stop).bind importPath?

/-- Both sources import the same paths on the same lines. -/
def SameImports (source source' masked : Text) : Prop :=
  ∀ keyword ∈ keywords masked, keyword.text = "import".toList →
    ∀ line, ImportLine masked keyword line → SameImport source source' line

/-! ### Functions -/

/-- Declarations with the same end and nodes that are twins. -/
structure Declared.Twin (twins : Shared) (d d' : Declared) : Prop where
  nodes : List.Forall₂ (Node.Twin twins) d.nodes d'.nodes
  stop : d.stop = d'.stop

variable {twins : Shared}

theorem access_twin {d d' : Draft} (name : Text) (twin : d.Twin twins start d') :
    (access name d).Twin twins start (access name d') :=
  (twin.note fun _ => rfl).note fun _ => rfl

theorem single_echoes {kind : NodeKind} {d d' : Draft} (twin : d.Twin twins start d') :
    Attempt.Echoes (do return ⟨[← Attempt.span kind start stop d], stop⟩)
      (do return ⟨[← Attempt.span kind start stop d'], stop⟩) (Declared.Twin twins) :=
  (Attempt.Echoes.span twin).bind fun _ _ node => Attempt.Echoes.pure ⟨.cons node .nil, rfl⟩

theorem packageDecl_echoes :
    Attempt.Echoes (packageDecl ⟨source, masked⟩ start) (packageDecl ⟨source', masked⟩ start)
      (Declared.Twin twins) := by
  refine Attempt.Echoes.needed fun rest _ => ?_
  refine Attempt.Echoes.expected fun m _ => ?_
  exact single_echoes (.named _)

theorem receiver_twin {d d' : Draft} (text text' : Text)
    (twin : d.Twin (shared source source' masked) start d') :
    (receiver text d).Twin (shared source source' masked) start (receiver text' d') := by
  unfold receiver
  refine Draft.Twin.note ?_ fun hkey => absurd hkey (Shared.not_header (by decide))
  refine Draft.Twin.noteText ?_ fun hkey => absurd hkey (Shared.not_header (by decide))
  exact twin.noteText? (Shared.not_header (by decide))

theorem receiverPart_echoes {d d' : Draft} (m : Match)
    (twin : d.Twin (shared source source' masked) start d') :
    Attempt.Echoes (receiverPart ⟨source, masked⟩ pos m d) (receiverPart ⟨source', masked⟩ pos m d')
      fun r r' => r.1 = r'.1 ∧ r.2.Twin (shared source source' masked) start r'.2 := by
  unfold receiverPart
  split
  next =>
    refine (Attempt.Echoes.read _ _).bind fun part part' _ => ?_
    exact Attempt.Echoes.pure ⟨rfl, receiver_twin part part' twin⟩
  next => exact Attempt.Echoes.pure ⟨rfl, twin⟩

theorem typeParameters_echoes {d d' : Draft} (m : Match)
    (twin : d.Twin (shared source source' masked) start d') :
    Attempt.Echoes (typeParameters ⟨source, masked⟩ pos m d)
      (typeParameters ⟨source', masked⟩ pos m d')
      (Draft.Twin (shared source source' masked) start) := by
  unfold typeParameters
  split
  next =>
    refine (Attempt.Echoes.read _ _).bind fun params params' _ => ?_
    refine Attempt.Echoes.pure (twin.noteText fun hkey => ?_)
    exact absurd hkey (Shared.not_header (by decide))
  next => exact Attempt.Echoes.pure twin

/-- The parameters of a list are the same if the sources have the same list. -/
theorem parameters_eq {list : Range} {t t' : Text} (found : ListAt masked start list)
    (h : MaskedSource.text? ⟨source, masked⟩ list.start list.stop = some t)
    (h' : MaskedSource.text? ⟨source', masked⟩ list.start list.stop = some t')
    (shares : shared source source' masked start "parameters") : t = t' :=
  Option.some.inj (h.symm.trans ((Shared.list_of_header shares list found).trans h'))

theorem size_eq (both : MasksBoth source source' masked) :
    MaskedSource.size ⟨source', masked⟩ = MaskedSource.size ⟨source, masked⟩ := both.size_eq.symm

theorem resultsEnd_echoes (both : MasksBoth source source' masked) (body : Option Nat) :
    Attempt.Echoes (resultsEnd ⟨source, masked⟩ start body)
      (resultsEnd ⟨source', masked⟩ start body) Eq := by
  cases body with
  | some brace => exact Attempt.Echoes.pure rfl
  | none =>
    simp only [resultsEnd, size_eq both]
    exact Attempt.Echoes.need fun _ _ h h' => Option.some.inj (h.symm.trans h')

theorem funcEnd_echoes (both : MasksBoth source source' masked) (name : Text)
    (body : Option Nat) :
    Attempt.Echoes (funcEnd ⟨source, masked⟩ name stop body)
      (funcEnd ⟨source', masked⟩ name stop body) Eq := by
  cases body with
  | some brace =>
    simp only [funcEnd, size_eq both]
    exact (Attempt.bodyEnds_echoes _ _ _).then fun _ => Attempt.Echoes.pure rfl
  | none => exact Attempt.Echoes.pure rfl

theorem bodyOpen?_eq (both : MasksBoth source source' masked) (start : Nat) :
    bodyOpen? ⟨source', masked⟩ start = bodyOpen? ⟨source, masked⟩ start := by
  simp only [bodyOpen?, size_eq both]

theorem funcDecl_echoes (both : MasksBoth source source' masked) :
    Attempt.Echoes (funcDecl ⟨source, masked⟩ start) (funcDecl ⟨source', masked⟩ start)
      (Declared.Twin (shared source source' masked)) := by
  unfold funcDecl
  refine Attempt.Echoes.needed fun rest hrest => ?_
  refine Attempt.Echoes.expected fun m hm => ?_
  have named : (Draft.named (m.groupText 2)).Twin (shared source source' masked) start
    (Draft.named (m.groupText 2)) := .named _
  dsimp only
  cases hclose : Scan.findMatching? masked (start + m.stop - 1) '(' ')' with
  | none =>
    simp only [size_eq both]
    exact (Attempt.Echoes.warn _ _ _).then fun _ => Attempt.Echoes.abandoned
  | some close =>
    refine (receiverPart_echoes m named).bind ?_
    rintro ⟨kind, d⟩ ⟨kind', d'⟩ ⟨same, twin⟩
    obtain rfl : kind = kind' := same
    refine (typeParameters_echoes m twin).bind fun d d' twin => ?_
    refine (Attempt.Echoes.read _ _).bind fun list list' ⟨hlist, hlist'⟩ => ?_
    rw [bodyOpen?_eq both]
    refine Attempt.Echoes.needed fun body _ => ?_
    refine (resultsEnd_echoes both body).then fun last => ?_
    refine (Attempt.Echoes.read _ _).bind fun results results' _ => ?_
    refine (funcEnd_echoes both _ body).then fun stop => ?_
    refine single_echoes (access_twin _ (Draft.Twin.noteUnless ?_ (Shared.not_header (by decide))))
    refine twin.note fun shares => ?_
    rw [parameters_eq (.func hrest hm hclose) hlist hlist' shares]

/-! ### Lines of bodies -/

/-- The first character of a field's type is code, so the type is never empty. -/
theorem namedField?_some {raw code : Text} {m : Match} {r : Option (List Text × Text)}
    (hm : Masks raw code) (found : field.matchFront? code = some m)
    (h : namedField? raw code = some r) : ∃ type, r = some (listedNames (m.groupText 1), type) := by
  obtain ⟨pre, type, hgroup, rfl, c, more, rfl, inked, noTick⟩ := field_match found
  simp only [namedField?, found, hgroup, Option.bind_eq_bind, Option.bind_some] at h
  obtain ⟨t, ht, h⟩ := Option.bind_eq_some_iff.mp h
  obtain ⟨front, back, hraw, hfront, hsize⟩ := Text.slice?_eq_some_iff.mp ht
  obtain ⟨front', back', hraw', hm', -⟩ := hm.kept (inked_ne_space c inked)
  -- The piece of the source that is cut out begins with the same character as the type.
  have opens : Text.Opens Inked t := by
    obtain ⟨rfl, rest⟩ := Text.cut_unique
      (hraw'.symm.trans (by rw [hraw, List.append_assoc])) (hm'.size_eq.symm.trans hfront.symm)
    cases t with
    | nil =>
      have width := c.utf8Size_pos
      have tick : (c == '\x60') = false := by simpa using noTick
      simp only [Text.find?, tick, Span.stop, Text.size_cons] at hsize
      cases hfind : Text.find? (· == '\x60') more with
      | none =>
        simp [hfind] at hsize
        omega
      | some tickAt =>
        simp [hfind] at hsize
        omega
    | cons x t =>
      obtain ⟨rfl, -⟩ := List.cons.inj rest
      exact ⟨_, t, rfl, inked⟩
  have full : Text.trim t ≠ [] := by
    intro empty
    obtain ⟨x, xs, rfl, solid⟩ := opens
    have pos := size_trimEnd_pos ⟨x, xs, rfl, solid⟩
    have start : Text.trimStart (x :: xs) = x :: xs := by
      rw [Text.trimStart, List.dropWhile_cons_of_neg (by simp [solid])]
    rw [Text.trim, start] at empty
    rw [empty, Text.size_nil] at pos
    omega
  rw [if_neg (by simpa using full)] at h
  exact ⟨_, (Option.some.inj h).symm⟩

theorem namedField?_names {raw raw' code : Text} {r r' : Option (List Text × Text)}
    (both : MasksBoth raw raw' code) (h : namedField? raw code = some r)
    (h' : namedField? raw' code = some r') : r.map Prod.fst = r'.map Prod.fst := by
  cases found : field.matchFront? code with
  | none =>
    simp only [namedField?, found, Option.some.injEq] at h h'
    rw [← h, ← h']
  | some m =>
    obtain ⟨type, rfl⟩ := namedField?_some both.first found h
    obtain ⟨type', rfl⟩ := namedField?_some both.second found h'
    rfl

theorem lineFields_echoes (both : MasksBoth source source' masked) (start stop : Nat) :
    Build.Echoes (lineFields ⟨source, masked⟩ start stop) (lineFields ⟨source', masked⟩ start stop)
      (List.Forall₂ (Node.Twin (shared source source' masked))) := by
  unfold lineFields
  refine Build.Echoes.needed fun code hcode => ?_
  refine (Build.Echoes.read _ _).bind fun raw raw' ⟨hraw, hraw'⟩ => ?_
  refine (Build.Echoes.read _ _).bind fun r r' ⟨hr, hr'⟩ => ?_
  have names := namedField?_names (both.slices hraw hraw' hcode) hr hr'
  cases r with
  | some field =>
    cases r' with
    | none => simp at names
    | some field' =>
      obtain ⟨listed, type⟩ := field
      obtain ⟨listed', type'⟩ := field'
      obtain rfl : listed = listed' := by simpa using names
      refine Build.Echoes.mapM fun name => Build.Echoes.span ?_
      refine Draft.Twin.noteText? (access_twin _ ?_) (Shared.not_header (by decide))
      exact (Draft.Twin.named name).noteText fun hkey => absurd hkey (Shared.not_header (by decide))
  | none =>
    cases r' with
    | some field' => simp at names
    | none =>
      dsimp only
      split
      next => exact Build.Echoes.pure .nil
      next =>
        refine (Build.Echoes.span ?_).bind fun n n' twin => Build.Echoes.pure (.cons twin .nil)
        refine Draft.Twin.noteText? (access_twin _ ?_) (Shared.not_header (by decide))
        refine Draft.Twin.note ?_ fun _ => rfl
        exact (Draft.Twin.named _).noteText fun _ => rfl

theorem eachLine_echoes {α : Type} {R : α → α → Prop} {read read' : Nat → Nat → Build (List α)}
    (h : ∀ start stop, Build.Echoes (read start stop) (read' start stop) (List.Forall₂ R))
    (limit pos : Nat) :
    Build.Echoes (eachLine ⟨source, masked⟩ limit read pos)
      (eachLine ⟨source', masked⟩ limit read' pos) (List.Forall₂ R) := by
  induction hd : limit - pos using Nat.strongRecOn generalizing pos with
  | ind d ih =>
    rw [eachLine, eachLine]
    split
    next =>
      refine Build.Echoes.needed fun stop _ => ?_
      refine (h pos stop).bind fun found found' first => ?_
      refine Build.Echoes.needed ?_
      rintro ⟨next, progress⟩ -
      refine (ih (limit - next) (by omega) next rfl).bind fun later later' rest => ?_
      exact Build.Echoes.pure (List.rel_append first rest)
    next => exact Build.Echoes.pure .nil

theorem structFields_echoes (both : MasksBoth source source' masked) :
    Build.Echoes (structFields ⟨source, masked⟩ start limit)
      (structFields ⟨source', masked⟩ start limit)
      (List.Forall₂ (Node.Twin (shared source source' masked))) := by
  refine Build.Echoes.needed fun pos _ => ?_
  exact eachLine_echoes (lineFields_echoes both) limit pos

/-- Lines of an interface that hold twins, or embedded types. -/
inductive InterfaceItem.Twin (twins : Shared) : InterfaceItem → InterfaceItem → Prop where
  | method {n n' : Node} : Node.Twin twins n n' → Twin twins (.method n) (.method n')
  | embedded (t t' : Text) : Twin twins (.embedded t) (.embedded t')

theorem interfaceItem_echoes (start stop : Nat) :
    Build.Echoes (interfaceItem ⟨source, masked⟩ start stop)
      (interfaceItem ⟨source', masked⟩ start stop)
      (List.Forall₂ (InterfaceItem.Twin (shared source source' masked))) := by
  unfold interfaceItem
  refine Build.Echoes.needed fun code hcode => ?_
  dsimp only
  cases hhead : (interfaceMethod.matchFront? code).bind fun m =>
      (Scan.findMatchingBefore? masked (start + m.stop - 1) stop '(' ')').map fun close =>
        (m.groupText 1, start + m.stop - 1, close) with
  | some head =>
    obtain ⟨m, hm, found⟩ := Option.bind_eq_some_iff.mp hhead
    obtain ⟨close, hclose, rfl⟩ := Option.map_eq_some_iff.mp found
    refine (Build.Echoes.read _ _).bind fun list list' ⟨hlist, hlist'⟩ => ?_
    refine (Build.Echoes.read _ _).bind fun results results' _ => ?_
    refine (Build.Echoes.span ?_).bind fun n n' twin =>
      Build.Echoes.pure (.cons (.method twin) .nil)
    refine Draft.Twin.noteUnless (access_twin _ ?_) (Shared.not_header (by decide))
    refine Draft.Twin.note ?_ fun _ => rfl
    refine (Draft.Twin.named _).note fun shares => ?_
    rw [parameters_eq (.method hcode hm hclose) hlist hlist' shares]
  | none =>
    dsimp only
    split
    next => exact Build.Echoes.pure .nil
    next =>
      refine (Build.Echoes.read _ _).bind fun t t' _ => ?_
      exact Build.Echoes.pure (.cons (.embedded _ _) .nil)

theorem nodes_twin {items items' : List InterfaceItem}
    (h : List.Forall₂ (InterfaceItem.Twin twins) items items') :
    List.Forall₂ (Node.Twin twins) (items.filterMap InterfaceItem.node?)
      (items'.filterMap InterfaceItem.node?) := by
  induction h with
  | nil => exact .nil
  | cons first _ ih =>
    cases first with
    | method twin => exact .cons twin ih
    | embedded => exact ih

theorem interfaceMembers_echoes :
    Build.Echoes (interfaceMembers ⟨source, masked⟩ start limit)
      (interfaceMembers ⟨source', masked⟩ start limit) fun r r' =>
        List.Forall₂ (Node.Twin (shared source source' masked)) r.1 r'.1 := by
  refine Build.Echoes.needed fun pos _ => ?_
  refine (eachLine_echoes interfaceItem_echoes limit pos).bind fun items items' twins => ?_
  exact Build.Echoes.pure (nodes_twin twins)

/-! ### Items -/

/-- The items of the two runs give twins wherever they are read. -/
abbrev Items (twins : Shared) (item item' : ItemReader) : Prop :=
  ∀ nodeStart start limit, Attempt.Echoes (item nodeStart start limit) (item' nodeStart start limit)
    (Declared.Twin twins)

theorem bodyType_echoes (both : MasksBoth source source' masked) {d d' : Draft} (name rest : Text)
    (typeStart limit : Nat) (twin : d.Twin (shared source source' masked) start d') :
    Attempt.Echoes (bodyType ⟨source, masked⟩ name start typeStart limit rest d)
      (bodyType ⟨source', masked⟩ name start typeStart limit rest d')
      (Declared.Twin (shared source source' masked)) := by
  refine Attempt.Echoes.expected fun offset _ => ?_
  refine (Attempt.bodyEnds_echoes _ _ _).then fun ⟨bodyEnd, stop⟩ => ?_
  dsimp only
  split
  next =>
    refine (Attempt.Echoes.lift (structFields_echoes both)).bind fun fields fields' twins => ?_
    exact single_echoes (twin.withChildren twins)
  next =>
    refine (Attempt.Echoes.lift interfaceMembers_echoes).bind ?_
    rintro ⟨methods, embedded⟩ ⟨methods', embedded'⟩ twins
    refine single_echoes (Draft.Twin.withChildren ?_ twins)
    exact twin.noteTexts (Shared.not_header (by decide))

theorem typePlace_echoes (m : Match) (nodeStart : Nat) :
    Attempt.Echoes (typePlace ⟨source, masked⟩ start m) (typePlace ⟨source', masked⟩ start m)
      fun r r' => r.1 = r'.1 ∧ r.2.Twin (shared source source' masked) nodeStart r'.2 := by
  unfold typePlace
  dsimp only
  split
  next => exact Attempt.Echoes.pure ⟨rfl, .named _⟩
  next =>
    split
    next =>
      refine (Attempt.Echoes.read _ _).bind fun params params' _ => ?_
      refine Attempt.Echoes.pure ⟨rfl, (Draft.Twin.named _).noteText fun hkey => ?_⟩
      exact absurd hkey (Shared.not_header (by decide))
    next => exact Attempt.Echoes.pure ⟨rfl, .named _⟩

theorem typeItem_echoes (both : MasksBoth source source' masked) :
    Items (shared source source' masked) (typeItem ⟨source, masked⟩)
      (typeItem ⟨source', masked⟩) := by
  intro nodeStart start limit
  unfold typeItem
  refine Attempt.Echoes.needed fun code _ => ?_
  refine Attempt.Echoes.expected fun m _ => ?_
  refine (typePlace_echoes m nodeStart).bind ?_
  rintro ⟨typeStart, d⟩ ⟨typeStart', d'⟩ ⟨same, twin⟩
  obtain rfl : typeStart = typeStart' := same
  refine Attempt.Echoes.needed fun rest _ => ?_
  have named := access_twin (m.groupText 1) twin
  dsimp only
  split
  next => exact bodyType_echoes both _ _ _ _ named
  next =>
    refine Attempt.Echoes.needed fun stop _ => ?_
    refine (Attempt.Echoes.read _ _).bind fun target target' _ => ?_
    refine single_echoes ?_
    have noted : ((access (m.groupText 1) d).noteText "aliasOf" (Text.trim target)).Twin
        (shared source source' masked) nodeStart
        ((access (m.groupText 1) d').noteText "aliasOf" (Text.trim target')) :=
      named.noteText fun hkey => absurd hkey (Shared.not_header (by decide))
    split
    next => exact noted.note fun _ => rfl
    next => exact noted

theorem valueItem_echoes (keyword : Text) :
    Items (shared source source' masked) (valueItem ⟨source, masked⟩ keyword)
      (valueItem ⟨source', masked⟩ keyword) := by
  intro nodeStart start limit
  unfold valueItem
  refine Attempt.Echoes.needed fun stop _ => ?_
  refine Attempt.Echoes.needed fun code _ => ?_
  refine Attempt.Echoes.expected fun names _ => ?_
  refine Attempt.Echoes.needed fun rest _ => ?_
  have nodes (type type' : Option Text) : Attempt.Echoes (do
      let nodes ← ((listedNames names.whole.text).filter (· != ['_'])).mapM fun name =>
        Attempt.span .variableDecl nodeStart stop
          ((access name ((Draft.named name).noteText "declarationKind" keyword)).noteText?
            "typeAnnotation" type)
      return (⟨nodes, stop⟩ : Declared)) (do
      let nodes ← ((listedNames names.whole.text).filter (· != ['_'])).mapM fun name =>
        Attempt.span .variableDecl nodeStart stop
          ((access name ((Draft.named name).noteText "declarationKind" keyword)).noteText?
            "typeAnnotation" type')
      return (⟨nodes, stop⟩ : Declared)) (Declared.Twin (shared source source' masked)) := by
    have draft (name : Text) : ((access name ((Draft.named name).noteText "declarationKind"
        keyword)).noteText? "typeAnnotation" type).Twin (shared source source' masked) nodeStart
        ((access name ((Draft.named name).noteText "declarationKind" keyword)).noteText?
          "typeAnnotation" type') := by
      refine Draft.Twin.noteText? (access_twin _ ?_) (Shared.not_header (by decide))
      exact (Draft.Twin.named name).noteText fun _ => rfl
    refine (Attempt.Echoes.mapM fun name => Attempt.Echoes.span (draft name)).bind ?_
    exact fun ns ns' twins => Attempt.Echoes.pure ⟨twins, rfl⟩
  dsimp only
  split
  next => exact nodes none none
  next =>
    refine (Attempt.Echoes.read _ _).bind fun type type' _ => ?_
    exact nodes (some type) (some type')

theorem importSpec_rel {line line' : Text} (same : importPath? line = importPath? line') :
    Option.Rel (fun m m' : Match => m.groupText 2 = m'.groupText 2)
      (importSpec.matchFront? line) (importSpec.matchFront? line') := by
  unfold importPath? at same
  cases hm : importSpec.matchFront? line with
  | none =>
    rw [hm, Option.map_none, eq_comm, Option.map_eq_none_iff] at same
    rw [same]
    exact .none
  | some m =>
    rw [hm, Option.map_some, eq_comm, Option.map_eq_some_iff] at same
    obtain ⟨m', hm', path⟩ := same
    rw [hm']
    exact .some path.symm

/-- An item of an import ends with its line. -/
theorem importItem_echoes (twins : Shared) (nodeStart : Nat)
    (same : ∀ stop, lineEnd? ⟨masked, masked⟩ start limit = some stop →
      SameImport source source' ⟨start, stop⟩) :
    Attempt.Echoes (importItem ⟨source, masked⟩ nodeStart start limit)
      (importItem ⟨source', masked⟩ nodeStart start limit) fun d d' =>
        Declared.Twin twins d d' ∧ lineEnd? ⟨masked, masked⟩ start limit = some d.stop := by
  unfold importItem
  refine Attempt.Echoes.needed fun stop hstop => ?_
  refine (Attempt.Echoes.read _ _).bind fun line line' ⟨hline, hline'⟩ => ?_
  have paths : importPath? line = importPath? line' := by
    have here := same stop hstop
    rw [SameImport, show Text.slice? source start stop = some line from hline,
      show Text.slice? source' start stop = some line' from hline'] at here
    exact here
  refine (Attempt.Echoes.expect (importSpec_rel paths)).bind fun m m' path => ?_
  rw [path]
  refine (Attempt.Echoes.span ?_).bind fun n n' twin =>
    Attempt.Echoes.pure ⟨⟨.cons twin .nil, rfl⟩, hstop⟩
  exact (Draft.Twin.named _).noteText fun _ => rfl

/-! ### Groups -/

/-- An item or a line from which both runs go on at the same place. -/
def GoesOn (twins : Shared) (masked : Text) (there : Nat → Prop) (pos : Nat) (d d' : Declared) :
    Prop :=
  Declared.Twin twins d d' ∧ ∀ next, goOn? ⟨masked, masked⟩ pos d.stop = some next → there next

theorem groupItems_echoes {item item' : ItemReader} {close : Nat} {there : Nat → Prop}
    (h : ∀ pos, there pos → Build.Echoes (itemOrLine ⟨source, masked⟩ item close pos)
      (itemOrLine ⟨source', masked⟩ item' close pos) (GoesOn twins masked there pos))
    {pos : Nat} (here : there pos) :
    Build.Echoes (groupItems ⟨source, masked⟩ item close pos)
      (groupItems ⟨source', masked⟩ item' close pos) (List.Forall₂ (Node.Twin twins)) := by
  induction hd : close - pos using Nat.strongRecOn generalizing pos with
  | ind d ih =>
    rw [groupItems, groupItems]
    split
    next =>
      refine (h pos here).bind ?_
      rintro declared declared' ⟨⟨nodes, stop⟩, goes⟩
      rw [← stop]
      refine Build.Echoes.needed ?_
      rintro ⟨next, progress⟩ hnext
      have there := goes ⟨next, progress⟩ hnext
      refine (ih (close - next) (by omega) there rfl).bind fun later later' rest => ?_
      exact Build.Echoes.pure (List.rel_append nodes rest)
    next => exact Build.Echoes.pure .nil

theorem itemOrLine_echoes {item item' : ItemReader} (h : Items twins item item') (close pos : Nat) :
    Build.Echoes (itemOrLine ⟨source, masked⟩ item close pos)
      (itemOrLine ⟨source', masked⟩ item' close pos) (GoesOn twins masked (fun _ => True) pos) := by
  unfold itemOrLine
  refine Build.Echoes.bind (h pos pos close) fun r r' related => ?_
  cases related with
  | some twin => exact Build.Echoes.pure ⟨twin, fun _ _ => trivial⟩
  | none =>
    refine Build.Echoes.needed fun stop _ => ?_
    exact Build.Echoes.pure ⟨⟨.nil, rfl⟩, fun _ _ => trivial⟩

theorem importLine_echoes {close first : Nat}
    (same : ∀ pos stop, LineAt masked close first pos →
      lineEnd? ⟨masked, masked⟩ pos close = some stop → SameImport source source' ⟨pos, stop⟩)
    {pos : Nat} (here : LineAt masked close first pos) :
    Build.Echoes (itemOrLine ⟨source, masked⟩ (importItem ⟨source, masked⟩) close pos)
      (itemOrLine ⟨source', masked⟩ (importItem ⟨source', masked⟩) close pos)
      (GoesOn twins masked (LineAt masked close first) pos) := by
  unfold itemOrLine
  refine Build.Echoes.bind (importItem_echoes twins pos fun stop => same pos stop here) ?_
  intro r r' related
  cases related with
  | some twin => exact Build.Echoes.pure ⟨twin.1, fun _ hnext => .next here twin.2 hnext⟩
  | none =>
    refine Build.Echoes.needed fun stop hstop => ?_
    exact Build.Echoes.pure ⟨⟨.nil, rfl⟩, fun _ hnext => .next here hstop hnext⟩

theorem groupClose_echoes (both : MasksBoth source source' masked) (keyword : Text) :
    Attempt.Echoes (groupClose ⟨source, masked⟩ keyword start)
      (groupClose ⟨source', masked⟩ keyword start)
      fun close close' => close = close' ∧ close = groupStop? masked start := by
  unfold groupClose groupStop?
  have size : MaskedSource.size ⟨source, masked⟩ = Text.size masked := both.first.size_eq.symm
  rw [size_eq both, size]
  dsimp only
  cases Scan.findMatching? masked start '(' ')' with
  | some close => exact Attempt.Echoes.pure ⟨rfl, rfl⟩
  | none => exact (Attempt.Echoes.warn _ _ _).then fun _ => Attempt.Echoes.pure ⟨rfl, rfl⟩

theorem grouped_echoes {item item' : ItemReader} (both : MasksBoth source source' masked)
    (keyword : Text)
    (single : ∀ after,
      MaskedSource.skipBlanks? ⟨masked, masked⟩ (start + Text.size keyword) = some after →
      Text.at? masked after ≠ some '(' →
      Attempt.Echoes (item start after (Text.size masked)) (item' start after (Text.size masked))
        (Declared.Twin twins))
    (group : ∀ after first,
      MaskedSource.skipBlanks? ⟨masked, masked⟩ (start + Text.size keyword) = some after →
      Text.at? masked after = some '(' →
      MaskedSource.skipBlanks? ⟨masked, masked⟩ (after + 1) = some first →
      Build.Echoes (groupItems ⟨source, masked⟩ item (groupStop? masked after) first)
        (groupItems ⟨source', masked⟩ item' (groupStop? masked after) first)
        (List.Forall₂ (Node.Twin twins))) :
    Attempt.Echoes (grouped ⟨source, masked⟩ keyword item start)
      (grouped ⟨source', masked⟩ keyword item' start) (Declared.Twin twins) := by
  have size : MaskedSource.size ⟨source, masked⟩ = Text.size masked := both.first.size_eq.symm
  unfold grouped
  rw [size_eq both, size]
  refine Attempt.Echoes.needed fun after hafter => ?_
  dsimp only
  split
  next other => exact single after hafter (by simpa using other)
  next paren =>
    have paren : Text.at? masked after = some '(' := by simpa using paren
    refine (groupClose_echoes both keyword).bind ?_
    rintro close _ ⟨rfl, rfl⟩
    refine Attempt.Echoes.needed fun first hfirst => ?_
    refine (Attempt.Echoes.lift (group after first hafter paren hfirst)).bind fun ns ns' twins => ?_
    exact Attempt.Echoes.pure ⟨twins, rfl⟩

theorem grouped_items_echoes {item item' : ItemReader} (both : MasksBoth source source' masked)
    (keyword : Text) (h : Items twins item item') :
    Attempt.Echoes (grouped ⟨source, masked⟩ keyword item start)
      (grouped ⟨source', masked⟩ keyword item' start) (Declared.Twin twins) := by
  refine grouped_echoes both keyword (fun after _ _ => h _ _ _) fun after first _ _ _ => ?_
  exact groupItems_echoes (fun pos _ => itemOrLine_echoes h _ pos) trivial

theorem grouped_imports_echoes (both : MasksBoth source source' masked) {keyword : Span}
    (same : ∀ line, ImportLine masked keyword line → SameImport source source' line) :
    Attempt.Echoes (grouped ⟨source, masked⟩ keyword.text (importItem ⟨source, masked⟩) keyword.start)
      (grouped ⟨source', masked⟩ keyword.text (importItem ⟨source', masked⟩) keyword.start)
      (Declared.Twin twins) := by
  refine grouped_echoes both keyword.text (fun after hafter other => ?_) ?_
  · refine (importItem_echoes twins keyword.start fun stop hstop => ?_).mono fun _ _ h => h.1
    exact same _ (.single hafter other hstop)
  · intro after first hafter paren hfirst
    refine groupItems_echoes (fun pos here => importLine_echoes ?_ here) .top
    exact fun pos stop here hstop => same _ (.grouped hafter paren hfirst here hstop)

/-! ### The tree -/

theorem declared_echoes (both : MasksBoth source source' masked) {keyword : Span}
    (same : keyword.text = "import".toList → ∀ line, ImportLine masked keyword line →
      SameImport source source' line) :
    Attempt.Echoes (declared ⟨source, masked⟩ keyword.text keyword.start)
      (declared ⟨source', masked⟩ keyword.text keyword.start)
      (Declared.Twin (shared source source' masked)) := by
  unfold declared
  split
  next => exact packageDecl_echoes
  next import' =>
    refine grouped_imports_echoes both (same ?_)
    rw [← import', String.toList_ofList]
  next => exact funcDecl_echoes both
  next => exact grouped_items_echoes both _ (typeItem_echoes both)
  next => exact grouped_items_echoes both _ (valueItem_echoes _)

theorem declarations_echoes (both : MasksBoth source source' masked) (blocks : List Range)
    (covered : Nat) {keywords : List Span}
    (same : ∀ keyword ∈ keywords, keyword.text = "import".toList →
      ∀ line, ImportLine masked keyword line → SameImport source source' line) :
    Build.Echoes (declarations ⟨source, masked⟩ blocks covered keywords)
      (declarations ⟨source', masked⟩ blocks covered keywords)
      (List.Forall₂ (Node.Twin (shared source source' masked))) := by
  induction keywords generalizing covered with
  | nil => exact Build.Echoes.pure .nil
  | cons keyword keywords ih =>
    have later (covered : Nat) := ih covered fun k hk => same k (by simp [hk])
    rw [declarations, declarations]
    split
    next => exact later covered
    next =>
      refine Build.Echoes.bind (declared_echoes both (same keyword (by simp))) ?_
      intro r r' related
      cases related with
      | none => exact later covered
      | @some d d' twin =>
        dsimp only
        rw [← twin.stop]
        refine (later d.stop).bind fun ns ns' rest => ?_
        exact Build.Echoes.pure (List.rel_append twin.nodes rest)

/-- Trees of sources with one mask and the same imports are built alike. -/
theorem tree_echoes (same : Scan.maskBrace source = Scan.maskBrace source')
    (imports : SameImports source source' (Scan.maskBrace source)) :
    Build.Echoes (tree source) (tree source')
      (Node.Twin (shared source source' (Scan.maskBrace source))) := by
  have both := MasksBoth.of_maskBrace same
  unfold tree
  simp only [MaskedSource.ofBrace, ← same, size_eq both]
  refine (declarations_echoes both _ 0 imports).bind fun _ _ twins => ?_
  exact Build.Echoes.root twins

end SourceTree.Go
