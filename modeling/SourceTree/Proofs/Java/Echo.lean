import SourceTree.Proofs.Echo
import SourceTree.Proofs.Java.Members

/-!
What a Java tree takes from the mask alone. Headers, bodies and the order of declarations are found
in the mask; the source is only asked for the texts that become metadata. Of these the modifiers and
the parameters are told apart by the pieces of the source that they are read from.
-/

namespace SourceTree.Java

open Scan (MaskedSource Range)

variable {source source' masked : Text} {start limit pos : Nat}

/-! ### The pieces that metadata is read from -/

/-- The header is found at the offset. -/
def HeaderAt (masked : Text) (header : Pattern) (start limit : Nat) (m : Match) : Prop :=
  ∃ code, Text.slice? masked start limit = some code ∧ header.matchFront? code = some m

/-- The modifiers of a declaration whose header is found at the offset. -/
inductive ModifiersAt (masked : Text) (start : Nat) : Range → Prop where
  | front {header : Pattern} {limit : Nat} {m : Match} {g : Span} :
      header ∈ [typeHeader, constructorHeader, methodHeader, fieldHeader] →
      HeaderAt masked header start limit m → m.group? 2 = some g →
      ModifiersAt masked start ⟨start + g.start, start + g.stop⟩

/-- A piece of the list between two offsets. -/
inductive PieceOf (masked : Text) (list : Range) : Range → Prop where
  | piece {code : Text} {p : Span} : Text.slice? masked list.start list.stop = some code →
      p ∈ Scan.splitTopLevel code ',' true →
      PieceOf masked list ⟨list.start + p.start, list.start + p.stop⟩

/-- Where to go on behind the type parameters at the offset, if there are any. -/
def pastTypeParameters? (masked : Text) (pos limit : Nat) : Option Nat :=
  if Text.at? masked pos == some '<' then
    (Scan.findMatchingBefore? masked pos limit '<' '>').bind fun close =>
      MaskedSource.skipBlanks? ⟨masked, masked⟩ (close + 1)
  else some pos

/-- The list of parameters of a callable, or of components of a record, whose header is found at the
offset. -/
inductive ListAt (masked : Text) (start : Nat) : Range → Prop where
  | callable {header : Pattern} {limit close : Nat} {m : Match} :
      header ∈ [constructorHeader, methodHeader] → HeaderAt masked header start limit m →
      Scan.findMatchingBefore? masked (start + m.stop - 1) limit '(' ')' = some close →
      ListAt masked start ⟨start + m.stop - 1 + 1, close⟩
  | record {limit behind pos close : Nat} {m : Match} :
      HeaderAt masked typeHeader start limit m →
      MaskedSource.skipBlanks? ⟨masked, masked⟩ (start + m.stop) = some behind →
      pastTypeParameters? masked behind limit = some pos →
      Scan.findMatchingBefore? masked pos limit '(' ')' = some close →
      ListAt masked start ⟨pos + 1, close⟩

/-- Both sources have the same modifiers at the offset. -/
def SameModifiers (source source' masked : Text) (start : Nat) : Prop :=
  ∀ piece, ModifiersAt masked start piece → SameIn source source' piece

/-- Both sources have the same parameters at the offset. -/
def SameParameters (source source' masked : Text) (start : Nat) : Prop :=
  ∀ list, ListAt masked start list → ∀ piece, PieceOf masked list piece →
    SameIn source source' piece

/-- What the trees of two sources with one mask share. -/
abbrev shared (source source' masked : Text) : Shared :=
  .header (SameModifiers source source' masked) (SameParameters source source' masked)

/-! ### Modifiers and parameters -/

/-- The fronts have the same modifiers wherever the sources do. -/
def Front.Alike (source source' masked : Text) (start : Nat) (f f' : Front) : Prop :=
  SameModifiers source source' masked start → f.words = f'.words

/-- The modifiers are read from one piece of the source. -/
theorem words_of_ofMatch? {text : MaskedSource} {m : Match} {f : Front}
    (h : Front.ofMatch? text start m = some f) : ∃ g words, m.group? 2 = some g ∧
      text.text? (start + g.start) (start + g.stop) = some words ∧ f.words = Text.words words := by
  obtain ⟨annotations, _, h⟩ := Option.bind_eq_some_iff.mp h
  obtain ⟨g, hg, h⟩ := Option.bind_eq_some_iff.mp h
  obtain ⟨words, hwords, h⟩ := Option.bind_eq_some_iff.mp h
  obtain ⟨found, _, h⟩ := Option.bind_eq_some_iff.mp h
  obtain rfl := Option.some.inj h
  exact ⟨g, words, hg, hwords, rfl⟩

theorem front_echoes {header : Pattern} {m : Match}
    (known : header ∈ [typeHeader, constructorHeader, methodHeader, fieldHeader])
    (found : HeaderAt masked header start limit m) :
    Attempt.Echoes (Attempt.need (Front.ofMatch? ⟨source, masked⟩ start m))
      (Attempt.need (Front.ofMatch? ⟨source', masked⟩ start m))
      (Front.Alike source source' masked start) := by
  refine Attempt.Echoes.need fun f f' h h' same => ?_
  obtain ⟨g, words, hg, hwords, hf⟩ := words_of_ofMatch? h
  obtain ⟨g', words', hg', hwords', hf'⟩ := words_of_ofMatch? h'
  obtain rfl : g = g' := Option.some.inj (hg.symm.trans hg')
  have piece := same _ (.front known found hg)
  obtain rfl : words = words' := Option.some.inj (hwords.symm.trans (piece.trans hwords'))
  rw [hf, hf']

theorem Front.Alike.has {f f' : Front} (h : Front.Alike source source' masked start f f')
    (same : SameModifiers source source' masked start) (word : String) : f.has word = f'.has word := by
  rw [Front.has, Front.has, h same]

theorem Front.Alike.apply {f f' : Front} {d d' : Draft}
    (h : Front.Alike source source' masked start f f')
    (twin : d.Twin (shared source source' masked) start d') (inInterface : Bool) :
    (f.apply inInterface d).Twin (shared source source' masked) start (f'.apply inInterface d') := by
  have visibility (same : SameModifiers source source' masked start) :
      f.visibility inInterface = f'.visibility inInterface := by
    simp only [Front.visibility, h.has same]
  unfold Front.apply
  refine Draft.Twin.noteTexts ?_ (Shared.not_header (by decide))
  refine Draft.Twin.noteIf ?_ fun hkey => h.has (Shared.front_of_header hkey (by decide)) _
  refine Draft.Twin.noteIf ?_ fun hkey => h.has (Shared.front_of_header hkey (by decide)) _
  refine Draft.Twin.noteIf ?_ fun hkey => h.has (Shared.front_of_header hkey (by decide)) _
  refine Draft.Twin.note ?_ fun hkey => ?_
  · refine twin.note fun hkey => ?_
    rw [visibility (Shared.front_of_header hkey (by decide))]
  · rw [visibility (Shared.front_of_header hkey (by decide))]

theorem mapM_congr {α β : Type} {f g : α → Option β} {xs : List α} (h : ∀ x ∈ xs, f x = g x) :
    xs.mapM f = xs.mapM g := by
  induction xs with
  | nil => rfl
  | cons x xs ih =>
    rw [List.mapM_cons, List.mapM_cons, h x (by simp), ih fun y hy => h y (by simp [hy])]

/-- The parameters of a list are the same if the sources agree in each piece of it. -/
theorem parameters?_eq {list : Range}
    (same : ∀ piece, PieceOf masked list piece → SameIn source source' piece) :
    parameters? ⟨source, masked⟩ list = parameters? ⟨source', masked⟩ list := by
  unfold parameters?
  refine Option.bind_congr fun code hcode => ?_
  congr 1
  refine mapM_congr fun piece hpiece => ?_
  have here : SameIn source source' _ := same _ (.piece hcode hpiece)
  simp only [MaskedSource.text?]
  rw [here]

theorem parameters_echoes {list : Range} (found : ListAt masked start list) :
    Attempt.Echoes (Attempt.need (parameters? ⟨source, masked⟩ list))
      (Attempt.need (parameters? ⟨source', masked⟩ list))
      fun ps ps' => SameParameters source source' masked start → ps = ps' := by
  refine Attempt.Echoes.need fun ps ps' h h' same => ?_
  rw [parameters?_eq (same list found)] at h
  exact Option.some.inj (h.symm.trans h')

/-! ### Declarations -/

/-- A header that is found in both runs is the same and stands at the offset. -/
theorem header_echoes (header : Pattern) (start limit : Nat) {α : Type}
    {f f' : Match → Attempt α} {R : α → α → Prop}
    (h : ∀ m, HeaderAt masked header start limit m → Attempt.Echoes (f m) (f' m) R) :
    Attempt.Echoes
      (do f (← Attempt.expect (header.matchFront?
        (← Attempt.need (MaskedSource.code? ⟨source, masked⟩ start limit)))))
      (do f' (← Attempt.expect (header.matchFront?
        (← Attempt.need (MaskedSource.code? ⟨source', masked⟩ start limit))))) R := by
  refine Attempt.Echoes.needed fun code hcode => ?_
  exact Attempt.Echoes.expected fun m hm => h m ⟨code, hcode, hm⟩

variable {twins : Shared}

theorem packageNode_echoes :
    Attempt.Echoes (packageNode ⟨source, masked⟩ start limit) (packageNode ⟨source', masked⟩ start limit)
      (Node.Twin twins) :=
  header_echoes packageStatement start limit fun _ _ => Attempt.Echoes.span (.named _)

theorem importNode_echoes :
    Attempt.Echoes (importNode ⟨source, masked⟩ start limit) (importNode ⟨source', masked⟩ start limit)
      (Node.Twin twins) := by
  refine header_echoes importStatement start limit fun m _ => ?_
  refine Attempt.Echoes.span (Draft.Twin.noteIf ?_ fun _ => rfl)
  exact (Draft.Twin.named _).noteText fun _ => rfl

/-- What is read next begins at one place in both runs. -/
def Reaches (source source' masked : Text) (start : Nat) (p p' : Nat × Draft) : Prop :=
  p.1 = p'.1 ∧ p.2.Twin (shared source source' masked) start p'.2

theorem typeParameters_echoes {d d' : Draft}
    (twin : d.Twin (shared source source' masked) start d') :
    Attempt.Echoes (typeParameters ⟨source, masked⟩ pos limit d)
      (typeParameters ⟨source', masked⟩ pos limit d') fun p p' =>
        pastTypeParameters? masked pos limit = some p.1 ∧ Reaches source source' masked start p p' := by
  unfold typeParameters pastTypeParameters?
  dsimp only
  split
  next =>
    refine Attempt.Echoes.expected fun close hclose => ?_
    refine (Attempt.Echoes.read _ _).bind fun params params' _ => ?_
    refine Attempt.Echoes.needed fun next hnext => ?_
    refine Attempt.Echoes.pure ⟨?_, rfl, ?_⟩
    · rw [hclose]
      exact hnext
    · exact twin.noteText fun hkey => absurd hkey (Shared.not_header (by decide))
  next => exact Attempt.Echoes.pure ⟨rfl, rfl, twin⟩

theorem recordComponents_echoes {d d' : Draft} (name : Text)
    (twin : d.Twin (shared source source' masked) start d')
    (found : ∀ close, Scan.findMatchingBefore? masked pos limit '(' ')' = some close →
      ListAt masked start ⟨pos + 1, close⟩) :
    Attempt.Echoes (recordComponents ⟨source, masked⟩ name pos limit d)
      (recordComponents ⟨source', masked⟩ name pos limit d') (Reaches source source' masked start) := by
  unfold recordComponents
  dsimp only
  split
  next =>
    cases hclose : Scan.findMatchingBefore? masked pos limit '(' ')' with
    | none => exact (Attempt.Echoes.warn _ _ _).then fun _ => Attempt.Echoes.abandoned
    | some close =>
      refine (parameters_echoes (found close hclose)).bind fun ps ps' same => ?_
      refine Attempt.Echoes.pure ⟨rfl, twin.note fun hkey => ?_⟩
      rw [same (Shared.list_of_header hkey)]
  next => exact Attempt.Echoes.pure ⟨rfl, twin⟩

/-- The headers of a type agree in all that its members depend on. -/
structure TypeHeader.Alike (source source' masked : Text) (start : Nat) (h h' : TypeHeader) :
    Prop where
  front : Front.Alike source source' masked start h.front h'.front
  draft : h.draft.Twin (shared source source' masked) start h'.draft
  owner : h.owner = h'.owner
  body : h.body = h'.body
  stop : h.stop = h'.stop

theorem typeRest_echoes {d d' : Draft} {front front' : Front} (keyword name : Text)
    (alike : Front.Alike source source' masked start front front')
    (twin : d.Twin (shared source source' masked) start d') :
    Attempt.Echoes (typeRest ⟨source, masked⟩ front keyword name pos limit d)
      (typeRest ⟨source', masked⟩ front' keyword name pos limit d')
      (TypeHeader.Alike source source' masked start) := by
  refine Attempt.Echoes.expected fun header _ => ?_
  refine Attempt.Echoes.expected fun offset _ => ?_
  refine Attempt.Echoes.needed fun code _ => ?_
  refine Attempt.Echoes.checked ?_
  refine (Attempt.bodyEnds_echoes _ _ _).then fun ⟨bodyEnd, stop⟩ => ?_
  refine (Attempt.Echoes.read _ _).bind fun ⟨bases, implemented⟩ ⟨bases', implemented'⟩ _ => ?_
  refine Attempt.Echoes.pure ⟨alike, ?_, rfl, rfl, rfl⟩
  refine Draft.Twin.noteText ?_ fun _ => rfl
  refine Draft.Twin.noteTexts ?_ (Shared.not_header (by decide))
  exact twin.noteTexts (Shared.not_header (by decide))

theorem typeHead_echoes :
    Attempt.Echoes (typeHead ⟨source, masked⟩ start limit) (typeHead ⟨source', masked⟩ start limit)
      (TypeHeader.Alike source source' masked start) := by
  refine header_echoes typeHeader start limit fun m found => ?_
  refine (front_echoes (by simp) found).bind fun front front' alike => ?_
  refine Attempt.Echoes.needed fun behind hbehind => ?_
  have named : (Draft.named (m.groupText 4)).Twin (shared source source' masked) start
    (Draft.named (m.groupText 4)) := .named _
  refine (typeParameters_echoes named).bind ?_
  rintro ⟨pos, d⟩ ⟨pos', d'⟩ ⟨past, same, twin⟩
  obtain rfl : pos = pos' := same
  dsimp only
  split
  next =>
    refine (recordComponents_echoes _ twin ?_).bind ?_
    · exact fun close hclose => .record found hbehind past hclose
    · rintro ⟨pos, d⟩ ⟨pos', d'⟩ ⟨same, twin⟩
      obtain rfl : pos = pos' := same
      exact typeRest_echoes _ _ alike twin
  next =>
    rw [pure_bind, pure_bind]
    exact typeRest_echoes _ _ alike twin

/-- The bodies of the two runs give twins. -/
abbrev Bodies (twins : Shared) (body body' : Range → Owner → Build (List Node)) : Prop :=
  ∀ region owner, Build.Echoes (body region owner) (body' region owner) (List.Forall₂ (Node.Twin twins))

theorem typeNode_echoes {body body' : Range → Owner → Build (List Node)}
    (bodies : Bodies (shared source source' masked) body body') :
    Attempt.Echoes (typeNode ⟨source, masked⟩ body start limit)
      (typeNode ⟨source', masked⟩ body' start limit) (Node.Twin (shared source source' masked)) := by
  refine typeHead_echoes.bind fun h h' ⟨front, draft, owner, range, stop⟩ => ?_
  rw [← owner, ← range, ← stop]
  refine (Attempt.Echoes.lift (bodies _ _)).bind fun members members' twins => ?_
  exact Attempt.Echoes.span ((front.apply draft false).withChildren twins)

/-- The headers of a callable agree in their match and name; the match is that of a header at the
offset. -/
structure CallableHeader.Alike (masked : Text) (start limit : Nat) (h h' : CallableHeader) :
    Prop where
  found : ∃ header ∈ [constructorHeader, methodHeader], HeaderAt masked header start limit h.found
  same : h.found = h'.found
  name : h.name = h'.name

theorem constructorHead_echoes (owner : Owner) :
    Attempt.Echoes (constructorHead ⟨source, masked⟩ owner start limit)
      (constructorHead ⟨source', masked⟩ owner start limit)
      (CallableHeader.Alike masked start limit) := by
  refine header_echoes constructorHeader start limit fun m found => ?_
  refine Attempt.Echoes.checked ?_
  exact Attempt.Echoes.pure ⟨⟨_, by simp, found⟩, rfl, rfl⟩

theorem methodHead_echoes :
    Attempt.Echoes (methodHead ⟨source, masked⟩ start limit)
      (methodHead ⟨source', masked⟩ start limit) (CallableHeader.Alike masked start limit) := by
  refine header_echoes methodHeader start limit fun m found => ?_
  refine Attempt.Echoes.expected fun type _ => ?_
  refine Attempt.Echoes.checked ?_
  refine (Attempt.Echoes.read _ _).bind fun returnType returnType' _ => ?_
  exact Attempt.Echoes.pure ⟨⟨_, by simp, found⟩, rfl, rfl⟩

theorem callableTypeParameters_echoes (m : Match) :
    Attempt.Echoes (callableTypeParameters ⟨source, masked⟩ start m)
      (callableTypeParameters ⟨source', masked⟩ start m) fun _ _ => True := by
  unfold callableTypeParameters
  split
  next =>
    refine (Attempt.Echoes.read _ _).bind fun _ _ _ => ?_
    exact Attempt.Echoes.pure trivial
  next => exact Attempt.Echoes.pure trivial

theorem callableEnd_echoes (name : Text) :
    Attempt.Echoes (callableEnd ⟨source, masked⟩ name pos limit)
      (callableEnd ⟨source', masked⟩ name pos limit) Eq := by
  refine Attempt.Echoes.expected fun rest _ => ?_
  refine Attempt.Echoes.expected fun offset _ => ?_
  split
  next => exact (Attempt.bodyEnds_echoes _ _ _).then fun _ => Attempt.Echoes.pure rfl
  next => exact Attempt.Echoes.pure rfl

theorem callableNode_echoes {head head' : Nat → Nat → Attempt CallableHeader} (owner : Owner)
    (isConstructor : Bool)
    (heads : Attempt.Echoes (head start limit) (head' start limit)
      (CallableHeader.Alike masked start limit)) :
    Attempt.Echoes (callableNode ⟨source, masked⟩ owner head isConstructor start limit)
      (callableNode ⟨source', masked⟩ owner head' isConstructor start limit)
      (Node.Twin (shared source source' masked)) := by
  refine heads.bind ?_
  rintro ⟨m, name, returnType⟩ ⟨m', name', returnType'⟩ ⟨⟨header, known, found⟩, same, sameName⟩
  obtain rfl : m = m' := same
  obtain rfl : name = name' := sameName
  have isHeader : header ∈ [typeHeader, constructorHeader, methodHeader, fieldHeader] := by
    simp only [List.mem_cons, List.not_mem_nil, or_false] at known ⊢
    exact .inr (known.imp_right .inl)
  refine (front_echoes isHeader found).bind fun front front' alike => ?_
  refine (callableTypeParameters_echoes m).bind fun typeParams typeParams' _ => ?_
  dsimp only
  cases hclose : Scan.findMatchingBefore? masked (start + m.stop - 1) limit '(' ')' with
  | none => exact (Attempt.Echoes.warn _ _ _).then fun _ => Attempt.Echoes.abandoned
  | some close =>
    refine (parameters_echoes (.callable known found hclose)).bind fun ps ps' sameList => ?_
    refine (callableEnd_echoes name).then fun ⟨stop, hasBody⟩ => ?_
    refine Attempt.Echoes.span (alike.apply ?_ _)
    refine Draft.Twin.noteIf ?_ fun hkey => absurd hkey (Shared.not_header (by decide))
    refine Draft.Twin.noteIf ?_ fun hkey => ?_
    · refine Draft.Twin.noteIf ?_ fun _ => rfl
      refine Draft.Twin.noteText? ?_ (Shared.not_header (by decide))
      refine Draft.Twin.noteText? ?_ (Shared.not_header (by decide))
      refine (Draft.Twin.named name).note fun hkey => ?_
      rw [sameList (Shared.list_of_header hkey)]
    · have words := alike.has (Shared.front_of_header hkey (by decide))
      rw [words, words]

theorem fieldNode_echoes (owner : Owner) :
    Attempt.Echoes (fieldNode ⟨source, masked⟩ owner start limit)
      (fieldNode ⟨source', masked⟩ owner start limit) (Node.Twin (shared source source' masked)) := by
  refine header_echoes fieldHeader start limit fun m found => ?_
  refine (front_echoes (by simp) found).bind fun front front' alike => ?_
  refine Attempt.Echoes.expected fun type _ => ?_
  refine Attempt.Echoes.checked ?_
  refine (Attempt.Echoes.read _ _).bind fun typeText typeText' _ => ?_
  refine Attempt.Echoes.needed fun stop _ => ?_
  refine Attempt.Echoes.span (alike.apply ?_ _)
  refine Draft.Twin.noteIf ?_ fun _ => rfl
  exact (Draft.Twin.named _).noteText fun hkey => absurd hkey (Shared.not_header (by decide))

theorem member_echoes {body body' : Range → Owner → Build (List Node)}
    (bodies : Bodies (shared source source' masked) body body') (owner : Option Owner) :
    Attempt.Echoes (member ⟨source, masked⟩ body owner limit start)
      (member ⟨source', masked⟩ body' owner limit start) (Node.Twin (shared source source' masked)) := by
  cases owner with
  | none =>
    apply Attempt.Echoes.firstOf
    exact .cons packageNode_echoes (.cons importNode_echoes (.cons (typeNode_echoes bodies) .nil))
  | some owner =>
    apply Attempt.Echoes.firstOf
    refine .cons (typeNode_echoes bodies) (.cons ?_ (.cons ?_ (.cons (fieldNode_echoes owner) .nil)))
    · exact callableNode_echoes owner true (constructorHead_echoes owner)
    · exact callableNode_echoes owner false methodHead_echoes

theorem collect_echoes {build build' : Nat → Attempt Node}
    (h : ∀ start, Attempt.Echoes (build start) (build' start) (Node.Twin twins)) (covered : Nat)
    (starts : List Nat) :
    Build.Echoes (collect build covered starts) (collect build' covered starts)
      (List.Forall₂ (Node.Twin twins)) := by
  induction starts generalizing covered with
  | nil => exact Build.Echoes.pure .nil
  | cons start starts ih =>
    rw [collect, collect]
    split
    next => exact ih covered
    next =>
      refine Build.Echoes.bind (h start) fun r r' related => ?_
      cases related with
      | none => exact ih covered
      | @some n n' twin =>
        dsimp only
        rw [← twin.alike.location]
        refine (ih _).bind fun ns ns' later => ?_
        exact Build.Echoes.pure (.cons twin later)

theorem members_echoes (depth : Nat) (region : Range) (owner : Option Owner) :
    Build.Echoes (members ⟨source, masked⟩ depth region owner)
      (members ⟨source', masked⟩ depth region owner)
      (List.Forall₂ (Node.Twin (shared source source' masked))) := by
  induction depth generalizing region owner with
  | zero => exact Build.Echoes.pure .nil
  | succ depth ih =>
    refine Build.Echoes.needed fun starts _ => ?_
    refine collect_echoes (fun start => member_echoes ?_ owner) region.start starts
    exact fun inner innerOwner => ih inner (some innerOwner)

/-- Trees of sources with one mask are built alike. -/
theorem tree_echoes (same : Scan.maskBrace source = Scan.maskBrace source') :
    Build.Echoes (tree source) (tree source')
      (Node.Twin (shared source source' (Scan.maskBrace source))) := by
  have size := (MasksBoth.of_maskBrace same).size_eq
  unfold tree
  simp only [MaskedSource.ofBrace, MaskedSource.size, ← same, ← size]
  exact (members_echoes _ _ none).bind fun _ _ twins => Build.Echoes.root twins

end SourceTree.Java
