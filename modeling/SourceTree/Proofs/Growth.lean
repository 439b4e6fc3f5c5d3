import SourceTree.Body
import SourceTree.Proofs.Builder
import SourceTree.Proofs.Draft
import SourceTree.Proofs.Keeps
import SourceTree.Proofs.Node.Growth

/-!
What a builder has made when it succeeds. A step either makes no node, and then hands out no id, or
it makes trees that grow while ids are handed out. A construct that is abandoned may have handed out
ids before; those are lost, and what is built next grows from a greater number on.
-/

namespace SourceTree

variable {α β : Type} {source : Text} {i : Nat}

/-- The builder is at work on the source and has handed out so many ids. -/
structure Builder.At (source : Text) (issued : Nat) (b : Builder) : Prop where
  source_eq : b.source = source
  lines_eq : b.lines = LineIndex.ofText source
  issued_eq : b.issued = issued

/-- The builder without what it has found odd. -/
def Builder.unreported (b : Builder) : Builder := { b with diagnostics := [] }

theorem Builder.At.of_unreported {b b' : Builder} (h : b.At source i)
    (same : b'.unreported = b.unreported) : b'.At source i :=
  ⟨(congrArg Builder.source same).trans h.source_eq, (congrArg Builder.lines same).trans h.lines_eq,
    (congrArg Builder.issued same).trans h.issued_eq⟩

theorem Builder.at_ofSource (source : Text) : (Builder.ofSource source).At source 0 := ⟨rfl, rfl, rfl⟩

namespace Build

/-- The step makes no node: when it succeeds the builder has only reported something. -/
abbrev Quiet (m : Build α) (post : α → Prop) : Prop := Keeps Builder.unreported m post

/-- When the step succeeds on a builder that has handed out `i` ids, its result satisfies `post`,
which also knows how many ids are handed out by then. -/
def Grows (source : Text) (i : Nat) (m : Build α) (post : Nat → α → Prop) : Prop :=
  ∀ b a b', b.At source i → m b = some (a, b') → ∃ j, i ≤ j ∧ b'.At source j ∧ post j a

theorem Quiet.warn (oddity : Oddity) (start stop : Nat) :
    Quiet (Build.warn oddity start stop) fun _ => True := by
  intro b a b' run
  obtain ⟨rfl, rfl⟩ := Prod.mk.inj (Option.some.inj run)
  exact ⟨rfl, trivial⟩

theorem Grows.bind {m : Build α} {f : α → Build β} {post : Nat → α → Prop} {post' : Nat → β → Prop}
    (hm : Grows source i m post)
    (hf : ∀ j a, i ≤ j → post j a → Grows source j (f a) post') : Grows source i (m >>= f) post' := by
  intro b r b' hb h
  obtain ⟨a, b₁, first, second⟩ := bind_eq_some h
  obtain ⟨k, le, hb₁, ha⟩ := hm b a b₁ hb first
  obtain ⟨j, le', hb', hr⟩ := hf k a le ha b₁ r b' hb₁ second
  exact ⟨j, Nat.le_trans le le', hb', hr⟩

theorem Grows.mono {m : Build α} {post post' : Nat → α → Prop} (hm : Grows source i m post)
    (h : ∀ j a, i ≤ j → post j a → post' j a) : Grows source i m post' := by
  intro b a b' hb run
  obtain ⟨j, le, hb', ha⟩ := hm b a b' hb run
  exact ⟨j, le, hb', h j a le ha⟩

theorem Grows.pure {a : α} {post : Nat → α → Prop} (h : post i a) :
    Grows source i (pure a : Build α) post := by
  intro b r b' hb run
  obtain ⟨rfl, rfl⟩ := Prod.mk.inj (Option.some.inj run)
  exact ⟨i, Nat.le_refl i, hb, h⟩

/-- A step that makes no node hands on the count. -/
theorem Grows.of_quiet {m : Build α} {post : α → Prop} (hm : Quiet m post) :
    Grows source i m fun j a => j = i ∧ post a := by
  intro b a b' hb run
  obtain ⟨same, ha⟩ := hm b a b' run
  exact ⟨i, Nat.le_refl i, hb.of_unreported same, rfl, ha⟩

theorem Grows.after {m : Build α} {f : α → Build β} {post : α → Prop} {post' : Nat → β → Prop}
    (hm : Quiet m post) (hf : ∀ a, post a → Grows source i (f a) post') :
    Grows source i (m >>= f) post' := by
  refine Grows.bind (Grows.of_quiet hm) ?_
  rintro j a - ⟨rfl, ha⟩
  exact hf a ha

/-- A node grows on its children and takes the next id. -/
theorem Grows.span {kind : NodeKind} {start stop first : Nat} {d : Draft}
    (h : Grown source first i d.children) (ordered : d.Ordered) :
    Grows source i (Build.span kind start stop d) fun j n =>
      Grown source first j [n] ∧ n.id = j ∧ n.parent = none := by
  intro b n b' hb run
  obtain ⟨t, ht, rfl, rfl⟩ := span_eq_some run
  obtain ⟨rfl, hlines, rfl⟩ := hb
  refine ⟨b.issued + 1, Nat.le_succ _, ⟨rfl, hlines, rfl⟩, ?_, rfl, rfl⟩
  -- The builder looks lines up in its own index, which is that of the source.
  have place : b.location start stop = (LineIndex.ofText b.source).location start stop := by
    rw [Builder.location, hlines]
  have quotes : Node.Quotes b.source
      ⟨b.issued + 1, kind, d.name, b.location start stop,
        d.children.map (·.adoptedBy (b.issued + 1)), none, some (String.ofList t), d.metadata⟩ := by
    rw [place]
    exact ⟨⟨t, ht, rfl⟩, rfl, rfl⟩
  exact Grown.graft (h.adopted _) (Nat.lt_succ_self _) quotes (by simp [Node.adoptedBy]) ordered

/-- A leaf needs nothing to grow on. -/
theorem Grows.leaf {kind : NodeKind} {start stop first : Nat} {d : Draft} (empty : d.children = [])
    (ordered : d.Ordered) (le : first ≤ i) :
    Grows source i (Build.span kind start stop d) fun j n => Grown source first j [n] := by
  have nothing : Grown source first i d.children := by
    rw [empty]
    exact .nil le
  exact (Grows.span nothing ordered).mono fun _ _ _ made => made.1

/-- A node has the tag and covers the piece that it is made for, whatever it grows on. -/
theorem Grows.covers (kind : NodeKind) (start stop : Nat) (d : Draft) :
    Grows source i (Build.span kind start stop d) fun _ n =>
      n.kind = kind ∧ n.location.startIndex = start ∧ n.location.endIndex = stop ∧
        ∃ id, n.children = d.children.map (·.adoptedBy id) := by
  intro b n b' hb run
  obtain ⟨t, -, rfl, rfl⟩ := span_eq_some run
  obtain ⟨hsource, hlines, rfl⟩ := hb
  exact ⟨b.issued + 1, Nat.le_succ _, ⟨hsource, hlines, rfl⟩, rfl, rfl, rfl, b.issued + 1, rfl⟩

/-- A node has the tag that it is made with, and says what its draft says. -/
theorem Grows.states (kind : NodeKind) (start stop : Nat) (d : Draft) :
    Grows source i (Build.span kind start stop d) fun _ n =>
      n.kind = kind ∧ n.name = d.name ∧ n.metadata = d.metadata := by
  intro b n b' hb run
  obtain ⟨t, -, rfl, rfl⟩ := span_eq_some run
  obtain ⟨hsource, hlines, rfl⟩ := hb
  exact ⟨b.issued + 1, Nat.le_succ _, ⟨hsource, hlines, rfl⟩, rfl, rfl, rfl⟩

/-- A node has the tag and the name that it is made with, and its text is the piece of the source. -/
theorem Grows.cuts (kind : NodeKind) (start stop : Nat) (d : Draft) :
    Grows source i (Build.span kind start stop d) fun _ n =>
      n.kind = kind ∧ n.name = d.name ∧
        ∃ t, Text.slice? source start stop = some t ∧ n.text = some (String.ofList t) := by
  intro b n b' hb run
  obtain ⟨t, ht, rfl, rfl⟩ := span_eq_some run
  obtain ⟨rfl, hlines, rfl⟩ := hb
  exact ⟨b.issued + 1, Nat.le_succ _, ⟨rfl, hlines, rfl⟩, rfl, rfl, t, ht, rfl⟩

theorem Grows.root {kind : NodeKind} {first : Nat} {children : List Node}
    (h : Grown source first i children) :
    Grows source i (Build.root kind children) fun j n =>
      Grown source first j [n] ∧ n.id = j ∧ n.parent = none := by
  intro b n b' hb run
  have whole : Build.span kind 0 (Text.size b.source) { children := children } b = some (n, b') := run
  have plain : Draft.Ordered { children := children } := Metadata.ascending_nil
  exact Grows.span h plain b n b' hb whole

theorem Grows.root_covers (kind : NodeKind) (children : List Node) :
    Grows source i (Build.root kind children) fun _ n =>
      n.location.startIndex = 0 ∧ n.location.endIndex = Text.size source ∧
        ∃ id, n.children = children.map (·.adoptedBy id) := by
  intro b n b' hb run
  have whole : Build.span kind 0 (Text.size source) { children := children } b = some (n, b') := by
    rw [← hb.source_eq]
    exact run
  obtain ⟨j, le, hb', -, placed⟩ := Grows.covers kind _ _ _ b n b' hb whole
  exact ⟨j, le, hb', placed⟩

/-- From every count on, the step grows trees. -/
def Sprouts (source : Text) (m : Build (List Node)) : Prop := ∀ i, Grows source i m (Grown source i)

theorem Sprouts.nil : Sprouts source (pure []) := fun i => Grows.pure (.nil (Nat.le_refl i))

/-- Trees grow behind those that are there. -/
theorem Sprouts.behind {first : Nat} {ns : List Node} {m : Build (List Node)}
    (h : Sprouts source m) (before : Grown source first i ns) :
    Grows source i (m >>= fun ms => pure (ns ++ ms)) (Grown source first) :=
  Grows.bind (h i) fun _ _ _ later => Grows.pure (before.append later)

theorem Sprouts.mapM {f : α → Build Node} {xs : List α}
    (h : ∀ x i, Grows source i (f x) fun j n => Grown source i j [n]) :
    Sprouts source (xs.mapM f) := by
  intro i
  induction xs generalizing i with
  | nil =>
    rw [List.mapM_nil]
    exact Sprouts.nil i
  | cons x xs ih =>
    rw [List.mapM_cons]
    exact Grows.bind (h x i) fun k n _ grown => Sprouts.behind ih grown

/-- A file holds the root that was built, and what is said of the root knows how many ids were
handed out in all. -/
theorem Grows.of_file? {path : String} {language : Language} {tree : Build Node} {file : ParsedFile}
    {post : Nat → Node → Prop} (h : Grows source 0 tree post)
    (parsed : file? path language source tree = some file) :
    ∃ b, tree.run (Builder.ofSource source) = some (file.root, b) ∧ post b.issued file.root := by
  obtain ⟨⟨root, b⟩, run, made⟩ := Option.bind_eq_some_iff.mp parsed
  obtain rfl := Option.some.inj made
  obtain ⟨j, -, hb, hroot⟩ := h _ root b (Builder.at_ofSource source) run
  obtain rfl : b.issued = j := hb.issued_eq
  exact ⟨b, run, hroot⟩

end Build

namespace Attempt

abbrev Quiet (m : Attempt α) (post : α → Prop) : Prop := Keeps Builder.unreported m post

/-- As for a step; of what is abandoned nothing is said but that ids may have been handed out. -/
def Grows (source : Text) (i : Nat) (m : Attempt α) (post : Nat → α → Prop) : Prop :=
  Build.Grows source i m.run fun j r => ∀ a, r = some a → post j a

theorem Quiet.warn (oddity : Oddity) (start stop : Nat) :
    Quiet (Attempt.warn oddity start stop) fun _ => True :=
  Keeps.lift (Build.Quiet.warn oddity start stop)

theorem bodyEnds_quiet (text : Scan.MaskedSource) (name : Text) (start limit : Nat) :
    Quiet (bodyEnds text name start limit) fun _ => True := by
  unfold bodyEnds
  split
  next => exact Keeps.pure trivial
  next => exact Keeps.bind (Quiet.warn _ _ _) fun _ _ => Keeps.pure trivial

theorem Grows.bind {m : Attempt α} {f : α → Attempt β} {post : Nat → α → Prop}
    {post' : Nat → β → Prop} (hm : Grows source i m post)
    (hf : ∀ j a, i ≤ j → post j a → Grows source j (f a) post') : Grows source i (m >>= f) post' := by
  rw [Grows, OptionT.run_bind]
  refine Build.Grows.bind hm fun j r le hr => ?_
  cases r with
  | none => exact Build.Grows.pure (by simp)
  | some a => exact hf j a le (hr a rfl)

theorem Grows.mono {m : Attempt α} {post post' : Nat → α → Prop} (hm : Grows source i m post)
    (h : ∀ j a, i ≤ j → post j a → post' j a) : Grows source i m post' :=
  Build.Grows.mono hm fun j _ le hr a ha => h j a le (hr a ha)

theorem Grows.pure {a : α} {post : Nat → α → Prop} (h : post i a) :
    Grows source i (pure a : Attempt α) post :=
  Build.Grows.pure fun _ hx => Option.some.inj hx ▸ h

theorem Grows.abandoned {post : Nat → α → Prop} : Grows source i (Attempt.expect none) post :=
  Build.Grows.pure (by simp)

theorem Grows.after {m : Attempt α} {f : α → Attempt β} {post : α → Prop} {post' : Nat → β → Prop}
    (hm : Quiet m post) (hf : ∀ a, post a → Grows source i (f a) post') :
    Grows source i (m >>= f) post' := by
  have held : Grows source i m fun j a => j = i ∧ post a :=
    Build.Grows.mono (Build.Grows.of_quiet hm) fun j r _ ⟨same, hr⟩ a ha => ⟨same, hr a ha⟩
  refine Grows.bind held ?_
  rintro j a - ⟨rfl, ha⟩
  exact hf a ha

theorem Grows.lift {m : Build α} {post : Nat → α → Prop} (hm : Build.Grows source i m post) :
    Grows source i (OptionT.lift m) post := by
  have run : (OptionT.lift m).run = m >>= fun a => Pure.pure (some a) := rfl
  rw [Grows, run]
  exact Build.Grows.bind hm fun j a _ ha => Build.Grows.pure fun _ hx => Option.some.inj hx ▸ ha

theorem Grows.span {kind : NodeKind} {start stop first : Nat} {d : Draft}
    (h : Grown source first i d.children) (ordered : d.Ordered) :
    Grows source i (Attempt.span kind start stop d) fun j n => Grown source first j [n] :=
  Grows.lift (Build.Grows.mono (Build.Grows.span h ordered) fun _ _ _ made => made.1)

theorem Grows.leaf {kind : NodeKind} {start stop first : Nat} {d : Draft} (empty : d.children = [])
    (ordered : d.Ordered) (le : first ≤ i) :
    Grows source i (Attempt.span kind start stop d) fun j n => Grown source first j [n] :=
  Grows.lift (Build.Grows.leaf empty ordered le)

theorem Grows.firstOf {attempts : List (Attempt α)} {post : Nat → α → Prop}
    (h : ∀ a ∈ attempts, ∀ k, i ≤ k → Grows source k a post) :
    Grows source i (Attempt.firstOf attempts) post := by
  induction attempts generalizing i with
  | nil => exact Grows.abandoned
  | cons a as ih =>
    refine Build.Grows.bind (h a (by simp) i (Nat.le_refl i)) fun j r le hr => ?_
    cases r with
    | none => exact ih fun b hb k le' => h b (by simp [hb]) k (by omega)
    | some x => exact Build.Grows.pure hr

theorem Grows.mapM {f : α → Attempt β} {xs : List α} {post : β → Prop}
    (h : ∀ x i, Grows source i (f x) fun _ => post) :
    Grows source i (xs.mapM f) fun _ ys => ∀ y ∈ ys, post y := by
  induction xs generalizing i with
  | nil =>
    rw [List.mapM_nil]
    exact Grows.pure (by simp)
  | cons x xs ih =>
    rw [List.mapM_cons]
    refine Grows.bind (h x i) fun j y _ hy => ?_
    refine Grows.bind ih fun k ys _ hys => Grows.pure ?_
    exact List.forall_mem_cons.mpr ⟨hy, hys⟩

/-- From every count on, the construct grows a single tree. -/
def Sprouts (source : Text) (m : Attempt Node) : Prop :=
  ∀ i, Grows source i m fun j n => Grown source i j [n]

theorem Sprouts.firstOf {attempts : List (Attempt Node)} (h : ∀ a ∈ attempts, Sprouts source a) :
    Sprouts source (Attempt.firstOf attempts) :=
  fun _ => Grows.firstOf fun a ha k le => (h a ha k).mono fun _ _ _ grown => grown.since le

theorem Sprouts.mapM {f : α → Attempt Node} {xs : List α} (h : ∀ x, Sprouts source (f x)) :
    Grows source i (xs.mapM f) (Grown source i) := by
  induction xs generalizing i with
  | nil =>
    rw [List.mapM_nil]
    exact Grows.pure (.nil (Nat.le_refl i))
  | cons x xs ih =>
    rw [List.mapM_cons]
    refine Grows.bind (h x i) fun k n _ grown => ?_
    refine Grows.bind ih fun j ns _ later => ?_
    exact Grows.pure (grown.append later)

end Attempt

end SourceTree
