import SourceTree.Proofs.Java.Declaration

/-!
Where the declarations of a Java source lie. Each lies in the region that it was looked for in, which
is the whole source or the body of its type, behind the one built before it, and begins outside every
block of the region. Bodies get smaller with every level, so the depth to which they are read is no
limit.
-/

namespace SourceTree.Java

open Scan (MaskedSource Masks Range firstLevelBlocks Outside edge_at)
open Text (Boundary)

variable {text : MaskedSource} {region : Range}

/-- The node covers a part of the region, not empty, that begins outside every block of the
region. -/
structure LiesIn (masked : Text) (region : Range) (n : Node) : Prop where
  le_start : region.start ≤ n.location.startIndex
  nonempty : n.location.startIndex < n.location.endIndex
  stop_le : n.location.endIndex ≤ region.stop
  outside : Outside (firstLevelBlocks masked region) n.location.startIndex

/-- The nodes follow each other. -/
def Ordered (ns : List Node) : Prop :=
  ns.Pairwise fun a b => a.location.endIndex ≤ b.location.startIndex

/-- The part of the node between the braces of its body. The body is closed at the end of the node,
or it is not closed before the limit, to which node and body then reach. -/
def IsBody (masked : Text) (limit : Nat) (n : Node) (body : Range) : Prop :=
  ∃ brace, Text.at? masked brace = some '\x7b' ∧ n.location.startIndex < brace ∧
    body.start = brace + 1 ∧
    (Scan.findMatchingBefore? masked brace limit '\x7b' '\x7d' = some body.stop ∧
        n.location.endIndex = body.stop + 1 ∨
      Scan.findMatchingBefore? masked brace limit '\x7b' '\x7d' = none ∧
        body.stop = limit ∧ n.location.endIndex = limit)

/-- The node lies in the region and all that it contains lies, in order, in its body. -/
inductive Placed (masked : Text) : Range → Node → Prop where
  | leaf {region : Range} {n : Node} : LiesIn masked region n → n.children = [] →
      Placed masked region n
  | type {region : Range} {n : Node} (body : Range) : LiesIn masked region n →
      IsBody masked region.stop n body → Ordered n.children →
      (∀ c ∈ n.children, Placed masked body c) → Placed masked region n

theorem Placed.adoptedBy {n : Node} (h : Placed text.masked region n) (id : NodeId) :
    Placed text.masked region (n.adoptedBy id) := by
  cases h with
  | leaf lies empty =>
    exact .leaf ⟨lies.le_start, lies.nonempty, lies.stop_le, lies.outside⟩ empty
  | type body lies isBody order inner =>
    exact .type body ⟨lies.le_start, lies.nonempty, lies.stop_le, lies.outside⟩ isBody order inner

theorem placed_adopted {ns : List Node}
    (h : Ordered ns ∧ ∀ n ∈ ns, Placed text.masked region n) (id : NodeId) :
    Ordered (ns.map (·.adoptedBy id)) ∧
      ∀ c ∈ ns.map (·.adoptedBy id), Placed text.masked region c := by
  refine ⟨List.pairwise_map.mpr h.1, fun c hc => ?_⟩
  obtain ⟨n, hn, rfl⟩ := List.mem_map.mp hc
  exact (h.2 n hn).adoptedBy id

/-- A region in which declarations are looked for. -/
structure Sound (text : MaskedSource) (region : Range) : Prop where
  masks : Masks text.source text.masked
  first : Boundary text.masked region.start
  last : Boundary text.masked region.stop
  cut : Boundary text.source region.stop

/-- What is built of a declaration whose place does not matter yet. -/
def Built (text : MaskedSource) (limit start : Nat) (n : Node) : Prop :=
  n.location.startIndex = start ∧ start < n.location.endIndex ∧ n.location.endIndex ≤ limit ∧
    Text.at? text.masked start ≠ some '\x7b' ∧
    (n.children = [] ∨ ∃ body, IsBody text.masked limit n body ∧ Ordered n.children ∧
      ∀ c ∈ n.children, Placed text.masked body c)

theorem Built.placed {n : Node} {start : Nat} (h : Built text region.stop start n)
    (le : region.start ≤ start) (clear : Scan.Clear (firstLevelBlocks text.masked region) start) :
    Placed text.masked region n := by
  obtain ⟨rfl, nonempty, stop_le, brace, inner⟩ := h
  have outside : Outside (firstLevelBlocks text.masked region) n.location.startIndex := by
    intro b hb
    rcases clear b hb with before | behind
    · refine .inl (Nat.lt_of_le_of_ne before fun same => ?_)
      rw [same] at brace
      exact brace ((Scan.firstLevelBlocks_spec text.masked region).1 b hb).opens
    · exact .inr behind
  have lies : LiesIn text.masked region n := ⟨le, nonempty, stop_le, outside⟩
  rcases inner with empty | ⟨body, isBody, order, inner⟩
  · exact .leaf lies empty
  · exact .type body lies isBody order inner

theorem Leaf.built {n : Node} {start limit : Nat} (h : Begins text start ∧ Leaf start limit n) :
    Built text limit start n := by
  obtain ⟨⟨-, brace⟩, hstart, lt, le, empty⟩ := h
  exact ⟨hstart, lt, le, brace, .inl empty⟩

/-- The body that a header announces is a region again, and a smaller one. -/
theorem Heads.sound {start limit : Nat} {h : TypeHeader} (site : Site text start limit)
    (hh : Heads text start limit h) : Sound text h.body ∧ start < h.body.start ∧
      h.body.stop ≤ limit := by
  obtain ⟨brace, here, lt, inside, first, bodied⟩ := hh
  obtain ⟨cut, -⟩ := bodied.boundaries site.masks site.cut
  obtain ⟨behind, le, le'⟩ := bodied.bounds inside
  refine ⟨⟨site.masks, ?_, site.masks.boundary cut, cut⟩, by omega, by omega⟩
  obtain ⟨-, edge⟩ := edge_at here (by decide)
  rw [first]
  exact edge.boundary

/-- The members of every region are built, in order and in the region. -/
abbrev BuildsMembers (text : MaskedSource) (body : Range → Owner → Build (List Node)) : Prop :=
  ∀ region owner, Sound text region → Build.Safe text.source (body region owner) fun ns =>
    Ordered ns ∧ ∀ n ∈ ns, Placed text.masked region n

theorem typeNode_safe {start limit : Nat} (site : Site text start limit)
    {body : Range → Owner → Build (List Node)} (hb : BuildsMembers text body) :
    Attempt.Safe text.source (typeNode text body start limit) (Built text limit start) := by
  refine Attempt.Settles.bind (typeHead_safe site) fun h ⟨begins, heads, empty⟩ => ?_
  obtain ⟨sound, -, -⟩ := heads.sound site
  refine Attempt.Safe.lift_bind (hb h.body h.owner sound) fun members placed => ?_
  obtain ⟨brace, here, lt, inside, first, bodied⟩ := heads
  obtain ⟨behind, le, le'⟩ := bodied.bounds inside
  have piece := Text.exists_slice?_iff.mpr
    ⟨(by omega : start ≤ h.stop), begins.1, (bodied.boundaries site.masks site.cut).2⟩
  refine (Attempt.Safe.span piece).mono fun n ⟨hstart, hstop, id, hchildren⟩ => ?_
  have hchildren : n.children = members.map (·.adoptedBy id) := hchildren
  refine ⟨hstart, by omega, by omega, begins.2, .inr ⟨h.body, ?_, ?_⟩⟩
  · refine ⟨brace, here, by omega, first, ?_⟩
    rw [hstop]
    exact bodied
  · rw [hchildren]
    exact placed_adopted placed id

theorem member_safe {start limit : Nat} (site : Site text start limit)
    {body : Range → Owner → Build (List Node)} (hb : BuildsMembers text body)
    (owner : Option Owner) :
    Attempt.Safe text.source (member text body owner limit start) (Built text limit start) := by
  have leaf {a : Attempt Node}
      (h : Attempt.Safe text.source a fun n => Begins text start ∧ Leaf start limit n) :
      Attempt.Safe text.source a (Built text limit start) := h.mono fun _ => Leaf.built
  cases owner with
  | none =>
    refine Attempt.Safe.firstOf fun a ha => ?_
    simp only [List.mem_cons, List.not_mem_nil, or_false] at ha
    rcases ha with rfl | rfl | rfl
    · exact leaf (packageNode_safe site)
    · exact leaf (importNode_safe site)
    · exact typeNode_safe site hb
  | some owner =>
    refine Attempt.Safe.firstOf fun a ha => ?_
    simp only [List.mem_cons, List.not_mem_nil, or_false] at ha
    rcases ha with rfl | rfl | rfl | rfl
    · exact typeNode_safe site hb
    · exact leaf (callableNode_safe site owner true (constructorHead_safe site owner))
    · exact leaf (callableNode_safe site owner false (methodHead_safe site))
    · exact leaf (fieldNode_safe site owner)

/-- What is built lies behind what has been covered, one behind the other. -/
theorem collect_safe {limit : Nat} {build : Nat → Attempt Node} {starts : List Nat}
    (hb : ∀ s ∈ starts, Attempt.Safe text.source (build s) (Built text limit s)) (covered : Nat) :
    Build.Safe text.source (collect build covered starts) fun ns => Ordered ns ∧
      ∀ n ∈ ns, covered ≤ n.location.startIndex ∧ ∃ s ∈ starts, Built text limit s n := by
  induction starts generalizing covered with
  | nil => exact Build.Safe.pure ⟨.nil, by simp⟩
  | cons s starts ih =>
    have later (covered : Nat) := ih (fun s hs => hb s (by simp [hs])) covered
    have skip : Build.Safe text.source (collect build covered starts) fun ns => Ordered ns ∧
        ∀ n ∈ ns, covered ≤ n.location.startIndex ∧ ∃ s' ∈ s :: starts, Built text limit s' n := by
      refine (later covered).mono fun ns ⟨order, all⟩ => ⟨order, fun n hn => ?_⟩
      obtain ⟨le, s', hs', built⟩ := all n hn
      exact ⟨le, s', by simp [hs'], built⟩
    rw [collect]
    split
    next => exact skip
    next reached =>
      refine Build.Safe.bind (hb s (by simp)) fun r hr => ?_
      cases r with
      | none => exact skip
      | some node =>
        have built := hr node rfl
        have hstart := built.1
        have lt := built.2.1
        refine Build.Safe.bind (later node.location.endIndex) fun ns ⟨order, all⟩ => ?_
        refine Build.Safe.pure ⟨List.pairwise_cons.mpr ⟨fun n hn => (all n hn).1, order⟩, ?_⟩
        intro n hn
        rcases List.mem_cons.mp hn with rfl | hn
        · exact ⟨by omega, s, by simp, built⟩
        · obtain ⟨le, s', hs', built'⟩ := all n hn
          exact ⟨by omega, s', by simp [hs'], built'⟩

theorem exists_sites (sound : Sound text region) : ∃ starts,
    text.memberStarts? region = some starts ∧ ∀ s ∈ starts, Site text s region.stop ∧
      region.start ≤ s ∧ Scan.Clear (firstLevelBlocks text.masked region) s := by
  obtain ⟨starts, hstarts, places⟩ := Scan.exists_memberStarts? sound.first sound.last
  refine ⟨starts, hstarts, fun s hs => ?_⟩
  obtain ⟨le, lt, first, clear⟩ := places s hs
  exact ⟨⟨sound.masks, first, sound.last, sound.cut, lt⟩, le, clear⟩

theorem members_safe (depth : Nat) (owner : Option Owner) (sound : Sound text region) :
    Build.Safe text.source (members text depth region owner) fun ns =>
      Ordered ns ∧ ∀ n ∈ ns, Placed text.masked region n := by
  induction depth generalizing region owner with
  | zero => exact Build.Safe.pure ⟨.nil, by simp⟩
  | succ depth ih =>
    obtain ⟨starts, hstarts, sites⟩ := exists_sites sound
    have body : BuildsMembers text fun inner innerOwner => members text depth inner (some innerOwner) :=
      fun region owner sound => ih (some owner) sound
    rw [members]
    refine Build.Safe.bind (Build.Safe.need ⟨starts, hstarts, rfl⟩) fun found same => ?_
    subst same
    have each := collect_safe (fun s hs => member_safe (sites s hs).1 body owner) region.start
    refine each.mono fun ns ⟨order, all⟩ => ⟨order, fun n hn => ?_⟩
    obtain ⟨-, s, hs, built⟩ := all n hn
    obtain ⟨-, le, clear⟩ := sites s hs
    exact built.placed le clear

theorem typeNode_agrees {start limit : Nat} (site : Site text start limit)
    {body body' : Range → Owner → Build (List Node)}
    (same : ∀ inner owner, Sound text inner → start < inner.start → inner.stop ≤ limit →
      Build.Agree text.source (body inner owner) (body' inner owner))
    (hb : BuildsMembers text body) :
    Attempt.Agree text.source (typeNode text body start limit) (typeNode text body' start limit) := by
  refine Attempt.Agree.bind (typeHead_safe site) fun h ⟨_, heads, _⟩ => ?_
  obtain ⟨sound, lt, le⟩ := heads.sound site
  exact Attempt.Agree.lift_bind (same h.body h.owner sound lt le) (hb h.body h.owner sound)
    fun _ _ _ _ => rfl

theorem member_agrees {start limit : Nat} (site : Site text start limit)
    {body body' : Range → Owner → Build (List Node)}
    (same : ∀ inner owner, Sound text inner → start < inner.start → inner.stop ≤ limit →
      Build.Agree text.source (body inner owner) (body' inner owner))
    (hb : BuildsMembers text body) (owner : Option Owner) :
    Attempt.Agree text.source (member text body owner limit start)
      (member text body' owner limit start) := by
  have type := typeNode_agrees site same hb
  cases owner with
  | none =>
    refine Attempt.Agree.firstOf_cons (packageNode_safe site) (fun _ _ => rfl) ?_
    refine Attempt.Agree.firstOf_cons (importNode_safe site) (fun _ _ => rfl) ?_
    exact Attempt.Agree.firstOf_cons (typeNode_safe site hb) type fun _ _ => rfl
  | some owner => exact Attempt.Agree.firstOf_cons (typeNode_safe site hb) type fun _ _ => rfl

theorem collect_agrees {limit : Nat} {build build' : Nat → Attempt Node} {starts : List Nat}
    (hb : ∀ s ∈ starts, Attempt.Safe text.source (build s) (Built text limit s))
    (same : ∀ s ∈ starts, Attempt.Agree text.source (build s) (build' s)) (covered : Nat) :
    Build.Agree text.source (collect build covered starts) (collect build' covered starts) := by
  induction starts generalizing covered with
  | nil => exact fun _ _ => rfl
  | cons s starts ih =>
    have later (covered : Nat) := ih (fun s hs => hb s (by simp [hs])) (fun s hs => same s (by simp [hs]))
      covered
    rw [collect, collect]
    split
    next => exact later covered
    next =>
      refine Build.Agree.bind (same s (by simp)) (hb s (by simp)) fun r _ => ?_
      cases r with
      | none => exact later covered
      | some node =>
        refine Build.Agree.bind (later _) (collect_safe (fun s hs => hb s (by simp [hs])) _) ?_
        exact fun _ _ _ _ => rfl

/-- A depth that exceeds the size of the region is as good as any other. -/
theorem members_agree {depth depth' : Nat} (owner : Option Owner) (sound : Sound text region)
    (hd : region.stop - region.start < depth) (hd' : region.stop - region.start < depth') :
    Build.Agree text.source (members text depth region owner) (members text depth' region owner) := by
  induction depth generalizing depth' region owner with
  | zero => omega
  | succ depth ih =>
    obtain ⟨depth', rfl⟩ : ∃ d, depth' = d + 1 := ⟨depth' - 1, by omega⟩
    obtain ⟨starts, hstarts, sites⟩ := exists_sites sound
    have body : BuildsMembers text fun inner innerOwner => members text depth inner (some innerOwner) :=
      fun region owner sound => members_safe depth (some owner) sound
    rw [members, members]
    refine Build.Agree.bind (fun _ _ => rfl) (Build.Safe.need ⟨starts, hstarts, rfl⟩) ?_
    intro found same
    subst same
    refine collect_agrees (fun s hs => member_safe (sites s hs).1 body owner) (fun s hs => ?_)
      region.start
    obtain ⟨site, le, -⟩ := sites s hs
    refine member_agrees site (fun inner innerOwner sound' start_lt stop_le => ?_) body owner
    have lt := site.lt
    exact ih (some innerOwner) sound' (by omega) (by omega)

theorem sound_whole (source : Text) :
    Sound (MaskedSource.ofBrace source) ⟨0, Text.size source⟩ := by
  have masks : Masks source (Scan.maskBrace source) := Scan.maskBrace_masks source
  refine ⟨masks, Text.boundary_zero _, ?_, Text.boundary_size source⟩
  have size : Text.size source = Text.size (Scan.maskBrace source) := masks.size_eq.symm
  change Boundary (Scan.maskBrace source) (Text.size source)
  rw [size]
  exact Text.boundary_size _

theorem tree_safe (source : Text) :
    Build.Safe source (tree source) fun root =>
      root.location.startIndex = 0 ∧ root.location.endIndex = Text.size source ∧
        Ordered root.children ∧
        ∀ c ∈ root.children, Placed (Scan.maskBrace source) ⟨0, Text.size source⟩ c := by
  refine Build.Safe.bind (members_safe _ none (sound_whole source)) fun children placed => ?_
  refine Build.Safe.root.mono fun n ⟨start, stop, id, hchildren⟩ => ⟨start, stop, ?_⟩
  rw [hchildren]
  exact placed_adopted placed id

/-- Every source is read, to any depth that its bytes could call for with the same result, and every
node of the tree lies where it belongs. -/
theorem parse?_placed (source : Text) (path : String) :
    (∃ file, parse? source path = some file ∧ Ordered file.root.children ∧
      ∀ c ∈ file.root.children, Placed (Scan.maskBrace source) ⟨0, Text.size source⟩ c) ∧
    ∀ depth, Text.size source < depth →
      Build.file? path .java source (do
        let children ← members (MaskedSource.ofBrace source) depth ⟨0, Text.size source⟩ none
        Build.root .program children) = parse? source path := by
  constructor
  · obtain ⟨file, parsed, -, -, ordered, placed⟩ := Build.exists_file? (tree_safe source)
    exact ⟨file, parsed, ordered, placed⟩
  · intro depth deep
    have sound := sound_whole source
    have all := members_safe (Text.size source + 1) none sound
    have same : Build.Agree source
        (members (MaskedSource.ofBrace source) (Text.size source + 1) ⟨0, Text.size source⟩ none)
        (members (MaskedSource.ofBrace source) depth ⟨0, Text.size source⟩ none) :=
      members_agree none sound (Nat.lt_succ_self _) deep
    exact (Build.file?_congr (Build.Agree.bind same all fun _ _ _ _ => rfl)).symm

end SourceTree.Java
