import SourceTree.Proofs.Java.Header

/-!
The recognisers of Java declarations. Each is tried at a place of the mask, under a limit, and gives
up or builds a node that begins at the place and ends by the limit. None of them fails.
-/

namespace SourceTree.Java

open Pattern
open Scan (MaskedSource Masks Range Firm Matched matched Bodied edge_at at?_slice closes_before)
open Text (Boundary Edge Opens Closes)

variable {text : MaskedSource} {start limit pos : Nat}

/-- A place and a limit between which a declaration is looked for. -/
structure Site (text : MaskedSource) (start limit : Nat) : Prop where
  masks : Masks text.source text.masked
  first : Boundary text.masked start
  last : Boundary text.masked limit
  cut : Boundary text.source limit
  lt : start < limit

/-- A node can begin here: at a character of the source that opens no block. -/
def Begins (text : MaskedSource) (start : Nat) : Prop :=
  Boundary text.source start ∧ Text.at? text.masked start ≠ some '\x7b'

theorem Site.exists_code (site : Site text start limit) :
    ∃ code, text.code? start limit = some code :=
  Text.exists_slice?_iff.mpr ⟨Nat.le_of_lt site.lt, site.first, site.last⟩

/-- Every recogniser begins like this: it gives up, unless its pattern matches. -/
theorem Site.match_safe (site : Site text start limit) {α : Type} {p : Pattern}
    {f : Match → Attempt α} {post : α → Prop}
    (h : ∀ m rest, Matched text start limit p m rest → Attempt.Safe text.source (f m) post) :
    Attempt.Safe text.source (do
      let m ← Attempt.expect (p.matchFront? (← Attempt.need (text.code? start limit)))
      f m) post := by
  obtain ⟨code, hc⟩ := site.exists_code
  refine Attempt.Settles.bind (Attempt.Safe.need_some hc) fun code' same => ?_
  subst same
  refine Attempt.Settles.bind (Attempt.Safe.expect fun m found => found) fun m found => ?_
  obtain ⟨rest, hm⟩ := matched hc found
  exact h m rest hm

theorem Site.begins (site : Site text start limit) {whole rest : Text}
    (hc : text.code? start limit = some (whole ++ rest)) (opens : Opens Solid whole) :
    Begins text start := by
  obtain ⟨c, r, rfl, solid⟩ := opens
  have split : text.code? start limit = some ([] ++ c :: (r ++ rest)) := hc
  have here : Text.at? text.masked start = some c := (at?_slice split).1
  refine ⟨site.masks.boundary_of_edge (edge_at here solid.1).1, ?_⟩
  rw [here]
  exact fun brace => solid.2 (Option.some.inj brace)

theorem Fronted.size_pos {m : Match} (h : Fronted m) : 0 < Text.size m.whole.text := by
  obtain ⟨c, r, hw, -⟩ := h.opens
  have width := c.utf8Size_pos
  rw [hw, Text.size_cons]
  omega

/-- A node without members that begins at `start` and ends by `limit`. -/
def Leaf (start limit : Nat) (n : Node) : Prop :=
  n.location.startIndex = start ∧ start < n.location.endIndex ∧ n.location.endIndex ≤ limit ∧
    n.children = []

theorem span_leaf {stop : Nat} {kind : NodeKind} {d : Draft} (begins : Begins text start)
    (ends : Boundary text.source stop) (lt : start < stop) (le : stop ≤ limit)
    (empty : d.children = []) :
    Attempt.Safe text.source (Attempt.span kind start stop d) fun n =>
      Begins text start ∧ Leaf start limit n := by
  have piece := Text.exists_slice?_iff.mpr ⟨Nat.le_of_lt lt, begins.1, ends⟩
  refine (Attempt.Safe.span piece).mono fun n hn => ?_
  obtain ⟨hstart, hstop, id, hchildren⟩ := hn
  rw [empty] at hchildren
  exact ⟨begins, hstart, by rw [hstop]; exact lt, by rw [hstop]; exact le, hchildren⟩

/-- A statement whose pattern begins and ends with code. -/
theorem statement_safe (site : Site text start limit) {p : Pattern} {kind : NodeKind}
    {d : Match → Draft} (starts : Starts Solid p) (stops : Stops (· ≠ ' ') p)
    (empty : ∀ m, (d m).children = []) :
    Attempt.Safe text.source (do
      let m ← Attempt.expect (p.matchFront? (← Attempt.need (text.code? start limit)))
      Attempt.span kind start (start + m.stop) (d m)) fun n =>
        Begins text start ∧ Leaf start limit n := by
  refine site.match_safe fun m rest ⟨h, hc, stop, le, _⟩ => ?_
  obtain ⟨-, -, -, ht⟩ := matchFront?_takes h
  have begins := site.begins hc (ht.opens starts)
  obtain ⟨r, c, hw, solid⟩ := ht.closes stops
  have ends : Boundary text.source (start + m.stop) := by
    have last : text.code? start limit = some (r ++ c :: rest) := by
      rw [hc, hw]
      simp
    have edge := (edge_at (at?_slice last).1 solid).2
    have size : start + m.stop = start + Text.size r + c.utf8Size := by
      rw [stop, hw, Text.size_append, Text.size_cons, Text.size_nil]
      omega
    rw [size]
    exact site.masks.boundary_of_edge edge
  refine span_leaf begins ends ?_ le (empty m)
  have pos := c.utf8Size_pos
  rw [stop, hw, Text.size_append, Text.size_cons]
  omega

theorem packageNode_safe (site : Site text start limit) :
    Attempt.Safe text.source (packageNode text start limit) fun n =>
      Begins text start ∧ Leaf start limit n :=
  statement_safe site (starts_lit (by decide)).append.append.append.append
    (stops_lit (by decide)).append fun _ => rfl

@[simp] theorem children_apply (f : Front) (inInterface : Bool) (d : Draft) :
    (f.apply inInterface d).children = d.children := by
  simp [Front.apply]

theorem importNode_safe (site : Site text start limit) :
    Attempt.Safe text.source (importNode text start limit) fun n =>
      Begins text start ∧ Leaf start limit n :=
  statement_safe site (starts_lit (by decide)).append.append.append.append.append.append
    (stops_lit (by decide)).append fun m => by simp [Draft.named]

theorem skipBlanks_safe (h : Boundary text.masked pos) :
    Attempt.Safe text.source (Attempt.need (text.skipBlanks? pos)) fun p =>
      pos ≤ p ∧ Boundary text.masked p := by
  obtain ⟨p, found, le, boundary⟩ := Scan.exists_skipBlanks? h
  exact Attempt.Safe.need ⟨p, found, le, boundary⟩

theorem typeParameters_safe (site : Site text start limit) (h : Boundary text.masked pos)
    (d : Draft) : Attempt.Safe text.source (typeParameters text pos limit d) fun r =>
      pos ≤ r.1 ∧ Boundary text.masked r.1 ∧ r.2.children = d.children := by
  unfold typeParameters
  split
  next =>
    refine Attempt.Settles.bind (Attempt.Safe.expect fun close found => found) fun close found => ?_
    obtain ⟨matching, -⟩ := Scan.findMatchingBefore?_eq_some.mp found
    obtain ⟨behind, -, -⟩ := closes_before (by decide) found
    obtain ⟨mid, -, whole⟩ :=
      Scan.findMatching?_slices (by decide) (by decide) (by decide) matching
    obtain ⟨t, ht, -⟩ := site.masks.slice_solid whole ⟨'<', _, rfl, by decide⟩ ⟨_, '>', rfl, by decide⟩
    refine Attempt.Settles.bind (Attempt.Safe.need_some ht) fun params _ => ?_
    have after : Boundary text.masked (close + 1) := (Text.exists_slice?_iff.mp ⟨_, whole⟩).2.2
    refine Attempt.Settles.bind (skipBlanks_safe after) fun next ⟨le, boundary⟩ => ?_
    exact Attempt.Safe.pure ⟨by dsimp only; omega, boundary, rfl⟩
  next => exact Attempt.Safe.pure ⟨Nat.le_refl _, h, rfl⟩

theorem parameters_safe (site : Site text start limit) {close : Nat}
    (found : Scan.findMatchingBefore? text.masked pos limit '(' ')' = some close) :
    Boundary text.masked (close + 1) ∧
      Attempt.Safe text.source (Attempt.need (parameters? text ⟨pos + 1, close⟩)) fun _ => True := by
  obtain ⟨matching, -⟩ := Scan.findMatchingBefore?_eq_some.mp found
  obtain ⟨mid, inner, whole⟩ :=
    Scan.findMatching?_slices (by decide) (by decide) (by decide) matching
  refine ⟨(Text.exists_slice?_iff.mp ⟨_, whole⟩).2.2, ?_⟩
  obtain ⟨ps, hps⟩ := exists_parameters? site.masks ⟨pos + 1, close⟩ inner
  exact Attempt.Safe.need ⟨ps, hps, trivial⟩

theorem recordComponents_safe (site : Site text start limit) (h : Boundary text.masked pos)
    (name : Text) (d : Draft) : Attempt.Safe text.source (recordComponents text name pos limit d)
      fun r => pos ≤ r.1 ∧ Boundary text.masked r.1 ∧ r.2.children = d.children := by
  unfold recordComponents
  split
  next =>
    split
    next =>
      refine Attempt.Safe.lift_bind (Build.Safe.warn _ pos limit) fun _ _ => ?_
      exact Attempt.Safe.expect (by simp)
    next close found =>
      obtain ⟨after, components⟩ := parameters_safe site found
      obtain ⟨behind, -, -⟩ := closes_before (by decide) found
      refine Attempt.Settles.bind components fun ps _ => ?_
      exact Attempt.Safe.pure ⟨by dsimp only; omega, after, rfl⟩
  next => exact Attempt.Safe.pure ⟨Nat.le_refl _, h, rfl⟩

/-- The body of a type opens behind the start of the type and is cut off at the limit. -/
def Heads (text : MaskedSource) (start limit : Nat) (h : TypeHeader) : Prop :=
  ∃ brace, Text.at? text.masked brace = some '\x7b' ∧ start < brace ∧ brace < limit ∧
    h.body.start = brace + 1 ∧ Bodied text.masked limit brace h.body.stop h.stop

theorem typeRest_safe (site : Site text start limit) (lt : start < pos) (front : Front)
    (keyword name : Text) {d : Draft} (empty : d.children = []) :
    Attempt.Safe text.source (typeRest text front keyword name pos limit d) fun h =>
      Heads text start limit h ∧ h.draft.children = [] := by
  refine Attempt.Settles.bind (Attempt.Safe.expect fun header h => h) fun header hh => ?_
  refine Attempt.Settles.bind (Attempt.Safe.expect fun brace h => h) fun offset found => ?_
  obtain ⟨left, x, right, rfl, rfl, hx, -⟩ := Text.find?_eq_some found
  obtain rfl : x = '\x7b' := by simpa using hx
  obtain ⟨here, inside⟩ := at?_slice hh
  have code : text.code? pos (pos + Text.size left) = some left := by
    obtain ⟨a, b, hm, ha, -⟩ := Text.slice?_eq_some_iff.mp hh
    refine Text.slice?_eq_some_iff.mpr ⟨a, '\x7b' :: right ++ b, ?_, ha, rfl⟩
    rw [hm]
    simp
  refine Attempt.Settles.bind (Attempt.Safe.need_some code) fun _ _ => ?_
  refine Attempt.Settles.bind (Attempt.Safe.check _) fun _ _ => ?_
  refine Attempt.Settles.bind (Scan.bodyEnds_safe name _) fun ⟨bodyEnd, stop⟩ bodied => ?_
  obtain ⟨lists, hlists⟩ := exists_heritage? site.masks ⟨pos, pos + Text.size left⟩ code
  refine Attempt.Settles.bind (Attempt.Safe.need_some hlists) fun ⟨bases, implemented⟩ _ => ?_
  have heads : ∃ brace, Text.at? text.masked brace = some '\x7b' ∧ start < brace ∧ brace < limit ∧
      pos + Text.size left + 1 = brace + 1 ∧ Bodied text.masked limit brace bodyEnd stop :=
    ⟨pos + Text.size left, here, by omega, inside, rfl, bodied⟩
  refine Attempt.Safe.pure ⟨heads, ?_⟩
  dsimp only
  rw [Draft.children_noteText, Draft.children_noteTexts, Draft.children_noteTexts, empty]

theorem typeHead_safe (site : Site text start limit) :
    Attempt.Safe text.source (typeHead text start limit) fun h =>
      Begins text start ∧ Heads text start limit h ∧ h.draft.children = [] := by
  refine site.match_safe fun m rest ⟨h, hc, stop, le, after⟩ => ?_
  have front := typeHeader_match h
  have begins := site.begins hc front.opens
  have positive : 0 < m.stop := stop ▸ front.size_pos
  obtain ⟨f, hf⟩ := exists_ofMatch? site.masks front hc
  refine Attempt.Settles.bind (Attempt.Safe.need_some hf) fun f' _ => ?_
  refine Attempt.Settles.bind (skipBlanks_safe after) fun pos ⟨le₁, b₁⟩ => ?_
  refine Attempt.Settles.bind (typeParameters_safe site b₁ _) fun ⟨pos₂, d₂⟩ ⟨le₂, b₂, empty₂⟩ => ?_
  dsimp only at le₂ b₂ empty₂ ⊢
  have finish {pos₃ : Nat} {d₃ : Draft} (le₃ : pos₂ ≤ pos₃) (empty₃ : d₃.children = d₂.children) :
      Attempt.Safe text.source (typeRest text f' (m.groupText 3) (m.groupText 4) pos₃ limit d₃)
        fun h => Begins text start ∧ Heads text start limit h ∧ h.draft.children = [] := by
    have lt : start < pos₃ := by omega
    exact (typeRest_safe site lt f' _ _ (empty₃.trans empty₂)).mono fun _ rest => ⟨begins, rest⟩
  split
  next =>
    refine Attempt.Settles.bind (recordComponents_safe site b₂ _ d₂) fun ⟨pos₃, d₃⟩ ⟨le₃, _, empty₃⟩ => ?_
    exact finish le₃ empty₃
  next =>
    rw [pure_bind]
    exact finish (Nat.le_refl _) rfl

theorem callableEnd_safe (site : Site text start limit) (name : Text) :
    Attempt.Safe text.source (callableEnd text name pos limit) fun r =>
      pos < r.1 ∧ r.1 ≤ limit ∧ Boundary text.source r.1 := by
  refine Attempt.Settles.bind (Attempt.Safe.expect fun rest h => h) fun rest hr => ?_
  refine Attempt.Settles.bind (Attempt.Safe.expect fun offset h => h) fun offset found => ?_
  obtain ⟨left, x, right, rfl, rfl, hx, -⟩ := Text.find?_eq_some found
  obtain ⟨here, inside⟩ := at?_slice hr
  rw [Scan.at?_append]
  split
  next =>
    refine Attempt.Settles.bind (Scan.bodyEnds_safe name _) fun ⟨bodyEnd, stop⟩ bodied => ?_
    obtain ⟨behind, le, le'⟩ := bodied.bounds inside
    exact Attempt.Safe.pure ⟨by dsimp only; omega, le', (bodied.boundaries site.masks site.cut).2⟩
  next other =>
    have semicolon : x = ';' := by
      simp only [Bool.or_eq_true, beq_iff_eq] at hx other
      exact hx.resolve_left fun brace => other (by rw [brace])
    subst semicolon
    obtain ⟨-, edge⟩ := edge_at here (by decide)
    exact Attempt.Safe.pure ⟨by dsimp only; omega, inside, site.masks.boundary_of_edge edge⟩

/-- What the header of a callable gives: a match whose groups can be cut out of the source. -/
def Calls (text : MaskedSource) (start limit : Nat) (h : CallableHeader) : Prop :=
  ∃ rest, text.code? start limit = some (h.found.whole.text ++ rest) ∧
    h.found.stop = Text.size h.found.whole.text ∧ Fronted h.found ∧
    ∀ s, h.found.group? 3 = some s → Firm h.found.whole.text s

theorem constructorHead_safe (site : Site text start limit) (owner : Owner) :
    Attempt.Safe text.source (constructorHead text owner start limit) (Calls text start limit) := by
  refine site.match_safe fun m rest ⟨h, hc, stop, _, _⟩ => ?_
  obtain ⟨front, params⟩ := constructorHeader_match h
  refine Attempt.Settles.bind (Attempt.Safe.check _) fun _ _ => ?_
  exact Attempt.Safe.pure ⟨rest, hc, stop, front, params⟩

theorem methodHead_safe (site : Site text start limit) :
    Attempt.Safe text.source (methodHead text start limit) (Calls text start limit) := by
  refine site.match_safe fun m rest ⟨h, hc, stop, _, _⟩ => ?_
  obtain ⟨front, params, type, htype, firm⟩ := methodHeader_match h
  obtain ⟨t, ht⟩ := firm.slice site.masks hc
  rw [htype, Attempt.expect_some_bind]
  refine Attempt.Settles.bind (Attempt.Safe.check _) fun _ _ => ?_
  refine Attempt.Settles.bind (Attempt.Safe.need_some ht) fun _ _ => ?_
  exact Attempt.Safe.pure ⟨rest, hc, stop, front, params⟩

theorem callableTypeParameters_safe (hm : Masks text.source text.masked) {m : Match} {rest : Text}
    (hc : text.code? start limit = some (m.whole.text ++ rest))
    (params : ∀ s, m.group? 3 = some s → Firm m.whole.text s) :
    Attempt.Safe text.source (callableTypeParameters text start m) fun _ => True := by
  unfold callableTypeParameters
  split
  next s hs =>
    obtain ⟨t, ht⟩ := (params s hs).slice hm hc
    exact Attempt.Settles.bind (Attempt.Safe.need_some ht) fun _ _ => Attempt.Safe.pure trivial
  next => exact Attempt.Safe.pure trivial

theorem callableNode_safe (site : Site text start limit) (owner : Owner) (isConstructor : Bool)
    {head : Nat → Nat → Attempt CallableHeader}
    (hh : Attempt.Safe text.source (head start limit) (Calls text start limit)) :
    Attempt.Safe text.source (callableNode text owner head isConstructor start limit) fun n =>
      Begins text start ∧ Leaf start limit n := by
  refine Attempt.Settles.bind hh fun ⟨m, name, returnType⟩ ⟨rest, hc, stop, front, params⟩ => ?_
  dsimp only at hc stop front params ⊢
  have begins := site.begins hc front.opens
  have positive : 0 < m.stop := stop ▸ front.size_pos
  obtain ⟨f, hf⟩ := exists_ofMatch? site.masks front hc
  refine Attempt.Settles.bind (Attempt.Safe.need_some hf) fun f' _ => ?_
  refine Attempt.Settles.bind (callableTypeParameters_safe site.masks hc params)
    fun typeParams _ => ?_
  split
  next =>
    refine Attempt.Safe.lift_bind (Build.Safe.warn _ _ limit) fun _ _ => ?_
    exact Attempt.Safe.expect (by simp)
  next close found =>
    obtain ⟨-, parameters⟩ := parameters_safe site found
    obtain ⟨behind, -, -⟩ := closes_before (by decide) found
    refine Attempt.Settles.bind parameters fun ps _ => ?_
    refine Attempt.Settles.bind (callableEnd_safe site name) fun ⟨last, hasBody⟩ ⟨lt, le, ends⟩ => ?_
    exact span_leaf begins ends (by dsimp only at lt; omega) le (by simp [Draft.named])

theorem fieldNode_safe (site : Site text start limit) (owner : Owner) :
    Attempt.Safe text.source (fieldNode text owner start limit) fun n =>
      Begins text start ∧ Leaf start limit n := by
  refine site.match_safe fun m rest ⟨h, hc, stop, le, _⟩ => ?_
  obtain ⟨front, type, htype, firm⟩ := fieldHeader_match h
  have begins := site.begins hc front.opens
  have positive : 0 < m.stop := stop ▸ front.size_pos
  obtain ⟨f, hf⟩ := exists_ofMatch? site.masks front hc
  obtain ⟨t, ht⟩ := firm.slice site.masks hc
  refine Attempt.Settles.bind (Attempt.Safe.need_some hf) fun f' _ => ?_
  rw [htype, Attempt.expect_some_bind]
  refine Attempt.Settles.bind (Attempt.Safe.check _) fun _ _ => ?_
  refine Attempt.Settles.bind (Attempt.Safe.need_some ht) fun _ _ => ?_
  have inside : start + m.stop - 1 ≤ limit := by omega
  obtain ⟨last, found, place⟩ := Scan.exists_statementEnd? inside site.last.le_size
  refine Attempt.Settles.bind (Attempt.Safe.need_some found) fun last' same => ?_
  subst same
  rcases place with rfl | ⟨lt, le', edge⟩
  · exact span_leaf begins site.cut site.lt (Nat.le_refl _) (by simp [Draft.named])
  · exact span_leaf begins (site.masks.boundary_of_edge edge) (by omega) le' (by simp [Draft.named])

end SourceTree.Java
