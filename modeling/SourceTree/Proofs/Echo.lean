import SourceTree.Proofs.Growth
import SourceTree.Proofs.Node.Twin
import SourceTree.Proofs.Scan.Mask

/-!
Two runs side by side. A step echoes another if, run on builders that agree in all but the
characters of their sources, the two hand out the same ids, report the same diagnostics and give
results that stand in a given relation. What is built from the same mask is built by steps that echo
each other, whatever the sources hold where the mask is blank.
-/

namespace SourceTree

open Scan (MaskedSource Masks)

variable {α β γ δ : Type}

/-- The builders agree in all but the characters of their sources. -/
structure Builder.Twin (b b' : Builder) : Prop where
  size : Text.size b.source = Text.size b'.source
  lines : b.lines = b'.lines
  issued : b.issued = b'.issued
  diagnostics : b.diagnostics = b'.diagnostics

namespace Build

/-- When both steps succeed on twin builders, the results are related and the builders are twins
again. -/
def Echoes (m : Build α) (m' : Build β) (R : α → β → Prop) : Prop :=
  ∀ b b' a a' c c', b.Twin b' → m b = some (a, c) → m' b' = some (a', c') → R a a' ∧ c.Twin c'

theorem Echoes.bind {m : Build α} {m' : Build β} {f : α → Build γ} {f' : β → Build δ}
    {R : α → β → Prop} {S : γ → δ → Prop} (hm : Echoes m m' R)
    (hf : ∀ a a', R a a' → Echoes (f a) (f' a') S) : Echoes (m >>= f) (m' >>= f') S := by
  intro b b' r r' c c' twin run run'
  obtain ⟨a, b₁, first, second⟩ := bind_eq_some run
  obtain ⟨a', b₁', first', second'⟩ := bind_eq_some run'
  obtain ⟨related, twin⟩ := hm b b' a a' b₁ b₁' twin first first'
  exact hf a a' related b₁ b₁' r r' c c' twin second second'

/-- After steps that give one result the two runs go on with it. -/
theorem Echoes.then {m m' : Build α} {f : α → Build γ} {f' : α → Build δ} {S : γ → δ → Prop}
    (hm : Echoes m m' Eq) (hf : ∀ a, Echoes (f a) (f' a) S) : Echoes (m >>= f) (m' >>= f') S := by
  refine hm.bind fun a a' same => ?_
  subst same
  exact hf a

theorem Echoes.mono {m : Build α} {m' : Build β} {R S : α → β → Prop} (hm : Echoes m m' R)
    (h : ∀ a a', R a a' → S a a') : Echoes m m' S := by
  intro b b' a a' c c' twin run run'
  obtain ⟨related, twin⟩ := hm b b' a a' c c' twin run run'
  exact ⟨h a a' related, twin⟩

theorem Echoes.pure {a : α} {a' : β} {R : α → β → Prop} (h : R a a') :
    Echoes (pure a) (pure a') R := by
  intro b b' x x' c c' twin run run'
  obtain ⟨rfl, rfl⟩ := Prod.mk.inj (Option.some.inj run)
  obtain ⟨rfl, rfl⟩ := Prod.mk.inj (Option.some.inj run')
  exact ⟨h, twin⟩

theorem Echoes.need {o : Option α} {o' : Option β} {R : α → β → Prop}
    (h : ∀ a a', o = some a → o' = some a' → R a a') :
    Echoes (Build.need o) (Build.need o') R := by
  intro b b' a a' c c' twin run run'
  obtain ⟨x, hx, same⟩ := Option.bind_eq_some_iff.mp run
  obtain ⟨x', hx', same'⟩ := Option.bind_eq_some_iff.mp run'
  obtain ⟨rfl, rfl⟩ := Prod.mk.inj (Option.some.inj same)
  obtain ⟨rfl, rfl⟩ := Prod.mk.inj (Option.some.inj same')
  exact ⟨h x x' hx hx', twin⟩

/-- An answer that both runs ask for is the same. -/
theorem Echoes.needed {o : Option α} {f : α → Build γ} {f' : α → Build δ} {S : γ → δ → Prop}
    (hf : ∀ a, o = some a → Echoes (f a) (f' a) S) :
    Echoes (Build.need o >>= f) (Build.need o >>= f') S := by
  refine (Echoes.need fun a a' h h' => And.intro h (Option.some.inj (h.symm.trans h'))).bind ?_
  rintro a _ ⟨h, rfl⟩
  exact hf a h

/-- An answer that is read off the characters of the source may be any other in the other run. -/
theorem Echoes.read (o : Option α) (o' : Option β) :
    Echoes (Build.need o) (Build.need o') fun a a' => o = some a ∧ o' = some a' :=
  Echoes.need fun _ _ h h' => ⟨h, h'⟩

theorem Echoes.warn (oddity : Oddity) (start stop : Nat) :
    Echoes (Build.warn oddity start stop) (Build.warn oddity start stop) Eq := by
  intro b b' a a' c c' twin run run'
  obtain ⟨rfl, rfl⟩ := Prod.mk.inj (Option.some.inj run)
  obtain ⟨rfl, rfl⟩ := Prod.mk.inj (Option.some.inj run')
  refine ⟨rfl, twin.size, twin.lines, twin.issued, ?_⟩
  simp only [Builder.report, Builder.location, twin.lines, twin.diagnostics]

end Build

/-! ### Drafts -/

namespace Draft

variable {shared : Shared} {start : Nat} {key : String} {d d' e e' : Draft}

/-- The drafts make twins of nodes that start at the offset. -/
structure Twin (shared : Shared) (start : Nat) (d d' : Draft) : Prop where
  name : d.name = d'.name
  metadata : Metadata.Alike shared start d.metadata d'.metadata
  children : List.Forall₂ (Node.Twin shared) d.children d'.children

namespace Twin

theorem named (name : Text) : Twin shared start (Draft.named name) (Draft.named name) :=
  ⟨rfl, fun _ _ => rfl, .nil⟩

/-- What is noted under a key has to agree only if the key is shared. -/
theorem noted (h : Twin shared start d d') (notes : Notes key d e) (notes' : Notes key d' e')
    (same : shared start key → e.metadata.get? key = e'.metadata.get? key) :
    Twin shared start e e' := by
  refine ⟨?_, fun key' hkey => ?_, ?_⟩
  · rw [notes.name, notes'.name, h.name]
  · by_cases here : key' = key
    · subst here
      exact same hkey
    · rw [notes.others key' here, notes'.others key' here]
      exact h.metadata key' hkey
  · rw [notes.children, notes'.children]
    exact h.children

theorem note {v v' : Value} (h : Twin shared start d d') (same : shared start key → v = v') :
    Twin shared start (d.note key v) (d'.note key v') :=
  ⟨h.name, h.metadata.insert same, h.children⟩

theorem noteText {t t' : Text} (h : Twin shared start d d') (same : shared start key → t = t') :
    Twin shared start (d.noteText key t) (d'.noteText key t') :=
  h.note fun hkey => congrArg _ (congrArg _ (same hkey))

theorem noteText? {t t' : Option Text} (h : Twin shared start d d')
    (own : ¬shared start key) : Twin shared start (d.noteText? key t) (d'.noteText? key t') := by
  exact h.noted (.noteText? key d t) (.noteText? key d' t') fun hkey => absurd hkey own

theorem noteTexts {ts ts' : List Text} (h : Twin shared start d d') (own : ¬shared start key) :
    Twin shared start (d.noteTexts key ts) (d'.noteTexts key ts') := by
  exact h.noted (.noteTexts key d ts) (.noteTexts key d' ts') fun hkey => absurd hkey own

theorem noteIf {condition condition' : Bool} (h : Twin shared start d d')
    (same : shared start key → condition = condition') :
    Twin shared start (d.noteIf condition key) (d'.noteIf condition' key) := by
  refine h.noted (.noteIf key d condition) (.noteIf key d' condition') fun hkey => ?_
  rw [← same hkey]
  cases condition with
  | true => exact (h.note fun _ => rfl).metadata key hkey
  | false => exact h.metadata key hkey

theorem noteUnless {condition condition' : Bool} {t t' : Text} (h : Twin shared start d d')
    (own : ¬shared start key) :
    Twin shared start (if condition then d else d.noteText key t)
      (if condition' then d' else d'.noteText key t') := by
  have notes (d : Draft) (condition : Bool) (t : Text) :
      Notes key d (if condition then d else d.noteText key t) := by
    cases condition with
    | true => exact .refl key d
    | false => exact .note key d _
  exact h.noted (notes d condition t) (notes d' condition' t') fun hkey => absurd hkey own

theorem withChildren {ns ns' : List Node} (h : Twin shared start d d')
    (twins : List.Forall₂ (Node.Twin shared) ns ns') :
    Twin shared start (d.withChildren ns) (d'.withChildren ns') :=
  ⟨h.name, h.metadata, twins⟩

end Twin

end Draft

namespace Build

variable {shared : Shared}

theorem Echoes.span {kind : NodeKind} {start stop : Nat} {d d' : Draft}
    (h : d.Twin shared start d') :
    Echoes (Build.span kind start stop d) (Build.span kind start stop d') (Node.Twin shared) := by
  intro b b' n n' c c' twin run run'
  obtain ⟨t, -, rfl, rfl⟩ := span_eq_some run
  obtain ⟨t', -, rfl, rfl⟩ := span_eq_some run'
  obtain ⟨size, lines, issued, diagnostics⟩ := twin
  refine ⟨.node ⟨?_, rfl, h.name, ?_, rfl, h.metadata⟩ ?_, size, lines, ?_, diagnostics⟩
  · simp only [issued]
  · simp only [Builder.location, lines]
  · rw [issued]
    refine List.forall₂_map_left_iff.mpr (List.forall₂_map_right_iff.mpr ?_)
    exact h.children.imp fun _ _ twin => twin.adopted _
  · simp only [issued]

theorem Echoes.root {kind : NodeKind} {ns ns' : List Node}
    (h : List.Forall₂ (Node.Twin shared) ns ns') :
    Echoes (Build.root kind ns) (Build.root kind ns') (Node.Twin shared) := by
  intro b b' n n' c c' twin run run'
  have twins : Draft.Twin shared 0 { children := ns } { children := ns' } :=
    ⟨rfl, fun _ _ => rfl, h⟩
  have whole : Build.span kind 0 (Text.size b.source) { children := ns } b = some (n, c) := run
  have whole' : Build.span kind 0 (Text.size b'.source) { children := ns' } b' = some (n', c') := run'
  rw [← twin.size] at whole'
  exact Echoes.span twins b b' n n' c c' twin whole whole'

theorem Echoes.mapM {f f' : α → Build β} {xs : List α} {R : β → β → Prop}
    (h : ∀ x, Echoes (f x) (f' x) R) : Echoes (xs.mapM f) (xs.mapM f') (List.Forall₂ R) := by
  induction xs with
  | nil =>
    rw [List.mapM_nil, List.mapM_nil]
    exact Echoes.pure .nil
  | cons x xs ih =>
    rw [List.mapM_cons, List.mapM_cons]
    refine (h x).bind fun y y' first => ?_
    refine ih.bind fun ys ys' later => ?_
    exact Echoes.pure (.cons first later)

end Build

namespace Attempt

/-- As for a step; a construct is abandoned in both runs or in none. -/
def Echoes (m : Attempt α) (m' : Attempt β) (R : α → β → Prop) : Prop :=
  Build.Echoes m.run m'.run (Option.Rel R)

theorem Echoes.bind {m : Attempt α} {m' : Attempt β} {f : α → Attempt γ} {f' : β → Attempt δ}
    {R : α → β → Prop} {S : γ → δ → Prop} (hm : Echoes m m' R)
    (hf : ∀ a a', R a a' → Echoes (f a) (f' a') S) : Echoes (m >>= f) (m' >>= f') S := by
  rw [Echoes, OptionT.run_bind, OptionT.run_bind]
  refine Build.Echoes.bind hm fun r r' related => ?_
  cases related with
  | none => exact Build.Echoes.pure .none
  | some related => exact hf _ _ related

theorem Echoes.then {m m' : Attempt α} {f : α → Attempt γ} {f' : α → Attempt δ} {S : γ → δ → Prop}
    (hm : Echoes m m' Eq) (hf : ∀ a, Echoes (f a) (f' a) S) : Echoes (m >>= f) (m' >>= f') S := by
  refine hm.bind fun a a' same => ?_
  subst same
  exact hf a

theorem Echoes.pure {a : α} {a' : β} {R : α → β → Prop} (h : R a a') :
    Echoes (pure a) (pure a') R := Build.Echoes.pure (.some h)

theorem Echoes.mono {m : Attempt α} {m' : Attempt β} {R S : α → β → Prop} (hm : Echoes m m' R)
    (h : ∀ a a', R a a' → S a a') : Echoes m m' S := by
  refine Build.Echoes.mono hm fun r r' related => ?_
  cases related with
  | none => exact .none
  | some related => exact .some (h _ _ related)

theorem Echoes.abandoned {R : α → β → Prop} :
    Echoes (Attempt.expect none) (Attempt.expect none) R := Build.Echoes.pure .none

theorem Echoes.expect {o : Option α} {o' : Option β} {R : α → β → Prop} (h : Option.Rel R o o') :
    Echoes (Attempt.expect o) (Attempt.expect o') R := Build.Echoes.pure h

theorem Echoes.expected {o : Option α} {f : α → Attempt γ} {f' : α → Attempt δ} {S : γ → δ → Prop}
    (hf : ∀ a, o = some a → Echoes (f a) (f' a) S) :
    Echoes (Attempt.expect o >>= f) (Attempt.expect o >>= f') S := by
  cases o with
  | none =>
    rw [expect_none_bind, expect_none_bind]
    exact Echoes.abandoned
  | some a =>
    rw [expect_some_bind, expect_some_bind]
    exact hf a rfl

theorem Echoes.checked {condition : Bool} {f : Unit → Attempt γ} {f' : Unit → Attempt δ}
    {S : γ → δ → Prop} (hf : Echoes (f ()) (f' ()) S) :
    Echoes (Attempt.check condition >>= f) (Attempt.check condition >>= f') S :=
  Echoes.expected fun _ _ => hf

theorem Echoes.lift {m : Build α} {m' : Build β} {R : α → β → Prop} (hm : Build.Echoes m m' R) :
    Echoes (OptionT.lift m) (OptionT.lift m') R := by
  have run : (OptionT.lift m).run = m >>= fun a => Pure.pure (some a) := rfl
  have run' : (OptionT.lift m').run = m' >>= fun a => Pure.pure (some a) := rfl
  rw [Echoes, run, run']
  exact hm.bind fun a a' related => Build.Echoes.pure (.some related)

theorem Echoes.needed {o : Option α} {f : α → Attempt γ} {f' : α → Attempt δ} {S : γ → δ → Prop}
    (hf : ∀ a, o = some a → Echoes (f a) (f' a) S) :
    Echoes (Attempt.need o >>= f) (Attempt.need o >>= f') S := by
  rw [Echoes, Attempt.need, run_lift_bind, run_lift_bind]
  exact Build.Echoes.needed hf

theorem Echoes.need {o : Option α} {o' : Option β} {R : α → β → Prop}
    (h : ∀ a a', o = some a → o' = some a' → R a a') :
    Echoes (Attempt.need o) (Attempt.need o') R := Echoes.lift (Build.Echoes.need h)

theorem Echoes.read (o : Option α) (o' : Option β) :
    Echoes (Attempt.need o) (Attempt.need o') fun a a' => o = some a ∧ o' = some a' :=
  Echoes.lift (Build.Echoes.read o o')

theorem Echoes.warn (oddity : Oddity) (start stop : Nat) :
    Echoes (Attempt.warn oddity start stop) (Attempt.warn oddity start stop) Eq :=
  Echoes.lift (Build.Echoes.warn oddity start stop)

theorem Echoes.span {shared : Shared} {kind : NodeKind} {start stop : Nat} {d d' : Draft}
    (h : d.Twin shared start d') :
    Echoes (Attempt.span kind start stop d) (Attempt.span kind start stop d') (Node.Twin shared) :=
  Echoes.lift (Build.Echoes.span h)

theorem Echoes.mapM {f f' : α → Attempt β} {xs : List α} {R : β → β → Prop}
    (h : ∀ x, Echoes (f x) (f' x) R) : Echoes (xs.mapM f) (xs.mapM f') (List.Forall₂ R) := by
  induction xs with
  | nil =>
    rw [List.mapM_nil, List.mapM_nil]
    exact Echoes.pure .nil
  | cons x xs ih =>
    rw [List.mapM_cons, List.mapM_cons]
    refine (h x).bind fun y y' first => ?_
    refine ih.bind fun ys ys' later => ?_
    exact Echoes.pure (.cons first later)

theorem Echoes.firstOf {attempts attempts' : List (Attempt α)} {R : α → α → Prop}
    (h : List.Forall₂ (fun a a' => Echoes a a' R) attempts attempts') :
    Echoes (Attempt.firstOf attempts) (Attempt.firstOf attempts') R := by
  induction h with
  | nil => exact Echoes.abandoned
  | cons first _ ih =>
    refine Build.Echoes.bind first fun r r' related => ?_
    cases related with
    | none => exact ih
    | some related => exact Build.Echoes.pure (.some related)

theorem bodyEnds_echoes {source source' masked : Text} (name : Text) (start limit : Nat) :
    Echoes (bodyEnds ⟨source, masked⟩ name start limit) (bodyEnds ⟨source', masked⟩ name start limit)
      Eq := by
  unfold bodyEnds
  dsimp only
  cases Scan.findMatchingBefore? masked start limit '\x7b' '\x7d' with
  | some close => exact Echoes.pure rfl
  | none => exact (Echoes.warn _ _ _).then fun _ => Echoes.pure rfl

end Attempt

/-! ### Sources with one mask -/

theorem lineStartsFrom_spaces (offset k : Nat) (cs : Text) :
    Text.lineStartsFrom offset (List.replicate k ' ' ++ cs) = Text.lineStartsFrom (offset + k) cs := by
  induction k generalizing offset with
  | zero => rfl
  | succ k ih =>
    have one : ' '.utf8Size = 1 := by decide
    rw [List.replicate_succ, List.cons_append, Text.lineStartsFrom, if_neg (by decide), one, ih]
    congr 1
    omega

/-- Newlines are never blanked, so a mask has the lines of its source. -/
theorem lineStartsFrom_masks {s m : Text} (h : Masks s m) (offset : Nat) :
    Text.lineStartsFrom offset s = Text.lineStartsFrom offset m := by
  induction h generalizing offset with
  | nil => rfl
  | keep c _ ih => rw [Text.lineStartsFrom, Text.lineStartsFrom, ih]
  | blank c _ _ ih =>
    rw [Text.lineStartsFrom]
    by_cases newline : c = '\n'
    · subst newline
      have kept : Scan.blank '\n' = ['\n'] := rfl
      rw [kept, List.cons_append, List.nil_append, Text.lineStartsFrom, ih]
    · have spaces : Scan.blank c = List.replicate c.utf8Size ' ' := if_neg newline
      rw [spaces, lineStartsFrom_spaces, if_neg (by simpa using newline), ih]

/-- The text is a mask of both sources. -/
structure MasksBoth (source source' masked : Text) : Prop where
  first : Masks source masked
  second : Masks source' masked

namespace MasksBoth

variable {source source' masked : Text}

theorem of_maskBrace (same : Scan.maskBrace source = Scan.maskBrace source') :
    MasksBoth source source' (Scan.maskBrace source) := by
  refine ⟨Scan.maskBrace_masks source, ?_⟩
  rw [same]
  exact Scan.maskBrace_masks source'

theorem size_eq (h : MasksBoth source source' masked) : Text.size source = Text.size source' :=
  h.first.size_eq.symm.trans h.second.size_eq

theorem slices (h : MasksBoth source source' masked) {start stop : Nat} {raw raw' code : Text}
    (hraw : Text.slice? source start stop = some raw)
    (hraw' : Text.slice? source' start stop = some raw')
    (hcode : Text.slice? masked start stop = some code) : MasksBoth raw raw' code := by
  obtain ⟨code₁, hcode₁, first⟩ := h.first.slice hraw
  obtain ⟨code₂, hcode₂, second⟩ := h.second.slice hraw'
  obtain rfl : code = code₁ := Option.some.inj (hcode.symm.trans hcode₁)
  obtain rfl : code = code₂ := Option.some.inj (hcode.symm.trans hcode₂)
  exact ⟨first, second⟩

theorem builders (h : MasksBoth source source' masked) :
    (Builder.ofSource source).Twin (Builder.ofSource source') := by
  refine ⟨h.size_eq, ?_, rfl, rfl⟩
  simp only [Builder.ofSource, LineIndex.ofText, lineStartsFrom_masks h.first,
    lineStartsFrom_masks h.second, h.size_eq]

end MasksBoth

/-- Trees of two sources with one mask whose building echoes each other are twins, with the same
diagnostics. -/
theorem Build.Echoes.of_file? {shared : Shared} {source source' masked : Text} {path path' : String}
    {language language' : Language} {tree tree' : Build Node} {file file' : ParsedFile}
    (h : Echoes tree tree' (Node.Twin shared)) (masks : MasksBoth source source' masked)
    (parsed : file? path language source tree = some file)
    (parsed' : file? path' language' source' tree' = some file') :
    file.root.Twin shared file'.root ∧ file.diagnostics = file'.diagnostics := by
  obtain ⟨⟨root, b⟩, run, made⟩ := Option.bind_eq_some_iff.mp parsed
  obtain ⟨⟨root', b'⟩, run', made'⟩ := Option.bind_eq_some_iff.mp parsed'
  obtain rfl := Option.some.inj made
  obtain rfl := Option.some.inj made'
  obtain ⟨twin, builders⟩ := h _ _ root root' b b' masks.builders run run'
  exact ⟨twin, builders.diagnostics⟩

/-- Such trees are there for both sources if their building is safe. -/
theorem Build.Echoes.exists_files {shared : Shared} {source source' masked : Text}
    {tree tree' : Build Node} {post post' : Node → Prop}
    (h : Echoes tree tree' (Node.Twin shared)) (masks : MasksBoth source source' masked)
    (safe : Safe source tree post) (safe' : Safe source' tree' post') (path path' : String)
    (language : Language) :
    ∃ file file', file? path language source tree = some file ∧
      file? path' language source' tree' = some file' ∧
      file.root.Twin shared file'.root ∧ file.diagnostics = file'.diagnostics := by
  obtain ⟨file, parsed, -⟩ := exists_file? safe
  obtain ⟨file', parsed', -⟩ := exists_file? safe'
  exact ⟨file, file', parsed, parsed', h.of_file? masks parsed parsed'⟩

/-- The two sources have the same characters in the piece. -/
def SameIn (source source' : Text) (piece : Scan.Range) : Prop :=
  Text.slice? source piece.start piece.stop = Text.slice? source' piece.start piece.stop

/-- The metadata that says who may use a declaration and how. -/
def accessKeys : List String := ["visibility", "exported", "static", "abstract", "final"]

namespace Shared

variable {front list : Nat → Prop} {start : Nat} {key : String}

/-- The access metadata is shared where `front` holds, and the parameters where `list` does. -/
def header (front list : Nat → Prop) : Shared := fun start key =>
  key ∈ accessKeys ∧ front start ∨ key = "parameters" ∧ list start

theorem not_header (h : key ∉ "parameters" :: accessKeys) : ¬header front list start key := by
  rw [List.mem_cons, not_or] at h
  rintro (⟨access, -⟩ | ⟨parameters, -⟩)
  · exact h.2 access
  · exact h.1 parameters

theorem front_of_header (h : header front list start key) (access : key ≠ "parameters") :
    front start := by
  rcases h with ⟨-, front⟩ | ⟨parameters, -⟩
  · exact front
  · exact absurd parameters access

theorem list_of_header (h : header front list start "parameters") : list start := by
  rcases h with ⟨access, -⟩ | ⟨-, list⟩
  · exact absurd access (by decide)
  · exact list

end Shared

end SourceTree
