import SourceTree.Builder
import SourceTree.Proofs.Text.Boundary

/-!
When building fails. A step fails only where a piece of the source is asked for that does not lie
between two characters, so a step is judged by two things: the condition under which it fails, and
what its result satisfies otherwise. Both pass through sequencing.
-/

namespace SourceTree

variable {α β : Type} {source : Text} {bad bad' : Prop}

namespace Draft

@[simp] theorem children_note (d : Draft) (key : String) (v : Value) :
    (d.note key v).children = d.children := rfl

@[simp] theorem children_noteText (d : Draft) (key : String) (t : Text) :
    (d.noteText key t).children = d.children := rfl

@[simp] theorem children_noteText? (d : Draft) (key : String) (t : Option Text) :
    (d.noteText? key t).children = d.children := by
  cases t <;> rfl

@[simp] theorem children_noteIf (d : Draft) (condition : Bool) (key : String) :
    (d.noteIf condition key).children = d.children := by
  unfold noteIf
  split <;> rfl

@[simp] theorem children_noteTexts (d : Draft) (key : String) (ts : List Text) :
    (d.noteTexts key ts).children = d.children := by
  unfold noteTexts
  split <;> rfl

end Draft

namespace Build

/-- On a builder of the source the step fails exactly if `bad` holds; otherwise it gives a result
that satisfies `post`. -/
def Settles (source : Text) (bad : Prop) (m : Build α) (post : α → Prop) : Prop :=
  ∀ b : Builder, b.source = source →
    (bad → m b = none) ∧ (¬bad → ∃ a b', m b = some (a, b') ∧ b'.source = source ∧ post a)

/-- The step never fails. -/
abbrev Safe (source : Text) (m : Build α) (post : α → Prop) : Prop := Settles source False m post

theorem Settles.bind {m : Build α} {f : α → Build β} {post : α → Prop} {post' : β → Prop}
    (hm : Settles source bad m post) (hf : ∀ a, post a → Settles source bad' (f a) post') :
    Settles source (bad ∨ bad') (m >>= f) post' := by
  intro b hb
  have step : (m >>= f) b = (m b).bind fun (a, b') => f a b' := rfl
  rw [step]
  by_cases h : bad
  · rw [(hm b hb).1 h]
    exact ⟨fun _ => rfl, fun h' => absurd (.inl h) h'⟩
  · obtain ⟨a, b', hab, hb', ha⟩ := (hm b hb).2 h
    rw [hab, Option.bind_some]
    obtain ⟨fails, gives⟩ := hf a ha b' hb'
    exact ⟨fun h' => fails (h'.resolve_left h), fun h' => gives fun h'' => h' (.inr h'')⟩

theorem Settles.congr {m : Build α} {post : α → Prop} (hm : Settles source bad m post)
    (h : bad ↔ bad') : Settles source bad' m post := by
  intro b hb
  rw [← h]
  exact hm b hb

theorem Settles.mono {m : Build α} {post post' : α → Prop} (hm : Settles source bad m post)
    (h : ∀ a, post a → post' a) : Settles source bad m post' := by
  intro b hb
  refine ⟨(hm b hb).1, fun hbad => ?_⟩
  obtain ⟨a, b', hab, hb', ha⟩ := (hm b hb).2 hbad
  exact ⟨a, b', hab, hb', h a ha⟩

theorem Safe.bind {m : Build α} {f : α → Build β} {post : α → Prop} {post' : β → Prop}
    (hm : Safe source m post) (hf : ∀ a, post a → Settles source bad (f a) post') :
    Settles source bad (m >>= f) post' :=
  (Settles.bind hm hf).congr (by rw [false_or])

theorem Settles.bind_safe {m : Build α} {f : α → Build β} {post : α → Prop} {post' : β → Prop}
    (hm : Settles source bad m post) (hf : ∀ a, post a → Safe source (f a) post') :
    Settles source bad (m >>= f) post' :=
  (Settles.bind hm hf).congr (by rw [or_false])

theorem Safe.pure {a : α} {post : α → Prop} (h : post a) : Safe source (pure a : Build α) post :=
  fun b hb => ⟨False.elim, fun _ => ⟨a, b, rfl, hb, h⟩⟩

theorem Safe.need {o : Option α} {post : α → Prop} (h : ∃ a, o = some a ∧ post a) :
    Safe source (Build.need o) post := by
  obtain ⟨a, rfl, ha⟩ := h
  exact fun b hb => ⟨False.elim, fun _ => ⟨a, b, rfl, hb, ha⟩⟩

theorem Settles.need_bind {o : Option α} {a : α} {f : α → Build β} {post : β → Prop}
    (h : o = some a) (hf : Settles source bad (f a) post) :
    Settles source bad (Build.need o >>= f) post := by
  subst h
  exact hf

theorem Safe.warn (oddity : Oddity) (start stop : Nat) :
    Safe source (Build.warn oddity start stop) fun _ => True :=
  fun b hb => ⟨False.elim, fun _ => ⟨(), b.report _ _ start stop, rfl, hb, trivial⟩⟩

/-- A node covers the piece that it is made for and holds its children, adopted. -/
theorem Safe.span {kind : NodeKind} {start stop : Nat} {d : Draft}
    (h : ∃ t, Text.slice? source start stop = some t) :
    Safe source (Build.span kind start stop d) fun n =>
      n.location.startIndex = start ∧ n.location.endIndex = stop ∧
        ∃ id, n.children = d.children.map (·.adoptedBy id) := by
  obtain ⟨t, ht⟩ := h
  intro b hb
  refine ⟨False.elim, fun _ => ?_⟩
  have run : Build.span kind start stop d b =
      some (b.create kind (b.location start stop) { d with text := some (String.ofList t) }) := by
    simp only [Build.span, Builder.span?, hb, ht]
    rfl
  exact ⟨_, _, run, hb, rfl, rfl, b.issued + 1, rfl⟩

theorem Safe.root {kind : NodeKind} {children : List Node} :
    Safe source (Build.root kind children) fun n =>
      n.location.startIndex = 0 ∧ n.location.endIndex = Text.size source ∧
        ∃ id, n.children = children.map (·.adoptedBy id) := by
  intro b hb
  have run : Build.root kind children b =
      Build.span kind 0 (Text.size source) { children := children } b := by
    rw [Build.root, Builder.root?, hb]
    rfl
  rw [run]
  refine Safe.span (Text.exists_slice?_iff.mpr ⟨Nat.zero_le _, ?_, ?_⟩) b hb
  · exact Text.boundary_zero source
  · exact Text.boundary_size source

theorem Safe.mapM {f : α → Build β} {xs : List α} {post : β → Prop}
    (h : ∀ x ∈ xs, Safe source (f x) post) :
    Safe source (xs.mapM f) fun ys => ∀ y ∈ ys, post y := by
  induction xs with
  | nil =>
    rw [List.mapM_nil]
    exact Safe.pure (by simp)
  | cons x xs ih =>
    rw [List.mapM_cons]
    refine Safe.bind (h x (by simp)) fun y hy => ?_
    refine Safe.bind (ih fun z hz => h z (by simp [hz])) fun ys hys => ?_
    exact Safe.pure (by simpa using ⟨hy, hys⟩)

/-- On builders of the source the two steps are the same. -/
def Agree (source : Text) (m m' : Build α) : Prop := ∀ b : Builder, b.source = source → m b = m' b

theorem Agree.bind {m m' : Build α} {f f' : α → Build β} {post : α → Prop}
    (same : Agree source m m') (hm : Safe source m post)
    (hf : ∀ a, post a → Agree source (f a) (f' a)) : Agree source (m >>= f) (m' >>= f') := by
  intro b hb
  obtain ⟨a, b', hab, hb', ha⟩ := (hm b hb).2 id
  have step : (m >>= f) b = (m b).bind fun (a, b') => f a b' := rfl
  have step' : (m' >>= f') b = (m' b).bind fun (a, b') => f' a b' := rfl
  rw [step, step', ← same b hb, hab]
  exact hf a ha b' hb'

theorem file?_congr {path : String} {language : Language} {tree tree' : Build Node}
    (h : Agree source tree tree') :
    file? path language source tree = file? path language source tree' := by
  have run : tree.run (Builder.ofSource source) = tree'.run (Builder.ofSource source) := h _ rfl
  rw [file?, file?, run]

/-- A file is missing exactly if building its tree fails. -/
theorem file?_eq_none_iff {path : String} {language : Language} {tree : Build Node}
    {post : Node → Prop} (h : Settles source bad tree post) :
    file? path language source tree = none ↔ bad := by
  obtain ⟨fails, gives⟩ := h (Builder.ofSource source) rfl
  constructor
  · intro hnone
    apply Classical.byContradiction
    intro hbad
    obtain ⟨a, b', hab, -, -⟩ := gives hbad
    have run : tree.run (Builder.ofSource source) = some (a, b') := hab
    simp [file?, run] at hnone
  · intro hbad
    have run : tree.run (Builder.ofSource source) = none := fails hbad
    simp [file?, run]

theorem exists_file? {path : String} {language : Language} {tree : Build Node}
    {post : Node → Prop} (h : Safe source tree post) :
    ∃ file, file? path language source tree = some file ∧ post file.root := by
  obtain ⟨a, b', hab, -, ha⟩ := (h (Builder.ofSource source) rfl).2 id
  have run : tree.run (Builder.ofSource source) = some (a, b') := hab
  exact ⟨_, by simp only [file?, run]; rfl, ha⟩

end Build

namespace Attempt

/-- As for a step; what is abandoned satisfies every `post`. -/
def Settles (source : Text) (bad : Prop) (m : Attempt α) (post : α → Prop) : Prop :=
  Build.Settles source bad m.run fun r => ∀ a, r = some a → post a

abbrev Safe (source : Text) (m : Attempt α) (post : α → Prop) : Prop := Settles source False m post

theorem Settles.mono {m : Attempt α} {post post' : α → Prop} (hm : Settles source bad m post)
    (h : ∀ a, post a → post' a) : Settles source bad m post' :=
  Build.Settles.mono hm fun _ hr a ha => h a (hr a ha)

theorem Safe.pure {a : α} {post : α → Prop} (h : post a) : Safe source (pure a : Attempt α) post :=
  Build.Safe.pure fun _ hx => Option.some.inj hx ▸ h

theorem Settles.bind {m : Attempt α} {f : α → Attempt β} {post : α → Prop} {post' : β → Prop}
    (hm : Settles source bad m post) (hf : ∀ a, post a → Safe source (f a) post') :
    Settles source bad (m >>= f) post' := by
  rw [Settles, OptionT.run_bind]
  refine Build.Settles.bind_safe hm fun r hr => ?_
  cases r with
  | none => exact Build.Safe.pure (by simp)
  | some a => exact hf a (hr a rfl)

theorem run_lift_bind (m : Build α) (f : α → Attempt β) :
    (OptionT.lift m >>= f).run = m >>= fun a => (f a).run := by
  simp [OptionT.run_bind]

/-- A step that is never abandoned hands on the condition of what follows. -/
theorem Settles.lift_bind {m : Build α} {f : α → Attempt β} {post : α → Prop} {post' : β → Prop}
    (hm : Build.Settles source bad m post) (hf : ∀ a, post a → Settles source bad' (f a) post') :
    Settles source (bad ∨ bad') (OptionT.lift m >>= f) post' := by
  rw [Settles, run_lift_bind]
  exact Build.Settles.bind hm hf

theorem Safe.lift_bind {m : Build α} {f : α → Attempt β} {post : α → Prop} {post' : β → Prop}
    (hm : Build.Safe source m post) (hf : ∀ a, post a → Settles source bad (f a) post') :
    Settles source bad (OptionT.lift m >>= f) post' := by
  have both := Settles.lift_bind hm hf
  rwa [false_or] at both

theorem Settles.lift_bind_safe {m : Build α} {f : α → Attempt β} {post : α → Prop}
    {post' : β → Prop} (hm : Build.Settles source bad m post)
    (hf : ∀ a, post a → Safe source (f a) post') :
    Settles source bad (OptionT.lift m >>= f) post' := by
  have both := Settles.lift_bind hm hf
  rwa [or_false] at both

theorem Safe.lift {m : Build α} {post : α → Prop} (hm : Build.Safe source m post) :
    Safe source (OptionT.lift m) post := by
  have run : (OptionT.lift m).run = m >>= fun a => Pure.pure (some a) := rfl
  rw [Safe, Settles, run]
  exact Build.Safe.bind hm fun a ha => Build.Safe.pure fun _ hx => Option.some.inj hx ▸ ha

theorem mapM_lift (f : α → Build β) (xs : List α) :
    (xs.mapM fun x => (OptionT.lift (f x) : Attempt β)) = OptionT.lift (xs.mapM f) := by
  induction xs with
  | nil =>
    rw [List.mapM_nil, List.mapM_nil]
    rfl
  | cons x xs ih =>
    rw [List.mapM_cons, List.mapM_cons, ih]
    apply OptionT.ext
    simp [OptionT.run_bind]

theorem Safe.expect {o : Option α} {post : α → Prop} (h : ∀ a, o = some a → post a) :
    Safe source (Attempt.expect o) post := Build.Safe.pure h

theorem Safe.check (condition : Bool) :
    Safe source (Attempt.check condition) fun _ => condition = true := by
  refine Safe.expect fun _ h => ?_
  cases condition with
  | true => rfl
  | false => simp at h

theorem Safe.need {o : Option α} {post : α → Prop} (h : ∃ a, o = some a ∧ post a) :
    Safe source (Attempt.need o) post := Safe.lift (Build.Safe.need h)

theorem Safe.need_some {o : Option α} {a : α} (h : o = some a) :
    Safe source (Attempt.need o) fun x => x = a := Safe.need ⟨a, h, rfl⟩

theorem Settles.need_bind {o : Option α} {a : α} {f : α → Attempt β} {post : β → Prop}
    (h : o = some a) (hf : Settles source bad (f a) post) :
    Settles source bad (Attempt.need o >>= f) post := by
  subst h
  exact hf

theorem Safe.span {kind : NodeKind} {start stop : Nat} {d : Draft}
    (h : ∃ t, Text.slice? source start stop = some t) :
    Safe source (Attempt.span kind start stop d) fun n =>
      n.location.startIndex = start ∧ n.location.endIndex = stop ∧
        ∃ id, n.children = d.children.map (·.adoptedBy id) :=
  Safe.lift (Build.Safe.span h)

theorem Settles.need_none_bind {f : α → Attempt β} {post : β → Prop} :
    Settles source True (Attempt.need none >>= f) post :=
  fun _ _ => ⟨fun _ => rfl, fun h => absurd trivial h⟩

@[simp] theorem expect_some_bind (a : α) (f : α → Attempt β) :
    (Attempt.expect (some a) >>= f) = f a := by
  apply OptionT.ext
  simp [Attempt.expect, OptionT.run_bind]

@[simp] theorem expect_none_bind (f : α → Attempt β) :
    (Attempt.expect none >>= f) = Attempt.expect none := by
  apply OptionT.ext
  simp [Attempt.expect, OptionT.run_bind]

theorem check_true : Attempt.check true = Attempt.expect (some ()) := rfl

theorem check_false : Attempt.check false = Attempt.expect none := rfl

theorem Safe.firstOf {attempts : List (Attempt α)} {post : α → Prop}
    (h : ∀ a ∈ attempts, Safe source a post) : Safe source (Attempt.firstOf attempts) post := by
  induction attempts with
  | nil => exact Safe.expect (by simp)
  | cons a as ih =>
    refine Build.Safe.bind (h a (by simp)) fun r hr => ?_
    cases r with
    | none => exact ih fun b hb => h b (by simp [hb])
    | some x => exact Build.Safe.pure hr

theorem Safe.mapM {f : α → Attempt β} {xs : List α} {post : β → Prop}
    (h : ∀ x ∈ xs, Safe source (f x) post) :
    Safe source (xs.mapM f) fun ys => ∀ y ∈ ys, post y := by
  induction xs with
  | nil =>
    rw [List.mapM_nil]
    exact Safe.pure (by simp)
  | cons x xs ih =>
    rw [List.mapM_cons]
    refine Settles.bind (h x (by simp)) fun y hy => ?_
    refine Settles.bind (ih fun z hz => h z (by simp [hz])) fun ys hys => ?_
    exact Safe.pure (by simpa using ⟨hy, hys⟩)

/-- On builders of the source the two attempts are the same. -/
abbrev Agree (source : Text) (m m' : Attempt α) : Prop := Build.Agree source m.run m'.run

theorem Agree.bind {m : Attempt α} {f f' : α → Attempt β} {post : α → Prop}
    (hm : Safe source m post) (hf : ∀ a, post a → Agree source (f a) (f' a)) :
    Agree source (m >>= f) (m >>= f') := by
  rw [Agree, OptionT.run_bind, OptionT.run_bind]
  refine Build.Agree.bind (fun _ _ => rfl) hm fun r hr => ?_
  cases r with
  | none => exact fun _ _ => rfl
  | some a => exact hf a (hr a rfl)

theorem Agree.lift_bind {m m' : Build α} {f f' : α → Attempt β} {post : α → Prop}
    (same : Build.Agree source m m') (hm : Build.Safe source m post)
    (hf : ∀ a, post a → Agree source (f a) (f' a)) :
    Agree source (OptionT.lift m >>= f) (OptionT.lift m' >>= f') := by
  rw [Agree, run_lift_bind, run_lift_bind]
  exact Build.Agree.bind same hm hf

theorem Agree.firstOf_cons {a a' : Attempt α} {as as' : List (Attempt α)} {post : α → Prop}
    (ha : Safe source a post) (same : Agree source a a')
    (rest : Agree source (firstOf as) (firstOf as')) :
    Agree source (firstOf (a :: as)) (firstOf (a' :: as')) := by
  refine Build.Agree.bind same ha fun r _ => ?_
  cases r with
  | none => exact rest
  | some x => exact fun _ _ => rfl

end Attempt

end SourceTree
