import SourceTree.Builder

/-!
What a step of building keeps when it succeeds. A step is judged by a view of the builder, which is
the same before and after, and by a condition that its result satisfies. A step that only reads
keeps every view.
-/

namespace SourceTree

variable {α β σ : Type} {view : Builder → σ}

namespace Build

/-- When the step succeeds, the view of the builder is as before and the result satisfies `post`. -/
def Keeps (view : Builder → σ) (m : Build α) (post : α → Prop) : Prop :=
  ∀ b a b', m b = some (a, b') → view b' = view b ∧ post a

theorem bind_eq_some {m : Build α} {f : α → Build β} {b b' : Builder} {r : β}
    (h : (m >>= f) b = some (r, b')) : ∃ a b₁, m b = some (a, b₁) ∧ f a b₁ = some (r, b') := by
  have step : (m >>= f) b = (m b).bind fun (a, b₁) => f a b₁ := rfl
  rw [step] at h
  obtain ⟨⟨a, b₁⟩, first, second⟩ := Option.bind_eq_some_iff.mp h
  exact ⟨a, b₁, first, second⟩

theorem span_eq_some {kind : NodeKind} {start stop : Nat} {d : Draft} {b b' : Builder} {n : Node}
    (h : Build.span kind start stop d b = some (n, b')) :
    ∃ t, Text.slice? b.source start stop = some t ∧
      n = ⟨b.issued + 1, kind, d.name, b.location start stop,
        d.children.map (·.adoptedBy (b.issued + 1)), none, some (String.ofList t), d.metadata⟩ ∧
      b' = { b with issued := b.issued + 1 } := by
  obtain ⟨t, ht, made⟩ := Option.bind_eq_some_iff.mp h
  obtain ⟨rfl, rfl⟩ := Prod.mk.inj (Option.some.inj made)
  exact ⟨t, ht, rfl, rfl⟩

theorem Keeps.bind {m : Build α} {f : α → Build β} {post : α → Prop} {post' : β → Prop}
    (hm : Keeps view m post) (hf : ∀ a, post a → Keeps view (f a) post') :
    Keeps view (m >>= f) post' := by
  intro b r b' h
  obtain ⟨a, b₁, first, second⟩ := bind_eq_some h
  obtain ⟨same, ha⟩ := hm b a b₁ first
  obtain ⟨same', hr⟩ := hf a ha b₁ r b' second
  exact ⟨same'.trans same, hr⟩

theorem Keeps.mono {m : Build α} {post post' : α → Prop} (hm : Keeps view m post)
    (h : ∀ a, post a → post' a) : Keeps view m post' := by
  intro b a b' run
  obtain ⟨same, ha⟩ := hm b a b' run
  exact ⟨same, h a ha⟩

theorem Keeps.pure {a : α} {post : α → Prop} (h : post a) : Keeps view (pure a : Build α) post := by
  intro b r b' run
  obtain ⟨rfl, rfl⟩ := Prod.mk.inj (Option.some.inj run)
  exact ⟨rfl, h⟩

theorem Keeps.need (o : Option α) : Keeps view (Build.need o) fun a => o = some a := by
  intro b a b' run
  obtain ⟨x, hx, same⟩ := Option.bind_eq_some_iff.mp run
  obtain ⟨rfl, rfl⟩ := Prod.mk.inj (Option.some.inj same)
  exact ⟨rfl, hx⟩

theorem Keeps.mapM {f : α → Build β} {xs : List α} (h : ∀ x, Keeps view (f x) fun _ => True) :
    Keeps view (xs.mapM f) fun _ => True := by
  induction xs with
  | nil =>
    rw [List.mapM_nil]
    exact Keeps.pure trivial
  | cons x xs ih =>
    rw [List.mapM_cons]
    exact Keeps.bind (h x) fun y _ => Keeps.bind ih fun ys _ => Keeps.pure trivial

end Build

namespace Attempt

/-- As for a step; of what is abandoned only the view is said to be kept. -/
def Keeps (view : Builder → σ) (m : Attempt α) (post : α → Prop) : Prop :=
  Build.Keeps view m.run fun r => ∀ a, r = some a → post a

theorem Keeps.bind {m : Attempt α} {f : α → Attempt β} {post : α → Prop} {post' : β → Prop}
    (hm : Keeps view m post) (hf : ∀ a, post a → Keeps view (f a) post') :
    Keeps view (m >>= f) post' := by
  rw [Keeps, OptionT.run_bind]
  refine Build.Keeps.bind hm fun r hr => ?_
  cases r with
  | none => exact Build.Keeps.pure (by simp)
  | some a => exact hf a (hr a rfl)

theorem Keeps.mono {m : Attempt α} {post post' : α → Prop} (hm : Keeps view m post)
    (h : ∀ a, post a → post' a) : Keeps view m post' :=
  Build.Keeps.mono hm fun _ hr a ha => h a (hr a ha)

theorem Keeps.pure {a : α} {post : α → Prop} (h : post a) :
    Keeps view (pure a : Attempt α) post :=
  Build.Keeps.pure fun _ hx => Option.some.inj hx ▸ h

theorem Keeps.expect (o : Option α) : Keeps view (Attempt.expect o) fun a => o = some a :=
  Build.Keeps.pure fun _ h => h

theorem Keeps.abandoned {post : α → Prop} : Keeps view (Attempt.expect none) post :=
  Build.Keeps.pure (by simp)

theorem Keeps.check (condition : Bool) :
    Keeps view (Attempt.check condition) fun _ => condition = true := by
  refine Build.Keeps.pure fun _ h => ?_
  cases condition with
  | true => rfl
  | false => simp at h

theorem Keeps.lift {m : Build α} {post : α → Prop} (hm : Build.Keeps view m post) :
    Keeps view (OptionT.lift m) post := by
  have run : (OptionT.lift m).run = m >>= fun a => Pure.pure (some a) := rfl
  rw [Keeps, run]
  exact Build.Keeps.bind hm fun a ha => Build.Keeps.pure fun _ hx => Option.some.inj hx ▸ ha

theorem Keeps.need (o : Option α) : Keeps view (Attempt.need o) fun a => o = some a :=
  Keeps.lift (Build.Keeps.need o)

theorem Keeps.mapM {f : α → Attempt β} {xs : List α} (h : ∀ x, Keeps view (f x) fun _ => True) :
    Keeps view (xs.mapM f) fun _ => True := by
  induction xs with
  | nil =>
    rw [List.mapM_nil]
    exact Keeps.pure trivial
  | cons x xs ih =>
    rw [List.mapM_cons]
    exact Keeps.bind (h x) fun y _ => Keeps.bind ih fun ys _ => Keeps.pure trivial

theorem Keeps.firstOf {attempts : List (Attempt α)} {post : α → Prop}
    (h : ∀ a ∈ attempts, Keeps view a post) : Keeps view (Attempt.firstOf attempts) post := by
  induction attempts with
  | nil => exact Keeps.abandoned
  | cons a as ih =>
    refine Build.Keeps.bind (h a List.mem_cons_self) fun r hr => ?_
    cases r with
    | none => exact ih fun b hb => h b (List.mem_cons_of_mem a hb)
    | some x => exact Build.Keeps.pure hr

end Attempt

end SourceTree
