import SourceTree.Proofs.Python.Definition

/-!
When a source cannot be read: exactly if one of the statements that are looked at is a stranded
annotation. Which lines are looked at, and as what, is a matter of the indentation and of the words
that the lines above them begin with.
-/

namespace SourceTree.Python

open Scan (LogicalLine LiesIn maskIndent blockLength)

variable {source : Text} {cx : Context} {scope : Scope} {base : Nat} {line : LogicalLine}

/-- The block of a line with this indentation goes on over the line. -/
def goesOn (indent : Nat) (l : LogicalLine) : Bool := l.kind == .blank || indent < l.indent

/-- The block of a line with this indentation. -/
def blockOf (indent : Nat) (following : List LogicalLine) : List LogicalLine :=
  following.takeWhile (goesOn indent)

/-- The block of a line with this indentation does not go on over these lines. -/
def Ends (indent : Nat) (outside : List LogicalLine) : Prop := blockOf indent outside = []

theorem goesOn_of_mem_blockOf {following : List LogicalLine} (h : line ∈ blockOf base following) :
    goesOn base line = true :=
  List.all_eq_true.mp List.all_takeWhile line h

theorem blockLength_append {following outside : List LogicalLine} (h : Ends base outside) :
    blockLength base (following ++ outside) = (blockOf base following).length := by
  change (List.takeWhile (goesOn base) (following ++ outside)).length = _
  rw [List.takeWhile_append]
  split
  next all =>
    change (following ++ blockOf base outside).length = _
    rw [h, List.append_nil]
    exact all.symm
  next => rfl

/-- Behind its block the block of a line ends, and so does every one that is indented further. -/
theorem ends_behind {following outside : List LogicalLine} {inner : Nat} (le : base ≤ inner)
    (h : Ends base outside) : Ends inner (following.dropWhile (goesOn base) ++ outside) := by
  have narrow (l : LogicalLine) (stops : goesOn base l = false) : goesOn inner l = false := by
    simp only [goesOn, Bool.or_eq_false_iff, decide_eq_false_iff_not] at stops ⊢
    exact ⟨stops.1, by omega⟩
  have first (l : LogicalLine) (ls : List LogicalLine) (stops : goesOn base l = false) :
      Ends inner (l :: ls) := by
    rw [Ends, blockOf, List.takeWhile_cons, narrow l stops]
    rfl
  have front := List.head?_dropWhile_not (goesOn base) following
  cases hd : following.dropWhile (goesOn base) with
  | cons l ls =>
    rw [hd] at front
    exact first l _ front
  | nil =>
    cases outside with
    | nil => rfl
    | cons l ls =>
      refine first l ls (Bool.eq_false_iff.mpr fun on => ?_)
      rw [Ends, blockOf, List.takeWhile_cons, on] at h
      exact List.cons_ne_nil _ _ h

/-- In a block with this scope and indentation a line is looked at as a statement of a scope: it is
a statement of the block itself, or it is one of the body that such a statement heads. -/
inductive Within : Scope → Nat → List LogicalLine → Scope → LogicalLine → Prop where
  | here {scope : Scope} {base : Nat} {line : LogicalLine} {rest : List LogicalLine} :
      line.isCode = true → line.indent = base → Within scope base (line :: rest) scope line
  | inside {scope inner s : Scope} {base deeper : Nat} {line l : LogicalLine}
      {rest : List LogicalLine} : line.isCode = true → line.indent = base →
      heads (maskIndent line.content) = some inner →
      baseIndent? (blockOf base rest) = some deeper →
      Within inner deeper (blockOf base rest) s l → Within scope base (line :: rest) s l
  | later {scope s : Scope} {base : Nat} {line l : LogicalLine} {rest : List LogicalLine} :
      Within scope base rest s l → Within scope base (line :: rest) s l

/-- A line in the block is looked at that cannot be built. -/
def Hit (scope : Scope) (base : Nat) (block : List LogicalLine) : Prop :=
  ∃ s l, Within scope base block s l ∧ Fatal s l

/-- The block of a line with this indentation is hit. -/
def HitBelow (base : Nat) (rest : List LogicalLine) (inner : Scope) : Prop :=
  ∃ deeper, baseIndent? (blockOf base rest) = some deeper ∧ Hit inner deeper (blockOf base rest)

theorem hit_nil : ¬Hit scope base [] := by
  rintro ⟨s, l, within, -⟩
  cases within

theorem hit_cons_of_not {rest : List LogicalLine} (h : line.isCode = false ∨ line.indent ≠ base) :
    Hit scope base (line :: rest) ↔ Hit scope base rest := by
  constructor
  · rintro ⟨s, l, within, fatal⟩
    cases within with
    | here code hb => simp [code, hb] at h
    | inside code hb => simp [code, hb] at h
    | later within => exact ⟨s, l, within, fatal⟩
  · rintro ⟨s, l, within, fatal⟩
    exact ⟨s, l, .later within, fatal⟩

theorem hit_cons {rest : List LogicalLine} (code : line.isCode = true) (hb : line.indent = base) :
    Hit scope base (line :: rest) ↔
      ((∃ inner, heads (maskIndent line.content) = some inner ∧ HitBelow base rest inner) ∨
        Fatal scope line) ∨ Hit scope base rest := by
  constructor
  · rintro ⟨s, l, within, fatal⟩
    cases within with
    | here => exact .inl (.inr fatal)
    | inside _ _ head first within => exact .inl (.inl ⟨_, head, _, first, s, l, within, fatal⟩)
    | later within => exact .inr ⟨s, l, within, fatal⟩
  · rintro ((⟨inner, head, deeper, first, s, l, within, fatal⟩ | fatal) | ⟨s, l, within, fatal⟩)
    · exact ⟨s, l, .inside code hb head first within, fatal⟩
    · exact ⟨scope, line, .here code hb, fatal⟩
    · exact ⟨s, l, .later within, fatal⟩

/-- A decorator is neither a header nor an annotation. -/
theorem hit_cons_of_decorator {rest : List LogicalLine}
    (h : (maskIndent line.content).head? = some '@') :
    Hit scope base (line :: rest) ↔ Hit scope base rest := by
  constructor
  · rintro ⟨s, l, within, fatal⟩
    cases within with
    | here => exact absurd h fatal.1.head?_ne
    | inside _ _ head => exact absurd h (twoWords_of_heads (by simp [head])).head?_ne
    | later within => exact ⟨s, l, within, fatal⟩
  · rintro ⟨s, l, within, fatal⟩
    exact ⟨s, l, .later within, fatal⟩

theorem base_lt_of_baseIndent? {following : List LogicalLine} {deeper : Nat}
    (h : baseIndent? (blockOf base following) = some deeper) : base < deeper := by
  obtain ⟨l, hl, rfl⟩ := Option.map_eq_some_iff.mp h
  have on := goesOn_of_mem_blockOf (List.mem_of_find?_eq_some hl)
  have code : l.isCode = true := List.find?_some hl
  have kind : l.kind = .code := by simpa [LogicalLine.isCode] using code
  simpa [goesOn, kind] using on

theorem not_statement_of_goesOn (h : goesOn base line = true) :
    line.isCode = false ∨ line.indent ≠ base := by
  simp only [goesOn, Bool.or_eq_true, beq_iff_eq, decide_eq_true_eq] at h
  rcases h with blank | deeper
  · exact .inl (by simp [LogicalLine.isCode, blank])
  · exact .inr (by omega)

theorem exists_slice_definition {decorators rest : List LogicalLine}
    (lie : ∀ l ∈ decorators ++ line :: rest, LiesIn source l)
    (order : (decorators ++ line :: rest).Pairwise fun a b => a.stop ≤ b.start) :
    ∃ t, Text.slice? source (decorators.head?.getD line).contentStart
      ((blockOf base rest).getLast?.getD line).stop = some t := by
  obtain ⟨-, after, before⟩ := List.pairwise_append.mp order
  obtain ⟨below, -⟩ := List.pairwise_cons.mp after
  have inBlock {l : LogicalLine} (h : (blockOf base rest).getLast? = some l) : l ∈ rest :=
    (List.takeWhile_subset _) (List.mem_of_getLast? h)
  cases hd : decorators.head? with
  | none =>
    cases hb : (blockOf base rest).getLast? with
    | none => exact exists_slice_lines (lie line (by simp)) (lie line (by simp)) (.inl rfl)
    | some last =>
      exact exists_slice_lines (lie line (by simp)) (lie last (by simp [inBlock hb]))
        (.inr (below last (inBlock hb)))
  | some first =>
    have mem : first ∈ decorators := List.mem_of_head? hd
    cases hb : (blockOf base rest).getLast? with
    | none =>
      exact exists_slice_lines (lie first (by simp [mem])) (lie line (by simp))
        (.inr (before first mem line (by simp)))
    | some last =>
      exact exists_slice_lines (lie first (by simp [mem])) (lie last (by simp [inBlock hb]))
        (.inr (before first mem last (by simp [inBlock hb])))

/-- A statement and those that follow: a definition and the lines behind its block, or a simple
statement and the lines behind it. -/
theorem statement_settles (hcx : cx.Reads source) (hl : LiesIn source line) {bad below : Prop}
    {attempt : Attempt Node} {next next' : Build (List Node)}
    (defined : Attempt.Settles source below attempt fun _ => heads (maskIndent line.content) ≠ none)
    (hn : Build.Settles source bad next fun _ => True)
    (hn' : Build.Settles source bad next' fun _ => True) :
    Build.Settles source ((below ∨ Fatal scope line) ∨ bad) (do
      match ← attempt.run with
      | some node => return node :: (← next)
      | none =>
        let nodes ← simpleStatement cx scope line
        return nodes ++ (← next')) fun _ => True := by
  rw [or_assoc]
  refine Build.Settles.bind defined fun r hr => ?_
  cases r with
  | some node =>
    have harmless : ¬Fatal scope line := fun fatal => hr node rfl fatal.1.heads_eq_none
    exact (Build.Settles.bind_safe hn fun _ _ => Build.Safe.pure trivial).congr (by simp [harmless])
  | none =>
    refine Build.Settles.bind (simpleStatement_settles hcx hl scope) fun nodes _ => ?_
    exact Build.Settles.bind_safe hn' fun _ _ => Build.Safe.pure trivial

theorem take_blockOf (base : Nat) (rest outside : List LogicalLine) :
    (rest ++ outside).take (blockOf base rest).length = blockOf base rest := by
  have split : blockOf base rest ++ rest.dropWhile (goesOn base) = rest :=
    List.takeWhile_append_dropWhile
  rw [← split, List.append_assoc, split]
  exact List.take_left

/-- What is built of a line that is not skipped and of those behind it, given what is built of those
behind it and of its block. -/
theorem statements_step (hcx : cx.Reads source) {decorators rest outside : List LogicalLine}
    (lie : ∀ l ∈ decorators ++ line :: rest, LiesIn source l)
    (order : (decorators ++ line :: rest).Pairwise fun a b => a.stop ≤ b.start)
    (ends : Ends base outside)
    (later : ∀ decorators' skip, (decorators' ++ rest).Sublist (decorators ++ line :: rest) →
      (∀ l ∈ rest.take skip, goesOn base l = true) → Build.Settles source (Hit scope base rest)
        (statements cx scope base decorators' skip rest.length (rest ++ outside)) fun _ => True)
    (below : ∀ inner deeper, baseIndent? (blockOf base rest) = some deeper →
      Build.Settles source (Hit inner deeper (blockOf base rest))
        (statements cx inner deeper [] 0 (blockOf base rest).length (rest ++ outside))
        fun _ => True) :
    Build.Settles source (Hit scope base (line :: rest))
      (statements cx scope base decorators 0 (rest.length + 1) (line :: (rest ++ outside)))
      fun _ => True := by
  have lieLine : LiesIn source line := lie line (by simp)
  have clear : ([] ++ rest).Sublist (decorators ++ line :: rest) :=
    (List.sublist_cons_self line rest).trans (List.sublist_append_right _ _)
  have next := later [] 0 clear (by simp)
  rw [statements]
  by_cases code : line.isCode = true
  · rw [code, Bool.not_true, if_neg Bool.false_ne_true]
    by_cases hb : line.indent = base
    · rw [bne_eq_false_iff_eq.mpr hb, if_neg Bool.false_ne_true]
      refine Build.Safe.bind (code_safe hcx lieLine) fun text htext => ?_
      subst htext
      split
      next decorator =>
        have head : (maskIndent line.content).head? = some '@' := by simpa using decorator
        exact (later (decorators ++ [line]) 0 (by simp) (by simp)).congr
          (hit_cons_of_decorator head).symm
      next =>
        rw [hb, blockLength_append ends]
        dsimp only
        rw [take_blockOf]
        refine Build.Settles.congr ?_ (hit_cons code hb).symm
        refine statement_settles hcx lieLine (definition_settles hcx scope lieLine
          (fun d hd => lie d (by simp [hd])) (exists_slice_definition lie order) fun inner => ?_)
          (later [] _ clear fun l hl => ?_) next
        · cases hi : baseIndent? (blockOf base rest) with
          | none => exact (Build.Safe.pure trivial).congr (by simp [HitBelow, hi])
          | some deeper => exact (below inner deeper hi).congr (by simp [HitBelow, hi])
        · have whole := take_blockOf base rest []
          rw [List.append_nil] at whole
          rw [whole] at hl
          exact goesOn_of_mem_blockOf hl
    · rw [bne_iff_ne.mpr hb, if_pos rfl]
      refine Build.Settles.congr ?_ (hit_cons_of_not (.inr hb)).symm
      split
      next =>
        refine Build.Safe.bind (importNode_safe hcx lieLine) fun found _ => ?_
        exact Build.Settles.bind_safe next fun _ _ => Build.Safe.pure trivial
      next =>
        rw [pure_bind]
        exact Build.Settles.bind_safe next fun _ _ => Build.Safe.pure trivial
  · have blank : line.isCode = false := Bool.eq_false_iff.mpr code
    rw [blank, Bool.not_false, if_pos rfl]
    exact (later decorators 0 ((List.Sublist.refl _).append (List.sublist_cons_self line rest))
      (by simp)).congr (hit_cons_of_not (.inl blank)).symm

/-- The statements of a block fail exactly if the block is hit. The lines to be skipped are not
statements of the block, so it does not matter that they are skipped. -/
theorem statements_settles (hcx : cx.Reads source) (scope : Scope) (base skip : Nat)
    (decorators block outside : List LogicalLine)
    (lie : ∀ l ∈ decorators ++ block, LiesIn source l)
    (order : (decorators ++ block).Pairwise fun a b => a.stop ≤ b.start)
    (ends : Ends base outside) (skipped : ∀ l ∈ block.take skip, goesOn base l = true) :
    Build.Settles source (Hit scope base block)
      (statements cx scope base decorators skip block.length (block ++ outside)) fun _ => True := by
  generalize hn : block.length = n
  induction n using Nat.strongRecOn generalizing scope base skip decorators block outside with
  | ind n ih =>
    cases block with
    | nil =>
      obtain rfl : n = 0 := hn.symm
      have nothing : statements cx scope base decorators skip 0 ([] ++ outside) = pure [] := by
        cases outside with
        | nil => rfl
        | cons l outside => simp [statements]
      rw [nothing]
      exact (Build.Safe.pure trivial).congr ⟨False.elim, hit_nil⟩
    | cons line rest =>
      obtain rfl : n = rest.length + 1 := by simpa using hn.symm
      have later (decorators' : List LogicalLine) (skip' : Nat)
          (sub : (decorators' ++ rest).Sublist (decorators ++ line :: rest))
          (skipped' : ∀ l ∈ rest.take skip', goesOn base l = true) :
          Build.Settles source (Hit scope base rest)
            (statements cx scope base decorators' skip' rest.length (rest ++ outside))
            fun _ => True :=
        ih rest.length (by omega) scope base skip' decorators' rest outside
          (fun l hl => lie l (sub.subset hl)) (order.sublist sub) ends skipped' rfl
      cases skip with
      | succ skip =>
        have on : goesOn base line = true := skipped line (by simp)
        exact (later decorators skip ((List.Sublist.refl _).append (List.sublist_cons_self line rest))
          fun l hl => skipped l (by simp [hl])).congr
          (hit_cons_of_not (not_statement_of_goesOn on)).symm
      | zero =>
        refine statements_step hcx lie order ends later fun inner deeper hi => ?_
        have split : rest ++ outside =
            blockOf base rest ++ (rest.dropWhile (goesOn base) ++ outside) := by
          rw [← List.append_assoc, blockOf, List.takeWhile_append_dropWhile]
        have sub : (blockOf base rest).Sublist (decorators ++ line :: rest) :=
          ((List.takeWhile_sublist _).cons line).trans (List.sublist_append_right _ _)
        have short : (blockOf base rest).length ≤ rest.length := (List.takeWhile_sublist _).length_le
        rw [split]
        exact ih _ (by omega) inner deeper 0 [] (blockOf base rest) _ (fun l hl => lie l (sub.subset hl))
          (order.sublist sub) (ends_behind (Nat.le_of_lt (base_lt_of_baseIndent? hi)) ends) (by simp)
          rfl

theorem exists_publicNames? {lines : List LogicalLine} (lie : ∀ l ∈ lines, LiesIn source l) :
    ∃ names, Context.publicNames? ⟨source, maskIndent source⟩ lines = some names := by
  induction lines with
  | nil => exact ⟨none, rfl⟩
  | cons line lines ih =>
    have hl := lie line (by simp)
    have assigns : ∃ b, Context.assignsPublicNames? ⟨source, maskIndent source⟩ line = some b := by
      rw [Context.assignsPublicNames?]
      split
      next =>
        have code : Context.code? ⟨source, maskIndent source⟩ line = some (maskIndent line.content) :=
          hl.slice_mask
        exact ⟨_, by rw [code]; rfl⟩
      next => exact ⟨false, rfl⟩
    obtain ⟨b, hb⟩ := assigns
    rw [Context.publicNames?, hb]
    cases b with
    | true =>
      have content : Scan.MaskedSource.text? ⟨source, maskIndent source⟩ line.contentStart line.stop =
          some line.content := hl.slice_content
      exact ⟨some (listedStrings (assignedValue line.content)), by simp [content]⟩
    | false => exact ih fun l h => lie l (by simp [h])

theorem exists_ofSource? (source : Text) :
    ∃ cx, Context.ofSource? source (Scan.logicalLines source) = some cx ∧ cx.Reads source := by
  obtain ⟨names, hn⟩ := exists_publicNames? fun _ (h : _ ∈ Scan.logicalLines source) =>
    Scan.logicalLines_lie h
  exact ⟨⟨⟨source, maskIndent source⟩, names⟩, by simp [Context.ofSource?, hn], rfl⟩

theorem tree_settles (source : Text) : Build.Settles source
    (∃ base, baseIndent? (Scan.logicalLines source) = some base ∧
      Hit .moduleBody base (Scan.logicalLines source)) (tree source) fun _ => True := by
  obtain ⟨cx, made, hcx⟩ := exists_ofSource? source
  refine Build.Safe.bind (Build.Safe.need ⟨cx, made, rfl⟩) fun cx' (same : cx = cx') => ?_
  subst same
  have root (children : List Node) : Build.Safe source (Build.root .program children) fun _ => True :=
    Build.Safe.root.mono fun _ _ => trivial
  cases hb : baseIndent? (Scan.logicalLines source) with
  | none => exact (root []).congr (by simp)
  | some base =>
    have all := statements_settles hcx .moduleBody base 0 [] (Scan.logicalLines source) []
      (fun _ h => Scan.logicalLines_lie h) (Scan.logicalLines_pairwise source) rfl (by simp)
    rw [List.append_nil] at all
    exact (Build.Settles.bind_safe all fun children _ => root children).congr (by simp)

/-- A source cannot be read exactly if a statement of the module, or of a class in it, is a stranded
annotation. -/
theorem parse?_eq_none_iff_stranded (source : Text) (path : String) :
    parse? source path = none ↔ ∃ base scope line,
      baseIndent? (Scan.logicalLines source) = some base ∧
        Within .moduleBody base (Scan.logicalLines source) scope line ∧ Fatal scope line := by
  rw [parse?, Build.file?_eq_none_iff (tree_settles source)]
  constructor
  · rintro ⟨base, hb, scope, line, within, fatal⟩
    exact ⟨base, scope, line, hb, within, fatal⟩
  · rintro ⟨base, scope, line, hb, within, fatal⟩
    exact ⟨base, hb, scope, line, within, fatal⟩

theorem parse?_comment_for_type : parse? "x: # é".toList "a.py" = none := by decide

end SourceTree.Python
