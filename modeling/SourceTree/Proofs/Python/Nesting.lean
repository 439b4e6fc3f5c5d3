import SourceTree.Proofs.Python.Layout
import SourceTree.Proofs.Python.Tree

/-!
The nodes of a Python source are nested as its lines are indented. The block of a line ends by
itself where the block around it ends, since every line in the block around it that is not blank is
indented further than the header of that block.
-/

namespace SourceTree.Python

open Scan (LogicalLine LiesIn blockLast maskIndent)

variable {source : Text} {cx : Context} {scope : Scope} {base first i : Nat} {line : LogicalLine}
  {lines : List LogicalLine}

/-! ### Statements -/

theorem Fits.stands {kind : NodeKind} {start stop : Nat} {d : Draft} (h : Fits line start stop d)
    (plain : kind ∉ definitionKinds) :
    Build.Grows source i (Build.span kind start stop d) fun _ n => Stands line n ∧ n.kind = kind := by
  refine (Build.Grows.covers kind start stop d).mono ?_
  rintro j n - ⟨rfl, hs, ht, id, hchildren⟩
  rw [h.leaf] at hchildren
  exact ⟨⟨plain, hchildren, hs.trans h.start_eq, ht ▸ h.stop_le⟩, rfl⟩

/-- A statement that stands on a line, and no decorator. -/
def Member (line : LogicalLine) (n : Node) : Prop := Stands line n ∧ n.kind ≠ .decorator

theorem Fits.member {kind : NodeKind} {start stop : Nat} {d : Draft} (h : Fits line start stop d)
    (hk : kind ∈ statementKinds) :
    Attempt.Grows source i (Attempt.span kind start stop d) fun _ => Member line := by
  have plain : ∀ kind ∈ statementKinds, kind ∉ definitionKinds ∧ kind ≠ .decorator := by decide
  refine Attempt.Grows.lift ((h.stands (plain kind hk).1).mono ?_)
  rintro _ n - ⟨stands, rfl⟩
  exact ⟨stands, (plain n.kind hk).2⟩

/-- Nodes that are no decorators, on these lines. -/
def Members (lines : List LogicalLine) (first last : Nat) (ns : List Node) : Prop :=
  Laid lines first last ns ∧ ∀ n ∈ ns, n.kind ≠ .decorator

theorem Members.nil {last : Nat} (le : first ≤ last) : Members lines first last [] :=
  ⟨.nil le, by simp⟩

/-- What is found on a line, and what stands behind it. -/
theorem Members.found {last k : Nat} {r : Option Node} {ns : List Node} (le : first ≤ k)
    (here : lines[k]? = some line) (hr : ∀ n, r = some n → Member line n)
    (h : Members lines (k + 1) last ns) : Members lines first last (r.toList ++ ns) := by
  cases r with
  | none => exact ⟨h.1.since (by omega), h.2⟩
  | some n =>
    obtain ⟨stands, plain⟩ := hr n rfl
    exact ⟨.statement le here stands h.1, List.forall_mem_cons.mpr ⟨plain, h.2⟩⟩

/-! ### Definitions -/

/-- Lines picked in their order from `first` on and before `last`. -/
inductive Picked (lines : List LogicalLine) : Nat → Nat → List LogicalLine → Prop where
  | nil {first last : Nat} : first ≤ last → Picked lines first last []
  | cons {first last k : Nat} {line : LogicalLine} {ls : List LogicalLine} : first ≤ k →
      lines[k]? = some line → Picked lines (k + 1) last ls → Picked lines first last (line :: ls)

namespace Picked

variable {last : Nat} {ls : List LogicalLine}

theorem le (h : Picked lines first last ls) : first ≤ last := by
  induction h with
  | nil le => exact le
  | cons le _ _ ih => omega

theorem upTo {last' : Nat} (h : Picked lines first last ls) (le : last ≤ last') :
    Picked lines first last' ls := by
  induction h with
  | nil le' => exact .nil (by omega)
  | cons le' found _ ih => exact .cons le' found (ih le)

theorem snoc (h : Picked lines first last ls) (found : lines[last]? = some line) :
    Picked lines first (last + 1) (ls ++ [line]) := by
  induction h with
  | nil le => exact .cons le found (.nil (Nat.le_refl _))
  | cons le here _ ih => exact .cons le here (ih found)

/-- The first of the picked lines, or the line behind them. -/
theorem exists_top (h : Picked lines first last ls) (behind : lines[last]? = some line) :
    ∃ top, first ≤ top ∧ lines[top]? = some (ls.head?.getD line) ∧ Picked lines top last ls := by
  cases h with
  | nil le => exact ⟨last, le, behind, .nil (Nat.le_refl _)⟩
  | @cons _ _ k _ _ le found rest => exact ⟨k, le, found, .cons (Nat.le_refl k) found rest⟩

end Picked

theorem decorators_laid {header : Nat} {decorators : List LogicalLine}
    (picked : Picked lines first header decorators) :
    Attempt.Grows source i (decorators.mapM fun d => (decoratorNode cx d : Attempt Node))
      fun _ ns => Laid lines first header ns ∧ ∀ n ∈ ns, n.kind = .decorator := by
  induction picked generalizing i with
  | nil le =>
    rw [List.mapM_nil]
    exact Attempt.Grows.pure ⟨.nil le, by simp⟩
  | @cons first header k line ls le found picked ih =>
    rw [List.mapM_cons]
    refine Attempt.Grows.bind (Attempt.Grows.lift (decoratorNode_made fun fits =>
      fits.stands (by decide))) ?_
    rintro j n - ⟨stands, kind⟩
    refine Attempt.Grows.bind ih ?_
    rintro j ns - ⟨laid, kinds⟩
    exact Attempt.Grows.pure ⟨.statement le found stands laid, List.forall_mem_cons.mpr ⟨kind, kinds⟩⟩

/-- The node is a definition on these lines, with all that is in it. -/
def Definition (lines : List LogicalLine) (first header : Nat) (n : Node) : Prop :=
  ∃ top decorators members, first ≤ top ∧ Defines lines top header decorators members n ∧
    Laid lines top header decorators ∧
    Laid lines (header + 1) (blockLast lines header + 1) members

theorem definition_laid (hcx : cx.Reads source) (hl : LiesIn source line) {header : Nat}
    {decorators : List LogicalLine} {stop : LogicalLine} {body : Scope → Build (List Node)}
    (here : lines[header]? = some line) (picked : Picked lines first header decorators)
    (hstop : lines[blockLast lines header]? = some stop)
    (hbody : ∀ inner k, Build.Grows source k (body inner) fun _ ms =>
      Members lines (header + 1) (blockLast lines header + 1) ms) :
    Attempt.Grows source i (definition cx scope decorators line stop.stop body) fun _ n =>
      Definition lines first header n := by
  obtain ⟨top, le, found, picked⟩ := picked.exists_top here
  have mask : Context.code? cx.text line = some (maskIndent line.content) := by
    rw [Context.code?, hcx]
    exact hl.slice_mask
  refine definition_made (decorators_laid picked)
    (fun {inner j ds} above => (hbody inner j).mono fun _ _ _ below => And.intro above below) ?_
  rintro k kind d ds ms code ⟨⟨above, decorated⟩, below, plain⟩ hcode head hk children - -
  obtain rfl : code = maskIndent line.content := Option.some.inj (hcode.symm.trans mask)
  refine Attempt.Grows.lift ((Build.Grows.covers kind _ _ d).mono ?_)
  rintro _ n - ⟨rfl, start, last, id, adopted⟩
  rw [children, List.map_append] at adopted
  refine ⟨top, _, _, le, ⟨hk, picked.le, ⟨line, here, head⟩, ⟨_, found, start⟩, ⟨stop, hstop, last⟩,
    adopted, ?_, ?_⟩, above.adopted id, below.adopted id⟩
  · exact List.forall_mem_map.mpr decorated
  · exact List.forall_mem_map.mpr plain

theorem Members.cons {last header : Nat} {n : Node} {ns : List Node}
    (h : Definition lines first header n) (lt : blockLast lines header < last)
    (later : Members lines (blockLast lines header + 1) last ns) :
    Members lines first last (n :: ns) := by
  obtain ⟨top, decorators, members, le, defines, above, below⟩ := h
  refine ⟨.definition le lt defines above below later.1, List.forall_mem_cons.mpr ⟨?_, later.2⟩⟩
  intro decorator
  have kind := defines.kind
  rw [decorator] at kind
  exact absurd kind (by decide)

/-- A statement and those that follow: a definition and the lines behind its block, or a simple
statement and the lines behind it. -/
theorem statement_laid {attempt : Attempt Node} {next next' : Build (List Node)} {last header : Nat}
    (le : first ≤ header) (here : lines[header]? = some line) (lt : blockLast lines header < last)
    (defined : Attempt.Grows source i attempt fun _ n => Definition lines first header n)
    (hn : ∀ k, Build.Grows source k next fun _ => Members lines (blockLast lines header + 1) last)
    (hn' : ∀ k, Build.Grows source k next' fun _ => Members lines (header + 1) last) :
    Build.Grows source i (do
      match ← attempt.run with
      | some node => return node :: (← next)
      | none =>
        let nodes ← simpleStatement cx scope line
        return nodes ++ (← next')) fun _ => Members lines first last := by
  refine Build.Grows.bind defined fun j r _ hr => ?_
  cases r with
  | some node =>
    refine Build.Grows.bind (hn j) fun k ns _ later => ?_
    exact Build.Grows.pure (.cons (hr node rfl) lt later)
  | none =>
    refine Build.Grows.bind (simpleStatement_made fun _ hk fits _ => fits.member hk) ?_
    rintro k nodes - ⟨found, rfl, member⟩
    refine Build.Grows.bind (hn' k) fun l ns _ later => ?_
    exact Build.Grows.pure (later.found le here member)

/-! ### Blocks -/

section

variable (pre rest : List LogicalLine) {outside : List LogicalLine}

/-- A block ends inside the block around it, even if the lines behind that are read too. -/
theorem blockLast_append (ends : Ends line.indent outside) :
    blockLast (pre ++ line :: (rest ++ outside)) pre.length =
      pre.length + (blockOf line.indent rest).length := by
  have here : (pre ++ line :: (rest ++ outside))[pre.length]? = some line := by simp
  have behind : (pre ++ line :: (rest ++ outside)).drop (pre.length + 1) = rest ++ outside := by
    simp [List.drop_append]
  rw [blockLast, here]
  dsimp only
  rw [behind, blockLength_append ends]

/-- The last line of the block, which is the header if the block is empty. -/
theorem getElem?_blockLast (ends : Ends line.indent outside) :
    (pre ++ line :: (rest ++ outside))[blockLast (pre ++ line :: (rest ++ outside)) pre.length]? =
      some ((blockOf line.indent rest).getLast?.getD line) := by
  rw [blockLast_append pre rest ends, List.getElem?_append_right (Nat.le_add_right _ _),
    Nat.add_sub_cancel_left]
  have split : line :: (rest ++ outside) = (line :: blockOf line.indent rest) ++
      (rest.dropWhile (goesOn line.indent) ++ outside) := by
    rw [List.cons_append, ← List.append_assoc, blockOf, List.takeWhile_append_dropWhile]
  have final : (line :: blockOf line.indent rest)[(blockOf line.indent rest).length]? =
      (line :: blockOf line.indent rest).getLast? := by
    rw [List.getLast?_eq_getElem?, List.length_cons, Nat.add_sub_cancel]
  rw [split, List.getElem?_append_left (by simp), final, List.getLast?_cons]

end

theorem split_getElem? {k : Nat} (found : lines[k]? = some line) :
    ∃ pre post, lines = pre ++ line :: post ∧ pre.length = k := by
  obtain ⟨lt, rfl⟩ := List.getElem?_eq_some_iff.mp found
  refine ⟨lines.take k, lines.drop (k + 1), ?_, List.length_take_of_le (Nat.le_of_lt lt)⟩
  rw [← List.drop_eq_getElem_cons lt, List.take_append_drop]

/-- The block of a line that stands in another block and is not blank ends by the end of that
block. -/
theorem blockLast_le_blockLast {outer inner : Nat} (lt : outer < inner)
    (le : inner ≤ blockLast lines outer) (found : lines[inner]? = some line)
    (full : line.kind ≠ .blank) : blockLast lines inner ≤ blockLast lines outer := by
  cases hh : lines[outer]? with
  | none =>
    have alone : blockLast lines outer = outer := by rw [blockLast, hh]
    omega
  | some head =>
    obtain ⟨pre, post, rfl, rfl⟩ := split_getElem? hh
    have nothing : Ends head.indent [] := rfl
    have last := blockLast_append pre post nothing
    rw [List.append_nil] at last
    have split : blockOf head.indent post ++ post.dropWhile (goesOn head.indent) = post :=
      List.takeWhile_append_dropWhile
    have inside : (blockOf head.indent post)[inner - pre.length - 1]? = some line := by
      have index : inner = pre.length + (inner - pre.length - 1 + 1) := by omega
      rw [index, List.getElem?_append_right (Nat.le_add_right _ _), Nat.add_sub_cancel_left,
        List.getElem?_cons_succ, ← split, List.getElem?_append_left (by omega)] at found
      exact found
    have deeper : head.indent < line.indent := by
      have on := goesOn_of_mem_blockOf (List.mem_of_getElem? inside)
      simpa [goesOn, full] using on
    obtain ⟨above, below, hblock, size⟩ := split_getElem? inside
    -- The lines of the outer block behind the inner header, and then those behind the outer block.
    have whole : pre ++ head :: post =
        (pre ++ head :: above) ++ line :: (below ++ post.dropWhile (goesOn head.indent)) := by
      rw [hblock] at split
      simpa using split.symm
    have ends : Ends line.indent (post.dropWhile (goesOn head.indent)) := by
      rw [← List.append_nil (post.dropWhile _)]
      exact ends_behind (Nat.le_of_lt deeper) nothing
    have place : (pre ++ head :: above).length = inner := by
      rw [List.length_append, List.length_cons]
      omega
    have innerLast := blockLast_append (pre ++ head :: above) below ends
    rw [← whole, place] at innerLast
    have length : (blockOf head.indent post).length = above.length + (below.length + 1) := by
      rw [hblock, List.length_append, List.length_cons]
    have short : (blockOf line.indent below).length ≤ below.length :=
      (List.takeWhile_sublist _).length_le
    omega

/-- What is built of a line that is not skipped and of those behind it, given what is built of those
behind it and of its block. -/
theorem statements_step_laid (hcx : cx.Reads source) {pre rest outside decorators : List LogicalLine}
    (whole : lines = pre ++ line :: (rest ++ outside)) (hl : LiesIn source line)
    (ends : Ends base outside) (picked : Picked lines first pre.length decorators)
    (later : ∀ decorators' skip first' k, skip ≤ rest.length →
      Picked lines first' (pre.length + 1 + skip) decorators' → Build.Grows source k
        (statements cx scope base decorators' skip rest.length (rest ++ outside))
        fun _ => Members lines first' (pre.length + 1 + rest.length))
    (below : ∀ inner deeper k, baseIndent? (blockOf base rest) = some deeper → Build.Grows source k
      (statements cx inner deeper [] 0 (blockOf base rest).length (rest ++ outside))
      fun _ => Members lines (pre.length + 1) (pre.length + 1 + (blockOf base rest).length)) :
    Build.Grows source i
      (statements cx scope base decorators 0 (rest.length + 1) (line :: (rest ++ outside)))
      fun _ => Members lines first (pre.length + 1 + rest.length) := by
  have here : lines[pre.length]? = some line := by simp [whole]
  have le := picked.le
  have next (k : Nat) := later [] 0 (pre.length + 1) k (Nat.zero_le _) (.nil (Nat.le_refl _))
  rw [statements]
  by_cases code : line.isCode = true
  · rw [code, Bool.not_true, if_neg Bool.false_ne_true]
    by_cases hb : line.indent = base
    · rw [bne_eq_false_iff_eq.mpr hb, if_neg Bool.false_ne_true]
      refine Build.Grows.after (Build.Keeps.need _) fun text _ => ?_
      split
      next => exact later (decorators ++ [line]) 0 first i (Nat.zero_le _) (picked.snoc here)
      next =>
        subst hb
        rw [blockLength_append ends]
        dsimp only
        rw [take_blockOf]
        have short : (blockOf line.indent rest).length ≤ rest.length :=
          (List.takeWhile_sublist _).length_le
        have last := blockLast_append pre rest ends
        have stop := getElem?_blockLast pre rest ends
        rw [← whole] at last stop
        -- The lines that are skipped next are those of the block, so what follows stands behind it.
        have behind : pre.length + 1 + (blockOf line.indent rest).length =
            blockLast lines pre.length + 1 := by omega
        refine statement_laid le here (by omega) (definition_laid hcx hl here picked stop ?_) ?_ next
        · intro inner k
          rw [← behind]
          cases hi : baseIndent? (blockOf line.indent rest) with
          | none => exact Build.Grows.pure (.nil (Nat.le_add_right _ _))
          | some deeper => exact below inner deeper k hi
        · intro k
          rw [← behind]
          exact later [] _ _ k short (.nil (Nat.le_refl _))
    · rw [bne_iff_ne.mpr hb, if_pos rfl]
      split
      next =>
        refine Build.Grows.bind (importNode_made fun hk fits _ => fits.member hk) fun j r _ hr => ?_
        refine Build.Grows.bind (next j) fun k ns _ members => ?_
        exact Build.Grows.pure (members.found le here hr)
      next =>
        rw [pure_bind]
        refine Build.Grows.bind (next i) fun k ns _ members => ?_
        exact Build.Grows.pure ⟨members.1.since (by omega), members.2⟩
  · have blank : line.isCode = false := Bool.eq_false_iff.mpr code
    rw [blank, Bool.not_false, if_pos rfl]
    exact later decorators 0 first i (Nat.zero_le _) (picked.upTo (Nat.le_succ _))

/-- The statements of a block stand on its lines, although those behind the block are given too. -/
theorem statements_laid (hcx : cx.Reads source) (lie : ∀ l ∈ lines, LiesIn source l) (scope : Scope)
    (base skip first i : Nat) (pre block outside decorators : List LogicalLine)
    (whole : lines = pre ++ (block ++ outside)) (ends : Ends base outside)
    (le : skip ≤ block.length) (picked : Picked lines first (pre.length + skip) decorators) :
    Build.Grows source i (statements cx scope base decorators skip block.length (block ++ outside))
      fun _ => Members lines first (pre.length + block.length) := by
  -- The block shrinks by its first line for what follows, and to a part of itself for a body; in
  -- both cases the lines left over join those in front or those outside.
  generalize hn : block.length = n
  induction n using Nat.strongRecOn
    generalizing scope base skip first i pre block outside decorators with
  | ind n ih =>
    cases block with
    | nil =>
      obtain rfl : n = 0 := hn.symm
      have nothing : statements cx scope base decorators skip 0 ([] ++ outside) = pure [] := by
        cases outside with
        | nil => rfl
        | cons l outside => simp [statements]
      rw [nothing]
      have bound := picked.le
      exact Build.Grows.pure (.nil (by simp at le; omega))
    | cons line rest =>
      obtain rfl : n = rest.length + 1 := by simpa using hn.symm
      have moved : lines = (pre ++ [line]) ++ (rest ++ outside) := by simp [whole]
      have size : (pre ++ [line]).length = pre.length + 1 := by simp
      have later (decorators' : List LogicalLine) (skip' first' k : Nat) (le' : skip' ≤ rest.length)
          (picked' : Picked lines first' (pre.length + 1 + skip') decorators') :
          Build.Grows source k
            (statements cx scope base decorators' skip' rest.length (rest ++ outside))
            fun _ => Members lines first' (pre.length + 1 + rest.length) := by
        rw [← size] at picked' ⊢
        exact ih rest.length (by omega) scope base skip' first' k (pre ++ [line]) rest outside
          decorators' moved ends le' picked' rfl
      have hend : pre.length + (rest.length + 1) = pre.length + 1 + rest.length := by omega
      rw [hend]
      cases skip with
      | succ skip =>
        refine later decorators skip first i (by simpa using le) ?_
        have same : pre.length + 1 + skip = pre.length + (skip + 1) := by omega
        rwa [same]
      | zero =>
        have hl : LiesIn source line := lie line (by simp [whole])
        refine statements_step_laid hcx whole hl ends picked later fun inner deeper k hi => ?_
        have split : rest ++ outside =
            blockOf base rest ++ (rest.dropWhile (goesOn base) ++ outside) := by
          rw [← List.append_assoc, blockOf, List.takeWhile_append_dropWhile]
        have short : (blockOf base rest).length ≤ rest.length := (List.takeWhile_sublist _).length_le
        have deep : Ends deeper (rest.dropWhile (goesOn base) ++ outside) :=
          ends_behind (Nat.le_of_lt (base_lt_of_baseIndent? hi)) ends
        rw [split] at moved ⊢
        rw [← size]
        exact ih _ (by omega) inner deeper 0 _ k (pre ++ [line]) (blockOf base rest) _ [] moved deep
          (Nat.zero_le _) (.nil (Nat.le_refl _)) rfl

theorem tree_laid (source : Text) :
    Build.Grows source 0 (tree source) fun _ root =>
      root.location.startIndex = 0 ∧ root.location.endIndex = Text.size source ∧
        Members (Scan.logicalLines source) 0 (Scan.logicalLines source).length root.children := by
  obtain ⟨cx, made, hcx⟩ := exists_ofSource? source
  have root {last : Nat} {children : List Node} (i : Nat)
      (h : Members (Scan.logicalLines source) 0 last children) :
      Build.Grows source i (Build.root .program children) fun _ root =>
        root.location.startIndex = 0 ∧ root.location.endIndex = Text.size source ∧
          Members (Scan.logicalLines source) 0 last root.children := by
    refine (Build.Grows.root_covers .program children).mono ?_
    rintro _ n - ⟨start, stop, id, adopted⟩
    rw [adopted]
    exact ⟨start, stop, h.1.adopted id, List.forall_mem_map.mpr h.2⟩
  refine Build.Grows.after (Build.Keeps.need _) fun cx' found => ?_
  obtain rfl : cx = cx' := Option.some.inj (made.symm.trans found)
  cases hb : baseIndent? (Scan.logicalLines source) with
  | none => exact root 0 (.nil (Nat.zero_le _))
  | some base =>
    have all := statements_laid hcx (fun _ h => Scan.logicalLines_lie h) .moduleBody base 0 0 0 []
      (Scan.logicalLines source) [] [] (by simp) rfl (Nat.zero_le _) (.nil (Nat.le_refl _))
    rw [List.append_nil, List.length_nil, Nat.zero_add] at all
    exact Build.Grows.bind all fun j children _ members => root j members

theorem Occupies.stop_le {last : Nat} {n : Node} (h : Occupies lines first last n)
    (lie : ∀ l ∈ lines, LiesIn source l) : n.location.endIndex ≤ Text.size source := by
  obtain ⟨-, j, -, b, -, -, -, -, hb, -, stop⟩ := h
  have slice := (lie b (List.mem_of_getElem? hb)).slice_content
  obtain ⟨-, -, boundary⟩ := Text.exists_slice?_iff.mp ⟨_, slice⟩
  exact Nat.le_trans stop boundary.le_size

theorem tree_orderly (source : Text) :
    Build.Grows source 0 (tree source) fun _ root => ∀ n ∈ root.nodes, Orderly n := by
  refine (tree_laid source).mono ?_
  rintro _ root - ⟨start, stop, laid, plain⟩ n hn
  have apart := Scan.logicalLines_apart source
  have listed : n ∈ root.postOrder := root.postOrder_perm_nodes.mem_iff.mpr hn
  rw [Node.postOrder_eq, List.mem_append, List.mem_singleton] at listed
  rcases listed with below | rfl
  · exact laid.orderly apart n below
  · refine ⟨fun c hc => ⟨?_, ?_⟩, laid.pairwise apart, [], n.children, rfl, by simp, plain⟩
    · rw [start]
      exact Nat.zero_le _
    · rw [stop]
      exact (laid.occupies c hc).stop_le fun _ h => Scan.logicalLines_lie h

/-- In a tree that was read from a source, the children of every node lie inside it and do not
touch, with its decorators in front of all others. The nodes stand on the lines of the source with
their blocks nested: what is in a definition stands in the block of its header, up to the end of its
own block, as the block of a line that is not blank never reaches past a block around it. -/
theorem parse?_nested {path : String} {file : ParsedFile} (parsed : parse? source path = some file) :
    (∀ n ∈ file.root.nodes, Orderly n) ∧
    Laid (Scan.logicalLines source) 0 (Scan.logicalLines source).length file.root.children ∧
    ∀ outer inner line, outer < inner → inner ≤ blockLast (Scan.logicalLines source) outer →
      (Scan.logicalLines source)[inner]? = some line → line.kind ≠ .blank →
      blockLast (Scan.logicalLines source) inner ≤ blockLast (Scan.logicalLines source) outer := by
  obtain ⟨-, -, -, -, laid, -⟩ := (tree_laid source).of_file? parsed
  obtain ⟨-, -, orderly⟩ := (tree_orderly source).of_file? parsed
  exact ⟨orderly, laid, fun _ _ _ lt le found full => blockLast_le_blockLast lt le found full⟩

/-- A class with a decorated method, whose block ends with that of the class, and a variable
behind both. -/
theorem parse?_nested_method : ∃ source file,
    source = "class A:\n @d\n def f(self):\n  pass\n\nx = 1".toList ∧
    parse? source "a.py" = some file ∧
    file.root.nodes.map (fun n => (n.kind, n.location.startIndex, n.location.endIndex)) =
      [(.program, 0, 40), (.classDecl, 0, 34), (.method, 10, 34), (.decorator, 10, 12),
        (.variableDecl, 35, 40)] ∧
    (∀ n ∈ file.root.nodes, Orderly n) ∧
    Laid (Scan.logicalLines source) 0 (Scan.logicalLines source).length file.root.children ∧
    blockLast (Scan.logicalLines source) 2 ≤ blockLast (Scan.logicalLines source) 0 := by
  have nodes : (parse? "class A:\n @d\n def f(self):\n  pass\n\nx = 1".toList "a.py").map
      (fun file => file.root.nodes.map
        fun n => (n.kind, n.location.startIndex, n.location.endIndex)) =
      some [(.program, 0, 40), (.classDecl, 0, 34), (.method, 10, 34), (.decorator, 10, 12),
        (.variableDecl, 35, 40)] := by decide +kernel
  obtain ⟨file, parsed, same⟩ := Option.map_eq_some_iff.mp nodes
  obtain ⟨orderly, laid, nested⟩ := parse?_nested parsed
  refine ⟨_, file, rfl, parsed, same, orderly, laid, ?_⟩
  exact nested 0 2 ⟨13, " def f(self):".toList⟩ (by decide) (by decide +kernel) (by decide +kernel)
    (by decide +kernel)

end SourceTree.Python
