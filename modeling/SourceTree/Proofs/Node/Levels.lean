import SourceTree.Proofs.Node.Nested
import SourceTree.Proofs.Sorting

/-!
The walk by levels. Its queue holds what is left of one level before what is due on the next one, and
read the other way round the queue lists where the walk in depth would go on. So both walks make the
same visits, and the walk by levels makes them in the order of a stable sort by depth. Main
statement: `walkLevels_eq_mergeSort_walk`.
-/

namespace SourceTree.Node

variable {skip : Node → Bool} {vs ws level next : List Visit} {v : Visit} {d : Nat}

/-! ### Trails -/

/-- A node of a tree and the nodes above it, the nearest first. -/
structure Trail where
  node : Node
  above : List Node

/-- What a walk reports of the node at the end of a trail. -/
def Trail.visit (t : Trail) : Visit := ⟨t.node, t.above.head?, t.above.length⟩

/-- No node above the last one is skipped. -/
def Trail.isOpen (skip : Node → Bool) (t : Trail) : Bool := t.above.all fun n => !skip n

mutual

/-- The trails through a tree below some nodes, each node before its children. -/
def trailsFrom (above : List Node) : Node → List Trail
  | n@⟨_, _, _, _, children, _, _, _⟩ => ⟨n, above⟩ :: trailsAll (n :: above) children

def trailsAll (above : List Node) : List Node → List Trail
  | [] => []
  | n :: ns => trailsFrom above n ++ trailsAll above ns

end

def trails (root : Node) : List Trail := trailsFrom [] root

theorem trailsFrom_eq (above : List Node) (n : Node) :
    trailsFrom above n = ⟨n, above⟩ :: trailsAll (n :: above) n.children := by
  cases n
  rw [trailsFrom]

theorem trailsAll_eq_flatMap (above ns : List Node) :
    trailsAll above ns = ns.flatMap (trailsFrom above) := by
  induction ns with
  | nil => rfl
  | cons n ns ih => rw [trailsAll, ih, List.flatMap_cons]

theorem suffix_of_mem_trailsFrom {n : Node} {above : List Node} {t : Trail}
    (h : t ∈ trailsFrom above n) : above <:+ t.above := by
  induction n using induct generalizing above with
  | step n ih =>
    rw [trailsFrom_eq, List.mem_cons, trailsAll_eq_flatMap, List.mem_flatMap] at h
    cases h with
    | inl here => simp [here]
    | inr below =>
      obtain ⟨c, hc, mem⟩ := below
      exact (List.suffix_cons n above).trans (ih c hc mem)

/-- A trail leads from a node to a child of it, or stands at the root. -/
inductive Leads (root : Node) : Trail → Prop where
  | root : Leads root ⟨root, []⟩
  | child {n c : Node} {above : List Node} : Leads root ⟨n, above⟩ → c ∈ n.children →
      Leads root ⟨c, n :: above⟩

theorem leads_of_mem_trailsFrom {root n : Node} {above : List Node} {t : Trail}
    (start : Leads root ⟨n, above⟩) (h : t ∈ trailsFrom above n) : Leads root t := by
  induction n using induct generalizing above with
  | step n ih =>
    rw [trailsFrom_eq, List.mem_cons, trailsAll_eq_flatMap, List.mem_flatMap] at h
    cases h with
    | inl here => exact here ▸ start
    | inr below =>
      obtain ⟨c, hc, mem⟩ := below
      exact ih c hc (start.child hc) mem

theorem mem_trailsFrom_child {n m c : Node} {above above' : List Node}
    (h : ⟨m, above'⟩ ∈ trailsFrom above n) (hc : c ∈ m.children) :
    ⟨c, m :: above'⟩ ∈ trailsFrom above n := by
  induction n using induct generalizing above with
  | step n ih =>
    rw [trailsFrom_eq, List.mem_cons, trailsAll_eq_flatMap, List.mem_flatMap] at h ⊢
    apply Or.inr
    cases h with
    | inl here =>
      cases here
      refine ⟨c, hc, ?_⟩
      rw [trailsFrom_eq]
      exact List.mem_cons_self
    | inr below =>
      obtain ⟨k, hk, mem⟩ := below
      exact ⟨k, hk, ih k hk mem⟩

/-- The trails of a tree are those that lead down from its root child by child. -/
theorem mem_trails_iff {root : Node} {t : Trail} : t ∈ root.trails ↔ Leads root t := by
  constructor
  · exact leads_of_mem_trailsFrom .root
  · intro h
    induction h with
    | root =>
      rw [trails, trailsFrom_eq]
      exact List.mem_cons_self
    | child _ hc ih => exact mem_trailsFrom_child ih hc

/-! ### The walk in depth -/

theorem walkFrom_eq (skip : Node → Bool) (parent : Option Node) (depth : Nat) (n : Node) :
    walkFrom skip parent depth n =
      ⟨n, parent, depth⟩ :: if skip n then [] else walkAll skip n (depth + 1) n.children := by
  cases n
  rw [walkFrom]

theorem walkAll_eq_flatMap (skip : Node → Bool) (parent : Node) (depth : Nat) (ns : List Node) :
    walkAll skip parent depth ns = ns.flatMap (walkFrom skip (some parent) depth) := by
  induction ns with
  | nil => rfl
  | cons n ns ih => rw [walkAll, ih, List.flatMap_cons]

theorem filter_trailsFrom {above : List Node} (clear : above.all (fun n => !skip n) = true)
    (n : Node) :
    ((trailsFrom above n).filter (Trail.isOpen skip)).map Trail.visit =
      walkFrom skip above.head? above.length n := by
  induction n using induct generalizing above with
  | step n ih =>
    have here : Trail.isOpen skip ⟨n, above⟩ = true := clear
    rw [trailsFrom_eq, walkFrom_eq, List.filter_cons_of_pos here, List.map_cons, Trail.visit]
    congr 1
    cases skips : skip n with
    | true =>
      have closed : (trailsAll (n :: above) n.children).filter (Trail.isOpen skip) = [] := by
        rw [List.filter_eq_nil_iff]
        intro t mem
        rw [trailsAll_eq_flatMap, List.mem_flatMap] at mem
        obtain ⟨c, -, mem⟩ := mem
        have above : n ∈ t.above := (suffix_of_mem_trailsFrom mem).mem List.mem_cons_self
        simp only [Trail.isOpen, List.all_eq_true]
        intro clear
        simpa [skips] using clear n above
      rw [closed]
      rfl
    | false =>
      have clear : (n :: above).all (fun n => !skip n) = true := by simpa [skips] using clear
      rw [trailsAll_eq_flatMap, List.filter_flatMap, List.map_flatMap, if_neg Bool.false_ne_true,
        walkAll_eq_flatMap]
      have each : ∀ c ∈ n.children, ((trailsFrom (n :: above) c).filter (Trail.isOpen skip)).map
          Trail.visit = walkFrom skip (some n) (above.length + 1) c := fun c hc => ih c hc clear
      rw [List.flatMap_def, List.flatMap_def, List.map_congr_left each]

/-- The walk in depth meets the nodes with no skipped node above them. -/
theorem walk_eq_filter_trails (skip : Node → Bool) (root : Node) :
    root.walk skip = (root.trails.filter (Trail.isOpen skip)).map Trail.visit :=
  (@filter_trailsFrom skip [] rfl root).symm

/-! ### The walk by levels -/

/-- What a visit makes due: its children on the next level, unless it is skipped. -/
def due (skip : Node → Bool) (v : Visit) : List Visit :=
  if skip v.node then [] else v.node.children.map fun child => ⟨child, some v.node, v.depth + 1⟩

/-- The walk in depth from each of some visits. -/
def plunge (skip : Node → Bool) (vs : List Visit) : List Visit :=
  vs.flatMap fun v => walkFrom skip v.parent v.depth v.node

/-- The number of nodes below and at some visits. -/
def load (vs : List Visit) : Nat := countAll (vs.map Visit.node)

theorem plunge_append (skip : Node → Bool) (vs ws : List Visit) :
    plunge skip (vs ++ ws) = plunge skip vs ++ plunge skip ws := List.flatMap_append

theorem load_cons (v : Visit) (vs : List Visit) : load (v :: vs) = v.node.count + load vs := by
  rw [load, List.map_cons, countAll]
  rfl

theorem load_append (vs ws : List Visit) : load (vs ++ ws) = load vs + load ws := by
  induction vs with
  | nil => exact (Nat.zero_add _).symm
  | cons v vs ih => rw [List.cons_append, load_cons, load_cons, ih, Nat.add_assoc]

/-- The walk in depth makes a visit and goes on with what the visit makes due. -/
theorem plunge_cons (skip : Node → Bool) (v : Visit) (vs : List Visit) :
    plunge skip (v :: vs) = v :: (plunge skip (due skip v) ++ plunge skip vs) := by
  have here : walkFrom skip v.parent v.depth v.node = v :: plunge skip (due skip v) := by
    rw [walkFrom_eq, due]
    cases skip v.node with
    | true => rfl
    | false => simp [walkAll_eq_flatMap, plunge, List.flatMap_map]
  rw [plunge, List.flatMap_cons, here]
  rfl

theorem load_due_lt (skip : Node → Bool) (v : Visit) : load (due skip v) < v.node.count := by
  have whole : v.node.count = 1 + countAll v.node.children := by
    cases v.node
    rw [count]
  have some : load (due skip v) ≤ countAll v.node.children := by
    rw [due]
    cases skip v.node with
    | true => exact Nat.zero_le _
    | false => simp [load, Function.comp_def]
  omega

theorem depth_of_mem_due (h : v ∈ due skip v') : v.depth = v'.depth + 1 := by
  unfold due at h
  split at h
  · simp at h
  · obtain ⟨c, -, rfl⟩ := List.mem_map.mp h
    rfl

/-- The walk in depth from some visits stays at their depths or below. -/
theorem le_depth_of_mem_walkFrom {parent : Option Node} {n : Node}
    (h : v ∈ walkFrom skip parent d n) : d ≤ v.depth := by
  induction n using induct generalizing parent d with
  | step n ih =>
    rw [walkFrom_eq, List.mem_cons] at h
    cases h with
    | inl here => rw [here]
    | inr below =>
      split at below
      · cases below
      · rw [walkAll_eq_flatMap, List.mem_flatMap] at below
        obtain ⟨c, hc, mem⟩ := below
        have deeper := ih c hc mem
        omega

theorem le_depth_of_mem_plunge (above : ∀ v ∈ vs, d ≤ v.depth) (h : v ∈ plunge skip vs) :
    d ≤ v.depth := by
  obtain ⟨start, mem, below⟩ := List.mem_flatMap.mp h
  have deeper := le_depth_of_mem_walkFrom below
  have deep := above start mem
  omega

/-- What is left of one level, and what is due on the next one. -/
structure TwoLevels (d : Nat) (level next : List Visit) : Prop where
  upper : ∀ v ∈ level, v.depth = d
  lower : ∀ v ∈ next, v.depth = d + 1

theorem TwoLevels.pop (two : TwoLevels d (v :: level) next) :
    TwoLevels d level (next ++ due skip v) := by
  constructor
  · exact fun w hw => two.upper w (List.mem_cons_of_mem v hw)
  · intro w hw
    cases List.mem_append.mp hw with
    | inl before => exact two.lower w before
    | inr behind => rw [depth_of_mem_due behind, two.upper v List.mem_cons_self]

/-- When a level is done, what is due on the next one is the level at hand. -/
theorem TwoLevels.turn (two : TwoLevels d level next) : TwoLevels (d + 1) next [] :=
  ⟨two.lower, by simp⟩

/-- The first visit of a level comes before the rest of the level and before the next level, which
gets what the visit makes due. -/
theorem stableSort_cons (two : TwoLevels d (v :: level) next)
    (rest : StableSort Visit.depth (plunge skip ((next ++ due skip v) ++ level)) vs) :
    StableSort Visit.depth (plunge skip (next ++ v :: level)) (v :: vs) := by
  have here : v.depth = d := two.upper v List.mem_cons_self
  have greater : ∀ w ∈ plunge skip next, v.depth < w.depth := by
    intro w mem
    have deep := le_depth_of_mem_plunge (fun w hw => (two.lower w hw).ge) mem
    omega
  have least : ∀ w ∈ plunge skip (due skip v ++ level), v.depth ≤ w.depth := by
    intro w mem
    refine le_depth_of_mem_plunge ?_ mem
    intro start hs
    cases List.mem_append.mp hs with
    | inl below =>
      have deep := depth_of_mem_due below
      omega
    | inr beside =>
      have level := two.upper start (List.mem_cons_of_mem v beside)
      omega
  rw [List.append_assoc, plunge_append] at rest
  rw [plunge_append, plunge_cons, ← plunge_append]
  exact rest.cons greater least

theorem walkLevelsFrom_cons (skip : Node → Bool) (fuel : Nat) (v : Visit) (queue : List Visit) :
    walkLevelsFrom skip (fuel + 1) (v :: queue) =
      v :: walkLevelsFrom skip fuel (queue ++ due skip v) := rfl

theorem load_eq_zero (h : load vs = 0) : vs = [] := by
  cases vs with
  | nil => rfl
  | cons v vs =>
    have some := load_due_lt (fun _ => false) v
    rw [load_cons] at h
    omega

/-- The walk by levels sorts the walk in depth that takes the next level first. The induction is on
the fuel, of which each visit takes one. -/
theorem walkLevelsFrom_stableSort (fuel : Nat) (two : TwoLevels d level next)
    (enough : load level + load next ≤ fuel) :
    StableSort Visit.depth (plunge skip (next ++ level))
      (walkLevelsFrom skip fuel (level ++ next)) := by
  induction fuel generalizing level next d with
  | zero =>
    have done : level = [] := load_eq_zero (by omega)
    have last : next = [] := load_eq_zero (by omega)
    rw [done, last]
    exact ⟨.nil, fun _ => rfl⟩
  | succ fuel ih =>
    have step {v : Visit} {level next : List Visit} {d : Nat}
        (two : TwoLevels d (v :: level) next) (enough : load (v :: level) + load next ≤ fuel + 1) :
        StableSort Visit.depth (plunge skip (next ++ v :: level))
          (walkLevelsFrom skip (fuel + 1) (v :: level ++ next)) := by
      have due_lt := load_due_lt skip v
      rw [load_cons] at enough
      have less : load level + load (next ++ due skip v) ≤ fuel := by
        rw [load_append]
        omega
      rw [List.cons_append, walkLevelsFrom_cons, List.append_assoc]
      exact stableSort_cons two (ih two.pop less)
    cases level with
    | cons v level => exact step two enough
    | nil =>
      cases next with
      | nil => exact ⟨.nil, fun _ => rfl⟩
      | cons v next =>
        have turned := step two.turn (by simpa [load, countAll] using enough)
        simpa using turned

/-- The walk by levels makes the visits of the walk in depth, which are those of the nodes with no
skipped node above them, in the order of a stable sort by depth. -/
theorem walkLevels_eq_mergeSort_walk (skip : Node → Bool) (root : Node) :
    root.walkLevels skip = (root.walk skip).mergeSort (fun v w => v.depth ≤ w.depth) ∧
      (root.walkLevels skip).Perm (root.walk skip) ∧
      root.walk skip = (root.trails.filter (Trail.isOpen skip)).map Trail.visit ∧
      ∀ t, t ∈ root.trails ↔ Leads root t := by
  have sorts : StableSort Visit.depth (root.walk skip) (root.walkLevels skip) := by
    have two : TwoLevels 0 [⟨root, none, 0⟩] [] := ⟨by simp, by simp⟩
    have enough : load [⟨root, none, 0⟩] + load [] ≤ root.count := Nat.le_refl _
    have run : StableSort Visit.depth (plunge skip [⟨root, none, 0⟩])
        (walkLevelsFrom skip root.count [⟨root, none, 0⟩]) :=
      walkLevelsFrom_stableSort root.count two enough
    simpa [plunge, walk, walkLevels] using run
  have sorted := sorts.eq_mergeSort
  refine ⟨sorted, ?_, walk_eq_filter_trails skip root, fun _ => mem_trails_iff⟩
  rw [sorted]
  exact List.mergeSort_perm _ _

end SourceTree.Node
