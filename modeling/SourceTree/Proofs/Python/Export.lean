import SourceTree.Proofs.Python.Growth
import SourceTree.Proofs.Python.Literal
import SourceTree.Proofs.Scan.Line
import SourceTree.Python.Linkage

/-!
The two ways in which a module says what it offers to others. The declarations are flagged by the
names that are read ahead from the first line that looks like a list of public names; the exports
are read from the variable that holds the list, once the tree is there. Both agree if there is no
such variable, and also if the line is the text of the variable and nothing is quoted behind it.
-/

namespace SourceTree.Python

open Scan (LogicalLine MaskedSource maskIndent)

variable {source : Text} {cx : Context} {scope : Scope} {i : Nat} {line : LogicalLine} {n m : Node}

/-! ### Flags -/

/-- All but imports have a name and say whether it is offered to others. -/
def Offered (cx : Context) (n : Node) : Prop :=
  n.kind ≠ .importDecl → ∃ name, n.name = some (String.ofList name) ∧
    n.flag "exported" = cx.isExported name

theorem Flagged.offered {kind : NodeKind} {start stop : Nat} {d : Draft}
    (h : Flagged cx .moduleBody kind d) :
    Attempt.Grows source i (Attempt.span kind start stop d) fun _ => Offered cx := by
  refine Attempt.Grows.lift ((Build.Grows.states kind start stop d).mono ?_)
  rintro _ n - ⟨rfl, hname, hmetadata⟩ other
  obtain ⟨name, named, noted⟩ := h rfl other
  refine ⟨name, hname.trans named, ?_⟩
  rw [Node.flag, hmetadata, noted]
  rfl

theorem definition_offered {decorators : List LogicalLine} {stop : Nat}
    {body : Scope → Build (List Node)} (hb : ∀ inner, Build.Sprouts source (body inner)) :
    Attempt.Grows source i (definition cx .moduleBody decorators line stop body) fun _ =>
      Offered cx := by
  have any (inner : Scope) (j : Nat) : Build.Grows source j (body inner) fun _ _ => True :=
    (hb inner j).mono fun _ _ _ _ => trivial
  refine definition_made (Attempt.Sprouts.mapM decoratorNode_sprouts)
    (fun {inner j _} _ => any inner j) ?_
  intro k kind d ds ms code _ _ _ _ _ flagged _
  exact flagged.offered

theorem simpleStatement_offered :
    Build.Grows source i (simpleStatement cx .moduleBody line) fun _ ns =>
      ∀ n ∈ ns, Offered cx n := by
  refine (simpleStatement_made fun _ _ _ flagged => flagged.offered).mono ?_
  rintro j ns - ⟨found, rfl, offered⟩ n hn
  exact offered n (Option.mem_toList.mp hn)

theorem statements_offered (lines : List LogicalLine) (base : Nat) (decorators : List LogicalLine)
    (skip count : Nat) :
    Build.Grows source i (statements cx .moduleBody base decorators skip count lines) fun _ ns =>
      ∀ n ∈ ns, Offered cx n := by
  have both (ns : List Node) {m : Build (List Node)} {k : Nat} (hns : ∀ n ∈ ns, Offered cx n)
      (h : Build.Grows source k m fun _ ms => ∀ n ∈ ms, Offered cx n) :
      Build.Grows source k (do return ns ++ (← m)) fun _ ms => ∀ n ∈ ms, Offered cx n := by
    refine Build.Grows.bind h fun _ ms _ hms => Build.Grows.pure ?_
    exact List.forall_mem_append.mpr ⟨hns, hms⟩
  induction lines generalizing i decorators skip count with
  | nil => exact Build.Grows.pure (by simp)
  | cons line rest ih =>
    match skip, count with
    | _, 0 =>
      rw [statements]
      exact Build.Grows.pure (by simp)
    | skip + 1, count + 1 => exact ih decorators skip count
    | 0, count + 1 =>
      rw [statements]
      split
      next => exact ih decorators 0 count
      next =>
        split
        next =>
          dsimp only
          refine Build.Grows.bind (importNode_made fun _ _ flagged => flagged.offered) ?_
          intro j r _ hr
          exact both r.toList (fun n hn => hr n (Option.mem_toList.mp hn)) (ih [] 0 count)
        next =>
          refine Build.Grows.after (Build.Keeps.need _) fun code _ => ?_
          split
          next => exact ih (decorators ++ [line]) 0 count
          next =>
            refine Build.Grows.bind (definition_offered fun inner => ?_) fun j r _ hr => ?_
            · split
              next => exact Build.Sprouts.nil
              next => exact statements_sprouts _ _ _ _ _ _
            · cases r with
              | some node =>
                refine both [node] ?_ (ih _ _ _)
                simpa using hr node rfl
              | none =>
                refine Build.Grows.bind simpleStatement_offered fun k nodes _ offered => ?_
                exact both nodes offered (ih _ _ _)

theorem Offered.adopted (h : Offered cx n) (id : NodeId) : Offered cx (n.adoptedBy id) := h

theorem tree_offered (source : Text) :
    Build.Grows source 0 (tree source) fun _ root => ∃ cx,
      Context.ofSource? source (Scan.logicalLines source) = some cx ∧
        ∀ n ∈ root.children, Offered cx n := by
  refine Build.Grows.after (Build.Keeps.need _) fun cx found => ?_
  have root (j : Nat) (children : List Node) (offered : ∀ n ∈ children, Offered cx n) :
      Build.Grows source j (Build.root .program children) fun _ root => ∃ cx,
        Context.ofSource? source (Scan.logicalLines source) = some cx ∧
          ∀ n ∈ root.children, Offered cx n := by
    refine (Build.Grows.root_covers .program children).mono ?_
    rintro _ root - ⟨-, -, id, adopted⟩
    refine ⟨cx, found, ?_⟩
    rw [adopted]
    exact List.forall_mem_map.mpr fun n hn => (offered n hn).adopted id
  cases baseIndent? (Scan.logicalLines source) with
  | none => exact root 0 [] (by simp)
  | some base =>
    refine Build.Grows.bind (statements_offered _ _ _ _ _) fun j children _ offered => ?_
    exact root j children offered

/-! ### Names read ahead -/

/-- The line from which the public names are read ahead. -/
def publicLine? (source : Text) : Option LogicalLine :=
  (Scan.logicalLines source).find? fun line =>
    Context.assignsPublicNames? ⟨source, maskIndent source⟩ line == some true

theorem publicNames?_of_line {text : MaskedSource} {lines : List LogicalLine}
    {names : Option (List Text)} (h : Context.publicNames? text lines = some names)
    (found : lines.find? (fun line => Context.assignsPublicNames? text line == some true) =
      some line) :
    ∃ content, text.text? line.contentStart line.stop = some content ∧
      names = some (listedStrings (assignedValue content)) := by
  induction lines with
  | nil => simp at found
  | cons first lines ih =>
    rw [Context.publicNames?] at h
    obtain ⟨assigns, here, h⟩ := Option.bind_eq_some_iff.mp h
    cases assigns with
    | true =>
      rw [List.find?_cons_of_pos (by simp [here])] at found
      obtain rfl := Option.some.inj found
      obtain ⟨content, hcontent, listed⟩ := Option.bind_eq_some_iff.mp h
      exact ⟨content, hcontent, (Option.some.inj listed).symm⟩
    | false =>
      rw [List.find?_cons_of_neg (by simp [here])] at found
      exact ih h found

/-- A context is read from the source, and its public names from the line that lists them. -/
theorem publicNames_of_line (h : Context.ofSource? source (Scan.logicalLines source) = some cx)
    (found : publicLine? source = some line) :
    cx.publicNames = some (listedStrings (assignedValue line.content)) := by
  obtain ⟨names, hnames, same⟩ := Option.bind_eq_some_iff.mp h
  obtain rfl := Option.some.inj same
  obtain ⟨content, hcontent, listed⟩ := publicNames?_of_line hnames found
  have lies := Scan.logicalLines_lie (List.mem_of_find?_eq_some found)
  have slice : Text.slice? source line.contentStart line.stop = some content := hcontent
  obtain rfl := Option.some.inj (lies.slice_content.symm.trans slice)
  exact listed

/-! ### Exports -/

def declarationKinds : List NodeKind := [.function, .classDecl, .variableDecl]

/-- The variable that holds the list of public names. -/
def publicList? (root : Node) : Option Node :=
  root.children.find? fun n => n.kind == .variableDecl && n.name == some "__all__"

/-- A declaration is flagged if and only if its name is among the exports. -/
def ExportsAgree (root : Node) : Prop :=
  ∀ n ∈ root.children, n.kind ∈ declarationKinds →
    (n.flag "exported" = true ↔ ∃ name ∈ (exports root).map Export.name, n.name = some name)

/-- The variable has the text from which the public names were read ahead, and no quotation marks
stand behind it. -/
def ReadAhead (source : Text) (v : Node) : Prop :=
  ∃ line statement tail, publicLine? source = some line ∧ v.text = some (String.ofList statement) ∧
    line.content = statement ++ tail ∧ ∀ z ∈ tail, isQuote z = false

theorem Offered.declaration (h : Offered cx n) (declared : n.kind ∈ declarationKinds) :
    ∃ name, n.name = some (String.ofList name) ∧ n.flag "exported" = cx.isExported name := by
  apply h
  intro isImport
  rw [isImport] at declared
  exact absurd declared (by decide)

/-- Without a list the exports are the declarations that are flagged. -/
theorem mem_exportNames_of_none {root : Node} (missing : publicList? root = none) {name : String} :
    name ∈ (exports root).map Export.name ↔ ∃ n ∈ root.children,
      (n.kind ∈ declarationKinds ∧ n.flag "exported" = true) ∧ n.name = some name := by
  unfold publicList? at missing
  simp only [exports, missing, List.map_filterMap, Option.map_map, List.mem_filterMap,
    List.mem_filter, Function.comp_def, Option.map_id']
  simp only [Bool.and_eq_true, Bool.or_eq_true, beq_iff_eq, declarationKinds, List.mem_cons,
    List.not_mem_nil, or_false, and_assoc, or_assoc]

theorem exportNames_of_list {root v : Node} (found : publicList? root = some v) :
    (exports root).map Export.name =
      (listedStrings (assignedValue (v.text.getD "").toList)).map String.ofList := by
  unfold publicList? at found
  simp only [exports, found, List.map_map, Function.comp_def]

/-- The flag of a declaration depends on its name alone, so it is the same for all of one name. -/
theorem exportsAgree_of_none {root : Node} (offered : ∀ n ∈ root.children, Offered cx n)
    (missing : publicList? root = none) : ExportsAgree root := by
  intro n hn declared
  obtain ⟨name, named, flag⟩ := (offered n hn).declaration declared
  constructor
  · intro flagged
    exact ⟨_, (mem_exportNames_of_none missing).mpr ⟨n, hn, ⟨declared, flagged⟩, named⟩, named⟩
  · rintro ⟨name', exported, named'⟩
    obtain ⟨m, hm, ⟨declared', flagged⟩, same⟩ := (mem_exportNames_of_none missing).mp exported
    obtain ⟨_, spelt, flag'⟩ := (offered m hm).declaration declared'
    have one : some (String.ofList name) = some (String.ofList _) :=
      named.symm.trans (named'.trans (same.symm.trans spelt))
    rw [String.ofList_inj.mp (Option.some.inj one), ← flag'] at flag
    exact flag.trans flagged

theorem exportsAgree_of_list {root v : Node} (offered : ∀ n ∈ root.children, Offered cx n)
    (found : publicList? root = some v)
    (listed : cx.publicNames = some (listedStrings (assignedValue (v.text.getD "").toList))) :
    ExportsAgree root := by
  intro n hn declared
  obtain ⟨name, named, flag⟩ := (offered n hn).declaration declared
  rw [exportNames_of_list found, flag, Context.isExported, listed, named]
  simp [String.ofList_inj]

/-- The flags of the declarations and the exports of a module agree unless the module has a list of
public names that is not the one that was read ahead, or one with something quoted behind it. -/
theorem parse?_exports {path : String} {file : ParsedFile} (parsed : parse? source path = some file)
    (ahead : ∀ v, publicList? file.root = some v → ReadAhead source v) : ExportsAgree file.root := by
  obtain ⟨-, -, cx, hcx, offered⟩ := (tree_offered source).of_file? parsed
  cases found : publicList? file.root with
  | none => exact exportsAgree_of_none offered found
  | some v =>
    obtain ⟨line, statement, tail, read, text, content, plain⟩ := ahead v found
    refine exportsAgree_of_list offered found ?_
    rw [publicNames_of_line hcx read, content, listedStrings_statement plain, text,
      Option.getD_some, String.toList_ofList]

/-- A list of public names with a comment behind it. -/
theorem parse?_exports_commented : ∃ source file,
    source = "__all__ = [\x22b\x22]  # b\ndef a(): 0\ndef b(): 0".toList ∧
    parse? source "a.py" = some file ∧
    (∀ v, publicList? file.root = some v → ReadAhead source v) ∧ ExportsAgree file.root := by
  have list : (parse? "__all__ = [\x22b\x22]  # b\ndef a(): 0\ndef b(): 0".toList "a.py").map
      (fun file => (publicList? file.root).map Node.text) =
      some (some (some "__all__ = [\x22b\x22]")) := by decide +kernel
  have read : (publicLine? "__all__ = [\x22b\x22]  # b\ndef a(): 0\ndef b(): 0".toList).map
      LogicalLine.content = some "__all__ = [\x22b\x22]  # b".toList := by decide +kernel
  obtain ⟨file, parsed, text⟩ := Option.map_eq_some_iff.mp list
  obtain ⟨line, found, content⟩ := Option.map_eq_some_iff.mp read
  have ahead : ∀ v, publicList? file.root = some v →
      ReadAhead "__all__ = [\x22b\x22]  # b\ndef a(): 0\ndef b(): 0".toList v := by
    intro v hv
    rw [hv, Option.map_some, Option.some.injEq] at text
    have plain : ∀ z ∈ "  # b".toList, isQuote z = false := by simp [isQuote]
    refine ⟨line, "__all__ = [\x22b\x22]".toList, "  # b".toList, found, ?_, content, plain⟩
    rw [text, String.ofList_toList]
  exact ⟨_, file, rfl, parsed, ahead, parse?_exports parsed ahead⟩

/-- A name that is quoted in the comment behind the list flags a function but is not exported. -/
theorem parse?_exports_quoted : ∃ file,
    parse? "__all__ = [\x22a\x22]  # \x22b\x22\ndef b():\n    pass\n".toList "a.py" = some file ∧
    ¬ExportsAgree file.root := by
  have view : (parse? "__all__ = [\x22a\x22]  # \x22b\x22\ndef b():\n    pass\n".toList "a.py").map
      (fun file => (file.root.children.map fun n => (n.kind, n.name, n.flag "exported"),
        (exports file.root).map Export.name)) =
      some ([(.variableDecl, some "__all__", false), (.function, some "b", true)], ["a"]) := by
    decide +kernel
  obtain ⟨file, parsed, same⟩ := Option.map_eq_some_iff.mp view
  obtain ⟨children, exported⟩ := Prod.mk.inj same
  refine ⟨file, parsed, fun agree => ?_⟩
  have flagged : (.function, some "b", true) ∈
      file.root.children.map fun n => (n.kind, n.name, n.flag "exported") := by
    rw [children]
    decide
  obtain ⟨n, hn, entry⟩ := List.mem_map.mp flagged
  simp only [Prod.mk.injEq] at entry
  obtain ⟨kind, named, flag⟩ := entry
  obtain ⟨name, listed, spelt⟩ := (agree n hn (by rw [kind]; decide)).mp flag
  rw [exported, List.mem_singleton] at listed
  rw [named, listed] at spelt
  exact absurd spelt (by decide)

end SourceTree.Python
