import SourceTree.Codec.Records
import SourceTree.Proofs.Node.Linked

/-!
Writing a parsed file and reading it back. The written form has no parent links and leaves out what is
not there; reading restores both, the links from the shape of the tree.
-/

namespace SourceTree

namespace Value

variable {α β : Type} {fields : List (String × Value)} {key key' : String}

/-- A field that may be left out is found under its own key only. -/
theorem lookup_field? (write : α → Value) (o : Option α) :
    (field? key write o).lookup key' = if key' = key then o.map write else none := by
  cases o with
  | none => simp [field?]
  | some a =>
    by_cases same : key' = key
    · simp [field?, same]
    · simp [field?, List.lookup_cons, same, beq_false_of_ne same]

theorem required?_eq (read : Value → Option α) {v : Value} (found : fields.lookup key = some v) :
    required? fields key read = read v := by
  rw [required?, found, Option.bind_some]

theorem optional?_string {o : Option String} (found : fields.lookup key = o.map string) :
    optional? fields key asString? = some o := by
  rw [optional?, found]
  cases o <;> rfl

theorem asNat32?_nat {n : Nat} (fits : n < 2 ^ 32) : asNat32? (nat n) = some n := if_pos fits

theorem asUInt32?_nat (n : UInt32) : asUInt32? (nat n.toNat) = some n := by
  rw [asUInt32?, asNat32?_nat n.toNat_lt, Option.map_some, Nat.toUInt32_eq, UInt32.ofNat_toNat]

theorem asNat64?_nat {n : Nat} (fits : n < 2 ^ 64) : asNat64? (nat n) = some n := if_pos fits

end Value

namespace Location

/-- The indices are numbers of 64 bits. -/
structure Fits (l : Location) : Prop where
  startIndex : l.startIndex < 2 ^ 64
  endIndex : l.endIndex < 2 ^ 64

instance (l : Location) : Decidable l.Fits :=
  decidable_of_iff (l.startIndex < 2 ^ 64 ∧ l.endIndex < 2 ^ 64)
    ⟨fun h => ⟨h.1, h.2⟩, fun h => ⟨h.startIndex, h.endIndex⟩⟩

theorem ofValue?_toValue {l : Location} (fits : l.Fits) : ofValue? l.toValue = some l := by
  simp [ofValue?, toValue, Value.record?, Value.required?, List.lookup_cons, Value.asUInt32?_nat,
    Value.asNat64?_nat fits.startIndex, Value.asNat64?_nat fits.endIndex]

end Location

namespace NodeKind

theorem ofLabel?_label (k : NodeKind) : ofLabel? k.label = some k := by
  cases k <;> decide +kernel

end NodeKind

theorem Severity.ofLabel?_label (s : Severity) : ofLabel? s.label = some s := by
  cases s <;> rfl

theorem Language.ofKey?_key (l : Language) : ofKey? l.key = some l := by
  cases l <;> decide +kernel

namespace Node

/-- The numbers of the node fit their machine words. -/
structure Fits (n : Node) : Prop where
  id : n.id < 2 ^ 32
  location : n.location.Fits

instance (n : Node) : Decidable n.Fits :=
  decidable_of_iff (n.id < 2 ^ 32 ∧ n.location.Fits)
    ⟨fun h => ⟨h.1, h.2⟩, fun h => ⟨h.id, h.location⟩⟩

/-- The fields of the written form; those that may be left out are left out in one way. -/
def fields (n : Node) : List (String × Value) :=
  [("id", .nat n.id), ("type", .string n.kind.label)] ++
  Value.field? "name" .string n.name ++
  [("location", n.location.toValue), ("children", .list (n.children.map toValue))] ++
  Value.field? "text" .string n.text ++
  Value.field? "metadata" .object (if n.metadata.isEmpty then none else some n.metadata)

theorem toValues_eq_map (ns : List Node) : toValues ns = ns.map toValue := by
  induction ns with
  | nil => rfl
  | cons n ns ih => rw [toValues, ih, List.map_cons]

theorem toValue_eq (n : Node) : n.toValue = .object n.fields := by
  obtain ⟨id, kind, name, location, children, parent, text, metadata⟩ := n
  rw [toValue, toValues_eq_map, fields]
  cases metadata <;> rfl

theorem ofChildrenField?_eq (fields : List (String × Value)) :
    ofChildrenField? fields = (fields.lookup "children").elim (some []) ofList? := by
  induction fields with
  | nil => rfl
  | cons field fields ih =>
    obtain ⟨key, v⟩ := field
    rw [ofChildrenField?, List.lookup_cons, ih]
    by_cases here : key = "children"
    · simp [here]
    · simp [here, beq_false_of_ne (Ne.symm here)]

theorem ofValues?_map {ns : List Node}
    (each : ∀ n ∈ ns, ofValue? n.toValue = some n.unlinked) :
    ofValues? (ns.map toValue) = some (ns.map unlinked) := by
  induction ns with
  | nil => rfl
  | cons n ns ih =>
    have here := each n List.mem_cons_self
    have rest := ih fun m hm => each m (List.mem_cons_of_mem n hm)
    simp [ofValues?, here, rest]

section Fields

variable (n : Node)

theorem lookup_id : n.fields.lookup "id" = some (.nat n.id) := by simp [fields]

theorem lookup_type : n.fields.lookup "type" = some (.string n.kind.label) := by
  simp [fields, List.lookup_cons]

theorem lookup_name : n.fields.lookup "name" = n.name.map .string := by
  simp [fields, List.lookup_append, Value.lookup_field?, List.lookup_cons]

theorem lookup_location : n.fields.lookup "location" = some n.location.toValue := by
  simp [fields, List.lookup_append, Value.lookup_field?, List.lookup_cons]

theorem lookup_children : n.fields.lookup "children" = some (.list (n.children.map toValue)) := by
  simp [fields, List.lookup_append, Value.lookup_field?, List.lookup_cons]

theorem lookup_text : n.fields.lookup "text" = n.text.map .string := by
  simp [fields, List.lookup_append, Value.lookup_field?, List.lookup_cons]

theorem lookup_metadata : n.fields.lookup "metadata" =
    (if n.metadata.isEmpty then none else some n.metadata).map .object := by
  simp [fields, List.lookup_append, Value.lookup_field?, List.lookup_cons]

end Fields

/-- Metadata are read back whether they were left out or not. -/
theorem metadata_fields {n : Node} (ordered : n.metadata.Ascending) :
    Value.defaulted? n.fields "metadata" metadataOfValue? [] = some n.metadata := by
  rw [Value.defaulted?, lookup_metadata]
  cases empty : n.metadata.isEmpty with
  | true => simp [List.isEmpty_iff.mp empty]
  | false => simp [metadataOfValue?, Metadata.ofList_eq_self ordered]

theorem ofFields?_fields {n : Node} (fits : n.Fits) (ordered : n.metadata.Ascending)
    (children : List Node) :
    ofValue?.ofFields? n.fields children =
      some { n with children := children, parent := none } := by
  have id : Value.required? n.fields "id" Value.asNat32? = some n.id := by
    rw [Value.required?_eq _ n.lookup_id, Value.asNat32?_nat fits.id]
  have kind : Value.required? n.fields "type" NodeKind.ofValue? = some n.kind := by
    rw [Value.required?_eq _ n.lookup_type]
    exact n.kind.ofLabel?_label
  have location : Value.required? n.fields "location" Location.ofValue? = some n.location := by
    rw [Value.required?_eq _ n.lookup_location, Location.ofValue?_toValue fits.location]
  have name := Value.optional?_string n.lookup_name
  have text := Value.optional?_string n.lookup_text
  simp [ofValue?.ofFields?, id, kind, name, location, text, metadata_fields ordered]

theorem ofValue?_toValue {n : Node} (fits : ∀ m ∈ n.nodes, m.Fits)
    (ordered : ∀ m ∈ n.nodes, m.metadata.Ascending) : ofValue? n.toValue = some n.unlinked := by
  induction n using induct with
  | step n ih =>
    have below : ofValues? (n.children.map toValue) = some (n.children.map unlinked) := by
      apply ofValues?_map
      intro c hc
      have inside (m : Node) (hm : m ∈ c.nodes) : m ∈ n.nodes := mem_nodes_iff.mpr (.inr ⟨c, hc, hm⟩)
      exact ih c hc (fun m hm => fits m (inside m hm)) fun m hm => ordered m (inside m hm)
    have read : ofChildrenField? n.fields = some (n.children.map unlinked) := by
      rw [ofChildrenField?_eq, n.lookup_children]
      exact below
    have rest := ofFields?_fields (fits n n.self_mem_nodes) (ordered n n.self_mem_nodes)
      (n.children.map unlinked)
    rw [toValue_eq, ofValue?, read, unlinked_eq]
    exact rest

end Node

theorem Diagnostic.ofValue?_toValue {d : Diagnostic} (fits : d.location.Fits) :
    ofValue? d.toValue = some d := by
  simp [ofValue?, toValue, Value.record?, Value.required?, List.lookup_cons, Value.asString?,
    Location.ofValue?_toValue fits, Severity.ofLabel?_label]

namespace ParsedFile

/-- All numbers of the file fit their machine words. -/
structure Fits (f : ParsedFile) : Prop where
  nodes : ∀ n ∈ f.root.nodes, n.Fits
  diagnostics : ∀ d ∈ f.diagnostics, d.location.Fits

instance (f : ParsedFile) : Decidable f.Fits :=
  decidable_of_iff
    ((∀ n ∈ f.root.nodes, n.Fits) ∧ ∀ d ∈ f.diagnostics, d.location.Fits)
    ⟨fun h => ⟨h.1, h.2⟩, fun h => ⟨h.nodes, h.diagnostics⟩⟩

/-- What is said about a node is a table: the keys ascend. -/
def Ordered (f : ParsedFile) : Prop := ∀ n ∈ f.root.nodes, n.metadata.Ascending

theorem diagnostics_mapM {ds : List Diagnostic} (fits : ∀ d ∈ ds, d.location.Fits) :
    (ds.map Diagnostic.toValue).mapM Diagnostic.ofValue? = some ds := by
  induction ds with
  | nil => rfl
  | cons d ds ih =>
    have here := Diagnostic.ofValue?_toValue (fits d List.mem_cons_self)
    have rest := ih fun e he => fits e (List.mem_cons_of_mem d he)
    rw [List.map_cons, List.mapM_cons, here, rest]
    rfl

theorem ofValue?_toValue {f : ParsedFile} (fits : f.Fits) (ordered : f.Ordered) :
    ofValue? f.toValue = some { f with root := f.root.detached } := by
  have root := Node.ofValue?_toValue fits.nodes ordered
  have diagnostics := diagnostics_mapM fits.diagnostics
  simp [ofValue?, toValue, Value.record?, Value.required?, List.lookup_cons, Value.asString?,
    Value.asList?, Language.ofKey?_key, root, diagnostics, Node.relinked_unlinked]

end ParsedFile

end SourceTree
