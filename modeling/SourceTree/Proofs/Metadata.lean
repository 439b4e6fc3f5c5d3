import Mathlib.Data.String.Basic
import SourceTree.Node.Basic

/-!
Metadata as a table: what is found under a key, and the order of the keys. Keys that ascend stay so
when a value is put in, and a list of fields whose keys ascend is the table that it spells.
-/

namespace SourceTree.Metadata

variable {m : Metadata} {key key' : String} {v : Value}

theorem get?_insert (m : Metadata) (key key' : String) (v : Value) :
    (m.insert key v).get? key' = if key' = key then some v else m.get? key' := by
  have first (rest : Metadata) (k : String) (w : Value) :
      Metadata.get? ((k, w) :: rest) key' = if key' = k then some w else rest.get? key' := by
    simp only [get?, List.lookup_cons]
    by_cases here : key' = k
    · simp [here]
    · simp [here, beq_false_of_ne here]
  induction m with
  | nil => exact first [] key v
  | cons entry rest ih =>
    obtain ⟨k, w⟩ := entry
    rw [insert]
    split
    next same =>
      subst same
      rw [first, first]
      split <;> rfl
    next other =>
      split
      next => rw [first]
      next =>
        rw [first, first, ih]
        by_cases here : key' = k
        · simp [here, Ne.symm other]
        · simp [here]

/-- The keys ascend, so each is there once. -/
def Ascending (m : Metadata) : Prop := m.Pairwise fun a b => a.1 < b.1

theorem ascending_nil : Ascending [] := .nil

theorem mem_insert {entry : String × Value} (h : entry ∈ m.insert key v) :
    entry = (key, v) ∨ entry ∈ m := by
  induction m with
  | nil => simpa [insert] using h
  | cons first rest ih =>
    obtain ⟨k, w⟩ := first
    rw [insert] at h
    split at h
    · exact (List.mem_cons.mp h).imp_right (List.mem_cons_of_mem _)
    · split at h
      · exact List.mem_cons.mp h
      · cases List.mem_cons.mp h with
        | inl here => exact .inr (here ▸ List.mem_cons_self)
        | inr there => exact (ih there).imp_right (List.mem_cons_of_mem _)

theorem Ascending.insert (h : m.Ascending) (key : String) (v : Value) :
    (m.insert key v).Ascending := by
  induction m with
  | nil => exact List.pairwise_singleton _ _
  | cons first rest ih =>
    obtain ⟨k, w⟩ := first
    obtain ⟨least, sorted⟩ := List.pairwise_cons.mp h
    rw [Metadata.insert]
    split
    next same =>
      subst same
      exact List.pairwise_cons.mpr ⟨least, sorted⟩
    next other =>
      split
      next before =>
        apply List.pairwise_cons.mpr
        constructor
        · intro entry mem
          cases List.mem_cons.mp mem with
          | inl here => exact here ▸ before
          | inr there => exact before.trans (least entry there)
        · exact h
      next notBefore =>
        have behind : k < key := lt_of_le_of_ne (not_lt.mp notBefore) (Ne.symm other)
        apply List.pairwise_cons.mpr
        constructor
        · intro entry mem
          cases mem_insert mem with
          | inl new => exact new ▸ behind
          | inr old => exact least entry old
        · exact ih sorted

theorem insert_of_greatest (greatest : ∀ entry ∈ m, entry.1 < key) :
    m.insert key v = m ++ [(key, v)] := by
  induction m with
  | nil => rfl
  | cons first rest ih =>
    obtain ⟨k, w⟩ := first
    have before : k < key := greatest (k, w) List.mem_cons_self
    have rest := ih fun entry mem => greatest entry (List.mem_cons_of_mem _ mem)
    rw [insert, if_neg before.ne', if_neg before.asymm, rest, List.cons_append]

/-- Reading fields whose keys ascend changes nothing. -/
theorem ofList_eq_self (h : m.Ascending) : ofList m = m := by
  have run (before after : Metadata) (h : Ascending (before ++ after)) :
      after.foldl (fun m entry => insert entry.1 entry.2 m) before = before ++ after := by
    induction after generalizing before with
    | nil => simp
    | cons entry after ih =>
      obtain ⟨k, w⟩ := entry
      have greatest : ∀ other ∈ before, other.1 < k := fun other mem =>
        (List.pairwise_append.mp h).2.2 other mem (k, w) List.mem_cons_self
      have put : before.insert k w = before ++ [(k, w)] := insert_of_greatest greatest
      rw [List.append_cons] at h ⊢
      simpa only [List.foldl_cons, put] using ih (before ++ [(k, w)]) h
  exact run [] m h

end SourceTree.Metadata
