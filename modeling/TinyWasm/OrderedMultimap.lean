import Mathlib.Order.Defs.Unbundled

/-!
# Multimaps as ordered lists

A multimap keeps its entries in the order of their keys, and entries with one key
in the order in which they were inserted.
-/

namespace OrderedMultimap

variable {κ α : Type*} [LT κ] [DecidableLT κ]

/-- A new entry goes in front of the first one with a greater key. -/
def insert (key : κ) (value : α) : List (κ × α) → List (κ × α)
  | [] => [(key, value)]
  | entry :: rest =>
    if key < entry.1 then (key, value) :: entry :: rest else entry :: insert key value rest

theorem insert_perm (key : κ) (value : α) (entries : List (κ × α)) :
    (insert key value entries).Perm ((key, value) :: entries) := by
  induction entries with
  | nil => exact List.Perm.refl _
  | cons entry rest ih =>
    rw [insert]
    by_cases before : key < entry.1
    · rw [if_pos before]
    · rw [if_neg before]
      exact (ih.cons entry).trans (List.Perm.swap _ _ _)

/-- No entry comes behind one with a greater key. -/
def Ordered (entries : List (κ × α)) : Prop := entries.Pairwise fun a b => ¬ b.1 < a.1

variable [Std.Irrefl (α := κ) (· < ·)] [IsTrans κ (· < ·)] {key : κ} {entries : List (κ × α)}

omit [DecidableLT κ] in
/-- From an entry with a greater key on, all keys are other ones and none is smaller. -/
theorem Ordered.above {entry : κ × α} {rest : List (κ × α)} (ordered : Ordered (entry :: rest))
    (before : key < entry.1) : ∀ other ∈ entry :: rest, ¬ other.1 < key ∧ other.1 ≠ key := by
  intro other inside
  have notLess : ¬ other.1 < entry.1 := by
    rcases List.mem_cons.mp inside with rfl | later
    · exact irrefl _
    · exact (List.pairwise_cons.mp ordered).1 other later
  constructor
  · intro smaller
    exact notLess (IsTrans.trans _ _ _ smaller before)
  · rintro rfl
    exact notLess before

theorem insert_ordered (value : α) (ordered : Ordered entries) :
    Ordered (insert key value entries) := by
  induction entries with
  | nil => exact List.pairwise_singleton _ _
  | cons entry rest ih =>
    rw [insert]
    by_cases before : key < entry.1
    · rw [if_pos before]
      exact List.pairwise_cons.mpr
        ⟨fun other inside => (ordered.above before other inside).1, ordered⟩
    · rw [if_neg before]
      obtain ⟨first, later⟩ := List.pairwise_cons.mp ordered
      refine List.pairwise_cons.mpr ⟨fun other inside => ?_, ih later⟩
      rcases List.mem_cons.mp ((insert_perm key value rest).mem_iff.mp inside) with rfl | old
      · exact before
      · exact first other old

/-- Insertion is stable: the new entry is the last one with its key. -/
theorem filter_insert [DecidableEq κ] (value : α) (ordered : Ordered entries) (wanted : κ) :
    (insert key value entries).filter (fun entry => entry.1 = wanted) =
      entries.filter (fun entry => entry.1 = wanted) ++
        if key = wanted then [(key, value)] else [] := by
  induction entries with
  | nil => by_cases same : key = wanted <;> simp [insert, same]
  | cons entry rest ih =>
    rw [insert]
    by_cases before : key < entry.1
    · rw [if_pos before]
      by_cases same : key = wanted
      · subst same
        have none : (entry :: rest).filter (fun other => other.1 = key) = [] := by
          rw [List.filter_eq_nil_iff]
          intro other inside
          simpa using (ordered.above before other inside).2
        rw [List.filter_cons_of_pos (by simp), none, if_pos rfl]
        rfl
      · rw [List.filter_cons_of_neg (by simpa using same), if_neg same, List.append_nil]
    · rw [if_neg before]
      have later := ih (List.pairwise_cons.mp ordered).2
      by_cases here : entry.1 = wanted
      · rw [List.filter_cons_of_pos (by simpa using here),
          List.filter_cons_of_pos (by simpa using here), later, List.cons_append]
      · rw [List.filter_cons_of_neg (by simpa using here),
          List.filter_cons_of_neg (by simpa using here), later]

end OrderedMultimap
