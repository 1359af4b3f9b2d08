import Mathlib.Tactic

/-!
# Code with symbolic labels

Items are instructions, jumps to a named label, and labels. Labels take no
room. The first position a label is recorded at is the one its jumps lead to,
so a list in which no label occurs twice is laid out exactly as it reads.
-/

namespace LabelledCode

inductive Item (I K : Type) where
  | ins (i : I)
  | jump (label : String) (kind : K)
  | label (name : String)

variable {I K : Type}

def Item.size : Item I K → Nat
  | .ins _ | .jump _ _ => 1
  | .label _ => 0

/-- Number of instructions the items take. -/
def size : List (Item I K) → Nat
  | [] => 0
  | x :: xs => x.size + size xs

@[simp] theorem size_nil : size ([] : List (Item I K)) = 0 := rfl

@[simp] theorem size_cons (x : Item I K) (xs : List (Item I K)) :
    size (x :: xs) = x.size + size xs := rfl

@[simp] theorem Item.size_ins (i : I) : (Item.ins i : Item I K).size = 1 := rfl
@[simp] theorem Item.size_jump (l : String) (k : K) : (Item.jump l k : Item I K).size = 1 := rfl
@[simp] theorem Item.size_label (l : String) : (Item.label l : Item I K).size = 0 := rfl

@[simp] theorem size_append (xs ys : List (Item I K)) : size (xs ++ ys) = size xs + size ys := by
  induction xs with
  | nil => simp
  | cons x xs ih => simp [ih, Nat.add_assoc]

@[simp] theorem size_map_ins (is : List I) :
    size (is.map (Item.ins : I → Item I K)) = is.length := by
  induction is with
  | nil => rfl
  | cons i is ih => simp [ih, Nat.add_comm]

/-- The labels of the items with their positions, from `start` on. -/
def labels : Nat → List (Item I K) → List (String × Nat)
  | _, [] => []
  | p, .ins _ :: xs => labels (p + 1) xs
  | p, .jump _ _ :: xs => labels (p + 1) xs
  | p, .label name :: xs => (name, p) :: labels p xs

/-- The jumps of the items with their positions and kinds, from `start` on. -/
def jumps : Nat → List (Item I K) → List (String × Nat × K)
  | _, [] => []
  | p, .ins _ :: xs => jumps (p + 1) xs
  | p, .jump l k :: xs => (l, p, k) :: jumps (p + 1) xs
  | p, .label _ :: xs => jumps p xs

/-- The names of the labels, in order. -/
def labelNames : List (Item I K) → List String
  | [] => []
  | .label name :: xs => name :: labelNames xs
  | _ :: xs => labelNames xs

/-- The labels jumped to, in order. -/
def jumpNames : List (Item I K) → List String
  | [] => []
  | .jump l _ :: xs => l :: jumpNames xs
  | _ :: xs => jumpNames xs

@[simp] theorem labels_append (p : Nat) (xs ys : List (Item I K)) :
    labels p (xs ++ ys) = labels p xs ++ labels (p + size xs) ys := by
  induction xs generalizing p with
  | nil => rfl
  | cons x xs ih => cases x <;> simp [labels, ih, Nat.add_assoc]

@[simp] theorem jumps_append (p : Nat) (xs ys : List (Item I K)) :
    jumps p (xs ++ ys) = jumps p xs ++ jumps (p + size xs) ys := by
  induction xs generalizing p with
  | nil => rfl
  | cons x xs ih => cases x <;> simp [jumps, ih, Nat.add_assoc]

@[simp] theorem labelNames_append (xs ys : List (Item I K)) :
    labelNames (xs ++ ys) = labelNames xs ++ labelNames ys := by
  induction xs with
  | nil => rfl
  | cons x xs ih => cases x <;> simp [labelNames, ih]

@[simp] theorem jumpNames_append (xs ys : List (Item I K)) :
    jumpNames (xs ++ ys) = jumpNames xs ++ jumpNames ys := by
  induction xs with
  | nil => rfl
  | cons x xs ih => cases x <;> simp [jumpNames, ih]

@[simp] theorem labels_map_ins (p : Nat) (is : List I) :
    labels p (is.map (Item.ins : I → Item I K)) = [] := by
  induction is generalizing p with
  | nil => rfl
  | cons i is ih => simp [labels, ih]

@[simp] theorem jumps_map_ins (p : Nat) (is : List I) :
    jumps p (is.map (Item.ins : I → Item I K)) = [] := by
  induction is generalizing p with
  | nil => rfl
  | cons i is ih => simp [jumps, ih]

@[simp] theorem labelNames_map_ins (is : List I) :
    labelNames (is.map (Item.ins : I → Item I K)) = [] := by
  induction is with
  | nil => rfl
  | cons i is ih => simp [labelNames, ih]

@[simp] theorem jumpNames_map_ins (is : List I) :
    jumpNames (is.map (Item.ins : I → Item I K)) = [] := by
  induction is with
  | nil => rfl
  | cons i is ih => simp [jumpNames, ih]

theorem map_fst_labels (p : Nat) (xs : List (Item I K)) :
    (labels p xs).map Prod.fst = labelNames xs := by
  induction xs generalizing p with
  | nil => rfl
  | cons x xs ih => cases x <;> simp [labels, labelNames, ih]

theorem map_fst_jumps (p : Nat) (xs : List (Item I K)) :
    (jumps p xs).map Prod.fst = jumpNames xs := by
  induction xs generalizing p with
  | nil => rfl
  | cons x xs ih => cases x <;> simp [jumps, jumpNames, ih]

/-- A recorded label stands inside the items or right behind them. -/
theorem label_bounds {p : Nat} {xs : List (Item I K)} {e : String × Nat}
    (h : e ∈ labels p xs) : p ≤ e.2 ∧ e.2 ≤ p + size xs := by
  induction xs generalizing p with
  | nil => simp [labels] at h
  | cons x xs ih =>
    cases x with
    | ins i =>
      have := ih h
      simp only [size_cons, Item.size_ins]
      omega
    | jump l k =>
      have := ih h
      simp only [size_cons, Item.size_jump]
      omega
    | label n =>
      simp only [size_cons, Item.size_label]
      rcases List.mem_cons.mp h with rfl | later
      · simp only
        omega
      · have := ih later
        omega

theorem jump_bounds {p : Nat} {xs : List (Item I K)} {j : String × Nat × K}
    (h : j ∈ jumps p xs) : p ≤ j.2.1 ∧ j.2.1 < p + size xs := by
  induction xs generalizing p with
  | nil => simp [jumps] at h
  | cons x xs ih =>
    cases x with
    | ins i =>
      have := ih h
      simp only [size_cons, Item.size_ins]
      omega
    | jump l k =>
      simp only [size_cons, Item.size_jump]
      rcases List.mem_cons.mp h with rfl | later
      · simp only
        omega
      · have := ih later
        omega
    | label n =>
      have := ih h
      simp only [size_cons, Item.size_label]
      omega

section Resolution
variable (link : K → Int → I) (target : String → Int)

/-- The instructions the items become when each jump is linked to its target. -/
def resolve : Nat → List (Item I K) → List I
  | _, [] => []
  | p, .ins i :: xs => i :: resolve (p + 1) xs
  | p, .jump l k :: xs => link k (target l - p) :: resolve (p + 1) xs
  | p, .label _ :: xs => resolve p xs

@[simp] theorem resolve_length (p : Nat) (xs : List (Item I K)) :
    (resolve link target p xs).length = size xs := by
  induction xs generalizing p with
  | nil => rfl
  | cons x xs ih => cases x <;> simp [resolve, ih, Nat.add_comm]

@[simp] theorem resolve_map_ins (p : Nat) (is : List I) :
    resolve link target p (is.map Item.ins) = is := by
  induction is generalizing p with
  | nil => rfl
  | cons i is ih => simp [resolve, ih]

/-- The items stand in `code` from position `p` on, with every jump linked. -/
def Linked (code : List I) : Nat → List (Item I K) → Prop
  | _, [] => True
  | p, .ins i :: xs => code[p]? = some i ∧ Linked code (p + 1) xs
  | p, .jump l k :: xs => code[p]? = some (link k (target l - p)) ∧ Linked code (p + 1) xs
  | p, .label _ :: xs => Linked code p xs

/-- The labels of the items are resolved to the positions they stand at. -/
def Labelled : Nat → List (Item I K) → Prop
  | _, [] => True
  | p, .ins _ :: xs => Labelled (p + 1) xs
  | p, .jump _ _ :: xs => Labelled (p + 1) xs
  | p, .label name :: xs => target name = p ∧ Labelled p xs

theorem linked_append {code : List I} {p : Nat} {xs ys : List (Item I K)} :
    Linked link target code p (xs ++ ys) ↔
      Linked link target code p xs ∧ Linked link target code (p + size xs) ys := by
  induction xs generalizing p with
  | nil => simp [Linked]
  | cons x xs ih => cases x <;> simp [Linked, ih, Nat.add_assoc, and_assoc]

theorem labelled_append {p : Nat} {xs ys : List (Item I K)} :
    Labelled target p (xs ++ ys) ↔
      Labelled target p xs ∧ Labelled target (p + size xs) ys := by
  induction xs generalizing p with
  | nil => simp [Labelled]
  | cons x xs ih => cases x <;> simp [Labelled, ih, Nat.add_assoc, and_assoc]

theorem linked_map_ins {code : List I} {p : Nat} {is : List I} :
    Linked link target code p (is.map Item.ins) ↔
      ∀ n i, is[n]? = some i → code[p + n]? = some i := by
  induction is generalizing p with
  | nil => simp [Linked]
  | cons i is ih =>
    simp only [List.map_cons, Linked, ih]
    constructor
    · rintro ⟨first, rest⟩ n j hj
      cases n with
      | zero =>
        simp only [List.getElem?_cons_zero, Option.some.injEq] at hj
        rw [Nat.add_zero, first, hj]
      | succ n =>
        have := rest n j (by simpa using hj)
        rwa [Nat.add_assoc, Nat.add_comm 1 n] at this
    · intro all
      refine ⟨all 0 i rfl, fun n j hj => ?_⟩
      have := all (n + 1) j (by simpa using hj)
      rwa [Nat.add_assoc, Nat.add_comm 1 n]

/-- A jump of the items stands in the code, linked. -/
theorem linked_jump {code : List I} {p k : Nat} {xs : List (Item I K)} {l : String} {kind : K}
    (linked : Linked link target code p xs) (h : (l, k, kind) ∈ jumps p xs) :
    code[k]? = some (link kind (target l - k)) := by
  induction xs generalizing p with
  | nil => exact absurd h List.not_mem_nil
  | cons x xs ih =>
    cases x with
    | ins i => exact ih linked.2 h
    | jump l' kind' =>
      rcases List.mem_cons.mp h with same | later
      · cases same
        exact linked.1
      · exact ih linked.2 later
    | label name => exact ih linked h

/-- Every position of the items holds an instruction of theirs or a jump. -/
theorem linked_at {code : List I} {p k : Nat} {xs : List (Item I K)}
    (linked : Linked link target code p xs) (low : p ≤ k) (high : k < p + size xs) :
    (∃ i, Item.ins i ∈ xs ∧ code[k]? = some i) ∨ ∃ l kind, (l, k, kind) ∈ jumps p xs := by
  induction xs generalizing p with
  | nil => exact absurd high (by simpa using low)
  | cons x xs ih =>
    rw [size_cons] at high
    cases x with
    | ins i =>
      obtain ⟨here, later⟩ := linked
      by_cases first : k = p
      · subst first
        exact Or.inl ⟨i, List.mem_cons_self, here⟩
      · rw [Item.size_ins] at high
        refine (ih later (by omega) (by omega)).imp_left ?_
        rintro ⟨j, inside, found⟩
        exact ⟨j, List.mem_cons_of_mem _ inside, found⟩
    | jump l kind =>
      obtain ⟨-, later⟩ := linked
      by_cases first : k = p
      · subst first
        exact Or.inr ⟨l, kind, List.mem_cons_self⟩
      · rw [Item.size_jump] at high
        refine (ih later (by omega) (by omega)).imp ?_ ?_
        · rintro ⟨j, inside, found⟩
          exact ⟨j, List.mem_cons_of_mem _ inside, found⟩
        · rintro ⟨l', kind', inside⟩
          exact ⟨l', kind', List.mem_cons_of_mem _ inside⟩
    | label name =>
      rw [Item.size_label, Nat.zero_add] at high
      refine (ih linked low high).imp_left ?_
      rintro ⟨j, inside, found⟩
      exact ⟨j, List.mem_cons_of_mem _ inside, found⟩

/-- The linked instructions, wherever they are put in a longer code, are the items. -/
theorem linked_resolve (before after : List I) (xs : List (Item I K)) :
    Linked link target (before ++ (resolve link target before.length xs ++ after))
      before.length xs := by
  induction xs generalizing before with
  | nil => trivial
  | cons x xs ih =>
    cases x with
    | ins i =>
      refine ⟨by simp [resolve], ?_⟩
      have h := ih (before ++ [i])
      simpa [resolve] using h
    | jump l k =>
      refine ⟨by simp [resolve], ?_⟩
      have h := ih (before ++ [link k (target l - before.length)])
      simpa [resolve] using h
    | label name => exact ih before

theorem labelled_iff {p : Nat} {xs : List (Item I K)} :
    Labelled target p xs ↔ ∀ name q, (name, q) ∈ labels p xs → target name = q := by
  induction xs generalizing p with
  | nil => simp [Labelled, labels]
  | cons x xs ih =>
    cases x with
    | ins i => exact ih
    | jump l k => exact ih
    | label n =>
      simp only [Labelled, labels, ih, List.mem_cons, Prod.mk.injEq]
      constructor
      · rintro ⟨here, rest⟩ name q (⟨rfl, rfl⟩ | later)
        · exact here
        · exact rest name q later
      · intro all
        exact ⟨all n p (Or.inl ⟨rfl, rfl⟩), fun name q later => all name q (Or.inr later)⟩

/-- Code moved to later positions, with its targets, is linked to the same instructions. -/
theorem resolve_shift (n p : Nat) (xs : List (Item I K)) :
    resolve link (fun l => n + target l) (n + p) xs = resolve link target p xs := by
  induction xs generalizing p with
  | nil => rfl
  | cons x xs ih =>
    have later := ih (p + 1)
    rw [← Nat.add_assoc] at later
    cases x with
    | ins i => rw [resolve, resolve, later]
    | jump l k =>
      have same : (n : Int) + target l - ((n + p : Nat) : Int) = target l - p := by omega
      rw [resolve, resolve, later, same]
    | label name => exact ih p

theorem labelled_shift (n p : Nat) (xs : List (Item I K)) (h : Labelled target p xs) :
    Labelled (fun l => n + target l) (n + p) xs := by
  induction xs generalizing p with
  | nil => trivial
  | cons x xs ih =>
    cases x with
    | ins i => exact ih (p + 1) h
    | jump l k => exact ih (p + 1) h
    | label name =>
      have here := h.1
      refine ⟨?_, ih p h.2⟩
      simp only
      omega

end Resolution

/-- The first position recorded for a label; `0` for one that is not there. -/
def firstPosition (xs : List (Item I K)) (name : String) : Int :=
  (((labels 0 xs).lookup name).getD 0 : Nat)

theorem lookup_of_nodup {β : Type} {entries : List (String × β)} {name : String} {b : β}
    (distinct : (entries.map Prod.fst).Nodup) (h : (name, b) ∈ entries) :
    entries.lookup name = some b := by
  induction entries with
  | nil => simp at h
  | cons e entries ih =>
    rw [List.map_cons, List.nodup_cons] at distinct
    rcases List.mem_cons.mp h with rfl | later
    · simp
    · have apart : name ≠ e.1 := by
        rintro rfl
        exact distinct.1 (List.mem_map.mpr ⟨_, later, rfl⟩)
      rw [show e = (e.1, e.2) from rfl, List.lookup_cons, beq_false_of_ne apart]
      exact ih distinct.2 later

/-- When no label is recorded twice, every label resolves to where it stands. -/
theorem labelled_firstPosition {xs : List (Item I K)} (distinct : (labelNames xs).Nodup) :
    Labelled (firstPosition xs) 0 xs := by
  rw [labelled_iff]
  intro name q h
  rw [← map_fst_labels 0] at distinct
  rw [firstPosition, lookup_of_nodup distinct h]
  rfl

/-- A label that is recorded somewhere has a first position, and that is one of its own. -/
theorem firstPosition_mem {xs : List (Item I K)} {name : String} (h : name ∈ labelNames xs) :
    ∃ q : Nat, (labels 0 xs).lookup name = some q ∧ firstPosition xs name = q := by
  rw [← map_fst_labels 0] at h
  cases hl : (labels 0 xs).lookup name with
  | none =>
    rw [List.lookup_eq_none_iff] at hl
    obtain ⟨e, he, rfl⟩ := List.mem_map.mp h
    simpa using hl e he
  | some q => exact ⟨q, rfl, by rw [firstPosition, hl]; rfl⟩

end LabelledCode
