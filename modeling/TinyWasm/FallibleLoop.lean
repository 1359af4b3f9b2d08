import Mathlib.Tactic.TypeStar

/-!
# Loops whose turns may fail

`l.foldlM turn s` runs `turn` on the entries of a list, and stops at the first
turn that fails. An invariant of such a loop speaks of the state and of the
entries still to come.
-/

namespace FallibleLoop

variable {α σ ε : Type*} {turn : σ → α → Except ε σ} {Inv : List α → σ → Prop}

theorem foldlM_cons_ok {a : α} {rest : List α} {s t : σ} :
    (a :: rest).foldlM turn s = .ok t ↔ ∃ u, turn s a = .ok u ∧ rest.foldlM turn u = .ok t := by
  rw [List.foldlM_cons]
  cases turn s a with
  | error e =>
    constructor
    · intro done
      cases done
    · rintro ⟨u, first, -⟩
      cases first
  | ok u =>
    constructor
    · intro done
      exact ⟨u, rfl, done⟩
    · rintro ⟨v, first, done⟩
      cases first
      exact done

/-- What each turn keeps holds at the end. -/
theorem foldlM_keeps (keeps : ∀ a rest s t, Inv (a :: rest) s → turn s a = .ok t → Inv rest t)
    {l : List α} {s t : σ} (start : Inv l s) (done : l.foldlM turn s = .ok t) : Inv [] t := by
  induction l generalizing s with
  | nil =>
    cases done
    exact start
  | cons a rest ih =>
    obtain ⟨u, first, done⟩ := foldlM_cons_ok.mp done
    exact ih (keeps a rest s u start first) done

/-- Another loop ends where this one does, if its turns do on the way. -/
theorem foldlM_follows {turn' : σ → α → Except ε σ}
    (keeps : ∀ a rest s t, Inv (a :: rest) s → turn s a = .ok t → Inv rest t)
    (follows : ∀ a rest s t, Inv (a :: rest) s → turn s a = .ok t → turn' s a = .ok t)
    {l : List α} {s t : σ} (start : Inv l s) (done : l.foldlM turn s = .ok t) :
    l.foldlM turn' s = .ok t := by
  induction l generalizing s with
  | nil => exact done
  | cons a rest ih =>
    obtain ⟨u, first, done⟩ := foldlM_cons_ok.mp done
    have later := ih (keeps a rest s u start first) done
    exact foldlM_cons_ok.mpr ⟨u, follows a rest s u start first, later⟩

/-- A loop gets to its end exactly when no turn fails, where the entry alone decides about that. -/
theorem foldlM_completes_iff {Good : α → Prop}
    (keeps : ∀ a rest s t, Inv (a :: rest) s → turn s a = .ok t → Inv rest t)
    (decides : ∀ a rest s, Inv (a :: rest) s → ((∃ t, turn s a = .ok t) ↔ Good a))
    {l : List α} {s : σ} (start : Inv l s) :
    (∃ t, l.foldlM turn s = .ok t) ↔ ∀ a ∈ l, Good a := by
  induction l generalizing s with
  | nil => exact ⟨fun _ a inside => absurd inside List.not_mem_nil, fun _ => ⟨s, rfl⟩⟩
  | cons a rest ih =>
    rw [List.forall_mem_cons]
    constructor
    · rintro ⟨t, done⟩
      obtain ⟨u, first, done⟩ := foldlM_cons_ok.mp done
      exact ⟨(decides a rest s start).mp ⟨u, first⟩,
        (ih (keeps a rest s u start first)).mp ⟨t, done⟩⟩
    · rintro ⟨here, later⟩
      obtain ⟨u, first⟩ := (decides a rest s start).mpr here
      obtain ⟨t, done⟩ := (ih (keeps a rest s u start first)).mpr later
      exact ⟨t, foldlM_cons_ok.mpr ⟨u, first, done⟩⟩

/-! ### Turns on one entry each -/

section
variable {κ ρ : Type*} [DecidableEq κ] {key : α → κ} {get : σ → κ → ρ} {own : ρ → α → Except ε ρ}

/-- A turn does to the entry of its key what `own` does, fails if that fails, and leaves the other
entries alone. -/
structure Touches (turn : σ → α → Except ε σ) (key : α → κ) (get : σ → κ → ρ)
    (own : ρ → α → Except ε ρ) : Prop where
  does : ∀ {s a t}, turn s a = .ok t → own (get s (key a)) a = .ok (get t (key a))
  leaves : ∀ {s a t}, turn s a = .ok t → ∀ k, k ≠ key a → get t k = get s k
  completes : ∀ {s a r}, own (get s (key a)) a = .ok r → ∃ t, turn s a = .ok t

/-- Each entry has been through the turns of its key. -/
theorem Touches.run (touches : Touches turn key get own) {l : List α} {s t : σ}
    (done : l.foldlM turn s = .ok t) (k : κ) :
    (l.filter fun a => key a = k).foldlM own (get s k) = .ok (get t k) := by
  induction l generalizing s with
  | nil =>
    cases done
    rfl
  | cons a rest ih =>
    obtain ⟨u, first, done⟩ := foldlM_cons_ok.mp done
    by_cases here : key a = k
    · subst here
      rw [List.filter_cons_of_pos (by simp)]
      exact foldlM_cons_ok.mpr ⟨_, touches.does first, ih done⟩
    · rw [List.filter_cons_of_neg (by simpa using here), ← touches.leaves first k (Ne.symm here)]
      exact ih done

/-- A loop gets to its end exactly when for each key the loop of its own turns does. -/
theorem Touches.completes_iff (touches : Touches turn key get own) {l : List α} {s : σ} :
    (∃ t, l.foldlM turn s = .ok t) ↔
      ∀ k, ∃ r, (l.filter fun a => key a = k).foldlM own (get s k) = .ok r := by
  constructor
  · rintro ⟨t, done⟩ k
    exact ⟨get t k, touches.run done k⟩
  · intro each
    induction l generalizing s with
    | nil => exact ⟨s, rfl⟩
    | cons a rest ih =>
      obtain ⟨last, done⟩ := each (key a)
      rw [List.filter_cons_of_pos (by simp)] at done
      obtain ⟨r, first, later⟩ := foldlM_cons_ok.mp done
      obtain ⟨u, turned⟩ := touches.completes first
      obtain rfl : r = get u (key a) := Except.ok.inj (first.symm.trans (touches.does turned))
      obtain ⟨t, done⟩ := ih (s := u) fun k => by
        by_cases here : k = key a
        · subst here
          exact ⟨last, later⟩
        · obtain ⟨other, done⟩ := each k
          rw [List.filter_cons_of_neg (by simpa using Ne.symm here)] at done
          exact ⟨other, by rwa [touches.leaves turned k here]⟩
      exact ⟨t, foldlM_cons_ok.mpr ⟨u, turned, done⟩⟩

end

end FallibleLoop
