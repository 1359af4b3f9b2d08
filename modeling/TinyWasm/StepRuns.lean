import Mathlib.Tactic

/-!
# Runs of a deterministic machine

A machine is a partial step function. A run carries the states it steps from,
in order. A run that has stopped is the only one there is, and every other run
from the same state is a part of it.
-/

namespace StepRuns

variable {σ : Type}

/-- `Run step s trace t`: the machine goes from `s` to `t`, stepping from each state of
the trace. -/
inductive Run (step : σ → Option σ) : σ → List σ → σ → Prop where
  | nil (s : σ) : Run step s [] s
  | cons {s t u : σ} {trace : List σ} (first : step s = some t) (rest : Run step t trace u) :
      Run step s (s :: trace) u

/-- A run that has stopped. -/
def Complete (step : σ → Option σ) (s : σ) (trace : List σ) (t : σ) : Prop :=
  Run step s trace t ∧ step t = none

variable {step : σ → Option σ}

theorem Run.one {s t : σ} (h : step s = some t) : Run step s [s] t := .cons h (.nil t)

theorem Run.append {s t u : σ} {first second : List σ} (h : Run step s first t)
    (h' : Run step t second u) : Run step s (first ++ second) u := by
  induction h with
  | nil s => exact h'
  | cons next rest ih => exact .cons next (ih h')

/-- Of two runs from one state, one that has stopped goes at least as far. -/
theorem Run.part_of {s t u : σ} {trace whole : List σ} (h : Run step s trace t)
    (complete : Complete step s whole u) :
    ∃ rest, whole = trace ++ rest ∧ Complete step t rest u := by
  induction h generalizing whole with
  | nil s => exact ⟨whole, rfl, complete⟩
  | @cons s t' t trace next rest ih =>
    obtain ⟨run, stopped⟩ := complete
    cases run with
    | nil =>
      rw [stopped] at next
      exact nomatch next
    | @cons _ t'' _ whole first later =>
      rw [next] at first
      cases first
      obtain ⟨tail, rfl, done⟩ := ih ⟨later, stopped⟩
      exact ⟨tail, rfl, done⟩

/-- Of two runs from one state, one is a part of the other. -/
theorem Run.comparable {s t u : σ} {trace trace' : List σ} (h : Run step s trace t)
    (h' : Run step s trace' u) : trace <+: trace' ∨ trace' <+: trace := by
  induction h generalizing trace' with
  | nil s => exact Or.inl (List.nil_prefix)
  | @cons s t' t trace next rest ih =>
    cases h' with
    | nil => exact Or.inr (List.nil_prefix)
    | @cons _ t'' _ trace' first later =>
      rw [next] at first
      cases first
      exact (ih later).imp (List.prefix_cons_inj s).mpr (List.prefix_cons_inj s).mpr

theorem Complete.unique {s t u : σ} {trace trace' : List σ} (h : Complete step s trace t)
    (h' : Complete step s trace' u) : trace = trace' ∧ t = u := by
  obtain ⟨rest, rfl, run, -⟩ := h.1.part_of h'
  cases run with
  | nil => exact ⟨(List.append_nil _).symm, rfl⟩
  | cons next _ =>
    rw [h.2] at next
    exact nomatch next

theorem Run.complete {s t u : σ} {first second : List σ} (h : Run step s first t)
    (h' : Complete step t second u) : Complete step s (first ++ second) u :=
  ⟨h.append h'.1, h'.2⟩

/-- Two runs that leave a region for the first time are the same. -/
theorem Run.exit_unique {P : σ → Prop} {s t u : σ} {trace trace' : List σ}
    (h : Run step s trace t) (inside : ∀ x ∈ trace, P x) (outside : ¬ P t)
    (h' : Run step s trace' u) (inside' : ∀ x ∈ trace', P x) (outside' : ¬ P u) : t = u := by
  induction h generalizing trace' with
  | nil s =>
    cases h' with
    | nil => rfl
    | cons _ _ => exact absurd (inside' _ List.mem_cons_self) outside
  | @cons s t' t trace next rest ih =>
    cases h' with
    | nil => exact absurd (inside _ List.mem_cons_self) outside'
    | @cons _ t'' _ trace' next' rest' =>
      rw [next] at next'
      cases next'
      exact ih (fun x hx => inside x (List.mem_cons_of_mem _ hx)) outside rest'
        fun x hx => inside' x (List.mem_cons_of_mem _ hx)

/-- A run inside a region is a part of every run that leaves it. -/
theorem Run.part_of_exit {P : σ → Prop} {s t u : σ} {trace whole : List σ}
    (h : Run step s trace t) (inside : ∀ x ∈ trace, P x) (exit : Run step s whole u)
    (outside : ¬ P u) : ∃ rest, whole = trace ++ rest := by
  induction h generalizing whole with
  | nil s => exact ⟨whole, rfl⟩
  | @cons s t' t trace next rest ih =>
    cases exit with
    | nil => exact absurd (inside _ List.mem_cons_self) outside
    | @cons _ t'' _ whole first later =>
      rw [next] at first
      cases first
      obtain ⟨tail, rfl⟩ := ih (fun x hx => inside x (List.mem_cons_of_mem _ hx)) later
      exact ⟨tail, rfl⟩

/-- What holds at every state of a run that has stopped holds at every state of every run. -/
theorem forall_of_complete {P : σ → Prop} {s u : σ} {whole : List σ}
    (complete : Complete step s whole u) (all : ∀ x ∈ whole, P x) {t : σ} {trace : List σ}
    (h : Run step s trace t) : ∀ x ∈ trace, P x := by
  obtain ⟨rest, rfl, -⟩ := h.part_of complete
  exact fun x hx => all x (List.mem_append_left _ hx)

/-- A machine that embeds step by step into another has the runs of the other. -/
theorem Run.mono {other : σ → Option σ} (embed : ∀ s t, step s = some t → other s = some t)
    {s t : σ} {trace : List σ} (h : Run step s trace t) : Run other s trace t := by
  induction h with
  | nil s => exact .nil s
  | cons next rest ih => exact .cons (embed _ _ next) ih

end StepRuns
