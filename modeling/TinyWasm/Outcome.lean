import Mathlib.Tactic.TypeStar

/-!
# Outcomes of programs that may trap

A program comes to a result, traps, or is stuck where its language gives it no
meaning. Programs follow one another up to the first trap. Two levels of one
design are compared by their outcomes: a trap for a trap, and a related result
for a result.
-/

inductive Outcome (α : Type*) where
  | stuck
  | trap
  | done (a : α)
  deriving DecidableEq

namespace Outcome

variable {α β γ δ : Type*}

/-- One program after the other, unless the first does not come to a result. -/
def andThen : Outcome α → (α → Outcome β) → Outcome β
  | stuck, _ => stuck
  | trap, _ => trap
  | done a, next => next a

def ofOption : Option α → Outcome α
  | none => stuck
  | some a => done a

@[simp] theorem andThen_done (a : Outcome α) : a.andThen done = a := by
  cases a <;> rfl

/-- Both programs trap, or both come to a result and these are related. -/
inductive Matches (R : α → β → Prop) : Outcome α → Outcome β → Prop where
  | trap : Matches R trap trap
  | done {a b} (related : R a b) : Matches R (done a) (done b)

/-- The second program does what the first says, if that has a meaning. -/
def Simulates (R : α → β → Prop) (a : Outcome α) (b : Outcome β) : Prop :=
  a ≠ stuck → Matches R a b

theorem Matches.mono {R S : α → β → Prop} {a : Outcome α} {b : Outcome β} (h : Matches R a b)
    (weaker : ∀ x y, R x y → S x y) : Matches S a b := by
  cases h with
  | trap => exact .trap
  | done related => exact .done (weaker _ _ related)

theorem Matches.andThen {R : α → β → Prop} {S : γ → δ → Prop} {a : Outcome α} {b : Outcome β}
    {f : α → Outcome γ} {g : β → Outcome δ} (first : Matches R a b)
    (second : ∀ x y, R x y → Matches S (f x) (g y)) : Matches S (a.andThen f) (b.andThen g) := by
  cases first with
  | trap => exact .trap
  | done related => exact second _ _ related

theorem Simulates.mono {R S : α → β → Prop} {a : Outcome α} {b : Outcome β} (h : Simulates R a b)
    (weaker : ∀ x y, R x y → S x y) : Simulates S a b := fun meaning => (h meaning).mono weaker

theorem Matches.simulates {R : α → β → Prop} {a : Outcome α} {b : Outcome β}
    (h : Matches R a b) : Simulates R a b := fun _ => h

theorem simulates_stuck (R : α → β → Prop) (b : Outcome β) : Simulates R stuck b :=
  fun meaning => absurd rfl meaning

theorem Simulates.andThen {R : α → β → Prop} {S : γ → δ → Prop} {a : Outcome α} {b : Outcome β}
    {f : α → Outcome γ} {g : β → Outcome δ} (first : Simulates R a b)
    (second : ∀ x y, R x y → Simulates S (f x) (g y)) :
    Simulates S (a.andThen f) (b.andThen g) := by
  intro meaning
  have known : a ≠ stuck := by
    rintro rfl
    exact meaning rfl
  cases first known with
  | trap => exact .trap
  | done related => exact second _ _ related meaning

theorem Matches.of_done {R : α → β → Prop} {a : α} {b : Outcome β} (h : Matches R (.done a) b) :
    ∃ b', b = .done b' ∧ R a b' := by
  cases h with
  | done related => exact ⟨_, rfl, related⟩

end Outcome
