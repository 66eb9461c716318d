import Mathlib.Logic.Basic

/-!
# Runs of a labelled transition system

The systems of this development are deterministic step functions with labels:
`step s a` is the state after action `a`, or `none` when `a` is not enabled in
`s`.  All nondeterminism — which process moves, what the environment answers —
is in the choice of labels.

`Reaches allowed step s₀ s` is a run from `s₀` to `s` whose every action was
`allowed` in the state it was taken in; an assumption of the environment and a
condition under which a property holds are both such a predicate.

* `Reaches.invariant` is the induction over a run, once and for all.
* `replay` executes a list of labels and checks `allowed` along the way, so that
  a concrete run is a computation (`exists_reaches_of_replay`).
-/

namespace Kache

universe u v

variable {σ : Type u} {α : Type v}

/-- States reachable by allowed actions. -/
inductive Reaches (allowed : σ → α → Prop) (step : σ → α → Option σ) (s₀ : σ) : σ → Prop where
  /-- The empty run. -/
  | refl : Reaches allowed step s₀ s₀
  /-- One more allowed step. -/
  | tail {s s' : σ} {a : α} : Reaches allowed step s₀ s → allowed s a →
      step s a = some s' → Reaches allowed step s₀ s'

namespace Reaches

variable {allowed : σ → α → Prop} {step : σ → α → Option σ} {s₀ s : σ}

/-- **Invariants.**  What holds initially and survives every allowed step holds
in every state of every run. -/
theorem invariant {I : σ → Prop} (run : Reaches allowed step s₀ s) (init : I s₀)
    (keeps : ∀ s a s', I s → allowed s a → step s a = some s' → I s') : I s := by
  induction run with
  | refl => exact init
  | tail _ ok taken ih => exact keeps _ _ _ ih ok taken

/-- Runs compose. -/
theorem trans {s' : σ} (run : Reaches allowed step s₀ s) (rest : Reaches allowed step s s') :
    Reaches allowed step s₀ s' :=
  rest.invariant run fun _ _ _ before ok taken => .tail before ok taken

end Reaches

/-- Execute a list of actions; `none` when one is not allowed or not enabled. -/
def replay (allowed : σ → α → Prop) [∀ s a, Decidable (allowed s a)]
    (step : σ → α → Option σ) : σ → List α → Option σ
  | s, [] => some s
  | s, a :: rest =>
    if allowed s a then (step s a).bind fun s' => replay allowed step s' rest else none

section Replay

variable {allowed : σ → α → Prop} [∀ s a, Decidable (allowed s a)]
variable {step : σ → α → Option σ} {s₀ : σ}

/-- What a replay computes, a run reaches. -/
theorem Reaches.of_replay {s t : σ} (run : Reaches allowed step s₀ s) {trace : List α}
    (done : replay allowed step s trace = some t) : Reaches allowed step s₀ t := by
  induction trace generalizing s with
  | nil =>
    simp only [replay, Option.some.injEq] at done
    exact done ▸ run
  | cons a rest ih =>
    simp only [replay] at done
    split at done
    · next ok =>
      obtain ⟨s', taken, done⟩ := Option.bind_eq_some_iff.mp done
      exact ih (.tail run ok taken) done
    · exact absurd done (by simp)

/-- A replay whose end satisfies a test is a run to a state that satisfies it. -/
theorem exists_reaches_of_replay (allowed : σ → α → Prop) [∀ s a, Decidable (allowed s a)]
    (step : σ → α → Option σ) (s₀ : σ) (trace : List α) (test : σ → Bool)
    (done : (replay allowed step s₀ trace).map test = some true) :
    ∃ s, Reaches allowed step s₀ s ∧ test s = true := by
  obtain ⟨s, hs, htest⟩ := Option.map_eq_some_iff.mp done
  exact ⟨s, Reaches.of_replay .refl hs, htest⟩

end Replay

end Kache
