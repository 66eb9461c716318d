import Kache.Foundation.Run
import Mathlib.Data.List.Basic

/-!
# Processes over a shared state

A concurrent system here is a shared state and a list of processes, each with a
local state.  One step picks a process and an action: `transition p shared proc a`
is what process number `p` makes of them, atomically, or `none` when the action
is not one it can take.  The interleavings are the runs of `System.step`, whose
labels say which process moves.

* `System.step_eq_some` says once what a step can do.
* `Reaches.shared_invariant` is the invariant rule for a property of the shared
  state alone.
* `Reaches.local_invariant` is the rule for a property `I` of the shared state
  together with an assertion `J p` on every process: the process that moves
  re-establishes its own assertion, and must not break those of the others.
-/

namespace Kache

universe u v w

/-- A shared state and the local states of the processes over it. -/
structure System (σ : Type u) (π : Type v) where
  shared : σ
  procs : List π

namespace System

variable {σ : Type u} {π : Type v} {α : Type w}

/-- `n` processes in local state `proc` over `shared`. -/
def start (shared : σ) (proc : π) (n : ℕ) : System σ π := ⟨shared, List.replicate n proc⟩

/-- Process `a.1` takes action `a.2`. -/
def step (transition : ℕ → σ → π → α → Option (σ × π)) (s : System σ π) (a : ℕ × α) :
    Option (System σ π) :=
  s.procs[a.1]?.bind fun proc =>
    (transition a.1 s.shared proc a.2).map fun next => ⟨next.1, s.procs.set a.1 next.2⟩

/-- A process of the initial system. -/
theorem getElem?_start {shared : σ} {proc found : π} {n p : ℕ}
    (h : (start shared proc n).procs[p]? = some found) : p < n ∧ found = proc := by
  simp only [start, List.getElem?_replicate] at h
  split at h
  · next inside => exact ⟨inside, (Option.some.inj h).symm⟩
  · cases h

variable {transition : ℕ → σ → π → α → Option (σ × π)}

/-- **What a step can do.** -/
theorem step_eq_some {s s' : System σ π} {p : ℕ} {a : α} :
    step transition s (p, a) = some s' ↔
      ∃ proc next, s.procs[p]? = some proc ∧ transition p s.shared proc a = some next ∧
        s' = ⟨next.1, s.procs.set p next.2⟩ := by
  simp only [step, Option.bind_eq_some_iff, Option.map_eq_some_iff]
  constructor
  · rintro ⟨proc, hproc, next, hnext, rfl⟩
    exact ⟨proc, next, hproc, hnext, rfl⟩
  · rintro ⟨proc, next, hproc, hnext, rfl⟩
    exact ⟨proc, hproc, next, hnext, rfl⟩

/-- A process after a step is the one that moved, or one that did not. -/
theorem getElem?_set {procs : List π} {p q : ℕ} {proc after other : π}
    (moved : procs[p]? = some proc) (found : (procs.set p after)[q]? = some other) :
    (q = p ∧ other = after) ∨ (q ≠ p ∧ procs[q]? = some other) := by
  rw [List.getElem?_set] at found
  by_cases hq : p = q
  · subst hq
    have hlt : p < procs.length := (List.getElem?_eq_some_iff.mp moved).1
    rw [if_pos rfl, if_pos hlt] at found
    exact .inl ⟨rfl, (Option.some.inj found).symm⟩
  · rw [if_neg hq] at found
    exact .inr ⟨Ne.symm hq, found⟩

end System

namespace Reaches

variable {σ : Type u} {π : Type v} {α : Type w}
variable {transition : ℕ → σ → π → α → Option (σ × π)}
variable {allowed : System σ π → ℕ × α → Prop} {s₀ s : System σ π}

/-- **Invariants with assertions on processes.** -/
theorem local_invariant {I : σ → Prop} {J : ℕ → σ → π → Prop}
    (run : Reaches allowed (System.step transition) s₀ s) (init : I s₀.shared)
    (initProcs : ∀ p proc, s₀.procs[p]? = some proc → J p s₀.shared proc)
    (keeps : ∀ s p a proc next, s.procs[p]? = some proc → I s.shared →
      (∀ q other, s.procs[q]? = some other → J q s.shared other) → allowed s (p, a) →
      transition p s.shared proc a = some next →
        I next.1 ∧ J p next.1 next.2 ∧
          ∀ q other, q ≠ p → s.procs[q]? = some other → J q next.1 other) :
    I s.shared ∧ ∀ p proc, s.procs[p]? = some proc → J p s.shared proc := by
  refine run.invariant (I := fun s : System σ π =>
    I s.shared ∧ ∀ p proc, s.procs[p]? = some proc → J p s.shared proc) ⟨init, initProcs⟩ ?_
  rintro s ⟨p, a⟩ s' ⟨shared, assertions⟩ ok taken
  obtain ⟨proc, next, hproc, hnext, rfl⟩ := System.step_eq_some.mp taken
  obtain ⟨hshared, hown, hothers⟩ := keeps s p a proc next hproc shared assertions ok hnext
  refine ⟨hshared, fun q other found => ?_⟩
  -- the process that moved, or one that did not
  rcases System.getElem?_set hproc found with ⟨rfl, rfl⟩ | ⟨hq, hfound⟩
  · exact hown
  · exact hothers q other hq hfound

/-- Processes neither appear nor go. -/
theorem length_procs (run : Reaches allowed (System.step transition) s₀ s) :
    s.procs.length = s₀.procs.length := by
  refine run.invariant (I := fun s : System σ π => s.procs.length = s₀.procs.length) rfl ?_
  rintro s ⟨p, a⟩ s' same - taken
  obtain ⟨proc, next, -, -, rfl⟩ := System.step_eq_some.mp taken
  simpa using same

/-- **Invariants of the shared state.** -/
theorem shared_invariant {I : σ → Prop}
    (run : Reaches allowed (System.step transition) s₀ s) (init : I s₀.shared)
    (keeps : ∀ s p a proc next, s.procs[p]? = some proc → I s.shared → allowed s (p, a) →
      transition p s.shared proc a = some next → I next.1) : I s.shared := by
  refine (run.local_invariant (I := I) (J := fun _ _ _ => True) init (fun _ _ _ => trivial) ?_).1
  intro s p a proc next hproc shared _ ok hnext
  exact ⟨keeps s p a proc next hproc shared ok hnext, trivial, fun _ _ _ _ => trivial⟩

end Reaches

end Kache
