import Mathlib.Logic.Basic

/-!
# Chains of checks

Validation code is a sequence of guarded failures: bail out with an error, or go
on.  `bailIf` and `okOr` are the two forms a guard takes, and a chain that
succeeded is taken apart by `bind_eq_ok`, one guard at a time.
-/

namespace Kache

universe u v w

variable {ε : Type u} {α β : Type v}

/-- Fail with `e` when `bad` holds. -/
def bailIf (bad : Prop) [Decidable bad] (e : ε) : Except ε PUnit.{v + 1} :=
  if bad then .error e else .ok ⟨⟩

@[simp] theorem bailIf_eq_ok {bad : Prop} [Decidable bad] {e : ε} {u : PUnit.{v + 1}} :
    bailIf bad e = .ok u ↔ ¬ bad := by
  unfold bailIf
  split <;> simp_all

/-- The value, or the error that says there is none. -/
def okOr (e : ε) : Option α → Except ε α
  | none => .error e
  | some a => .ok a

@[simp] theorem okOr_eq_ok {e : ε} {o : Option α} {a : α} : okOr e o = .ok a ↔ o = some a := by
  cases o <;> simp [okOr]

/-- A chain succeeds when its first check does and the rest does after it. -/
theorem bind_eq_ok {first : Except ε α} {rest : α → Except ε β} {result : β} :
    (first >>= rest) = .ok result ↔ ∃ value, first = .ok value ∧ rest value = .ok result := by
  cases first <;> simp [bind, Except.bind]

theorem map_eq_ok {first : Except ε α} {f : α → β} {result : β} :
    first.map f = .ok result ↔ ∃ value, first = .ok value ∧ f value = result := by
  cases first <;> simp [Except.map]

/-- A check made for every element of a list. -/
theorem forM_eq_ok {γ : Type w} {items : List γ} {check : γ → Except ε PUnit.{v + 1}}
    {u : PUnit.{v + 1}} : items.forM check = .ok u ↔ ∀ item ∈ items, check item = .ok ⟨⟩ := by
  induction items with
  | nil => simp [pure, Except.pure]
  | cons item rest ih =>
    rw [List.forall_mem_cons, ← ih]
    cases hitem : check item <;> simp [List.forM, hitem, bind, Except.bind]

end Kache
