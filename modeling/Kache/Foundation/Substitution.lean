import Mathlib.Data.List.Basic

/-!
# Substitution in one pass

A text is read from left to right.  Where something matches, the match is replaced and reading goes
on behind it, in the text as it was; elsewhere one letter is kept.  What matches may depend on all
that stands before, so `Substituted hit before text result` keeps it in view:
`hit before text source target` says that at this place `source`, with which `text` begins, is
replaced by `target`.

The relation is a function when `hit` is (`Substituted.unique`), and letters at which nothing can
match are kept in bulk (`Substituted.skip`).
-/

namespace Kache

universe u

variable {α : Type u}

/-- `result` is what one pass over `text` gives, when `before` is behind it. -/
inductive Substituted (hit : List α → List α → List α → List α → Prop) :
    List α → List α → List α → Prop
  | nil (before : List α) : Substituted hit before [] []
  | replace {before source target rest result : List α} (nonempty : source ≠ [])
      (here : hit before (source ++ rest) source target)
      (next : Substituted hit (before ++ source) rest result) :
      Substituted hit before (source ++ rest) (target ++ result)
  | keep {before rest result : List α} {c : α}
      (none : ∀ source target, ¬ hit before (c :: rest) source target)
      (next : Substituted hit (before ++ [c]) rest result) :
      Substituted hit before (c :: rest) (c :: result)

namespace Substituted

variable {hit hit' : List α → List α → List α → List α → Prop} {before text result : List α}

/-- At each place there is at most one match. -/
def Functional (hit : List α → List α → List α → List α → Prop) : Prop :=
  ∀ ⦃before text source target source' target' : List α⦄, hit before text source target →
    hit before text source' target' → source = source' ∧ target = target'

/-- The result is unique if the match is. -/
theorem unique (functional : Functional hit) {result' : List α}
    (first : Substituted hit before text result)
    (second : Substituted hit before text result') : result = result' := by
  induction first generalizing result' with
  | nil before =>
    generalize empty : ([] : List α) = text at second
    cases second with
    | nil => rfl
    | replace nonempty => exact absurd (List.append_eq_nil_iff.mp empty.symm).1 nonempty
    | keep => cases empty
  | @replace before source target rest result nonempty here _ ih =>
    generalize same : source ++ rest = text at second
    cases second with
    | nil => exact absurd (List.append_eq_nil_iff.mp same).1 nonempty
    | @replace _ source' target' rest' _ _ here' next =>
      rw [← same] at here'
      obtain ⟨rfl, rfl⟩ := functional here here'
      obtain rfl := List.append_cancel_left same
      rw [ih next]
    | keep none => exact absurd (same ▸ here) (none _ _)
  | @keep before rest result c none _ ih =>
    generalize same : c :: rest = text at second
    cases second with
    | nil => cases same
    | replace _ here => exact absurd (same ▸ here) (none _ _)
    | keep _ next =>
      obtain ⟨rfl, rfl⟩ := List.cons_eq_cons.mp same
      rw [ih next]

/-- Letters at which nothing matches. -/
theorem skip {kept rest : List α}
    (none : ∀ front c back, kept = front ++ c :: back →
      ∀ source target, ¬ hit (before ++ front) (c :: back ++ rest) source target)
    (next : Substituted hit (before ++ kept) rest result) :
    Substituted hit before (kept ++ rest) (kept ++ result) := by
  induction kept generalizing before with
  | nil => simpa using next
  | cons c kept ih =>
    refine .keep (fun source target here => ?_) (ih (fun front d back split => ?_) ?_)
    · exact none [] c kept rfl source target (by simpa using here)
    · simpa using none (c :: front) d back (by rw [split, List.cons_append])
    · simpa using next

/-- Equal matches give equal results. -/
theorem congr (same : ∀ before text source target, hit before text source target ↔
    hit' before text source target)
    (pass : Substituted hit before text result) : Substituted hit' before text result := by
  induction pass with
  | nil before => exact .nil before
  | replace nonempty here _ ih => exact .replace nonempty ((same _ _ _ _).mp here) ih
  | keep none _ ih =>
    exact .keep (fun source target here => none source target ((same _ _ _ _).mpr here)) ih

end Substituted

end Kache
