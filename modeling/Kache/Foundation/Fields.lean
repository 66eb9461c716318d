import Mathlib.Data.List.Basic
import Mathlib.Tactic.TypeStar

/-!
# The fields of a text

What stands between the separators of a text, without the empty pieces that repeated separators
leave.
-/

namespace Kache

variable {α : Type*} {isSep : α → Bool}

/-- The pieces between separators that are not empty. -/
def fieldsOf (isSep : α → Bool) (text : List α) : List (List α) :=
  (text.splitOnP isSep).filter fun piece => !piece.isEmpty

theorem fieldsOf_append_cons {sep : α} (separates : isSep sep = true) (front back : List α) :
    fieldsOf isSep (front ++ sep :: back) = fieldsOf isSep front ++ fieldsOf isSep back := by
  rw [fieldsOf, List.splitOnP_append_cons front back separates, List.filter_append,
    fieldsOf, fieldsOf]

/-- No piece has a separator in it. -/
theorem forall_of_mem_splitOnP {text piece : List α} (mem : piece ∈ text.splitOnP isSep) :
    ∀ c ∈ piece, isSep c = false := by
  induction text generalizing piece with
  | nil =>
    rw [List.splitOnP_nil, List.mem_singleton] at mem
    subst mem
    exact fun c inside => absurd inside List.not_mem_nil
  | cons d rest ih =>
    rw [List.splitOnP_cons_eq_if_modifyHead] at mem
    split at mem
    · rcases List.mem_cons.mp mem with rfl | later
      · exact fun c inside => absurd inside List.not_mem_nil
      · exact ih later
    next plain =>
      obtain ⟨first, others, shape⟩ := List.exists_cons_of_ne_nil (List.splitOnP_ne_nil isSep rest)
      rw [shape] at mem ih
      rcases List.mem_cons.mp mem with rfl | later
      · refine List.forall_mem_cons.mpr ⟨Bool.eq_false_iff.mpr plain, ?_⟩
        exact ih List.mem_cons_self
      · exact ih (List.mem_cons_of_mem first later)

/-- A piece without separators is one field. -/
theorem fieldsOf_plain {piece : List α} (nonempty : piece ≠ [])
    (plain : ∀ c ∈ piece, isSep c = false) : fieldsOf isSep piece = [piece] := by
  rw [fieldsOf, List.splitOnP_eq_singleton plain]
  simp [nonempty]

end Kache
