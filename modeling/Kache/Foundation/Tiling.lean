import Mathlib.Data.List.Basic
import Mathlib.Logic.ExistsUnique

/-!
# Tilings

A list of spans, each an offset and a length, *tiles* an interval when the spans follow each
other without gap or overlap and none is empty.  Then every position is in one span only
(`Tiles.existsUnique`), and the slices the spans cut from a list are the list
(`Tiles.flatMap_slice`).
-/

namespace Kache

universe u

/-- The spans fill the interval from `start` to `stop` in order. -/
def Tiles : ℕ → List (ℕ × ℕ) → ℕ → Prop
  | start, [], stop => start = stop
  | start, (offset, length) :: rest, stop =>
    offset = start ∧ 0 < length ∧ Tiles (start + length) rest stop

/-- What a span cuts from a list. -/
def sliceOf {α : Type u} (l : List α) (span : ℕ × ℕ) : List α := (l.drop span.1).take span.2

namespace Tiles

variable {α : Type u} {start stop : ℕ} {spans : List (ℕ × ℕ)}

theorem le (h : Tiles start spans stop) : start ≤ stop := by
  induction spans generalizing start with
  | nil => exact Nat.le_of_eq h
  | cons span rest ih => exact Nat.le_trans (Nat.le_add_right _ _) (ih h.2.2)

/-- Every span lies inside. -/
theorem inside (h : Tiles start spans stop) {span : ℕ × ℕ} (mem : span ∈ spans) :
    start ≤ span.1 ∧ 0 < span.2 ∧ span.1 + span.2 ≤ stop := by
  induction spans generalizing start with
  | nil => cases mem
  | cons first rest ih =>
    obtain ⟨offset, positive, tail⟩ := h
    rcases List.mem_cons.mp mem with rfl | mem
    · exact ⟨Nat.le_of_eq offset.symm, positive, offset ▸ tail.le⟩
    · obtain ⟨after, positive, before⟩ := ih tail mem
      exact ⟨Nat.le_trans (Nat.le_add_right _ _) after, positive, before⟩

/-- **Every position is in exactly one span.** -/
theorem existsUnique (h : Tiles start spans stop) {position : ℕ} (low : start ≤ position)
    (high : position < stop) :
    ∃! k : ℕ, ∃ span : ℕ × ℕ, spans[k]? = some span ∧ span.1 ≤ position ∧
      position < span.1 + span.2 := by
  induction spans generalizing start with
  | nil =>
    have : start = stop := h
    omega
  | cons first rest ih =>
    obtain ⟨offset, length⟩ := first
    obtain ⟨rfl, -, tail⟩ := h
    by_cases here : position < offset + length
    · refine ⟨0, ⟨_, rfl, low, here⟩, ?_⟩
      rintro (_ | k) ⟨span, found, after, -⟩
      · rfl
      · have mem : span ∈ rest := List.mem_of_getElem? found
        have := (tail.inside mem).1
        omega
    · obtain ⟨k, ⟨span, found, bounds⟩, unique⟩ := ih tail (by omega)
      refine ⟨k + 1, ⟨span, found, bounds⟩, ?_⟩
      rintro (_ | j) ⟨other, there, bounds⟩
      · cases there
        exact absurd bounds.2 here
      · rw [unique j ⟨other, there, bounds⟩]

/-- **The slices are the list.** -/
theorem flatMap_slice {l : List α} (h : Tiles start spans l.length) :
    spans.flatMap (sliceOf l) = l.drop start := by
  induction spans generalizing start with
  | nil =>
    have whole : start = l.length := h
    rw [whole, List.drop_length]
    rfl
  | cons first rest ih =>
    obtain ⟨offset, length⟩ := first
    obtain ⟨rfl, -, tail⟩ := h
    rw [List.flatMap_cons, ih tail, sliceOf, ← List.drop_drop]
    exact List.take_append_drop length _

end Tiles

end Kache
