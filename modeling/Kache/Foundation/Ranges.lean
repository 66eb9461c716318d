import Mathlib.Data.Finset.Union
import Mathlib.Order.Interval.Finset.Nat

/-!
# Unions of ranges

The numbers that inclusive ranges cover, and how to count them in one pass over ranges sorted by
where they start: the range that is still open can only grow at its end (`Merged.extend`), and once
a range starts behind it nothing more is added to it (`Merged.next`).
-/

namespace Kache.Ranges

/-- The numbers covered by a list of inclusive ranges. -/
def covered (ranges : List (ℕ × ℕ)) : Finset ℕ :=
  ranges.toFinset.biUnion fun range => Finset.Icc range.1 range.2

theorem mem_covered {ranges : List (ℕ × ℕ)} {n : ℕ} :
    n ∈ covered ranges ↔ ∃ range ∈ ranges, range.1 ≤ n ∧ n ≤ range.2 := by
  simp [covered]

@[simp] theorem covered_nil : covered [] = ∅ := rfl

theorem covered_cons (range : ℕ × ℕ) (rest : List (ℕ × ℕ)) :
    covered (range :: rest) = Finset.Icc range.1 range.2 ∪ covered rest := by
  ext n
  simp [mem_covered]

theorem covered_eq_of_perm {ranges ranges' : List (ℕ × ℕ)} (perm : ranges.Perm ranges') :
    covered ranges = covered ranges' := by
  ext n
  simp only [mem_covered, perm.mem_iff]

theorem covered_subset_range {ranges : List (ℕ × ℕ)} {bound : ℕ}
    (below : ∀ range ∈ ranges, range.2 < bound) : covered ranges ⊆ Finset.range bound := by
  intro n mem
  obtain ⟨range, inside, -, last⟩ := mem_covered.mp mem
  exact Finset.mem_range.mpr (last.trans_lt (below range inside))

/-- The numbers seen are `count` numbers below the range still open, and the range. -/
def Merged (seen : Finset ℕ) (count first last : ℕ) : Prop :=
  ∃ closed : Finset ℕ, closed.card = count ∧ (∀ n ∈ closed, n < first) ∧ first ≤ last ∧
    seen = closed ∪ Finset.Icc first last

namespace Merged

variable {seen : Finset ℕ} {count first last a b : ℕ}

theorem single (ordered : a ≤ b) : Merged (Finset.Icc a b) 0 a b :=
  ⟨∅, rfl, fun _ no => absurd no (Finset.notMem_empty _), ordered, (Finset.empty_union _).symm⟩

theorem card (merged : Merged seen count first last) : seen.card = count + (last - first + 1) := by
  obtain ⟨closed, size, below, ordered, rfl⟩ := merged
  have apart : Disjoint closed (Finset.Icc first last) := by
    refine Finset.disjoint_left.mpr fun n inside mem => ?_
    exact absurd (Finset.mem_Icc.mp mem).1 (not_le.mpr (below n inside))
  rw [Finset.card_union_of_disjoint apart, size, Nat.card_Icc]
  omega

/-- A range that starts inside the open one. -/
theorem extend (merged : Merged seen count first last) (after : first ≤ a) (inside : a ≤ last) :
    Merged (seen ∪ Finset.Icc a b) count first (max last b) := by
  obtain ⟨closed, size, below, firstLast, rfl⟩ := merged
  refine ⟨closed, size, below, firstLast.trans (le_max_left _ _), ?_⟩
  rw [Finset.union_assoc]
  congr 1
  ext n
  simp only [Finset.mem_union, Finset.mem_Icc]
  omega

/-- A range that starts behind the open one. -/
theorem next (merged : Merged seen count first last) (behind : last < a) (ordered : a ≤ b) :
    Merged (seen ∪ Finset.Icc a b) (count + (last - first + 1)) a b := by
  refine ⟨seen, merged.card, fun n mem => ?_, ordered, rfl⟩
  obtain ⟨closed, -, below, firstLast, rfl⟩ := merged
  rcases Finset.mem_union.mp mem with old | recent
  · exact (below n old).trans_le (firstLast.trans behind.le)
  · exact (Finset.mem_Icc.mp recent).2.trans_lt behind

end Merged

end Kache.Ranges
