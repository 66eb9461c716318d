import Kache.Foundation.Parts
import Mathlib.Data.List.Chain
import Mathlib.Data.List.Infix
import Mathlib.Tactic.TypeStar

/-!
# Texts line by line

A text is split behind every separator (`splitInclusive`), so a line keeps the separator that ends
it and only the last one may have none.  `find` is the place where a pattern first stands.
-/

namespace Kache.Lines

universe u

variable {α : Type u} [DecidableEq α]

/-- `str::split_inclusive`. -/
def splitInclusive (sep : α) (text : List α) : List (List α) :=
  Parts.splitInclusive (fun c => c = sep) text

/-- `str::find`. -/
def find (pattern : List α) : List α → Option ℕ
  | [] => if pattern = [] then some 0 else none
  | c :: rest => if pattern <+: c :: rest then some 0 else (find pattern rest).map (· + 1)

/-! ## Lines -/

/-- A line with its separator. -/
def Whole (sep : α) (line : List α) : Prop := ∃ body, sep ∉ body ∧ line = body ++ [sep]

/-- A last line without one. -/
def Unended (sep : α) (line : List α) : Prop := line ≠ [] ∧ sep ∉ line

/-- A text is made of whole lines and a last one. -/
theorem lines_induction (sep : α) {P : List α → Prop} (nil : P [])
    (last : ∀ line, Unended sep line → P line)
    (whole : ∀ line text, Whole sep line → P text → P (line ++ text)) (text : List α) : P text := by
  refine Parts.parts_induction (fun c => decide (c = sep)) nil ?_ text
  intro body tail text free closes nonempty ih
  have none : sep ∉ body := fun mem => of_decide_eq_false (free sep mem) rfl
  rcases closes with ⟨c, stops, rfl⟩ | ⟨rfl, rfl⟩
  · cases of_decide_eq_true stops
    rw [← List.append_assoc]
    exact whole _ text ⟨body, none, rfl⟩ ih
  · rw [List.append_nil] at nonempty ⊢
    rw [List.append_nil]
    exact last body ⟨nonempty, none⟩

variable {sep : α}

theorem free_of_notMem {body : List α} (free : sep ∉ body) : ∀ b ∈ body, decide (b = sep) = false :=
  fun _ mem => decide_eq_false fun same => free (same ▸ mem)

theorem splitInclusive_whole {line : List α} (whole : Whole sep line) (text : List α) :
    splitInclusive sep (line ++ text) = line :: splitInclusive sep text := by
  obtain ⟨body, free, rfl⟩ := whole
  rw [List.append_assoc]
  exact Parts.splitInclusive_part (free_of_notMem free) (.inl ⟨sep, decide_eq_true rfl, rfl⟩)
    (by simp)

theorem splitInclusive_unended {line : List α} (unended : Unended sep line) :
    splitInclusive sep line = [line] := by
  have split := Parts.splitInclusive_part (free_of_notMem unended.2) (.inr ⟨rfl, rfl⟩)
    (by simpa using unended.1)
  rw [List.append_nil, List.append_nil] at split
  exact split

/-! ## The first place of a pattern -/

theorem find_singleton_append {c : α} {before : List α} (free : c ∉ before) (after : List α) :
    find [c] (before ++ c :: after) = some before.length := by
  induction before with
  | nil => exact if_pos (List.prefix_append [c] after)
  | cons d rest ih =>
    rw [List.mem_cons, not_or] at free
    have other : ¬ [c] <+: d :: (rest ++ c :: after) := fun begins =>
      free.1 (List.cons_prefix_cons.mp begins).1
    rw [List.cons_append, find, if_neg other, ih free.2]
    rfl

/-- A single symbol is not found, or found where it first stands. -/
theorem find_singleton_cases (c : α) (text : List α) :
    (find [c] text = none ∧ c ∉ text) ∨ ∃ before after, text = before ++ c :: after ∧
      c ∉ before := by
  by_cases mem : c ∈ text
  · obtain ⟨before, after, rfl, free⟩ := List.eq_append_cons_of_mem mem
    exact .inr ⟨before, after, rfl, free⟩
  · refine .inl ⟨?_, mem⟩
    induction text with
    | nil => rfl
    | cons d rest ih =>
      rw [List.mem_cons, not_or] at mem
      have other : ¬ [c] <+: d :: rest := fun begins => mem.1 (List.cons_prefix_cons.mp begins).1
      rw [find, if_neg other, ih mem.2]
      rfl

end Kache.Lines
