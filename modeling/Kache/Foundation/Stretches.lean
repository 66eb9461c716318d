import Mathlib.Data.List.DropRight
import Mathlib.Data.List.Basic

/-!
# Stretches of a list

A predicate cuts a list into its maximal stretches of elements that satisfy it.  The list around
one position is written `pre ++ (stretch ++ post)`: `pre` does not end, and `post` does not begin,
with an element that satisfies the predicate.
-/

namespace Kache

variable {α : Type*} {p : α → Bool}

/-- The maximal stretches of `p` in order, with an empty one between two neighbours that fail it. -/
def stretches (p : α → Bool) (l : List α) : List (List α) := l.splitOnP fun c => !p c

/-- The list is empty or ends with an element that fails `p`. -/
def ClosesOff (p : α → Bool) (l : List α) : Prop := ∀ c ∈ l.getLast?, p c = false

/-- The list is empty or begins with an element that fails `p`. -/
def CutsOff (p : α → Bool) (l : List α) : Prop := ∀ c ∈ l.head?, p c = false

instance (l : List α) : Decidable (ClosesOff p l) :=
  inferInstanceAs (Decidable (∀ c ∈ l.getLast?, p c = false))

instance (l : List α) : Decidable (CutsOff p l) :=
  inferInstanceAs (Decidable (∀ c ∈ l.head?, p c = false))

theorem cutsOff_nil : CutsOff p [] := fun _ mem => absurd mem (by simp)

theorem cutsOff_cons {c : α} {l : List α} : CutsOff p (c :: l) ↔ p c = false := by
  simp [CutsOff]

theorem CutsOff.append {l : List α} (cuts : CutsOff p l) (nonempty : l ≠ []) (rest : List α) :
    CutsOff p (l ++ rest) := by
  intro c mem
  rw [List.head?_append_of_ne_nil l nonempty] at mem
  exact cuts c mem

theorem ClosesOff.append {l : List α} (closes : ClosesOff p l) (nonempty : l ≠ [])
    (front : List α) : ClosesOff p (front ++ l) := by
  intro c mem
  rw [List.getLast?_append_of_ne_nil front nonempty] at mem
  exact closes c mem

theorem closesOff_rdropWhile (l : List α) : ClosesOff p (l.rdropWhile p) := by
  intro c mem
  have nonempty : l.rdropWhile p ≠ [] := fun none => by simp [none] at mem
  have failing := List.rdropWhile_last_not p l nonempty
  rw [List.getLast?_eq_some_getLast nonempty] at mem
  rw [← Option.mem_some_iff.mp mem]
  exact Bool.eq_false_iff.mpr failing

theorem cutsOff_dropWhile (l : List α) : CutsOff p (l.dropWhile p) := by
  intro c mem
  have failing := List.head?_dropWhile_not p l
  rw [Option.mem_def.mp mem] at failing
  exact failing

/-- What `p` lets through before a list that cuts it off. -/
theorem takeWhile_stretch {stretch post : List α} (inside : ∀ c ∈ stretch, p c = true)
    (cuts : CutsOff p post) : (stretch ++ post).takeWhile p = stretch := by
  rw [List.takeWhile_append_of_pos inside]
  cases post with
  | nil => simp
  | cons c rest => simp [cutsOff_cons.mp cuts]

/-- The stretches of a list begin with those of a part that closes off. -/
theorem exists_stretches_append {pre : List α} (closes : ClosesOff p pre) :
    ∃ front, ∀ l, stretches p (pre ++ l) = front ++ stretches p l := by
  rcases List.eq_nil_or_concat' pre with rfl | ⟨init, c, rfl⟩
  · exact ⟨[], fun l => rfl⟩
  · have fails : p c = false := closes c (by simp)
    refine ⟨stretches p init, fun l => ?_⟩
    rw [stretches, List.append_assoc, List.singleton_append,
      List.splitOnP_append_cons init l (by simp [fails])]
    rfl

/-- A stretch in front of a list that cuts it off is the first one, in the place of an empty one. -/
theorem exists_stretches_cons {post : List α} (cuts : CutsOff p post) :
    ∃ back, ∀ stretch, (∀ c ∈ stretch, p c = true) →
      stretches p (stretch ++ post) = stretch :: back := by
  cases post with
  | nil =>
    refine ⟨[], fun stretch inside => ?_⟩
    rw [List.append_nil, stretches, List.splitOnP_eq_singleton fun c mem => by simp [inside c mem]]
  | cons c rest =>
    have fails := cutsOff_cons.mp cuts
    refine ⟨stretches p rest, fun stretch inside => ?_⟩
    rw [stretches, List.splitOnP_append_cons stretch rest (by simp [fails]),
      List.splitOnP_eq_singleton fun c mem => by simp [inside c mem]]
    rfl

/-- A text whose elements all satisfy `p` is not found across the end of a stretch. -/
theorem isPrefixOf_stretch [BEq α] [LawfulBEq α] {text stretch post : List α}
    (plain : ∀ c ∈ text, p c = true) (cuts : CutsOff p post) :
    text.isPrefixOf (stretch ++ post) = text.isPrefixOf stretch := by
  induction text generalizing stretch with
  | nil => simp
  | cons t text ih =>
    obtain ⟨here, others⟩ := List.forall_mem_cons.mp plain
    cases stretch with
    | cons c stretch => simp [List.isPrefixOf_cons_cons, ih others]
    | nil =>
      cases post with
      | nil => rfl
      | cons c rest =>
        have differ : t ≠ c := by
          rintro rfl
          exact absurd here (Bool.eq_false_iff.mp (cutsOff_cons.mp cuts))
        simp [List.isPrefixOf_cons_cons, differ]

/-- Where two lists part. -/
theorem parting (left right : List α) : left <+: right ∨ right <+: left ∨
    ∃ common b c l r, left = common ++ b :: l ∧ right = common ++ c :: r ∧ b ≠ c := by
  induction left generalizing right with
  | nil => exact .inl <| List.nil_prefix
  | cons b left ih =>
    cases right with
    | nil => exact .inr <| .inl <| List.nil_prefix
    | cons c right =>
      by_cases same : b = c
      · subst same
        rcases ih right with within | within | ⟨common, b', c', l, r, rfl, rfl, differ⟩
        · exact .inl ((List.prefix_cons_inj b).mpr within)
        · exact .inr (.inl ((List.prefix_cons_inj b).mpr within))
        · exact .inr (.inr ⟨b :: common, b', c', l, r, rfl, rfl, differ⟩)
      · exact .inr (.inr ⟨[], b, c, left, right, rfl, rfl, same⟩)

end Kache
