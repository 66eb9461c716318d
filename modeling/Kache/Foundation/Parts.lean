import Mathlib.Data.List.TakeWhile

/-!
# Texts part by part

A text is split behind every symbol of a class (`splitInclusive`), so a part is a body without such
symbols and the one that ends it; only the last part may have none (`Closes`).
-/

namespace Kache.Parts

universe u

variable {α : Type u} {ends : α → Bool}

/-- `slice::split_inclusive`. -/
def splitInclusive (ends : α → Bool) : List α → List (List α)
  | [] => []
  | c :: rest =>
    if ends c then [c] :: splitInclusive ends rest
    else
      match splitInclusive ends rest with
      | [] => [[c]]
      | part :: parts => (c :: part) :: parts

/-- What ends a part before the rest of the text. -/
def Closes (ends : α → Bool) (tail text : List α) : Prop :=
  (∃ c, ends c = true ∧ tail = [c]) ∨ tail = [] ∧ text = []

/-- A text is empty, or a body, what ends it and a text. -/
theorem parts_induction (ends : α → Bool) {P : List α → Prop} (nil : P [])
    (part : ∀ body tail text, (∀ b ∈ body, ends b = false) → Closes ends tail text →
      body ++ tail ≠ [] → P text → P (body ++ (tail ++ text))) (text : List α) : P text := by
  induction hlen : text.length using Nat.strongRecOn generalizing text with
  | _ n ih =>
  rcases h : text.dropWhile (! ends ·) with _ | ⟨c, rest⟩
  · have free : ∀ b ∈ text, ends b = false := by simpa using List.dropWhile_eq_nil_iff.mp h
    rcases text with _ | ⟨b, text⟩
    · exact nil
    · have whole := part (b :: text) [] [] free (.inr ⟨rfl, rfl⟩) (by simp) nil
      rwa [List.append_nil, List.append_nil] at whole
  · have split := List.takeWhile_append_dropWhile (p := (! ends ·)) (l := text)
    rw [h] at split
    have stops : ends c = true := by simpa [h] using List.head?_dropWhile_not (! ends ·) text
    rw [← split]
    refine part _ [c] rest (fun b mem => by simpa using List.mem_takeWhile_imp mem)
      (.inl ⟨c, stops, rfl⟩) (by simp) (ih _ ?_ rest rfl)
    rw [← hlen, ← split, List.length_append, List.length_cons]
    omega

theorem splitInclusive_part {body tail text : List α} (free : ∀ b ∈ body, ends b = false)
    (closes : Closes ends tail text) (nonempty : body ++ tail ≠ []) :
    splitInclusive ends (body ++ (tail ++ text)) = (body ++ tail) :: splitInclusive ends text := by
  induction body with
  | nil =>
    rcases closes with ⟨c, stops, rfl⟩ | ⟨rfl, rfl⟩
    · exact if_pos stops
    · exact absurd rfl nonempty
  | cons b body ih =>
    obtain ⟨first, free⟩ := List.forall_mem_cons.mp free
    rw [List.cons_append, splitInclusive, if_neg (by simp [first])]
    by_cases more : body ++ tail = []
    · obtain ⟨rfl, rfl⟩ := List.append_eq_nil_iff.mp more
      rcases closes with ⟨c, -, wrong⟩ | ⟨-, rfl⟩
      · cases wrong
      · rfl
    · rw [ih free more]
      rfl

end Kache.Parts
