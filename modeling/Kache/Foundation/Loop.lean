import Mathlib.Data.List.Basic

/-!
# Loops over a list

`Loop R l s t`: a loop over the items of `l` takes `s` to `t`, where `R a s t` is what
its body can do at item `a`.  Folds are loops, also those that can fail, so what is
proved of a loop does not depend on how it is written.
-/

namespace Kache

universe u v w

variable {α : Type u} {σ : Type v}

/-- The iterations of a loop. -/
inductive Loop (R : α → σ → σ → Prop) : List α → σ → σ → Prop
  | nil (s : σ) : Loop R [] s s
  | cons {a : α} {l : List α} {s t u : σ} : R a s t → Loop R l t u → Loop R (a :: l) s u

namespace Loop

variable {R : α → σ → σ → Prop} {l : List α} {s t : σ}

/-- A fold is a loop. -/
theorem foldl {f : σ → α → σ} (body : ∀ s, ∀ a ∈ l, R a s (f s a)) (s : σ) :
    Loop R l s (l.foldl f s) := by
  induction l generalizing s with
  | nil => exact .nil s
  | cons a l ih =>
    exact .cons (body s a List.mem_cons_self)
      (ih (fun s b mem => body s b (List.mem_cons_of_mem a mem)) (f s a))

/-- The same for a fold that may give nothing. -/
theorem foldlM_option {f : σ → α → Option σ} (body : ∀ s t, ∀ a ∈ l, f s a = some t → R a s t)
    (done : l.foldlM f s = some t) : Loop R l s t := by
  induction l generalizing s with
  | nil =>
    cases done
    exact .nil _
  | cons a l ih =>
    rw [List.foldlM_cons] at done
    obtain ⟨next, first, rest⟩ := Option.bind_eq_some_iff.mp done
    exact .cons (body s next a List.mem_cons_self first)
      (ih (fun s t b mem => body s t b (List.mem_cons_of_mem a mem)) rest)

/-- **Loop invariants.** -/
theorem invariant {I : σ → Prop} (loop : Loop R l s t) (init : I s)
    (keeps : ∀ a ∈ l, ∀ s t, I s → R a s t → I t) : I t := by
  induction loop with
  | nil s => exact init
  | @cons a l s t u body _ ih =>
    exact ih (keeps a List.mem_cons_self s t init body)
      fun b mem => keeps b (List.mem_cons_of_mem a mem)

end Loop

/-! ## Loops that break -/

/-- A loop over a list that may break before an item. -/
def untilBreak (ends : α → σ → Bool) (body : α → σ → σ) : List α → σ → σ
  | [], s => s
  | a :: l, s => if ends a s then s else untilBreak ends body l (body a s)

section UntilBreak

variable {ends : α → σ → Bool} {body : α → σ → σ}

/-- Where it does not depend on the item whether the loop breaks, a loop goes on where it was
left. -/
theorem untilBreak_append (uniform : ∀ a b s, ends a s = ends b s) (l m : List α) (s : σ) :
    untilBreak ends body (l ++ m) s = untilBreak ends body m (untilBreak ends body l s) := by
  induction l generalizing s with
  | nil => rfl
  | cons a l ih =>
    rw [List.cons_append, untilBreak, untilBreak]
    by_cases broken : ends a s = true
    · rw [if_pos broken, if_pos broken]
      cases m with
      | nil => rfl
      | cons b m => rw [untilBreak, uniform b a, if_pos broken]
    · rw [if_neg broken, if_neg broken, ih]

/-- **Invariants of a loop that may break.** -/
theorem untilBreak_invariant {I : σ → Prop} {l : List α} {s : σ} (init : I s)
    (keeps : ∀ a ∈ l, ∀ s, I s → ends a s = false → I (body a s)) :
    I (untilBreak ends body l s) := by
  induction l generalizing s with
  | nil => exact init
  | cons a l ih =>
    rw [untilBreak]
    by_cases broken : ends a s = true
    · rw [if_pos broken]
      exact init
    · rw [if_neg broken]
      exact ih (keeps a List.mem_cons_self s init (Bool.eq_false_iff.mpr broken))
        fun b mem => keeps b (List.mem_cons_of_mem a mem)

end UntilBreak

/-! ## Loops that return -/

/-- A `loop` whose body returns a value or goes on in another state, for so many rounds. -/
def untilReturn {β : Type w} (body : σ → β ⊕ σ) : ℕ → σ → Option β
  | 0, _ => none
  | rounds + 1, s => (body s).elim some (untilReturn body rounds)

section UntilReturn

variable {β : Type w} {body : σ → β ⊕ σ} {size : σ → ℕ}

/-- A loop whose body shrinks the state returns. -/
theorem untilReturn_isSome (shrinks : ∀ s t, body s = .inr t → size t < size s) {rounds : ℕ} {s : σ}
    (enough : size s < rounds) : (untilReturn body rounds s).isSome = true := by
  induction rounds generalizing s with
  | zero => exact absurd enough (Nat.not_lt_zero _)
  | succ rounds ih =>
    rw [untilReturn]
    cases first : body s with
    | inl value => rfl
    | inr next =>
      have smaller := shrinks s next first
      exact ih (by omega)

/-- More rounds than the loop takes change nothing. -/
theorem untilReturn_stable {rounds more : ℕ} {s : σ} {value : β}
    (returned : untilReturn body rounds s = some value) (within : rounds ≤ more) :
    untilReturn body more s = some value := by
  induction rounds generalizing s more with
  | zero => cases returned
  | succ rounds ih =>
    obtain ⟨more, rfl⟩ : ∃ k, more = k + 1 := ⟨more - 1, by omega⟩
    rw [untilReturn] at returned ⊢
    cases first : body s with
    | inl early =>
      rw [first] at returned
      exact returned
    | inr next =>
      rw [first] at returned
      exact ih returned (by omega)

end UntilReturn

end Kache
