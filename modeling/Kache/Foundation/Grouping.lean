import Mathlib.Data.List.Induction
import Mathlib.Data.List.Perm.Lattice
import Mathlib.Order.MinMax

/-!
# Grouping in one pass

One pass over a list that keeps, for each group, how many items fell into it and the least value
among them.  The items that fall into no group are passed over.  What the pass has found does not
depend on the order of the list.
-/

namespace Kache

universe u v w

/-- What the pass has found, group by group. -/
structure Groups (κ : Type v) (τ : Type w) where
  /-- The least value of a group with items. -/
  least : κ → Option τ
  /-- The number of items. -/
  count : κ → ℕ

namespace Groups

variable {α : Type u} {κ : Type v} {τ : Type w}

/-- Before the pass. -/
def empty : Groups κ τ := ⟨fun _ => none, fun _ => 0⟩

variable [DecidableEq κ] [LinearOrder τ]

/-- One item of the group `k`. -/
def insert (g : Groups κ τ) (k : κ) (v : τ) : Groups κ τ where
  least := Function.update g.least k (some ((g.least k).elim v (min · v)))
  count := Function.update g.count k (g.count k + 1)

/-- One item, which may have no group. -/
def add (group : α → Option κ) (value : α → τ) (g : Groups κ τ) (a : α) : Groups κ τ :=
  (group a).elim g fun k => g.insert k (value a)

/-- The pass. -/
def collect (group : α → Option κ) (value : α → τ) (l : List α) : Groups κ τ :=
  l.foldl (add group value) empty

section Collect

variable {group : α → Option κ} {value : α → τ}

theorem collect_append_singleton (l : List α) (a : α) :
    collect group value (l ++ [a]) = add group value (collect group value l) a := by
  rw [collect, List.foldl_append]
  rfl

theorem least_add (g : Groups κ τ) (a : α) (k : κ) :
    (add group value g a).least k =
      if group a = some k then some ((g.least k).elim (value a) (min · (value a)))
      else g.least k := by
  unfold add
  cases grouped : group a with
  | none => rfl
  | some k' =>
    show Function.update _ k' _ k = _
    by_cases same : k = k'
    · subst same
      rw [Function.update_self, if_pos rfl]
    · rw [Function.update_of_ne same, if_neg fun eq => same (Option.some.inj eq).symm]

theorem count_add (g : Groups κ τ) (a : α) (k : κ) :
    (add group value g a).count k = g.count k + if group a = some k then 1 else 0 := by
  unfold add
  cases grouped : group a with
  | none => rfl
  | some k' =>
    show Function.update _ k' _ k = _
    by_cases same : k = k'
    · subst same
      rw [Function.update_self, if_pos rfl]
    · rw [Function.update_of_ne same, if_neg fun eq => same (Option.some.inj eq).symm, Nat.add_zero]

/-- **The count is the number of items of the group.** -/
theorem count_collect (l : List α) (k : κ) :
    (collect group value l).count k = l.countP fun a => group a = some k := by
  induction l using List.reverseRecOn with
  | nil => rfl
  | append_singleton l a ih =>
    rw [collect_append_singleton, count_add, ih, List.countP_append, List.countP_singleton]
    simp only [decide_eq_true_eq]

theorem least_collect_eq_none {l : List α} {k : κ} :
    (collect group value l).least k = none ↔ ∀ a ∈ l, group a ≠ some k := by
  induction l using List.reverseRecOn with
  | nil => exact ⟨fun _ _ mem => (nomatch mem), fun _ => rfl⟩
  | append_singleton l a ih =>
    rw [collect_append_singleton, least_add]
    by_cases grouped : group a = some k
    · simp [grouped]
    · rw [if_neg grouped, ih]
      simp only [List.mem_append, List.mem_singleton, or_imp, forall_and, forall_eq]
      exact ⟨fun none => ⟨none, grouped⟩, And.left⟩

/-- **The least value is that of an item of the group, and none of the group is below it.** -/
theorem least_collect_eq_some {l : List α} {k : κ} {m : τ}
    (found : (collect group value l).least k = some m) :
    (∃ a ∈ l, group a = some k ∧ value a = m) ∧ ∀ a ∈ l, group a = some k → m ≤ value a := by
  induction l using List.reverseRecOn generalizing m with
  | nil => cases found
  | append_singleton l a ih =>
    rw [collect_append_singleton, least_add] at found
    split at found
    · next grouped =>
      cases before : (collect group value l).least k with
      | none =>
        -- `a` is the first of its group
        rw [before] at found
        grind [least_collect_eq_none.mp before]
      | some m' =>
        rw [before] at found
        have value_eq : min m' (value a) = m := Option.some.inj found
        obtain ⟨⟨b, mem, grouped', value'⟩, below⟩ := ih before
        refine ⟨?_, by grind⟩
        rcases min_choice m' (value a) with left | right
        · exact ⟨b, by simp [mem], grouped', value'.trans (left.symm.trans value_eq)⟩
        · exact ⟨a, by simp, grouped, right.symm.trans value_eq⟩
    · grind

/-- The order of the list is of no account. -/
theorem collect_perm {l l' : List α} (perm : l.Perm l') :
    collect group value l = collect group value l' := by
  have least : (collect group value l).least = (collect group value l').least := by
    funext k
    cases found : (collect group value l).least k with
    | none =>
      symm
      rw [least_collect_eq_none] at found ⊢
      exact fun a mem => found a (perm.mem_iff.mpr mem)
    | some m =>
      obtain ⟨⟨a, mem, grouped, value_eq⟩, below⟩ := least_collect_eq_some found
      cases found' : (collect group value l').least k with
      | none => exact absurd grouped (least_collect_eq_none.mp found' a (perm.mem_iff.mp mem))
      | some m' =>
        obtain ⟨⟨b, mem', grouped', value_eq'⟩, below'⟩ := least_collect_eq_some found'
        have le : m ≤ m' := value_eq' ▸ below b (perm.mem_iff.mpr mem') grouped'
        have ge : m' ≤ m := value_eq ▸ below' a (perm.mem_iff.mp mem) grouped
        rw [le_antisymm le ge]
  have count : (collect group value l).count = (collect group value l').count := by
    funext k
    rw [count_collect, count_collect, perm.countP_eq]
  calc collect group value l
      = ⟨(collect group value l).least, (collect group value l).count⟩ := rfl
    _ = collect group value l' := by rw [least, count]

end Collect

end Groups

end Kache
