import Mathlib.Data.List.Destutter
import Mathlib.Data.List.Sort
import Mathlib.Order.Defs.LinearOrder

/-!
# Stable sorting

`sort_by_key`: a list sorted by a key, items with equal keys left in their order.
`StablySorted` says what that is, without an algorithm: a permutation, sorted, with
the items of each key as they were.  `maxByKey` is the item that such a sort leaves last.
Runs of equal items may be cut down to one item each.
-/

namespace Kache

universe u v

variable {α : Type u} {κ : Type v} [LinearOrder κ]

/-- The stable sort of a list by a key.  There is only one, and insertion can be
computed with. -/
def sortByKey (key : α → κ) (l : List α) : List α := l.insertionSort fun a b => key a ≤ key b

/-- `l'` is `l` sorted by `key`, with ties in their order in `l`. -/
structure StablySorted (key : α → κ) (l l' : List α) : Prop where
  perm : l'.Perm l
  sorted : l'.Pairwise fun a b => key a ≤ key b
  stable : ∀ k, (l'.filter fun a => key a = k) = l.filter fun a => key a = k

theorem sortByKey_perm (key : α → κ) (l : List α) : (sortByKey key l).Perm l :=
  List.perm_insertionSort _ l

theorem pairwise_sortByKey (key : α → κ) (l : List α) :
    (sortByKey key l).Pairwise fun a b => key a ≤ key b := by
  have total : Std.Total fun a b : α => key a ≤ key b := ⟨fun a b => le_total (key a) (key b)⟩
  have trans : IsTrans α fun a b => key a ≤ key b := ⟨fun _ _ _ hab hbc => le_trans hab hbc⟩
  exact List.pairwise_insertionSort _ l

variable {key : α → κ} {l : List α}

/-- A sorted list stays as it is. -/
theorem sortByKey_of_pairwise (sorted : l.Pairwise fun a b => key a ≤ key b) :
    sortByKey key l = l :=
  sorted.insertionSort_eq

/-- Where the key tells the items apart, their order beforehand is of no account. -/
theorem sortByKey_eq_of_perm {l' : List α} (perm : l.Perm l')
    (apart : ∀ a ∈ l, ∀ b ∈ l, key a = key b → a = b) : sortByKey key l = sortByKey key l' := by
  refine List.Perm.eq_of_pairwise ?_ (pairwise_sortByKey key l) (pairwise_sortByKey key l') ?_
  · intro a b ha hb hab hba
    refine apart a ((sortByKey_perm key l).mem_iff.mp ha) b ?_ (le_antisymm hab hba)
    exact perm.mem_iff.mpr ((sortByKey_perm key l').mem_iff.mp hb)
  · exact (sortByKey_perm key l).trans (perm.trans (sortByKey_perm key l').symm)

theorem stablySorted_sortByKey (key : α → κ) (l : List α) :
    StablySorted key l (sortByKey key l) := by
  have total : Std.Total fun a b : α => key a ≤ key b := ⟨fun a b => le_total (key a) (key b)⟩
  have trans : IsTrans α fun a b => key a ≤ key b := ⟨fun _ _ _ hab hbc => le_trans hab hbc⟩
  have perm := sortByKey_perm key l
  refine ⟨perm, pairwise_sortByKey key l, fun k => ?_⟩
  -- the items of key `k` are sorted as they stand, so they stay a sublist
  have same : (l.filter fun a => key a = k).Pairwise fun a b => key a ≤ key b := by
    refine List.pairwise_of_forall_mem_list fun a ha b hb => le_of_eq ?_
    exact (of_decide_eq_true (List.mem_filter.mp ha).2).trans
      (of_decide_eq_true (List.mem_filter.mp hb).2).symm
  have kept : (l.filter fun a => key a = k).Sublist (sortByKey key l) :=
    List.sublist_insertionSort same List.filter_sublist
  have inside := kept.filter fun a => decide (key a = k)
  rw [List.filter_filter] at inside
  simp only [Bool.and_self] at inside
  exact (inside.eq_of_length (perm.filter _).length_eq.symm).symm

/-! ## The greatest item -/

/-- The item with the greater key, the second one if they are equal. -/
def laterMax (key : α → κ) (best a : α) : α := if key best ≤ key a then a else best

/-- `max_by_key`: an item with the greatest key, the last one of them. -/
def maxByKey (key : α → κ) : List α → Option α
  | [] => none
  | a :: rest => some (rest.foldl (laterMax key) a)

theorem le_laterMax (key : α → κ) (best a : α) :
    key best ≤ key (laterMax key best a) ∧ key a ≤ key (laterMax key best a) := by
  unfold laterMax
  split
  · next le => exact ⟨le, le_rfl⟩
  · next gt => exact ⟨le_rfl, le_of_lt (not_le.mp gt)⟩

theorem foldl_laterMax (key : α → κ) (rest : List α) (a : α) :
    rest.foldl (laterMax key) a ∈ a :: rest ∧
      ∀ b ∈ a :: rest, key b ≤ key (rest.foldl (laterMax key) a) := by
  induction rest generalizing a with
  | nil => exact ⟨List.mem_singleton_self a, fun b mem =>
      le_of_eq (by rw [List.mem_singleton.mp mem]; rfl)⟩
  | cons c rest ih =>
    obtain ⟨mem, above⟩ := ih (laterMax key a c)
    obtain ⟨first, second⟩ := le_laterMax key a c
    have top := above _ List.mem_cons_self
    rw [List.foldl_cons]
    constructor
    · rcases List.mem_cons.mp mem with same | inside
      · rw [same]
        unfold laterMax
        split
        · simp
        · simp
      · exact List.mem_cons_of_mem _ (List.mem_cons_of_mem _ inside)
    · intro b inside
      rcases List.mem_cons.mp inside with rfl | inside
      · exact first.trans top
      · rcases List.mem_cons.mp inside with rfl | inside
        · exact second.trans top
        · exact above b (List.mem_cons_of_mem _ inside)

theorem maxByKey_eq_some {a : α} (greatest : maxByKey key l = some a) :
    a ∈ l ∧ ∀ b ∈ l, key b ≤ key a := by
  cases l with
  | nil => cases greatest
  | cons c rest =>
    cases greatest
    exact foldl_laterMax key rest c

theorem maxByKey_eq_none : maxByKey key l = none ↔ l = [] := by
  cases l with
  | nil => exact ⟨fun _ => rfl, fun _ => rfl⟩
  | cons c rest => exact ⟨fun no => (nomatch no), fun no => (nomatch no)⟩

/-- The first item with a property, of a list sorted by a key: no item with the property has a
smaller key, and none before it in the list has the same. -/
theorem find?_sortByKey {p : α → Bool} {a : α} (found : (sortByKey key l).find? p = some a) :
    p a = true ∧ ∃ front back, l = front ++ a :: back ∧
      (∀ b ∈ front, p b = true → key a < key b) ∧ ∀ b ∈ back, p b = true → key a ≤ key b := by
  have stable := stablySorted_sortByKey key l
  obtain ⟨holds, before, after, split, none⟩ := List.find?_eq_some_iff_append.mp found
  have least : ∀ b ∈ l, p b = true → key a ≤ key b := by
    intro b inside fits
    rw [← stable.perm.mem_iff, split, List.mem_append, List.mem_cons] at inside
    have sorted := stable.sorted
    rw [split, List.pairwise_append, List.pairwise_cons] at sorted
    rcases inside with earlier | rfl | later
    · exact absurd fits (by simpa using none b earlier)
    · exact le_rfl
    · exact sorted.2.1.1 b later
  -- among the items of the same key, the order of the list
  have tied : (l.filter fun b => key b = key a).find? p = some a := by
    rw [← stable.stable, split, List.filter_append, List.find?_append,
      List.find?_eq_none.mpr fun b mem => ?_, List.filter_cons_of_pos (by simp), List.find?_cons,
      holds]
    · rfl
    · simpa using none b (List.mem_filter.mp mem).1
  rw [List.find?_filter] at tied
  obtain ⟨-, front, back, listed, unfit⟩ := List.find?_eq_some_iff_append.mp tied
  refine ⟨holds, front, back, listed, fun b mem fits => ?_, fun b mem fits => ?_⟩
  · refine lt_of_le_of_ne (least b (by rw [listed]; simp [mem]) fits) fun same => ?_
    have no := unfit b mem
    rw [fits, ← same] at no
    simp at no
  · exact least b (by rw [listed]; simp [mem]) fits

/-! ## Runs of equal items -/

section Runs

variable {β : Type*} [DecidableEq β] {f : α → β}

theorem exists_mem_destutter' (l : List α) (a : α) :
    ∀ x ∈ a :: l, ∃ y ∈ l.destutter' (fun a b => f a ≠ f b) a, f y = f x := by
  induction l generalizing a with
  | nil => exact fun x mem => ⟨x, mem, rfl⟩
  | cons b rest ih =>
    intro x mem
    by_cases same : f a = f b
    · rw [List.destutter'_cons_neg _ (not_not.mpr same)]
      rcases List.mem_cons.mp mem with rfl | mem
      · exact ih _ _ List.mem_cons_self
      · rcases List.mem_cons.mp mem with rfl | mem
        · rw [← same]
          exact ih a a List.mem_cons_self
        · exact ih a x (List.mem_cons_of_mem a mem)
    · rw [List.destutter'_cons_pos _ same]
      rcases List.mem_cons.mp mem with rfl | mem
      · exact ⟨x, List.mem_cons_self, rfl⟩
      · obtain ⟨y, kept, equal⟩ := ih b x mem
        exact ⟨y, List.mem_cons_of_mem a kept, equal⟩

/-- Every item keeps one that is equal to it. -/
theorem exists_mem_destutter {x : α} (mem : x ∈ l) :
    ∃ y ∈ l.destutter fun a b => f a ≠ f b, f y = f x := by
  cases l with
  | nil => exact absurd mem List.not_mem_nil
  | cons a rest => exact exists_mem_destutter' rest a x mem

end Runs

end Kache
