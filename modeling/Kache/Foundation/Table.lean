import Mathlib.Algebra.BigOperators.Ring.Finset
import Mathlib.Algebra.Order.BigOperators.Group.Finset
import Mathlib.Tactic.Abel

/-!
# Finite tables with a primary key

A relational table is read here through its primary key: `get` is the row at a
key and `keys` is the finite set of keys that have one.  The two are tied
together by `mem_keys`, so a table is determined by `get` alone (`ext_get`) and
still has a finite carrier to aggregate over.

The operations are the statements a program issues against such a table:

* `set` — `INSERT OR REPLACE`;
* `insertOrIgnore` — `INSERT OR IGNORE`;
* `updateWhere` — `UPDATE … SET … WHERE …`;
* `deleteWhere` — `DELETE FROM … WHERE …`;
* `sumOver` — `SELECT SUM(…)`, zero on an empty selection.

Each has one `get_…` lemma, which is all a caller needs to follow a row, and
the aggregate has one `sumOver_…` lemma per statement.
-/

namespace Kache

universe u v w

/-- A finite table with primary key `κ` and rows `ν`. -/
structure Table (κ : Type u) (ν : Type v) where
  /-- The row at a key. -/
  get : κ → Option ν
  /-- The keys that have a row. -/
  keys : Finset κ
  /-- `keys` is the domain of `get`. -/
  mem_keys : ∀ k, k ∈ keys ↔ (get k).isSome

namespace Table

variable {κ : Type u} {ν : Type v}

/-- A table is its rows: the carrier is recovered from `get`. -/
theorem ext_get {s t : Table κ ν} (h : ∀ k, s.get k = t.get k) : s = t := by
  obtain ⟨getS, keysS, memS⟩ := s
  obtain ⟨getT, keysT, memT⟩ := t
  have hget : getS = getT := funext h
  subst hget
  have hkeys : keysS = keysT := by
    ext k
    rw [memS, memT]
  subst hkeys
  rfl

/-- The table without rows. -/
def empty : Table κ ν where
  get := fun _ => none
  keys := ∅
  mem_keys := by simp

@[simp] theorem get_empty (k : κ) : (empty : Table κ ν).get k = none := rfl

/-- `UPDATE … SET row = f WHERE p`: rewrite the rows at the keys `p` selects. -/
def updateWhere (t : Table κ ν) (p : κ → Bool) (f : κ → ν → ν) : Table κ ν where
  get := fun k => if p k then (t.get k).map (f k) else t.get k
  keys := t.keys
  mem_keys := by
    intro k
    rw [t.mem_keys]
    split <;> simp

@[simp] theorem get_updateWhere (t : Table κ ν) (p : κ → Bool) (f : κ → ν → ν) (k : κ) :
    (t.updateWhere p f).get k = if p k then (t.get k).map (f k) else t.get k := rfl

section Decidable

variable [DecidableEq κ]

/-- `INSERT OR REPLACE`: the row at `k` becomes `v`. -/
def set (t : Table κ ν) (k : κ) (v : ν) : Table κ ν where
  get := fun k' => if k' = k then some v else t.get k'
  keys := insert k t.keys
  mem_keys := by
    intro k'
    by_cases hk : k' = k
    · simp [hk]
    · simp [hk, t.mem_keys]

@[simp] theorem get_set (t : Table κ ν) (k : κ) (v : ν) (k' : κ) :
    (t.set k v).get k' = if k' = k then some v else t.get k' := rfl

/-- `INSERT OR IGNORE`: a row already at `k` stays as it is. -/
def insertOrIgnore (t : Table κ ν) (k : κ) (v : ν) : Table κ ν :=
  if (t.get k).isSome then t else t.set k v

theorem get_insertOrIgnore (t : Table κ ν) (k : κ) (v : ν) (k' : κ) :
    (t.insertOrIgnore k v).get k' = if k' = k then some ((t.get k).getD v) else t.get k' := by
  unfold insertOrIgnore
  split
  · next present =>
    obtain ⟨row, hrow⟩ := Option.isSome_iff_exists.mp present
    by_cases hk : k' = k
    · simp [hk, hrow]
    · simp [hk]
  · next absent =>
    have hnone : t.get k = none := by simpa using absent
    simp [hnone]

/-- `DELETE FROM … WHERE p`. -/
def deleteWhere (t : Table κ ν) (p : κ → ν → Bool) : Table κ ν where
  get := fun k => (t.get k).filter fun v => !p k v
  keys := t.keys.filter fun k => ((t.get k).filter fun v => !p k v).isSome
  mem_keys := by
    intro k
    rw [Finset.mem_filter, t.mem_keys]
    refine ⟨fun h => h.2, fun h => ⟨?_, h⟩⟩
    obtain ⟨row, hrow⟩ := Option.isSome_iff_exists.mp h
    exact Option.isSome_iff_exists.mpr ⟨row, (Option.filter_eq_some_iff.mp hrow).1⟩

omit [DecidableEq κ] in
@[simp] theorem get_deleteWhere (t : Table κ ν) (p : κ → ν → Bool) (k : κ) :
    (t.deleteWhere p).get k = (t.get k).filter fun v => !p k v := rfl

/-! ## Comparing and copying -/

/-- The number of keys at which two tables differ. -/
def differences [DecidableEq ν] (t t' : Table κ ν) : ℕ :=
  ((t.keys ∪ t'.keys).filter fun k => t.get k ≠ t'.get k).card

/-- Without a difference the tables are the same. -/
theorem differences_eq_zero [DecidableEq ν] {t t' : Table κ ν} :
    t.differences t' = 0 ↔ t = t' := by
  rw [differences, Finset.card_eq_zero, Finset.filter_eq_empty_iff]
  refine ⟨fun same => ext_get fun k => ?_, ?_⟩
  · by_cases mem : k ∈ t.keys ∪ t'.keys
    · exact not_not.mp (same mem)
    · rw [Finset.mem_union, not_or, t.mem_keys, t'.mem_keys] at mem
      rw [Option.not_isSome_iff_eq_none.mp mem.1, Option.not_isSome_iff_eq_none.mp mem.2]
  · rintro rfl k -
    exact not_not.mpr rfl

/-- The rows at the keys of a listing. -/
def rows (t : Table κ ν) (listing : List κ) : List (κ × ν) :=
  listing.filterMap fun k => (t.get k).map (k, ·)

/-- Writing them one after the other. -/
theorem get_foldl_set_rows (t : Table κ ν) (listing : List κ) (t' : Table κ ν) (k : κ) :
    ((t.rows listing).foldl (fun acc row => acc.set row.1 row.2) t').get k
      = if k ∈ listing ∧ (t.get k).isSome then t.get k else t'.get k := by
  induction listing generalizing t' with
  | nil => simp [rows]
  | cons first rest ih =>
    rw [rows, List.filterMap_cons]
    cases row : t.get first with
    | none =>
      rw [Option.map_none]
      refine (ih t').trans ?_
      by_cases own : k = first
      · subst own
        simp [row]
      · simp [own]
    | some v =>
      rw [Option.map_some]
      refine (ih (t'.set first v)).trans ?_
      by_cases own : k = first
      · subst own
        simp [row]
      · simp [own]

/-- A table that is emptied and filled with the rows of another one is that other one. -/
theorem foldl_set_rows (t : Table κ ν) {listing : List κ} (covers : ∀ k ∈ t.keys, k ∈ listing) :
    (t.rows listing).foldl (fun acc row => acc.set row.1 row.2) empty = t := by
  refine ext_get fun k => ?_
  rw [get_foldl_set_rows, get_empty]
  split
  · rfl
  · next outside =>
    rw [not_and'] at outside
    by_contra present
    have row : (t.get k).isSome := Option.isSome_iff_ne_none.mpr (Ne.symm present)
    exact outside row (covers k ((t.mem_keys k).mpr row))

/-! ## Aggregation -/

section Sum

variable {M : Type w} [AddCommGroup M]

/-- `SELECT SUM(f)` over every row. -/
def sumOver (t : Table κ ν) (f : κ → ν → M) : M :=
  ∑ k ∈ t.keys, (t.get k).elim 0 (f k)

omit [DecidableEq κ] in
@[simp] theorem sumOver_empty (f : κ → ν → M) : (empty : Table κ ν).sumOver f = 0 := rfl

omit [DecidableEq κ] in
/-- The aggregate may be taken over any finite set that covers the rows. -/
theorem sumOver_eq_sum_of_subset (t : Table κ ν) (f : κ → ν → M) {carrier : Finset κ}
    (sub : t.keys ⊆ carrier) : t.sumOver f = ∑ k ∈ carrier, (t.get k).elim 0 (f k) := by
  refine Finset.sum_subset sub fun k _ notMem => ?_
  have hnone : t.get k = none := by simpa [t.mem_keys] using notMem
  simp [hnone]

/-- An aggregate that only one key contributes to is that key's row. -/
theorem sumOver_eq_single (t : Table κ ν) (f : κ → ν → M) (k : κ)
    (zero : ∀ k', k' ≠ k → ∀ v, f k' v = 0) : t.sumOver f = (t.get k).elim 0 (f k) := by
  rw [t.sumOver_eq_sum_of_subset f (Finset.subset_insert k t.keys)]
  refine Finset.sum_eq_single_of_mem k (Finset.mem_insert_self _ _) fun k' _ hne => ?_
  cases hk : t.get k' with
  | none => rfl
  | some v => exact zero k' hne v

/-- Writing one row changes the aggregate by that row's difference. -/
theorem sumOver_set (t : Table κ ν) (f : κ → ν → M) (k : κ) (v : ν) :
    (t.set k v).sumOver f = t.sumOver f - (t.get k).elim 0 (f k) + f k v := by
  have hrest : ∑ k' ∈ (insert k t.keys).erase k, ((t.set k v).get k').elim 0 (f k')
      = ∑ k' ∈ (insert k t.keys).erase k, (t.get k').elim 0 (f k') := by
    refine Finset.sum_congr rfl fun k' mem => ?_
    rw [get_set, if_neg (Finset.ne_of_mem_erase mem)]
  -- both aggregates over one carrier, with the share of `k` split off
  have hself : k ∈ insert k t.keys := Finset.mem_insert_self _ _
  rw [t.sumOver_eq_sum_of_subset f (Finset.subset_insert k t.keys),
    ← Finset.add_sum_erase _ _ hself]
  change ∑ k' ∈ insert k t.keys, ((t.set k v).get k').elim 0 (f k') = _
  rw [← Finset.add_sum_erase _ _ hself, hrest, get_set, if_pos rfl]
  simp only [Option.elim_some]
  abel

omit [DecidableEq κ] in
/-- Deleting rows takes exactly the deleted rows' share off the aggregate. -/
theorem sumOver_deleteWhere (t : Table κ ν) (f : κ → ν → M) (p : κ → ν → Bool) :
    (t.deleteWhere p).sumOver f
      = t.sumOver f - t.sumOver fun k v => if p k v then f k v else 0 := by
  have hsub : (t.deleteWhere p).keys ⊆ t.keys := Finset.filter_subset _ _
  rw [sumOver_eq_sum_of_subset _ f hsub, sumOver, sumOver, ← Finset.sum_sub_distrib]
  refine Finset.sum_congr rfl fun k _ => ?_
  rw [get_deleteWhere]
  cases hk : t.get k with
  | none => simp
  | some v => by_cases hp : p k v <;> simp [Option.filter, hp]

/-- Aggregates are equal if every key contributes the same to them. -/
theorem sumOver_congr {ν' : Type*} {t : Table κ ν} {t' : Table κ ν'} {f : κ → ν → M}
    {g : κ → ν' → M}
    (same : ∀ k, (t.get k).elim 0 (f k) = (t'.get k).elim 0 (g k)) :
    t.sumOver f = t'.sumOver g := by
  have left : t.keys ⊆ t.keys ∪ t'.keys := Finset.subset_union_left
  have right : t'.keys ⊆ t.keys ∪ t'.keys := Finset.subset_union_right
  rw [t.sumOver_eq_sum_of_subset f left, t'.sumOver_eq_sum_of_subset g right]
  exact Finset.sum_congr rfl fun k _ => same k

omit [DecidableEq κ] in
theorem sumOver_sub (t : Table κ ν) (f g : κ → ν → M) :
    (t.sumOver fun k v => f k v - g k v) = t.sumOver f - t.sumOver g := by
  rw [sumOver, sumOver, sumOver, ← Finset.sum_sub_distrib]
  refine Finset.sum_congr rfl fun k _ => ?_
  cases t.get k with
  | none => simp
  | some v => rfl

/-- The rows of a table with a key of two columns that have `a` in the first one. -/
def slice {ι : Type*} [DecidableEq ι] (t : Table (ι × κ) ν) (a : ι) : Table κ ν where
  get := fun k => t.get (a, k)
  keys := (t.keys.filter (·.1 = a)).image Prod.snd
  mem_keys := by
    intro k
    rw [Finset.mem_image]
    constructor
    · rintro ⟨⟨b, k'⟩, mem, rfl⟩
      obtain ⟨inside, rfl⟩ := Finset.mem_filter.mp mem
      exact (t.mem_keys _).mp inside
    · intro row
      exact ⟨(a, k), Finset.mem_filter.mpr ⟨(t.mem_keys _).mpr row, rfl⟩, rfl⟩

theorem sumOver_slice {ι : Type*} [DecidableEq ι] (t : Table (ι × κ) ν) (a : ι) (f : κ → ν → M) :
    (t.slice a).sumOver f = t.sumOver fun p v => if p.1 = a then f p.2 v else 0 := by
  have apart : Set.InjOn Prod.snd ((t.keys.filter (·.1 = a) : Finset (ι × κ)) : Set (ι × κ)) := by
    intro p hp q hq same
    have first : p.1 = a := (Finset.mem_filter.mp hp).2
    have second : q.1 = a := (Finset.mem_filter.mp hq).2
    exact Prod.ext (first.trans second.symm) same
  rw [sumOver, slice, Finset.sum_image apart, sumOver, Finset.sum_filter]
  refine Finset.sum_congr rfl fun p _ => ?_
  obtain ⟨b, k⟩ := p
  by_cases own : b = a
  · subst own
    simp
  · cases t.get (b, k) with
    | none => simp [own]
    | some v => simp [own]

omit [DecidableEq κ] in
/-- Nonnegative contributions aggregate to a nonnegative sum that every single
row bounds from below. -/
theorem elim_le_sumOver (t : Table κ ν) (f : κ → ν → ℤ)
    (nonneg : ∀ k v, t.get k = some v → 0 ≤ f k v) (k : κ) :
    (t.get k).elim 0 (f k) ≤ t.sumOver f := by
  have hterm : ∀ k', 0 ≤ (t.get k').elim 0 (f k') := by
    intro k'
    cases hk : t.get k' with
    | none => simp
    | some v => simpa using nonneg k' v hk
  by_cases mem : k ∈ t.keys
  · exact Finset.single_le_sum (f := fun k' => (t.get k').elim 0 (f k'))
      (fun k' _ => hterm k') mem
  · have hnone : t.get k = none := by simpa [t.mem_keys] using mem
    rw [hnone]
    exact Finset.sum_nonneg fun k' _ => hterm k'

end Sum

end Decidable

end Table

end Kache
