import Mathlib.Data.List.Basic
import Mathlib.Data.List.Forall2
import Mathlib.Data.List.Nodup
import Mathlib.Data.Nat.Notation

/-!
# Tables as lists of rows

A table whose primary key is generated is the list of its rows.  A statement names
rows by a condition, so a unique index is a condition that at most one row meets.

* `nextId` — the key a new row gets: one more than the largest there is;
* `upsert` — `INSERT … ON CONFLICT … DO UPDATE SET … RETURNING …`.

`forall_upsert` is the rule for a property of every row, `upsert_cases` says what an upsert does.
-/

namespace Kache

universe u v

variable {ρ : Type u}

/-- The key of the next row, given those in use. -/
def nextId (ids : List ℕ) : ℕ := ids.foldr max 0 + 1

/-- Insert `fresh`, or where rows are in the way, update them.  Returns the table and
the row that was written. -/
def upsert (conflict : ρ → Bool) (update : ρ → ρ) (fresh : ρ) (rows : List ρ) : List ρ × ρ :=
  match rows.find? conflict with
  | some row => (rows.map fun r => if conflict r then update r else r, update row)
  | none => (rows ++ [fresh], fresh)

/-- **Properties of every row** survive an upsert whose update and whose new row have
them. -/
theorem forall_upsert {P : ρ → Prop} {conflict : ρ → Bool} {update : ρ → ρ} {fresh : ρ}
    {rows : List ρ} (old : ∀ r ∈ rows, P r)
    (updated : ∀ r ∈ rows, conflict r = true → P (update r)) (inserted : P fresh) :
    ∀ r ∈ (upsert conflict update fresh rows).1, P r := by
  intro r mem
  unfold upsert at mem
  split at mem
  · obtain ⟨r', mem', rfl⟩ := List.mem_map.mp mem
    by_cases clash : conflict r' = true
    · rw [if_pos clash]
      exact updated r' mem' clash
    · rw [if_neg clash]
      exact old r' mem'
  · rcases List.mem_append.mp mem with mem | mem
    · exact old r mem
    · exact List.mem_singleton.mp mem ▸ inserted

/-- An upsert updates the rows in the way, or adds a row where there is none. -/
theorem upsert_cases (conflict : ρ → Bool) (update : ρ → ρ) (fresh : ρ) (rows : List ρ) :
    (∃ row ∈ rows, conflict row = true ∧
      upsert conflict update fresh rows = (rows.map fun r => if conflict r then update r else
          r, update row)) ∨
    ((∀ r ∈ rows, conflict r = false) ∧
        upsert conflict update fresh rows = (rows ++ [fresh], fresh)) := by
  unfold upsert
  cases found : rows.find? conflict with
  | some row => exact .inl ⟨row, List.mem_of_find?_eq_some found, List.find?_some found, rfl⟩
  | none => exact .inr ⟨fun r mem => Bool.eq_false_iff.mpr (List.find?_eq_none.mp found r mem), rfl⟩

/-- The next key is not in use. -/
theorem nextId_notMem (ids : List ℕ) : nextId ids ∉ ids := by
  have bound : ∀ i ∈ ids, i ≤ ids.foldr max 0 := by
    induction ids with
    | nil => exact fun i mem => absurd mem List.not_mem_nil
    | cons first rest ih =>
      rw [List.foldr_cons]
      intro i mem
      rcases List.mem_cons.mp mem with rfl | mem
      · exact Nat.le_max_left _ _
      · exact Nat.le_trans (ih i mem) (Nat.le_max_right _ _)
  intro mem
  exact absurd (bound _ mem) (Nat.not_succ_le_self _)

/-- A row is found by a key that tells the rows apart. -/
theorem find?_key_eq_some_iff {κ : Type v} [DecidableEq κ] {key : ρ → κ} {rows : List ρ}
    (unique : (rows.map key).Nodup) {k : κ} {row : ρ} :
    rows.find? (fun r => key r = k) = some row ↔ row ∈ rows ∧ key row = k := by
  constructor
  · intro found
    have same := List.find?_some found
    rw [decide_eq_true_eq] at same
    exact ⟨List.mem_of_find?_eq_some found, same⟩
  · rintro ⟨mem, rfl⟩
    obtain ⟨first, found⟩ : ∃ first, rows.find? (fun r => key r = key row) = some first :=
      Option.isSome_iff_exists.mp (List.find?_isSome.mpr ⟨row, mem, decide_eq_true rfl⟩)
    have same := List.find?_some found
    rw [decide_eq_true_eq] at same
    rw [found, List.inj_on_of_nodup_map unique (List.mem_of_find?_eq_some found) mem same]

/-- A join that finds everything, row by row. -/
theorem mapM_eq_some_iff {α : Type v} {f : α → Option ρ} {l : List α} {rows : List ρ} :
    l.mapM f = some rows ↔ List.Forall₂ (fun a r => f a = some r) l rows := by
  induction l generalizing rows with
  | nil =>
    rw [List.mapM_nil, List.forall₂_nil_left_iff]
    exact ⟨fun h => (Option.some.inj h).symm, fun h => congrArg some h.symm⟩
  | cons a l ih =>
    rw [List.mapM_cons, List.forall₂_cons_left_iff]
    constructor
    · intro found
      obtain ⟨first, here, rest⟩ := Option.bind_eq_some_iff.mp found
      obtain ⟨others, there, pair⟩ := Option.bind_eq_some_iff.mp rest
      cases pair
      exact ⟨first, others, here, ih.mp there, rfl⟩
    · rintro ⟨first, others, here, there, rfl⟩
      rw [here, ih.mpr there]
      rfl

/-- The rows of a join that finds everything. -/
theorem mem_mapM {α : Type v} {f : α → Option ρ} {l : List α} {rows : List ρ}
    (found : l.mapM f = some rows) {r : ρ} : r ∈ rows ↔ ∃ a ∈ l, f a = some r := by
  induction l generalizing rows with
  | nil =>
    obtain rfl := Option.some.inj found
    simp
  | cons a l ih =>
    rw [List.mapM_cons] at found
    obtain ⟨first, here, rest⟩ := Option.bind_eq_some_iff.mp found
    obtain ⟨others, there, pair⟩ := Option.bind_eq_some_iff.mp rest
    obtain rfl := Option.some.inj pair
    rw [List.mem_cons, ih there, List.exists_mem_cons_iff, here, Option.some.injEq, eq_comm]

/-- A join fails where a row is missing. -/
theorem mapM_eq_none_iff {α : Type v} {f : α → Option ρ} {l : List α} :
    l.mapM f = none ↔ ∃ a ∈ l, f a = none := by
  induction l with
  | nil => exact iff_of_false (fun no => (nomatch no)) (by simp)
  | cons a l ih =>
    rw [List.mapM_cons, List.exists_mem_cons_iff, ← ih]
    cases f a with
    | none => exact iff_of_true rfl (.inl rfl)
    | some r =>
      cases l.mapM f with
      | none => exact iff_of_true rfl (.inr rfl)
      | some rows => exact iff_of_false (fun no => (nomatch no)) (by simp)

end Kache
