import Mathlib.Data.List.Induction
import Mathlib.Data.List.Nodup
import Mathlib.Order.Lattice

/-!
# Maps in the order of their keys

`BTreeMap`: entries with strictly increasing keys, which is the order they are iterated in.  An
entry is in the map exactly if it is what `get` finds (`mem_entries_iff`).
-/

namespace Kache

universe u v w

/-- `BTreeMap`. -/
structure SortedMap (κ : Type u) (ν : Type v) [LinearOrder κ] where
  entries : List (κ × ν)
  sorted : entries.Pairwise fun a b => a.1 < b.1
  deriving DecidableEq

namespace SortedMap

variable {κ : Type u} {ν : Type v} [LinearOrder κ]

def empty : SortedMap κ ν := ⟨[], .nil⟩

/-- The map of one entry. -/
def single (key : κ) (value : ν) : SortedMap κ ν := ⟨[(key, value)], List.pairwise_singleton _ _⟩

/-- `get`. -/
def get (map : SortedMap κ ν) (key : κ) : Option ν :=
  (map.entries.find? fun entry => entry.1 = key).map (·.2)

/-- `contains_key`. -/
def containsKey (map : SortedMap κ ν) (key : κ) : Bool := (map.get key).isSome

variable {key : κ} {entries : List (κ × ν)}

theorem mem_of_get_eq_some {map : SortedMap κ ν} {value : ν} (found : map.get key = some value) :
    (key, value) ∈ map.entries := by
  obtain ⟨entry, first, rfl⟩ := Option.map_eq_some_iff.mp found
  have here := List.find?_some first
  simp only [decide_eq_true_eq] at here
  obtain rfl := here
  exact List.mem_of_find?_eq_some first

theorem nodup_keys (map : SortedMap κ ν) : (map.entries.map Prod.fst).Nodup :=
  List.pairwise_map.mpr (map.sorted.imp fun before => ne_of_lt before)

/-- What is in the map is found. -/
theorem mem_entries_iff {map : SortedMap κ ν} {value : ν} :
    (key, value) ∈ map.entries ↔ map.get key = some value := by
  refine ⟨fun mem => ?_, mem_of_get_eq_some⟩
  cases found : map.get key with
  | none =>
    rw [get, Option.map_eq_none_iff, List.find?_eq_none] at found
    exact absurd (decide_eq_true rfl) (found _ mem)
  | some other =>
    have there := mem_of_get_eq_some found
    have same := List.inj_on_of_nodup_map map.nodup_keys mem there rfl
    rw [(Prod.mk.inj same).2]

/-! ### Updates -/

/-- The value of the first entry with the key. -/
def lookup (entries : List (κ × ν)) (key : κ) : Option ν :=
  (entries.find? fun entry => entry.1 = key).map (·.2)

/-- The entries with the value of a key made out of the old one. -/
def upsertEntry (key : κ) (value : Option ν → ν) : List (κ × ν) → List (κ × ν)
  | [] => [(key, value none)]
  | (k, v) :: rest =>
    if key < k then (key, value none) :: (k, v) :: rest
    else if key = k then (k, value (some v)) :: rest
    else (k, v) :: upsertEntry key value rest

theorem lookup_cons (k : κ) (v : ν) (rest : List (κ × ν)) (key : κ) :
    lookup ((k, v) :: rest) key = if k = key then some v else lookup rest key := by
  by_cases same : k = key <;> simp [lookup, same]

theorem lookup_eq_none (later : ∀ entry ∈ entries, key < entry.1) :
    lookup entries key = none := by
  rw [lookup, Option.map_eq_none_iff, List.find?_eq_none]
  intro entry mem
  simpa using (later entry mem).ne'

theorem mem_upsertEntry {value : Option ν → ν} {entry : κ × ν}
    (mem : entry ∈ upsertEntry key value entries) : entry.1 = key ∨ entry ∈ entries := by
  induction entries with
  | nil => exact .inl (by rw [List.mem_singleton.mp mem])
  | cons first rest ih =>
    rw [upsertEntry] at mem
    split at mem
    · rcases List.mem_cons.mp mem with rfl | mem
      · exact .inl rfl
      · exact .inr mem
    · split at mem
      next same =>
        rcases List.mem_cons.mp mem with rfl | mem
        · exact .inl same.symm
        · exact .inr (List.mem_cons_of_mem _ mem)
      next =>
        rcases List.mem_cons.mp mem with rfl | mem
        · exact .inr List.mem_cons_self
        · exact (ih mem).imp_right (List.mem_cons_of_mem _)

theorem pairwise_upsertEntry (key : κ) (value : Option ν → ν)
    (sorted : entries.Pairwise fun a b => a.1 < b.1) :
    (upsertEntry key value entries).Pairwise fun a b => a.1 < b.1 := by
  induction entries with
  | nil => exact List.pairwise_singleton _ _
  | cons first rest ih =>
    obtain ⟨later, tail⟩ := List.pairwise_cons.mp sorted
    rw [upsertEntry]
    split
    next before =>
      refine List.pairwise_cons.mpr ⟨?_, sorted⟩
      intro entry mem
      rcases List.mem_cons.mp mem with rfl | mem
      · exact before
      · exact before.trans (later entry mem)
    next notBefore =>
      split
      next => exact List.pairwise_cons.mpr ⟨later, tail⟩
      next other =>
        refine List.pairwise_cons.mpr ⟨?_, ih tail⟩
        intro entry mem
        rcases mem_upsertEntry mem with same | mem
        · rw [same]
          exact lt_of_le_of_ne (not_lt.mp notBefore) (Ne.symm other)
        · exact later entry mem

theorem lookup_upsertEntry (key : κ) (value : Option ν → ν)
    (sorted : entries.Pairwise fun a b => a.1 < b.1)
    (k : κ) : lookup (upsertEntry key value entries) k =
      if k = key then some (value (lookup entries key)) else lookup entries k := by
  induction entries with
  | nil =>
    rw [upsertEntry, lookup_cons]
    by_cases same : k = key
    · rw [if_pos same.symm, if_pos same]
      rfl
    · rw [if_neg (Ne.symm same), if_neg same]
  | cons first rest ih =>
    obtain ⟨a, v⟩ := first
    obtain ⟨later, tail⟩ := List.pairwise_cons.mp sorted
    rw [upsertEntry]
    split
    next before =>
      have absent : lookup ((a, v) :: rest) key = none := lookup_eq_none <|
        List.forall_mem_cons.mpr ⟨before, fun entry mem => before.trans (later entry mem)⟩
      rw [absent, lookup_cons]
      by_cases same : k = key
      · rw [if_pos same.symm, if_pos same]
      · rw [if_neg (Ne.symm same), if_neg same]
    next =>
      split
      next here =>
        subst here
        rw [lookup_cons, lookup_cons, lookup_cons, if_pos rfl]
        by_cases same : k = key
        · rw [if_pos same.symm, if_pos same]
        · rw [if_neg (Ne.symm same), if_neg same, if_neg (Ne.symm same)]
      next other =>
        rw [lookup_cons, lookup_cons, lookup_cons, if_neg (Ne.symm other), ih tail]
        by_cases atFirst : a = k
        · rw [if_pos atFirst, if_pos atFirst, if_neg fun same =>
            other (same.symm.trans atFirst.symm)]
        · rw [if_neg atFirst, if_neg atFirst]

/-- `entry(key)` with what is done to its value, absent or not. -/
def upsert (map : SortedMap κ ν) (key : κ) (value : Option ν → ν) : SortedMap κ ν :=
  ⟨upsertEntry key value map.entries, pairwise_upsertEntry key value map.sorted⟩

theorem get_upsert (map : SortedMap κ ν) (key : κ) (value : Option ν → ν) (k : κ) :
    (map.upsert key value).get k = if k = key then some (value (map.get key)) else map.get k :=
  lookup_upsertEntry key value map.sorted k

/-! ### Buckets -/

section Buckets

variable {α : Type w} (bucket : α → κ)

/-- The items of a list in buckets: `entry(bucket).or_default().push(item)` for each. -/
def bucketed (items : List α) : SortedMap κ (List α) :=
  items.foldl (fun map item => map.upsert (bucket item) fun held => held.getD [] ++ [item]) empty

/-- A bucket holds the items that fall into it, in their order, and there is none without items. -/
theorem get_bucketed (items : List α) (k : κ) : (bucketed bucket items).get k =
    if (items.filter fun item => bucket item = k) = [] then none
    else some (items.filter fun item => bucket item = k) := by
  induction items using List.reverseRecOn with
  | nil => rfl
  | append_singleton items item ih =>
    have unfolded : bucketed bucket (items ++ [item]) =
        (bucketed bucket items).upsert (bucket item) fun held => held.getD [] ++ [item] := by
      rw [bucketed, List.foldl_append]
      rfl
    rw [unfolded, get_upsert, List.filter_append]
    by_cases here : k = bucket item
    · subst here
      rw [if_pos rfl, ih]
      by_cases none : (items.filter fun other => bucket other = bucket item) = []
      · simp [none]
      · simp [none]
    · rw [if_neg here, ih]
      simp [Ne.symm here]

theorem mem_entries_bucketed {items : List α} {k : κ} {held : List α} :
    (k, held) ∈ (bucketed bucket items).entries ↔
      held = (items.filter fun item => bucket item = k) ∧ held ≠ [] := by
  rw [mem_entries_iff, get_bucketed]
  constructor
  · intro found
    split at found
    · cases found
    next some =>
      obtain rfl := Option.some.inj found
      exact ⟨rfl, some⟩
  · rintro ⟨rfl, some⟩
    rw [if_neg some]

end Buckets

end SortedMap

end Kache
