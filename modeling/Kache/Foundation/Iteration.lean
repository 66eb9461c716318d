import Kache.Foundation.Table
import Mathlib.Data.List.MinMax

/-!
# Hash maps: removal, size and iteration order

A hash map is a `Table` whose rows can be iterated over, in an order that is the
map's own business: an `Iteration` lists any finite set of keys once each, in some
order.  What a program computes from an iteration may depend on the order, so the
order is an argument wherever one is used.

`insertEvicting` is the insertion of a bounded map: at the cap, a key that is not
there yet costs the oldest row, the first of those with the least stamp.
-/

namespace Kache

universe u v

/-- The order in which a hash map yields its keys. -/
structure Iteration (κ : Type u) where
  arrange : Finset κ → List κ
  mem_arrange : ∀ s k, k ∈ arrange s ↔ k ∈ s
  nodup_arrange : ∀ s, (arrange s).Nodup

namespace Table

variable {κ : Type u} {ν : Type v} [DecidableEq κ]

/-- `remove(k)`. -/
def erase (t : Table κ ν) (k : κ) : Table κ ν where
  get := fun k' => if k' = k then none else t.get k'
  keys := t.keys.erase k
  mem_keys := by
    intro k'
    by_cases hk : k' = k
    · simp [hk]
    · simp [hk, t.mem_keys]

@[simp] theorem get_erase (t : Table κ ν) (k k' : κ) :
    (t.erase k).get k' = if k' = k then none else t.get k' := rfl

theorem card_keys_erase_le (t : Table κ ν) (k : κ) : (t.erase k).keys.card ≤ t.keys.card :=
  Finset.card_erase_le

variable {k : κ} {order : Iteration κ} {stamp : ν → ℕ} {t : Table κ ν} {cap : ℕ}

theorem card_keys_erase_lt (t : Table κ ν) (mem : k ∈ t.keys) :
    (t.erase k).keys.card < t.keys.card :=
  Finset.card_erase_lt_of_mem mem

theorem card_keys_set_le (t : Table κ ν) (k : κ) (v : ν) :
    (t.set k v).keys.card ≤ t.keys.card + 1 :=
  Finset.card_insert_le k t.keys

theorem card_keys_set_of_mem (t : Table κ ν) (mem : k ∈ t.keys) (v : ν) :
    (t.set k v).keys.card = t.keys.card :=
  congrArg Finset.card (Finset.insert_eq_of_mem mem)

omit [DecidableEq κ] in
theorem card_keys_deleteWhere_le (t : Table κ ν) (p : κ → ν → Bool) :
    (t.deleteWhere p).keys.card ≤ t.keys.card :=
  Finset.card_filter_le _ _

/-- `iter().min_by_key(stamp)`: the first key with the least stamp. -/
def oldest (order : Iteration κ) (stamp : ν → ℕ) (t : Table κ ν) : Option κ :=
  (order.arrange t.keys).argmin fun k => (t.get k).elim 0 stamp

omit [DecidableEq κ] in
/-- The oldest key is one of the map's. -/
theorem mem_keys_of_oldest (found : t.oldest order stamp = some k) : k ∈ t.keys :=
  (order.mem_arrange _ _).mp (List.argmin_mem found)

omit [DecidableEq κ] in
/-- Only an empty map has no oldest key. -/
theorem oldest_eq_none (missing : t.oldest order stamp = none) : t.keys = ∅ := by
  have nil := List.argmin_eq_none.mp missing
  refine Finset.eq_empty_of_forall_notMem fun k mem => ?_
  have := (order.mem_arrange _ _).mpr mem
  rw [nil] at this
  cases this

/-- Make room for `k`: a full map that does not have it loses its oldest row. -/
def makeRoom (order : Iteration κ) (stamp : ν → ℕ) (cap : ℕ) (t : Table κ ν) (k : κ) :
    Table κ ν :=
  if cap ≤ t.keys.card ∧ k ∉ t.keys then
    match t.oldest order stamp with
    | some victim => t.erase victim
    | none => t
  else t

/-- The insertion of a bounded map. -/
def insertEvicting (order : Iteration κ) (stamp : ν → ℕ) (cap : ℕ) (t : Table κ ν) (k : κ)
    (v : ν) : Table κ ν :=
  (t.makeRoom order stamp cap k).set k v

/-- Making room only removes rows. -/
theorem get_of_get_makeRoom {k' : κ} {v : ν}
    (found : (t.makeRoom order stamp cap k).get k' = some v) : t.get k' = some v := by
  unfold makeRoom at found
  split at found
  · split at found
    · rw [get_erase] at found
      split at found
      · cases found
      · exact found
    · exact found
  · exact found

/-- **What an insertion with eviction leaves at a key.** -/
theorem get_of_get_insertEvicting {k' : κ} {v w : ν}
    (found : (t.insertEvicting order stamp cap k v).get k' = some w) :
    (k' = k ∧ w = v) ∨ (k' ≠ k ∧ t.get k' = some w) := by
  rw [insertEvicting, get_set] at found
  split at found
  · next same => exact .inl ⟨same, (Option.some.inj found).symm⟩
  · next distinct => exact .inr ⟨distinct, get_of_get_makeRoom found⟩

/-- **The bound is kept.** -/
theorem card_keys_insertEvicting_le (bound : t.keys.card ≤ cap) (pos : 0 < cap) (k : κ) (v : ν) :
    (t.insertEvicting order stamp cap k v).keys.card ≤ cap := by
  unfold insertEvicting makeRoom
  by_cases mem : k ∈ t.keys
  · simp only [mem, not_true_eq_false, and_false, if_false]
    rwa [card_keys_set_of_mem t mem]
  by_cases full : cap ≤ t.keys.card
  · simp only [full, mem, not_false_eq_true, and_self, if_true]
    split
    · next victim found =>
      have removed := card_keys_erase_lt t (mem_keys_of_oldest found)
      have added := card_keys_set_le (t.erase victim) k v
      omega
    · next missing =>
      -- a full map of a positive cap is not empty
      rw [oldest_eq_none missing, Finset.card_empty] at full
      omega
  · simp only [full, false_and, if_false]
    have added := card_keys_set_le t k v
    omega

end Table

end Kache
