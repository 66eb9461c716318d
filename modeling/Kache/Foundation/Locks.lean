import Kache.Foundation.Iteration

/-!
# Exclusive locks

A family of exclusive locks is a `Table` from lock names to the process that has
the lock.  `Locked t p l` says that process `p` has exactly the locks of the list
`l`, each once; it is what a process knows that keeps the guards of its locks in a
list.  Locking a free lock and unlocking one's own keep the lists of everybody
(`lock`, `unlock` for the process itself, `lock_other`, `unlock_other` for the
rest).
-/

namespace Kache

universe u

variable {κ : Type u}

/-- Process `p` has exactly the locks in `l`. -/
structure Locked (t : Table κ ℕ) (p : ℕ) (l : List κ) : Prop where
  nodup : l.Nodup
  mem_iff : ∀ k, t.get k = some p ↔ k ∈ l

namespace Locked

variable {t : Table κ ℕ} {p q : ℕ} {k : κ} {l l' : List κ}

/-- Nobody has a lock of the empty table. -/
theorem empty (p : ℕ) : Locked (Table.empty : Table κ ℕ) p [] :=
  ⟨List.nodup_nil, by simp⟩

/-- **Locks are exclusive.** -/
theorem unique (h : Locked t p l) (h' : Locked t q l') (mem : k ∈ l) (mem' : k ∈ l') : p = q :=
  Option.some.inj (((h.mem_iff k).mpr mem).symm.trans ((h'.mem_iff k).mpr mem'))

variable [DecidableEq κ]

/-- A free lock is taken. -/
theorem lock (h : Locked t p l) (free : t.get k = none) : Locked (t.set k p) p (l ++ [k]) where
  nodup := by
    have fresh : k ∉ l := fun mem => by
      rw [(h.mem_iff k).mpr mem] at free
      cases free
    refine List.nodup_append.mpr ⟨h.nodup, List.nodup_singleton k, ?_⟩
    intro a mem b last same
    exact fresh (List.mem_singleton.mp last ▸ same ▸ mem)
  mem_iff k' := by
    rw [Table.get_set]
    by_cases same : k' = k
    · simp [same]
    · simp [same, h.mem_iff k']

theorem lock_other (h : Locked t q l) (other : q ≠ p) (free : t.get k = none) :
    Locked (t.set k p) q l where
  nodup := h.nodup
  mem_iff k' := by
    rw [Table.get_set]
    by_cases same : k' = k
    · subst same
      have absent : k' ∉ l := fun mem => by
        rw [(h.mem_iff k').mpr mem] at free
        cases free
      simp [absent, Ne.symm other]
    · simp [same, h.mem_iff k']

/-- The first lock of the list is given back. -/
theorem unlock (h : Locked t p (k :: l)) : Locked (t.erase k) p l where
  nodup := (List.nodup_cons.mp h.nodup).2
  mem_iff k' := by
    rw [Table.get_erase]
    by_cases same : k' = k
    · subst same
      simp [(List.nodup_cons.mp h.nodup).1]
    · simp [same, h.mem_iff k']

theorem unlock_other (h : Locked t q l) (other : q ≠ p) (held : t.get k = some p) :
    Locked (t.erase k) q l where
  nodup := h.nodup
  mem_iff k' := by
    rw [Table.get_erase]
    by_cases same : k' = k
    · subst same
      have absent : k' ∉ l := fun mem => by
        rw [(h.mem_iff k').mpr mem] at held
        exact other (Option.some.inj held)
      simp [absent]
    · simp [same, h.mem_iff k']

end Locked

end Kache
