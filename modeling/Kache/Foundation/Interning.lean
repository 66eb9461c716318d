import Kache.Foundation.Rows

/-!
# Interned values and references to them

A table of values in which every value stands once, under a generated key, and a table of references
from owners to such keys.  A value that is recorded again is found again (`intern`).

An owner *holds* a value if it has a reference to the value's key.  `Recorded` is what recording the
values of one owner does: the owner holds exactly these values, and no other owner notices, although
rows are shared and keys of rows that are gone may be given out again.
-/

namespace Kache

universe u

variable {β : Type u} [DecidableEq β]

/-- The key of a value: the one it has, or the next one. -/
def intern (rows : List (ℕ × β)) (value : β) : List (ℕ × β) × ℕ :=
  match rows.find? (·.2 = value) with
  | some row => (rows, row.1)
  | none => (rows ++ [(nextId (rows.map Prod.fst), value)], nextId (rows.map Prod.fst))

/-- Keys and values are unique. -/
structure Interned (rows : List (ℕ × β)) : Prop where
  keys : (rows.map Prod.fst).Nodup
  values : (rows.map Prod.snd).Nodup

theorem intern_cases (rows : List (ℕ × β)) (value : β) :
    (∃ key, (key, value) ∈ rows ∧ intern rows value = (rows, key)) ∨
    (value ∉ rows.map Prod.snd ∧
      intern rows value = (rows ++ [(nextId (rows.map Prod.fst), value)],
          nextId (rows.map Prod.fst))) := by
  unfold intern
  cases found : rows.find? (·.2 = value) with
  | some row =>
    have same := List.find?_some found
    rw [decide_eq_true_eq] at same
    refine .inl ⟨row.1, ?_, rfl⟩
    rw [← same]
    exact List.mem_of_find?_eq_some found
  | none =>
    refine .inr ⟨fun mem => ?_, rfl⟩
    obtain ⟨row, inside, same⟩ := List.mem_map.mp mem
    exact List.find?_eq_none.mp found row inside (decide_eq_true same)

/-- The value has its key. -/
theorem mem_intern (rows : List (ℕ × β)) (value : β) :
    ((intern rows value).2, value) ∈ (intern rows value).1 := by
  rcases intern_cases rows value with ⟨key, mem, eq⟩ | ⟨-, eq⟩
  · rw [eq]
    exact mem
  · rw [eq]
    exact List.mem_append_right _ List.mem_cons_self

/-- Nothing is lost. -/
theorem subset_intern (rows : List (ℕ × β)) (value : β) : rows ⊆ (intern rows value).1 := by
  rcases intern_cases rows value with ⟨key, -, eq⟩ | ⟨-, eq⟩
  · rw [eq]
    exact List.Subset.refl rows
  · rw [eq]
    exact List.subset_append_left rows _

/-- What is new has a new key. -/
theorem mem_or_new_of_mem_intern {rows : List (ℕ × β)} {value : β} {row : ℕ × β}
    (mem : row ∈ (intern rows value).1) : row ∈ rows ∨ row.1 ∉ rows.map Prod.fst := by
  rcases intern_cases rows value with ⟨key, -, eq⟩ | ⟨-, eq⟩
  · rw [eq] at mem
    exact .inl mem
  · rw [eq] at mem
    rcases List.mem_append.mp mem with mem | mem
    · exact .inl mem
    · rw [List.mem_singleton.mp mem]
      exact .inr (nextId_notMem _)

namespace Interned

variable {rows : List (ℕ × β)}

omit [DecidableEq β] in
theorem value_unique (h : Interned rows) {key : ℕ} {a b : β} (ha : (key, a) ∈ rows)
    (hb : (key, b) ∈ rows) : a = b :=
  congrArg Prod.snd (List.inj_on_of_nodup_map h.keys ha hb rfl)

omit [DecidableEq β] in
theorem key_unique (h : Interned rows) {i j : ℕ} {value : β} (hi : (i, value) ∈ rows)
    (hj : (j, value) ∈ rows) : i = j :=
  congrArg Prod.fst (List.inj_on_of_nodup_map h.values hi hj rfl)

protected theorem intern (h : Interned rows) (value : β) : Interned (intern rows value).1 := by
  rcases intern_cases rows value with ⟨key, -, eq⟩ | ⟨absent, eq⟩
  · rw [eq]
    exact h
  · rw [eq]
    constructor
    · rw [List.map_append, List.map_singleton, ← List.concat_eq_append, List.nodup_concat]
      exact ⟨nextId_notMem _, h.keys⟩
    · rw [List.map_append, List.map_singleton, ← List.concat_eq_append, List.nodup_concat]
      exact ⟨absent, h.values⟩

omit [DecidableEq β] in
protected theorem sublist (h : Interned rows) {some : List (ℕ × β)} (sub : List.Sublist some rows) :
    Interned some :=
  ⟨h.keys.sublist (sub.map _), h.values.sublist (sub.map _)⟩

end Interned

/-! ## References -/

/-- The owner has a reference to the value. -/
def Holds (rows : List (ℕ × β)) (refs : List (ℕ × ℕ)) (owner : ℕ) (value : β) : Prop :=
  ∃ key, (key, value) ∈ rows ∧ (owner, key) ∈ refs

/-- No reference leads nowhere. -/
def Referential (rows : List (ℕ × β)) (refs : List (ℕ × ℕ)) : Prop :=
  ∀ ref ∈ refs, ref.2 ∈ rows.map Prod.fst

/-- From `rows₀` and `refs₀`, in which the owner has no reference, the values of the owner were
recorded. -/
structure Recorded (owner : ℕ) (rows₀ : List (ℕ × β)) (refs₀ : List (ℕ × ℕ)) (values : List β)
    (rows : List (ℕ × β)) (refs : List (ℕ × ℕ)) : Prop where
  interned : Interned rows
  referential : Referential rows refs
  nodup : refs.Nodup
  kept : rows₀ ⊆ rows
  fresh : ∀ row ∈ rows, row ∈ rows₀ ∨ row.1 ∉ rows₀.map Prod.fst
  others : ∀ ref, ref.1 ≠ owner → (ref ∈ refs ↔ ref ∈ refs₀)
  whole : ∀ value, Holds rows refs owner value ↔ value ∈ values

namespace Recorded

variable {owner : ℕ} {rows₀ rows : List (ℕ × β)} {refs₀ refs : List (ℕ × ℕ)} {values : List β}

omit [DecidableEq β] in
theorem start (interned : Interned rows₀) (referential : Referential rows₀ refs₀)
    (nodup : refs₀.Nodup)
    (none : ∀ ref ∈ refs₀, ref.1 ≠ owner) : Recorded owner rows₀ refs₀ [] rows₀ refs₀ where
  interned := interned
  referential := referential
  nodup := nodup
  kept := List.Subset.refl rows₀
  fresh := fun _ mem => .inl mem
  others := fun _ _ => Iff.rfl
  whole := by
    intro value
    refine iff_of_false ?_ List.not_mem_nil
    rintro ⟨key, -, mem⟩
    exact none _ mem rfl

/-- One more value: it is found or added, and referred to unless it is already. -/
theorem next (h : Recorded owner rows₀ refs₀ values rows refs) (value : β) :
    Recorded owner rows₀ refs₀ (values ++ [value]) (intern rows value).1
      (if (owner, (intern rows value).2) ∈ refs then refs else
          refs ++ [(owner, (intern rows value).2)]) := by
  have here := mem_intern rows value
  have interned := h.interned.intern value
  have grown : ∀ ref, ref ∈ (if (owner, (intern rows value).2) ∈ refs then refs
      else refs ++ [(owner, (intern rows value).2)]) ↔ ref ∈ refs ∨
        ref = (owner, (intern rows value).2) := by
    intro ref
    split
    · next there => exact ⟨.inl, fun either => either.elim id fun same => same ▸ there⟩
    · rw [List.mem_append, List.mem_singleton]
  refine ⟨interned, ?_, ?_, List.Subset.trans h.kept (subset_intern rows value), ?_, ?_, ?_⟩
  · intro ref mem
    rcases (grown ref).mp mem with old | rfl
    · exact List.map_subset _ (subset_intern rows value) (h.referential ref old)
    · exact List.mem_map_of_mem here
  · split
    · exact h.nodup
    · next absent =>
      rw [← List.concat_eq_append, List.nodup_concat]
      exact ⟨absent, h.nodup⟩
  · intro row mem
    rcases mem_or_new_of_mem_intern mem with old | new
    · exact h.fresh row old
    · exact .inr fun there => new (List.map_subset _ h.kept there)
  · intro ref other
    rw [grown, h.others ref other]
    exact or_iff_left fun same => other (congrArg Prod.fst same)
  · intro other
    rw [List.mem_append, List.mem_singleton]
    constructor
    · rintro ⟨key, mem, ref⟩
      rcases (grown _).mp ref with ref | ref
      · -- an old reference leads to an old row, so the value was held before
        obtain ⟨row, inside, same⟩ := List.mem_map.mp (h.referential _ ref)
        have named : (key, row.2) ∈ rows := by
          rw [← show row.1 = key from same]
          exact inside
        obtain rfl := interned.value_unique mem (subset_intern rows value named)
        exact .inl ((h.whole _).mp ⟨key, named, ref⟩)
      · obtain ⟨-, rfl⟩ := Prod.mk.inj ref
        exact .inr (interned.value_unique mem here)
    · rintro (old | rfl)
      · obtain ⟨key, mem, ref⟩ := (h.whole other).mpr old
        exact ⟨key, subset_intern rows value mem, (grown _).mpr (.inl ref)⟩
      · exact ⟨_, here, (grown _).mpr (.inr rfl)⟩

omit [DecidableEq β] in
/-- Another owner holds what it held. -/
theorem holds_other (h : Recorded owner rows₀ refs₀ values rows refs)
    (referential : Referential rows₀ refs₀) {other : ℕ} (ne : other ≠ owner) (value : β) :
    Holds rows refs other value ↔ Holds rows₀ refs₀ other value := by
  constructor
  · rintro ⟨key, mem, ref⟩
    have old := (h.others (other, key) ne).mp ref
    rcases h.fresh _ mem with there | new
    · exact ⟨key, there, old⟩
    · exact absurd (referential _ old) new
  · rintro ⟨key, mem, ref⟩
    exact ⟨key, h.kept mem, (h.others (other, key) ne).mpr ref⟩

end Recorded

end Kache
