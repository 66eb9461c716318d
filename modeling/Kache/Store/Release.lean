import Kache.Store.Removal

/-!
# Giving references back

What a release and a removal do to the `blobs` table of *any* index, counted or not.  Both run the
floor first: before a key gives its references back, the counts of the blobs it maps are raised to
what all the mappings hold, so that the key can spend no reference but its own.
-/

namespace Kache

namespace Index

variable {idx : Index} {key : String}

/-- The references the keys other than `key` hold on `hash`. -/
def othersRefs (idx : Index) (key hash : String) : ℤ :=
  idx.entryBlobs.sumOver fun p refs => if p.1 ≠ key ∧ p.2 = hash then refs else 0

/-- All references are the own ones and the others'. -/
theorem mappedRefs_eq_add (idx : Index) (key hash : String) :
    idx.mappedRefs hash = idx.refs key hash + idx.othersRefs key hash := by
  have others : (deleteMapping key idx).mappedRefs hash = idx.othersRefs key hash := by
    have pointwise : ∀ (p : String × String) (n : ℤ),
        (if p.2 = hash then n else 0) - (if p.1 = key then (if p.2 = hash then n else 0) else 0) =
          if p.1 ≠ key ∧ p.2 = hash then n else 0 := by
      intro p n
      by_cases own : p.1 = key <;> simp [own]
    rw [mappedRefs, deleteMapping, Table.sumOver_deleteWhere, Table.sumOver, Table.sumOver,
      ← Finset.sum_sub_distrib, othersRefs, Table.sumOver]
    refine Finset.sum_congr rfl fun p _ => ?_
    cases idx.entryBlobs.get p with
    | none => rfl
    | some n => simpa using pointwise p n
  rw [mappedRefs_deleteMapping] at others
  omega

/-- Where every mapping of a blob holds at least one reference, a blob that another key maps has
references of others. -/
theorem othersRefs_pos {hash : String}
    (positive : ∀ k n, idx.entryBlobs.get (k, hash) = some n → 0 < n) {other : String}
    (ne : other ≠ key) (mapped : (idx.entryBlobs.get (other, hash)).isSome) :
    0 < idx.othersRefs key hash := by
  obtain ⟨n, row⟩ := Option.isSome_iff_exists.mp mapped
  have term := idx.entryBlobs.elim_le_sumOver
    (fun p refs => if p.1 ≠ key ∧ p.2 = hash then refs else 0) (fun p m row' => ?_) (other, hash)
  · rw [row] at term
    simp only [ne_eq, ne, not_false_eq_true, and_self, if_true, Option.elim_some] at term
    exact lt_of_lt_of_le (positive other n row) term
  · show 0 ≤ if p.1 ≠ key ∧ p.2 = hash then m else 0
    split
    · next hp =>
      have same : (p.1, hash) = p := by rw [← hp.2]
      exact le_of_lt (positive p.1 m (same ▸ row'))
    · exact le_rfl

/-! ## The rows of `blobs` afterwards -/

/-- The `blobs` row of a hash after the floor. -/
theorem blobs_floorBlobRefsAtMappings (key : String) (idx : Index) (h : String) :
    (floorBlobRefsAtMappings key idx).blobs.get h
      = if (idx.entryBlobs.get (key, h)).isSome then
          (idx.blobs.get h).map fun row =>
            { row with refcount := max row.refcount (idx.mappedRefs h) }
        else idx.blobs.get h := rfl

/-- The `blobs` row of a hash after `key`'s references were given back. -/
theorem blobs_releaseEntryBlobRefs_floored (key : String) (idx : Index) (h : String) :
    (releaseEntryBlobRefs key idx).blobs.get h
      = if (idx.entryBlobs.get (key, h)).isSome then
          ((idx.blobs.get h).map fun row =>
            { row with
              refcount := max 0 (max row.refcount (idx.mappedRefs h) - idx.refs key h) }).filter
            fun row => decide (0 < row.refcount)
        else idx.blobs.get h := by
  rw [releaseEntryBlobRefs, blobs_deleteMapping, deleteReleased, Table.get_deleteWhere]
  simp only [subtractMapping, Table.get_updateWhere, blobs_floorBlobRefsAtMappings]
  show Option.filter _ (if (idx.entryBlobs.get (key, h)).isSome then
    Option.map _ (if (idx.entryBlobs.get (key, h)).isSome then _ else _) else _) = _
  by_cases mapped : (idx.entryBlobs.get (key, h)).isSome
  · cases idx.blobs.get h with
    | none => simp [mapped]
    | some row => simp [mapped, Option.filter, refs, floorBlobRefsAtMappings]
  · cases idx.blobs.get h with
    | none => simp [mapped]
    | some row => simp [mapped, floorBlobRefsAtMappings]

/-- The `blobs` row of a hash after a removal has given back one reference for each of `hashes`. -/
theorem blobs_releaseBlobRefs (hashes : List String) (idx : Index) (h : String) :
    (releaseBlobRefs hashes idx).1.blobs.get h
      = if h ∈ hashes then
          ((idx.blobs.get h).map fun row =>
            { row with refcount := row.refcount - hashes.count h }).filter
            fun row => decide (0 < row.refcount)
        else idx.blobs.get h := by
  induction hashes generalizing idx with
  | nil => rfl
  | cons hash rest ih =>
    show (releaseBlobRefs rest (releaseBlobRef hash idx).1).1.blobs.get h = _
    rw [ih, blobs_releaseBlobRef]
    by_cases same : h = hash
    · subst same
      rw [if_pos rfl, if_pos List.mem_cons_self, List.count_cons_self]
      cases idx.blobs.get h with
      | none => simp
      | some row =>
        -- a row that goes early would have gone at the end as well
        by_cases inside : h ∈ rest
        · rw [if_pos inside]
          have once : 0 < rest.count h := List.count_pos_iff.mpr inside
          by_cases alive : 1 < row.refcount
          · simp only [Option.map_some, Option.filter, decide_eq_true_eq]
            rw [if_pos (by omega)]
            have shift : row.refcount - 1 - rest.count h = row.refcount - (rest.count h + 1) := by
              omega
            simp only [Option.map_some, Nat.cast_add, Nat.cast_one, shift]
          · simp only [Option.map_some, Option.filter, decide_eq_true_eq]
            rw [if_neg (by omega), if_neg (by push_cast; omega)]
            rfl
        · rw [if_neg inside, List.count_eq_zero.mpr inside]
          rfl
    · rw [if_neg same]
      have mem : h ∈ hash :: rest ↔ h ∈ rest := by simp [same]
      rw [List.count_cons_of_ne (Ne.symm same)]
      simp only [mem]

/-! ## What the other keys keep -/

/-- What a step that gives the references of `key` back may not take from the other keys. -/
structure KeepsOthers (key : String) (idx idx' : Index) : Prop where
  /-- A row that `key` shares stays, with the references of the others. -/
  shared : ∀ h row, idx.blobs.get h = some row → (idx.entryBlobs.get (key, h)).isSome →
    (∃ other, other ≠ key ∧ (idx.entryBlobs.get (other, h)).isSome) →
    (∀ k n, idx.entryBlobs.get (k, h) = some n → 0 < n) →
    ∃ row', idx'.blobs.get h = some row' ∧ idx.othersRefs key h ≤ row'.refcount
  /-- The rows `key` does not map stay as they are. -/
  unmapped : ∀ h, idx.entryBlobs.get (key, h) = none → idx'.blobs.get h = idx.blobs.get h
  /-- So do the mappings of the other keys. -/
  mappings : ∀ other h, other ≠ key →
    idx'.entryBlobs.get (other, h) = idx.entryBlobs.get (other, h)

/-- It is enough that the row of a mapped blob loses no more than the own references, counted from
the floor, and goes at zero. -/
theorem KeepsOthers.of_rows {idx' : Index} (lost : String → BlobRow → ℤ)
    (rows : ∀ h, idx'.blobs.get h = if (idx.entryBlobs.get (key, h)).isSome then
      ((idx.blobs.get h).map fun row => { row with refcount := lost h row }).filter
        fun row => decide (0 < row.refcount) else idx.blobs.get h)
    (bounded : ∀ h row, (idx.entryBlobs.get (key, h)).isSome →
      idx.mappedRefs h - idx.refs key h ≤ lost h row)
    (mappings : ∀ other h, other ≠ key →
      idx'.entryBlobs.get (other, h) = idx.entryBlobs.get (other, h)) :
    KeepsOthers key idx idx' where
  shared := by
    rintro h row present mapped ⟨other, ne, mapped'⟩ positive
    have others := othersRefs_pos positive ne mapped'
    have floor := bounded h row mapped
    rw [mappedRefs_eq_add idx key h] at floor
    refine ⟨{ row with refcount := lost h row }, ?_, by show _ ≤ lost h row; omega⟩
    rw [rows, if_pos mapped, present]
    exact Option.filter_some_pos (decide_eq_true (show 0 < lost h row by omega))
  unmapped := by
    intro h unmapped
    rw [rows, unmapped]
    rfl
  mappings := mappings

/-- `release_entry_blob_refs` takes nothing from the other keys. -/
theorem keepsOthers_releaseEntryBlobRefs (key : String) (idx : Index) :
    KeepsOthers key idx (releaseEntryBlobRefs key idx) := by
  refine .of_rows (fun h row => max 0 (max row.refcount (idx.mappedRefs h) - idx.refs key h))
    (blobs_releaseEntryBlobRefs_floored key idx) ?_ ?_
  · intro h row _
    have floor := le_max_right row.refcount (idx.mappedRefs h)
    exact le_trans (by omega) (le_max_right 0 _)
  · intro other h ne
    rw [entryBlobs_releaseEntryBlobRefs, if_neg ne]

/-- Neither does the bookkeeping of a removal, if the files are those that `key` maps. -/
theorem keepsOthers_unregisterRefs {files : List CachedFile}
    (maps : idx.Maps key (hashesOf files)) :
    KeepsOthers key idx (unregisterRefs key files idx).1 := by
  have mapped : ∀ h, h ∈ files.map (·.hash) ↔ (idx.entryBlobs.get (key, h)).isSome :=
    fun h => (maps.isSome_iff h).symm
  have count : ∀ h, ((files.map (·.hash)).count h : ℤ) = idx.refs key h :=
    fun h => by rw [maps.refs_eq h, hashesOf, Multiset.coe_count]
  refine .of_rows (fun h row => max row.refcount (idx.mappedRefs h) - idx.refs key h) ?_ ?_ ?_
  · intro h
    rw [unregisterRefs, blobs_releaseBlobRefs, blobs_deleteMapping, blobs_floorBlobRefsAtMappings]
    simp only [mapped, count]
    split
    · cases idx.blobs.get h <;> rfl
    · rfl
  · intro h row _
    have floor := le_max_right row.refcount (idx.mappedRefs h)
    omega
  · intro other h ne
    rw [entryBlobs_unregisterRefs, if_neg ne]

end Index

/-- **Releasing one key never harms another**, whatever the counts are. -/
theorem release_never_harms_another (idx : Index) (key : String) :
    Index.KeepsOthers key idx (Index.releaseEntryBlobRefs key idx) ∧
    ∀ (disk : Disk) (text : MetaText) (m : EntryMeta) (idx' : Index) (unlink : List (String × ℤ)),
      idx.Maps key (hashesOf m.files) →
      removeRows key text m ⟨idx, disk⟩ = some (idx', unlink) →
      Index.KeepsOthers key idx idx' := by
  refine ⟨Index.keepsOthers_releaseEntryBlobRefs key idx,
    fun disk text m idx' unlink maps done => ?_⟩
  obtain ⟨-, -, rows⟩ := removeRows_eq_some done
  have same : idx' = (Index.unregisterRefs key m.files (Index.deleteEntry key idx)).1 := by
    rw [← rows]
  rw [same]
  -- the row of the entry is of no account to the references
  have maps' : (Index.deleteEntry key idx).Maps key (hashesOf m.files) := maps
  obtain ⟨shared, unmapped, mappings⟩ := Index.keepsOthers_unregisterRefs maps'
  exact ⟨shared, unmapped, mappings⟩

/-- An index with one blob of ten bytes, its count and the references of two keys. -/
def Index.ofShared (count : ℤ) (own other : Option ℤ) : Index where
  entries := .empty
  blobs := Table.empty.set "blob" ⟨10, count⟩
  entryBlobs := (other.elim Table.empty fun n => Table.empty.set ("other", "blob") n) |>
    fun t => own.elim t fun n => t.set ("key", "blob") n

/-- The count of a shared blob had fallen to one: the other key keeps the two references it has. -/
theorem release_never_harms_another_of_drift :
    ∃ row, (Index.releaseEntryBlobRefs "key" (.ofShared 1 (some 1) (some 2))).blobs.get "blob"
      = some row ∧ 2 ≤ row.refcount := by
  have keeps := (release_never_harms_another (.ofShared 1 (some 1) (some 2)) "key").1
  have others : (Index.ofShared 1 (some 1) (some 2)).othersRefs "key" "blob" = 2 := by
    decide +kernel
  have positive : ∀ k n,
      (Index.ofShared 1 (some 1) (some 2)).entryBlobs.get (k, "blob") = some n → 0 < n := by
    intro k n row
    simp only [Index.ofShared, Option.elim_some, Table.get_set, Prod.mk.injEq, and_true,
      Table.get_empty] at row
    split at row
    · cases row
      decide
    · obtain ⟨-, ⟨⟩⟩ := Option.ite_none_right_eq_some.mp row
      decide
  obtain ⟨row, present, count⟩ := keeps.shared "blob" ⟨10, 1⟩ (by decide +kernel)
    (by decide +kernel) ⟨"other", by decide, by decide +kernel⟩ positive
  exact ⟨row, present, others ▸ count⟩

/-- A row that `key` does not map stays short of the references of the others if it was.  A row that
another key maps with no reference at all goes. -/
theorem release_leaves_a_short_row :
    ((Index.ofShared 1 none (some 2)).blobs.get "blob").isSome ∧
    ((Index.ofShared 1 none (some 2)).entryBlobs.get ("other", "blob")).isSome ∧
    (∃ row, (Index.releaseEntryBlobRefs "key" (.ofShared 1 none (some 2))).blobs.get "blob" =
        some row ∧
      row.refcount < (Index.ofShared 1 none (some 2)).othersRefs "key" "blob") ∧
    ((Index.ofShared 1 (some 1) (some 0)).blobs.get "blob").isSome ∧
    ((Index.ofShared 1 (some 1) (some 0)).entryBlobs.get ("other", "blob")).isSome ∧
    (Index.releaseEntryBlobRefs "key" (.ofShared 1 (some 1) (some 0))).blobs.get "blob" = none := by
  refine ⟨by decide +kernel, by decide +kernel, ⟨⟨10, 1⟩, by decide +kernel, by decide +kernel⟩,
    by decide +kernel, by decide +kernel, by decide +kernel⟩

end Kache
