import Kache.Store.Index

/-!
# Reference counting

The index is *counted* when the `blobs` table is exactly the aggregate of
`entry_blobs`: a hash has a row if and only if some mapping holds references on
it, and the count in that row is the sum of those references.  In the middle of
a transaction the two tables differ by the references that were taken and not
yet recorded, or dropped from the mapping and not yet given back; `Counted idx
pending` carries that difference as a multiset, so that every SQL helper has one
lemma that says how it moves the difference:

* `releaseEntryBlobRefs` keeps it — mapping and count fall together;
* `takeBlobRefs` adds the files' hashes, `recordEntryBlobs` removes them;
* `deleteMapping` adds the hashes it drops, `releaseBlobRefs` removes them.

The floor that `release_entry_blob_refs` and the removal run first is a no-op on
a counted index (`Counted.floorBlobRefsAtMappings_eq`): it only matters for
indexes that already drifted.

`Maps idx key hashes` is the other half of the picture: the mapping of one key
is a given multiset of hashes, one row per distinct hash.
-/

namespace Kache

/-- A count as a row: zero is no row. -/
def countRow (n : ℤ) : Option ℤ := if n = 0 then none else some n

@[simp] theorem countRow_zero : countRow 0 = none := rfl

variable {n : ℤ} {key h : String} {hashes : Multiset String}

theorem countRow_eq_none : countRow n = none ↔ n = 0 := by
  unfold countRow
  split <;> simp [*]

theorem countRow_eq_some {m : ℤ} : countRow n = some m ↔ n = m ∧ n ≠ 0 := by
  unfold countRow
  split
  · next hn => simp [hn]
  · next hn => simp [hn]

/-- A row that is dropped at zero counts what it counted. -/
theorem map_refcount_filter_pos {row : BlobRow} (count : row.refcount = n) (nonneg : 0 ≤ n) :
    ((some row).filter fun row => decide (0 < row.refcount)).map (·.refcount) = countRow n := by
  by_cases hzero : n = 0
  · rw [hzero, countRow_zero, Option.filter_some_neg, Option.map_none]
    simp only [decide_eq_false_iff_not]
    omega
  · rw [Option.filter_some_pos, Option.map_some, eq_comm, countRow_eq_some]
    · exact ⟨count.symm, hzero⟩
    · simp only [decide_eq_true_eq]
      omega

@[simp] theorem getD_countRow (n : ℤ) : (countRow n).getD 0 = n := by
  unfold countRow
  split <;> simp [*]

namespace Index

variable {idx : Index}

/-! ## What a statement does to the aggregates -/

@[simp] theorem entries_deleteMapping (key : String) (idx : Index) :
    (deleteMapping key idx).entries = idx.entries := rfl

@[simp] theorem blobs_deleteMapping (key : String) (idx : Index) :
    (deleteMapping key idx).blobs = idx.blobs := rfl

theorem entryBlobs_deleteMapping (key : String) (idx : Index) (k h : String) :
    (deleteMapping key idx).entryBlobs.get (k, h)
      = if k = key then none else idx.entryBlobs.get (k, h) := by
  simp only [deleteMapping, Table.get_deleteWhere]
  by_cases hk : k = key <;> cases idx.entryBlobs.get (k, h) <;> simp [hk]

/-- Dropping a mapping takes its own references off the aggregate. -/
theorem mappedRefs_deleteMapping (key : String) (idx : Index) (h : String) :
    (deleteMapping key idx).mappedRefs h = idx.mappedRefs h - idx.refs key h := by
  have hown : idx.entryBlobs.sumOver
        (fun p n => if decide (p.1 = key) = true then (if p.2 = h then n else 0) else 0)
      = idx.refs key h := by
    rw [idx.entryBlobs.sumOver_eq_single _ (key, h)]
    · cases hrow : idx.entryBlobs.get (key, h) <;> simp [refs, hrow]
    · rintro ⟨k, h'⟩ hne n
      by_cases hk : k = key
      · have hh : h' ≠ h := by
          rintro rfl
          exact hne (by rw [hk])
        simp [hh]
      · simp [hk]
  simp only [mappedRefs, deleteMapping]
  rw [Table.sumOver_deleteWhere, hown]

/-- Recording one file adds one reference to the aggregate of its hash. -/
theorem mappedRefs_mapEntryBlob (key : String) (file : CachedFile) (idx : Index) (h : String) :
    (mapEntryBlob key file idx).mappedRefs h
      = idx.mappedRefs h + if file.hash = h then 1 else 0 := by
  simp only [mappedRefs, mapEntryBlob]
  rw [Table.sumOver_set]
  by_cases hh : file.hash = h
  · cases idx.entryBlobs.get (key, file.hash) with
    | none => simp [hh]
    | some n =>
      simp only [hh, if_true, Option.elim_some]
      omega
  · cases idx.entryBlobs.get (key, file.hash) <;> simp [hh]

@[simp] theorem entries_takeBlobRef (file : CachedFile) (idx : Index) :
    (takeBlobRef file idx).entries = idx.entries := rfl

@[simp] theorem entryBlobs_takeBlobRef (file : CachedFile) (idx : Index) :
    (takeBlobRef file idx).entryBlobs = idx.entryBlobs := rfl

/-- The `blobs` row of a hash after one reference was taken. -/
theorem blobs_takeBlobRef (file : CachedFile) (idx : Index) (h : String) :
    (takeBlobRef file idx).blobs.get h
      = if h = file.hash then
          some ((idx.blobs.get h).elim ⟨asI64 file.size, 1⟩
            fun row => { row with refcount := row.refcount + 1 })
        else idx.blobs.get h := by
  unfold takeBlobRef
  cases hrow : idx.blobs.get file.hash with
  | none =>
    simp only [Option.isSome_none, Bool.false_eq_true, if_false]
    rw [Table.get_insertOrIgnore]
    by_cases hh : h = file.hash <;> simp [hh, hrow]
  | some row =>
    simp only [Option.isSome_some, if_true, Table.get_updateWhere]
    by_cases hh : h = file.hash <;> simp [hh, hrow]

theorem refcount?_takeBlobRef (file : CachedFile) (idx : Index) (h : String) :
    (takeBlobRef file idx).refcount? h
      = if h = file.hash then some ((idx.refcount? h).getD 0 + 1) else idx.refcount? h := by
  simp only [refcount?, blobs_takeBlobRef]
  by_cases hh : h = file.hash
  · simp only [hh, if_true]
    cases idx.blobs.get file.hash <;> simp
  · simp [hh]

@[simp] theorem entries_takeBlobRefs (files : List CachedFile) (idx : Index) :
    (takeBlobRefs files idx).entries = idx.entries := by
  induction files generalizing idx with
  | nil => rfl
  | cons file rest ih => exact (ih (takeBlobRef file idx)).trans rfl

@[simp] theorem entryBlobs_takeBlobRefs (files : List CachedFile) (idx : Index) :
    (takeBlobRefs files idx).entryBlobs = idx.entryBlobs := by
  induction files generalizing idx with
  | nil => rfl
  | cons file rest ih => exact (ih (takeBlobRef file idx)).trans rfl

@[simp] theorem entries_releaseEntryBlobRefs (key : String) (idx : Index) :
    (releaseEntryBlobRefs key idx).entries = idx.entries := rfl

theorem entryBlobs_releaseEntryBlobRefs (key : String) (idx : Index) (k h : String) :
    (releaseEntryBlobRefs key idx).entryBlobs.get (k, h)
      = if k = key then none else idx.entryBlobs.get (k, h) :=
  entryBlobs_deleteMapping key _ k h

/-- The `blobs` row of a hash after `key`'s references were given back to an
index the floor does not change. -/
theorem blobs_releaseEntryBlobRefs {idx : Index} (floored : floorBlobRefsAtMappings key idx = idx)
    (h : String) : (releaseEntryBlobRefs key idx).blobs.get h
      = if (idx.entryBlobs.get (key, h)).isSome then
          ((idx.blobs.get h).map fun row =>
            { row with refcount := max 0 (row.refcount - idx.refs key h) }).filter
            fun row => decide (0 < row.refcount)
        else idx.blobs.get h := by
  rw [releaseEntryBlobRefs, floored, blobs_deleteMapping, deleteReleased, Table.get_deleteWhere]
  simp only [subtractMapping, Table.get_updateWhere]
  by_cases mapped : (idx.entryBlobs.get (key, h)).isSome
  · cases idx.blobs.get h <;> simp [mapped, Option.filter]
  · cases idx.blobs.get h <;> simp [mapped]

@[simp] theorem entries_releaseBlobRef (hash : String) (idx : Index) :
    (releaseBlobRef hash idx).1.entries = idx.entries := by
  simp only [releaseBlobRef]
  split
  · split <;> rfl
  · rfl

@[simp] theorem entryBlobs_releaseBlobRef (hash : String) (idx : Index) :
    (releaseBlobRef hash idx).1.entryBlobs = idx.entryBlobs := by
  simp only [releaseBlobRef]
  split
  · split <;> rfl
  · rfl

/-- One reference given back: the row of the hash loses one, and goes at zero. -/
theorem blobs_releaseBlobRef (hash : String) (idx : Index) (h : String) :
    (releaseBlobRef hash idx).1.blobs.get h
      = if h = hash then
          ((idx.blobs.get hash).map fun row => { row with refcount := row.refcount - 1 }).filter
            fun row => decide (0 < row.refcount)
        else idx.blobs.get h := by
  cases hrow : idx.blobs.get hash with
  | none =>
    simp only [releaseBlobRef, Table.get_updateWhere, decide_true, if_true, hrow, Option.map_none]
    by_cases hh : h = hash <;> simp [hh, hrow]
  | some row =>
    by_cases hzero : row.refcount - 1 ≤ 0
    · simp only [releaseBlobRef, Table.get_updateWhere, decide_true, if_true, hrow,
        Option.map_some, hzero, Table.get_deleteWhere]
      by_cases hh : h = hash
      · have hone : row.refcount ≤ 1 := by omega
        simp [hh, Option.filter, hrow, hone]
      · cases idx.blobs.get h <;> simp [hh]
    · simp only [releaseBlobRef, Table.get_updateWhere, decide_true, if_true, hrow,
        Option.map_some, hzero, if_false]
      by_cases hh : h = hash
      · have hone : 1 < row.refcount := by omega
        simp [hh, Option.filter, hrow, hone]
      · simp [hh]

@[simp] theorem entries_releaseBlobRefs (hashes : List String) (idx : Index) :
    (releaseBlobRefs hashes idx).1.entries = idx.entries := by
  induction hashes generalizing idx with
  | nil => rfl
  | cons hash rest ih => exact (ih _).trans (entries_releaseBlobRef hash idx)

@[simp] theorem entryBlobs_releaseBlobRefs (hashes : List String) (idx : Index) :
    (releaseBlobRefs hashes idx).1.entryBlobs = idx.entryBlobs := by
  induction hashes generalizing idx with
  | nil => rfl
  | cons hash rest ih => exact (ih _).trans (entryBlobs_releaseBlobRef hash idx)

/-! ## The mapping of one key -/

/-- The rows `entry_blobs` has for `key` are exactly the multiset `hashes`. -/
def Maps (idx : Index) (key : String) (hashes : Multiset String) : Prop :=
  ∀ h, idx.entryBlobs.get (key, h) = countRow (hashes.count h)

theorem Maps.refs_eq (maps : idx.Maps key hashes) (h : String) :
    idx.refs key h = hashes.count h := by
  rw [refs, maps h, getD_countRow]

theorem Maps.isSome_iff (maps : idx.Maps key hashes) (h : String) :
    (idx.entryBlobs.get (key, h)).isSome ↔ h ∈ hashes := by
  rw [maps h, Option.isSome_iff_ne_none, Ne, countRow_eq_none]
  simp

theorem Maps.unique {hashes' : Multiset String} (maps : idx.Maps key hashes)
    (maps' : idx.Maps key hashes') : hashes = hashes' := by
  ext h
  have hrefs := (maps.refs_eq h).symm.trans (maps'.refs_eq h)
  exact_mod_cast hrefs

theorem maps_deleteMapping (key : String) (idx : Index) : (deleteMapping key idx).Maps key 0 := by
  intro h
  rw [entryBlobs_deleteMapping, if_pos rfl, Multiset.count_zero]
  rfl

theorem Maps.mapEntryBlob (maps : idx.Maps key hashes) (file : CachedFile) :
    (mapEntryBlob key file idx).Maps key (file.hash ::ₘ hashes) := by
  intro h
  simp only [Index.mapEntryBlob, Table.get_set, Prod.mk.injEq, true_and]
  by_cases hh : h = file.hash
  · subst hh
    rw [if_pos rfl, Multiset.count_cons_self, maps file.hash]
    have hpos : ((hashes.count file.hash : ℤ) + 1) ≠ 0 := by omega
    by_cases hzero : hashes.count file.hash = 0
    · simp [hzero, countRow]
    · simp [countRow, hzero, hpos]
  · rw [if_neg hh, Multiset.count_cons_of_ne hh, maps h]

/-- What `record_entry_blobs` does, read off its fold: the entry's rows are the
files' hashes, every other key's rows stay, and the aggregate moves by the
difference. -/
theorem mapEntryBlobs_spec (files : List CachedFile) {idx : Index} (maps : idx.Maps key hashes) :
    let after := files.foldl (fun acc file => Index.mapEntryBlob key file acc) idx
    after.Maps key (hashesOf files + hashes)
      ∧ (∀ k h, k ≠ key → after.entryBlobs.get (k, h) = idx.entryBlobs.get (k, h))
      ∧ (∀ h, after.mappedRefs h = idx.mappedRefs h + (hashesOf files).count h)
      ∧ after.blobs = idx.blobs ∧ after.entries = idx.entries := by
  induction files generalizing idx hashes with
  | nil => simpa using maps
  | cons file rest ih =>
    obtain ⟨hmaps, hothers, hsum, hblobs, hentries⟩ := ih (maps.mapEntryBlob file)
    refine ⟨?_, ?_, ?_, hblobs, hentries⟩
    · have hcomm : hashesOf rest + (file.hash ::ₘ hashes)
          = hashesOf (file :: rest) + hashes := by
        rw [hashesOf_cons, Multiset.add_cons, Multiset.cons_add]
      exact hcomm ▸ hmaps
    · intro k h hne
      rw [List.foldl_cons, hothers k h hne, Index.mapEntryBlob, Table.get_set,
        if_neg (by simp [hne])]
    · intro h
      rw [List.foldl_cons, hsum h, mappedRefs_mapEntryBlob, hashesOf_cons, Multiset.count_cons]
      by_cases hh : file.hash = h
      · rw [if_pos hh, if_pos hh.symm]
        omega
      · rw [if_neg hh, if_neg (Ne.symm hh), add_zero, add_zero]

theorem maps_recordEntryBlobs (key : String) (files : List CachedFile) (idx : Index) :
    (recordEntryBlobs key files idx).Maps key (hashesOf files) := by
  have hspec := (mapEntryBlobs_spec files (maps_deleteMapping key idx)).1
  rwa [add_zero] at hspec

theorem entryBlobs_recordEntryBlobs_of_ne {k : String} (hne : k ≠ key) (files : List CachedFile)
    (idx : Index) (h : String) :
    (recordEntryBlobs key files idx).entryBlobs.get (k, h) = idx.entryBlobs.get (k, h) := by
  have hspec := (mapEntryBlobs_spec files (maps_deleteMapping key idx)).2.1 k h hne
  rw [recordEntryBlobs, hspec, entryBlobs_deleteMapping, if_neg hne]

theorem mappedRefs_recordEntryBlobs (key : String) (files : List CachedFile) (idx : Index)
    (h : String) :
    (recordEntryBlobs key files idx).mappedRefs h
      = idx.mappedRefs h - idx.refs key h + (hashesOf files).count h := by
  have hspec := (mapEntryBlobs_spec files (maps_deleteMapping key idx)).2.2.1 h
  rw [recordEntryBlobs, hspec, mappedRefs_deleteMapping]

@[simp] theorem blobs_recordEntryBlobs (key : String) (files : List CachedFile) (idx : Index) :
    (recordEntryBlobs key files idx).blobs = idx.blobs :=
  (mapEntryBlobs_spec files (maps_deleteMapping key idx)).2.2.2.1

@[simp] theorem entries_recordEntryBlobs (key : String) (files : List CachedFile) (idx : Index) :
    (recordEntryBlobs key files idx).entries = idx.entries :=
  (mapEntryBlobs_spec files (maps_deleteMapping key idx)).2.2.2.2

/-- One entry's references are part of the aggregate. -/
theorem refs_le_mappedRefs (positive : ∀ p n, idx.entryBlobs.get p = some n → 0 < n)
    (key h : String) : idx.refs key h ≤ idx.mappedRefs h := by
  have hterm := idx.entryBlobs.elim_le_sumOver (fun p n => if p.2 = h then n else 0)
    (fun p n hrow => by
      have hpos := positive p n hrow
      split <;> omega) (key, h)
  unfold refs mappedRefs
  cases hrow : idx.entryBlobs.get (key, h) <;> simpa [hrow] using hterm

/-! ## The counting invariant -/

/-- **Counted.**  Every mapping row holds at least one reference, and the
`blobs` table is the aggregate of the mappings plus the references in
`pending`: a row exactly where that sum is not zero, and its count is the sum. -/
structure Counted (idx : Index) (pending : Multiset String) : Prop where
  positive : ∀ p n, idx.entryBlobs.get p = some n → 0 < n
  refcount : ∀ h, idx.refcount? h = countRow (idx.mappedRefs h + pending.count h)

theorem counted_empty : (empty : Index).Counted 0 where
  positive := by
    intro p n hrow
    simp [empty] at hrow
  refcount := by
    intro h
    simp [empty, refcount?, mappedRefs]

section Counted

variable {pending : Multiset String}

theorem Counted.refs_nonneg (counted : idx.Counted pending) (key h : String) :
    0 ≤ idx.refs key h := by
  unfold refs
  cases hrow : idx.entryBlobs.get (key, h) with
  | none => simp
  | some n => exact (counted.positive _ n hrow).le

theorem Counted.refs_le_mappedRefs (counted : idx.Counted pending) (key h : String) :
    idx.refs key h ≤ idx.mappedRefs h :=
  Index.refs_le_mappedRefs counted.positive key h

theorem Counted.refs_pos (counted : idx.Counted pending)
    (mapped : (idx.entryBlobs.get (key, h)).isSome) : 0 < idx.refs key h := by
  obtain ⟨n, hrow⟩ := Option.isSome_iff_exists.mp mapped
  have hpos := counted.positive _ n hrow
  rwa [refs, hrow]

theorem Counted.mappedRefs_nonneg (counted : idx.Counted pending) (h : String) :
    0 ≤ idx.mappedRefs h :=
  (counted.refs_nonneg "" h).trans (counted.refs_le_mappedRefs "" h)

/-- A mapped hash has a `blobs` row. -/
theorem Counted.isSome_of_mapped (counted : idx.Counted pending)
    (mapped : (idx.entryBlobs.get (key, h)).isSome) : (idx.blobs.get h).isSome := by
  have hpos := counted.refs_pos mapped
  have hle := counted.refs_le_mappedRefs key h
  have hrow : (idx.refcount? h).isSome := by
    rw [counted.refcount h, Option.isSome_iff_ne_none, Ne, countRow_eq_none]
    omega
  simpa [refcount?] using hrow

/-- A row of a counted index records at least the references of the mappings. -/
theorem Counted.mappedRefs_le_refcount (counted : idx.Counted pending) {row : BlobRow}
    (hrow : idx.blobs.get h = some row) : idx.mappedRefs h ≤ row.refcount := by
  have hcount := counted.refcount h
  rw [refcount?, hrow, Option.map_some, eq_comm, countRow_eq_some] at hcount
  omega

/-- On a counted index the floor changes nothing. -/
theorem Counted.floorBlobRefsAtMappings_eq (counted : idx.Counted pending) (key : String) :
    floorBlobRefsAtMappings key idx = idx := by
  have hblobs : (floorBlobRefsAtMappings key idx).blobs = idx.blobs := by
    refine Table.ext_get fun h => ?_
    rw [floorBlobRefsAtMappings, Table.get_updateWhere]
    split
    · cases hrow : idx.blobs.get h with
      | none => rfl
      | some row =>
        have hle := counted.mappedRefs_le_refcount hrow
        simp [max_eq_left hle]
    · rfl
  calc floorBlobRefsAtMappings key idx
      = { idx with blobs := (floorBlobRefsAtMappings key idx).blobs } := rfl
    _ = idx := by rw [hblobs]

/-- Replacing an entry row does not touch the counts. -/
theorem Counted.of_tables (counted : idx.Counted pending) {idx' : Index}
    (blobs : idx'.blobs = idx.blobs) (entryBlobs : idx'.entryBlobs = idx.entryBlobs) :
    idx'.Counted pending where
  positive := by
    rw [entryBlobs]
    exact counted.positive
  refcount := by
    intro h
    have hcount := counted.refcount h
    rwa [refcount?, mappedRefs, ← blobs, ← entryBlobs] at hcount

/-- Dropping a mapping leaves its hashes pending. -/
theorem Counted.deleteMapping (counted : idx.Counted pending) (maps : idx.Maps key hashes) :
    (deleteMapping key idx).Counted (hashes + pending) where
  positive := by
    rintro ⟨k, h⟩ n hrow
    rw [entryBlobs_deleteMapping] at hrow
    split at hrow
    · simp at hrow
    · exact counted.positive _ n hrow
  refcount := by
    intro h
    have hcount := counted.refcount h
    rw [refcount?] at hcount
    rw [mappedRefs_deleteMapping, maps.refs_eq, Multiset.count_add, refcount?,
      blobs_deleteMapping, hcount]
    congr 1
    push_cast
    omega

/-- Taking a reference makes its hash pending. -/
theorem Counted.takeBlobRef (counted : idx.Counted pending) (file : CachedFile) :
    (takeBlobRef file idx).Counted (file.hash ::ₘ pending) where
  positive := counted.positive
  refcount := by
    intro h
    have hnonneg := counted.mappedRefs_nonneg h
    rw [refcount?_takeBlobRef, counted.refcount h, getD_countRow, Multiset.count_cons]
    change _ = countRow (idx.mappedRefs h + _)
    by_cases hh : h = file.hash
    · rw [if_pos hh, if_pos hh, eq_comm, countRow_eq_some]
      push_cast
      omega
    · rw [if_neg hh, if_neg hh, add_zero]

theorem Counted.takeBlobRefs (counted : idx.Counted pending) (files : List CachedFile) :
    (takeBlobRefs files idx).Counted (hashesOf files + pending) := by
  induction files generalizing idx pending with
  | nil =>
    rw [hashesOf_nil, zero_add]
    exact counted
  | cons file rest ih =>
    have hrest := ih (counted.takeBlobRef file)
    rwa [Multiset.add_cons, ← Multiset.cons_add] at hrest

/-- **Releasing an entry keeps the index counted**: its mapping and the counts
fall by the same references. -/
theorem Counted.releaseEntryBlobRefs (counted : idx.Counted pending) (key : String) :
    (releaseEntryBlobRefs key idx).Counted pending where
  positive := by
    rintro ⟨k, h⟩ n hrow
    rw [entryBlobs_releaseEntryBlobRefs] at hrow
    split at hrow
    · simp at hrow
    · exact counted.positive _ n hrow
  refcount := by
    intro h
    have hfloor := counted.floorBlobRefsAtMappings_eq key
    have hmapped : (Index.releaseEntryBlobRefs key idx).mappedRefs h
        = idx.mappedRefs h - idx.refs key h := by
      rw [Index.releaseEntryBlobRefs, hfloor, mappedRefs_deleteMapping]
      rfl
    have hle := counted.refs_le_mappedRefs key h
    have hcount := counted.refcount h
    rw [hmapped, refcount?, blobs_releaseEntryBlobRefs hfloor]
    by_cases mapped : (idx.entryBlobs.get (key, h)).isSome
    · -- a mapped hash has a row, which counts the references of `key` and others
      rw [if_pos mapped]
      obtain ⟨row, hrow⟩ := Option.isSome_iff_exists.mp (counted.isSome_of_mapped mapped)
      rw [refcount?, hrow, Option.map_some, eq_comm, countRow_eq_some] at hcount
      rw [hrow, Option.map_some, ← hcount.1]
      -- the subtraction is never cut off: the count is at least the mapping
      exact map_refcount_filter_pos (by simp only; omega) (by omega)
    · have hnone : idx.refs key h = 0 := by
        rw [refs, Option.not_isSome_iff_eq_none.mp mapped, Option.getD_none]
      rw [if_neg mapped, ← refcount?, hcount, hnone, sub_zero]

/-- Giving one pending reference back. -/
theorem Counted.releaseBlobRef (counted : idx.Counted (h ::ₘ pending)) :
    (releaseBlobRef h idx).1.Counted pending where
  positive := by
    rw [entryBlobs_releaseBlobRef]
    exact counted.positive
  refcount := by
    intro h'
    have hnonneg := counted.mappedRefs_nonneg h'
    have hcount := counted.refcount h'
    have hmapped : (Index.releaseBlobRef h idx).1.mappedRefs h' = idx.mappedRefs h' := by
      rw [mappedRefs, entryBlobs_releaseBlobRef, mappedRefs]
    rw [hmapped, refcount?, blobs_releaseBlobRef]
    by_cases hh : h' = h
    · subst hh
      rw [Multiset.count_cons_self] at hcount
      rw [if_pos rfl]
      cases hrow : idx.blobs.get h' with
      | none =>
        -- a pending reference is counted, so there is a row
        rw [refcount?, hrow, Option.map_none, eq_comm, countRow_eq_none] at hcount
        omega
      | some row =>
        rw [refcount?, hrow, Option.map_some, eq_comm, countRow_eq_some] at hcount
        rw [Option.map_some]
        exact map_refcount_filter_pos (by simp only; omega) (by omega)
    · rw [if_neg hh, ← refcount?, hcount, Multiset.count_cons_of_ne hh]

theorem Counted.releaseBlobRefs {hashes : List String}
    (counted : idx.Counted (↑hashes + pending)) :
    (releaseBlobRefs hashes idx).1.Counted pending := by
  induction hashes generalizing idx with
  | nil =>
    rw [Multiset.coe_nil, zero_add] at counted
    exact counted
  | cons h rest ih =>
    rw [← Multiset.cons_coe, Multiset.cons_add] at counted
    exact ih counted.releaseBlobRef

/-- Recording a mapping settles the references taken for it. -/
theorem Counted.recordEntryBlobs {files : List CachedFile}
    (counted : idx.Counted (hashesOf files + pending)) (unmapped : idx.Maps key 0) :
    (recordEntryBlobs key files idx).Counted pending where
  positive := by
    rintro ⟨k, h⟩ n hrow
    by_cases hk : k = key
    · subst hk
      rw [maps_recordEntryBlobs, countRow_eq_some] at hrow
      omega
    · rw [entryBlobs_recordEntryBlobs_of_ne hk] at hrow
      exact counted.positive _ n hrow
  refcount := by
    intro h
    have hcount := counted.refcount h
    rw [refcount?] at hcount
    rw [mappedRefs_recordEntryBlobs, unmapped.refs_eq, refcount?, blobs_recordEntryBlobs, hcount,
      Multiset.count_add, Multiset.count_zero]
    congr 1
    push_cast
    omega

/-- A blob that is referenced is referenced by some entry. -/
theorem exists_mapped_of_mappedRefs_ne_zero (hne : idx.mappedRefs h ≠ 0) :
    ∃ key, (idx.entryBlobs.get (key, h)).isSome := by
  obtain ⟨⟨key, h'⟩, -, hterm⟩ := Finset.exists_ne_zero_of_sum_ne_zero hne
  cases hrow : idx.entryBlobs.get (key, h') with
  | none => simp [hrow] at hterm
  | some n =>
    simp only [hrow, Option.elim_some, ne_eq, ite_eq_right_iff, Classical.not_imp] at hterm
    exact ⟨key, by simp [← hterm.1, hrow]⟩

end Counted

/-! ## Rows one by one -/

/-- Every `blobs` row has a hash and a size that `P` allows. -/
def EachBlob (P : String → ℤ → Prop) (idx : Index) : Prop :=
  ∀ h row, idx.blobs.get h = some row → P h row.size

section EachBlob

variable {P : String → ℤ → Prop}

/-- A statement that keeps the size of every row it keeps. -/
theorem EachBlob.of_rows (each : idx.EachBlob P) {idx' : Index}
    (rows : ∀ h row', idx'.blobs.get h = some row' →
      ∃ row, idx.blobs.get h = some row ∧ row.size = row'.size) : idx'.EachBlob P := by
  intro h row' hrow'
  obtain ⟨row, hrow, hsize⟩ := rows h row' hrow'
  exact hsize ▸ each h row hrow

theorem EachBlob.updateCounts (each : idx.EachBlob P) (p : String → Bool)
    (count : String → BlobRow → ℤ) :
    EachBlob P { idx with
      blobs := idx.blobs.updateWhere p fun h row => { row with refcount := count h row } } := by
  refine each.of_rows fun h row' hrow' => ?_
  simp only [Table.get_updateWhere] at hrow'
  split at hrow'
  · obtain ⟨row, hrow, rfl⟩ := Option.map_eq_some_iff.mp hrow'
    exact ⟨row, hrow, rfl⟩
  · exact ⟨row', hrow', rfl⟩

theorem EachBlob.deleteRows (each : idx.EachBlob P) (p : String → BlobRow → Bool) :
    EachBlob P { idx with blobs := idx.blobs.deleteWhere p } :=
  each.of_rows fun _ row' hrow' => ⟨row', (Option.filter_eq_some_iff.mp hrow').1, rfl⟩

/-- Releasing references only deletes rows and lowers counts. -/
theorem EachBlob.releaseEntryBlobRefs (each : idx.EachBlob P) (key : String) :
    (releaseEntryBlobRefs key idx).EachBlob P :=
  ((each.updateCounts _ _).updateCounts _ _).deleteRows _

theorem EachBlob.takeBlobRef (each : idx.EachBlob P) {file : CachedFile}
    (hfile : P file.hash (asI64 file.size)) : (takeBlobRef file idx).EachBlob P := by
  intro h row hrow
  rw [blobs_takeBlobRef] at hrow
  split at hrow
  · next hh =>
    subst hh
    cases hget : idx.blobs.get file.hash with
    | none =>
      simp only [hget, Option.elim_none, Option.some.injEq] at hrow
      subst hrow
      exact hfile
    | some row₀ =>
      simp only [hget, Option.elim_some, Option.some.injEq] at hrow
      subst hrow
      exact each file.hash row₀ hget
  · exact each h row hrow

theorem EachBlob.takeBlobRefs (each : idx.EachBlob P) {files : List CachedFile}
    (hfiles : ∀ f ∈ files, P f.hash (asI64 f.size)) : (takeBlobRefs files idx).EachBlob P := by
  induction files generalizing idx with
  | nil => exact each
  | cons file rest ih =>
    obtain ⟨hfile, hrest⟩ := List.forall_mem_cons.mp hfiles
    exact ih (each.takeBlobRef hfile) hrest

/-- One reference given back keeps or deletes rows. -/
theorem EachBlob.releaseBlobRef (each : idx.EachBlob P) (hash : String) :
    (releaseBlobRef hash idx).1.EachBlob P := by
  refine each.of_rows fun h row' hrow' => ?_
  rw [blobs_releaseBlobRef] at hrow'
  split at hrow'
  · next hh =>
    obtain ⟨row, hrow, rfl⟩ := Option.map_eq_some_iff.mp (Option.filter_eq_some_iff.mp hrow').1
    exact ⟨row, hh ▸ hrow, rfl⟩
  · exact ⟨row', hrow', rfl⟩

theorem EachBlob.releaseBlobRefs (each : idx.EachBlob P) (hashes : List String) :
    (releaseBlobRefs hashes idx).1.EachBlob P := by
  induction hashes generalizing idx with
  | nil => exact each
  | cons hash rest ih => exact ih (each.releaseBlobRef hash)

end EachBlob

end Index

end Kache
