import Kache.Store.Import

/-!
# Rebuilding the index

When the index is lost the store directory still describes itself:
`rebuild_index_from_store` walks it and registers every directory whose
`meta.json` parses and whose blobs are there with the listed lengths.  The
contents of the blobs are not read.

An entry is checked before its transaction opens, and the transaction claims the
row first, so that an entry that is already indexed adds no references.  The row
is inserted without a `durable` value and takes the column's default, `1`.
-/

namespace Kache

/-- The presence check on one listed file. -/
def rebuildFileOk (disk : Disk) (file : CachedFile) : Bool :=
  isBlobHash file.hash && isSafeStoredArtifactName file.name &&
    (disk.blobs file.hash).any fun bytes => bytes.length == file.size

/-- The part of `rebuild_one_entry` before its transaction. -/
def checkRebuild (disk : Disk) (key : String) : Option EntryMeta :=
  (disk.meta? key).filter fun m => m.files.all (rebuildFileOk disk)

/-- The transaction of `rebuild_one_entry`. -/
def rebuildInsert (env : Env) (key : String) (m : EntryMeta) (idx : Index) : Index :=
  if (idx.entries.get key).isSome then idx
  else
    Index.registerRefs key m.files
      (Index.insertOrIgnoreEntry key (entryRow env m true true none) idx)

/-- `rebuild_one_entry`: the store afterwards, and the number of references
registered when the entry was. -/
def rebuildOneEntry (env : Env) (key : String) (s : Store) : Store × Option ℕ :=
  match checkRebuild s.disk key with
  | none => (s, none)
  | some m =>
    (⟨rebuildInsert env key m s.index, s.disk⟩,
      if (s.index.entries.get key).isSome then none else some m.files.length)

/-- `RebuildStats`. -/
structure RebuildStats where
  entriesRebuilt : ℕ
  blobsRegistered : ℕ
  entriesSkipped : ℕ
  deriving DecidableEq, Repr

/-- One step of the scan: a name that is a directory and a cache key. -/
def rebuildStep (env : Env) (acc : Store × RebuildStats) (name : String) :
    Store × RebuildStats :=
  if (acc.1.disk.dirs name).isNone || name == "blobs" || !isValidCacheKey name then acc
  else
    match rebuildOneEntry env name acc.1 with
    | (s, some blobs) =>
      (s, { acc.2 with
        entriesRebuilt := acc.2.entriesRebuilt + 1
        blobsRegistered := acc.2.blobsRegistered + blobs })
    | (s, none) => (s, { acc.2 with entriesSkipped := acc.2.entriesSkipped + 1 })

/-- `rebuild_index_from_store`, over the names the directory scan yields. -/
def rebuildIndexFromStore (env : Env) (listing : List String) (s : Store) :
    Store × RebuildStats :=
  listing.foldl (rebuildStep env) (s, ⟨0, 0, 0⟩)

/-! ## One step of the scan -/

/-- What one step of the scan does to the store. -/
def rebuildVisit (env : Env) (s : Store) (name : String) : Store :=
  if (s.disk.dirs name).isNone || name == "blobs" || !isValidCacheKey name then s
  else (rebuildOneEntry env name s).1

theorem fst_rebuildStep (env : Env) (acc : Store × RebuildStats) (name : String) :
    (rebuildStep env acc name).1 = rebuildVisit env acc.1 name := by
  unfold rebuildStep rebuildVisit
  split
  · rfl
  · split
    · next hone => rw [hone]
    · next hone => rw [hone]

theorem fst_rebuildIndexFromStore (env : Env) (listing : List String) (s : Store) :
    (rebuildIndexFromStore env listing s).1 = listing.foldl (rebuildVisit env) s := by
  have hfold : ∀ (names : List String) (acc : Store × RebuildStats),
      (names.foldl (rebuildStep env) acc).1 = names.foldl (rebuildVisit env) acc.1 := by
    intro names
    induction names with
    | nil => exact fun _ => rfl
    | cons name rest ih =>
      intro acc
      rw [List.foldl_cons, ih, fst_rebuildStep, List.foldl_cons]
  exact hfold listing (s, ⟨0, 0, 0⟩)

@[simp] theorem disk_rebuildOneEntry (env : Env) (key : String) (s : Store) :
    (rebuildOneEntry env key s).1.disk = s.disk := by
  unfold rebuildOneEntry
  split <;> rfl

@[simp] theorem disk_rebuildVisit (env : Env) (s : Store) (name : String) :
    (rebuildVisit env s name).disk = s.disk := by
  unfold rebuildVisit
  split <;> simp

theorem disk_rebuildVisits (env : Env) (listing : List String) (s : Store) :
    (listing.foldl (rebuildVisit env) s).disk = s.disk := by
  induction listing generalizing s with
  | nil => rfl
  | cons name rest ih => rw [List.foldl_cons, ih, disk_rebuildVisit]

/-! ## What a rebuild establishes -/

variable {key : String} {m : EntryMeta} {env : Env} {s : Store}

theorem checkRebuild_eq_some {disk : Disk} :
    checkRebuild disk key = some m ↔
      disk.meta? key = some m ∧ ∀ f ∈ m.files, rebuildFileOk disk f := by
  simp [checkRebuild, Option.filter_eq_some_iff]

/-- A claimed row is written together with its references. -/
theorem rebuildInsert_of_absent {idx : Index} (absent : idx.entries.get key = none) :
    rebuildInsert env key m idx
      = Index.insertOrReplaceEntry key (entryRow env m true true none)
          (Index.registerRefs key m.files idx) := by
  have hclaim : idx.entries.insertOrIgnore key (entryRow env m true true none)
      = idx.entries.set key (entryRow env m true true none) := by
    simp [Table.insertOrIgnore, absent]
  simp only [rebuildInsert, absent, Option.isSome_none, Bool.false_eq_true, if_false,
    Index.insertOrIgnoreEntry, Index.registerRefs_entries, Index.insertOrReplaceEntry,
    Index.entries_registerRefs, hclaim]

theorem rebuildInsert_of_present {idx : Index} (present : (idx.entries.get key).isSome) :
    rebuildInsert env key m idx = idx := by
  simp [rebuildInsert, present]

/-- `rebuild_one_entry` keeps a store sound. -/
theorem Store.Sound.rebuildOneEntry {slack : Slack} (sound : s.Sound slack) (env : Env)
    (key : String) : (rebuildOneEntry env key s).1.Sound slack := by
  unfold Kache.rebuildOneEntry
  split
  · exact sound
  · next m passed =>
    cases hrow : s.index.entries.get key with
    | none =>
      rw [rebuildInsert_of_absent hrow]
      exact sound.register_present rfl (.refl _) (checkRebuild_eq_some.mp passed).1
    | some row =>
      rw [rebuildInsert_of_present (by simp [hrow])]
      exact sound

/-- So does a whole scan. -/
theorem Store.Sound.rebuildIndexFromStore {slack : Slack} (sound : s.Sound slack) (env : Env)
    (listing : List String) : (rebuildIndexFromStore env listing s).1.Sound slack := by
  rw [fst_rebuildIndexFromStore]
  induction listing generalizing s with
  | nil => exact sound
  | cons name rest ih =>
    refine ih ?_
    unfold rebuildVisit
    split
    · exact sound
    · exact sound.rebuildOneEntry env name

/-- A row after a scan was there before, or was registered from a directory that
passed the checks. -/
theorem rebuilt_row {listing : List String} {row : EntryRow}
    (found : (rebuildIndexFromStore env listing s).1.index.entries.get key = some row) :
    s.index.entries.get key = some row ∨
      key ∈ listing ∧ isValidCacheKey key = true ∧ (checkRebuild s.disk key).isSome := by
  rw [fst_rebuildIndexFromStore] at found
  induction listing generalizing s with
  | nil => exact .inl found
  | cons name rest ih =>
    rcases ih found with hrow | ⟨mem, valid, hcheck⟩
    · unfold rebuildVisit at hrow
      split at hrow
      · exact .inl hrow
      · next visited =>
        simp only [Bool.or_eq_true, not_or, Bool.not_eq_true, Bool.not_eq_false'] at visited
        unfold rebuildOneEntry at hrow
        split at hrow
        · exact .inl hrow
        · next m passed =>
          -- the only row a visit can add is that of the directory visited
          by_cases hk : key = name
          · rw [hk]
            exact .inr ⟨List.mem_cons_self, visited.2, by simp [passed]⟩
          · left
            by_cases present : (s.index.entries.get name).isSome
            · rwa [rebuildInsert_of_present present] at hrow
            · rw [rebuildInsert_of_absent (Option.not_isSome_iff_eq_none.mp present)] at hrow
              simpa [Index.insertOrReplaceEntry, hk] using hrow
    · rw [disk_rebuildVisit] at hcheck
      exact .inr ⟨List.mem_cons_of_mem name mem, valid, hcheck⟩

end Kache
