import Kache.Store.Import

/-!
# Removal and the orphan sweep

`remove_entry` reads `meta.json`, and then works in two transactions.  The first
deletes the row, the mapping and one reference per listed file, and commits; it
rolls back when there is no row or when `meta.json` is no longer the text that
was read.  The second removes files under the write lock: the entry directory
unless the key was published again, and each blob whose row went unless the blob
was adopted again.

`sweep_orphan_blobs` walks the blob directory without the lock and then unlinks,
under the lock, those of its candidates that have no row.

Both unlink through `unlinkUnreferenced`: a blob with a row stays.
-/

namespace Kache

/-- Unlink the blobs of `hashes` that have no row. -/
def unlinkUnreferenced (idx : Index) (hashes : List String) (disk : Disk) : Disk :=
  hashes.foldl (fun acc h => if (idx.blobs.get h).isSome then acc else acc.unlinkBlob h) disk

/-! ## `remove_entry` -/

/-- The first transaction of a removal that read `text` and parsed it to `m`:
the index afterwards and the blobs to unlink, or `none` when it rolls back. -/
def removeRows (key : String) (text : MetaText) (m : EntryMeta) (s : Store) :
    Option (Index × List (String × ℤ)) :=
  if (s.index.entries.get key).isNone then none
  else if s.disk.metaText? key ≠ some text then none
  else some (Index.unregisterRefs key m.files (Index.deleteEntry key s.index))

/-- The second transaction: directory and dead blobs. -/
def removeCleanup (key : String) (unlink : List (String × ℤ)) (s : Store) : Disk :=
  unlinkUnreferenced s.index (unlink.map Prod.fst)
    (if (s.index.entries.get key).isSome then s.disk else s.disk.removeDir key)

/-- `remove_entry`: without a readable `meta.json` the removal is refused, or
there is nothing to remove. -/
def removeEntry (key : String) (s : Store) : Store :=
  match s.disk.metaText? key with
  | none => s
  | some text =>
    match text.parsed with
    | none => s
    | some m =>
      match removeRows key text m s with
      | none => s
      | some (idx, unlink) => ⟨idx, removeCleanup key unlink ⟨idx, s.disk⟩⟩

/-! ## `sweep_orphan_blobs` -/

/-- The unlocked walk: of the names that are old enough, the blob-shaped ones
that are files. -/
def sweepCandidates (old : List String) (disk : Disk) : List String :=
  old.filter fun name => isBlobHashName name && (disk.blobs name).isSome

/-- The locked half: unlink candidates without a row. -/
def sweepUnlink (candidates : List String) (s : Store) : Disk :=
  unlinkUnreferenced s.index candidates s.disk

/-! ## What they can change -/

theorem blobs_unlinkUnreferenced (idx : Index) (hashes : List String) (disk : Disk) (h : String) :
    (unlinkUnreferenced idx hashes disk).blobs h
      = if h ∈ hashes ∧ idx.blobs.get h = none then none else disk.blobs h := by
  induction hashes generalizing disk with
  | nil => simp [unlinkUnreferenced]
  | cons hash rest ih =>
    rw [unlinkUnreferenced, List.foldl_cons, ← unlinkUnreferenced, ih]
    by_cases hrow : idx.blobs.get h = none
    · by_cases hrest : h ∈ rest
      · simp [hrest, hrow]
      · by_cases hh : h = hash
        · subst hh
          simp [hrow]
        · by_cases hhash : (idx.blobs.get hash).isSome <;> simp [hrest, hh, hhash]
    · by_cases hh : h = hash
      · subst hh
        have hsome : (idx.blobs.get h).isSome := Option.isSome_iff_ne_none.mpr hrow
        simp [hrow, hsome]
      · by_cases hhash : (idx.blobs.get hash).isSome <;> simp [hrow, hh, hhash]

theorem dirs_unlinkUnreferenced (idx : Index) (hashes : List String) (disk : Disk) :
    (unlinkUnreferenced idx hashes disk).dirs = disk.dirs := by
  induction hashes generalizing disk with
  | nil => rfl
  | cons hash rest ih =>
    rw [unlinkUnreferenced, List.foldl_cons, ← unlinkUnreferenced, ih]
    split <;> rfl

/-- **A blob with a row survives** every unlink of a removal or a sweep. -/
theorem blobs_unlinkUnreferenced_of_row {idx : Index} {h : String}
    (row : (idx.blobs.get h).isSome) (hashes : List String) (disk : Disk) :
    (unlinkUnreferenced idx hashes disk).blobs h = disk.blobs h := by
  have hrow : idx.blobs.get h ≠ none := Option.isSome_iff_ne_none.mp row
  rw [blobs_unlinkUnreferenced, if_neg fun both => hrow both.2]

theorem metaText?_removeCleanup (key : String) (unlink : List (String × ℤ)) (s : Store)
    (k : String) :
    (removeCleanup key unlink s).metaText? k
      = if k = key ∧ s.index.entries.get key = none then none else s.disk.metaText? k := by
  rw [removeCleanup, Disk.metaText?_congr (dirs_unlinkUnreferenced _ _ _)]
  cases hrow : s.index.entries.get key with
  | none =>
    simp only [Option.isSome_none, Bool.false_eq_true, if_false, and_true]
    exact Disk.metaText?_removeDir key s.disk k
  | some row => simp

/-- The cleanup leaves the `meta.json` of every key with a row. -/
theorem metaText?_removeCleanup_of_row {s : Store} {k : String}
    (row : (s.index.entries.get k).isSome) (key : String) (unlink : List (String × ℤ)) :
    (removeCleanup key unlink s).metaText? k = s.disk.metaText? k := by
  rw [metaText?_removeCleanup, if_neg]
  rintro ⟨rfl, hnone⟩
  rw [hnone] at row
  simp at row

theorem blobs_removeCleanup_of_row {s : Store} {h : String} (row : (s.index.blobs.get h).isSome)
    (key : String) (unlink : List (String × ℤ)) :
    (removeCleanup key unlink s).blobs h = s.disk.blobs h := by
  rw [removeCleanup, blobs_unlinkUnreferenced_of_row row]
  split <;> rfl

/-- What a removal that commits found and did. -/
theorem removeRows_eq_some {key : String} {text : MetaText} {m : EntryMeta} {s : Store}
    {idx : Index} {unlink : List (String × ℤ)}
    (done : removeRows key text m s = some (idx, unlink)) :
    (s.index.entries.get key).isSome ∧ s.disk.metaText? key = some text ∧
      (idx, unlink) = Index.unregisterRefs key m.files (Index.deleteEntry key s.index) := by
  unfold removeRows at done
  split at done
  · cases done
  · next present =>
    split at done
    · cases done
    · next same =>
      refine ⟨?_, not_not.mp same, (Option.some.inj done).symm⟩
      cases hrow : s.index.entries.get key
      · simp [hrow] at present
      · rfl

/-- **What a removal leaves alone**: the rows that remain with their `meta.json`,
and every blob that still has a row.  It creates no blob. -/
theorem removeEntry_keeps (key : String) (s : Store) :
    (∀ k row, (removeEntry key s).index.entries.get k = some row →
      s.index.entries.get k = some row ∧
        (removeEntry key s).disk.metaText? k = s.disk.metaText? k) ∧
    (∀ h bytes, (removeEntry key s).disk.blobs h = some bytes → s.disk.blobs h = some bytes) ∧
    (∀ h, ((removeEntry key s).index.blobs.get h).isSome →
      (removeEntry key s).disk.blobs h = s.disk.blobs h) := by
  unfold removeEntry
  split
  · exact ⟨fun _ _ row => ⟨row, rfl⟩, fun _ _ present => present, fun _ _ => rfl⟩
  · split
    · exact ⟨fun _ _ row => ⟨row, rfl⟩, fun _ _ present => present, fun _ _ => rfl⟩
    · split
      · exact ⟨fun _ _ row => ⟨row, rfl⟩, fun _ _ present => present, fun _ _ => rfl⟩
      · -- both steps ran
        next m _ _ idx unlink done =>
        obtain ⟨-, -, hidx⟩ := removeRows_eq_some done
        have hentries : idx.entries = (Index.deleteEntry key s.index).entries := by
          rw [← Index.entries_unregisterRefs key m.files (Index.deleteEntry key s.index), ← hidx]
        let t : Store := ⟨idx, s.disk⟩
        refine ⟨fun k row hrow => ⟨?_, ?_⟩, fun h bytes present => ?_, fun h row => ?_⟩
        · simp only [hentries, Index.deleteEntry, Table.get_deleteWhere] at hrow
          exact (Option.filter_eq_some_iff.mp hrow).1
        · have hsome : (t.index.entries.get k).isSome := Option.isSome_iff_exists.mpr ⟨row, hrow⟩
          exact metaText?_removeCleanup_of_row hsome key unlink
        · simp only [removeCleanup, blobs_unlinkUnreferenced] at present
          split at present
          · cases present
          · split at present <;> exact present
        · have hsome : (t.index.blobs.get h).isSome := row
          exact blobs_removeCleanup_of_row hsome key unlink

namespace Store

variable {slack : Slack} {s : Store}

/-- The first transaction of a removal keeps a store sound. -/
theorem Sound.removeRows (sound : s.Sound slack) {key : String} {text : MetaText} {m : EntryMeta}
    (parses : text.parsed = some m) {idx : Index} {unlink : List (String × ℤ)}
    (done : removeRows key text m s = some (idx, unlink)) : Sound slack ⟨idx, s.disk⟩ := by
  obtain ⟨present, htext, hidx⟩ := removeRows_eq_some done
  have hparses := Disk.meta?_eq_of_text htext parses
  have hfst : idx = (Index.unregisterRefs key m.files (Index.deleteEntry key s.index)).1 := by
    rw [← hidx]
  rw [hfst]
  exact sound.unregister present hparses fun _ _ _ => rfl

/-- So does the cleanup, from any sound store: a row protects its directory. -/
theorem Sound.removeCleanup (sound : s.Sound slack) (key : String) (unlink : List (String × ℤ)) :
    Sound slack ⟨s.index, removeCleanup key unlink s⟩ :=
  sound.of_disk fun _ row => metaText?_removeCleanup_of_row row key unlink

theorem Sound.sweepUnlink (sound : s.Sound slack) (candidates : List String) :
    Sound slack ⟨s.index, sweepUnlink candidates s⟩ := by
  refine sound.of_disk fun k _ => ?_
  rw [Kache.sweepUnlink, Disk.metaText?_congr (dirs_unlinkUnreferenced _ _ _)]

/-- `remove_entry` keeps a store sound. -/
theorem Sound.removeEntry (sound : s.Sound slack) (key : String) :
    (removeEntry key s).Sound slack := by
  unfold Kache.removeEntry
  split
  · exact sound
  · split
    · exact sound
    · next parses =>
      split
      · exact sound
      · next done => exact (sound.removeRows parses done).removeCleanup key _

/-- `discard_uncommitted_restored_entry` keeps a store sound. -/
theorem Sound.discardUncommitted (sound : s.Sound slack) (key : String) :
    (discardUncommittedRestoredEntry key s).Sound slack := by
  unfold discardUncommittedRestoredEntry
  split
  · exact sound
  · next keep =>
    refine sound.of_disk fun k row => ?_
    rw [Disk.metaText?_removeDir, if_neg]
    rintro rfl
    obtain ⟨r, hr⟩ := Option.isSome_iff_exists.mp row
    simp [Index.isCommitted, hr, sound.committed k r hr] at keep

end Store

end Kache
