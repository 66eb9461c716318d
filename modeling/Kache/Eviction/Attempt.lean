import Kache.Store.Release

/-!
# One guarded removal

`remove_entry_guarded` is `remove_entry` with two more guards, which only a sweep asks for: an entry
that was accessed within the grace stays, and so does an entry that holds the last reference of a
blob that a live file outside of the store holds as well.  It reports what it did and, where it
removed the entry, the bytes of the blob rows that went with it.

Nobody else writes while it runs, so the texts it compares and the rows it looks up again are those
it has left itself; the republication guards then never fire.  What it takes from outside is a
`Moment`.
-/

namespace Kache.Eviction

/-- Where a removal can fail for reasons outside of the store. -/
inductive Fault where
  /-- `meta.json` is there and cannot be read. -/
  | unreadable
  /-- A statement fails before the commit; the transaction is rolled back. -/
  | sqlite (contention busySnapshot : Bool)
  /-- The entry directory cannot be removed, after the commit. -/
  | directory
  deriving DecidableEq

/-- What one removal finds outside of the store. -/
structure Moment where
  /-- `last_accessed >= datetime('now', '-grace')`. -/
  recentlyAccessed : String → Bool
  /-- `blob_has_external_retainer`, by hash. -/
  retained : String → Bool
  /-- `blob_reclaimable_bytes`, by hash. -/
  diskBytes : String → Option ℕ
  fault : Option Fault
  /-- The order in which the map of the entry's blobs is gone through. -/
  iterate : List String → List String
  iterate_perm : ∀ hashes, (iterate hashes).Perm hashes

/-- Why a removal fails. -/
inductive RemovalError where
  | metaUnparseable (key : String)
  | metaMissing (key : String)
  | metaUnreadable (key : String)
  /-- `SELECT refcount FROM blobs WHERE hash = ?` returned no row. -/
  | noBlobRow (hash : String)
  | sqlite (contention busySnapshot : Bool)
  | directory (key : String)
  deriving DecidableEq

/-- `RemovalReclaim`; the bytes are `u64`s. -/
structure RemovalReclaim where
  freedBytes : ℕ
  blobsUnlinked : ℕ
  diskBytesReclaimed : ℕ
  deriving DecidableEq

/-- `GuardedRemoval`. -/
inductive GuardedRemoval where
  | reclaimed (reclaim : RemovalReclaim)
  | skipped
  | unreclaimable
  deriving DecidableEq

/-- `holds_last_reference`. -/
def holdsLastReference (rc held : ℤ) : Bool := 0 < rc && rc ≤ held

/-- The blobs among `hashes` that something outside retains, with the references that the entry
holds. -/
def retainedBlobs (moment : Moment) (hashes : List String) : List (String × ℤ) :=
  ((moment.iterate hashes.dedup).filter moment.retained).map fun hash =>
    (hash, (hashes.count hash : ℤ))

/-- Whether the entry holds the last references of one of the retained blobs. -/
def blockedByRetained (idx : Index) : List (String × ℤ) → Except RemovalError Bool
  | [] => .ok false
  | (hash, held) :: rest =>
    match idx.blobs.get hash with
    | none => .error (.noBlobRow hash)
    | some row =>
      if holdsLastReference row.refcount held then .ok true else blockedByRetained idx rest

/-- The cleanup's account of one blob to unlink. -/
def RemovalReclaim.add (moment : Moment) (idx : Index) (acc : RemovalReclaim) (blob : String × ℤ) :
    RemovalReclaim :=
  if (idx.blobs.get blob.1).isSome then acc
  else
    { freedBytes := (acc.freedBytes + blob.2.toNat) % 2 ^ 64
      blobsUnlinked := acc.blobsUnlinked + 1
      diskBytesReclaimed :=
        (acc.diskBytesReclaimed + (moment.diskBytes blob.1).getD blob.2.toNat) % 2 ^ 64 }

/-- The cleanup's account of the blobs to unlink. -/
def removalReclaim (moment : Moment) (idx : Index) (unlink : List (String × ℤ)) : RemovalReclaim :=
  unlink.foldl (RemovalReclaim.add moment idx) ⟨0, 0, 0⟩

/-- The part of a removal behind its guards. -/
def removeCommit (moment : Moment) (key : String) (text : MetaText) (m : EntryMeta) (s : Store) :
    Except RemovalError GuardedRemoval × Store :=
  match removeRows key text m s with
  | none => (.ok .skipped, s)
  | some (idx, unlink) =>
    if moment.fault = some .directory then (.error (.directory key), ⟨idx, s.disk⟩)
    else (.ok (.reclaimed (removalReclaim moment idx unlink)),
      ⟨idx, removeCleanup key unlink ⟨idx, s.disk⟩⟩)

/-- The transaction of a removal: the guards, then the removal. -/
def removeTransaction (evictShared guarded : Bool) (moment : Moment) (key : String)
    (text : MetaText) (m : EntryMeta) (s : Store) : Except RemovalError GuardedRemoval × Store :=
  let retained := if guarded && !evictShared then retainedBlobs moment (m.files.map (·.hash))
    else []
  if guarded && (s.index.entries.get key).isSome && moment.recentlyAccessed key then
    (.ok .skipped, s)
  else
    match blockedByRetained s.index retained with
    | .error e => (.error e, s)
    | .ok true => (.ok .unreclaimable, s)
    | .ok false => removeCommit moment key text m s

/-- `remove_entry_guarded`.  `guarded` is whether there is a grace, `evictShared` the setting
`gc_evict_shared`. -/
def removeEntryGuarded (evictShared guarded : Bool) (moment : Moment) (key : String) (s : Store) :
    Except RemovalError GuardedRemoval × Store :=
  match s.disk.metaText? key with
  | none =>
    if (s.index.entries.get key).isNone then (.ok .skipped, s) else (.error (.metaMissing key), s)
  | some text =>
    if moment.fault = some .unreadable then (.error (.metaUnreadable key), s)
    else
      match text.parsed with
      | none => (.error (.metaUnparseable key), s)
      | some m =>
        match moment.fault with
        | some (.sqlite contention busySnapshot) => (.error (.sqlite contention busySnapshot), s)
        | _ => removeTransaction evictShared guarded moment key text m s

/-! ## What a removal can do -/

/-- What a removal has found and done when it is over. -/
inductive Removal (evictShared guarded : Bool) (moment : Moment) (key : String) (s : Store) :
    Except RemovalError GuardedRemoval → Store → Prop
  /-- It failed and left everything as it was. -/
  | failed (e : RemovalError) : Removal evictShared guarded moment key s (.error e) s
  /-- There is no row. -/
  | absent (none : s.index.entries.get key = none) :
      Removal evictShared guarded moment key s (.ok .skipped) s
  /-- The entry was accessed within the grace. -/
  | recent (asked : guarded = true) (recent : moment.recentlyAccessed key = true) :
      Removal evictShared guarded moment key s (.ok .skipped) s
  /-- The entry holds the last references of a retained blob. -/
  | held (asked : guarded = true) (unshared : evictShared = false) :
      Removal evictShared guarded moment key s (.ok .unreclaimable) s
  /-- The rows went, and then the files did not. -/
  | half {text : MetaText} {m : EntryMeta} {idx : Index} {unlink : List (String × ℤ)}
      (parsed : text.parsed = some m) (fault : moment.fault = some .directory)
      (rows : removeRows key text m s = some (idx, unlink)) :
      Removal evictShared guarded moment key s (.error (.directory key)) ⟨idx, s.disk⟩
  /-- The entry went. -/
  | done {text : MetaText} {m : EntryMeta} {idx : Index} {unlink : List (String × ℤ)}
      (parsed : text.parsed = some m) (rows : removeRows key text m s = some (idx, unlink))
      (free : guarded = true → evictShared = false →
        blockedByRetained s.index (retainedBlobs moment (m.files.map (·.hash))) = .ok false) :
      Removal evictShared guarded moment key s
        (.ok (.reclaimed (removalReclaim moment idx unlink)))
        ⟨idx, removeCleanup key unlink ⟨idx, s.disk⟩⟩

theorem removeRows_eq_none {key : String} {text : MetaText} {m : EntryMeta} {s : Store}
    (read : s.disk.metaText? key = some text) (rolledBack : removeRows key text m s = none) :
    s.index.entries.get key = none := by
  unfold removeRows at rolledBack
  split at rolledBack
  · next absent => simpa using absent
  · rw [if_neg (not_not.mpr read)] at rolledBack
    cases rolledBack

/-- **Everything a removal can do.** -/
theorem removal_removeEntryGuarded (evictShared guarded : Bool) (moment : Moment) (key : String)
    (s : Store) :
    Removal evictShared guarded moment key s
      (removeEntryGuarded evictShared guarded moment key s).1
      (removeEntryGuarded evictShared guarded moment key s).2 := by
  have commit : ∀ text m, s.disk.metaText? key = some text → text.parsed = some m →
      Removal evictShared guarded moment key s
        (removeTransaction evictShared guarded moment key text m s).1
        (removeTransaction evictShared guarded moment key text m s).2 := by
    intro text m read parsed
    unfold removeTransaction removeCommit
    have empty : blockedByRetained s.index [] = .ok false := rfl
    grind [Removal, removeRows_eq_none]
  unfold removeEntryGuarded
  grind [Removal, Option.isNone_iff_eq_none]

end Kache.Eviction
