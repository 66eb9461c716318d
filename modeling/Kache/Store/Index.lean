import Kache.Foundation.Table
import Kache.Format

/-!
# The SQLite index

Three tables describe the store: `entries` has one row per published cache key,
`blobs` one row per content-addressed file with its reference count, and
`entry_blobs` says how many references of a blob an entry holds.  The
definitions below are the statements the store issues against them, one Lean
function per SQL helper of the source.

References are counted per *file*, not per unique hash: an entry that lists one
hash twice holds two references.  `refs` and `mappedRefs` are the two
aggregates everything else is stated with — what one entry holds on a blob, and
what all entries together hold (`SELECT SUM(refs) … WHERE hash = ?`).
-/

namespace Kache

/-- A row of `blobs`. -/
structure BlobRow where
  size : ℤ
  refcount : ℤ
  deriving DecidableEq, Repr

/-- A row of `entries`, the columns the store's own logic writes or reads. -/
structure EntryRow where
  crateName : String
  crateType : String
  profile : String
  numFeatures : ℕ
  size : ℤ
  contentHash : String
  compileTimeMs : ℤ
  keySchema : ℕ
  committed : Bool
  durable : Bool
  importedAt : Option ℕ
  deriving DecidableEq, Repr

/-- The index database. -/
structure Index where
  entries : Table String EntryRow
  blobs : Table String BlobRow
  entryBlobs : Table (String × String) ℤ

namespace Index

/-- An index that was just created. -/
def empty : Index where
  entries := .empty
  blobs := .empty
  entryBlobs := .empty

/-- The references `key` holds on `hash`. -/
def refs (idx : Index) (key hash : String) : ℤ := (idx.entryBlobs.get (key, hash)).getD 0

/-- The references all mappings hold on `hash`:
`SELECT SUM(refs) FROM entry_blobs WHERE hash = ?`. -/
def mappedRefs (idx : Index) (hash : String) : ℤ :=
  idx.entryBlobs.sumOver fun p refs => if p.2 = hash then refs else 0

/-- The reference count recorded for `hash`, when it has a row. -/
def refcount? (idx : Index) (hash : String) : Option ℤ := (idx.blobs.get hash).map (·.refcount)

/-- Whether `key` has a committed row. -/
def isCommitted (idx : Index) (key : String) : Bool :=
  (idx.entries.get key).any (·.committed)

theorem isSome_of_isCommitted {idx : Index} {key : String}
    (committed : idx.isCommitted key = true) : (idx.entries.get key).isSome := by
  unfold isCommitted at committed
  cases hrow : idx.entries.get key with
  | none => simp [hrow] at committed
  | some row => rfl

/-- `floor_blob_refs_at_mappings`: raise the count of every blob `key` maps to
at least the references all mappings hold on it. -/
def floorBlobRefsAtMappings (key : String) (idx : Index) : Index :=
  { idx with
    blobs := idx.blobs.updateWhere (fun hash => (idx.entryBlobs.get (key, hash)).isSome)
      fun hash row => { row with refcount := max row.refcount (idx.mappedRefs hash) } }

/-- `DELETE FROM entry_blobs WHERE cache_key = ?`. -/
def deleteMapping (key : String) (idx : Index) : Index :=
  { idx with entryBlobs := idx.entryBlobs.deleteWhere fun p _ => p.1 = key }

/-- The subtraction inside `release_entry_blob_refs`: give `key`'s references
back, at zero the lowest. -/
def subtractMapping (key : String) (idx : Index) : Index :=
  { idx with
    blobs := idx.blobs.updateWhere (fun hash => (idx.entryBlobs.get (key, hash)).isSome)
      fun hash row => { row with refcount := max 0 (row.refcount - idx.refs key hash) } }

/-- Rows of blobs `key` maps whose count reached zero are deleted. -/
def deleteReleased (key : String) (idx : Index) : Index :=
  { idx with
    blobs := idx.blobs.deleteWhere fun hash row =>
      row.refcount ≤ 0 && (idx.entryBlobs.get (key, hash)).isSome }

/-- `release_entry_blob_refs`: give back every reference `key`'s mapping holds,
then drop the mapping. -/
def releaseEntryBlobRefs (key : String) (idx : Index) : Index :=
  deleteMapping key (deleteReleased key (subtractMapping key (floorBlobRefsAtMappings key idx)))

/-- One reference taken for one file: `INSERT OR IGNORE INTO blobs … VALUES (?,
?, 1)`, or an increment when the row was there. -/
def takeBlobRef (file : CachedFile) (idx : Index) : Index :=
  { idx with
    blobs :=
      if (idx.blobs.get file.hash).isSome then
        idx.blobs.updateWhere (fun hash => hash = file.hash)
          fun _ row => { row with refcount := row.refcount + 1 }
      else idx.blobs.insertOrIgnore file.hash ⟨asI64 file.size, 1⟩ }

/-- The reference loop every publisher runs: one `takeBlobRef` per file. -/
def takeBlobRefs (files : List CachedFile) (idx : Index) : Index :=
  files.foldl (fun acc file => takeBlobRef file acc) idx

/-- `INSERT INTO entry_blobs … VALUES (?, ?, 1) ON CONFLICT DO UPDATE SET refs =
refs + 1`. -/
def mapEntryBlob (key : String) (file : CachedFile) (idx : Index) : Index :=
  { idx with
    entryBlobs := idx.entryBlobs.set (key, file.hash)
      ((idx.entryBlobs.get (key, file.hash)).elim 1 (· + 1)) }

/-- `record_entry_blobs`: replace `key`'s rows by one per unique hash of
`files`, `refs` counting the files. -/
def recordEntryBlobs (key : String) (files : List CachedFile) (idx : Index) : Index :=
  files.foldl (fun acc file => mapEntryBlob key file acc) (deleteMapping key idx)

/-- `INSERT OR REPLACE INTO entries`. -/
def insertOrReplaceEntry (key : String) (row : EntryRow) (idx : Index) : Index :=
  { idx with entries := idx.entries.set key row }

/-- `INSERT OR IGNORE INTO entries`. -/
def insertOrIgnoreEntry (key : String) (row : EntryRow) (idx : Index) : Index :=
  { idx with entries := idx.entries.insertOrIgnore key row }

/-- `DELETE FROM entries WHERE cache_key = ?`. -/
def deleteEntry (key : String) (idx : Index) : Index :=
  { idx with entries := idx.entries.deleteWhere fun k _ => k = key }

/-- One reference given back by a removal: the count drops by one, and a row at
zero or below is deleted and its hash and size handed to the unlink list. -/
def releaseBlobRef (hash : String) (idx : Index) : Index × Option (String × ℤ) :=
  let decremented : Index :=
    { idx with
      blobs := idx.blobs.updateWhere (fun h => h = hash)
        fun _ row => { row with refcount := row.refcount - 1 } }
  match decremented.blobs.get hash with
  | some row =>
    if row.refcount ≤ 0 then
      ({ decremented with blobs := decremented.blobs.deleteWhere fun h _ => h = hash },
        some (hash, row.size))
    else (decremented, none)
  | none => (decremented, none)

/-- The release loop of a removal, one reference per listed file. -/
def releaseBlobRefs : List String → Index → Index × List (String × ℤ)
  | [], idx => (idx, [])
  | hash :: rest, idx =>
    let released := releaseBlobRef hash idx
    let after := releaseBlobRefs rest released.1
    (after.1, released.2.toList ++ after.2)

end Index

end Kache
