import Kache.Store.Sound

/-!
# Durability flushes

A put or an import leaves its row *pending* (`durable = 0`): its files were
written, but nothing says that they reached the disk.  `flush_entry_durability`
reads every blob of a pending entry back, compares length and digest, syncs the
files it read, and only then sets `durable = 1`.  Under strict durability every
publication ends with such a flush.

The flush changes one column and no file.  It returns the metadata whose blobs
it verified and synced, because that is what the column is meant to record.
-/

namespace Kache

/-- `verify_durability_file`: length and digest are the listed ones. -/
def verifyDurabilityFile (env : Env) (file : CachedFile) (bytes : Bytes) : Bool :=
  bytes.length == file.size && env.blake3 bytes == file.hash

/-- The blob of a listed file verifies. -/
def blobVerifies (env : Env) (disk : Disk) (file : CachedFile) : Bool :=
  (disk.blobs file.hash).any (verifyDurabilityFile env file)

/-- The checks of a flush on the files of an entry: every hash is one, files of
one hash agree on its size, every blob verifies. -/
def filesVerify (env : Env) (disk : Disk) (files : List CachedFile) : Bool :=
  files.all (fun f => isBlobHash f.hash) &&
    files.all (fun f => files.all fun g => f.hash != g.hash || f.size == g.size) &&
      files.all (blobVerifies env disk)

/-- `UPDATE entries SET durable = 1 WHERE cache_key = ?`. -/
def Index.setDurable (key : String) (idx : Index) : Index :=
  { idx with
    entries :=
      idx.entries.updateWhere (fun k => k = key) fun _ row => { row with durable := true } }

/-- `flush_entry_durability`: the store afterwards, and the metadata of the
entry when it was promoted. -/
def flushEntryDurability (env : Env) (key : String) (s : Store) : Store × Option EntryMeta :=
  match (s.index.entries.get key).filter (fun row => row.committed && !row.durable),
      s.disk.meta? key with
  | some row, some m =>
    if m.cacheKey = key ∧ computeContentHash env m.files = row.contentHash ∧
        filesVerify env s.disk m.files then
      (⟨s.index.setDurable key, s.disk⟩, some m)
    else (s, none)
  | _, _ => (s, none)

/-- `finish_strict_durability`: a flush unless the store defers durability. -/
def finishStrictDurability (env : Env) (strict : Bool) (key : String) (s : Store) :
    Store × Option EntryMeta :=
  if strict then flushEntryDurability env key s else (s, none)

/-- What a flush that promotes found and did. -/
theorem flushEntryDurability_eq_some {env : Env} {key : String} {s s' : Store} {m : EntryMeta}
    (done : flushEntryDurability env key s = (s', some m)) :
    s.disk.meta? key = some m ∧ (∀ f ∈ m.files, blobVerifies env s.disk f) ∧
      s' = ⟨s.index.setDurable key, s.disk⟩ := by
  unfold flushEntryDurability filesVerify at done
  grind

theorem flushEntryDurability_eq_none {env : Env} {key : String} {s s' : Store}
    (done : flushEntryDurability env key s = (s', none)) : s' = s := by
  unfold flushEntryDurability at done
  split at done
  · split at done
    · cases done
    · exact (Prod.mk.inj done).1.symm
  · exact (Prod.mk.inj done).1.symm

namespace Store

variable {slack : Slack} {s : Store}

theorem Sound.flushEntryDurability (sound : s.Sound slack) (env : Env) (key : String) :
    (flushEntryDurability env key s).1.Sound slack := by
  cases hflush : Kache.flushEntryDurability env key s with
  | mk s' promoted =>
    cases promoted with
    | none => exact flushEntryDurability_eq_none hflush ▸ sound
    | some m =>
      obtain ⟨-, -, rfl⟩ := flushEntryDurability_eq_some hflush
      refine sound.of_rows fun k => ?_
      rw [Table.get_updateWhere]
      split
      · cases s.index.entries.get k <;> rfl
      · rfl

theorem Sound.finishStrictDurability (sound : s.Sound slack) (env : Env) (strict : Bool)
    (key : String) : (finishStrictDurability env strict key s).1.Sound slack := by
  unfold Kache.finishStrictDurability
  split
  · exact sound.flushEntryDurability env key
  · exact sound

end Store

end Kache
