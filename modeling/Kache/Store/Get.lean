import Kache.Store.Durability
import Kache.Store.Removal

/-!
# `get`

A lookup that hits returns the metadata of a committed entry after looking at
every blob it lists: a blob has to be a file of the listed length, and it is
hashed as well when the entry is still pending or when the restore policy asks
for it.  A blob that fails evicts the entry.

A lookup is not a read, though.  When a file of a listed name lies beside
`meta.json`, the entry is first *migrated*: each such file is verified — or the
blob at its address, where there is one — and moved to its content address, and
a reference is counted for it.  An entry that was imported holds that reference
already, so counts can only end up too high; and `meta.json` itself can be the
file that is moved away.  `Migrated` is what a migration can do to a store, and
`get_hit` what a lookup that returns an entry has checked.
-/

namespace Kache

/-! ## Migration -/

/-- `entry_dir.join(name).exists()`. -/
def Disk.holds (disk : Disk) (key name : String) : Bool := (disk.artifact? key name).isSome

/-- The check on one file before anything is moved: of a file that lies in the
directory, the blob that will be kept verifies. -/
def migrateFileOk (env : Env) (disk : Disk) (key : String) (file : CachedFile) : Bool :=
  isBlobHash file.hash && isSafeStoredArtifactName file.name &&
    (!disk.holds key file.name ||
      (disk.blobs file.hash <|> disk.artifact? key file.name).any (verifyDurabilityFile env file))

/-- Migrate one file: keep the blob that is there, or make the artifact the blob,
and count a reference. -/
def migrateFile (key : String) (s : Store) (file : CachedFile) : Store :=
  match s.disk.dirs key with
  | none => s
  | some dir =>
    match dir.artifact? file.name with
    | none => s
    | some bytes =>
      let migrated :=
        if (s.disk.blobs file.hash).isSome then s.disk else s.disk.setBlob file.hash bytes
      ⟨Index.takeBlobRef file s.index, migrated.setDir key (dir.removeArtifact file.name)⟩

/-- `migrate_entry_to_blobs`; `none` is an error.  The directory is the one of
the key that `meta.json` names. -/
def migrateEntryToBlobs (env : Env) (m : EntryMeta) (s : Store) : Option Store :=
  if !s.index.isCommitted m.cacheKey then some s
  else if s.disk.meta? m.cacheKey ≠ some m then none
  else if m.files.all (migrateFileOk env s.disk m.cacheKey) then
    some (m.files.foldl (migrateFile m.cacheKey) s)
  else none

/-! ## The lookup -/

/-- `contains`: a `meta.json` and a committed row. -/
def contains (key : String) (s : Store) : Bool :=
  (s.disk.metaText? key).isSome && s.index.isCommitted key

/-- `entry_is_durable`: unknown rows read as durable. -/
def entryIsDurable (key : String) (idx : Index) : Bool :=
  (idx.entries.get key).elim true (·.durable)

/-- The checks of a hit on one blob: `validate_blob_metadata`, and the digest
when `verifyContent`. -/
def servable (env : Env) (verifyContent : Bool) (disk : Disk) (file : CachedFile) : Bool :=
  (disk.blobs file.hash).any fun bytes =>
    bytes.length == file.size && (!verifyContent || env.blake3 bytes == file.hash)

/-- The lookup of an entry whose `meta.json` read as `m`, up to the checks. -/
def lazyMigration (env : Env) (key : String) (m : EntryMeta) (s : Store) : Option Store :=
  if m.files.any fun f => s.disk.holds key f.name then migrateEntryToBlobs env m s else some s

/-- `get`; `verify` is the restore policy's decision on this hit.  A `meta.json`
that does not parse is an error, and returns no entry either. -/
def get (env : Env) (verify : Bool) (key : String) (s : Store) : Store × Option EntryMeta :=
  if !contains key s then (s, none)
  else
    match s.disk.meta? key with
    | none => (s, none)
    | some m =>
      match lazyMigration env key m s with
      | none => (s, none)
      | some s' =>
        let verifyContent := !entryIsDurable key s'.index || verify
        if m.files.all (servable env verifyContent s'.disk) then (s', some m)
        else (removeEntry key s', none)

/-! ## What a migration can do -/

/-- The rows and the blobs of before are kept; a `meta.json` is as before, or it
is the one of `key` and gone; and the store is sound with some slack. -/
structure Migrated (key : String) (before after : Store) : Prop where
  entries : after.index.entries = before.index.entries
  blobs : ∀ h bytes, before.disk.blobs h = some bytes → after.disk.blobs h = some bytes
  texts : ∀ k, after.disk.metaText? k = before.disk.metaText? k ∨
    k = key ∧ after.disk.metaText? k = none
  sound : ∀ slack, before.Sound slack → ∃ slack', after.Sound slack'

theorem Migrated.refl (key : String) (s : Store) : Migrated key s s where
  entries := rfl
  blobs := fun _ _ present => present
  texts := fun _ => .inl rfl
  sound := fun slack sound => ⟨slack, sound⟩

variable {key : String} {s : Store} {m : EntryMeta}

theorem Migrated.trans {t u : Store} (first : Migrated key s t) (second : Migrated key t u) :
    Migrated key s u where
  entries := second.entries.trans first.entries
  blobs := fun h bytes present => second.blobs h bytes (first.blobs h bytes present)
  texts := by
    intro k
    rcases second.texts k with hsame | hgone
    · rw [hsame]
      exact first.texts k
    · exact .inr hgone
  sound := by
    intro slack sound
    obtain ⟨slack', sound'⟩ := first.sound slack sound
    exact second.sound slack' sound'

/-- A row that survives has the `meta.json` it had, or none. -/
theorem Migrated.meta? {t : Store} (migrated : Migrated key s t) {k : String}
    (parses : t.disk.meta? k = some m) : s.disk.meta? k = some m := by
  rcases migrated.texts k with hsame | ⟨-, hgone⟩
  · rwa [← Disk.meta?_congr hsame]
  · rw [Disk.meta?, hgone] at parses
    cases parses

/-- One more reference on a blob, and a directory whose `meta.json` stayed or
went. -/
theorem Migrated.of_takeBlobRef (file : CachedFile) {disk : Disk}
    (blobs : ∀ h bytes, s.disk.blobs h = some bytes → disk.blobs h = some bytes)
    (texts : ∀ k, disk.metaText? k = s.disk.metaText? k ∨ k = key ∧ disk.metaText? k = none) :
    Migrated key s ⟨Index.takeBlobRef file s.index, disk⟩ where
  entries := Index.entries_takeBlobRef file s.index
  blobs := blobs
  texts := texts
  sound := by
    intro slack sound
    -- the count has one reference more than the mappings, and `key` may have lost its text
    refine ⟨⟨file.hash ::ₘ slack.surplus, insert key slack.lost⟩, ?_⟩
    constructor
    · exact sound.counted.takeBlobRef file
    · intro k row hrow
      rw [Index.entries_takeBlobRef] at hrow
      exact sound.committed k row hrow
    · intro k present
      rw [Index.entries_takeBlobRef] at present
      rcases texts k with hsame | ⟨rfl, hgone⟩
      · rcases sound.paired k present with ⟨m, hmeta, hmaps⟩ | ⟨lost, hnone⟩
        · refine .inl ⟨m, (Disk.meta?_congr hsame).trans hmeta, fun h => ?_⟩
          rw [Index.entryBlobs_takeBlobRef]
          exact hmaps h
        · exact .inr ⟨Set.mem_insert_of_mem key lost, hsame.trans hnone⟩
      · exact .inr ⟨Set.mem_insert k slack.lost, hgone⟩
    · intro k absent h
      rw [Index.entries_takeBlobRef] at absent
      rw [Index.entryBlobs_takeBlobRef]
      exact sound.unmapped k absent h

theorem migrateFile_migrated (key : String) (s : Store) (file : CachedFile) :
    Migrated key s (migrateFile key s file) := by
  unfold migrateFile
  split
  · exact .refl key s
  · next dir hdir =>
    split
    · exact .refl key s
    · next bytes _ =>
      -- the old file goes, and it may be `meta.json` itself
      have texts : ∀ k, (s.disk.setDir key (dir.removeArtifact file.name)).metaText? k =
          s.disk.metaText? k ∨
            k = key ∧ (s.disk.setDir key (dir.removeArtifact file.name)).metaText? k = none :=
        Disk.texts_removeArtifact hdir fun _ => Set.mem_singleton key
      dsimp only
      split
      · exact .of_takeBlobRef file (fun _ _ present => present) texts
      · next missing =>
        refine .of_takeBlobRef file (fun h bytes' present => ?_) texts
        rw [Disk.blobs_setDir, Disk.blobs_setBlob, if_neg]
        · exact present
        · rintro rfl
          simp [present] at missing

/-- **A migration**, or the lack of one. -/
theorem lazyMigration_migrated {env : Env} {s' : Store}
    (done : lazyMigration env key m s = some s') : Migrated m.cacheKey s s' := by
  have hfold : ∀ (files : List CachedFile) (t : Store),
      Migrated m.cacheKey t (files.foldl (migrateFile m.cacheKey) t) := by
    intro files
    induction files with
    | nil => exact fun t => .refl _ t
    | cons file rest ih => exact fun t => (migrateFile_migrated _ t file).trans (ih _)
  unfold lazyMigration migrateEntryToBlobs at done
  grind [Migrated.refl]

/-! ## What a lookup can do -/

/-- **A hit.**  The row is committed, `meta.json` reads as what is returned, and
every blob passed the checks in the store the migration left. -/
theorem get_hit {env : Env} {verify : Bool} {s' : Store}
    (hit : get env verify key s = (s', some m)) :
    s.index.isCommitted key = true ∧ s.disk.meta? key = some m ∧ Migrated m.cacheKey s s' ∧
      ∀ f ∈ m.files, servable env (!entryIsDurable key s.index || verify) s'.disk f = true := by
  unfold get contains at hit
  grind [lazyMigration_migrated, Migrated.entries, entryIsDurable]

/-- A lookup migrates the entry, and possibly evicts it. -/
theorem get_cases (env : Env) (verify : Bool) (key : String) (s : Store) :
    ∃ k t, Migrated k s t ∧
      ((get env verify key s).1 = t ∨ (get env verify key s).1 = removeEntry key t) := by
  fun_cases get env verify key s with
  | case1 | case2 | case3 => exact ⟨key, s, .refl key s, .inl rfl⟩
  | case4 _ m _ t migrated => exact ⟨m.cacheKey, t, lazyMigration_migrated migrated, .inl rfl⟩
  | case5 _ m _ t migrated => exact ⟨m.cacheKey, t, lazyMigration_migrated migrated, .inr rfl⟩

end Kache
