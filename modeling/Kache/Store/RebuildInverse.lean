import Kache.Store.Conservation

/-!
# Rebuilding undoes the loss of an index

Losing the index loses nothing: on a store whose references are conserved and
whose committed entries are complete on disk, emptying the tables and running
`rebuild_index_from_store` brings `entry_blobs` and `blobs` back row by row, and
the same keys are committed again (`rebuild_inverts_index_loss`).  The order of
the directory scan does not matter, nor does a second run, nor a run on the
index that was never lost.

The argument has two halves.  Along a scan the rebuilt store stays sound, its
rows are among the committed keys, and its sizes are the lengths on disk
(`Rebuilding`).  And a sound store is determined by its rows and its disk: the
mapping of a committed key is what its `meta.json` lists, and the counts are the
aggregate of the mappings.
-/

namespace Kache

/-- The size a blob on `disk` has. -/
def lengthOnDisk (disk : Disk) (h : String) (size : ℤ) : Prop :=
  ∀ bytes, disk.blobs h = some bytes → size = asI64 bytes.length

/-- **Complete stores**: references are conserved, every committed entry has a
valid key, valid names and blobs with the listed lengths, sizes in the index are
those lengths, and every directory named by a key belongs to a committed row. -/
structure Store.Complete (s : Store) : Prop where
  conserved : RefcountConservation s
  validKey : ∀ key, s.index.isCommitted key = true → isValidCacheKey key = true
  present : ∀ key m, s.index.isCommitted key = true → s.disk.meta? key = some m →
    ∀ f ∈ m.files, isBlobHash f.hash = true ∧ isSafeStoredArtifactName f.name = true ∧
      (s.disk.blobs f.hash).map List.length = some f.size
  sized : s.index.EachBlob (lengthOnDisk s.disk)
  owned : ∀ key, isValidCacheKey key = true → (s.disk.dirs key).isSome →
    s.index.isCommitted key = true

/-! ## Scans that find every row -/

/-- A key that has a row is skipped. -/
theorem rebuildOneEntry_of_present {env : Env} {key : String} {s : Store}
    (present : (s.index.entries.get key).isSome) : (rebuildOneEntry env key s).1 = s := by
  unfold rebuildOneEntry
  split
  · rfl
  · rw [rebuildInsert_of_present present]

/-- A scan changes nothing when every directory it would index has a row. -/
theorem rebuildIndexFromStore_of_indexed {env : Env} {s : Store}
    (indexed : ∀ key, isValidCacheKey key = true → (s.disk.dirs key).isSome →
      (s.index.entries.get key).isSome) (listing : List String) :
    (rebuildIndexFromStore env listing s).1 = s := by
  have hvisit : ∀ name, rebuildVisit env s name = s := by
    intro name
    unfold rebuildVisit
    split
    · rfl
    · next visited =>
      simp only [Bool.or_eq_true, not_or, Bool.not_eq_true, Option.isNone_eq_false_iff,
        Bool.not_eq_false'] at visited
      exact rebuildOneEntry_of_present (indexed name visited.2 visited.1.1)
  rw [fst_rebuildIndexFromStore]
  induction listing with
  | nil => rfl
  | cons name rest ih => rw [List.foldl_cons, hvisit, ih]

/-! ## Along a scan -/

/-- A scan of the disk of `origin` that has come as far as `s`. -/
structure Rebuilding (origin s : Store) : Prop where
  disk : s.disk = origin.disk
  sound : s.Sound .exact
  sized : s.index.EachBlob (lengthOnDisk origin.disk)
  committed : ∀ key, (s.index.entries.get key).isSome → origin.index.isCommitted key = true

section Scan

variable {env : Env} {origin s : Store}

theorem rebuilding_empty (origin : Store) : Rebuilding origin ⟨.empty, origin.disk⟩ where
  disk := rfl
  sound := Store.sound_empty origin.disk
  sized := by
    intro h row hrow
    simp [Index.empty] at hrow
  committed := by
    intro key present
    simp [Index.empty] at present

/-- Registering sizes the check compared with the disk. -/
theorem sized_rebuildInsert (env : Env) {key : String} {m : EntryMeta}
    (sized : s.index.EachBlob (lengthOnDisk s.disk)) (passed : checkRebuild s.disk key = some m) :
    (rebuildInsert env key m s.index).EachBlob (lengthOnDisk s.disk) := by
  have hfiles : ∀ f ∈ m.files, lengthOnDisk s.disk f.hash (asI64 f.size) := by
    intro f mem bytes hbytes
    have hok := (checkRebuild_eq_some.mp passed).2 f mem
    simp only [rebuildFileOk, hbytes, Option.any_some, Bool.and_eq_true, beq_iff_eq] at hok
    rw [hok.2]
  unfold rebuildInsert
  split
  · exact sized
  · rw [Index.insertOrIgnoreEntry, Index.registerRefs_entries]
    intro h row hrow
    exact sized.registerRefs key hfiles h row hrow

/-- The rows after one registration. -/
theorem isSome_rebuildInsert_iff (env : Env) (name : String) (m : EntryMeta) (idx : Index)
    (key : String) :
    ((rebuildInsert env name m idx).entries.get key).isSome ↔
      key = name ∨ (idx.entries.get key).isSome := by
  by_cases row : (idx.entries.get name).isSome
  · rw [rebuildInsert_of_present row]
    refine ⟨.inr, ?_⟩
    rintro (rfl | h)
    exacts [row, h]
  · rw [rebuildInsert_of_absent (Option.not_isSome_iff_eq_none.mp row)]
    by_cases hk : key = name <;> simp [Index.insertOrReplaceEntry, hk]

/-- What the scan finds at the directory of a committed key. -/
theorem Store.Complete.checkRebuild (complete : origin.Complete) {name : String}
    (committed : origin.index.isCommitted name = true) :
    ∃ m, checkRebuild origin.disk name = some m := by
  obtain ⟨m, hmeta, -⟩ := complete.conserved.paired name committed
  refine ⟨m, checkRebuild_eq_some.mpr ⟨hmeta, fun f mem => ?_⟩⟩
  obtain ⟨hhash, hname, hlen⟩ := complete.present name m committed hmeta f mem
  obtain ⟨bytes, hbytes, hsize⟩ := Option.map_eq_some_iff.mp hlen
  simp [rebuildFileOk, hhash, hname, hbytes, hsize]

/-- The scan skips no directory of a committed key. -/
theorem Store.Complete.not_skipped (complete : origin.Complete) {name : String}
    (committed : origin.index.isCommitted name = true) :
    ((origin.disk.dirs name).isNone || name == "blobs" || !isValidCacheKey name) = false := by
  obtain ⟨m, hmeta, -⟩ := complete.conserved.paired name committed
  have hvalid := complete.validKey name committed
  have hname : name ≠ "blobs" := by
    rintro rfl
    exact absurd hvalid (by decide)
  simp [Option.isNone_eq_false_iff.mpr (Disk.isSome_dir_of_meta? hmeta), hname, hvalid]

/-- **One step of the scan** keeps the invariant, keeps the rows, and indexes the
directory of a committed key. -/
theorem Rebuilding.visit (env : Env) (complete : origin.Complete) (scan : Rebuilding origin s)
    (name : String) :
    Rebuilding origin (rebuildVisit env s name) ∧
      (∀ key, (s.index.entries.get key).isSome →
        ((rebuildVisit env s name).index.entries.get key).isSome) ∧
      (origin.index.isCommitted name = true →
        ((rebuildVisit env s name).index.entries.get name).isSome) := by
  by_cases skipped :
      ((s.disk.dirs name).isNone || name == "blobs" || !isValidCacheKey name) = true
  · have hvisit : rebuildVisit env s name = s := by rw [rebuildVisit, if_pos skipped]
    rw [hvisit]
    refine ⟨scan, fun key row => row, fun committed => ?_⟩
    rw [scan.disk, complete.not_skipped committed] at skipped
    cases skipped
  · have hvisit : rebuildVisit env s name = (rebuildOneEntry env name s).1 := by
      rw [rebuildVisit, if_neg skipped]
    have hsound := scan.sound.rebuildOneEntry env name
    rw [hvisit]
    -- a directory that is visited belongs to a committed key, and passes the check
    have hcommitted : origin.index.isCommitted name = true := by
      simp only [Bool.or_eq_true, not_or, Bool.not_eq_true, Option.isNone_eq_false_iff,
        Bool.not_eq_false'] at skipped
      exact complete.owned name skipped.2 (scan.disk ▸ skipped.1.1)
    obtain ⟨m, passed⟩ := complete.checkRebuild hcommitted
    rw [← scan.disk] at passed
    have hone : (rebuildOneEntry env name s).1 = ⟨rebuildInsert env name m s.index, s.disk⟩ := by
      simp [rebuildOneEntry, passed]
    rw [hone] at hsound ⊢
    have hrows := isSome_rebuildInsert_iff env name m s.index
    refine ⟨⟨scan.disk, hsound, ?_, ?_⟩, fun key row => (hrows key).mpr (.inr row),
      fun _ => (hrows name).mpr (.inl rfl)⟩
    · have hsized := sized_rebuildInsert env (scan.disk ▸ scan.sized) passed
      rwa [scan.disk] at hsized
    · intro key row
      rcases (hrows key).mp row with rfl | row
      · exact hcommitted
      · exact scan.committed key row

/-- **A whole scan** indexes every committed key it lists. -/
theorem Rebuilding.scan (env : Env) (complete : origin.Complete) (scan : Rebuilding origin s)
    (listing : List String) :
    Rebuilding origin (listing.foldl (rebuildVisit env) s) ∧
      (∀ key, (s.index.entries.get key).isSome →
        ((listing.foldl (rebuildVisit env) s).index.entries.get key).isSome) ∧
      (∀ key ∈ listing, origin.index.isCommitted key = true →
        ((listing.foldl (rebuildVisit env) s).index.entries.get key).isSome) := by
  induction listing generalizing s with
  | nil => exact ⟨scan, fun _ row => row, by simp⟩
  | cons name rest ih =>
    obtain ⟨hscan, hkeeps, hindexes⟩ := scan.visit env complete name
    obtain ⟨hscan', hkeeps', hindexes'⟩ := ih hscan
    rw [List.foldl_cons]
    refine ⟨hscan', fun key row => hkeeps' key (hkeeps key row), ?_⟩
    intro key mem committed
    rcases List.mem_cons.mp mem with rfl | mem
    · exact hkeeps' key (hindexes committed)
    · exact hindexes' key mem committed

end Scan

/-! ## A conserved index is determined by its rows and its disk -/

section Determined

variable {s t : Store}

/-- Equal rows and equal files give equal mappings. -/
theorem RefcountConservation.entryBlobs_eq (left : RefcountConservation s)
    (right : RefcountConservation t) (disk : s.disk = t.disk)
    (rows : ∀ key, s.index.isCommitted key = t.index.isCommitted key) :
    s.index.entryBlobs = t.index.entryBlobs := by
  refine Table.ext_get fun ⟨key, h⟩ => ?_
  cases hcommitted : s.index.isCommitted key with
  | false => rw [left.unmapped key hcommitted h, right.unmapped key (rows key ▸ hcommitted) h]
  | true =>
    obtain ⟨m, hmeta, hmaps⟩ := left.paired key hcommitted
    obtain ⟨m', hmeta', hmaps'⟩ := right.paired key (rows key ▸ hcommitted)
    rw [disk, hmeta'] at hmeta
    cases hmeta
    rw [hmaps h, hmaps' h]

/-- Equal mappings give equal counts, and the sizes are those of the files. -/
theorem RefcountConservation.blobs_eq (left : RefcountConservation s)
    (right : RefcountConservation t) (entryBlobs : s.index.entryBlobs = t.index.entryBlobs)
    {disk : Disk} (leftSized : s.index.EachBlob (lengthOnDisk disk))
    (rightSized : t.index.EachBlob (lengthOnDisk disk))
    (present : ∀ h, (s.index.blobs.get h).isSome → (disk.blobs h).isSome) :
    s.index.blobs = t.index.blobs := by
  have hrefs : ∀ h, s.index.mappedRefs h = t.index.mappedRefs h := by
    intro h
    rw [Index.mappedRefs, Index.mappedRefs, entryBlobs]
  refine Table.ext_get fun h => ?_
  cases hleft : s.index.blobs.get h with
  | none =>
    -- a row on one side only would be a count of zero
    cases hright : t.index.blobs.get h with
    | none => rfl
    | some row =>
      have hpos := (right.row_iff h).mp (by simp [hright])
      have hsome := (left.row_iff h).mpr (hrefs h ▸ hpos)
      simp [hleft] at hsome
  | some row =>
    have hpos := (left.row_iff h).mp (by simp [hleft])
    obtain ⟨row', hright⟩ :=
      Option.isSome_iff_exists.mp ((right.row_iff h).mpr (hrefs h ▸ hpos))
    obtain ⟨bytes, hbytes⟩ := Option.isSome_iff_exists.mp (present h (by simp [hleft]))
    have hsize : row.size = row'.size :=
      (leftSized h row hleft bytes hbytes).trans (rightSized h row' hright bytes hbytes).symm
    have hcount : row.refcount = row'.refcount := by
      rw [left.refcount h row hleft, right.refcount h row' hright, hrefs h]
    obtain ⟨size, refcount⟩ := row
    obtain ⟨size', refcount'⟩ := row'
    rw [hright]
    exact congrArg some (congrArg₂ BlobRow.mk hsize hcount)

/-- In a complete store every row's blob is on disk. -/
theorem Store.Complete.blob_present (complete : s.Complete) {h : String}
    (row : (s.index.blobs.get h).isSome) : (s.disk.blobs h).isSome := by
  have hpos := (complete.conserved.row_iff h).mp row
  obtain ⟨key, mapped⟩ := Index.exists_mapped_of_mappedRefs_ne_zero (ne_of_gt hpos)
  cases hcommitted : s.index.isCommitted key with
  | false =>
    rw [complete.conserved.unmapped key hcommitted h] at mapped
    simp at mapped
  | true =>
    obtain ⟨m, hmeta, hmaps⟩ := complete.conserved.paired key hcommitted
    obtain ⟨f, mem, rfl⟩ := mem_hashesOf.mp ((hmaps.isSome_iff h).mp mapped)
    have hlen := (complete.present key m hcommitted hmeta f mem).2.2
    rw [← Option.isSome_map (f := List.length), hlen]
    rfl

end Determined

/-- **Rebuilding is the inverse of losing the index.**  On a complete store, for
every listing of its directories: the rebuilt index commits the same keys and
has the same `entry_blobs` and `blobs` rows, a second rebuild changes nothing,
and neither does a rebuild of the index that was never lost. -/
theorem rebuild_inverts_index_loss {env : Env} {s : Store} (complete : s.Complete)
    {listing : List String} (listed : ∀ key, (s.disk.dirs key).isSome → key ∈ listing) :
    let rebuilt := (rebuildIndexFromStore env listing ⟨.empty, s.disk⟩).1
    (∀ key, rebuilt.index.isCommitted key = s.index.isCommitted key) ∧
      rebuilt.index.entryBlobs = s.index.entryBlobs ∧
      rebuilt.index.blobs = s.index.blobs ∧
      (∀ again, (rebuildIndexFromStore env again rebuilt).1.index = rebuilt.index) ∧
      (∀ again, (rebuildIndexFromStore env again s).1.index = s.index) := by
  intro rebuilt
  obtain ⟨scan, -, hindexed⟩ :=
    (rebuilding_empty s).scan env complete listing
  rw [← fst_rebuildIndexFromStore] at scan hindexed
  change Rebuilding s rebuilt at scan
  have hrow : ∀ key, s.index.isCommitted key = true → (rebuilt.index.entries.get key).isSome := by
    intro key committed
    obtain ⟨m, hmeta, -⟩ := complete.conserved.paired key committed
    exact hindexed key (listed key (Disk.isSome_dir_of_meta? hmeta)) committed
  have hrows : ∀ key, rebuilt.index.isCommitted key = s.index.isCommitted key := by
    intro key
    rw [Bool.eq_iff_iff, scan.sound.isCommitted_iff]
    exact ⟨scan.committed key, hrow key⟩
  have hconserved := scan.sound.refcountConservation
  have hentryBlobs := complete.conserved.entryBlobs_eq hconserved scan.disk.symm
    fun key => (hrows key).symm
  have hblobs := complete.conserved.blobs_eq hconserved hentryBlobs complete.sized scan.sized
    fun _ => complete.blob_present
  refine ⟨hrows, hentryBlobs.symm, hblobs.symm, fun again => ?_, fun again => ?_⟩
  · rw [rebuildIndexFromStore_of_indexed]
    intro key valid dir
    exact hrow key (complete.owned key valid (scan.disk ▸ dir))
  · rw [rebuildIndexFromStore_of_indexed]
    exact fun key valid dir => Index.isSome_of_isCommitted (complete.owned key valid dir)

/-- The metadata of an entry that lists one blob twice. -/
def sampleMeta : EntryMeta :=
  putMeta sampleEnv (sampleRequest sampleKey₁ [])
    [⟨"a", 1, digestA, false⟩, ⟨"b", 1, digestA, false⟩]

/-- A store with that one entry. -/
def sampleStore : Store where
  index :=
    { entries := Table.empty.set sampleKey₁ (entryRow sampleEnv sampleMeta true false none)
      blobs := Table.empty.set digestA ⟨asI64 1, 2⟩
      entryBlobs := Table.empty.set (sampleKey₁, digestA) 2 }
  disk :=
    { blobs := fun h => if h = digestA then some [97] else none
      dirs := fun k => if k = sampleKey₁ then
        some ⟨some (.written sampleEnv sampleMeta), fun _ => none⟩ else none }

theorem sampleStore_isCommitted (key : String) :
    sampleStore.index.isCommitted key = true ↔ key = sampleKey₁ := by
  by_cases hk : key = sampleKey₁ <;> simp [sampleStore, Index.isCommitted, hk, entryRow]

theorem sampleStore_meta : sampleStore.disk.meta? sampleKey₁ = some sampleMeta := by
  simp [sampleStore, Disk.meta?, Disk.metaText?]

theorem sampleStore_mappedRefs (h : String) :
    sampleStore.index.mappedRefs h = if digestA = h then 2 else 0 := by
  simp [sampleStore, Index.mappedRefs, Table.sumOver_set]

theorem sampleStore_complete : sampleStore.Complete where
  conserved :=
    { row_iff := by
        intro h
        rw [sampleStore_mappedRefs]
        by_cases hh : h = digestA <;> simp [sampleStore, hh, eq_comm (a := digestA)]
      refcount := by
        intro h row hrow
        rw [sampleStore_mappedRefs]
        grind [sampleStore, Table.get_set, Table.get_empty]
      paired := by
        intro key committed
        rw [sampleStore_isCommitted] at committed
        subst committed
        refine ⟨sampleMeta, sampleStore_meta, fun h => ?_⟩
        have hcount : (hashesOf sampleMeta.files).count h = if h = digestA then 2 else 0 := by
          by_cases hh : h = digestA <;> simp [sampleMeta, putMeta, hh]
        rw [hcount]
        by_cases hh : h = digestA <;> simp [sampleStore, hh, countRow]
      unmapped := by
        intro key uncommitted h
        rw [← Bool.not_eq_true, sampleStore_isCommitted] at uncommitted
        simp [sampleStore, uncommitted] }
  validKey key committed := by
    rw [(sampleStore_isCommitted key).mp committed]
    decide
  present := by
    intro key m committed hmeta f mem
    cases (sampleStore_isCommitted key).mp committed
    cases sampleStore_meta.symm.trans hmeta
    simp only [sampleMeta, putMeta, List.mem_cons, List.not_mem_nil, or_false] at mem
    rcases mem with rfl | rfl <;> decide
  sized := by
    intro h row hrow bytes hbytes
    by_cases hh : h = digestA
    · simp only [sampleStore, Table.get_set, hh, if_true, Option.some.injEq] at hrow hbytes
      rw [← hrow, ← hbytes]
      rfl
    · simp [sampleStore, hh] at hrow
  owned := by
    intro key _ dir
    rw [sampleStore_isCommitted]
    by_contra hk
    simp [sampleStore, hk] at dir

/-- The complete store above, with its directory among the names a scan yields. -/
theorem rebuild_inverts_index_loss_sample :
    let rebuilt := (rebuildIndexFromStore sampleEnv ["blobs", sampleKey₁]
      ⟨.empty, sampleStore.disk⟩).1
    rebuilt.index.isCommitted sampleKey₁ = true ∧
      rebuilt.index.blobs = sampleStore.index.blobs ∧
      (rebuildIndexFromStore sampleEnv ["blobs", sampleKey₁] rebuilt).1.index = rebuilt.index := by
  intro rebuilt
  obtain ⟨hrows, -, hblobs, hagain, -⟩ :=
    @rebuild_inverts_index_loss sampleEnv sampleStore sampleStore_complete ["blobs", sampleKey₁]
      fun key dir => by
        by_cases hk : key = sampleKey₁
        · simp [hk]
        · simp [sampleStore, hk] at dir
  exact ⟨(hrows sampleKey₁).trans ((sampleStore_isCommitted sampleKey₁).mpr rfl), hblobs,
    hagain _⟩

end Kache
