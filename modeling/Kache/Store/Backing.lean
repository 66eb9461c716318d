import Kache.Store.Conservation
import Kache.Store.Processes

/-!
# No committed reference without bytes

Blob files are created and unlinked by steps that interleave: an unlocked
publication, a removal that has committed and not cleaned up, a sweep with an
old list of candidates.  What holds across all of them is that a `blobs` row has
its file and that the store is sound; together they say that every hash a
committed entry maps can be read (`Store.Backed`).

Every writer re-establishes this under the write lock, except that an import
registers metadata it read *before* the lock and never looks at `meta.json`
again.  A removal of an earlier generation of the key can delete the directory
in between, and then a row is committed that has no `meta.json`
(`import_commits_without_meta`).  `registersWhatItChecked` is the condition that
this does not happen, `keepsMeta` that the import does not take `meta.json` away
itself, and with both the invariant holds in every interleaving
(`committed_references_backed`).
-/

namespace Kache

/-- **Backed stores.**  A committed entry has its `meta.json`, and every hash it
maps has a `blobs` row and a file. -/
def Store.Backed (s : Store) : Prop :=
  ∀ key, s.index.isCommitted key = true →
    (s.disk.metaText? key).isSome ∧
      ∀ h, (s.index.entryBlobs.get (key, h)).isSome →
        (s.index.blobs.get h).isSome ∧ (s.disk.blobs h).isSome

/-- Every `blobs` row has its file. -/
def Store.FilesPresent (s : Store) : Prop :=
  s.index.EachBlob fun h _ => (s.disk.blobs h).isSome

/-- A locked step that registers metadata checked without the lock finds that
metadata still in place. -/
def registersWhatItChecked (store : Store) : Proc → Action → Bool
  | .importing key m, .importDownloaded _ => store.disk.meta? key == some m
  | .importingBatch batch, .importBatch _ =>
    batch.all fun e =>
      (store.index.entries.get e.cacheKey).isSome ||
        store.disk.meta? e.cacheKey == some e.entryMeta
  | .rebuilding key m _ _, .rebuildInsert =>
    (store.index.entries.get key).isSome || store.disk.meta? key == some m
  | _, _ => true

/-- An import works on no list that names `meta.json`. -/
def keepsMeta : Proc → Action → Bool
  | .importing _ m, .importDownloaded _ => !namesMeta m.files
  | .importingBatch batch, .importBatch _ | .tidying batch, .tidy =>
    batch.all fun e => !namesMeta e.entryMeta.files
  | _, _ => true

/-- An extraction clears or places only the directory of a key without a row. -/
def extractsUnregistered (store : Store) : Proc → Action → Bool
  | .claimed key _, .extractClear | .cleared key _, .extractPlace _ =>
    (store.index.entries.get key).isNone
  | _, _ => true

section Steps

variable {env : Env} {slack : Slack} {store store' : Store} {proc : Proc} {a : Action}

/-- A batch that names no `meta.json` takes none. -/
theorem metaTaken_of_keeps {batch : List VerifiedRestoredEntry}
    (keeps : (batch.all fun e => !namesMeta e.entryMeta.files) = true) : metaTaken batch = ∅ :=
  metaTaken_eq_empty (by simpa using keeps)

/-- **One step keeps a store sound** when it extracts over no row, registers what
it checked and takes no `meta.json`. -/
theorem Effect.sound (effect : Effect env store proc a store') (sound : store.Sound slack)
    (extracts : extractsUnregistered store proc a = true)
    (registers : registersWhatItChecked store proc a = true) (keeps : keepsMeta proc a = true) :
    store'.Sound slack := by
  have hgrow : ∀ {disk : Disk}, store.disk.Grows ∅ disk → Store.Sound slack ⟨store.index, disk⟩ :=
    fun grows => sound.grow (grows.mono (Set.empty_subset _))
  cases effect with
  | reads => exact sound
  | publish req out rest published =>
    exact hgrow (publishOutput_grows env req.crateTypes out store.disk)
  | register req published live => exact sound.put_register env _ _ live
  | removeRows parses done => exact sound.removeRows parses done
  | removeCleanup key unlink => exact sound.removeCleanup key unlink
  | sweepUnlink candidates => exact sound.sweepUnlink candidates
  | extractClear key batch =>
    refine sound.of_unregistered (by simpa [extractsUnregistered] using extracts) fun k hk => ?_
    rw [Disk.metaText?_removeDir, if_neg hk]
  | extractPlace key batch dir =>
    exact sound.of_unregistered (by simpa [extractsUnregistered] using extracts)
      fun k hk => metaText?_placeDir_of_ne hk dir store.disk
  | importDownloaded done =>
    obtain ⟨rfl, hgrows, -⟩ :=
      importScript_ok (fun named => by simp [keepsMeta, named] at keeps) done
    exact sound.register_present rfl hgrows (by simpa [registersWhatItChecked] using registers)
  | importDownloadedFailed grows =>
    rw [metaTaken_of_keeps (by simpa [keepsMeta] using keeps)] at grows
    exact hgrow grows
  | importBatch done =>
    refine sound.restoreEntries (metaTaken_of_keeps keeps ▸ Set.empty_subset _)
      (fun e mem absent => ?_) done
    simp only [registersWhatItChecked, List.all_eq_true, Bool.or_eq_true] at registers
    simpa [absent] using registers e mem
  | importBatchFailed grows => exact hgrow (metaTaken_of_keeps keeps ▸ grows)
  | tidy batch =>
    exact hgrow (metaTaken_of_keeps keeps ▸ removeRestoredArtifacts_grows batch store.disk)
  | discard key rest => exact sound.discardUncommitted key
  | rebuildInsert key m checked =>
    cases hrow : store.index.entries.get key with
    | some row => rwa [rebuildInsert_of_present (by simp [hrow])]
    | none =>
      rw [rebuildInsert_of_absent hrow]
      exact sound.register_present rfl (.refl _)
        (by simpa [registersWhatItChecked, hrow] using registers)

/-- Rows keep their files on a disk that keeps every blob. -/
theorem Store.FilesPresent.keep (files : store.FilesPresent) {disk : Disk}
    (keeps : ∀ h, (store.disk.blobs h).isSome → (disk.blobs h).isSome) :
    Store.FilesPresent ⟨store.index, disk⟩ :=
  fun h row hrow => keeps h (files h row hrow)

theorem Store.FilesPresent.grow (files : store.FilesPresent) {disk : Disk} {lost : Set String}
    (grows : store.disk.Grows lost disk) : Store.FilesPresent ⟨store.index, disk⟩ :=
  files.keep fun _ => grows.isSome

/-- Registering files whose blobs are there. -/
theorem Store.FilesPresent.register (files : store.FilesPresent) {key : String}
    {listed : List CachedFile} {row : EntryRow} {disk : Disk}
    (keeps : ∀ h, (store.disk.blobs h).isSome → (disk.blobs h).isSome)
    (present : ∀ f ∈ listed, (disk.blobs f.hash).isSome) :
    Store.FilesPresent
      ⟨Index.insertOrReplaceEntry key row (Index.registerRefs key listed store.index), disk⟩ :=
  Index.EachBlob.registerRefs (P := fun h _ => (disk.blobs h).isSome) (files.keep keeps) key present

/-- **One step keeps every row's file** — a rebuild apart, which registers files
it looked for before it took the lock. -/
theorem Effect.filesPresent (effect : Effect env store proc a store')
    (files : store.FilesPresent) (scope : a ≠ .rebuildInsert) : store'.FilesPresent := by
  cases effect with
  | reads => exact files
  | publish req out rest published =>
    exact files.grow (publishOutput_grows env req.crateTypes out store.disk)
  | register req published live =>
    rcases commit_putScript env req.cacheKey (putMeta env req published) live store with
      ⟨grown, hgrows, hcommit⟩ | ⟨grown, hgrows, hblobs, hcommit⟩
    · rw [hcommit]
      exact files.grow hgrows
    · rw [hcommit]
      exact files.register (fun _ => hgrows.isSome) hblobs
  | @removeRows key text m idx unlink parses done =>
    obtain ⟨-, -, hidx⟩ := removeRows_eq_some done
    have hdeleted : (Index.deleteEntry key store.index).EachBlob
        fun h _ => (store.disk.blobs h).isSome := files
    have heach := hdeleted.unregisterRefs key m.files
    rwa [← hidx] at heach
  | removeCleanup key unlink =>
    intro h row hrow
    have hsome : (store.index.blobs.get h).isSome := Option.isSome_iff_exists.mpr ⟨row, hrow⟩
    rw [blobs_removeCleanup_of_row hsome]
    exact files h row hrow
  | sweepUnlink candidates =>
    intro h row hrow
    have hsome : (store.index.blobs.get h).isSome := Option.isSome_iff_exists.mpr ⟨row, hrow⟩
    rw [Kache.sweepUnlink, blobs_unlinkUnreferenced_of_row hsome]
    exact files h row hrow
  | extractClear key batch => exact files
  | extractPlace key batch dir =>
    intro h row hrow
    rw [blobs_placeDir]
    exact files h row hrow
  | importDownloaded done =>
    obtain ⟨rfl, hgrows, hblobs⟩ := importScript_ok (fun _ => Set.mem_univ _) done
    exact files.register (fun _ => hgrows.isSome) hblobs
  | importDownloadedFailed grows => exact files.grow grows
  | @importBatch batch now idx disk done =>
    have hgrows := restoreEntries_grows env now batch store.index store.disk
    rw [done] at hgrows
    obtain ⟨hblobs, heach⟩ := restoreEntries_each done
    exact heach _ (files.grow hgrows) hblobs
  | importBatchFailed grows => exact files.grow grows
  | tidy batch => exact files.grow (removeRestoredArtifacts_grows batch store.disk)
  | discard key rest =>
    unfold discardUncommittedRestoredEntry
    split <;> exact files
  | rebuildInsert key m checked => exact absurd rfl scope

/-- An extraction of a key that is uncommitted afterwards touches no row. -/
theorem extractsUnregistered_of_uncommitted {p : ℕ} {next : Store × Proc}
    (sound : store.Sound slack)
    (taken : transition env p store proc a = some next)
    (uncommitted : ∀ key ∈ next.2.underImport, next.1.index.isCommitted key = false) :
    extractsUnregistered store proc a = true := by
  have habsent : ∀ key, store.index.isCommitted key = false →
      (store.index.entries.get key).isNone = true := by
    intro key hkey
    rw [← Bool.not_eq_true, sound.isCommitted_iff] at hkey
    simpa using hkey
  unfold extractsUnregistered
  split
  · cases taken
    exact habsent _ (uncommitted _ (by simp [Proc.underImport]))
  · obtain ⟨m, -, rfl⟩ := Option.map_eq_some_iff.mp taken
    exact habsent _ (uncommitted _ (by simp [Proc.underImport]))
  · rfl

/-- A sound store whose rows have their files is backed. -/
theorem Store.Sound.backed (sound : store.Sound .exact) (files : store.FilesPresent) :
    store.Backed := by
  intro key committed
  obtain ⟨m, hmeta, -⟩ := sound.paired_of_exact ((sound.isCommitted_iff key).mp committed)
  refine ⟨?_, fun h mapped => ?_⟩
  · obtain ⟨text, htext, -⟩ := Option.bind_eq_some_iff.mp hmeta
    simp [htext]
  · have hrow := sound.counted.isSome_of_mapped mapped
    obtain ⟨row, hget⟩ := Option.isSome_iff_exists.mp hrow
    exact ⟨hrow, files h row hget⟩

end Steps

/-! ## All interleavings -/

/-- No key between its extraction and its commit has a committed row. -/
def Processes.ImportsUncommitted (s : Processes) : Prop :=
  ∀ proc ∈ s.procs, ∀ key ∈ proc.underImport, s.shared.index.isCommitted key = false

instance (s : Processes) : Decidable s.ImportsUncommitted :=
  inferInstanceAs (Decidable (∀ proc ∈ s.procs, ∀ key ∈ proc.underImport,
    s.shared.index.isCommitted key = false))

/-- The steps of a rebuild. -/
def Action.isRebuild : Action → Bool
  | .rebuildRead _ | .rebuildProbe | .rebuildInsert => true
  | _ => false

/-- The interleavings of puts, removals, orphan sweeps and imports of keys that
have no committed row from their extraction to their commit. -/
def inBackingScope (env : Env) (s : Processes) (a : ℕ × Action) : Prop :=
  a.2.isRebuild = false ∧
    ∀ s' ∈ System.step (transition env) s a, Processes.ImportsUncommitted s'

instance (env : Env) (s : Processes) (a : ℕ × Action) : Decidable (inBackingScope env s a) :=
  inferInstanceAs (Decidable (_ ∧ ∀ s' ∈ System.step (transition env) s a, _))

/-- The process that moves registers what it checked. -/
def stepRegistersWhatItChecked (s : Processes) (a : ℕ × Action) : Prop :=
  ∀ proc ∈ s.procs[a.1]?, registersWhatItChecked s.shared proc a.2 = true

instance (s : Processes) (a : ℕ × Action) : Decidable (stepRegistersWhatItChecked s a) :=
  inferInstanceAs (Decidable (∀ proc ∈ s.procs[a.1]?, _))

/-- The process that moves takes no `meta.json`. -/
def stepKeepsMeta (s : Processes) (a : ℕ × Action) : Prop :=
  ∀ proc ∈ s.procs[a.1]?, keepsMeta proc a.2 = true

instance (s : Processes) (a : ℕ × Action) : Decidable (stepKeepsMeta s a) :=
  inferInstanceAs (Decidable (∀ proc ∈ s.procs[a.1]?, _))

/-- **Committed references are backed.**  In every interleaving, by any number of
processes, in which the imports find the `meta.json` they checked still in place
when they take the lock and list no file of that name, every hash a committed
entry maps has a row and a file, and the entry's `meta.json` exists. -/
theorem committed_references_backed {env : Env} {n : ℕ} {s : Processes}
    (run : Reaches (fun s a =>
        inBackingScope env s a ∧ stepRegistersWhatItChecked s a ∧ stepKeepsMeta s a)
      (System.step (transition env)) (Processes.over Store.empty n) s) :
    s.shared.Backed := by
  have hinv : s.shared.Sound .exact ∧ s.shared.FilesPresent := by
    refine run.shared_invariant (I := fun store => store.Sound .exact ∧ store.FilesPresent) ?_ ?_
    · refine ⟨Store.sound_empty .empty, ?_⟩
      intro h row hrow
      simp [Processes.over, System.start, Store.empty, Index.empty] at hrow
    rintro s p a proc next hproc ⟨sound, files⟩ ⟨⟨scope, uncommitted⟩, registers, keeps⟩ taken
    have heffect := transition_effect taken
    have hstep : System.step (transition env) s (p, a)
        = some ⟨next.1, s.procs.set p next.2⟩ :=
      System.step_eq_some.mpr ⟨proc, next, hproc, taken, rfl⟩
    -- the process that moved is under the exclusion in the state it moved to
    have hexclusive : ∀ key ∈ next.2.underImport, next.1.index.isCommitted key = false := by
      intro key mem
      refine uncommitted _ hstep next.2 ?_ key mem
      have hlt := (List.getElem?_eq_some_iff.mp hproc).1
      exact List.mem_of_getElem? (List.getElem?_set_self hlt)
    have hextracts := extractsUnregistered_of_uncommitted sound taken hexclusive
    refine ⟨heffect.sound sound hextracts (registers proc hproc) (keeps proc hproc),
      heffect.filesPresent files ?_⟩
    rintro rfl
    cases scope
  exact hinv.1.backed hinv.2

/-! ## A removal and a download of one key -/

/-- Process `p` puts `outputs` under `key`, from start to commit. -/
def putActions (p : ℕ) (key : String) (outputs : List Output) : List (ℕ × Action) :=
  (p, .startPut (sampleRequest key outputs)) :: outputs.map (fun _ => (p, .publish)) ++
    [(p, .register fun _ => none)]

/-- An extracted directory whose `meta.json` lists the file `b`. -/
def sampleArchive (key : String) : EntryDir where
  metaJson := some (.written sampleEnv
    (putMeta sampleEnv (sampleRequest key []) [⟨"b", 1, digestB, false⟩]))
  artifacts := fun name => if name = "b" then some [98] else none

/-- Two keys share the blob `b`.  The first is removed up to the commit, and
downloaded again by a second process; the removal's cleanup then runs between
the checks of the import and its transaction. -/
def staleCleanupTrace : List (ℕ × Action) :=
  putActions 0 sampleKey₂ [sampleOutput "b" [98]] ++
    putActions 0 sampleKey₁ [sampleOutput "b" [98]] ++
    [(0, .removeRead sampleKey₁), (0, .removeRows),
      (1, .startRestore), (1, .download sampleKey₁), (1, .extractClear),
      (1, .extractPlace (sampleArchive sampleKey₁)), (1, .checkDownloaded),
      (0, .removeCleanup), (1, .importDownloaded 0)]

/-- **An import commits a row without a `meta.json`.**  Its key had no committed
row from the extraction to the commit. -/
theorem import_commits_without_meta :
    ∃ s, Reaches (inBackingScope sampleEnv) (System.step (transition sampleEnv))
        (Processes.over Store.empty 2) s ∧
      s.shared.index.isCommitted sampleKey₁ = true ∧
      s.shared.disk.metaText? sampleKey₁ = none ∧ ¬ s.shared.Backed := by
  obtain ⟨s, run, htest⟩ := exists_reaches_of_replay
    (inBackingScope sampleEnv) (System.step (transition sampleEnv))
    (Processes.over Store.empty 2) staleCleanupTrace
    (fun s => s.shared.index.isCommitted sampleKey₁ &&
      (s.shared.disk.metaText? sampleKey₁).isNone)
    (by decide +kernel)
  simp only [Bool.and_eq_true, Option.isNone_iff_eq_none] at htest
  refine ⟨s, run, htest.1, htest.2, fun backed => ?_⟩
  have hmeta := (backed sampleKey₁ htest.1).1
  rw [htest.2] at hmeta
  cases hmeta

/-- With the cleanup before the extraction the same operations are in order. -/
theorem committed_references_backed_after_cleanup :
    ∃ s : Processes, s.shared.index.isCommitted sampleKey₁ = true ∧
      (s.shared.index.entryBlobs.get (sampleKey₁, digestB)).isSome ∧ s.shared.Backed := by
  obtain ⟨s, run, htest⟩ := exists_reaches_of_replay
    (fun s a => inBackingScope sampleEnv s a ∧ stepRegistersWhatItChecked s a ∧ stepKeepsMeta s a)
    (System.step (transition sampleEnv)) (Processes.over Store.empty 2)
    (putActions 0 sampleKey₂ [sampleOutput "b" [98]] ++
      putActions 0 sampleKey₁ [sampleOutput "b" [98]] ++
      [(0, .removeRead sampleKey₁), (0, .removeRows), (0, .removeCleanup),
        (1, .startRestore), (1, .download sampleKey₁), (1, .extractClear),
        (1, .extractPlace (sampleArchive sampleKey₁)), (1, .checkDownloaded),
        (1, .importDownloaded 0)])
    (fun s => s.shared.index.isCommitted sampleKey₁ &&
      (s.shared.index.entryBlobs.get (sampleKey₁, digestB)).isSome)
    (by decide +kernel)
  rw [Bool.and_eq_true] at htest
  exact ⟨s, htest.1, htest.2, committed_references_backed run⟩

end Kache
