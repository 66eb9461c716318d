import Kache.Store.Conservation
import Kache.Store.Get

/-!
# Serving unflushed entries

A publication is not on disk until a flush has synced it, and a crash before
that can leave a blob whose length is right and whose bytes are not.  The
`durable` column tells the two apart: `get` hashes every blob of a pending entry
and trusts the length alone once the entry is durable.

`GhostStore` adds to a store what no column records, the set of blob files that
a successful flush has verified and synced; a crash may replace the bytes of any
other file by bytes of the same length.  Under strict durability a publication
is followed by a flush of its own; flushes are steps of their own here, so those
runs are among the ones below.

The column and the history agree (`Served`) as long as rows are only marked
durable by a flush and a durable row keeps its `meta.json`.  Two writers do
otherwise.  A rebuild inserts its rows with the column's default, `durable = 1`,
whatever had been flushed (`rebuilt_entry_served_unchecked`); and an archive can
be extracted over a durable key by an import that then leaves the row alone.
`ServeStep.KeepsFlushed` excludes these, and with it a hit returns only blobs
that this lookup hashed or an earlier flush verified (`served_blobs_verified`).
-/

namespace Kache

/-- A store together with the blob files that a flush has verified and synced. -/
structure GhostStore where
  store : Store
  synced : String → Bool

namespace GhostStore

/-- An empty store. -/
def empty : GhostStore := ⟨Store.empty, fun _ => false⟩

/-- The store becomes `after`; a file that is gone is no longer a synced one. -/
def become (g : GhostStore) (after : Store) : GhostStore :=
  ⟨after, fun h => g.synced h && (after.disk.blobs h).isSome⟩

/-- A flush has verified and synced the files of `m`. -/
def flushed (g : GhostStore) (m : EntryMeta) : GhostStore :=
  { g with synced := fun h => g.synced h || m.files.any (·.hash == h) }

end GhostStore

/-- A crash: files that are not `synced` may read as other bytes of the same
length. -/
def Disk.damage (synced : String → Bool) (damage : String → Option Bytes) (disk : Disk) : Disk :=
  { disk with
    blobs := fun h =>
      (disk.blobs h).map fun bytes =>
        if synced h then bytes
        else ((damage h).filter (·.length == bytes.length)).getD bytes }

/-- The operations, and crashes between them. -/
inductive ServeStep where
  /-- A put or an import. -/
  | publish (op : Operation)
  | flush (key : String)
  /-- The index is lost, and rebuilt from the directories in `listing`. -/
  | rebuild (listing : List String)
  | get (verify : Bool) (key : String)
  | crash (damage : String → Option Bytes)

/-- Puts and imports. -/
def Operation.isPublication : Operation → Bool
  | put _ _ | importDownloaded _ _ _ | importVerified _ _ => true
  | rebuildOne _ | remove _ => false

namespace ServeStep

/-- Take one step; all are total. -/
def run (env : Env) (g : GhostStore) : ServeStep → GhostStore
  | publish op => g.become (op.run env false g.store)
  | flush key =>
    match flushEntryDurability env key g.store with
    | (s, none) => g.become s
    | (s, some m) => (g.become s).flushed m
  | rebuild listing => g.become (rebuildIndexFromStore env listing ⟨.empty, g.store.disk⟩).1
  | get verify key => g.become (Kache.get env verify key g.store).1
  | crash damage => { g with store := ⟨g.store.index, g.store.disk.damage g.synced damage⟩ }

@[inherit_doc run]
def step (env : Env) (g : GhostStore) (a : ServeStep) : Option GhostStore := some (a.run env g)

/-- The operations a publication step may be. -/
def InScope : ServeStep → Prop
  | publish op => op.isPublication = true
  | _ => True

instance : (a : ServeStep) → Decidable a.InScope
  | publish _ => inferInstanceAs (Decidable (_ = _))
  | flush _ | rebuild _ | get _ _ | crash _ => inferInstanceAs (Decidable True)

/-- A rebuild registers only entries all of whose blobs are synced, and no archive
is extracted over a committed key unless its import registers it. -/
def KeepsFlushed (env : Env) (g : GhostStore) : ServeStep → Prop
  | publish op => op.Admissible env g.store
  | rebuild listing =>
    ∀ name ∈ listing, isValidCacheKey name = true →
      ∀ m ∈ checkRebuild g.store.disk name, ∀ f ∈ m.files, g.synced f.hash = true
  | _ => True

instance (env : Env) (g : GhostStore) : (a : ServeStep) → Decidable (a.KeepsFlushed env g)
  | publish op => inferInstanceAs (Decidable (op.Admissible env g.store))
  | rebuild listing => inferInstanceAs (Decidable (∀ name ∈ listing, _ → _))
  | flush _ | get _ _ | crash _ => inferInstanceAs (Decidable True)

end ServeStep

/-! ## What publications leave alone -/

/-- Blobs stay, and a durable row was there before, with the `meta.json` it has. -/
structure Store.Extends (before after : Store) : Prop where
  blobs : ∀ h bytes, before.disk.blobs h = some bytes → after.disk.blobs h = some bytes
  durable : ∀ key row, after.index.entries.get key = some row → row.durable = true →
    before.index.entries.get key = some row ∧
      ∀ m, after.disk.meta? key = some m → before.disk.meta? key = some m

variable {disk : Disk} {key : String} {now : ℕ} {t : Store}

section Extends

variable {env : Env} {s : Store}

theorem Store.Extends.of_grows (grows : s.disk.Grows ∅ disk) :
    s.Extends ⟨s.index, disk⟩ where
  blobs := grows.blobs
  durable := by
    intro key row hrow _
    exact ⟨hrow, fun m hmeta => (Disk.meta?_congr (grows.metaText? key)).symm.trans hmeta⟩

/-- A row written as pending hides what its key had before. -/
theorem Store.Extends.of_pending {row : EntryRow} {files : List CachedFile}
    (pending : row.durable = false)
    (blobs : ∀ h bytes, s.disk.blobs h = some bytes → disk.blobs h = some bytes)
    (others : ∀ k, k ≠ key → disk.metaText? k = s.disk.metaText? k) :
    s.Extends
      ⟨Index.insertOrReplaceEntry key row (Index.registerRefs key files s.index), disk⟩ where
  blobs := blobs
  durable := by
    intro k row' hrow durable
    simp only [Index.insertOrReplaceEntry, Table.get_set, Index.entries_registerRefs] at hrow
    split at hrow
    · cases hrow
      rw [pending] at durable
      cases durable
    · next hk => exact ⟨hrow, fun m hmeta => (Disk.meta?_congr (others k hk)).symm.trans hmeta⟩

theorem putEntry_extends (env : Env) (req : PutRequest) (live : ℕ → Option Bytes) (s : Store) :
    s.Extends (putEntry env req live s).1 := by
  have hphase := publishOutputs_grows env req.crateTypes req.outputs s.disk
  unfold putEntry
  split
  · next hpub =>
    rw [hpub] at hphase
    exact .of_grows hphase
  · next disk files hpub =>
    rw [hpub] at hphase
    show s.Extends (Store.commit (putScript env req.cacheKey (putMeta env req files) live)
      ⟨s.index, disk⟩)
    rcases commit_putScript env req.cacheKey (putMeta env req files) live ⟨s.index, disk⟩ with
      ⟨grown, hgrows, hcommit⟩ | ⟨grown, hgrows, -, hcommit⟩
    · rw [hcommit]
      exact .of_grows (hphase.trans hgrows)
    · rw [hcommit]
      have hall := hphase.trans hgrows
      refine .of_pending rfl hall.blobs fun k hk => ?_
      rw [metaText?_after_put, if_neg hk, hall.metaText?]

theorem importDelivered_extends {delivered : EntryDir}
    (accepted : (s.index.entries.get key).isSome →
      (checkDownloaded env (s.disk.setDir key delivered) key).toBool = true) :
    s.Extends (importDownloadedEntry env now key ⟨s.index, s.disk.setDir key delivered⟩).1 := by
  have hothers : ∀ k, k ≠ key →
      (s.disk.setDir key delivered).metaText? k = s.disk.metaText? k := by
    intro k hk
    rw [Disk.metaText?_setDir, if_neg hk]
  unfold importDownloadedEntry
  split
  · -- refused, so the key had no row the delivery could have harmed
    next e refused =>
    refine ⟨fun _ _ present => present, fun k row hrow _ => ⟨hrow, fun m hmeta => ?_⟩⟩
    have hne : k ≠ key := by
      rintro rfl
      have hok := accepted (Option.isSome_iff_exists.mpr ⟨row, hrow⟩)
      rw [refused] at hok
      cases hok
    exact (Disk.meta?_congr (hothers k hne)).symm.trans hmeta
  · next m passed =>
    obtain ⟨idx, disk, hdone⟩ := importScript_commits now (checkDownloaded_ok passed).2 s.index
    -- at most the new `meta.json` goes
    have taken : namesMeta m.files = true → key ∈ ({key} : Set String) := fun _ => rfl
    obtain ⟨hidx, hgrows, -⟩ := importScript_ok taken hdone
    have hall := hgrows.trans (removeArtifacts_grows taken disk)
    simp only [hdone]
    subst hidx
    exact .of_pending rfl hall.blobs fun k hk =>
      (hall.metaText?_of_notMem hk).trans (hothers k hk)

/-- A batch entry leaves durable rows as they were, and adds none. -/
theorem restoreEntry_durable {e : VerifiedRestoredEntry} {idx idx' : Index} {disk' : Disk}
    (done : restoreEntry env now e idx disk = .ok idx' disk') {row : EntryRow}
    (found : idx'.entries.get key = some row) (durable : row.durable = true) :
    idx.entries.get key = some row := by
  have hundone : ∀ k row, (Index.undoUncommitted e.cacheKey idx).entries.get k = some row →
      idx.entries.get k = some row := by
    intro k row hrow
    simp only [Index.undoUncommitted, Table.get_deleteWhere] at hrow
    have hget := (Option.filter_eq_some_iff.mp hrow).1
    split at hget <;> exact hget
  obtain ⟨-, rfl⟩ := restoreEntry_ok done
  split at found
  · exact hundone key row found
  · simp only [Index.insertOrReplaceEntry, Table.get_set, Index.entries_registerRefs] at found
    split at found
    · -- the row this entry inserted is a pending one
      cases found
      cases durable
    · exact hundone key row found

theorem texts_deliver {batch : List (VerifiedRestoredEntry × EntryDir)} {k : String}
    (notMem : ∀ e ∈ batch, e.1.cacheKey ≠ k) (disk : Disk) :
    (deliver batch disk).metaText? k = disk.metaText? k := by
  induction batch generalizing disk with
  | nil => rfl
  | cons e rest ih =>
    obtain ⟨hhead, hrest⟩ := List.forall_mem_cons.mp notMem
    rw [deliver, List.foldl_cons, ← deliver, ih hrest, Disk.metaText?_setDir, if_neg hhead.symm]

theorem blobs_deliver (batch : List (VerifiedRestoredEntry × EntryDir)) (disk : Disk) :
    (deliver batch disk).blobs = disk.blobs := by
  induction batch generalizing disk with
  | nil => rfl
  | cons e rest ih => rw [deliver, List.foldl_cons, ← deliver, ih, Disk.blobs_setDir]

theorem importVerified_extends {batch : List (VerifiedRestoredEntry × EntryDir)}
    (absent : ∀ e ∈ batch, s.index.entries.get e.1.cacheKey = none) :
    s.Extends (importVerifiedRestoredEntries env now (batch.map Prod.fst)
      ⟨s.index, deliver batch s.disk⟩).1 := by
  -- what has a row was not extracted over, and none of its files taken
  have htexts : ∀ {disk : Disk},
      (deliver batch s.disk).Grows (metaTaken (batch.map Prod.fst)) disk →
      ∀ k row, s.index.entries.get k = some row → disk.metaText? k = s.disk.metaText? k := by
    intro disk grows k row hrow
    have notMem : ∀ e ∈ batch, e.1.cacheKey ≠ k := by
      rintro e mem rfl
      rw [absent e mem] at hrow
      cases hrow
    rw [grows.metaText?_of_notMem, texts_deliver notMem]
    rintro ⟨e, mem, same, -⟩
    obtain ⟨d, listed, rfl⟩ := List.mem_map.mp mem
    exact notMem d listed same
  have hblobs : ∀ {disk : Disk},
      (deliver batch s.disk).Grows (metaTaken (batch.map Prod.fst)) disk → ∀ h bytes,
      s.disk.blobs h = some bytes → disk.blobs h = some bytes := by
    intro disk grows h bytes present
    rw [← blobs_deliver batch] at present
    exact grows.blobs h bytes present
  have hsame : ∀ {disk : Disk}, (deliver batch s.disk).Grows (metaTaken (batch.map Prod.fst)) disk →
      s.Extends ⟨s.index, disk⟩ :=
    fun grows => ⟨hblobs grows, fun k row hrow _ =>
      ⟨hrow, fun m hmeta => (Disk.meta?_congr (htexts grows k row hrow)).symm.trans hmeta⟩⟩
  unfold importVerifiedRestoredEntries
  have hgrows := restoreEntries_grows env now (batch.map Prod.fst) s.index (deliver batch s.disk)
  split
  · exact hsame (.refl _)
  · split
    · next failed =>
      rw [failed] at hgrows
      exact hsame hgrows
    · next idx disk done =>
      rw [done] at hgrows
      have hall := hgrows.trans (removeRestoredArtifacts_grows (batch.map Prod.fst) disk)
      refine ⟨hblobs hall, fun k row hrow durable => ?_⟩
      have hbefore : s.index.entries.get k = some row := by
        refine Stmt.exec_ok_of_forall (P := fun idx : Index => ∀ row : EntryRow,
          idx.entries.get k = some row → row.durable = true → s.index.entries.get k = some row)
          ?_ done (fun _ found _ => found) row hrow durable
        intro stmt mem db files db' files' ok before row found durable
        obtain ⟨e, -, rfl⟩ := List.mem_map.mp mem
        exact before row (restoreEntry_durable ok found durable) durable
      refine ⟨hbefore, fun m hmeta => ?_⟩
      exact (Disk.meta?_congr (htexts hall k row hbefore)).symm.trans hmeta

/-- **Every publication extends the store.** -/
theorem Operation.run_extends {slack : Slack} {op : Operation} (sound : s.Sound slack)
    (scope : op.isPublication = true) (admissible : op.Admissible env s) :
    s.Extends (op.run env false s) := by
  have hfinish : ∀ (keys : List String) (published : Store × Bool),
      finishPublication env false keys published = published.1 := by
    intro keys published
    unfold finishPublication
    split
    · induction keys with
      | nil => rfl
      | cons key rest ih => exact ih
    · rfl
  cases op with
  | put req live =>
    rw [Operation.run, hfinish]
    exact putEntry_extends env req live s
  | importDownloaded key delivered now =>
    rw [Operation.run, hfinish]
    exact importDelivered_extends fun row => admissible ((sound.isCommitted_iff key).mpr row)
  | importVerified batch now =>
    rw [Operation.run, hfinish]
    refine importVerified_extends fun e mem => ?_
    have hnone := admissible e mem
    rwa [← Bool.not_eq_true, sound.isCommitted_iff, Option.not_isSome_iff_eq_none] at hnone
  | rebuildOne key => cases scope
  | remove key => cases scope

end Extends

/-! ## The column and the history -/

/-- **What the `durable` column is worth.** -/
structure Served (env : Env) (g : GhostStore) : Prop where
  sound : ∃ slack, g.store.Sound slack
  /-- A synced file is there, with the digest it is named by. -/
  synced : ∀ h, g.synced h = true →
    ∃ bytes, g.store.disk.blobs h = some bytes ∧ env.blake3 bytes = h
  /-- Every blob of a durable row is synced. -/
  durable : ∀ key row m, g.store.index.entries.get key = some row → row.durable = true →
    g.store.disk.meta? key = some m → ∀ f ∈ m.files, g.synced f.hash = true

section Served

variable {env : Env} {g : GhostStore}

/-- The store may become one whose durable rows list synced files that are still
there, if no synced file changed. -/
theorem Served.become (served : Served env g) (sound : ∃ slack, t.Sound slack)
    (blobs : ∀ h bytes, g.synced h = true → t.disk.blobs h = some bytes →
      g.store.disk.blobs h = some bytes)
    (durable : ∀ key row m, t.index.entries.get key = some row → row.durable = true →
      t.disk.meta? key = some m → ∀ f ∈ m.files, g.synced f.hash = true ∧
        (t.disk.blobs f.hash).isSome) :
    Served env (g.become t) where
  sound := sound
  synced := by
    intro h hsynced
    simp only [GhostStore.become, Bool.and_eq_true] at hsynced
    obtain ⟨bytes, hbytes⟩ := Option.isSome_iff_exists.mp hsynced.2
    obtain ⟨bytes', hbytes', hdigest⟩ := served.synced h hsynced.1
    rw [blobs h bytes hsynced.1 hbytes] at hbytes'
    cases hbytes'
    exact ⟨bytes, hbytes, hdigest⟩
  durable := by
    intro key row m hrow hdurable hmeta f mem
    simpa only [GhostStore.become, Bool.and_eq_true] using
      durable key row m hrow hdurable hmeta f mem

/-- Extending a store keeps the column right. -/
theorem Served.extend (served : Served env g) (sound : ∃ slack, t.Sound slack)
    (extends_ : g.store.Extends t) : Served env (g.become t) := by
  have hkept : ∀ h, g.synced h = true → t.disk.blobs h = g.store.disk.blobs h := by
    intro h hsynced
    obtain ⟨bytes, hbytes, -⟩ := served.synced h hsynced
    rw [hbytes, extends_.blobs h bytes hbytes]
  refine served.become sound (fun h bytes hsynced present => hkept h hsynced ▸ present) ?_
  intro key row m hrow hdurable hmeta f mem
  obtain ⟨hbefore, hread⟩ := extends_.durable key row hrow hdurable
  have hsynced := served.durable key row m hbefore hdurable (hread m hmeta) f mem
  obtain ⟨bytes, hbytes, -⟩ := served.synced f.hash hsynced
  exact ⟨hsynced, by rw [hkept f.hash hsynced, hbytes]; rfl⟩

/-- A migration extends a store. -/
theorem Migrated.extends {s : Store} (migrated : Migrated key s t) :
    s.Extends t where
  blobs := migrated.blobs
  durable := by
    intro k row hrow _
    rw [migrated.entries] at hrow
    exact ⟨hrow, fun m hmeta => migrated.meta? hmeta⟩

/-- **An eviction** unlinks no blob of another entry. -/
theorem Served.removeEntry (served : Served env g) (key : String) :
    Served env (g.become (removeEntry key g.store)) := by
  obtain ⟨slack, sound⟩ := served.sound
  obtain ⟨hrows, hfewer, hkept⟩ := removeEntry_keeps key g.store
  have hafter := sound.removeEntry key
  refine served.become ⟨slack, hafter⟩ (fun h bytes _ present => hfewer h bytes present) ?_
  intro k row m hrow hdurable hmeta f mem
  obtain ⟨hbefore, htext⟩ := hrows k row hrow
  rw [Disk.meta?_congr htext] at hmeta
  have hsynced := served.durable k row m hbefore hdurable hmeta f mem
  -- the entry maps the hash, so the hash still has a row
  have hmaps := hafter.maps (Option.isSome_iff_exists.mpr ⟨row, hrow⟩)
    ((Disk.meta?_congr htext).trans hmeta)
  have hmapped := (hmaps.isSome_iff f.hash).mpr (mem_hashesOf.mpr ⟨f, mem, rfl⟩)
  obtain ⟨bytes, hbytes, -⟩ := served.synced f.hash hsynced
  exact ⟨hsynced, by rw [hkept f.hash (hafter.counted.isSome_of_mapped hmapped), hbytes]; rfl⟩

/-- **A lookup** migrates and perhaps evicts. -/
theorem Served.get (served : Served env g) (verify : Bool) (key : String) :
    Served env (g.become (get env verify key g.store).1) := by
  obtain ⟨k, t, migrated, hget⟩ := get_cases env verify key g.store
  obtain ⟨slack, sound⟩ := served.sound
  have hmigrated : Served env (g.become t) :=
    served.extend (migrated.sound slack sound) migrated.extends
  rcases hget with hget | hget
  · rwa [hget]
  · have hevicted := hmigrated.removeEntry key
    -- what an eviction leaves was there before it
    have hsame : (g.become t).become (Kache.removeEntry key t)
        = g.become (Kache.removeEntry key t) := by
      have hfewer := (removeEntry_keeps key t).2.1
      simp only [GhostStore.become, GhostStore.mk.injEq, true_and]
      funext h
      cases hafter : (Kache.removeEntry key t).disk.blobs h with
      | none => simp
      | some bytes => simp [hfewer h bytes hafter]
    rw [hget, ← hsame]
    exact hevicted

/-- **A flush** syncs what it verified before it sets the column. -/
theorem Served.flush (served : Served env g) (key : String) :
    Served env (ServeStep.run env g (.flush key)) := by
  have hsame : Served env (g.become g.store) :=
    served.extend served.sound ⟨fun _ _ present => present, fun _ _ hrow _ => ⟨hrow, fun _ h => h⟩⟩
  simp only [ServeStep.run]
  split
  · next s hflush =>
    rw [flushEntryDurability_eq_none hflush]
    exact hsame
  · next s m hflush =>
    obtain ⟨hmeta, hverified, rfl⟩ := flushEntryDurability_eq_some hflush
    have hsound : ∃ slack, Store.Sound slack ⟨g.store.index.setDurable key, g.store.disk⟩ := by
      obtain ⟨slack, sound⟩ := served.sound
      have hflushed := sound.flushEntryDurability env key
      rw [hflush] at hflushed
      exact ⟨slack, hflushed⟩
    refine ⟨hsound, fun h hsynced => ?_, fun k row m' hrow hdurable hmeta' f mem => ?_⟩
    · simp only [GhostStore.flushed, Bool.or_eq_true, List.any_eq_true, beq_iff_eq] at hsynced
      rcases hsynced with hsynced | ⟨f, mem, rfl⟩
      · exact hsame.synced h hsynced
      · have hok := hverified f mem
        simp only [blobVerifies, Option.any_eq_true, verifyDurabilityFile, Bool.and_eq_true,
          beq_iff_eq] at hok
        obtain ⟨bytes, hbytes, -, hdigest⟩ := hok
        exact ⟨bytes, hbytes, hdigest⟩
    · simp only [GhostStore.flushed, Bool.or_eq_true, List.any_eq_true, beq_iff_eq]
      by_cases hk : k = key
      · -- the flushed entry lists what was just verified
        rw [hk] at hmeta'
        cases hmeta.symm.trans hmeta'
        exact .inr ⟨f, mem, rfl⟩
      · left
        simp only [GhostStore.flushed, GhostStore.become, Index.setDurable, Table.get_updateWhere,
          hk, decide_false, Bool.false_eq_true, if_false] at hrow
        exact hsame.durable k row m' hrow hdurable hmeta' f mem

/-- **A rebuild** of entries whose blobs are synced. -/
theorem Served.rebuild (served : Served env g) {listing : List String}
    (flushed : ServeStep.KeepsFlushed env g (.rebuild listing)) :
    Served env (g.become (rebuildIndexFromStore env listing ⟨.empty, g.store.disk⟩).1) := by
  have hdisk : (rebuildIndexFromStore env listing ⟨.empty, g.store.disk⟩).1.disk
      = g.store.disk := by
    rw [fst_rebuildIndexFromStore]
    exact disk_rebuildVisits env listing _
  refine served.become ⟨.exact, (Store.sound_empty g.store.disk).rebuildIndexFromStore env listing⟩
    (fun h bytes _ present => by rwa [hdisk] at present) ?_
  intro key row m hrow _ hmeta f mem
  rw [hdisk] at hmeta ⊢
  rcases rebuilt_row hrow with hnone | ⟨hlisted, hvalid, hcheck⟩
  · simp [Index.empty] at hnone
  · obtain ⟨m', hcheck⟩ := Option.isSome_iff_exists.mp hcheck
    have hread := (checkRebuild_eq_some.mp hcheck).1
    cases hmeta.symm.trans hread
    have hsynced := flushed key hlisted hvalid m hcheck f mem
    obtain ⟨bytes, hbytes, -⟩ := served.synced f.hash hsynced
    exact ⟨hsynced, by rw [hbytes]; rfl⟩

/-- **A crash** changes no synced file. -/
theorem Served.crash (served : Served env g) (damage : String → Option Bytes) :
    Served env (ServeStep.run env g (.crash damage)) where
  sound := by
    obtain ⟨slack, sound⟩ := served.sound
    exact ⟨slack, sound.of_disk fun _ _ => rfl⟩
  synced := by
    intro h hsynced
    obtain ⟨bytes, hbytes, hdigest⟩ := served.synced h hsynced
    have hkept : g.synced h = true := hsynced
    exact ⟨bytes, by simp [ServeStep.run, Disk.damage, hbytes, hkept], hdigest⟩
  durable := served.durable

/-- **One step keeps the column right.** -/
theorem Served.step {a : ServeStep} (served : Served env g) (scope : a.InScope)
    (flushed : a.KeepsFlushed env g) : Served env (a.run env g) := by
  cases a with
  | publish op =>
    obtain ⟨slack, sound⟩ := served.sound
    -- an import may take a `meta.json` away; lookups of that key miss then
    have hslack := sound.mono (Set.subset_union_left (t := metaTaken op.imports))
    exact served.extend ⟨_, Operation.run_sound hslack flushed Set.subset_union_right⟩
      (Operation.run_extends sound scope flushed)
  | flush key => exact served.flush key
  | rebuild listing => exact served.rebuild flushed
  | get verify key => exact served.get verify key
  | crash damage => exact served.crash damage

theorem served_empty (env : Env) : Served env .empty where
  sound := ⟨.exact, Store.sound_empty .empty⟩
  synced := by
    intro h hsynced
    cases hsynced
  durable := by
    intro key row m hrow
    simp [GhostStore.empty, Store.empty, Index.empty] at hrow

end Served

/-! ## All runs -/

/-- **What a hit returns is what its hashes say.**  In every run of puts, imports,
flushes, rebuilds after a loss of the index, lookups and crashes in which
rebuilds register flushed entries only and no archive replaces the `meta.json`
of a committed row that stays: each blob of a returned entry was hashed by this
lookup or synced by an earlier flush, and has the listed digest. -/
theorem served_blobs_verified {env : Env} {g : GhostStore}
    (run : Reaches (fun g a => a.InScope ∧ a.KeepsFlushed env g) (ServeStep.step env) .empty g)
    {verify : Bool} {key : String} {after : Store} {m : EntryMeta}
    (hit : get env verify key g.store = (after, some m)) :
    ∀ f ∈ m.files,
      (entryIsDurable key g.store.index = false ∨ verify = true ∨ g.synced f.hash = true) ∧
        ∃ bytes, after.disk.blobs f.hash = some bytes ∧ env.blake3 bytes = f.hash := by
  have hserved : Served env g := by
    refine run.invariant (I := Served env) (served_empty env) ?_
    rintro g a g' served ⟨scope, flushed⟩ taken
    cases taken
    exact served.step scope flushed
  obtain ⟨committed, hmeta, migrated, hchecked⟩ := get_hit hit
  intro f mem
  have hok := hchecked f mem
  simp only [servable, Option.any_eq_true, Bool.and_eq_true, Bool.or_eq_true, Bool.not_eq_true',
    Bool.or_eq_false_iff, Bool.not_eq_false', beq_iff_eq] at hok
  obtain ⟨bytes, hbytes, -, hdigest⟩ := hok
  by_cases trusted : entryIsDurable key g.store.index = true ∧ verify = false
  · -- the column vouches for the blob
    obtain ⟨row, hrow⟩ := Option.isSome_iff_exists.mp (Index.isSome_of_isCommitted committed)
    have hdurable : row.durable = true := by
      simpa [entryIsDurable, hrow] using trusted.1
    have hsynced := hserved.durable key row m hrow hdurable hmeta f mem
    obtain ⟨bytes', hbytes', hdigest⟩ := hserved.synced f.hash hsynced
    exact ⟨.inr (.inr hsynced), bytes', migrated.blobs f.hash bytes' hbytes', hdigest⟩
  · refine ⟨?_, bytes, hbytes, hdigest.resolve_left trusted⟩
    cases verify with
    | true => exact .inr (.inl rfl)
    | false =>
      left
      simpa using trusted

/-- A put that is not flushed, a loss of the index, a crash. -/
def unflushedTrace : List ServeStep :=
  [.publish (.put (sampleRequest sampleKey₁ [sampleOutput "a" [97]]) fun _ => none),
    .rebuild [sampleKey₁], .crash fun _ => some [98]]

/-- **A rebuilt entry is served unchecked.**  No flush has run; the lookup returns
the entry without hashing its blob, and the blob has another digest. -/
theorem rebuilt_entry_served_unchecked :
    ∃ (g : GhostStore) (after : Store) (m : EntryMeta) (f : CachedFile),
      Reaches (fun _ a => a.InScope) (ServeStep.step sampleEnv) .empty g ∧
      get sampleEnv false sampleKey₁ g.store = (after, some m) ∧ f ∈ m.files ∧
      entryIsDurable sampleKey₁ g.store.index = true ∧ g.synced f.hash = false ∧
      ¬ ∃ bytes, after.disk.blobs f.hash = some bytes ∧ sampleEnv.blake3 bytes = f.hash := by
  obtain ⟨g, run, htest⟩ := exists_reaches_of_replay (fun _ a => ServeStep.InScope a)
    (ServeStep.step sampleEnv) GhostStore.empty unflushedTrace
    (fun g => entryIsDurable sampleKey₁ g.store.index = true ∧ g.synced digestA = false ∧
      (get sampleEnv false sampleKey₁ g.store).2.map (·.files) = some [⟨"a", 1, digestA, false⟩] ∧
      (get sampleEnv false sampleKey₁ g.store).1.disk.blobs digestA = some [98])
    (by decide +kernel)
  simp only [decide_eq_true_eq] at htest
  obtain ⟨hdurable, hunsynced, hfiles, hblob⟩ := htest
  obtain ⟨m, hm, hlist⟩ := Option.map_eq_some_iff.mp hfiles
  refine ⟨g, _, m, ⟨"a", 1, digestA, false⟩, run, Prod.ext rfl hm, by rw [hlist]; simp, hdurable,
    hunsynced, ?_⟩
  rintro ⟨bytes, hbytes, hdigest⟩
  rw [hblob] at hbytes
  cases hbytes
  exact absurd hdigest (by decide +kernel)

/-- Nor can an archive go over a durable key: the batch import keeps the row, and
the files of the new `meta.json` were never flushed. -/
example :
    let listed := putMeta sampleEnv (sampleRequest sampleKey₁ []) [⟨"b", 1, digestB, false⟩]
    let archive : EntryDir :=
      ⟨some (.written sampleEnv listed), fun name => if name = "b" then some [98] else none⟩
    let g := [ServeStep.publish
        (.put (sampleRequest sampleKey₁ [sampleOutput "a" [97]]) fun _ => none),
      .flush sampleKey₁, .publish (.importVerified [(⟨sampleKey₁, listed⟩, archive)] 0),
      .crash fun _ => some [97]].foldl (fun g a => a.run sampleEnv g) GhostStore.empty
    (get sampleEnv false sampleKey₁ g.store).2 = some listed ∧
      (get sampleEnv false sampleKey₁ g.store).1.disk.blobs digestB = some [97] := by
  decide +kernel

/-- With a flush before the loss the same crash changes nothing. -/
theorem served_blobs_verified_after_flush :
    ∃ (g : GhostStore) (m : EntryMeta), (get sampleEnv false sampleKey₁ g.store).2 = some m ∧
      ∀ f ∈ m.files,
        (entryIsDurable sampleKey₁ g.store.index = false ∨ false = true ∨ g.synced f.hash = true) ∧
          ∃ bytes, (get sampleEnv false sampleKey₁ g.store).1.disk.blobs f.hash = some bytes ∧
            sampleEnv.blake3 bytes = f.hash := by
  obtain ⟨g, run, htest⟩ := exists_reaches_of_replay
    (fun g a => ServeStep.InScope a ∧ ServeStep.KeepsFlushed sampleEnv g a)
    (ServeStep.step sampleEnv) GhostStore.empty
    [.publish (.put (sampleRequest sampleKey₁ [sampleOutput "a" [97]]) fun _ => none),
      .flush sampleKey₁, .rebuild [sampleKey₁], .crash fun _ => some [98]]
    (fun g => (get sampleEnv false sampleKey₁ g.store).2.isSome)
    (by decide +kernel)
  obtain ⟨m, hm⟩ := Option.isSome_iff_exists.mp htest
  exact ⟨g, m, hm, served_blobs_verified run (Prod.ext rfl hm)⟩

end Kache
