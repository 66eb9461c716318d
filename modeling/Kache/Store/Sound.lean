import Kache.Store.Counting
import Kache.Store.Disk

/-!
# Sound stores

A store is *sound* when the index counts references exactly and every entry row
is paired with a `meta.json` that lists the hashes the entry is mapped to:

* `counted` — the `blobs` table is the aggregate of the mappings;
* `committed` — every row is a committed one (a batch import commits its rows in
  the transaction that inserts them);
* `paired` — a row has a `meta.json`, and its mapping is the multiset of hashes
  that `meta.json` lists;
* `unmapped` — a key without a row has no mapping.

Reads are not always harmless: a `get` that finds artifacts beside `meta.json`
moves them to their content addresses and counts them once more, and loses
`meta.json` itself when the entry lists a file of that name.  Soundness is
therefore stated up to a *slack*, and every writer keeps a store sound with the
slack it had; `Slack.exact` is none.

The two ways a store changes are to *register* an entry and to *unregister* one.
Both are stated here for the index alone, as the composition of SQL helpers all
writers share, together with the disk condition that keeps the pairing
(`Sound.register`, `Sound.unregister`).  A writer then only has to say which of
the two it performs.
-/

namespace Kache

variable {key : String} {disk : Disk}

namespace Index

variable {idx : Index} {pending : Multiset String}

/-- The reference bookkeeping of a publication: what the key held before is
given back, one reference per file is taken, and the mapping is replaced. -/
def registerRefs (key : String) (files : List CachedFile) (idx : Index) : Index :=
  recordEntryBlobs key files (takeBlobRefs files (releaseEntryBlobRefs key idx))

/-- The reference bookkeeping of a removal: the mapping goes, then one
reference per listed file.  The second component is the list of blobs whose
last reference went. -/
def unregisterRefs (key : String) (files : List CachedFile) (idx : Index) :
    Index × List (String × ℤ) :=
  releaseBlobRefs (files.map (·.hash)) (deleteMapping key (floorBlobRefsAtMappings key idx))

@[simp] theorem entries_registerRefs (key : String) (files : List CachedFile) (idx : Index) :
    (registerRefs key files idx).entries = idx.entries := by
  simp [registerRefs]

/-- The bookkeeping does not look at the rows: it commutes with writing them. -/
theorem registerRefs_entries (key : String) (files : List CachedFile) (idx : Index)
    (rows : Table String EntryRow) :
    registerRefs key files { idx with entries := rows }
      = { registerRefs key files idx with entries := rows } := by
  have htake : ∀ (fs : List CachedFile) (i : Index),
      takeBlobRefs fs { i with entries := rows } = { takeBlobRefs fs i with entries := rows } := by
    intro fs
    induction fs with
    | nil => exact fun _ => rfl
    | cons f rest ih => exact fun i => ih (takeBlobRef f i)
  have hmap : ∀ (fs : List CachedFile) (i : Index),
      fs.foldl (fun acc file => mapEntryBlob key file acc) { i with entries := rows }
        = { fs.foldl (fun acc file => mapEntryBlob key file acc) i with entries := rows } := by
    intro fs
    induction fs with
    | nil => exact fun _ => rfl
    | cons f rest ih => exact fun i => ih (mapEntryBlob key f i)
  have hrelease : releaseEntryBlobRefs key { idx with entries := rows }
      = { releaseEntryBlobRefs key idx with entries := rows } := rfl
  rw [registerRefs, hrelease, htake, recordEntryBlobs]
  exact hmap files (deleteMapping key (takeBlobRefs files (releaseEntryBlobRefs key idx)))

theorem maps_registerRefs (key : String) (files : List CachedFile) (idx : Index) :
    (registerRefs key files idx).Maps key (hashesOf files) :=
  maps_recordEntryBlobs key files _

theorem entryBlobs_registerRefs_of_ne {k : String} (hne : k ≠ key) (files : List CachedFile)
    (idx : Index) (h : String) :
    (registerRefs key files idx).entryBlobs.get (k, h) = idx.entryBlobs.get (k, h) := by
  rw [registerRefs, entryBlobs_recordEntryBlobs_of_ne hne, entryBlobs_takeBlobRefs,
    entryBlobs_releaseEntryBlobRefs, if_neg hne]

/-- Registration keeps the index counted. -/
theorem Counted.registerRefs (counted : idx.Counted pending) (key : String)
    (files : List CachedFile) : (registerRefs key files idx).Counted pending := by
  refine ((counted.releaseEntryBlobRefs key).takeBlobRefs files).recordEntryBlobs ?_
  intro h
  rw [entryBlobs_takeBlobRefs, entryBlobs_releaseEntryBlobRefs, if_pos rfl, Multiset.count_zero]
  rfl

@[simp] theorem entries_unregisterRefs (key : String) (files : List CachedFile) (idx : Index) :
    (unregisterRefs key files idx).1.entries = idx.entries := by
  simp [unregisterRefs, floorBlobRefsAtMappings]

theorem entryBlobs_unregisterRefs (key : String) (files : List CachedFile) (idx : Index)
    (k h : String) :
    (unregisterRefs key files idx).1.entryBlobs.get (k, h)
      = if k = key then none else idx.entryBlobs.get (k, h) := by
  rw [unregisterRefs, entryBlobs_releaseBlobRefs, entryBlobs_deleteMapping]
  rfl

/-- Unregistration keeps the index counted when the listed files are what the
key was mapped to. -/
theorem Counted.unregisterRefs (counted : idx.Counted pending) {files : List CachedFile}
    (maps : idx.Maps key (hashesOf files)) :
    (unregisterRefs key files idx).1.Counted pending := by
  rw [Index.unregisterRefs, counted.floorBlobRefsAtMappings_eq]
  exact (counted.deleteMapping maps).releaseBlobRefs

/-- A registration adds rows for listed files only. -/
theorem EachBlob.registerRefs {P : String → ℤ → Prop} (each : idx.EachBlob P) (key : String)
    {files : List CachedFile} (hfiles : ∀ f ∈ files, P f.hash (asI64 f.size)) :
    (registerRefs key files idx).EachBlob P := by
  intro h row hrow
  rw [Index.registerRefs, blobs_recordEntryBlobs] at hrow
  exact (each.releaseEntryBlobRefs key).takeBlobRefs hfiles h row hrow

/-- An unregistration adds none. -/
theorem EachBlob.unregisterRefs {P : String → ℤ → Prop} (each : idx.EachBlob P) (key : String)
    (files : List CachedFile) : (unregisterRefs key files idx).1.EachBlob P := by
  have hfloor : (floorBlobRefsAtMappings key idx).EachBlob P := each.updateCounts _ _
  have hdelete : (deleteMapping key (floorBlobRefsAtMappings key idx)).EachBlob P := hfloor
  exact hdelete.releaseBlobRefs _

end Index

namespace Store

/-- A row is *paired* when `key`'s `meta.json` lists what `key` is mapped to. -/
def Paired (s : Store) (key : String) : Prop :=
  ∃ m, s.disk.meta? key = some m ∧ s.index.Maps key (hashesOf m.files)

end Store

/-- What a store may be off by. -/
structure Slack where
  /-- References counted beyond those the mappings record. -/
  surplus : Multiset String
  /-- Keys whose row may be without a `meta.json`. -/
  lost : Set String

/-- No slack. -/
def Slack.exact : Slack := ⟨0, ∅⟩

namespace Store

/-- **Sound stores.** -/
structure Sound (slack : Slack) (s : Store) : Prop where
  counted : s.index.Counted slack.surplus
  committed : ∀ key row, s.index.entries.get key = some row → row.committed
  paired : ∀ key, (s.index.entries.get key).isSome →
    s.Paired key ∨ key ∈ slack.lost ∧ s.disk.metaText? key = none
  unmapped : ∀ key, s.index.entries.get key = none → s.index.Maps key 0

theorem sound_empty (disk : Disk) : Sound .exact ⟨.empty, disk⟩ where
  counted := Index.counted_empty
  committed := by
    intro key row hrow
    simp [Index.empty] at hrow
  paired := by
    intro key present
    simp [Index.empty] at present
  unmapped := by
    intro key _ h
    simp [Index.empty]

variable {slack : Slack} {s : Store}

/-- Without slack every row has its `meta.json`. -/
theorem Sound.paired_of_exact (sound : s.Sound .exact)
    (present : (s.index.entries.get key).isSome) : s.Paired key := by
  rcases sound.paired key present with paired | ⟨lost, -⟩
  · exact paired
  · exact absurd lost (Set.notMem_empty key)

theorem Sound.isCommitted_iff (sound : s.Sound slack) (key : String) :
    s.index.isCommitted key = true ↔ (s.index.entries.get key).isSome := by
  unfold Index.isCommitted
  cases hrow : s.index.entries.get key with
  | none => simp
  | some row => simp [sound.committed key row hrow]

/-- A row whose `meta.json` parses is mapped to what it lists. -/
theorem Sound.maps (sound : s.Sound slack) {m : EntryMeta}
    (present : (s.index.entries.get key).isSome) (parses : s.disk.meta? key = some m) :
    s.index.Maps key (hashesOf m.files) := by
  rcases sound.paired key present with ⟨m', hmeta, hmaps⟩ | ⟨-, hnone⟩
  · rw [parses] at hmeta
    cases hmeta
    exact hmaps
  · rw [Disk.meta?, hnone] at parses
    cases parses

/-- A key whose `meta.json` and mapping rows did not change is paired as before. -/
theorem Sound.paired_of_same (sound : s.Sound slack) {t : Store}
    (present : (s.index.entries.get key).isSome)
    (text : t.disk.metaText? key = s.disk.metaText? key ∨
      key ∈ slack.lost ∧ t.disk.metaText? key = none)
    (mapping : ∀ h, t.index.entryBlobs.get (key, h) = s.index.entryBlobs.get (key, h)) :
    t.Paired key ∨ key ∈ slack.lost ∧ t.disk.metaText? key = none := by
  rcases text with text | gone
  · refine (sound.paired key present).imp ?_ fun ⟨lost, hnone⟩ => ⟨lost, text.trans hnone⟩
    rintro ⟨m, hmeta, hmaps⟩
    refine ⟨m, (Disk.meta?_congr text).trans hmeta, fun h => ?_⟩
    rw [mapping h]
    exact hmaps h
  · exact .inr gone

/-- Rows keep their `meta.json`, or lose it where the slack allows for that. -/
theorem Sound.lose (sound : s.Sound slack)
    (text : ∀ key, (s.index.entries.get key).isSome →
      disk.metaText? key = s.disk.metaText? key ∨ key ∈ slack.lost ∧ disk.metaText? key = none) :
    Sound slack ⟨s.index, disk⟩ where
  counted := sound.counted
  committed := sound.committed
  paired := fun key present => sound.paired_of_same present (text key present) fun _ => rfl
  unmapped := sound.unmapped

/-- Soundness is about the index and the `meta.json` of its rows: blobs,
artifacts and directories of other keys do not matter. -/
theorem Sound.of_disk (sound : s.Sound slack)
    (text : ∀ key, (s.index.entries.get key).isSome → disk.metaText? key = s.disk.metaText? key) :
    Sound slack ⟨s.index, disk⟩ :=
  sound.lose fun key present => .inl (text key present)

/-- More slack. -/
theorem Sound.mono (sound : s.Sound slack) {lost : Set String} (more : slack.lost ⊆ lost) :
    Sound ⟨slack.surplus, lost⟩ s where
  counted := sound.counted
  committed := sound.committed
  paired := fun key present =>
    (sound.paired key present).imp_right fun gone => ⟨more gone.1, gone.2⟩
  unmapped := sound.unmapped

/-- In particular, what happens to the directory of a key without a row. -/
theorem Sound.of_unregistered (sound : s.Sound slack) (absent : s.index.entries.get key = none)
    (others : ∀ k, k ≠ key → disk.metaText? k = s.disk.metaText? k) :
    Sound slack ⟨s.index, disk⟩ := by
  refine sound.of_disk fun k present => others k ?_
  rintro rfl
  rw [absent] at present
  cases present

/-- Soundness reads one column of a row. -/
theorem Sound.of_rows (sound : s.Sound slack) {rows : Table String EntryRow}
    (same : ∀ key, (rows.get key).map (·.committed)
      = (s.index.entries.get key).map (·.committed)) :
    Sound slack ⟨{ s.index with entries := rows }, s.disk⟩ where
  counted := sound.counted.of_tables rfl rfl
  committed := by
    intro key row hrow
    have hsame := same key
    rw [hrow, Option.map_some, eq_comm, Option.map_eq_some_iff] at hsame
    obtain ⟨row', hrow', hcommitted⟩ := hsame
    rw [← hcommitted]
    exact sound.committed key row' hrow'
  paired := by
    intro key present
    refine sound.paired key ?_
    rw [← Option.isSome_map (f := (·.committed)), ← same key, Option.isSome_map]
    exact present
  unmapped := by
    intro key absent
    refine sound.unmapped key ?_
    rw [← Option.map_eq_none_iff (f := (·.committed)), ← same key, Option.map_eq_none_iff]
    exact absent

/-- In a sound store every count is positive. -/
theorem Sound.refcount_pos (sound : s.Sound slack) {h : String} {row : BlobRow}
    (hrow : s.index.blobs.get h = some row) : 0 < row.refcount := by
  have hcount := sound.counted.refcount h
  have hnonneg := sound.counted.mappedRefs_nonneg h
  rw [Index.refcount?, hrow, Option.map_some, eq_comm, countRow_eq_some] at hcount
  omega

/-- **Registering an entry.**  The row of `key` becomes `row`, its references
those of `m`, and `meta.json` lists `m` — or went with the registration. -/
theorem Sound.register (sound : s.Sound slack) (key : String) (m : EntryMeta) (row : EntryRow)
    {index : Index} (hrow : row.committed)
    (entries : ∀ k, index.entries.get k = if k = key then some row else s.index.entries.get k)
    (blobs : index.blobs = (Index.registerRefs key m.files s.index).blobs)
    (entryBlobs : index.entryBlobs = (Index.registerRefs key m.files s.index).entryBlobs)
    (parses : disk.meta? key = some m ∨ key ∈ slack.lost ∧ disk.metaText? key = none)
    (others : ∀ k, k ≠ key → (s.index.entries.get k).isSome →
      disk.metaText? k = s.disk.metaText? k ∨ k ∈ slack.lost ∧ disk.metaText? k = none) :
    Sound slack ⟨index, disk⟩ where
  counted := (sound.counted.registerRefs key m.files).of_tables blobs entryBlobs
  committed := by
    intro k row' hget
    rw [entries] at hget
    split at hget
    · cases hget
      exact hrow
    · exact sound.committed k row' hget
  paired := by
    intro k present
    by_cases hk : k = key
    · subst hk
      refine parses.imp_left fun parses => ⟨m, parses, fun h => ?_⟩
      rw [entryBlobs]
      exact Index.maps_registerRefs k m.files s.index h
    · rw [entries, if_neg hk] at present
      refine sound.paired_of_same present (others k hk present) fun h => ?_
      rw [entryBlobs, Index.entryBlobs_registerRefs_of_ne hk]
  unmapped := by
    intro k absent h
    rw [entries] at absent
    split at absent
    · simp at absent
    · next hk =>
      rw [entryBlobs, Index.entryBlobs_registerRefs_of_ne hk]
      exact sound.unmapped k absent h

/-- **Unregistering an entry** whose `meta.json` parses to `m`. -/
theorem Sound.unregister (sound : s.Sound slack) {m : EntryMeta}
    (present : (s.index.entries.get key).isSome) (parses : s.disk.meta? key = some m)
    (others : ∀ k, k ≠ key → (s.index.entries.get k).isSome →
      disk.metaText? k = s.disk.metaText? k) :
    Sound slack ⟨(Index.unregisterRefs key m.files (Index.deleteEntry key s.index)).1, disk⟩ := by
  have hmaps := sound.maps present parses
  have hcounted : (Index.deleteEntry key s.index).Counted slack.surplus :=
    sound.counted.of_tables rfl rfl
  have hentries : ∀ k, (Index.deleteEntry key s.index).entries.get k
      = if k = key then none else s.index.entries.get k := by
    intro k
    by_cases hk : k = key <;> cases hget : s.index.entries.get k <;>
      simp [Index.deleteEntry, hk, hget]
  -- counts, then the three statements about rows, each for the keys that stay
  refine ⟨hcounted.unregisterRefs hmaps, ?_, ?_, ?_⟩
  · intro k row hget
    rw [Index.entries_unregisterRefs, hentries] at hget
    split at hget
    · simp at hget
    · exact sound.committed k row hget
  · intro k hsome
    rw [Index.entries_unregisterRefs, hentries] at hsome
    split at hsome
    · simp at hsome
    · next hk =>
      refine sound.paired_of_same hsome (.inl (others k hk hsome)) fun h => ?_
      rw [Index.entryBlobs_unregisterRefs, if_neg hk]
      rfl
  · intro k habsent h
    rw [Index.entries_unregisterRefs, hentries] at habsent
    rw [Index.entryBlobs_unregisterRefs]
    split
    · rw [Multiset.count_zero]
      rfl
    · next hk =>
      rw [if_neg hk] at habsent
      exact sound.unmapped k habsent h

end Store

end Kache
