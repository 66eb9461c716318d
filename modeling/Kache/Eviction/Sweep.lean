import Kache.Eviction.Reclaim
import Kache.Foundation.Loop

/-!
# The size sweep

`evict_for` compares the physical size with the limit, ranks every entry once, measures how many
bytes live files outside of the store hold, and then walks the ranking: an entry is passed over if
it is protected or held, and otherwise removed, until the running size is down to the target.

The walk `applyEviction` is a loop over the ranking that breaks.  A walk over a part of the ranking
is the state of the sweep at that point, so a statement about the moment of a removal is one about
`applyEviction` at the keys before it.
-/

namespace Kache.Eviction

open Index

/-! ## Sizes -/

/-- An `i64` read as a `u64` (`as u64`). -/
def asU64 (n : ℤ) : ℕ := (n % 2 ^ 64).toNat

/-- `physical_size`. -/
def physicalSize (idx : Index) : Except SweepError ℕ :=
  if sumsUp idx.physicalSum then .ok (asU64 idx.physicalSum)
  else .error .integerOverflow

/-! ## What a sweep keeps -/

/-- `durable_upload_keys_from_names`.  A name is an error of the directory, or `none` if it is not
UTF-8. -/
def durableUploadKeysFromNames (maxJobs : ℕ) :
    List (Except Unit (Option String)) → ℕ → Except SweepError (List String)
  | [], _ => .ok []
  | name :: rest, index =>
    if maxJobs ≤ index then .error .spoolExceeds
    else
      match name with
      | .error _ => .error .spoolUnreadable
      | .ok fileName => do
          let keys ← durableUploadKeysFromNames maxJobs rest (index + 1)
          match fileName.bind fun name => name.dropSuffix? ".json" with
          | none => .ok keys
          | some key =>
            if isValidCacheKey key.toString then .ok (key.toString :: keys) else .ok keys

/-- The pairs of an entry and a blob such that the entry holds the last reference of the blob and a
live file outside of the store holds it as well. -/
def heldRefs (idx : Index) (retained : String → Bool) : Finset (String × String) :=
  idx.entryBlobs.keys.filter fun p =>
    (idx.entries.get p.1).isSome ∧ retained p.2 = true ∧
      ((idx.entryBlobs.get p).any fun refs =>
        (idx.blobs.get p.2).any fun row => holdsLastReference row.refcount refs) = true

/-- The size of a blob, as it is added up. -/
def blobBytes (idx : Index) (hash : String) : ℕ := ((idx.blobs.get hash).elim 0 (·.size)).toNat

/-- `held_by_live_files`: per entry, the bytes that evicting it would not free. -/
def heldByLiveFiles (evictShared : Bool) (idx : Index) (retained : String → Bool) (key : String) :
    Option ℕ :=
  let held := (heldRefs idx retained).filter (·.1 = key)
  if evictShared then none
  else if held = ∅ then none
  else some (∑ p ∈ held, blobBytes idx p.2)

/-- `held.values().sum()`. -/
def bytesHeld (evictShared : Bool) (idx : Index) (retained : String → Bool) : ℕ :=
  ∑ key ∈ idx.entries.keys, (heldByLiveFiles evictShared idx retained key).getD 0

/-! ## The walk -/

/-- `GcStats`, the fields a sweep counts in; the bytes are `u64`s. -/
structure GcStats where
  entriesEvicted : ℕ := 0
  bytesFreed : ℕ := 0
  blobsRemoved : ℕ := 0
  skipped : Bool := false
  entriesPinned : ℕ := 0
  entriesUnreclaimable : ℕ := 0
  diskBytesReclaimed : ℕ := 0
  entriesFailed : ℕ := 0
  entriesLocked : ℕ := 0
  entriesBusySnapshot : ℕ := 0
  entriesRecentPrefiltered : ℕ := 0
  entriesImportPinned : ℕ := 0
  bytesHeld : ℕ := 0

/-- `record_eviction_failure`. -/
def GcStats.recordEvictionFailure (stats : GcStats) : RemovalError → GcStats
  | .sqlite contention busySnapshot =>
    { stats with
      entriesFailed := stats.entriesFailed + 1
      entriesLocked := stats.entriesLocked + if contention then 1 else 0
      entriesBusySnapshot := stats.entriesBusySnapshot + if contention && busySnapshot then 1
        else 0 }
  | _ => { stats with entriesFailed := stats.entriesFailed + 1 }

/-- What a walk has: the counters, the running size and the store. -/
structure Progress where
  stats : GcStats
  currentSize : ℕ
  store : Store

/-- What a walk is given. -/
structure Walk (τ : Type*) where
  evictShared : Bool
  target : Option ℕ
  /-- The features by key. -/
  byKey : String → Option (EntryFeatures τ)
  durableUploadKeys : List String
  held : String → Option ℕ
  /-- What the closure `stop` says before a key. -/
  stop : String → Bool
  /-- What the removal of a key finds outside of the store. -/
  moments : String → Moment

section Walk

variable {τ : Type*}

/-- What a walk makes of the result of a removal. -/
def Progress.record (p : Progress) : Except RemovalError GuardedRemoval × Store → Progress
  | (.ok (.reclaimed reclaim), s) =>
    { stats :=
        { p.stats with
          entriesEvicted := p.stats.entriesEvicted + 1
          bytesFreed := (p.stats.bytesFreed + reclaim.freedBytes) % 2 ^ 64
          diskBytesReclaimed :=
            (p.stats.diskBytesReclaimed + reclaim.diskBytesReclaimed) % 2 ^ 64
          blobsRemoved := p.stats.blobsRemoved + reclaim.blobsUnlinked }
      currentSize := p.currentSize - reclaim.freedBytes
      store := s }
  | (.ok .skipped, s) =>
    { p with stats := { p.stats with entriesPinned := p.stats.entriesPinned + 1 }, store := s }
  | (.ok .unreclaimable, s) =>
    { p with
      stats := { p.stats with entriesUnreclaimable := p.stats.entriesUnreclaimable + 1 },
        store := s }
  | (.error e, s) => { p with stats := p.stats.recordEvictionFailure e, store := s }

/-- The removal that a walk attempts. -/
def Walk.attempt (walk : Walk τ) (key : String) (s : Store) :
    Except RemovalError GuardedRemoval × Store :=
  removeEntryGuarded walk.evictShared true (walk.moments key) key s

/-- One key of the walk. -/
def Walk.visit (walk : Walk τ) (key : String) (p : Progress) : Progress :=
  if key ∈ walk.durableUploadKeys then
    { p with stats := { p.stats with entriesPinned := p.stats.entriesPinned + 1 } }
  else if (walk.byKey key).any (·.recentlyAccessed) then
    { p with
      stats :=
        { p.stats with
          entriesPinned := p.stats.entriesPinned + 1
          entriesRecentPrefiltered := p.stats.entriesRecentPrefiltered + 1 } }
  else if (walk.byKey key).any (·.recentlyImported) then
    { p with
      stats :=
        { p.stats with
          entriesPinned := p.stats.entriesPinned + 1
          entriesImportPinned := p.stats.entriesImportPinned + 1 } }
  else if (walk.held key).isSome then p
  else p.record (walk.attempt key p.store)

/-- Whether a walk ends before `key`. -/
def Walk.ends (walk : Walk τ) (key : String) (p : Progress) : Bool :=
  walk.stop key || walk.target.any (p.currentSize ≤ ·)

/-- `apply_eviction`. -/
def applyEviction (walk : Walk τ) : List String → Progress → Progress :=
  untilBreak walk.ends walk.visit

end Walk

/-! ## The sweep -/

/-- What a sweep takes from its configuration and from outside of the store. -/
structure Setting (τ : Type*) where
  readOnly : Bool
  maxSize : ℕ
  gcEvictShared : Bool
  uploadSpoolMaxJobs : ℕ
  /-- The names in the upload spool, an error if it cannot be read. -/
  spool : Except Unit (List (Except Unit (Option String)))
  observed : Observed τ
  /-- `blob_has_external_retainer` when the held bytes are measured. -/
  retained : String → Bool
  stop : String → Bool
  moments : String → Moment

section Sweep

variable {τ : Type*}

/-- The same with a closure that never stops. -/
def Setting.unstopped (setting : Setting τ) : Setting τ := { setting with stop := fun _ => false }

/-- `durable_upload_keys`. -/
def Setting.durableUploadKeys (setting : Setting τ) : Except SweepError (List String) :=
  match setting.spool with
  | .error _ => .error .spoolUnreadable
  | .ok names => durableUploadKeysFromNames setting.uploadSpoolMaxJobs names 0

/-- The bytes that a sweep leaves out of its budget. -/
def Setting.bytesHeld (setting : Setting τ) (probe : Bool) (idx : Index) : ℕ :=
  if probe then Eviction.bytesHeld setting.gcEvictShared idx setting.retained else 0

/-- The walk of a sweep. -/
def Setting.walk (setting : Setting τ) (origin : SweepOrigin) (probe : Bool) (target : Option ℕ)
    (durable : List String) (idx : Index) : Walk τ where
  evictShared := setting.gcEvictShared
  target := target
  byKey := fun key => (idx.entries.get key).map (entryFeatures setting.observed origin idx key)
  durableUploadKeys := durable
  held := fun key =>
    if probe then heldByLiveFiles setting.gcEvictShared idx setting.retained key else none
  stop := setting.stop
  moments := setting.moments

/-- Where a walk starts: the bytes held are no part of the budget. -/
def Setting.start (setting : Setting τ) (probe : Bool) (current : ℕ) (s : Store) : Progress :=
  ⟨{}, current - setting.bytesHeld probe s.index, s⟩

/-- `evict_with_stop`. -/
def evictWithStop (setting : Setting τ) (select : List (EntryFeatures τ) → List String)
    (stopAt : Option (ℕ × ℕ)) (probe : Bool) (origin : SweepOrigin) (s : Store)
    (scan : Scan s.index) : Except SweepError GcStats × Store :=
  match evictionCandidatesFor setting.observed origin s.index scan with
  | .error e => (.error e, s)
  | .ok candidates =>
    let order := select candidates
    if order = [] then (.ok {}, s)
    else
      match setting.durableUploadKeys with
      | .error e => (.error e, s)
      | .ok durable =>
        let swept :=
          applyEviction (setting.walk origin probe (stopAt.map Prod.snd) durable s.index)
            order (setting.start probe ((stopAt.map Prod.fst).getD 0) s)
        (.ok { swept.stats with
            bytesHeld := setting.bytesHeld probe s.index
            entriesUnreclaimable := swept.stats.entriesUnreclaimable +
              if probe then
                (s.index.entries.keys.filter fun key =>
                  (heldByLiveFiles setting.gcEvictShared s.index setting.retained
                    key).isSome).card
              else 0 },
          swept.store)

end Sweep

/-- `evict_for`. -/
def evictFor (setting : Setting Float) (origin : SweepOrigin) (s : Store) (scan : Scan s.index) :
    Except SweepError GcStats × Store :=
  if setting.readOnly then (.error .readOnly, s)
  else
    match physicalSize s.index with
    | .error e => (.error e, s)
    | .ok sizeBefore =>
      if overEvictionTrigger sizeBefore setting.maxSize then
        evictWithStop setting.unstopped sizePressureSelect
          (some (sizeBefore, evictionTarget setting.maxSize)) true origin s scan
      else (.ok {}, s)

end Kache.Eviction
