import Kache.Eviction.Attempt
import Kache.Eviction.Policy
import Kache.Store.Conservation

/-!
# What a removal frees

`eviction_candidates_for` predicts the bytes that a removal would free, with one sum over the blobs
of which the entry holds every reference.  The removal itself goes through the files one by one and
adds up the sizes of the rows that it deletes.  Both are compared here with what they are about, the
decrease of `SUM(blobs.size)`:

* the removal's account is the decrease in *every* index, counted or not, whose sizes SQLite can add
  up (`freedBytes_unregisterRefs`);
* the prediction is the decrease where the counts are those of the mappings
  (`reclaimableSum_eq_decrease`).

SQLite refuses a sum that is no `i64`, and the account is a `u64`; both are fine where the sizes are
not negative and add up to less than `2^63` (`Index.Measured`).
-/

namespace Kache

namespace Index

variable {idx : Index} {key : String}

/-- `SELECT SUM(size) FROM blobs`. -/
def physicalSum (idx : Index) : ℤ := idx.blobs.sumOver fun _ row => row.size

/-- No row has a negative size. -/
def Sized (idx : Index) : Prop := ∀ h row, idx.blobs.get h = some row → 0 ≤ row.size

/-- The sizes are not negative and add up to an `i64`. -/
structure Measured (idx : Index) : Prop where
  sized : idx.Sized
  small : idx.physicalSum < 2 ^ 63

/-- What the sum of the prediction adds up to: the sizes of the blobs of which `key` holds every
reference.  Whether SQLite returns it is `sumsUp`. -/
def reclaimableSum (idx : Index) (key : String) : ℤ :=
  idx.entryBlobs.sumOver fun p refs =>
    if p.1 = key then
      (idx.blobs.get p.2).elim 0 fun row => if refs = row.refcount then row.size else 0
    else 0

/-- SQLite's `SUM` returns `total`; one that is no `i64` is an `integer overflow`. -/
def sumsUp (total : ℤ) : Bool := -2 ^ 63 ≤ total && total < 2 ^ 63

/-- The column of the prediction: unknown for an entry without mapping. -/
def reclaimableBytes (idx : Index) (key : String) : Option ℤ :=
  if (idx.entryBlobs.slice key).keys = ∅ then none else some (idx.reclaimableSum key)

theorem physicalSum_nonneg (sized : idx.Sized) : 0 ≤ idx.physicalSum := by
  refine Finset.sum_nonneg fun h _ => ?_
  cases present : idx.blobs.get h with
  | none => exact le_rfl
  | some row => exact sized h row present

/-- The sum of the prediction, row by row of `blobs`. -/
theorem reclaimableSum_eq (idx : Index) (key : String) :
    idx.reclaimableSum key = idx.blobs.sumOver fun h row =>
      if idx.entryBlobs.get (key, h) = some row.refcount then row.size else 0 := by
  rw [reclaimableSum, ← Table.sumOver_slice idx.entryBlobs key fun h refs =>
    (idx.blobs.get h).elim 0 fun row => if refs = row.refcount then row.size else 0]
  refine Table.sumOver_congr fun h => ?_
  show (idx.entryBlobs.get (key, h)).elim 0 _ = _
  cases own : idx.entryBlobs.get (key, h) <;> cases idx.blobs.get h <;> simp

/-- SQLite adds a part of the sizes up where it adds up all. -/
theorem Measured.sumsUp (measured : idx.Measured) (key : String) :
    sumsUp (idx.reclaimableSum key) = true := by
  have bounds : 0 ≤ idx.reclaimableSum key ∧ idx.reclaimableSum key ≤ idx.physicalSum := by
    rw [reclaimableSum_eq]
    constructor
    · refine Finset.sum_nonneg fun h _ => ?_
      cases present : idx.blobs.get h with
      | none => exact le_rfl
      | some row =>
        have size := measured.sized h row present
        show 0 ≤ if idx.entryBlobs.get (key, h) = some row.refcount then row.size else 0
        split <;> omega
    · refine Finset.sum_le_sum fun h _ => ?_
      cases present : idx.blobs.get h with
      | none => exact le_rfl
      | some row =>
        have size := measured.sized h row present
        show (if idx.entryBlobs.get (key, h) = some row.refcount then row.size else 0) ≤ row.size
        split <;> omega
  have small := measured.small
  simp only [Index.sumsUp, Bool.and_eq_true, decide_eq_true_eq]
  omega

/-! ## The physical size, statement by statement -/

theorem physicalSum_congr {idx' : Index}
    (sizes : ∀ h, (idx'.blobs.get h).map (·.size) = (idx.blobs.get h).map (·.size)) :
    idx'.physicalSum = idx.physicalSum := by
  refine Table.sumOver_congr fun h => ?_
  have same := congrArg (·.getD 0) (sizes h)
  cases left : idx'.blobs.get h <;> cases right : idx.blobs.get h <;> simp_all

/-- The floor changes counts only. -/
theorem physicalSum_floor (key : String) (idx : Index) :
    (deleteMapping key (floorBlobRefsAtMappings key idx)).physicalSum = idx.physicalSum := by
  refine physicalSum_congr fun h => ?_
  rw [blobs_deleteMapping, blobs_floorBlobRefsAtMappings]
  split
  · rw [Option.map_map]
    rfl
  · rfl

/-- What one reference given back hands to the unlink list. -/
theorem unlink_releaseBlobRef (hash : String) (idx : Index) :
    (releaseBlobRef hash idx).2 = (idx.blobs.get hash).bind fun row =>
      if row.refcount ≤ 1 then some (hash, row.size) else none := by
  cases present : idx.blobs.get hash with
  | none => simp [releaseBlobRef, present]
  | some row =>
    by_cases last : row.refcount ≤ 1
    · simp [releaseBlobRef, present, last]
    · simp [releaseBlobRef, present, last]

/-- One reference given back takes the size of the row off that goes with it. -/
theorem physicalSum_releaseBlobRef (hash : String) (idx : Index) :
    (releaseBlobRef hash idx).1.physicalSum =
      idx.physicalSum - (releaseBlobRef hash idx).2.elim 0 (·.2) := by
  let share (h : String) (row : BlobRow) : ℤ := if h = hash ∧ row.refcount ≤ 1 then row.size else 0
  have rest : (releaseBlobRef hash idx).1.physicalSum =
      idx.blobs.sumOver fun h row => row.size - share h row := by
    refine Table.sumOver_congr fun h => ?_
    rw [blobs_releaseBlobRef]
    by_cases same : h = hash
    · subst same
      rw [if_pos rfl]
      cases idx.blobs.get h with
      | none => rfl
      | some row =>
        by_cases last : row.refcount ≤ 1
        · simp [share, Option.filter, last, not_lt.mpr last]
        · simp [share, Option.filter, last, not_le.mp last]
    · rw [if_neg same]
      cases idx.blobs.get h with
      | none => rfl
      | some row => simp [share, same]
  have single : idx.blobs.sumOver share = (idx.blobs.get hash).elim 0 (share hash) := by
    refine Table.sumOver_eq_single _ _ hash fun h ne row => ?_
    exact if_neg fun both => ne both.1
  rw [rest, Table.sumOver_sub, single, physicalSum, unlink_releaseBlobRef]
  cases idx.blobs.get hash with
  | none => rfl
  | some row => by_cases last : row.refcount ≤ 1 <;> simp [share, last]

/-- So does a loop of them, row by row. -/
theorem physicalSum_releaseBlobRefs (hashes : List String) (idx : Index) :
    (releaseBlobRefs hashes idx).1.physicalSum =
      idx.physicalSum - ((releaseBlobRefs hashes idx).2.map (·.2)).sum := by
  induction hashes generalizing idx with
  | nil => simp [releaseBlobRefs]
  | cons hash rest ih =>
    have step := physicalSum_releaseBlobRef hash idx
    have run := ih (releaseBlobRef hash idx).1
    show (releaseBlobRefs rest (releaseBlobRef hash idx).1).1.physicalSum = idx.physicalSum -
      (((releaseBlobRef hash idx).2.toList ++
        (releaseBlobRefs rest (releaseBlobRef hash idx).1).2).map (·.2)).sum
    rw [List.map_append, List.sum_append]
    cases released : (releaseBlobRef hash idx).2 with
    | none =>
      rw [released] at step
      simp only [Option.elim_none, sub_zero] at step
      simp only [Option.toList_none, List.map_nil, List.sum_nil, zero_add]
      omega
    | some blob =>
      rw [released] at step
      simp only [Option.elim_some] at step
      simp only [Option.toList_some, List.map_cons, List.map_nil, List.sum_cons, List.sum_nil,
        add_zero]
      omega

/-- A row that a loop of them leaves was there before, with its size. -/
theorem exists_row_of_releaseBlobRef {hash h : String} {row : BlobRow}
    (present : (releaseBlobRef hash idx).1.blobs.get h = some row) :
    ∃ row', idx.blobs.get h = some row' ∧ row'.size = row.size := by
  rw [blobs_releaseBlobRef] at present
  split at present
  · next same =>
    obtain ⟨row', before, rfl⟩ := Option.map_eq_some_iff.mp (Option.filter_eq_some_iff.mp present).1
    exact ⟨row', same ▸ before, rfl⟩
  · exact ⟨row, present, rfl⟩

/-- **The unlink list**: rows that were there, with their sizes, and that are there no more. -/
theorem mem_unlink {hashes : List String} {blob : String × ℤ}
    (mem : blob ∈ (releaseBlobRefs hashes idx).2) :
    (releaseBlobRefs hashes idx).1.blobs.get blob.1 = none ∧
      ∃ row, idx.blobs.get blob.1 = some row ∧ row.size = blob.2 := by
  induction hashes generalizing idx with
  | nil => cases mem
  | cons hash rest ih =>
    change blob ∈ (releaseBlobRef hash idx).2.toList ++
      (releaseBlobRefs rest (releaseBlobRef hash idx).1).2 at mem
    show (releaseBlobRefs rest (releaseBlobRef hash idx).1).1.blobs.get blob.1 = none ∧ _
    rcases List.mem_append.mp mem with now | later
    · have released := Option.mem_toList.mp now
      rw [unlink_releaseBlobRef, Option.bind_eq_some_iff] at released
      obtain ⟨row, present, taken⟩ := released
      obtain ⟨last, ⟨⟩⟩ := Option.ite_none_right_eq_some.mp taken
      refine ⟨?_, row, present, rfl⟩
      have gone : (releaseBlobRef hash idx).1.blobs.get hash = none := by
        rw [blobs_releaseBlobRef, if_pos rfl, present]
        exact Option.filter_some_neg (by simpa using last)
      rw [blobs_releaseBlobRefs, gone]
      split <;> rfl
    · obtain ⟨gone, row, present, size⟩ := ih later
      obtain ⟨row', before, same⟩ := exists_row_of_releaseBlobRef present
      exact ⟨gone, row', before, same.trans size⟩

end Index

variable {files : List CachedFile} {moment : Moment} {s : Store}

namespace Eviction

open Index

variable {idx : Index} {key : String}

/-! ## The account of a removal -/

theorem freedBytes_foldl (moment : Moment) {idx' : Index} {unlink : List (String × ℤ)}
    (gone : ∀ blob ∈ unlink, idx'.blobs.get blob.1 = none) {acc : RemovalReclaim}
    (fits : acc.freedBytes + (unlink.map (·.2.toNat)).sum < 2 ^ 64) :
    (unlink.foldl (RemovalReclaim.add moment idx') acc).freedBytes =
      acc.freedBytes + (unlink.map (·.2.toNat)).sum := by
  induction unlink generalizing acc with
  | nil => rfl
  | cons blob rest ih =>
    obtain ⟨first, others⟩ := List.forall_mem_cons.mp gone
    rw [List.map_cons, List.sum_cons] at fits ⊢
    have next : (RemovalReclaim.add moment idx' acc blob).freedBytes =
        acc.freedBytes + blob.2.toNat := by
      rw [RemovalReclaim.add, first]
      exact Nat.mod_eq_of_lt (by omega)
    rw [List.foldl_cons, ih others (by omega), next]
    omega

theorem cast_sum_toNat {blobs : List (String × ℤ)} (nonneg : ∀ blob ∈ blobs, 0 ≤ blob.2) :
    (((blobs.map (·.2.toNat)).sum : ℕ) : ℤ) = (blobs.map (·.2)).sum := by
  induction blobs with
  | nil => rfl
  | cons blob rest ih =>
    obtain ⟨first, others⟩ := List.forall_mem_cons.mp nonneg
    rw [List.map_cons, List.sum_cons, List.map_cons, List.sum_cons, Nat.cast_add, ih others,
      Int.toNat_of_nonneg first]

/-- **What a removal says it has freed is the decrease of the physical size**, in every index whose
sizes add up. -/
theorem freedBytes_unregisterRefs (measured : idx.Measured) (moment : Moment) (key : String)
    (files : List CachedFile) :
    ((removalReclaim moment (unregisterRefs key files idx).1
        (unregisterRefs key files idx).2).freedBytes : ℤ) =
      idx.physicalSum - (unregisterRefs key files idx).1.physicalSum := by
  let floored := deleteMapping key (floorBlobRefsAtMappings key idx)
  have total := physicalSum_releaseBlobRefs (files.map (·.hash)) floored
  have size : ∀ blob ∈ (releaseBlobRefs (files.map (·.hash)) floored).2, 0 ≤ blob.2 := by
    intro blob mem
    obtain ⟨-, row, present, same⟩ := mem_unlink mem
    rw [blobs_deleteMapping, blobs_floorBlobRefsAtMappings] at present
    split at present
    · obtain ⟨row', before, rfl⟩ := Option.map_eq_some_iff.mp present
      exact same ▸ measured.sized _ row' before
    · exact same ▸ measured.sized _ row present
  have cast := cast_sum_toNat size
  have before : floored.physicalSum = idx.physicalSum := physicalSum_floor key idx
  have after : 0 ≤ (unregisterRefs key files idx).1.physicalSum :=
    physicalSum_nonneg
      (EachBlob.unregisterRefs (P := fun _ size => 0 ≤ size) measured.sized key files)
  change 0 ≤ (releaseBlobRefs (files.map (·.hash)) floored).1.physicalSum at after
  have small := measured.small
  have account : (removalReclaim moment (unregisterRefs key files idx).1
      (unregisterRefs key files idx).2).freedBytes =
        0 + ((releaseBlobRefs (files.map (·.hash)) floored).2.map (·.2.toNat)).sum := by
    refine freedBytes_foldl moment (fun blob mem => (mem_unlink mem).1) ?_
    show 0 + ((releaseBlobRefs (files.map (·.hash)) floored).2.map (·.2.toNat)).sum < 2 ^ 64
    omega
  rw [account, Nat.zero_add, cast]
  show _ = idx.physicalSum - (releaseBlobRefs (files.map (·.hash)) floored).1.physicalSum
  omega

/-! ## The prediction -/

/-- The `blobs` row of a hash after the bookkeeping of a removal, in an index that counts. -/
theorem blobs_unregisterRefs (counted : idx.Counted 0) (maps : idx.Maps key (hashesOf files))
    {h : String} {row : BlobRow} (present : idx.blobs.get h = some row) :
    (unregisterRefs key files idx).1.blobs.get h =
      if idx.entryBlobs.get (key, h) = some row.refcount then none
      else some { row with refcount := row.refcount - idx.refs key h } := by
  have own : (idx.entryBlobs.get (key, h)) = countRow (idx.refs key h) := by
    rw [maps.refs_eq, maps h]
  have listed : ((files.map (·.hash)).count h : ℤ) = idx.refs key h := by
    rw [maps.refs_eq h, hashesOf, Multiset.coe_count]
  have le : idx.refs key h ≤ row.refcount :=
    (counted.refs_le_mappedRefs key h).trans (counted.mappedRefs_le_refcount present)
  have positive : 0 < row.refcount := by
    have count := counted.refcount h
    rw [refcount?, present, Option.map_some, eq_comm, countRow_eq_some] at count
    have nonneg := counted.mappedRefs_nonneg h
    simp only [Multiset.count_zero, Nat.cast_zero] at count
    omega
  rw [unregisterRefs, counted.floorBlobRefsAtMappings_eq, blobs_releaseBlobRefs,
    blobs_deleteMapping, present, listed, own]
  by_cases inside : h ∈ files.map (·.hash)
  · have some_ref : 0 < (files.map (·.hash)).count h := List.count_pos_iff.mpr inside
    have mapping : countRow (idx.refs key h) = some (idx.refs key h) :=
      countRow_eq_some.mpr ⟨rfl, by omega⟩
    rw [if_pos inside, mapping, Option.map_some]
    by_cases last : idx.refs key h = row.refcount
    · rw [if_pos (by rw [last])]
      exact Option.filter_some_neg (by simp [last])
    · rw [if_neg fun same => last (Option.some.inj same)]
      exact Option.filter_some_pos (by simp only [decide_eq_true_eq]; omega)
  · have no_ref : (files.map (·.hash)).count h = 0 := List.count_eq_zero.mpr inside
    have zero : idx.refs key h = 0 := by omega
    rw [if_neg inside, zero, countRow_zero, if_neg (by simp), sub_zero]

/-- **The prediction is the decrease**, where the counts are those of the mappings. -/
theorem reclaimableSum_eq_decrease (counted : idx.Counted 0)
    (maps : idx.Maps key (hashesOf files)) :
    idx.reclaimableSum key = idx.physicalSum - (unregisterRefs key files idx).1.physicalSum := by
  let share (h : String) (row : BlobRow) : ℤ :=
    if idx.entryBlobs.get (key, h) = some row.refcount then row.size else 0
  have predicted : idx.reclaimableSum key = idx.blobs.sumOver share := reclaimableSum_eq idx key
  have left : (unregisterRefs key files idx).1.physicalSum =
      idx.blobs.sumOver fun h row => row.size - share h row := by
    refine Table.sumOver_congr fun h => ?_
    cases present : idx.blobs.get h with
    | none =>
      have still : (unregisterRefs key files idx).1.blobs.get h = none := by
        rw [unregisterRefs, counted.floorBlobRefsAtMappings_eq, blobs_releaseBlobRefs,
          blobs_deleteMapping, present]
        split <;> rfl
      rw [still]
      rfl
    | some row =>
      rw [blobs_unregisterRefs counted maps present]
      by_cases last : idx.entryBlobs.get (key, h) = some row.refcount <;> simp [share, last]
  rw [predicted, left, Table.sumOver_sub]
  show _ = idx.physicalSum - (idx.physicalSum - _)
  omega

/-- The prediction is unknown for an entry without files and for no other. -/
theorem reclaimableBytes_eq (maps : idx.Maps key (hashesOf files)) :
    idx.reclaimableBytes key = if files = [] then none else some (idx.reclaimableSum key) := by
  have empty : (idx.entryBlobs.slice key).keys = ∅ ↔ files = [] := by
    rw [Finset.eq_empty_iff_forall_notMem]
    constructor
    · intro none
      cases files with
      | nil => rfl
      | cons file rest =>
        refine absurd ?_ (none file.hash)
        rw [Table.mem_keys]
        exact (maps.isSome_iff file.hash).mpr (by simp)
    · rintro rfl h mem
      have mapped := (maps.isSome_iff h).mp (((idx.entryBlobs.slice key).mem_keys h).mp mem)
      simp at mapped
  unfold reclaimableBytes
  simp only [empty]

/-- A removal that returns has freed what the physical size has lost, and leaves sizes that add
up. -/
theorem Removal.physicalSum {evictShared guarded : Bool} {s' : Store} {result : GuardedRemoval}
    (measured : s.index.Measured)
    (removal : Removal evictShared guarded moment key s (.ok result) s') :
    s'.index.Measured ∧ s.index.physicalSum - s'.index.physicalSum =
      (match result with | .reclaimed reclaim => (reclaim.freedBytes : ℤ) | _ => 0) := by
  cases removal with
  | absent | recent | held => exact ⟨measured, sub_self _⟩
  | @done text m idx unlink _ rows _ =>
    obtain ⟨-, -, pair⟩ := removeRows_eq_some rows
    have measured' : (deleteEntry key s.index).Measured := ⟨measured.sized, measured.small⟩
    have account := freedBytes_unregisterRefs measured' moment key m.files
    have each : (deleteEntry key s.index).EachBlob fun _ size => 0 ≤ size := measured.sized
    have kept := each.unregisterRefs key m.files
    rw [← pair] at account kept
    change (_ : ℤ) = s.index.physicalSum - idx.physicalSum at account
    have small := measured.small
    exact ⟨⟨kept, by dsimp only; omega⟩, account.symm⟩

/-! ## The candidates -/

/-- `SweepOrigin`. -/
inductive SweepOrigin where
  | automatic
  | requested
  deriving DecidableEq

/-- `IMPORT_PIN`, in seconds. -/
def importPin : ℤ := 6 * 3600

/-- `SweepOrigin::import_pin_secs`. -/
def SweepOrigin.importPinSecs : SweepOrigin → Option ℤ
  | .automatic => some importPin
  | .requested => none

/-- `COALESCE(imported_at >= unixepoch() - ?, 0)`. -/
def recentlyImported (origin : SweepOrigin) (now : ℤ) (importedAt : Option ℕ) : Bool :=
  match origin.importPinSecs, importedAt with
  | some pin, some imported => now - pin ≤ imported
  | _, _ => false

/-- What the clock and the columns of the accesses say when the candidates are read. -/
structure Observed (τ : Type*) where
  /-- `unixepoch()`. -/
  now : ℤ
  hitCount : String → ℤ
  /-- The hours since `last_accessed`, zero where it is no time. -/
  idleHours : String → τ
  /-- `last_accessed >= datetime('now', '-grace')`. -/
  recentlyAccessed : String → Bool

/-- The order in which a scan returns the rows of `entries`. -/
structure Scan (idx : Index) where
  rows : List String
  exact : (rows : Multiset String) = idx.entries.keys.val

/-- One row of the query. -/
def entryFeatures {τ : Type*} (observed : Observed τ) (origin : SweepOrigin) (idx : Index)
    (key : String) (row : EntryRow) : EntryFeatures τ where
  key := key
  size := row.size
  hitCount := observed.hitCount key
  idleHours := observed.idleHours key
  contentHash := some row.contentHash
  committed := row.committed
  compileTimeMs := row.compileTimeMs
  reclaimableBytes := idx.reclaimableBytes key
  recentlyAccessed := observed.recentlyAccessed key
  recentlyImported := recentlyImported origin observed.now row.importedAt

/-- The rows of the query. -/
def candidateRows {τ : Type*} (observed : Observed τ) (origin : SweepOrigin) (idx : Index)
    (scan : Scan idx) : List (EntryFeatures τ) :=
  scan.rows.filterMap fun key => (idx.entries.get key).map (entryFeatures observed origin idx key)

/-- Why a sweep fails. -/
inductive SweepError where
  | readOnly
  /-- SQLite refuses a sum that is no `i64`. -/
  | integerOverflow
  /-- The upload spool cannot be read. -/
  | spoolUnreadable
  /-- The upload spool has more jobs than it may. -/
  | spoolExceeds
  deriving DecidableEq

/-- `eviction_candidates_for`: one sum that overflows fails the query. -/
def evictionCandidatesFor {τ : Type*} (observed : Observed τ) (origin : SweepOrigin) (idx : Index)
    (scan : Scan idx) : Except SweepError (List (EntryFeatures τ)) :=
  if scan.rows.all fun key => sumsUp (idx.reclaimableSum key) then
    .ok (candidateRows observed origin idx scan)
  else .error .integerOverflow

theorem evictionCandidatesFor_cases {τ : Type*} (observed : Observed τ) (origin : SweepOrigin)
    (scan : Scan idx) :
    evictionCandidatesFor observed origin idx scan = .ok (candidateRows observed origin idx scan) ∨
      evictionCandidatesFor observed origin idx scan = .error .integerOverflow := by
  unfold evictionCandidatesFor
  split
  · exact .inl rfl
  · exact .inr rfl

theorem evictionCandidatesFor_eq_ok {τ : Type*} (measured : idx.Measured) (observed : Observed τ)
    (origin : SweepOrigin) (scan : Scan idx) :
    evictionCandidatesFor observed origin idx scan = .ok (candidateRows observed origin idx scan) :=
  if_pos (List.all_eq_true.mpr fun key _ => measured.sumsUp key)

theorem Scan.mem_rows (scan : Scan idx) : key ∈ scan.rows ↔ (idx.entries.get key).isSome := by
  rw [← Multiset.mem_coe, scan.exact, Finset.mem_val, Table.mem_keys]

theorem Scan.nodup (scan : Scan idx) : scan.rows.Nodup := by
  rw [← Multiset.coe_nodup, scan.exact]
  exact idx.entries.keys.nodup

theorem mem_candidateRows {τ : Type*} {observed : Observed τ} {origin : SweepOrigin}
    {scan : Scan idx} {e : EntryFeatures τ} :
    e ∈ candidateRows observed origin idx scan ↔
      ∃ row, idx.entries.get e.key = some row ∧
        e = entryFeatures observed origin idx e.key row := by
  rw [candidateRows, List.mem_filterMap]
  constructor
  · rintro ⟨key, -, made⟩
    obtain ⟨row, present, rfl⟩ := Option.map_eq_some_iff.mp made
    exact ⟨row, present, rfl⟩
  · rintro ⟨row, present, made⟩
    refine ⟨e.key, scan.mem_rows.mpr (present ▸ rfl), ?_⟩
    rw [present, Option.map_some, ← made]

/-- The keys of the candidates are those of the rows. -/
theorem map_key_candidateRows {τ : Type*} (observed : Observed τ) (origin : SweepOrigin)
    (scan : Scan idx) : (candidateRows observed origin idx scan).map (·.key) = scan.rows := by
  have rows : ∀ key ∈ scan.rows, (idx.entries.get key).isSome := fun key => scan.mem_rows.mp
  rw [candidateRows]
  generalize scan.rows = l at rows
  induction l with
  | nil => rfl
  | cons key rest ih =>
    obtain ⟨present, others⟩ := List.forall_mem_cons.mp rows
    obtain ⟨row, found⟩ := Option.isSome_iff_exists.mp present
    rw [List.filterMap_cons_some (by rw [found, Option.map_some]), List.map_cons, ih others]
    rfl

/-! ## Prediction and reclaim -/

/-- The bytes a removal reports. -/
def freedOf : Except RemovalError GuardedRemoval → ℕ
  | .ok (.reclaimed reclaim) => reclaim.freedBytes
  | _ => 0

/-- Removals one after the other, with the bytes they report in all. -/
def removeSequence (evictShared guarded : Bool) : List (String × Moment) → Store → ℕ × Store
  | [], s => (0, s)
  | (key, moment) :: rest, s =>
    let first := removeEntryGuarded evictShared guarded moment key s
    let others := removeSequence evictShared guarded rest first.2
    (freedOf first.1 + others.1, others.2)

/-- One removal that does not fail after its commit. -/
theorem freedOf_removeEntryGuarded (measured : s.index.Measured) (evictShared guarded : Bool)
    (clean : moment.fault ≠ some .directory) (key : String) :
    (removeEntryGuarded evictShared guarded moment key s).2.index.Measured ∧
      (freedOf (removeEntryGuarded evictShared guarded moment key s).1 : ℤ) = s.index.physicalSum -
        (removeEntryGuarded evictShared guarded moment key s).2.index.physicalSum := by
  have removal := removal_removeEntryGuarded evictShared guarded moment key s
  generalize (removeEntryGuarded evictShared guarded moment key s).1 = result at removal
  generalize (removeEntryGuarded evictShared guarded moment key s).2 = s' at removal
  cases result with
  | error e =>
    cases removal with
    | failed => exact ⟨measured, (sub_self _).symm⟩
    | half _ fault _ => exact absurd fault clean
  | ok result =>
    obtain ⟨measured', account⟩ := removal.physicalSum measured
    refine ⟨measured', ?_⟩
    rw [account]
    cases result <;> rfl

theorem removeSequence_freed (evictShared guarded : Bool) {removals : List (String × Moment)}
    (clean : ∀ removal ∈ removals, removal.2.fault ≠ some .directory)
    (measured : s.index.Measured) : ((removeSequence evictShared guarded removals s).1 : ℤ) =
      s.index.physicalSum -
        (removeSequence evictShared guarded removals s).2.index.physicalSum := by
  induction removals generalizing s with
  | nil => exact (sub_self _).symm
  | cons removal rest ih =>
    obtain ⟨key, moment⟩ := removal
    obtain ⟨first, others⟩ := List.forall_mem_cons.mp clean
    have first : moment.fault ≠ some .directory := first
    obtain ⟨measured', step⟩ := freedOf_removeEntryGuarded measured evictShared guarded first key
    have run := ih others measured'
    show ((freedOf _ + _ : ℕ) : ℤ) = s.index.physicalSum -
      (removeSequence evictShared guarded rest
        (removeEntryGuarded evictShared guarded moment key s).2).2.index.physicalSum
    rw [Nat.cast_add]
    omega

/-- Without the guards an entry that is paired goes. -/
theorem exists_reclaimed {key : String} (present : (s.index.entries.get key).isSome)
    (paired : s.Paired key) (evictShared : Bool) (sane : moment.fault = none) :
    ∃ reclaim s', removeEntryGuarded evictShared false moment key s =
      (.ok (.reclaimed reclaim), s') := by
  obtain ⟨m, parsed, -⟩ := paired
  obtain ⟨text, read, parsed⟩ := Option.bind_eq_some_iff.mp parsed
  obtain ⟨row, found⟩ := Option.isSome_iff_exists.mp present
  have rows : removeRows key text m s =
      some (unregisterRefs key m.files (deleteEntry key s.index)) := by
    rw [removeRows, found, if_neg (by simp), if_neg (not_not.mpr read)]
  have reached : removeEntryGuarded evictShared false moment key s =
      removeCommit moment key text m s := by
    rw [removeEntryGuarded, read]
    dsimp only
    rw [sane, if_neg (by simp), parsed]
    rfl
  rw [reached, removeCommit, rows]
  dsimp only
  rw [sane, if_neg (by simp)]
  exact ⟨_, _, rfl⟩

/-- **Reclaim prediction equals reclaim**, where the sizes add up. -/
theorem reclaim_prediction_equals_reclaim {τ : Type*} (s : Store)
    (conserved : RefcountConservation s) (measured : s.index.Measured) :
    (∀ (observed : Observed τ) (origin : SweepOrigin) (scan : Scan s.index) (key : String),
      s.index.isCommitted key = true →
      ∃ candidates, evictionCandidatesFor observed origin s.index scan = .ok candidates ∧
      ∃ e ∈ candidates, e.key = key ∧
        (∀ (evictShared guarded : Bool) (moment : Moment) (reclaim : RemovalReclaim) (s' : Store),
          removeEntryGuarded evictShared guarded moment key s = (.ok (.reclaimed reclaim), s') →
          s.index.physicalSum - s'.index.physicalSum = reclaim.freedBytes ∧
          ∀ m, s.disk.meta? key = some m →
            e.reclaimableBytes = if m.files = [] then none else some (reclaim.freedBytes : ℤ)) ∧
        ∀ (evictShared : Bool) (moment : Moment), moment.fault = none → ∃ reclaim s',
          removeEntryGuarded evictShared false moment key s = (.ok (.reclaimed reclaim), s')) ∧
    ∀ (evictShared guarded : Bool) (removals : List (String × Moment)),
      (∀ removal ∈ removals, removal.2.fault ≠ some .directory) →
      ((removeSequence evictShared guarded removals s).1 : ℤ) = s.index.physicalSum -
        (removeSequence evictShared guarded removals s).2.index.physicalSum := by
  constructor
  · intro observed origin scan key committed
    have present := isSome_of_isCommitted committed
    obtain ⟨row, found⟩ := Option.isSome_iff_exists.mp present
    have candidate : entryFeatures observed origin s.index key row ∈
        candidateRows observed origin s.index scan :=
      mem_candidateRows.mpr ⟨row, found, rfl⟩
    refine ⟨_, evictionCandidatesFor_eq_ok measured observed origin scan, _, candidate, rfl, ?_, ?_⟩
    · intro evictShared guarded moment reclaim s' returned
      have removal := removal_removeEntryGuarded evictShared guarded moment key s
      rw [returned] at removal
      obtain ⟨-, account⟩ := removal.physicalSum measured
      refine ⟨account, fun m parsed => ?_⟩
      obtain ⟨m', parsed', maps⟩ := conserved.paired key committed
      cases parsed.symm.trans parsed'
      have prediction := reclaimableBytes_eq maps
      show s.index.reclaimableBytes key = _
      cases removal with
      | @done text m'' idx unlink textParsed rows _ =>
        obtain ⟨-, read, pair⟩ := removeRows_eq_some rows
        -- the removal has read the same `meta.json`
        cases parsed.symm.trans (Disk.meta?_eq_of_text read textParsed)
        have counted' : (deleteEntry key s.index).Counted 0 := conserved.counted.of_tables rfl rfl
        have maps' : (deleteEntry key s.index).Maps key (hashesOf m.files) := maps
        have decrease := reclaimableSum_eq_decrease counted' maps'
        rw [← pair] at decrease
        have sum : s.index.reclaimableSum key = s.index.physicalSum - idx.physicalSum := decrease
        rw [prediction, sum, account]
    · exact fun evictShared moment sane => exists_reclaimed present (conserved.paired key committed)
        evictShared sane
  · exact fun evictShared guarded removals clean =>
      removeSequence_freed evictShared guarded clean measured

/-- One more entry of a store. -/
def publish (key : String) (files : List CachedFile) (s : Store) : Store :=
  let m : EntryMeta := ⟨key, 33, "kache", [], files, "", "", [], "", "", 0, []⟩
  ⟨insertOrReplaceEntry key ⟨"kache", "", "", 0, 0, "", 0, 33, true, true, none⟩
      (registerRefs key files s.index),
    s.disk.setDir key ⟨some (.written sampleEnv m), fun _ => none⟩⟩

theorem sized_publish (key : String) (nonneg : ∀ file ∈ files, 0 ≤ asI64 file.size)
    (sized : s.index.Sized) : (publish key files s).index.Sized := by
  have each : s.index.EachBlob fun _ size => 0 ≤ size := sized
  exact each.registerRefs key nonneg

/-- A store with one entry. -/
def publishedOnce (files : List CachedFile) : Store := publish "key" files ⟨.empty, .empty⟩

theorem conserved_publishedOnce (files : List CachedFile) :
    RefcountConservation (publishedOnce files) := by
  have others : ∀ key, key ≠ "key" → (publishedOnce files).index.entries.get key = none := by
    intro key ne
    show (if key = "key" then _ else (registerRefs "key" files .empty).entries.get key) = none
    rw [if_neg ne, entries_registerRefs]
    rfl
  refine .of_counted ((counted_empty.registerRefs "key" files).of_tables rfl rfl) ?_ ?_
  · intro key committed
    have same : key = "key" := by
      by_contra ne
      rw [isCommitted, others key ne] at committed
      cases committed
    subst same
    exact ⟨_, rfl, maps_registerRefs "key" files .empty⟩
  · intro key uncommitted h
    have ne : key ≠ "key" := by
      rintro rfl
      cases uncommitted
    show (registerRefs "key" files .empty).entryBlobs.get (key, h) = _
    rw [entryBlobs_registerRefs_of_ne ne]
    rfl

theorem sized_publishedOnce (nonneg : ∀ file ∈ files, 0 ≤ asI64 file.size) :
    (publishedOnce files).index.Sized :=
  sized_publish "key" nonneg fun _ _ row => nomatch row

/-- What the clock and the columns say in the cases below. -/
def Observed.quiet : Observed ℕ := ⟨0, fun _ => 0, fun _ => 0, fun _ => false⟩

/-- A removal that finds nothing outside of the store. -/
def Moment.quiet : Moment :=
  ⟨fun _ => false, fun _ => false, fun _ => none, none, id, fun _ => .refl _⟩

/-- The scan of its one row. -/
def publishedScan (files : List CachedFile) : Scan (publishedOnce files).index where
  rows := ["key"]
  exact := by
    show (["key"] : Multiset String) =
      (insert "key" (registerRefs "key" files .empty).entries.keys : Finset String).val
    rw [entries_registerRefs]
    rfl

/-- Two files with one content are freed once, as predicted. -/
theorem reclaim_prediction_equals_reclaim_of_two_files :
    let s := publishedOnce [⟨"a", 10, "blob", false⟩, ⟨"b", 10, "blob", false⟩]
    s.index.isCommitted "key" = true ∧
      ∃ reclaim s', removeEntryGuarded false false .quiet "key" s = (.ok (.reclaimed reclaim), s') ∧
        s.index.physicalSum - s'.index.physicalSum = reclaim.freedBytes ∧
        s.index.reclaimableBytes "key" = some (reclaim.freedBytes : ℤ) := by
  intro s
  have committed : s.index.isCommitted "key" = true := by decide +kernel
  have measured : s.index.Measured := ⟨sized_publishedOnce (by decide +kernel), by decide +kernel⟩
  obtain ⟨candidates, read, e, inside, named, returned, removable⟩ :=
    (reclaim_prediction_equals_reclaim s (conserved_publishedOnce _) measured).1 Observed.quiet
      .requested (publishedScan _) "key" committed
  obtain ⟨reclaim, s', call⟩ := removable false .quiet rfl
  obtain ⟨decrease, prediction⟩ := returned false false .quiet reclaim s' call
  cases (evictionCandidatesFor_eq_ok measured _ _ _).symm.trans read
  obtain ⟨row, -, made⟩ := mem_candidateRows.mp inside
  have reported : e.reclaimableBytes = s.index.reclaimableBytes "key" := by rw [made, ← named]; rfl
  exact ⟨committed, reclaim, s', call, decrease, reported ▸ prediction _ rfl⟩

/-- What the query says of one entry. -/
def predictionOf (files : List CachedFile) : Except SweepError (List (Option ℤ)) :=
  (evictionCandidatesFor Observed.quiet .requested _ (publishedScan files)).map
    (·.map (·.reclaimableBytes))

/-- Of an entry without files the prediction is unknown and not zero.  A size of `2^63` bytes is a
negative one in the table: the prediction and the decrease follow it, the account does not.  Two
blobs of `2^62` bytes fail the query.  A removal that fails after its commit has freed 10 bytes and
reports none. -/
theorem prediction_without_files_or_sizes :
    (∀ files, RefcountConservation (publishedOnce files) ∧
      (publishedOnce files).index.isCommitted "key" = true) ∧
    (predictionOf [] = .ok [none] ∧
      (removeEntryGuarded false false .quiet "key" (publishedOnce [])).1 =
        .ok (.reclaimed ⟨0, 0, 0⟩)) ∧
    (predictionOf [⟨"a", 2 ^ 63, "blob", false⟩] = .ok [some (-2 ^ 63)] ∧
      (removeEntryGuarded false false .quiet "key"
        (publishedOnce [⟨"a", 2 ^ 63, "blob", false⟩])).1 = .ok (.reclaimed ⟨0, 1, 0⟩)) ∧
    predictionOf [⟨"a", 2 ^ 62, "blob", false⟩, ⟨"b", 2 ^ 62, "other", false⟩] =
      .error .integerOverflow ∧
    let s := publishedOnce [⟨"a", 10, "blob", false⟩]
    let removed :=
        removeSequence false false [("key", { Moment.quiet with fault := some .directory })] s
    removed.1 = 0 ∧ s.index.physicalSum - removed.2.index.physicalSum = 10 := by
  refine ⟨fun files => ⟨conserved_publishedOnce files, ?_⟩, by decide +kernel, by decide +kernel,
    by decide +kernel, by decide +kernel⟩
  rfl

end Eviction

end Kache
