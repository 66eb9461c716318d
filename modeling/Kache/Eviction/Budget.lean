import Kache.Eviction.Sweep
import Mathlib.Data.List.Permutation

/-!
# The budget of the size sweep

One visit of the walk either passes an entry over, and then the store stays, or attempts a removal.
Along the walk the running size is the physical size without the bytes held at the start
(`Walk.Accounts`), and a row is there until the visit of its own key takes it (`Walk.Keeps`).  Both
are invariants of every visit; the sweep is put together from them.
-/

namespace Kache.Eviction

open Index

variable {idx : Index} {durable : List String}

section Walk

variable {τ : Type*} {walk : Walk τ} {key : String} {p : Progress} {s s' : Store}

/-! ## One visit -/

/-- Why a walk passes an entry over. -/
structure Walk.Spares (walk : Walk τ) (key : String) : Prop where
  reason : key ∈ walk.durableUploadKeys ∨ (walk.byKey key).any (·.recentlyAccessed) = true ∨
    (walk.byKey key).any (·.recentlyImported) = true ∨ (walk.held key).isSome = true

/-- **One visit**: the entry is passed over and nothing changes but the counters, or its removal is
attempted. -/
theorem visit_cases (walk : Walk τ) (key : String) (p : Progress) :
    (walk.Spares key ∧ (walk.visit key p).store = p.store ∧
      (walk.visit key p).currentSize = p.currentSize ∧
      (walk.visit key p).stats.bytesFreed = p.stats.bytesFreed ∧
      (walk.visit key p).stats.entriesFailed = p.stats.entriesFailed) ∨
    (¬ walk.Spares key ∧ walk.visit key p = p.record (walk.attempt key p.store)) := by
  have spares : walk.Spares key ↔ _ := ⟨Walk.Spares.reason, .mk⟩
  unfold Walk.visit
  grind

theorem entriesFailed_recordEvictionFailure (stats : GcStats) (e : RemovalError) :
    (stats.recordEvictionFailure e).entriesFailed = stats.entriesFailed + 1 := by
  cases e <;> rfl

/-- What is recorded of a removal that returns. -/
theorem record_ok (p : Progress) (result : GuardedRemoval) (s : Store) :
    (p.record (.ok result, s)).store = s ∧
    (p.record (.ok result, s)).stats.entriesFailed = p.stats.entriesFailed ∧
    (p.stats.bytesFreed + freedOf (.ok result) < 2 ^ 64 →
      (p.record (.ok result, s)).stats.bytesFreed = p.stats.bytesFreed + freedOf (.ok result)) ∧
    (p.record (.ok result, s)).currentSize = p.currentSize - freedOf (.ok result) := by
  cases result with
  | reclaimed reclaim => exact ⟨rfl, rfl, Nat.mod_eq_of_lt, rfl⟩
  | skipped | unreclaimable => exact ⟨rfl, rfl, fun _ => rfl, rfl⟩

/-- A removal that fails is counted. -/
theorem record_error (p : Progress) (e : RemovalError) (s : Store) :
    (p.record (.error e, s)).stats.entriesFailed = p.stats.entriesFailed + 1 :=
  entriesFailed_recordEvictionFailure p.stats e

/-- Failures are never forgotten. -/
theorem entriesFailed_le_visit (walk : Walk τ) (key : String) (p : Progress) :
    p.stats.entriesFailed ≤ (walk.visit key p).stats.entriesFailed := by
  rcases visit_cases walk key p with ⟨-, -, -, -, failed⟩ | ⟨-, visited⟩
  · exact failed.ge
  · rw [visited]
    obtain ⟨result, s'⟩ := walk.attempt key p.store
    cases result with
    | ok result => exact (record_ok p result s').2.1.ge
    | error e =>
      rw [record_error]
      exact Nat.le_succ _

/-- A visit without failure that attempts a removal. -/
theorem attempt_ok (attempted : ¬ walk.Spares key)
    (clean : (walk.visit key p).stats.entriesFailed = 0) :
    ∃ result s', walk.attempt key p.store = (.ok result, s') ∧
      walk.visit key p = p.record (.ok result, s') := by
  rcases visit_cases walk key p with ⟨spared, -⟩ | ⟨-, visited⟩
  · exact absurd spared attempted
  · rw [visited] at clean ⊢
    cases attempt : walk.attempt key p.store with
    | mk result s' =>
      cases result with
      | ok result => exact ⟨result, s', rfl, rfl⟩
      | error e =>
        rw [attempt, record_error] at clean
        exact absurd clean (Nat.succ_ne_zero _)

/-- The attempt is a removal. -/
theorem removal_attempt {result : Except RemovalError GuardedRemoval}
    (attempt : walk.attempt key s = (result, s')) :
    Removal walk.evictShared true (walk.moments key) key s result s' := by
  have removal := removal_removeEntryGuarded walk.evictShared true (walk.moments key) key s
  have same : removeEntryGuarded walk.evictShared true (walk.moments key) key s = (result, s') :=
    attempt
  rwa [same] at removal

/-! ## The rows of `entries` -/

/-- A removal that commits takes the row of its key and no other. -/
theorem entries_removeRows {text : MetaText} {m : EntryMeta} {unlink : List (String × ℤ)}
    (rows : removeRows key text m s = some (idx, unlink)) (k : String) :
    idx.entries.get k = if k = key then none else s.index.entries.get k := by
  obtain ⟨-, -, pair⟩ := removeRows_eq_some rows
  have entries : idx.entries = (deleteEntry key s.index).entries := by
    rw [← entries_unregisterRefs key m.files (deleteEntry key s.index), ← pair]
  rw [entries, deleteEntry, Table.get_deleteWhere]
  by_cases same : k = key
  · rw [if_pos same]
    cases s.index.entries.get k <;> simp [same]
  · rw [if_neg same]
    cases s.index.entries.get k <;> simp [same]

/-- A removal takes the row of its key or none. -/
theorem Removal.entries {evictShared guarded : Bool} {moment : Moment}
    {result : Except RemovalError GuardedRemoval}
    (removal : Removal evictShared guarded moment key s result s') {k : String} (ne : k ≠ key) :
    s'.index.entries.get k = s.index.entries.get k := by
  cases removal with
  | failed | absent | recent | held => rfl
  | half _ _ rows | done _ rows _ => rw [entries_removeRows rows, if_neg ne]

/-- A visit takes the row of its key or none, and that only if the key is not spared. -/
theorem entries_visit {k : String} (kept : k ≠ key ∨ walk.Spares key) :
    (walk.visit key p).store.index.entries.get k = p.store.index.entries.get k := by
  rcases visit_cases walk key p with ⟨-, store, -⟩ | ⟨attempted, visited⟩
  · rw [store]
  · have ne : k ≠ key := kept.resolve_right attempted
    rw [visited]
    cases attempt : walk.attempt key p.store with
    | mk result s' =>
      have removal := removal_attempt attempt
      cases result with
      | ok result =>
        rw [(record_ok p result s').1]
        exact removal.entries ne
      | error e => exact removal.entries ne

/-! ## The walk, key by key -/

section Run

variable {start : Progress} {target : ℕ}

/-- A walk that nobody stops goes on where it was left. -/
theorem applyEviction_append (unstopped : ∀ k, walk.stop k = false) (visited rest : List String)
    (start : Progress) :
    applyEviction walk (visited ++ rest) start =
      applyEviction walk rest (applyEviction walk visited start) := by
  refine untilBreak_append (fun a b p => ?_) visited rest start
  rw [Walk.ends, Walk.ends, unstopped, unstopped]

/-- One more key of a walk that nobody stops. -/
theorem applyEviction_concat (unstopped : ∀ k, walk.stop k = false) (visited : List String)
    (key : String) (start : Progress) :
    applyEviction walk (visited ++ [key]) start =
      if walk.ends key (applyEviction walk visited start) then applyEviction walk visited start
      else walk.visit key (applyEviction walk visited start) :=
  applyEviction_append unstopped visited [key] start

theorem ends_iff (unstopped : ∀ k, walk.stop k = false) (bounded : walk.target = some target) :
    walk.ends key p = true ↔ p.currentSize ≤ target := by
  rw [Walk.ends, unstopped, bounded]
  simp

/-- Once the target is reached nothing changes. -/
theorem applyEviction_of_reached (unstopped : ∀ k, walk.stop k = false)
    (bounded : walk.target = some target) {visited : List String}
    (reached : (applyEviction walk visited start).currentSize ≤ target) (rest : List String) :
    applyEviction walk (visited ++ rest) start = applyEviction walk visited start := by
  rw [applyEviction_append unstopped]
  cases rest with
  | nil => rfl
  | cons key rest => exact if_pos ((ends_iff unstopped bounded).mpr reached)

/-- Failures are never forgotten along the walk. -/
theorem entriesFailed_mono (unstopped : ∀ k, walk.stop k = false) (visited rest : List String)
    (start : Progress) :
    (applyEviction walk visited start).stats.entriesFailed ≤
      (applyEviction walk (visited ++ rest) start).stats.entriesFailed := by
  rw [applyEviction_append unstopped]
  exact untilBreak_invariant (I := fun p : Progress => _ ≤ p.stats.entriesFailed) le_rfl
    fun key _ p counted _ => counted.trans (entriesFailed_le_visit walk key p)

/-- **A row stays until its key is visited**, and then if the key is spared. -/
theorem entries_applyEviction (unstopped : ∀ k, walk.stop k = false) {k : String}
    (visited rest : List String) (kept : k ∉ rest ∨ walk.Spares k) (start : Progress) :
    (applyEviction walk (visited ++ rest) start).store.index.entries.get k =
      (applyEviction walk visited start).store.index.entries.get k := by
  rw [applyEviction_append unstopped]
  refine untilBreak_invariant (I := fun p : Progress => p.store.index.entries.get k = _) rfl
    fun key mem p same _ => ?_
  refine (entries_visit ?_).trans same
  by_cases visited : k = key
  · subst visited
    exact .inr (kept.resolve_left fun fresh => fresh mem)
  · exact .inl visited

/-- What the counters say about the store, along a walk from `start`. -/
structure Accounts (start p : Progress) : Prop where
  measured : p.store.index.Measured
  freed : (p.stats.bytesFreed : ℤ) =
    start.store.index.physicalSum - p.store.index.physicalSum
  current : p.currentSize = start.currentSize - p.stats.bytesFreed

/-- A visit keeps the account, if a removal that fails there changes nothing. -/
theorem Accounts.visit (begins : start.store.index.Measured) (accounts : Accounts start p)
    (whole : ¬ walk.Spares key →
      ∀ e s', walk.attempt key p.store = (.error e, s') → s' = p.store) :
    Accounts start (walk.visit key p) := by
  rcases visit_cases walk key p with ⟨-, store, current, freed, -⟩ | ⟨attempted, visited⟩
  · constructor
    · rw [store]
      exact accounts.measured
    · rw [store, freed]
      exact accounts.freed
    · rw [current, freed]
      exact accounts.current
  · rw [visited]
    cases attempt : walk.attempt key p.store with
    | mk result s' =>
      cases result with
      | error e =>
        cases whole attempted e s' attempt
        have same : (p.stats.recordEvictionFailure e).bytesFreed = p.stats.bytesFreed := by
          cases e <;> rfl
        refine ⟨accounts.measured, ?_, ?_⟩
        · show ((p.stats.recordEvictionFailure e).bytesFreed : ℤ) = _
          rw [same]
          exact accounts.freed
        · show p.currentSize = start.currentSize - (p.stats.recordEvictionFailure e).bytesFreed
          rw [same]
          exact accounts.current
      | ok result =>
        obtain ⟨measured, decrease⟩ := (removal_attempt attempt).physicalSum accounts.measured
        obtain ⟨store, -, freed, current⟩ := record_ok p result s'
        have bytes : p.store.index.physicalSum - s'.index.physicalSum = freedOf (.ok result) := by
          rw [decrease]
          cases result <;> rfl
        have before := accounts.freed
        have size := accounts.current
        -- what is freed is a part of the size at the start
        have small := begins.small
        have nonneg := physicalSum_nonneg measured.sized
        have freed := freed (by omega)
        constructor
        · rw [store]
          exact measured
        · rw [store, freed, Nat.cast_add]
          omega
        · rw [current, freed, size]
          omega

/-- **The account holds all along a walk without failures.** -/
theorem accounts_applyEviction (unstopped : ∀ k, walk.stop k = false)
    (measured : start.store.index.Measured) (fresh : start.stats.bytesFreed = 0)
    (visited : List String) (clean : (applyEviction walk visited start).stats.entriesFailed = 0) :
    Accounts start (applyEviction walk visited start) := by
  induction visited using List.reverseRecOn with
  | nil =>
    refine ⟨measured, ?_, ?_⟩
    · show (start.stats.bytesFreed : ℤ) =
        start.store.index.physicalSum - start.store.index.physicalSum
      rw [fresh, sub_self]
      rfl
    · show start.currentSize = start.currentSize - start.stats.bytesFreed
      rw [fresh, Nat.sub_zero]
  | append_singleton visited key ih =>
    have before := ih (Nat.le_zero.mp (clean ▸ entriesFailed_mono unstopped visited [key] start))
    rw [applyEviction_concat unstopped] at clean ⊢
    split at clean
    · next ended =>
      rw [if_pos ended]
      exact before
    · next open_ =>
      rw [if_neg open_]
      refine before.visit measured fun attempted e s' attempt => ?_
      -- a removal that failed would have been counted
      obtain ⟨result, s'', ok, -⟩ := attempt_ok attempted clean
      rw [ok] at attempt
      cases attempt

/-- The running size is what is left over the bytes held, where it is over the target. -/
theorem Accounts.over_target (accounts : Accounts start p) {sizeBefore held : ℕ}
    (size : start.store.index.physicalSum = sizeBefore)
    (budget : start.currentSize = sizeBefore - held) :
    target < p.currentSize ↔ (target : ℤ) < p.store.index.physicalSum - held := by
  have freed := accounts.freed
  have current := accounts.current
  omega

/-- **A removal happens over the target.** -/
theorem over_target_of_removed (unstopped : ∀ k, walk.stop k = false)
    (bounded : walk.target = some target) {visited : List String}
    (before : ((applyEviction walk visited start).store.index.entries.get key).isSome)
    (after : (applyEviction walk (visited ++ [key]) start).store.index.entries.get key = none) :
    target < (applyEviction walk visited start).currentSize := by
  by_contra reached
  rw [applyEviction_of_reached unstopped bounded (not_lt.mp reached)] at after
  rw [after] at before
  cases before

/-- Why an entry is still there when the walk has come to its end over the target. -/
theorem spared_of_remains (unstopped : ∀ k, walk.stop k = false)
    (bounded : walk.target = some target) {order : List String} (distinct : order.Nodup)
    (clean : (applyEviction walk order start).stats.entriesFailed = 0)
    (exceeds : target < (applyEviction walk order start).currentSize) (mem : key ∈ order)
    (remains : ((applyEviction walk order start).store.index.entries.get key).isSome) :
    walk.Spares key ∨ ∃ visited rest, order = visited ++ key :: rest ∧
      ((walk.moments key).recentlyAccessed key = true ∨
        (walk.attempt key (applyEviction walk visited start).store).1 = .ok .unreclaimable) := by
  obtain ⟨visited, rest, rfl⟩ := List.append_of_mem mem
  have split_ : visited ++ key :: rest = (visited ++ [key]) ++ rest := by simp
  have apart := (List.nodup_append.mp distinct).2.1
  have freshAfter : key ∉ rest := (List.nodup_cons.mp apart).1
  by_cases spared : walk.Spares key
  · exact .inl spared
  refine .inr ⟨visited, rest, rfl, ?_⟩
  -- the walk had not come to its end before the key
  have open_ : target < (applyEviction walk visited start).currentSize := by
    by_contra reached
    have stays := applyEviction_of_reached unstopped bounded (not_lt.mp reached) (key :: rest)
    rw [stays] at exceeds
    exact reached exceeds
  have step := applyEviction_concat unstopped visited key start
  rw [if_neg fun ended => absurd ((ends_iff unstopped bounded).mp ended) (not_le.mpr open_)] at step
  rw [split_] at clean remains
  have cleanStep :=
    Nat.le_zero.mp (clean ▸ entriesFailed_mono unstopped (visited ++ [key]) rest start)
  rw [entries_applyEviction unstopped _ rest (.inl freshAfter), step] at remains
  rw [step] at cleanStep
  obtain ⟨result, s', attempt, visit⟩ := attempt_ok spared cleanStep
  rw [visit, (record_ok _ result s').1] at remains
  rw [attempt]
  cases removal_attempt attempt with
  | absent absent =>
    rw [absent] at remains
    cases remains
  | recent _ recent => exact .inl recent
  | held => exact .inr rfl
  | done _ rows _ =>
    rw [entries_removeRows rows, if_pos rfl] at remains
    cases remains

end Run

end Walk

/-! ## The sweep -/

section Sweep

theorem physicalSize_eq_ok {size : ℕ} (read : physicalSize idx = .ok size) :
    idx.physicalSum < 2 ^ 63 ∧ size = asU64 idx.physicalSum := by
  unfold physicalSize at read
  split at read
  · next range =>
    cases read
    simp only [sumsUp, Bool.and_eq_true, decide_eq_true_eq] at range
    exact ⟨range.2, rfl⟩
  · cases read

/-- Where the sizes add up the physical size is their sum. -/
theorem asU64_physicalSum (measured : idx.Measured) :
    (asU64 idx.physicalSum : ℤ) = idx.physicalSum := by
  have nonneg := physicalSum_nonneg measured.sized
  have small := measured.small
  rw [asU64, Int.emod_eq_of_lt nonneg (by omega), Int.toNat_of_nonneg nonneg]

/-- Where no size is negative the physical size is their sum. -/
theorem physicalSize_eq (sized : idx.Sized) {size : ℕ} (read : physicalSize idx = .ok size) :
    idx.Measured ∧ idx.physicalSum = size := by
  obtain ⟨small, rfl⟩ := physicalSize_eq_ok read
  have measured : idx.Measured := ⟨sized, small⟩
  exact ⟨measured, (asU64_physicalSum measured).symm⟩

/-- What a sweep protects from itself: what backs an upload, and what was accessed or delivered
lately when the candidates were read. -/
def Setting.Protects {τ : Type*} (setting : Setting τ) (origin : SweepOrigin)
    (durable : List String) (idx : Index) (key : String) : Prop :=
  key ∈ durable ∨ ∃ row, idx.entries.get key = some row ∧
    (setting.observed.recentlyAccessed key = true ∨
      recentlyImported origin setting.observed.now row.importedAt = true)

/-- The walk of a sweep spares what is protected and what is held. -/
theorem spares_walk {τ : Type*} (setting : Setting τ) {origin : SweepOrigin} {target : Option ℕ}
    {key : String} :
    (setting.walk origin true target durable idx).Spares key ↔
      setting.Protects origin durable idx key ∨
        (heldByLiveFiles setting.gcEvictShared idx setting.retained key).isSome = true := by
  have reasons : (setting.walk origin true target durable idx).Spares key ↔ key ∈ durable ∨
      ((idx.entries.get key).map (entryFeatures setting.observed origin idx key)).any
        (·.recentlyAccessed) = true ∨
      ((idx.entries.get key).map (entryFeatures setting.observed origin idx key)).any
        (·.recentlyImported) = true ∨
      (heldByLiveFiles setting.gcEvictShared idx setting.retained key).isSome = true :=
    ⟨fun spares => spares.reason, fun reason => ⟨reason⟩⟩
  rw [reasons, Setting.Protects]
  cases idx.entries.get key with
  | none => simp
  | some row => simp [entryFeatures, or_assoc]

/-- The sweep of `evict_for` after it has gone through the keys `visited` of its ranking. -/
def sweepAfter (setting : Setting Float) (origin : SweepOrigin) (durable : List String) (s : Store)
    (visited : List String) : Progress :=
  applyEviction (setting.unstopped.walk origin true (some (evictionTarget setting.maxSize)) durable
    s.index) visited (setting.unstopped.start true (asU64 s.index.physicalSum) s)

/-- The ranking of `evict_for`. -/
def sweepOrder (setting : Setting Float) (origin : SweepOrigin) (s : Store) (scan : Scan s.index) :
    List String :=
  sizePressureSelect (candidateRows setting.observed origin s.index scan)

variable {setting : Setting Float} {origin : SweepOrigin} {s s' : Store} {scan : Scan s.index}
  {stats : GcStats}

theorem sweepOrder_perm (setting : Setting Float) (origin : SweepOrigin) (s : Store)
    (scan : Scan s.index) : (sweepOrder setting origin s scan).Perm scan.rows := by
  have perm := sizePressureSelect_perm (candidateRows setting.observed origin s.index scan)
  rwa [map_key_candidateRows] at perm

theorem mem_sweepOrder {key : String} :
    key ∈ sweepOrder setting origin s scan ↔ (s.index.entries.get key).isSome :=
  (sweepOrder_perm setting origin s scan).mem_iff.trans scan.mem_rows

theorem nodup_sweepOrder : (sweepOrder setting origin s scan).Nodup :=
  (sweepOrder_perm setting origin s scan).nodup_iff.mpr scan.nodup

/-- A sweep gets to its measurement: the store can be written, is over the trigger and not empty,
and the upload spool can be read. -/
structure Setting.Sweeps {τ : Type*} (setting : Setting τ) (idx : Index) : Prop where
  writable : setting.readOnly = false
  fires : ∃ size, physicalSize idx = .ok size ∧ overEvictionTrigger size setting.maxSize = true
  nonempty : idx.entries.keys.Nonempty
  spool : ∃ durable, setting.durableUploadKeys = .ok durable

/-- What a sweep has counted, after the walk `swept`. -/
structure Counted (setting : Setting Float) (idx : Index) (swept : Progress) (stats : GcStats) :
    Prop where
  freed : stats.bytesFreed = swept.stats.bytesFreed
  evicted : stats.entriesEvicted = swept.stats.entriesEvicted
  failed : stats.entriesFailed = swept.stats.entriesFailed
  held : stats.bytesHeld = bytesHeld setting.gcEvictShared idx setting.retained

/-- **What a sweep can do**: nothing, or the walk over its ranking. -/
inductive Sweep (setting : Setting Float) (origin : SweepOrigin) (s : Store) (scan : Scan s.index) :
    Except SweepError GcStats → Store → Prop
  | failed (e : SweepError) : Sweep setting origin s scan (.error e) s
  | quiet {size : ℕ} (read : physicalSize s.index = .ok size)
      (under : overEvictionTrigger size setting.maxSize = false) :
      Sweep setting origin s scan (.ok {}) s
  | empty (read : s.index.physicalSum < 2 ^ 63) (none : sweepOrder setting origin s scan = []) :
      Sweep setting origin s scan (.ok {}) s
  | swept {durable : List String} {stats : GcStats} (sweeps : setting.Sweeps s.index)
      (spool : setting.durableUploadKeys = .ok durable)
      (counted : Counted setting s.index
        (sweepAfter setting origin durable s (sweepOrder setting origin s scan)) stats) :
      Sweep setting origin s scan (.ok stats)
        (sweepAfter setting origin durable s (sweepOrder setting origin s scan)).store

/-- A sweep over the limit does return, if the candidates and the spool can be read. -/
theorem evictFor_fires (setting : Setting Float) (origin : SweepOrigin) {s : Store}
    (scan : Scan s.index) (writable : setting.readOnly = false) (size : ℕ)
    (read : physicalSize s.index = .ok size)
    (exceeds : overEvictionTrigger size setting.maxSize = true)
    (candidates : evictionCandidatesFor setting.observed origin s.index scan =
      .ok (candidateRows setting.observed origin s.index scan))
    (spool : setting.durableUploadKeys = .ok durable)
    (nonempty : sweepOrder setting origin s scan ≠ []) :
    let swept := sweepAfter setting origin durable s (sweepOrder setting origin s scan)
    ∃ stats, evictFor setting origin s scan = (.ok stats, swept.store) ∧
      Counted setting s.index swept stats := by
  have spool' : setting.unstopped.durableUploadKeys = .ok durable := spool
  have candidates' : evictionCandidatesFor setting.unstopped.observed origin s.index scan =
      .ok (candidateRows setting.observed origin s.index scan) := candidates
  have nonempty' : sizePressureSelect (candidateRows setting.observed origin s.index scan) ≠ [] :=
    nonempty
  intro swept
  unfold evictFor
  rw [writable, if_neg (by decide), read]
  dsimp only
  rw [exceeds, if_pos rfl, evictWithStop, candidates']
  dsimp only
  rw [if_neg nonempty', spool']
  obtain ⟨-, rfl⟩ := physicalSize_eq_ok read
  exact ⟨_, rfl, rfl, rfl, rfl, rfl⟩

/-- `evict_for` is such a sweep. -/
theorem sweep_evictFor (setting : Setting Float) (origin : SweepOrigin) {s : Store}
    (scan : Scan s.index) :
    Sweep setting origin s scan (evictFor setting origin s scan).1
      (evictFor setting origin s scan).2 := by
  cases writable : setting.readOnly with
  | true =>
    rw [evictFor, writable]
    exact .failed _
  | false =>
  cases read : physicalSize s.index with
  | error e =>
    rw [evictFor, writable, read]
    exact .failed _
  | ok size =>
  cases exceeds : overEvictionTrigger size setting.maxSize with
  | false =>
    rw [evictFor, writable, read]
    dsimp only
    rw [exceeds]
    exact .quiet read exceeds
  | true =>
  have called : evictFor setting origin s scan = evictWithStop setting.unstopped sizePressureSelect
      (some (size, evictionTarget setting.maxSize)) true origin s scan := by
    rw [evictFor, writable, read]
    dsimp only
    rw [exceeds]
    rfl
  rcases evictionCandidatesFor_cases setting.unstopped.observed origin scan with
    candidates | refused
  · by_cases none : sizePressureSelect
        (candidateRows setting.unstopped.observed origin s.index scan) = []
    · rw [called, evictWithStop, candidates]
      dsimp only
      rw [if_pos none]
      exact .empty (physicalSize_eq_ok read).1 none
    · cases spool : setting.durableUploadKeys with
      | error e =>
        have spool' : setting.unstopped.durableUploadKeys = .error e := spool
        rw [called, evictWithStop, candidates]
        dsimp only
        rw [if_neg none, spool']
        exact .failed _
      | ok durable =>
        obtain ⟨stats, returned, counted⟩ :=
          evictFor_fires setting origin scan writable size read exceeds candidates spool none
        rw [returned]
        refine .swept ⟨writable, ⟨size, read, exceeds⟩, ?_, durable, spool⟩ spool counted
        obtain ⟨key, mem⟩ := List.exists_mem_of_ne_nil _ none
        exact ⟨key, (Table.mem_keys _ _).mpr (mem_sweepOrder.mp mem)⟩
  · rw [called, evictWithStop, refused]
    exact .failed _

/-- A sweep does not fire up to the limit. -/
theorem evictFor_of_le (sized : s.index.Sized) (le : s.index.physicalSum ≤ setting.maxSize) :
    (evictFor setting origin s scan).2 = s := by
  have sweep := sweep_evictFor setting origin scan
  generalize evictFor setting origin s scan = outcome at sweep ⊢
  obtain ⟨result, s'⟩ := outcome
  cases sweep with
  | failed | quiet | empty => rfl
  | swept sweeps =>
    obtain ⟨size, read, fires⟩ := sweeps.fires
    have sum := (physicalSize_eq sized read).2
    have exceeds : setting.maxSize < size := of_decide_eq_true fires
    omega

/-- **A sweep over the limit that returns is the walk over its ranking**, in a store whose sizes add
up. -/
theorem evictFor_eq_ok (sized : s.index.Sized)
    (exceeds : (setting.maxSize : ℤ) < s.index.physicalSum)
    (spool : setting.durableUploadKeys = .ok durable)
    (returned : evictFor setting origin s scan = (.ok stats, s')) :
    let swept := sweepAfter setting origin durable s (sweepOrder setting origin s scan)
    s.index.Measured ∧ s' = swept.store ∧ stats.bytesFreed = swept.stats.bytesFreed ∧
      stats.entriesFailed = swept.stats.entriesFailed ∧
      (sweepOrder setting origin s scan ≠ [] →
        stats.bytesHeld = bytesHeld setting.gcEvictShared s.index setting.retained) := by
  have sweep := sweep_evictFor setting origin scan
  rw [returned] at sweep
  cases sweep with
  | @quiet size read under =>
    have sum := (physicalSize_eq sized read).2
    have le : ¬ setting.maxSize < size := of_decide_eq_false under
    omega
  | empty small none =>
    rw [none]
    exact ⟨⟨sized, small⟩, rfl, rfl, rfl, fun some => absurd rfl some⟩
  | swept sweeps spool' counted =>
    cases spool.symm.trans spool'
    obtain ⟨size, read, -⟩ := sweeps.fires
    exact ⟨(physicalSize_eq sized read).1, rfl, counted.freed, counted.failed,
      fun _ => counted.held⟩

/-- **Size sweep budget and protection.**  `evict_for` does nothing up to the limit.  Over the
limit, where no attempted removal fails, it frees what the physical size loses, removes an entry
only while the physical size without the bytes held at the start is over the target, keeps what it
protects and what is held, and if it ends over the target, it has left an entry for one of these
reasons. -/
theorem size_sweep_budget_and_protection (setting : Setting Float)
    (origin : SweepOrigin) (s : Store) (scan : Scan s.index) (sized : s.index.Sized) :
    (s.index.physicalSum ≤ setting.maxSize → (evictFor setting origin s scan).2 = s) ∧
    ∀ stats s' durable, evictFor setting origin s scan = (.ok stats, s') → stats.entriesFailed = 0 →
      (setting.maxSize : ℤ) < s.index.physicalSum → setting.durableUploadKeys = .ok durable →
      (sweepOrder setting origin s scan).Perm scan.rows ∧
      s' = (sweepAfter setting origin durable s (sweepOrder setting origin s scan)).store ∧
      (stats.bytesFreed : ℤ) = s.index.physicalSum - s'.index.physicalSum ∧
      (∀ visited key rest, sweepOrder setting origin s scan = visited ++ key :: rest →
        ((sweepAfter setting origin durable s visited).store.index.entries.get key).isSome →
        (sweepAfter setting origin durable s (visited ++ [key])).store.index.entries.get key =
          none →
        (evictionTarget setting.maxSize : ℤ) <
          (sweepAfter setting origin durable s visited).store.index.physicalSum - stats.bytesHeld) ∧
      (∀ key, setting.Protects origin durable s.index key ∨
          (heldByLiveFiles setting.gcEvictShared s.index setting.retained key).isSome = true →
        s'.index.entries.get key = s.index.entries.get key) ∧
      ((evictionTarget setting.maxSize : ℤ) < s'.index.physicalSum - stats.bytesHeld →
        ∀ key, (s'.index.entries.get key).isSome →
          setting.Protects origin durable s.index key ∨
          (heldByLiveFiles setting.gcEvictShared s.index setting.retained key).isSome = true ∨
          ∃ visited rest, sweepOrder setting origin s scan = visited ++ key :: rest ∧
            ((setting.moments key).recentlyAccessed key = true ∨
              (removeEntryGuarded setting.gcEvictShared true (setting.moments key) key
                (sweepAfter setting origin durable s visited).store).1 = .ok .unreclaimable)) := by
  refine ⟨evictFor_of_le sized, ?_⟩
  intro stats s' durable returned clean exceeds spool
  obtain ⟨measured, store, freed, failed, held⟩ := evictFor_eq_ok sized exceeds spool returned
  let walk := setting.unstopped.walk origin true
    (some (evictionTarget setting.maxSize)) durable s.index
  let start := setting.unstopped.start true (asU64 s.index.physicalSum) s
  have unstopped : ∀ k, walk.stop k = false := fun _ => rfl
  have bounded : walk.target = some (evictionTarget setting.maxSize) := rfl
  have cleanWalk :
      (applyEviction walk (sweepOrder setting origin s scan) start).stats.entriesFailed = 0 :=
    failed.symm.trans clean
  have accounts : ∀ visited rest, sweepOrder setting origin s scan = visited ++ rest →
      Accounts start (applyEviction walk visited start) := by
    intro visited rest order
    refine accounts_applyEviction unstopped measured rfl visited (Nat.le_zero.mp ?_)
    have mono := entriesFailed_mono unstopped visited rest start
    rwa [← order, cleanWalk] at mono
  have whole := accounts _ [] (List.append_nil _).symm
  have size : start.store.index.physicalSum = (asU64 s.index.physicalSum : ℕ) :=
    (asU64_physicalSum measured).symm
  have budget : start.currentSize =
      asU64 s.index.physicalSum - bytesHeld setting.gcEvictShared s.index setting.retained := rfl
  have spares : ∀ {key}, walk.Spares key ↔ setting.Protects origin durable s.index key ∨
      (heldByLiveFiles setting.gcEvictShared s.index setting.retained key).isSome = true :=
    spares_walk setting.unstopped
  refine ⟨sweepOrder_perm setting origin s scan, store, ?_, ?_, ?_, ?_⟩
  · rw [freed, store]
    exact whole.freed
  · intro visited key rest order before after
    have nonempty : sweepOrder setting origin s scan ≠ [] := by simp [order]
    rw [held nonempty]
    exact ((accounts visited (key :: rest) order).over_target size budget).mp
      (over_target_of_removed unstopped bounded before after)
  · intro key reason
    rw [store]
    exact entries_applyEviction unstopped [] _ (.inr (spares.mpr reason)) start
  · intro above key remains
    rw [store] at remains above
    have mem : key ∈ sweepOrder setting origin s scan := by
      refine mem_sweepOrder.mpr ?_
      by_contra absent
      have fresh : key ∉ sweepOrder setting origin s scan := fun mem =>
        absent (mem_sweepOrder.mp mem)
      have same : (applyEviction walk
          (sweepOrder setting origin s scan) start).store.index.entries.get
          key = s.index.entries.get key :=
        entries_applyEviction unstopped [] _ (.inl fresh) start
      exact absent (same ▸ remains)
    rw [held (List.ne_nil_of_mem mem)] at above
    rcases spared_of_remains unstopped bounded nodup_sweepOrder cleanWalk
      ((whole.over_target size budget).mpr above) mem remains with spared | refused
    · exact (spares.mp spared).imp_right .inl
    · exact .inr (.inr refused)

end Sweep

/-- A sweep with nothing outside of the store, but for the files that retain blobs. -/
def Setting.plain (maxSize : ℕ) (retained : String → Bool) : Setting Float where
  readOnly := false
  maxSize := maxSize
  gcEvictShared := false
  uploadSpoolMaxJobs := 100
  spool := .ok []
  observed := ⟨0, fun _ => 0, fun _ => 0, fun _ => false⟩
  retained := retained
  stop := fun _ => false
  moments := fun _ => { Moment.quiet with retained := retained }

/-- A target directory links one blob. -/
def linked (hash : String) : Bool := hash = "target"

/-- An entry of 10 bytes that is linked, and one of 100 bytes. -/
def heldStore : Store :=
  publish "b" [⟨"b", 100, "other", false⟩]
    (publish "a" [⟨"a", 10, "target", false⟩] ⟨.empty, .empty⟩)

/-- The scan of its rows. -/
def heldScan : Scan heldStore.index := ⟨["a", "b"], by decide +kernel⟩

theorem sized_heldStore : heldStore.index.Sized :=
  sized_publish "b" (by decide +kernel)
    (sized_publish "a" (by decide +kernel) fun _ _ row => nomatch row)

/-- With a limit of 55 bytes the sweep ranks both entries in some order, and takes the one that is
not linked. -/
theorem evictFor_heldStore :
    let setting := Setting.plain 55 linked
    ∃ stats visited rest,
      sweepOrder setting .requested heldStore heldScan = visited ++ "b" :: rest ∧
      ((sweepAfter setting .requested [] heldStore visited).store.index.entries.get "b").isSome ∧
      (sweepAfter setting .requested [] heldStore (visited ++ ["b"])).store.index.entries.get "b" =
        none ∧
      evictFor setting .requested heldStore heldScan = (.ok stats,
        (sweepAfter setting .requested [] heldStore (visited ++ "b" :: rest)).store) ∧
      (sweepAfter setting .requested [] heldStore (visited ++ "b" :: rest)).store.index.entries.get
        "b" = none ∧
      stats.entriesFailed = 0 ∧ stats.bytesFreed = 100 ∧ stats.bytesHeld = 10 := by
  intro setting
  have every : ∀ order ∈ (["a", "b"] : List String).permutations',
      order = order.takeWhile (· ≠ "b") ++ "b" :: (order.dropWhile (· ≠ "b")).tail ∧
      ((sweepAfter setting .requested [] heldStore
        (order.takeWhile (· ≠ "b"))).store.index.entries.get "b").isSome = true ∧
      (sweepAfter setting .requested [] heldStore
        (order.takeWhile (· ≠ "b") ++ ["b"])).store.index.entries.get "b" = none ∧
      (sweepAfter setting .requested [] heldStore order).store.index.entries.get "b" = none ∧
      (sweepAfter setting .requested [] heldStore order).stats.entriesFailed = 0 ∧
      (sweepAfter setting .requested [] heldStore order).stats.bytesFreed = 100 := by
    decide +kernel
  have perm := sweepOrder_perm setting .requested heldStore heldScan
  obtain ⟨split_, present, absent, gone, clean, freed⟩ := every _ (List.mem_permutations'.mpr perm)
  have nonempty : sweepOrder setting .requested heldStore heldScan ≠ [] :=
    List.ne_nil_of_mem (perm.mem_iff.mpr (by decide : "b" ∈ ["a", "b"]))
  obtain ⟨stats, returned, counted⟩ := evictFor_fires setting .requested heldScan rfl 110
    (by decide +kernel) (by decide) (if_pos (by decide +kernel)) rfl nonempty
  refine ⟨stats, _, _, split_, present, absent, ?_, ?_, counted.failed.trans clean,
    counted.freed.trans freed, counted.held.trans (by decide +kernel)⟩
  · rw [← split_]
    exact returned
  · rw [← split_]
    exact gone

/-- Its 100 bytes are freed while 110 bytes less the 10 held ones are over the target, and the
linked entry stays. -/
theorem size_sweep_of_a_held_entry :
    ∃ stats s', evictFor (.plain 55 linked) .requested heldStore heldScan = (.ok stats, s') ∧
      (stats.bytesFreed : ℤ) = heldStore.index.physicalSum - s'.index.physicalSum ∧
      s'.index.entries.get "a" = heldStore.index.entries.get "a" ∧ s'.index.entries.get "b" = none ∧
      ∃ visited rest, sweepOrder (.plain 55 linked) .requested heldStore heldScan =
          visited ++ "b" :: rest ∧
        (evictionTarget 55 : ℤ) <
          (sweepAfter (.plain 55 linked) .requested [] heldStore visited).store.index.physicalSum -
            stats.bytesHeld := by
  obtain ⟨stats, visited, rest, order, present, absent, returned, gone, clean, -, -⟩ :=
    evictFor_heldStore
  have exceeds : (55 : ℤ) < heldStore.index.physicalSum := by decide +kernel
  obtain ⟨-, -, account, budget, kept, -⟩ := (size_sweep_budget_and_protection (.plain 55 linked)
    .requested heldStore heldScan sized_heldStore).2 stats _ [] returned clean exceeds rfl
  exact ⟨stats, _, returned, account, kept "a" (.inr (by decide +kernel)), gone,
    visited, rest, order, budget visited "b" rest order present absent⟩

/-- A row whose size is negative in the table: the entry goes, nothing is freed, and the physical
size, read as a `u64`, falls from `2^63` to zero. -/
theorem negative_size_is_not_freed :
    ∃ stats s', evictFor (.plain 5 fun _ => false) .requested
        (publishedOnce [⟨"a", 2 ^ 63, "blob", false⟩]) (publishedScan _) = (.ok stats, s') ∧
      stats.entriesFailed = 0 ∧ stats.entriesEvicted = 1 ∧ stats.bytesFreed = 0 ∧
      physicalSize (publishedOnce [⟨"a", 2 ^ 63, "blob", false⟩]).index = .ok (2 ^ 63) ∧
      physicalSize s'.index = .ok 0 := by
  let files : List CachedFile := [⟨"a", 2 ^ 63, "blob", false⟩]
  have order : sweepOrder (.plain 5 fun _ => false) .requested (publishedOnce files)
      (publishedScan files) = ["key"] := List.perm_singleton.mp (sweepOrder_perm _ _ _ _)
  obtain ⟨stats, returned, counted⟩ := evictFor_fires (.plain 5 fun _ => false) .requested
    (publishedScan files) rfl (2 ^ 63) (by decide +kernel) (by decide +kernel)
    (if_pos (by decide +kernel)) rfl (by rw [order]; decide)
  rw [order] at returned counted
  exact ⟨stats, _, returned, counted.failed.trans (by decide +kernel),
    counted.evicted.trans (by decide +kernel), counted.freed.trans (by decide +kernel),
    by decide +kernel, by decide +kernel⟩

end Kache.Eviction
