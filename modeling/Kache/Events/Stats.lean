import Kache.Foundation.PathBuf
import Kache.Foundation.Run
import Mathlib.Algebra.BigOperators.Group.List.Basic
import Mathlib.Algebra.Group.Nat.Defs
import Mathlib.Algebra.Group.Pi.Basic
import Mathlib.Algebra.GroupWithZero.Nat
import Mathlib.Data.List.Sort
import Mathlib.Data.Prod.Lex
import Mathlib.Data.String.Basic

/-!
# Statistics of a window of events

The events that rotations took out of the log are kept in archived segments, whose names say when
their oldest and newest events happened.  The statistics of a window are those of the segments it
reaches and of the log (`readEventsSince`).  For segments wholly inside the window they are kept
(`State.memo`), so that these are not read again (`eventStatsSince`).

A total depends on which events are counted and not on their order, so all there is to know of a
kept total is the set of segments it is of (`Entry.Valid`).  It counts them also when they cannot be
read any more.
-/

namespace Kache.Events

open UnixPath

/-! ## Counting -/

inductive EventResult where
  | localHit | prefetchHit | remoteHit | dup | miss | error | passthrough | skipped
  deriving DecidableEq

/-- The fields of an event that are summed as they are. -/
inductive Field where
  | size | elapsedMs | keyMs | lookupMs | restoreMs | storeMs | startupMs | depInfoMs | depInfoRuns
  | predictionMismatches | flightWaitMs | permitWaitMs | storeOutputBlobs | storeDuplicateBlobs
  | storeNewBlobs | reflinkedBytes | hardlinkedBytes | copiedBytes | storeReflinkedBytes
  | storeHardlinkedBytes | storeCopiedBytes | storeCopyCrossDeviceBytes | storeCopyPermissionBytes
  | storeCopyIneligibleBytes | storeCopyOtherBytes | restoreCopyCrossDeviceBytes
  | restoreCopyPermissionBytes | restoreCopyExclusiveBytes | restoreCopyOtherBytes

/-- `BuildEvent`, as far as it is counted; `ts` in nanoseconds since 1970. -/
structure BuildEvent where
  ts : ℤ
  result : EventResult
  compileTimeMs : ℕ
  storeError : String
  field : Field → ℕ

/-- The fields of `EventStats`; the counter of a summed field is named after it. -/
inductive Counter where
  | localHits | prefetchHits | remoteHits | dups | misses | errors | hitElapsedMs | missElapsedMs
  | hitCompileTimeMs | missCompileTimeMs | totalUnattributedMs | storeFailures
  | total (field : Field)

abbrev EventStats := Counter → ℕ

namespace BuildEvent

variable (event : BuildEvent)

/-- `is_hit`. -/
def isHit : Bool := event.result ∈ [.localHit, .prefetchHit, .remoteHit]

/-- The compiler ran. -/
def compiled : Bool := event.result ∈ [.dup, .miss]

/-- The outcomes that are not counted. -/
def ignored : Bool := event.result ∈ [.passthrough, .skipped]

/-- `overhead_ms`. -/
def overheadMs : ℕ :=
  if event.isHit then event.field .elapsedMs else event.field .elapsedMs - event.compileTimeMs

/-- `attributed_ms`, with `wait_ms`. -/
def attributedMs : ℕ :=
  event.field .startupMs + event.field .keyMs + event.field .lookupMs +
    (event.field .flightWaitMs + event.field .permitWaitMs) + event.field .restoreMs +
    event.field .storeMs

/-- `unattributed_ms`. -/
def unattributedMs : ℕ := event.overheadMs - event.attributedMs

/-- What the loop of `compute_stats_onto` adds to each counter for an event. -/
def added : EventStats
  | .localHits => if event.result = .localHit then 1 else 0
  | .prefetchHits => if event.result = .prefetchHit then 1 else 0
  | .remoteHits => if event.result = .remoteHit then 1 else 0
  | .dups => if event.result = .dup then 1 else 0
  | .misses => if event.result = .miss then 1 else 0
  | .errors => if event.result = .error then 1 else 0
  | .hitElapsedMs => if event.isHit then event.field .elapsedMs else 0
  | .hitCompileTimeMs => if event.isHit then event.compileTimeMs else 0
  | .missElapsedMs => if event.compiled then event.field .elapsedMs else 0
  | .missCompileTimeMs =>
    if event.compiled then if 0 < event.compileTimeMs then event.compileTimeMs else
      event.field .elapsedMs else 0
  | .storeFailures => if event.compiled ∧ event.storeError ≠ "" then 1 else 0
  | .totalUnattributedMs => if event.ignored then 0 else event.unattributedMs
  | .total field => if event.ignored then 0 else event.field field

end BuildEvent

/-- `compute_stats_onto`. -/
def computeStatsOnto (stats : EventStats) (events : List BuildEvent) : EventStats :=
  events.foldl (fun stats event => stats + event.added) stats

/-- `compute_stats`. -/
def computeStats (events : List BuildEvent) : EventStats := computeStatsOnto 0 events

/-! ## The archive -/

/-- `str::parse::<i64>` of a text without a minus sign. -/
def parseI64 (text : List Char) : Option ℤ :=
  let digits := if text.head? = some '+' then text.tail else text
  let value := Nat.ofDigitChars 10 digits 0
  if digits ≠ [] ∧ digits.all Char.isDigit ∧ value < 2 ^ 63 then some value else none

/-- `archive_segment_span`: the newest and the oldest second that a name tells. -/
def archiveSegmentSpan (name : String) : Option (ℤ × ℤ) :=
  let ending := ".jsonl.zst".toList
  if ending.isSuffixOf name.toList then
    match (name.toList.take (name.toList.length - ending.length)).splitOnP (· = '-') with
    | newest :: oldest :: _ => do return (← parseI64 newest, ← parseI64 oldest)
    | _ => none
  else none

/-- `ArchiveSegment`; its path is that of its name in the archive's directory. -/
structure ArchiveSegment where
  newest : ℤ
  oldest : ℤ
  name : String

/-- `event_archive_dir`. -/
def eventArchiveDir (log : OsStr) : OsStr :=
  push (if (fileName log).isSome then (parent log).getD log else log)
    ((fileName log).getD [] ++ utf8 ".archive")

/-- What calls find: the files of each archive, which of them can be read, and the events of each
log. -/
structure Disk where
  names : OsStr → List String
  distinct : ∀ dir, (names dir).Nodup
  readable : OsStr → String → Bool
  readEvents : OsStr → Except String (List BuildEvent)

/-- `DateTime::timestamp`. -/
def timestamp (ts : ℤ) : ℤ := ts / 1000000000

def segmentOf (name : String) : Option ArchiveSegment :=
  (archiveSegmentSpan name).map fun (newest, oldest) => ⟨newest, oldest, name⟩

/-- `archive_segments`. -/
def archiveSegments (disk : Disk) (log : OsStr) : List ArchiveSegment :=
  ((disk.names (eventArchiveDir log)).filterMap segmentOf).insertionSort fun a b =>
    toLex (a.newest, toLex (a.oldest, a.name)) ≤ toLex (b.newest, toLex (b.oldest, b.name))

/-- `archive_segments_since`. -/
def archiveSegmentsSince (disk : Disk) (log : OsStr) (since : ℤ) : List ArchiveSegment :=
  (archiveSegments disk log).filter fun segment => timestamp since ≤ segment.newest

/-- The segments that are wholly inside the window. -/
def insideSegments (disk : Disk) (log : OsStr) (since : ℤ) : List ArchiveSegment :=
  (archiveSegmentsSince disk log since).filter fun segment => timestamp since < segment.oldest

/-- The segments the window may start in. -/
def edgeSegments (disk : Disk) (log : OsStr) (since : ℤ) : List ArchiveSegment :=
  (archiveSegmentsSince disk log since).filter fun segment => ¬ timestamp since < segment.oldest

variable (content : OsStr → String → List BuildEvent)

/-- `read_segment`, to its end or to an error.  The content of a segment never changes. -/
def readSegment (disk : Disk) (dir : OsStr) (name : String) : Option (List BuildEvent) :=
  if disk.readable dir name then some (content dir name) else none

/-- `read_events_since`. -/
def readEventsSince (disk : Disk) (log : OsStr) (since : ℤ) : Except String (List BuildEvent) := do
  let events := (archiveSegmentsSince disk log since).flatMap fun segment =>
    ((readSegment content disk (eventArchiveDir log) segment.name).getD []).filter (since ≤ ·.ts)
  let all ← disk.readEvents log
  return events ++ all.filter (since ≤ ·.ts)

/-- `segment_stats_onto`. -/
def segmentStatsOnto (disk : Disk) (stats : EventStats) (dir : OsStr) (name : String)
    (since : Option ℤ) : Option EventStats :=
  (readSegment content disk dir name).map fun events =>
    computeStatsOnto stats (events.filter fun event => since.all (· ≤ event.ts))

/-! ## The memo -/

/-- A window of `InsideStatsMemo`: a directory, the names of its segments and their total. -/
structure Entry where
  dir : OsStr
  names : List String
  stats : EventStats

/-- `EVENT_STATS_MEMO_WINDOWS`. -/
def eventStatsMemoWindows : ℕ := 4

/-- `Iterator::max_by_key` on the number of names: the last of the largest. -/
def largest : List Entry → Option Entry
  | [] => none
  | entry :: rest =>
    match largest rest with
    | none => some entry
    | some other => if other.names.length < entry.names.length then some entry else some other

/-- The loop of `inside_segments_stats`, for one segment. -/
def addSegment (disk : Disk) (window : Entry) (segment : ArchiveSegment) : Entry :=
  if segment.name ∈ window.names then window
  else match segmentStatsOnto content disk window.stats window.dir segment.name none with
    | some updated => ⟨window.dir, window.names ++ [segment.name], updated⟩
    | none => window

/-- What `inside_segments_stats` starts from: the largest window of wanted segments. -/
def cachedSubset (memo : List Entry) (dir : OsStr) (inside : List ArchiveSegment) : Entry :=
  (largest (memo.filter fun entry => entry.dir = dir ∧ ∀ name ∈ entry.names,
    name ∈ inside.map (·.name))).getD ⟨dir, [], 0⟩

/-- `inside_segments_stats`: the window that is remembered. -/
def insideSegmentsStats (disk : Disk) (memo : List Entry) (dir : OsStr)
    (inside : List ArchiveSegment) : Entry :=
  let window := inside.foldl (addSegment content disk) (cachedSubset memo dir inside)
  ⟨dir, window.names.insertionSort (· ≤ ·), window.stats⟩

/-- `remember_stats`. -/
def rememberStats (memo : List Entry) (entry : Entry) : List Entry :=
  let kept := memo.filter (fun other => ¬ (other.dir = entry.dir ∧ other.names = entry.names)) ++
    [entry]
  if eventStatsMemoWindows < kept.length then kept.tail else kept

/-- `event_stats_since`, with the memo as it is when the call looks at it. -/
def eventStatsSince (disk : Disk) (memo : List Entry) (log : OsStr) (since : ℤ) :
    Except String EventStats := do
  let dir := eventArchiveDir log
  let inside := (insideSegmentsStats content disk memo dir (insideSegments disk log since)).stats
  let stats := (edgeSegments disk log since).foldl (fun stats segment =>
    (segmentStatsOnto content disk stats dir segment.name (some since)).getD stats) inside
  let all ← disk.readEvents log
  return computeStatsOnto stats (all.filter (since ≤ ·.ts))

/-- The memo, and the windows that calls have made but not yet remembered
(`memoized_inside_stats`). -/
structure State where
  memo : List Entry
  pending : List Entry

/-- A call reads the segments of its window, and remembers the total. -/
inductive Action where
  | start (disk : Disk) (log : OsStr) (since : ℤ)
  | finish (index : ℕ)

def step (s : State) : Action → Option State
  | .start disk log since => some { s with
      pending := s.pending ++ [insideSegmentsStats content disk s.memo (eventArchiveDir log)
        (insideSegments disk log since)] }
  | .finish index => s.pending[index]?.map fun entry =>
      ⟨rememberStats s.memo entry, s.pending.eraseIdx index⟩

/-! ## Totals -/

/-- The total of a list of events. -/
def total (events : List BuildEvent) : EventStats := (events.map BuildEvent.added).sum

theorem computeStatsOnto_eq (stats : EventStats) (events : List BuildEvent) :
    computeStatsOnto stats events = stats + total events := by
  induction events generalizing stats with
  | nil => exact (add_zero stats).symm
  | cons event events ih =>
    rw [total, List.map_cons, List.sum_cons, ← add_assoc]
    exact ih _

theorem total_append (a b : List BuildEvent) : total (a ++ b) = total a + total b := by
  rw [total, List.map_append, List.sum_append]
  rfl

theorem total_flatMap {α : Type} (f : α → List BuildEvent) (items : List α) :
    total (items.flatMap f) = (items.map fun item => total (f item)).sum := by
  induction items with
  | nil => rfl
  | cons item items ih => rw [List.flatMap_cons, total_append, ih, List.map_cons, List.sum_cons]

theorem sum_filter {α : Type} (p : α → Bool) (f : α → EventStats) (items : List α) :
    ((items.filter p).map f).sum = (items.map fun item => if p item then f item else 0).sum := by
  induction items with
  | nil => rfl
  | cons item items ih =>
    rw [List.map_cons, List.sum_cons, ← ih]
    by_cases kept : p item = true
    · rw [List.filter_cons_of_pos kept, if_pos kept, List.map_cons, List.sum_cons]
    · rw [List.filter_cons_of_neg kept, if_neg kept, zero_add]

/-! ## What a window of the memo is -/

variable {content}

/-- A window is the total of its segments, each of which some call has seen. -/
structure Entry.Valid (content : OsStr → String → List BuildEvent) (seen : OsStr → String → Prop)
    (entry : Entry) : Prop where
  distinct : entry.names.Nodup
  seen : ∀ name ∈ entry.names, seen entry.dir name
  stats : entry.stats = (entry.names.map fun name => total (content entry.dir name)).sum

variable {memo : List Entry} {segment : ArchiveSegment}

section Windows

variable {seen : OsStr → String → Prop} {disk : Disk} {dir : OsStr} {inside : List ArchiveSegment}

theorem mem_of_largest {entries : List Entry} {entry : Entry}
    (found : largest entries = some entry) : entry ∈ entries := by
  induction entries with
  | nil => cases found
  | cons first rest ih =>
    rw [largest] at found
    split at found
    · cases found
      exact List.mem_cons_self
    next other there =>
      split at found
      · cases found
        exact List.mem_cons_self
      · cases found
        exact List.mem_cons_of_mem first (ih there)

/-- The window a call starts from is one of segments it wants. -/
theorem cachedSubset_valid (dir : OsStr) (inside : List ArchiveSegment)
    (valid : ∀ entry ∈ memo, entry.Valid content seen) :
    (cachedSubset memo dir inside).Valid content seen ∧ (cachedSubset memo dir inside).dir = dir ∧
      ∀ name ∈ (cachedSubset memo dir inside).names, name ∈ inside.map (·.name) := by
  rw [cachedSubset]
  rcases found : largest _ with _ | entry
  · exact ⟨⟨List.nodup_nil, fun _ no => absurd no List.not_mem_nil, rfl⟩, rfl, fun _ no =>
      absurd no List.not_mem_nil⟩
  · obtain ⟨held, fits⟩ := List.mem_filter.mp (mem_of_largest found)
    obtain ⟨same, wanted⟩ := of_decide_eq_true fits
    exact ⟨valid entry held, same, wanted⟩

theorem addSegment_valid {window : Entry} (valid : window.Valid content seen)
    (reads : disk.readable window.dir segment.name = true → seen window.dir segment.name) :
    (addSegment content disk window segment).Valid content seen ∧
      (addSegment content disk window segment).dir = window.dir ∧
      ∀ name, name ∈ (addSegment content disk window segment).names ↔
        name ∈ window.names ∨ segment.name = name ∧ disk.readable window.dir name = true := by
  rw [addSegment]
  split
  next held =>
    exact ⟨valid, rfl, fun name => ⟨.inl, fun either => either.elim id fun new => new.1 ▸ held⟩⟩
  next new =>
    rw [segmentStatsOnto, readSegment]
    by_cases can : disk.readable window.dir segment.name = true
    · rw [if_pos can]
      refine ⟨⟨?_, ?_, ?_⟩, rfl, fun name => ?_⟩
      · exact List.nodup_append.mpr ⟨valid.distinct, List.nodup_singleton _,
          fun a old b last same =>
          new (List.mem_singleton.mp last ▸ same ▸ old)⟩
      · intro name mem
        rcases List.mem_append.mp mem with old | last
        · exact valid.seen name old
        · exact List.mem_singleton.mp last ▸ reads can
      · simp [computeStatsOnto_eq, valid.stats]
      · refine List.mem_append.trans (or_congr_right ?_)
        rw [List.mem_singleton]
        exact ⟨fun same => ⟨same.symm, same ▸ can⟩, fun both => both.1.symm⟩
    · rw [if_neg can]
      exact ⟨valid, rfl, fun name =>
        ⟨.inl, fun either => either.elim id fun wrong => absurd (wrong.1 ▸ wrong.2) can⟩⟩

/-- The loop adds the segments that can be read. -/
theorem foldl_addSegment_valid (reads : ∀ segment ∈ inside, disk.readable dir segment.name = true →
      seen dir segment.name) : ∀ {window : Entry}, window.Valid content seen → window.dir = dir →
    (inside.foldl (addSegment content disk) window).Valid content seen ∧
      (inside.foldl (addSegment content disk) window).dir = dir ∧
      ∀ name, name ∈ (inside.foldl (addSegment content disk) window).names ↔
        name ∈ window.names ∨ ∃ segment ∈ inside, segment.name = name ∧
          disk.readable dir name = true := by
  induction inside with
  | nil => exact fun valid same => ⟨valid, same, by simp⟩
  | cons segment rest ih =>
    obtain ⟨first, others⟩ := List.forall_mem_cons.mp reads
    rintro window valid rfl
    obtain ⟨one, same, mem⟩ := addSegment_valid valid first
    obtain ⟨made, dir, more⟩ := ih others one same
    refine ⟨made, dir, fun name => (more name).trans ?_⟩
    rw [mem, or_assoc]
    simp only [List.mem_cons, exists_eq_or_imp]

/-- What is remembered of a call. -/
theorem insideSegmentsStats_valid (valid : ∀ entry ∈ memo, entry.Valid content seen)
    (reads : ∀ segment ∈ inside, disk.readable dir segment.name = true → seen dir segment.name) :
    (insideSegmentsStats content disk memo dir inside).Valid content seen := by
  obtain ⟨start, same, -⟩ := cachedSubset_valid dir inside valid
  obtain ⟨⟨distinct, seen, stats⟩, same, -⟩ := foldl_addSegment_valid reads start same
  have sorted := List.perm_insertionSort (· ≤ ·)
    (inside.foldl (addSegment content disk) (cachedSubset memo dir inside)).names
  rw [same] at seen stats
  refine ⟨sorted.nodup_iff.mpr distinct, fun name mem => seen name (sorted.mem_iff.mp mem), ?_⟩
  exact stats.trans (sorted.map _).sum_eq.symm

end Windows

/-! ## Runs -/

/-- The names of segments tell when their oldest and newest events happened. -/
def Spanned (content : OsStr → String → List BuildEvent) : Prop :=
  ∀ dir name newest oldest, archiveSegmentSpan name = some (newest, oldest) →
    ∀ event ∈ content dir name, oldest ≤ timestamp event.ts ∧ timestamp event.ts ≤ newest

/-- What an earlier call could read, of the segments inside this window, can still be read. -/
def StaysReadable (disk : Disk) (log : OsStr) (since : ℤ) : Action → Prop
  | .start disk' log' since' => eventArchiveDir log' = eventArchiveDir log →
      ∀ segment ∈ insideSegments disk log since, segment ∈ insideSegments disk' log' since' →
        disk'.readable (eventArchiveDir log) segment.name = true →
        disk.readable (eventArchiveDir log) segment.name = true
  | .finish _ => True

/-- A segment that this call can read where it is inside the window. -/
def Usable (disk : Disk) (log : OsStr) (since : ℤ) (dir : OsStr) (name : String) : Prop :=
  dir = eventArchiveDir log →
    ∀ segment ∈ insideSegments disk log since, segment.name = name → disk.readable dir name = true

theorem mem_of_mem_rememberStats {entry other : Entry} (mem : other ∈ rememberStats memo entry) :
    other ∈ memo ∨ other = entry := by
  rw [rememberStats] at mem
  have kept : other ∈ memo.filter (fun other =>
      ¬ (other.dir = entry.dir ∧ other.names = entry.names)) ++ [entry] := by
    split at mem
    · exact List.mem_of_mem_tail mem
    · exact mem
  rw [List.mem_append, List.mem_singleton] at kept
  exact kept.imp_left fun old => (List.mem_filter.mp old).1

theorem mem_insideSegments {disk : Disk} {log : OsStr} {since : ℤ}
    (mem : segment ∈ insideSegments disk log since) :
    segmentOf segment.name = some segment ∧ timestamp since < segment.oldest := by
  obtain ⟨reached, inside⟩ := List.mem_filter.mp mem
  obtain ⟨name, -, made⟩ :=
    List.mem_filterMap.mp ((List.mem_insertionSort _).mp (List.mem_filter.mp reached).1)
  refine ⟨?_, of_decide_eq_true inside⟩
  obtain ⟨_, -, rfl⟩ := Option.map_eq_some_iff.mp (id made)
  exact made

/-- The names of the segments of an archive are distinct. -/
theorem nodup_archiveSegments (disk : Disk) (log : OsStr) :
    ((archiveSegments disk log).map (·.name)).Nodup := by
  have named : ∀ names : List String, ((names.filterMap segmentOf).map (·.name)).Sublist names := by
    intro names
    induction names with
    | nil => exact List.Sublist.refl []
    | cons name names ih =>
      rw [List.filterMap_cons]
      rcases made : segmentOf name with _ | segment
      · exact ih.cons name
      · obtain ⟨_, -, rfl⟩ := Option.map_eq_some_iff.mp made
        exact ih.cons_cons name
  refine ((List.perm_insertionSort _ _).map _).nodup_iff.mpr ?_
  exact (named _).nodup (disk.distinct _)

section Run

variable {disk : Disk} {log : OsStr} {since : ℤ} {s : State}

/-- Every window, remembered or not yet, is one of segments that can be read where this call wants
them: an earlier call of the directory read them, and they stay readable. -/
theorem valid_of_reaches (run : Reaches (fun _ action => StaysReadable disk log since action)
    (step content) ⟨[], []⟩ s) :
    ∀ entry ∈ s.memo ++ s.pending, entry.Valid content (Usable disk log since) := by
  apply run.invariant (I := fun s => ∀ entry ∈ s.memo ++ s.pending,
    entry.Valid content (Usable disk log since))
  · exact fun entry no => absurd no List.not_mem_nil
  intro s action s' valid readable taken
  rcases action with ⟨disk', log', since'⟩ | index
  · cases taken
    intro entry mem
    rw [← List.append_assoc, List.mem_append, List.mem_singleton] at mem
    rcases mem with old | rfl
    · exact valid entry old
    · refine insideSegmentsStats_valid (fun entry mem =>
        valid entry (List.mem_append_left _ mem)) ?_
      intro segment mem can same own here name
      have equal : own = segment := Option.some.inj
        ((mem_insideSegments here).1.symm.trans
          ((congrArg segmentOf name).trans (mem_insideSegments mem).1))
      rw [same] at can ⊢
      exact readable same segment (equal ▸ here) mem can
  · obtain ⟨entry, there, rfl⟩ := Option.map_eq_some_iff.mp taken
    intro other mem
    rcases List.mem_append.mp mem with kept | left
    · rcases mem_of_mem_rememberStats kept with old | rfl
      · exact valid other (List.mem_append_left _ old)
      · exact valid other (List.mem_append_right _ (List.mem_of_getElem? there))
    · exact valid other (List.mem_append_right _ (List.mem_of_mem_eraseIdx left))

/-- What a segment adds to the statistics of a window. -/
def reached (content : OsStr → String → List BuildEvent) (disk : Disk) (log : OsStr) (since : ℤ)
    (segment : ArchiveSegment) : EventStats :=
  total (((readSegment content disk (eventArchiveDir log) segment.name).getD []).filter
    (since ≤ ·.ts))

/-- The events of a segment inside the window are all in it. -/
theorem reached_inside (mem : segment ∈ insideSegments disk log since) (spans : Spanned content) :
    reached content disk log since segment =
      if disk.readable (eventArchiveDir log) segment.name then
        total (content (eventArchiveDir log) segment.name) else 0 := by
  obtain ⟨made, inside⟩ := mem_insideSegments mem
  obtain ⟨⟨newest, oldest⟩, span, same⟩ := Option.map_eq_some_iff.mp made
  rw [← congrArg ArchiveSegment.oldest same] at inside
  rw [reached, readSegment]
  split
  · refine congrArg total (List.filter_eq_self.mpr fun event there => decide_eq_true ?_)
    have bound := (spans _ _ _ _ span event there).1
    dsimp only [timestamp] at inside bound
    omega
  · rfl

/-- The segments inside the window are counted as they are read now. -/
theorem insideSegmentsStats_stats (spans : Spanned content)
    (run : Reaches (fun _ action => StaysReadable disk log since action)
      (step content) ⟨[], []⟩ s) :
    (insideSegmentsStats content disk s.memo (eventArchiveDir log)
        (insideSegments disk log since)).stats =
      ((insideSegments disk log since).map (reached content disk log since)).sum := by
  have valid := fun entry mem => valid_of_reaches run entry (List.mem_append_left _ mem)
  obtain ⟨start, same, wanted⟩ := cachedSubset_valid (eventArchiveDir log)
    (insideSegments disk log since) valid
  have readable := start.seen
  have reads : ∀ segment ∈ insideSegments disk log since,
      disk.readable (eventArchiveDir log) segment.name = true →
      Usable disk log since (eventArchiveDir log) segment.name := fun _ _ can _ _ _ _ => can
  obtain ⟨made, dir, mem⟩ := foldl_addSegment_valid reads start same
  have names : ((insideSegments disk log since).filter fun segment =>
      disk.readable (eventArchiveDir log) segment.name).map (·.name) |>.Nodup :=
    (nodup_archiveSegments disk log).sublist
      ((List.filter_sublist.trans (List.filter_sublist.trans List.filter_sublist)).map _)
  -- the names the total is of are those of the segments that can be read
  have listed := (List.perm_ext_iff_of_nodup made.distinct names).mpr fun name => by
    rw [mem, List.mem_map]
    constructor
    · rintro (held | ⟨segment, there, rfl, can⟩)
      · obtain ⟨segment, there, rfl⟩ := List.mem_map.mp (wanted name held)
        have can := readable _ held same segment there rfl
        exact ⟨segment, List.mem_filter.mpr ⟨there, same ▸ can⟩, rfl⟩
      · exact ⟨segment, List.mem_filter.mpr ⟨there, can⟩, rfl⟩
    · rintro ⟨segment, kept, rfl⟩
      exact .inr ⟨segment, (List.mem_filter.mp kept).1, rfl, (List.mem_filter.mp kept).2⟩
  calc (insideSegmentsStats content disk s.memo (eventArchiveDir log)
    (insideSegments disk log since)).stats
      = _ := made.stats
    _ = _ := (listed.map _).sum_eq
    _ = _ := by rw [dir, List.map_map, sum_filter]; rfl
    _ = _ := congrArg List.sum (List.map_congr_left fun segment mem =>
      (reached_inside mem spans).symm)

theorem foldl_edge (segments : List ArchiveSegment) : ∀ stats : EventStats,
    segments.foldl (fun stats segment =>
      (segmentStatsOnto content disk stats (eventArchiveDir log) segment.name (some since)).getD
        stats) stats =
      stats + (segments.map (reached content disk log since)).sum := by
  induction segments with
  | nil => exact fun stats => (add_zero stats).symm
  | cons segment segments ih =>
    intro stats
    have one : (segmentStatsOnto content disk stats (eventArchiveDir log) segment.name
        (some since)).getD stats = stats + reached content disk log since segment := by
      rw [segmentStatsOnto, reached]
      rcases readSegment content disk (eventArchiveDir log) segment.name with _ | events
      · exact (add_zero stats).symm
      · exact computeStatsOnto_eq stats _
    rw [List.foldl_cons, one, ih, List.map_cons, List.sum_cons, add_assoc]

/-- After any calls, the statistics of a window are those of the events that can be read, if the
segments inside it that an earlier call could read still can be. -/
theorem eventStatsSince_eq (spans : Spanned content)
    (run : Reaches (fun _ action => StaysReadable disk log since action)
      (step content) ⟨[], []⟩ s) :
    eventStatsSince content disk s.memo log since =
      (readEventsSince content disk log since).map computeStats := by
  have parts :=
    ((List.filter_append_perm (fun segment : ArchiveSegment =>
      decide (timestamp since < segment.oldest))
    (archiveSegmentsSince disk log since)).map (reached content disk log since)).sum_eq
  rw [List.map_append, List.sum_append] at parts
  rw [eventStatsSince, readEventsSince]
  rcases disk.readEvents log with fault | all
  · rfl
  · have both : (insideSegmentsStats content disk s.memo (eventArchiveDir log)
        (insideSegments disk log since)).stats +
        ((edgeSegments disk log since).map (reached content disk log since)).sum =
          ((archiveSegmentsSince disk log since).map (reached content disk log since)).sum := by
      rw [insideSegmentsStats_stats spans run, ← parts, insideSegments, edgeSegments]
      simp only [decide_not]
    refine congrArg Except.ok ?_
    rw [foldl_edge, both, computeStatsOnto_eq, computeStats, computeStatsOnto_eq, zero_add,
      total_append, total_flatMap]
    rfl

end Run

/-! ## A segment that cannot be read any more -/

/-- One miss in second 30, in an archived segment. -/
def oneMiss (_ : OsStr) (name : String) : List BuildEvent :=
  if name = "30-30-1-1.jsonl.zst" then [⟨30000000000, .miss, 0, "", fun _ => 0⟩] else []

theorem spanned_oneMiss : Spanned oneMiss := by
  intro dir name newest oldest span event mem
  rw [oneMiss] at mem
  split at mem
  next same =>
    subst same
    rw [List.mem_singleton.mp mem]
    have told : archiveSegmentSpan "30-30-1-1.jsonl.zst" = some (30, 30) := by decide +kernel
    cases told.symm.trans span
    decide
  next => exact absurd mem List.not_mem_nil

/-- An archive with that segment and an empty log. -/
def oneSegment (readable : Bool) : Disk :=
  ⟨fun _ => ["30-30-1-1.jsonl.zst"], fun _ => List.nodup_singleton _, fun _ _ =>
    readable, fun _ => .ok []⟩

/-- One call, on an archive that can be read. -/
theorem reaches_remembered {allowed : State → Action → Prop} (log : OsStr)
    (ok : allowed ⟨[], []⟩ (.start (oneSegment true) log 0))
    (finishes : ∀ s, allowed s (.finish 0)) :
    Reaches allowed (step oneMiss)
      ⟨[], []⟩ ⟨[insideSegmentsStats oneMiss (oneSegment true) [] (eventArchiveDir log)
      (insideSegments (oneSegment true) log 0)], []⟩ :=
  .tail (.tail .refl ok rfl) (finishes _) rfl

theorem eventStatsSince_eq_remembered :
    eventStatsSince oneMiss (oneSegment true) [insideSegmentsStats oneMiss (oneSegment true) []
      (eventArchiveDir (utf8 "/c/events.jsonl"))
        (insideSegments (oneSegment true) (utf8 "/c/events.jsonl") 0)]
      (utf8 "/c/events.jsonl") 0 =
    (readEventsSince oneMiss (oneSegment true) (utf8 "/c/events.jsonl") 0).map computeStats := by
  apply eventStatsSince_eq spanned_oneMiss (reaches_remembered _ _ fun _ => trivial)
  exact fun _ _ _ _ can => can

/-- The miss is counted by a call after which the segment cannot be read, and is no event that is
read. -/
theorem unreadable_still_counted : ∃ s, Reaches (fun _ _ => True) (step oneMiss) ⟨[], []⟩ s ∧
    Spanned oneMiss ∧ eventStatsSince oneMiss (oneSegment false) s.memo (utf8 "/c/events.jsonl") 0 ≠
      (readEventsSince oneMiss (oneSegment false) (utf8 "/c/events.jsonl") 0).map computeStats := by
  refine ⟨_, reaches_remembered (utf8 "/c/events.jsonl") trivial fun _ => trivial, spanned_oneMiss,
    fun same => ?_⟩
  have counted := congrArg (fun result => (result.toOption.map fun stats => stats .misses)) same
  revert counted
  decide +kernel

end Kache.Events
