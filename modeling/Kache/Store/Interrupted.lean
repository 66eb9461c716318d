import Kache.Store.Conservation

/-!
# A put that is interrupted

`meta.json` is replaced inside the registration transaction but before its
commit.  A failure rolls the rows back and leaves the file, so a put of a key
that is already committed can end with the new `meta.json` next to the old rows.
The damage shows one operation later: `remove_entry` gives back the references
the new `meta.json` lists, while the floor that guards against over-release
only looks at what the key is *mapped* to.

`interrupted_put_harmless_iff` says exactly when an interrupted put leaves the
pairing intact, and with it every blob of another entry safe from the removal:
the transaction stopped before the replacement, or a rematerialization failed
before it, or the two file lists name the same hashes.
-/

namespace Kache

namespace Store

/-- **Paired stores.**  Every committed entry is mapped to the hashes its
`meta.json` lists, and a mapping row stands for at least one reference. -/
structure AllPaired (s : Store) : Prop where
  paired : ∀ key, s.index.isCommitted key = true → s.Paired key
  positive : ∀ p n, s.index.entryBlobs.get p = some n → 0 < n

/-- Removing `key` is harmless to other entries: of a blob that another
committed entry maps, the file and the row stay, and the count loses no more
than the references `key` itself is recorded to hold. -/
def RemovalHarmless (key : String) (s : Store) : Prop :=
  ∀ other h, other ≠ key → s.index.isCommitted other = true →
    (s.index.entryBlobs.get (other, h)).isSome →
      (removeEntry key s).disk.blobs h = s.disk.blobs h ∧
        ∀ row, s.index.blobs.get h = some row → ∃ row',
          (removeEntry key s).index.blobs.get h = some row' ∧
            row.refcount - s.index.refs key h ≤ row'.refcount

theorem Sound.allPaired {s : Store} (sound : s.Sound .exact) : s.AllPaired :=
  ⟨fun key committed => sound.paired_of_exact ((sound.isCommitted_iff key).mp committed),
    sound.counted.positive⟩

end Store

/-! ## Giving references back without counting on exact counts -/

variable {h : String} {idx : Index}

namespace Index

/-- One release hands at most its own hash to the unlink list. -/
theorem notMem_releaseBlobRef {hash : String} (hne : h ≠ hash) (idx : Index) :
    h ∉ (releaseBlobRef hash idx).2.toList.map Prod.fst := by
  simp only [releaseBlobRef]
  split
  · split <;> simp [hne]
  · simp

/-- A hash that is not released keeps its row and is not unlinked. -/
theorem releaseBlobRefs_of_notMem {hashes : List String} (notMem : h ∉ hashes) (idx : Index) :
    (releaseBlobRefs hashes idx).1.blobs.get h = idx.blobs.get h ∧
      h ∉ (releaseBlobRefs hashes idx).2.map Prod.fst := by
  induction hashes generalizing idx with
  | nil => simp [releaseBlobRefs]
  | cons hash rest ih =>
    obtain ⟨hne, hrest⟩ := not_or.mp (List.mem_cons.not.mp notMem)
    obtain ⟨hrow, hunlink⟩ := ih hrest (releaseBlobRef hash idx).1
    refine ⟨?_, ?_⟩
    · rw [releaseBlobRefs, hrow, blobs_releaseBlobRef, if_neg hne]
    · rw [releaseBlobRefs, List.map_append, List.mem_append, not_or]
      exact ⟨notMem_releaseBlobRef hne idx, hunlink⟩

/-- The row of a hash after one reference was given back, when more remain. -/
theorem releaseBlobRef_of_lt {hash : String} {row : BlobRow} (hrow : idx.blobs.get hash = some row)
    (more : 1 < row.refcount) :
    (releaseBlobRef hash idx).1.blobs.get hash
        = some { row with refcount := row.refcount - 1 } ∧
      (releaseBlobRef hash idx).2 = none := by
  have hpos : ¬ row.refcount - 1 ≤ 0 := by omega
  simp [releaseBlobRef, hrow, hpos]

/-- **A hash with more references than are released** keeps its row, loses
exactly those, and is not unlinked. -/
theorem releaseBlobRefs_of_lt (hashes : List String) {row : BlobRow}
    (hrow : idx.blobs.get h = some row) (more : (hashes.count h : ℤ) < row.refcount) :
    (releaseBlobRefs hashes idx).1.blobs.get h
        = some { row with refcount := row.refcount - hashes.count h } ∧
      h ∉ (releaseBlobRefs hashes idx).2.map Prod.fst := by
  induction hashes generalizing idx row with
  | nil => simpa [releaseBlobRefs] using hrow
  | cons hash rest ih =>
    by_cases hh : hash = h
    · subst hh
      rw [List.count_cons_self] at more ⊢
      obtain ⟨hafter, hnone⟩ := releaseBlobRef_of_lt hrow (by omega)
      obtain ⟨hrest, hunlink⟩ := ih hafter (by push_cast at more; simp only; omega)
      refine ⟨?_, by rwa [releaseBlobRefs, hnone, Option.toList_none, List.nil_append]⟩
      rw [releaseBlobRefs, hrest]
      simp only [Option.some.injEq, BlobRow.mk.injEq, true_and]
      push_cast
      omega
    · rw [List.count_cons_of_ne hh] at more ⊢
      have hkeep : (releaseBlobRef hash idx).1.blobs.get h = some row := by
        rw [blobs_releaseBlobRef, if_neg (Ne.symm hh), hrow]
      obtain ⟨hrest, hunlink⟩ := ih hkeep more
      refine ⟨hrest, ?_⟩
      rw [releaseBlobRefs, List.map_append, List.mem_append, not_or]
      exact ⟨notMem_releaseBlobRef (Ne.symm hh) idx, hunlink⟩

/-- A hash without a row is not unlinked. -/
theorem releaseBlobRefs_of_none {hashes : List String} (hnone : idx.blobs.get h = none) :
    h ∉ (releaseBlobRefs hashes idx).2.map Prod.fst := by
  induction hashes generalizing idx with
  | nil => simp [releaseBlobRefs]
  | cons hash rest ih =>
    have hkeep : (releaseBlobRef hash idx).1.blobs.get h = none := by
      rw [blobs_releaseBlobRef]
      by_cases hh : h = hash
      · rw [if_pos hh, ← hh, hnone]
        rfl
      · rw [if_neg hh, hnone]
    rw [releaseBlobRefs, List.map_append, List.mem_append, not_or]
    refine ⟨?_, ih hkeep⟩
    by_cases hh : h = hash
    · subst hh
      simp [releaseBlobRef, hnone]
    · exact notMem_releaseBlobRef hh idx

end Index

/-! ## Removal from a paired store -/

namespace Store

variable {s : Store} {key : String}

/-- A removal that finds its row and its `meta.json`. -/
theorem removeEntry_of_present {m : EntryMeta} (row : (s.index.entries.get key).isSome)
    (parses : s.disk.meta? key = some m) :
    removeEntry key s =
      ⟨(Index.unregisterRefs key m.files (Index.deleteEntry key s.index)).1,
        removeCleanup key (Index.unregisterRefs key m.files (Index.deleteEntry key s.index)).2
          ⟨(Index.unregisterRefs key m.files (Index.deleteEntry key s.index)).1, s.disk⟩⟩ := by
  obtain ⟨text, htext, hparsed⟩ := Option.bind_eq_some_iff.mp parses
  have hrows : removeRows key text m s
      = some (Index.unregisterRefs key m.files (Index.deleteEntry key s.index)) := by
    rw [removeRows, if_neg (by simpa [Option.isSome_iff_ne_none] using row),
      if_neg (by simp [htext])]
  simp only [removeEntry, htext, hparsed, hrows]

/-- A cleanup leaves a blob that is not on its unlink list. -/
theorem blobs_removeCleanup_of_notMem {unlink : List (String × ℤ)}
    (notMem : h ∉ unlink.map Prod.fst) : (removeCleanup key unlink s).blobs h = s.disk.blobs h := by
  rw [removeCleanup, blobs_unlinkUnreferenced, if_neg fun both => notMem both.1]
  split <;> rfl

/-- What `key` and another entry hold on a blob is part of the aggregate. -/
theorem AllPaired.refs_add_le (paired : s.AllPaired) {other : String} (hne : other ≠ key)
    (h : String) : s.index.refs key h + s.index.refs other h ≤ s.index.mappedRefs h := by
  have hpositive : ∀ p n, (Index.deleteMapping key s.index).entryBlobs.get p = some n → 0 < n := by
    rintro ⟨k, h'⟩ n hrow
    rw [Index.entryBlobs_deleteMapping] at hrow
    split at hrow
    · simp at hrow
    · exact paired.positive _ n hrow
  have hle := Index.refs_le_mappedRefs hpositive other h
  rw [Index.mappedRefs_deleteMapping, Index.refs, Index.entryBlobs_deleteMapping, if_neg hne,
    ← Index.refs] at hle
  omega

/-- **In a paired store a removal is harmless**, whatever the counts are: the
floor raises every count the removal touches above what it gives back. -/
theorem AllPaired.removalHarmless (paired : s.AllPaired)
    (committed : s.index.isCommitted key = true) : RemovalHarmless key s := by
  obtain ⟨m, parses, hmaps⟩ := paired.paired key committed
  intro other h hne _ mapped
  rw [removeEntry_of_present (Index.isSome_of_isCommitted committed) parses]
  set idx₀ := Index.deleteMapping key
    (Index.floorBlobRefsAtMappings key (Index.deleteEntry key s.index)) with hidx₀
  have hcount : ((m.files.map (·.hash)).count h : ℤ) = s.index.refs key h := by
    rw [hmaps.refs_eq, hashesOf, Multiset.coe_count]
  have hfloor : idx₀.blobs.get h
      = if (s.index.entryBlobs.get (key, h)).isSome then
          (s.index.blobs.get h).map fun row =>
            { row with refcount := max row.refcount (s.index.mappedRefs h) }
        else s.index.blobs.get h := rfl
  have hother : 0 < s.index.refs other h := by
    obtain ⟨n, hn⟩ := Option.isSome_iff_exists.mp mapped
    simpa [Index.refs, hn] using paired.positive _ n hn
  have hsum := paired.refs_add_le hne h
  change (removeCleanup key (Index.releaseBlobRefs (m.files.map (·.hash)) idx₀).2 _).blobs h = _ ∧
    ∀ row, _ → ∃ row', (Index.releaseBlobRefs (m.files.map (·.hash)) idx₀).1.blobs.get h = _ ∧ _
  by_cases own : (s.index.entryBlobs.get (key, h)).isSome
  · -- the floor lifts the count to both entries' references, and one entry's are given back
    rw [if_pos own] at hfloor
    cases hrow : s.index.blobs.get h with
    | none =>
      rw [hrow, Option.map_none] at hfloor
      exact ⟨blobs_removeCleanup_of_notMem (Index.releaseBlobRefs_of_none hfloor), by simp⟩
    | some row =>
      rw [hrow, Option.map_some] at hfloor
      have hmax := le_max_right row.refcount (s.index.mappedRefs h)
      have hrelease := Index.releaseBlobRefs_of_lt (m.files.map (·.hash)) hfloor
        (by simp only [hcount]; omega)
      refine ⟨blobs_removeCleanup_of_notMem hrelease.2, fun row₀ hrow₀ => ?_⟩
      cases hrow₀
      refine ⟨_, hrelease.1, ?_⟩
      have hmax' := le_max_left row.refcount (s.index.mappedRefs h)
      simp only [hcount]
      omega
  · -- `key` has no reference on `h`, so its `meta.json` does not list it
    rw [if_neg own] at hfloor
    have notMem : h ∉ m.files.map (·.hash) := by
      rw [hmaps.isSome_iff] at own
      exact own
    obtain ⟨hkeep, hunlink⟩ := Index.releaseBlobRefs_of_notMem notMem idx₀
    refine ⟨blobs_removeCleanup_of_notMem hunlink, fun row hrow => ⟨row, ?_, ?_⟩⟩
    · rw [hkeep, hfloor, hrow]
    · have hnone : s.index.refs key h = 0 := by
        rw [Index.refs, Option.not_isSome_iff_eq_none.mp own, Option.getD_none]
      omega

end Store

/-! ## What an interrupted put leaves on disk -/

/-- The number of statements of a registration up to and including the one that
replaces `meta.json`. -/
def metaWritten (m : EntryMeta) : ℕ := 2 * m.files.length + 4

theorem length_referenceFiles (materialize : ℕ → CachedFile → Stmt Index Disk)
    (files : List CachedFile) : (referenceFiles materialize files).length = 2 * files.length := by
  induction files generalizing materialize with
  | nil => rfl
  | cons file rest ih =>
    rw [referenceFiles, List.length_cons, List.length_cons, ih, List.length_cons]
    omega

/-- The statements before the replacement leave every `meta.json` alone. -/
theorem texts_referenceFiles {materialize : ℕ → CachedFile → Stmt Index Disk}
    (spec : ∀ i f, Materializes ∅ f.hash (materialize i f)) {files : List CachedFile}
    {stmt : Stmt Index Disk} (mem : stmt ∈ referenceFiles materialize files) (idx : Index)
    (disk : Disk) : (stmt idx disk).files.metaText? = disk.metaText? := by
  induction files generalizing materialize with
  | nil => simp [referenceFiles] at mem
  | cons file rest ih =>
    simp only [referenceFiles, List.mem_cons] at mem
    rcases mem with rfl | rfl | mem
    · rfl
    · exact funext ((spec 0 file).grows idx disk).metaText?
    · exact ih (fun i => spec (i + 1)) mem

/-- Stopped before the replacement, a registration has touched no `meta.json`. -/
theorem metaText?_interrupted_early (env : Env) (key : String) (m : EntryMeta)
    (live : ℕ → Option Bytes) {n : ℕ} (early : n < metaWritten m) (s : Store) :
    (s.interrupted n (putScript env key m live)).disk.metaText? = s.disk.metaText? := by
  have hspec : ∀ i (f : CachedFile),
      Materializes ∅ f.hash (rematerializeAndVerify env f.hash (live i)) :=
    fun i f => rematerializeAndVerify_materializes env f.hash (live i)
  have hlen : (takeAndRematerialize env m.files live).length = 2 * m.files.length :=
    length_referenceFiles _ _
  have hscript : putScript env key m live
      = (.sql (Index.releaseEntryBlobRefs key) :: takeAndRematerialize env m.files live)
        ++ publishEntry env key m := rfl
  refine Stmt.exec_files_of_forall (P := fun d : Disk => d.metaText? = s.disk.metaText?) ?_ _ rfl
  intro stmt mem idx disk same
  rw [hscript, List.take_append, List.mem_append] at mem
  rcases mem with mem | mem
  · -- the release of the old references, or a statement of the loop
    rcases List.mem_cons.mp (List.mem_of_mem_take mem) with rfl | mem
    · exact same
    · exact (texts_referenceFiles hspec mem idx disk).trans same
  · -- of the publication at most the row and the directory are within reach
    have hle : n - (.sql (Index.releaseEntryBlobRefs key) ::
        takeAndRematerialize env m.files live).length ≤ 2 := by
      rw [List.length_cons, hlen]
      rw [metaWritten] at early
      omega
    have hprefix : stmt ∈ (publishEntry env key m).take 2 := (List.take_subset_take_left _ hle) mem
    simp only [publishEntry, List.take_succ_cons, List.take_zero, List.mem_cons,
      List.not_mem_nil, or_false] at hprefix
    rcases hprefix with rfl | rfl
    · exact same
    · exact (Disk.metaText?_createDir key disk).trans same

/-- Stopped after the replacement, a registration has written `meta.json` if its
loop got through. -/
theorem metaText?_interrupted_late (env : Env) (key : String) (m : EntryMeta)
    (live : ℕ → Option Bytes) {n : ℕ} (reached : metaWritten m ≤ n) (s : Store) (k : String) :
    (s.interrupted n (putScript env key m live)).disk.metaText? k
      = if k = key ∧
            sourcesFaithful env (fun h => (s.disk.blobs h).isSome) m.files live = true then
          some (.written env m)
        else s.disk.metaText? k := by
  set loop := takeAndRematerialize env m.files live with hloop
  have hlen : loop.length = 2 * m.files.length := length_referenceFiles _ _
  rw [metaWritten] at reached
  obtain ⟨j, hj⟩ : ∃ j, n - (loop.length + 1) = j + 3 :=
    ⟨n - (loop.length + 1) - 3, by omega⟩
  have htake : (putScript env key m live).take n
      = .sql (Index.releaseEntryBlobRefs key) ::
        (loop ++ (publishEntry env key m).take (j + 3)) := by
    change ((.sql (Index.releaseEntryBlobRefs key) :: loop) ++ publishEntry env key m).take n = _
    rw [List.take_append, List.take_of_length_le, List.length_cons, hj, List.cons_append]
    rw [List.length_cons]
    omega
  change (Stmt.exec ((putScript env key m live).take n) s.index s.disk).files.metaText? k = _
  rw [htake, Stmt.exec_sql_cons, Stmt.exec_append]
  have hok := takeAndRematerialize_isOk env m.files live (Index.releaseEntryBlobRefs key s.index)
    s.disk
  have hgrows := takeAndRematerialize_grows env m.files live
    (Index.releaseEntryBlobRefs key s.index) s.disk
  rw [← hloop] at hok hgrows
  cases hexec : Stmt.exec loop (Index.releaseEntryBlobRefs key s.index) s.disk with
  | failed disk =>
    rw [hexec] at hok hgrows
    rw [Outcome.files_failed] at hgrows
    rw [Outcome.andThen_failed, Outcome.files_failed, hgrows.metaText?, if_neg]
    rintro ⟨-, faithful⟩
    rw [← hok] at faithful
    cases faithful
  | ok idx disk =>
    rw [hexec] at hok hgrows
    rw [Outcome.files_ok] at hgrows
    -- whether the commit was reached makes no difference to the files
    have hfiles : (Stmt.exec ((publishEntry env key m).take (j + 3)) idx disk).files
        = Disk.replaceMeta key (.written env m) (Disk.createDir key disk) := by
      cases j with
      | zero => rfl
      | succ j =>
        rw [List.take_of_length_le (by simp [publishEntry])]
        rfl
    rw [Outcome.andThen_ok, hfiles, metaText?_after_put, hgrows.metaText?, ← hok]
    by_cases hk : k = key <;> simp [hk, Outcome.isOk]

/-- **What an interruption leaves.**  The index is the old one.  `meta.json` is
the new one exactly when the transaction got past its replacement. -/
theorem metaText?_interrupted (env : Env) (key : String) (m : EntryMeta) (live : ℕ → Option Bytes)
    (n : ℕ) (s : Store) (k : String) :
    (s.interrupted n (putScript env key m live)).disk.metaText? k
      = if k = key ∧ metaWritten m ≤ n ∧
            sourcesFaithful env (fun h => (s.disk.blobs h).isSome) m.files live = true then
          some (.written env m)
        else s.disk.metaText? k := by
  by_cases reached : metaWritten m ≤ n
  · rw [metaText?_interrupted_late env key m live reached]
    simp [reached]
  · rw [metaText?_interrupted_early env key m live (not_le.mp reached),
      if_neg fun h => reached h.2.1]

/-- **When an interrupted put is harmless.**  Take any paired store, any committed
`key` and any metadata `m` to register for it.  The pairing survives the
interruption after `n` statements, and a later removal of `key` harms no other
entry, exactly when the transaction stopped before `meta.json` was replaced, or
could not rematerialize a blob before that, or `m` lists the hashes the old
`meta.json` lists. -/
theorem interrupted_put_harmless_iff {env : Env} {key : String} {m old : EntryMeta}
    {live : ℕ → Option Bytes} {n : ℕ} {s : Store} (paired : s.AllPaired)
    (committed : s.index.isCommitted key = true) (current : s.disk.meta? key = some old) :
    ((s.interrupted n (putScript env key m live)).AllPaired ∧
        Store.RemovalHarmless key (s.interrupted n (putScript env key m live))) ↔
      n < metaWritten m ∨
        sourcesFaithful env (fun h => (s.disk.blobs h).isSome) m.files live = false ∨
        hashesOf m.files = hashesOf old.files := by
  set after := s.interrupted n (putScript env key m live) with hafter
  have hindex : after.index = s.index := rfl
  have htext := metaText?_interrupted env key m live n s
  rw [← hafter] at htext
  have hold : s.index.Maps key (hashesOf old.files) := by
    obtain ⟨m', hmeta, hmaps⟩ := paired.paired key committed
    rw [current] at hmeta
    cases hmeta
    exact hmaps
  constructor
  · -- with another list written, the row of `key` would be paired with both lists
    rintro ⟨survived, -⟩
    by_contra hcond
    simp only [not_or, not_lt, Bool.not_eq_false] at hcond
    obtain ⟨reached, faithful, hne⟩ := hcond
    obtain ⟨m', hmeta, hmaps⟩ := survived.paired key (hindex ▸ committed)
    have hnew : after.disk.meta? key = some m := by
      have hwritten := htext key
      rw [if_pos ⟨rfl, reached, faithful⟩] at hwritten
      exact Disk.meta?_eq_of_text hwritten rfl
    rw [hnew] at hmeta
    cases hmeta
    exact hne (Index.Maps.unique hmaps hold)
  · intro hcond
    have survived : after.AllPaired := by
      refine ⟨fun k hk => ?_, paired.positive⟩
      obtain ⟨m', hmeta, hmaps⟩ := paired.paired k (hindex ▸ hk)
      by_cases hnew : k = key ∧ metaWritten m ≤ n ∧
          sourcesFaithful env (fun h => (s.disk.blobs h).isSome) m.files live = true
      · obtain ⟨rfl, reached, faithful⟩ := hnew
        have hsame : hashesOf m.files = hashesOf old.files := by
          rcases hcond with early | unfaithful | hsame
          · omega
          · rw [faithful] at unfaithful
            cases unfaithful
          · exact hsame
        have hwritten := htext k
        rw [if_pos ⟨rfl, reached, faithful⟩] at hwritten
        refine ⟨m, Disk.meta?_eq_of_text hwritten rfl, ?_⟩
        rw [hsame]
        exact hold
      · refine ⟨m', ?_, hmaps⟩
        have hsame := htext k
        rw [if_neg hnew] at hsame
        rw [Disk.meta?_congr hsame, hmeta]
    exact ⟨survived, survived.removalHarmless (hindex ▸ committed)⟩

/-! ## Two entries, and a put that dies before its commit -/

/-- A store with the entries `sampleKey₁`, listing `a`, and `sampleKey₂`, listing `b`. -/
def twoEntries : Store :=
  (putEntry sampleEnv (sampleRequest sampleKey₂ [sampleOutput "b" [98]]) (fun _ => none)
    (putEntry sampleEnv (sampleRequest sampleKey₁ [sampleOutput "a" [97]]) (fun _ => none)
      Store.empty).1).1

theorem twoEntries_sound : twoEntries.Sound .exact :=
  ((Store.sound_empty .empty).putEntry _ _ _).putEntry _ _ _

/-- The metadata a put of the output `b` under `sampleKey₁` registers. -/
def republishedMeta : EntryMeta :=
  putMeta sampleEnv (sampleRequest sampleKey₁ [sampleOutput "b" [98]]) [⟨"b", 1, digestB, false⟩]

/-- **The pairing does not survive, and a blob is lost.**  The put of `b` under
the first key dies between the replacement of `meta.json` and the commit.  The
key is then mapped to `a` and lists `b`; removing it deletes the row and the
file of `b`, which the second key is mapped to. -/
theorem interrupted_put_loses_blob :
    ∃ s : Store, s.AllPaired ∧ s.index.isCommitted sampleKey₁ = true ∧
      s.index.isCommitted sampleKey₂ = true ∧ s.index.Maps sampleKey₂ {digestB} ∧
      let after := s.interrupted 6 (putScript sampleEnv sampleKey₁ republishedMeta fun _ => none)
      ¬ after.AllPaired ∧ ¬ Store.RemovalHarmless sampleKey₁ after ∧
        (removeEntry sampleKey₁ after).index.isCommitted sampleKey₂ = true ∧
        (removeEntry sampleKey₁ after).index.blobs.get digestB = none ∧
        (removeEntry sampleKey₁ after).disk.blobs digestB = none := by
  have hpaired := twoEntries_sound.allPaired
  have hmaps : twoEntries.index.Maps sampleKey₂ {digestB} := by
    obtain ⟨m, hmeta, hmaps⟩ := hpaired.paired sampleKey₂ (by decide +kernel)
    have hfiles : (twoEntries.disk.meta? sampleKey₂).map (fun m => m.files.map (·.hash))
        = some [digestB] := by decide +kernel
    rw [hmeta, Option.map_some, Option.some.injEq] at hfiles
    rwa [hashesOf, hfiles] at hmaps
  refine ⟨twoEntries, hpaired, by decide +kernel, by decide +kernel, hmaps, ?_⟩
  intro after
  have hlost : (removeEntry sampleKey₁ after).disk.blobs digestB = none := by decide +kernel
  have hharm : ¬ Store.RemovalHarmless sampleKey₁ after := by
    intro harmless
    have hkept := (harmless sampleKey₂ digestB (by decide) (by decide +kernel)
      (by decide +kernel)).1
    rw [hlost] at hkept
    exact absurd hkept (by decide +kernel)
  exact ⟨fun survived => hharm (survived.removalHarmless (by decide +kernel)), hharm,
    by decide +kernel, by decide +kernel, hlost⟩

/-- The same put, stopped one statement earlier, is harmless. -/
theorem interrupted_put_harmless_early :
    twoEntries.index.isCommitted sampleKey₁ = true ∧
      (twoEntries.interrupted 5
        (putScript sampleEnv sampleKey₁ republishedMeta fun _ => none)).AllPaired ∧
      Store.RemovalHarmless sampleKey₁ (twoEntries.interrupted 5
        (putScript sampleEnv sampleKey₁ republishedMeta fun _ => none)) := by
  have hcommitted : twoEntries.index.isCommitted sampleKey₁ = true := by decide +kernel
  obtain ⟨old, hold, -⟩ := twoEntries_sound.allPaired.paired sampleKey₁ hcommitted
  exact ⟨hcommitted,
    (interrupted_put_harmless_iff twoEntries_sound.allPaired hcommitted hold).mpr
      (.inl (by decide))⟩

end Kache
