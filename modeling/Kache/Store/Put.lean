import Kache.Store.Sound

/-!
# `put`

A put works in two phases.  Phase 1 stages each compiler output into a private
snapshot, hashes the snapshot and publishes it at its content address; no row is
written.  Phase 2 is one transaction that releases what the key held before,
takes a reference per file — publishing a blob *again* from the live compiler
output when a removal unlinked it in between — records the mapping, replaces
`meta.json` and writes the entry row.

Phase 2 is the script `putScript`, statement by statement as in the source, so
that a failure or a death at any point of it is `Stmt.interrupted`.  The live
contents of the sources are an argument (`live i` for the `i`-th file, `none`
when it cannot be read): they are read during phase 2 and may differ from what
phase 1 saw.

The specification of the whole script is `putScript_ok` and `putScript_failed`:
a put that commits performs `Index.registerRefs`, one that does not changes at
most blobs that were missing.
-/

namespace Kache

/-! ## Phase 1 -/

/-- `PublishRename`: how the rename onto a content address ended. -/
inductive PublishRename where
  | published
  | lostRace
  | deferred
  deriving DecidableEq, Repr

/-- A compiler output and what the file system answers when phase 1 asks. -/
structure Output where
  /-- The name the file is stored under. -/
  name : String
  /-- The exec bit of the source, `none` when it cannot be examined. -/
  executable : Option Bool
  /-- The staged snapshot, `none` when staging fails. -/
  staged : Option Bytes
  /-- The outcome of the publication rename, `none` for an error. -/
  rename : Option PublishRename

/-- The checks of phase 1 on one output, up to the digest of its snapshot. -/
def stageOutput (env : Env) (crateTypes : List String) (out : Output) :
    Option (CachedFile × Bytes) := do
  guard (isSafeStoredArtifactName out.name)
  let executable ← out.executable
  let bytes ← out.staged
  guard (bytes.length ≠ 0 ∨ env.allowEmpty out.name crateTypes)
  pure (⟨out.name, bytes.length, env.blake3 bytes, executable⟩, bytes)

/-- `publish_staged_blob`: put a snapshot at its address unless a blob is there.
`none` is an error; nothing was published then. -/
def publishStagedBlob (hash : String) (bytes : Bytes) (rename : Option PublishRename)
    (disk : Disk) : Option Disk :=
  if (disk.blobs hash).isSome then some disk
  else
    match rename with
    | some .published => some (disk.setBlob hash bytes)
    | some .lostRace | some .deferred => some disk
    | none => none

/-- Phase 1 for one output: the disk afterwards, and the file to list. -/
def publishOutput (env : Env) (crateTypes : List String) (out : Output) (disk : Disk) :
    Disk × Option CachedFile :=
  match stageOutput env crateTypes out with
  | none => (disk, none)
  | some (file, bytes) =>
    match publishStagedBlob file.hash bytes out.rename disk with
    | none => (disk, none)
    | some disk' => (disk', some file)

/-- Phase 1: output after output, up to the first error. -/
def publishOutputs (env : Env) (crateTypes : List String) :
    List Output → Disk → Disk × Option (List CachedFile)
  | [], disk => (disk, some [])
  | out :: rest, disk =>
    match publishOutput env crateTypes out disk with
    | (disk', none) => (disk', none)
    | (disk', some file) =>
      let after := publishOutputs env crateTypes rest disk'
      (after.1, after.2.map (file :: ·))

/-- What a caller asks `put` to store; `stdout` and `stderr` are the diagnostics
as they are recorded. -/
structure PutRequest where
  cacheKey : String
  crateName : String
  crateTypes : List String
  features : List String
  target : String
  profile : String
  outputs : List Output
  stdout : String
  stderr : String
  compileTimeMs : ℕ

/-- `emit_kinds_for_files`, sorted and without repetitions. -/
def emitKindsForFiles (env : Env) (files : List CachedFile) : List String :=
  ((files.filterMap fun f => env.emitKind f.name).insertionSort
    fun a b => (compare a b).isLE).destutter (· ≠ ·)

/-- The metadata a put writes for the files phase 1 published. -/
def putMeta (env : Env) (req : PutRequest) (files : List CachedFile) : EntryMeta where
  cacheKey := req.cacheKey
  keySchema := cacheKeyVersion
  crateName := req.crateName
  crateTypes := req.crateTypes
  files := files
  stdout := req.stdout
  stderr := req.stderr
  features := req.features
  target := req.target
  profile := req.profile
  compileTimeMs := req.compileTimeMs
  emitKinds := emitKindsForFiles env files

/-! ## Phase 2 -/

/-- `rematerialize_and_verify`: a blob that is there is adopted as it is; a
missing one is ingested from the live source and hashed afterwards.  On a
mismatch the transaction fails, with the ingested file in place. -/
def rematerializeAndVerify (env : Env) (hash : String) (live : Option Bytes) : Stmt Index Disk :=
  fun idx disk =>
    if (disk.blobs hash).isSome then .ok idx disk
    else
      match live with
      | none => .failed disk
      | some bytes =>
        if env.blake3 bytes = hash then .ok idx (disk.setBlob hash bytes)
        else .failed (disk.setBlob hash bytes)

/-- The per-file loop of phase 2. -/
def takeAndRematerialize (env : Env) (files : List CachedFile) (live : ℕ → Option Bytes) :
    List (Stmt Index Disk) :=
  referenceFiles (fun i file => rematerializeAndVerify env file.hash (live i)) files

/-- Phase 2 after the loop: mapping, directory, `meta.json`, row. -/
def publishEntry (env : Env) (key : String) (m : EntryMeta) : List (Stmt Index Disk) :=
  [.sql (Index.recordEntryBlobs key m.files),
    .file (Disk.createDir key),
    .file (Disk.replaceMeta key (.written env m)),
    .sql (Index.insertOrReplaceEntry key (entryRow env m true false none))]

/-- Phase 2 of a put of `key` with metadata `m`, one transaction. -/
def putScript (env : Env) (key : String) (m : EntryMeta) (live : ℕ → Option Bytes) :
    List (Stmt Index Disk) :=
  .sql (Index.releaseEntryBlobRefs key) ::
    (takeAndRematerialize env m.files live ++ publishEntry env key m)

/-- A put up to its commit: both phases, and whether phase 2 committed. -/
def putEntry (env : Env) (req : PutRequest) (live : ℕ → Option Bytes) (s : Store) :
    Store × Bool :=
  match publishOutputs env req.crateTypes req.outputs s.disk with
  | (disk, none) => (⟨s.index, disk⟩, false)
  | (disk, some files) =>
    let script := putScript env req.cacheKey (putMeta env req files) live
    (Store.commit script ⟨s.index, disk⟩, (Stmt.exec script s.index disk).isOk)

/-! ## Concrete inputs

One-byte compiler outputs and their digests, for the runs that show what a
statement does or does not say. -/

/-- The digest of the file `a`. -/
def digestA : String := "17762fddd969a453925d65717ac3eea21320b66b54342fde15128d6caf21215f"

/-- The digest of the file `b`. -/
def digestB : String := "10e5cf3d3c8a4f9f3468c8cc58eea84892a22fdadbc1acb22410190044c1d553"

/-- An environment that hashes the one-byte files `a` and `b`. -/
def sampleEnv : Env where
  blake3 := fun bytes => if bytes = [97] then digestA else if bytes = [98] then digestB else ""
  metaBytes := fun _ => [123, 125]
  allowEmpty := fun _ _ => false
  emitKind := fun _ => none

/-- Two cache keys. -/
def sampleKey₁ : String := "0000000000000000000000000000000000000000000000000000000000000001"

@[inherit_doc sampleKey₁]
def sampleKey₂ : String := "0000000000000000000000000000000000000000000000000000000000000002"

/-- An output `name` with contents `bytes` that publishes without a hitch. -/
def sampleOutput (name : String) (bytes : Bytes) : Output :=
  ⟨name, some false, some bytes, some .published⟩

/-- A request to store `outputs` under `key`. -/
def sampleRequest (key : String) (outputs : List Output) : PutRequest :=
  ⟨key, "demo", ["lib"], [], "x86_64-unknown-linux-gnu", "release", outputs, "", "", 0⟩

/-! ## What the phases can change -/

variable {hash : String} {disk disk' : Disk} {env : Env} {live : ℕ → Option Bytes} {idx : Index}

theorem publishStagedBlob_grows {bytes : Bytes} {rename : Option PublishRename}
    (done : publishStagedBlob hash bytes rename disk = some disk') :
    disk.Grows ∅ disk' := by
  unfold publishStagedBlob at done
  grind [Disk.Grows.refl, Disk.Grows.setBlob, Option.not_isSome_iff_eq_none]

theorem publishOutput_grows (env : Env) (crateTypes : List String) (out : Output) (disk : Disk) :
    disk.Grows ∅ (publishOutput env crateTypes out disk).1 := by
  unfold publishOutput
  split
  · exact .refl _
  · split
    · exact .refl _
    · next done => exact publishStagedBlob_grows done

/-- Phase 1 only adds blobs. -/
theorem publishOutputs_grows (env : Env) (crateTypes : List String) (outs : List Output)
    (disk : Disk) : disk.Grows ∅ (publishOutputs env crateTypes outs disk).1 := by
  induction outs generalizing disk with
  | nil => exact .refl _
  | cons out rest ih =>
    have hhead := publishOutput_grows env crateTypes out disk
    unfold publishOutputs
    split
    · next hpub =>
      rw [hpub] at hhead
      exact hhead
    · next hpub =>
      rw [hpub] at hhead
      exact hhead.trans (ih _)

/-- A rematerialization adds at most the missing blob; when it succeeds the blob
is there. -/
theorem rematerializeAndVerify_materializes (env : Env) (hash : String) (live : Option Bytes) :
    Materializes ∅ hash (rematerializeAndVerify env hash live) where
  grows := by
    unfold rematerializeAndVerify
    grind [Outcome.files, Disk.Grows.refl, Disk.Grows.setBlob, Option.not_isSome_iff_eq_none]
  ok := by
    unfold rematerializeAndVerify
    grind [Disk.setBlob]

theorem takeAndRematerialize_grows (env : Env) (files : List CachedFile) (live : ℕ → Option Bytes)
    (idx : Index) (disk : Disk) :
    disk.Grows ∅ (Stmt.exec (takeAndRematerialize env files live) idx disk).files :=
  referenceFiles_grows (fun i f _ => rematerializeAndVerify_materializes env f.hash (live i))
    idx disk

theorem takeAndRematerialize_ok {files : List CachedFile} {idx' : Index}
    (done : Stmt.exec (takeAndRematerialize env files live) idx disk = .ok idx' disk') :
    idx' = Index.takeBlobRefs files idx ∧ ∀ f ∈ files, (disk'.blobs f.hash).isSome :=
  referenceFiles_ok (fun i f _ => rematerializeAndVerify_materializes env f.hash (live i)) done

/-- Every file has a blob to adopt — on disk, or because an earlier file of the
list has its hash — or a live source that still has the listed digest. -/
def sourcesFaithful (env : Env) :
    (String → Bool) → List CachedFile → (ℕ → Option Bytes) → Bool
  | _, [], _ => true
  | present, file :: rest, live =>
    (present file.hash || (live 0).any fun bytes => env.blake3 bytes == file.hash) &&
      sourcesFaithful env (fun h => h == file.hash || present h) rest fun i => live (i + 1)

theorem rematerializeAndVerify_of_present {live : Option Bytes}
    (present : (disk.blobs hash).isSome) :
    rematerializeAndVerify env hash live idx disk = .ok idx disk := if_pos present

theorem rematerializeAndVerify_of_missing {live : Option Bytes}
    (missing : ¬ (disk.blobs hash).isSome) : rematerializeAndVerify env hash live idx disk
      = match live with
        | none => .failed disk
        | some bytes =>
          if env.blake3 bytes = hash then .ok idx (disk.setBlob hash bytes)
          else .failed (disk.setBlob hash bytes) := if_neg missing

/-- The loop of phase 2 succeeds exactly on faithful sources. -/
theorem takeAndRematerialize_isOk (env : Env) (files : List CachedFile) (live : ℕ → Option Bytes)
    (idx : Index) (disk : Disk) :
    (Stmt.exec (takeAndRematerialize env files live) idx disk).isOk
      = sourcesFaithful env (fun h => (disk.blobs h).isSome) files live := by
  induction files generalizing live idx disk with
  | nil => rfl
  | cons file rest ih =>
    rw [takeAndRematerialize, referenceFiles, Stmt.exec_sql_cons, Stmt.exec_cons,
      sourcesFaithful]
    have hrest := ih fun i => live (i + 1)
    rw [takeAndRematerialize] at hrest
    by_cases present : (disk.blobs file.hash).isSome
    · -- a blob that is there is adopted, and the set of blobs stays the same
      have hsame : (fun h => h == file.hash || (disk.blobs h).isSome)
          = fun h => (disk.blobs h).isSome := by
        funext h
        by_cases hh : h = file.hash <;> simp [hh, present]
      rw [rematerializeAndVerify_of_present present, Outcome.andThen_ok, hrest, hsame, present,
        Bool.true_or, Bool.true_and]
    · rw [rematerializeAndVerify_of_missing present]
      have hmissing : (disk.blobs file.hash).isSome = false := by simpa using present
      cases hlive : live 0 with
      | none => simp [hmissing, Outcome.isOk]
      | some bytes =>
        by_cases hdigest : env.blake3 bytes = file.hash
        · simp only [hdigest, if_true, Outcome.andThen_ok, hrest, Disk.isSome_blobs_setBlob]
          simp [hdigest]
        · simp [hmissing, hdigest, Outcome.isOk]

/-- **A put that commits.**  The index is the one before with the entry
registered; the disk grew, and then got the new `meta.json`. -/
theorem putScript_ok {key : String} {m : EntryMeta} {idx' : Index}
    (done : Stmt.exec (putScript env key m live) idx disk = .ok idx' disk') :
    idx' = Index.insertOrReplaceEntry key (entryRow env m true false none)
        (Index.registerRefs key m.files idx)
      ∧ ∃ grown, disk.Grows ∅ grown ∧ (∀ f ∈ m.files, (grown.blobs f.hash).isSome)
        ∧ disk' = Disk.replaceMeta key (.written env m) (Disk.createDir key grown) := by
  rw [putScript, Stmt.exec_sql_cons, Stmt.exec_append] at done
  have hgrows := takeAndRematerialize_grows env m.files live
    (Index.releaseEntryBlobRefs key idx) disk
  obtain ⟨idx₁, grown, hloop, done⟩ := Outcome.andThen_eq_ok.mp done
  obtain ⟨hidx, hblobs⟩ := takeAndRematerialize_ok hloop
  rw [hloop] at hgrows
  cases done
  subst hidx
  exact ⟨rfl, grown, hgrows, hblobs, rfl⟩

/-- **A put whose transaction fails** leaves the disk grown and nothing else:
every statement from the mapping on succeeds. -/
theorem putScript_failed {key : String} {m : EntryMeta}
    (done : Stmt.exec (putScript env key m live) idx disk = .failed disk') :
    disk.Grows ∅ disk' := by
  rw [putScript, Stmt.exec_sql_cons, Stmt.exec_append] at done
  have hgrows := takeAndRematerialize_grows env m.files live
    (Index.releaseEntryBlobRefs key idx) disk
  cases hloop : Stmt.exec (takeAndRematerialize env m.files live)
      (Index.releaseEntryBlobRefs key idx) disk with
  | failed diskF =>
    rw [hloop] at done hgrows
    cases done
    exact hgrows
  | ok idx₁ grown =>
    rw [hloop] at done
    cases done

/-- The `meta.json` of a committed put, and of every other key. -/
theorem metaText?_after_put (env : Env) (key : String) (m : EntryMeta) (grown : Disk) (k : String) :
    (Disk.replaceMeta key (.written env m) (Disk.createDir key grown)).metaText? k
      = if k = key then some (.written env m) else grown.metaText? k := by
  rw [Disk.metaText?_replaceMeta, Disk.metaText?_createDir]

/-- **What the registration of a put leaves**, whether it commits or not. -/
theorem commit_putScript (env : Env) (key : String) (m : EntryMeta) (live : ℕ → Option Bytes)
    (s : Store) :
    (∃ grown, s.disk.Grows ∅ grown ∧ s.commit (putScript env key m live) = ⟨s.index, grown⟩) ∨
      ∃ grown, s.disk.Grows ∅ grown ∧ (∀ f ∈ m.files, (grown.blobs f.hash).isSome) ∧
        s.commit (putScript env key m live) =
          ⟨Index.insertOrReplaceEntry key (entryRow env m true false none)
              (Index.registerRefs key m.files s.index),
            Disk.replaceMeta key (.written env m) (Disk.createDir key grown)⟩ := by
  cases hexec : Stmt.exec (putScript env key m live) s.index s.disk with
  | failed grown =>
    refine .inl ⟨grown, putScript_failed hexec, ?_⟩
    simp only [Store.commit, Stmt.commit, hexec, Outcome.settle_failed]
  | ok idx disk =>
    obtain ⟨rfl, grown, hgrows, hblobs, rfl⟩ := putScript_ok hexec
    refine .inr ⟨grown, hgrows, hblobs, ?_⟩
    simp only [Store.commit, Stmt.commit, hexec, Outcome.settle_ok]

/-- **Registration keeps a store sound.** -/
theorem Store.Sound.put_register {slack : Slack} {s : Store} (sound : s.Sound slack) (env : Env)
    (key : String) (m : EntryMeta) (live : ℕ → Option Bytes) :
    (s.commit (putScript env key m live)).Sound slack := by
  rcases commit_putScript env key m live s with
    ⟨grown, hgrows, hcommit⟩ | ⟨grown, hgrows, -, hcommit⟩
  · rw [hcommit]
    exact sound.of_disk fun k _ => hgrows.metaText? k
  · rw [hcommit]
    refine sound.register key m (entryRow env m true false none) rfl ?_ rfl rfl ?_ ?_
    · intro k
      simp [Index.insertOrReplaceEntry]
    · have htext := metaText?_after_put env key m grown key
      rw [if_pos rfl] at htext
      exact .inl (Disk.meta?_eq_of_text htext rfl)
    · intro k hk _
      rw [metaText?_after_put, if_neg hk, hgrows.metaText?]
      exact .inl rfl

/-- A put keeps a store sound, whether it succeeds or not. -/
theorem Store.Sound.putEntry {slack : Slack} {s : Store} (sound : s.Sound slack) (env : Env)
    (req : PutRequest) (live : ℕ → Option Bytes) : (putEntry env req live s).1.Sound slack := by
  have hgrows := publishOutputs_grows env req.crateTypes req.outputs s.disk
  unfold Kache.putEntry
  split
  · next hphase =>
    rw [hphase] at hgrows
    exact sound.of_disk fun k _ => hgrows.metaText? k
  · next disk files hphase =>
    rw [hphase] at hgrows
    have hsound : Store.Sound slack ⟨s.index, disk⟩ := sound.of_disk fun k _ => hgrows.metaText? k
    exact hsound.put_register env req.cacheKey _ live

end Kache
