import Kache.Store.Processes

/-!
# Content addressing

A file at `blob_path(h)` should have digest `h`.  Phase 1 of a put publishes a
private snapshot at the digest of that same snapshot.  Phase 2 re-ingests the
live source when the blob is gone again, and hashes the file only once it is at
its address: on a mismatch the transaction rolls back and the file stays
(`mutated_source_stays_at_address`).

`ingestsFaithful` says which registrations cannot do that, and it is exact:
over an addressed store the disk a registration leaves is addressed if and only
if it holds (`addressed_putScript_iff`).  Puts, removals and orphan sweeps whose
registrations all satisfy it keep every file at its digest, through any
interleaving (`blobs_hold_their_digest`).
-/

namespace Kache

/-- Every blob file has the digest it is named by. -/
def Disk.Addressed (env : Env) (disk : Disk) : Prop :=
  ∀ h bytes, disk.blobs h = some bytes → env.blake3 bytes = h

section Disk

variable {env : Env} {disk : Disk}

theorem Disk.Addressed.of_le (addressed : disk.Addressed env) {disk' : Disk}
    (fewer : ∀ h bytes, disk'.blobs h = some bytes → disk.blobs h = some bytes) :
    disk'.Addressed env :=
  fun h bytes present => addressed h bytes (fewer h bytes present)

/-- A file put at an address is right exactly when its digest is the address. -/
theorem Disk.Addressed.setBlob_iff (addressed : disk.Addressed env) (hash : String)
    (bytes : Bytes) : (disk.setBlob hash bytes).Addressed env ↔ env.blake3 bytes = hash := by
  constructor
  · intro after
    exact after hash bytes (by simp)
  · intro digest h bytes' present
    rw [Disk.blobs_setBlob] at present
    split at present
    · next hh =>
      cases present
      rw [hh]
      exact digest
    · exact addressed h bytes' present

theorem Disk.Addressed.unlinkUnreferenced (addressed : disk.Addressed env) (idx : Index)
    (hashes : List String) : (unlinkUnreferenced idx hashes disk).Addressed env := by
  refine addressed.of_le fun h bytes present => ?_
  rw [blobs_unlinkUnreferenced] at present
  split at present
  · cases present
  · exact present

/-- Phase 1 publishes what it hashed. -/
theorem Disk.Addressed.publishOutput (addressed : disk.Addressed env) (crateTypes : List String)
    (out : Output) : (publishOutput env crateTypes out disk).1.Addressed env := by
  unfold Kache.publishOutput
  split
  · exact addressed
  · next file bytes hstage =>
    have hdigest : env.blake3 bytes = file.hash := by
      simp only [stageOutput, Option.bind_eq_bind, Option.bind_eq_some_iff, Option.guard_eq_some',
        Option.pure_def, Option.some.injEq, Prod.mk.injEq] at hstage
      obtain ⟨-, -, executable, -, bytes', -, -, -, rfl, rfl⟩ := hstage
      rfl
    unfold publishStagedBlob
    by_cases present : (disk.blobs file.hash).isSome
    · rw [if_pos present]
      exact addressed
    · rw [if_neg present]
      rcases out.rename with - | (- | - | -)
      · exact addressed
      · exact (addressed.setBlob_iff file.hash bytes).mpr hdigest
      · exact addressed
      · exact addressed

end Disk

/-! ## Registration -/

/-- No registration reaches a missing blob whose live source reads as something
of another digest.  `present` are the blobs on disk when the loop reaches the
first file of the list; an unreadable source ends the loop before it writes. -/
def ingestsFaithful (env : Env) :
    (String → Bool) → List CachedFile → (ℕ → Option Bytes) → Bool
  | _, [], _ => true
  | present, file :: rest, live =>
    if present file.hash then ingestsFaithful env present rest fun i => live (i + 1)
    else
      match live 0 with
      | none => true
      | some bytes =>
        env.blake3 bytes == file.hash &&
          ingestsFaithful env (fun h => h == file.hash || present h) rest
            fun i => live (i + 1)

variable {env : Env}

/-- **The loop of phase 2** leaves an addressed disk exactly when it ingests
faithfully. -/
theorem addressed_takeAndRematerialize_iff {disk : Disk} (addressed : disk.Addressed env)
    (files : List CachedFile) (live : ℕ → Option Bytes) (idx : Index) :
    (Stmt.exec (takeAndRematerialize env files live) idx disk).files.Addressed env ↔
      ingestsFaithful env (fun h => (disk.blobs h).isSome) files live = true := by
  induction files generalizing live idx disk with
  | nil => exact ⟨fun _ => rfl, fun _ => addressed⟩
  | cons file rest ih =>
    rw [takeAndRematerialize, referenceFiles, Stmt.exec_sql_cons, Stmt.exec_cons,
      ingestsFaithful]
    by_cases present : (disk.blobs file.hash).isSome
    · rw [rematerializeAndVerify_of_present present, Outcome.andThen_ok, if_pos present]
      exact ih addressed (fun i => live (i + 1)) _
    · rw [rematerializeAndVerify_of_missing present, if_neg present]
      cases live 0 with
      | none => exact ⟨fun _ => rfl, fun _ => addressed⟩
      | some bytes =>
        have hset := addressed.setBlob_iff file.hash bytes
        by_cases hdigest : env.blake3 bytes = file.hash
        · simp only [hdigest, if_true, Outcome.andThen_ok, BEq.rfl, Bool.true_and]
          rw [← Disk.isSome_blobs_setBlob file.hash bytes disk]
          exact ih (hset.mpr hdigest) (fun i => live (i + 1)) _
        · -- the loop fails here, with the wrong bytes already in place
          simpa [hdigest] using hset.not.mpr hdigest

/-- **A registration**, whether it commits or not. -/
theorem addressed_putScript_iff {store : Store} (addressed : store.disk.Addressed env)
    (key : String) (m : EntryMeta) (live : ℕ → Option Bytes) :
    (store.commit (putScript env key m live)).disk.Addressed env ↔
      ingestsFaithful env (fun h => (store.disk.blobs h).isSome) m.files live = true := by
  rw [← addressed_takeAndRematerialize_iff addressed m.files live
    (Index.releaseEntryBlobRefs key store.index)]
  simp only [Store.commit, Stmt.commit, putScript, Stmt.exec_sql_cons, Stmt.exec_append]
  cases Stmt.exec (takeAndRematerialize env m.files live)
      (Index.releaseEntryBlobRefs key store.index) store.disk with
  | failed disk => exact Iff.rfl
  | ok idx disk => exact Iff.rfl

/-! ## Whole runs -/

/-- The steps of a put, a removal and an orphan sweep. -/
def Action.isPutRemoveOrSweep : Action → Bool
  | .startPut _ | .publish | .register _ => true
  | .removeRead _ | .removeRows | .removeCleanup => true
  | .sweepScan _ | .sweepUnlink => true
  | .die => true
  | _ => false

/-- A registration ingests faithfully. -/
def registersFaithfully (env : Env) (store : Store) : Proc → Action → Bool
  | .putting _ [] published, .register live =>
    ingestsFaithful env (fun h => (store.disk.blobs h).isSome) published live
  | _, _ => true

/-- The process that moves ingests faithfully. -/
def stepRegistersFaithfully (env : Env) (s : Processes) (a : ℕ × Action) : Prop :=
  ∀ proc ∈ s.procs[a.1]?, registersFaithfully env s.shared proc a.2 = true

instance (env : Env) (s : Processes) (a : ℕ × Action) :
    Decidable (stepRegistersFaithfully env s a) :=
  inferInstanceAs (Decidable (∀ proc ∈ s.procs[a.1]?, _))

/-- One step keeps every blob at its digest. -/
theorem Effect.addressed {store store' : Store} {proc : Proc} {a : Action}
    (effect : Effect env store proc a store') (scope : a.isPutRemoveOrSweep = true)
    (faithful : registersFaithfully env store proc a = true)
    (addressed : store.disk.Addressed env) : store'.disk.Addressed env := by
  cases effect with
  | reads => exact addressed
  | publish req out rest published => exact addressed.publishOutput req.crateTypes out
  | register req published live =>
    exact (addressed_putScript_iff addressed req.cacheKey (putMeta env req published) live).mpr
      faithful
  | removeRows parses done => exact addressed
  | removeCleanup key unlink =>
    refine Disk.Addressed.unlinkUnreferenced ?_ store.index (unlink.map Prod.fst)
    split <;> exact addressed
  | sweepUnlink candidates => exact addressed.unlinkUnreferenced store.index candidates
  | _ => cases scope

/-- **Every file has the digest it is named by**, in every state that puts,
removals and orphan sweeps of any number of processes reach from an addressed
store, when no registration ingests a source that changed. -/
theorem blobs_hold_their_digest {store : Store} (addressed : store.disk.Addressed env) {n : ℕ}
    {s : Processes}
    (run : Reaches
      (fun s a => a.2.isPutRemoveOrSweep = true ∧ stepRegistersFaithfully env s a)
      (System.step (transition env)) (Processes.over store n) s) :
    ∀ h bytes, s.shared.disk.blobs h = some bytes → env.blake3 bytes = h := by
  refine run.shared_invariant (I := fun store => store.disk.Addressed env) addressed ?_
  rintro s p a proc next hproc addressed ⟨scope, faithful⟩ taken
  exact (transition_effect taken).addressed scope (faithful proc hproc) addressed

/-- A put publishes `a`, a sweep unlinks the unregistered blob, and the source
has become `b` by the time the put registers. -/
def mutatedSourceTrace : List (ℕ × Action) :=
  [(0, .startPut (sampleRequest sampleKey₁ [sampleOutput "a" [97]])), (0, .publish),
    (1, .sweepScan [digestA]), (1, .sweepUnlink), (0, .register fun _ => some [98])]

/-- **A changed source stays at the address of the old one**, and the put that
left it there has returned an error: the key has no row. -/
theorem mutated_source_stays_at_address :
    ∃ s : Processes, Reaches (fun _ a => a.2.isPutRemoveOrSweep = true)
        (System.step (transition sampleEnv)) (Processes.over Store.empty 2) s ∧
      s.shared.index.isCommitted sampleKey₁ = false ∧
      ¬ ∀ h bytes, s.shared.disk.blobs h = some bytes → sampleEnv.blake3 bytes = h := by
  obtain ⟨s, run, htest⟩ := exists_reaches_of_replay
    (fun _ a => a.2.isPutRemoveOrSweep = true)
    (System.step (transition sampleEnv)) (Processes.over Store.empty 2) mutatedSourceTrace
    (fun s => s.shared.index.isCommitted sampleKey₁ = false ∧
      s.shared.disk.blobs digestA = some [98])
    (by decide +kernel)
  simp only [decide_eq_true_eq] at htest
  refine ⟨s, run, htest.1, fun addressed => ?_⟩
  exact absurd (addressed digestA [98] htest.2) (by decide +kernel)

/-- The same steps with a source that stayed what it was. -/
theorem blobs_hold_their_digest_unchanged :
    ∃ s : Processes, s.shared.disk.blobs digestA = some [97] ∧
      ∀ h bytes, s.shared.disk.blobs h = some bytes → sampleEnv.blake3 bytes = h := by
  obtain ⟨s, run, htest⟩ := exists_reaches_of_replay
    (fun s a => a.2.isPutRemoveOrSweep = true ∧ stepRegistersFaithfully sampleEnv s a)
    (System.step (transition sampleEnv)) (Processes.over Store.empty 2)
    [(0, .startPut (sampleRequest sampleKey₁ [sampleOutput "a" [97]])), (0, .publish),
      (1, .sweepScan [digestA]), (1, .sweepUnlink), (0, .register fun _ => some [97])]
    (fun s => s.shared.disk.blobs digestA = some [97])
    (by decide +kernel)
  refine ⟨s, by simpa using htest, blobs_hold_their_digest ?_ run⟩
  intro h bytes present
  cases present

end Kache
