import Kache.Store.Backing

/-!
# A packed prefetch against a put of the same key

A packed prefetch looks for the entry directory, downloads, and replaces the
directory — all without the write lock; the batch import that follows inserts a
row only where there is none and keeps the references of a row it finds.  A put
of the same key that commits between the look and the replacement keeps its row
and loses its `meta.json` to the archive's (`prefetch_replaces_committed_meta`).

The pairing of row and `meta.json` survives every interleaving of puts, packed
prefetches and removals in which the extraction touches the directory only while
the key has no row, and a batch import that inserts a row finds the metadata of
its preflight in place and lists no file `meta.json` (`restore_pairing`).
-/

namespace Kache

/-- The steps of a put, a packed prefetch and a removal. -/
def Action.isPutPrefetchOrRemove : Action → Bool
  | .startPut _ | .publish | .register _ => true
  | .startRestore | .claim _ | .extractClear | .extractPlace _ | .preflight | .importBatch _
  | .tidy | .discard => true
  | .removeRead _ | .removeRows | .removeCleanup => true
  | .die => true
  | _ => false

/-- Nothing is in progress. -/
def Processes.Quiet (s : Processes) : Prop := ∀ proc ∈ s.procs, proc.isIdle = true

instance (s : Processes) : Decidable s.Quiet :=
  inferInstanceAs (Decidable (∀ proc ∈ s.procs, proc.isIdle = true))

/-- The process that moves extracts over no row. -/
def stepExtractsUnregistered (s : Processes) (a : ℕ × Action) : Prop :=
  ∀ proc ∈ s.procs[a.1]?, extractsUnregistered s.shared proc a.2 = true

instance (s : Processes) (a : ℕ × Action) : Decidable (stepExtractsUnregistered s a) :=
  inferInstanceAs (Decidable (∀ proc ∈ s.procs[a.1]?, _))

/-- **Row and `meta.json` stay paired.**  From any sound store, in every
interleaving of puts, packed prefetches and removals whose extractions touch no
directory of a row and whose imports register the metadata they checked and
take no `meta.json`: a committed key is mapped to exactly the hashes its `meta.json` lists, in
particular whenever nothing is in progress. -/
theorem restore_pairing {env : Env} {store : Store} (sound : store.Sound .exact) {n : ℕ}
    {s : Processes}
    (run : Reaches (fun s a => a.2.isPutPrefetchOrRemove = true ∧ stepExtractsUnregistered s a ∧
        stepRegistersWhatItChecked s a ∧ stepKeepsMeta s a)
      (System.step (transition env)) (Processes.over store n) s)
    (key : String) (committed : s.shared.index.isCommitted key = true) :
    ∃ m, s.shared.disk.meta? key = some m ∧ s.shared.index.Maps key (hashesOf m.files) := by
  have hsound : s.shared.Sound .exact := by
    refine run.shared_invariant (I := Store.Sound .exact) sound ?_
    rintro s p a proc next hproc sound ⟨-, extracts, registers, keeps⟩ taken
    exact (transition_effect taken).sound sound (extracts proc hproc) (registers proc hproc)
      (keeps proc hproc)
  exact hsound.paired_of_exact ((hsound.isCommitted_iff key).mp committed)

/-- The directory is looked for, a put of `a` commits, and the archive of `b`
replaces its `meta.json`. -/
def latePrefetchTrace : List (ℕ × Action) :=
  [(1, .startRestore), (1, .claim sampleKey₁)] ++
    putActions 0 sampleKey₁ [sampleOutput "a" [97]] ++
    [(1, .extractClear), (1, .extractPlace (sampleArchive sampleKey₁)), (1, .preflight),
      (1, .importBatch 0), (1, .tidy)]

/-- **A prefetch unpairs a committed row.**  Nothing is in progress any more, the
key is committed, and its `meta.json` lists `b` while the row was registered
with `a`. -/
theorem prefetch_replaces_committed_meta :
    ∃ s : Processes, Reaches (fun _ a => a.2.isPutPrefetchOrRemove = true)
        (System.step (transition sampleEnv)) (Processes.over Store.empty 2) s ∧
      s.Quiet ∧ s.shared.index.isCommitted sampleKey₁ = true ∧
      ¬ ∃ m, s.shared.disk.meta? sampleKey₁ = some m ∧
        s.shared.index.Maps sampleKey₁ (hashesOf m.files) := by
  obtain ⟨s, run, htest⟩ := exists_reaches_of_replay
    (fun _ a => a.2.isPutPrefetchOrRemove = true)
    (System.step (transition sampleEnv)) (Processes.over Store.empty 2) latePrefetchTrace
    (fun s : Processes => s.Quiet ∧ s.shared.index.isCommitted sampleKey₁ = true ∧
      (s.shared.disk.meta? sampleKey₁).map (fun m => m.files.map (·.hash)) = some [digestB] ∧
      s.shared.index.entryBlobs.get (sampleKey₁, digestB) = none)
    (by decide +kernel)
  simp only [decide_eq_true_eq] at htest
  obtain ⟨quiet, committed, hlists, hunmapped⟩ := htest
  refine ⟨s, run, quiet, committed, ?_⟩
  rintro ⟨m, hmeta, hmaps⟩
  rw [hmeta, Option.map_some, Option.some.injEq] at hlists
  have hmapped := hmaps digestB
  rw [hunmapped, hashesOf, hlists, eq_comm, countRow_eq_none] at hmapped
  simp at hmapped

/-- A prefetch that is over before the put starts. -/
theorem restore_pairing_in_order :
    ∃ s : Processes, s.Quiet ∧ s.shared.index.isCommitted sampleKey₁ = true ∧
      ∃ m, s.shared.disk.meta? sampleKey₁ = some m ∧
        s.shared.index.Maps sampleKey₁ (hashesOf m.files) := by
  obtain ⟨s, run, htest⟩ := exists_reaches_of_replay
    (fun s a => a.2.isPutPrefetchOrRemove = true ∧ stepExtractsUnregistered s a ∧
      stepRegistersWhatItChecked s a ∧ stepKeepsMeta s a)
    (System.step (transition sampleEnv)) (Processes.over Store.empty 2)
    ([(1, .startRestore), (1, .claim sampleKey₁), (1, .extractClear),
        (1, .extractPlace (sampleArchive sampleKey₁)), (1, .preflight), (1, .importBatch 0),
        (1, .tidy)] ++ putActions 0 sampleKey₁ [sampleOutput "a" [97]])
    (fun s : Processes => s.Quiet ∧ s.shared.index.isCommitted sampleKey₁ = true)
    (by decide +kernel)
  simp only [decide_eq_true_eq] at htest
  exact ⟨s, htest.1, htest.2, restore_pairing (Store.sound_empty .empty) run sampleKey₁ htest.2⟩

end Kache
