import Kache.Store.Processes

/-!
# A rebuild against removals and sweeps

`rebuild_one_entry` looks for `meta.json` and for each listed blob before its
transaction opens, and does not look again.  A removal whose row deletion has
committed still has its directory and blobs on disk, so a rebuild finds the
entry complete; the cleanup then runs, and the rebuild commits a row for files
that are gone (`rebuild_registers_removed_entry`).

What a rebuild has seen stays true as long as no cleanup and no sweep unlinks it
(`sparesChecked`).  The assertion `Proc.Checked` carries that from the check to
the insert, and a row is then committed for a complete entry only
(`rebuild_registers_complete`).
-/

namespace Kache

/-- The `meta.json` of `key` is there, and every file it lists has a blob of the
listed length. -/
def Disk.CompleteEntry (disk : Disk) (key : String) : Prop :=
  ∃ m, disk.meta? key = some m ∧
    ∀ f ∈ m.files, ∃ bytes, disk.blobs f.hash = some bytes ∧ bytes.length = f.size

/-- The steps of a rebuild, a removal and an orphan sweep. -/
def Action.isRebuildRemoveOrSweep : Action → Bool
  | .rebuildRead _ | .rebuildProbe | .rebuildInsert => true
  | .removeRead _ | .removeRows | .removeCleanup => true
  | .sweepScan _ | .sweepUnlink => true
  | .die => true
  | _ => false

/-- A cleanup or a sweep about to run leaves alone what the process `other` has
checked: a directory or a blob that has a row is not removed, and of those
without a row it has none on its list. -/
def sparesChecked (store : Store) (proc : Proc) (a : Action) (other : Proc) : Bool :=
  match other with
  | .rebuilding key _ checked _ =>
    match proc, a with
    | .cleaning removed unlink, .removeCleanup =>
      (removed != key || (store.index.entries.get removed).isSome) &&
        checked.all fun f =>
          !(unlink.map Prod.fst).contains f.hash || (store.index.blobs.get f.hash).isSome
    | .sweeping candidates, .sweepUnlink =>
      checked.all fun f =>
        !candidates.contains f.hash || (store.index.blobs.get f.hash).isSome
    | _, _ => true
  | _ => true

/-- What a rebuild has seen is still so. -/
def Proc.Checked (store : Store) : Proc → Prop
  | .rebuilding key m checked remaining =>
    m.files = checked ++ remaining ∧ store.disk.meta? key = some m ∧
      ∀ f ∈ checked, rebuildFileOk store.disk f = true
  | _ => True

section Steps

variable {env : Env} {store store' : Store} {proc : Proc} {a : Action}

theorem blobs_unlinkUnreferenced_of_spared {idx : Index} {hashes : List String} {h : String}
    (spared : (!hashes.contains h || (idx.blobs.get h).isSome) = true) (disk : Disk) :
    (unlinkUnreferenced idx hashes disk).blobs h = disk.blobs h := by
  rw [blobs_unlinkUnreferenced, if_neg]
  rintro ⟨mem, norow⟩
  simp [mem, norow] at spared

/-- **A step that spares what was checked** leaves it as it was. -/
theorem Effect.spares {key : String} {m : EntryMeta} {checked remaining : List CachedFile}
    (effect : Effect env store proc a store') (scope : a.isRebuildRemoveOrSweep = true)
    (spared : sparesChecked store proc a (.rebuilding key m checked remaining) = true) :
    store'.disk.meta? key = store.disk.meta? key ∧
      ∀ f ∈ checked, store'.disk.blobs f.hash = store.disk.blobs f.hash := by
  cases effect with
  | reads => exact ⟨rfl, fun _ _ => rfl⟩
  | removeRows parses done => exact ⟨rfl, fun _ _ => rfl⟩
  | removeCleanup removed unlink =>
    simp only [sparesChecked, Bool.and_eq_true, List.all_eq_true] at spared
    refine ⟨Disk.meta?_congr ?_, fun f mem => ?_⟩
    · -- a directory goes only with its row gone, and this one is spared then
      rw [metaText?_removeCleanup, if_neg]
      rintro ⟨rfl, norow⟩
      simp [norow] at spared
    · rw [Kache.removeCleanup, blobs_unlinkUnreferenced_of_spared (spared.2 f mem)]
      split <;> rfl
  | sweepUnlink candidates =>
    simp only [sparesChecked, List.all_eq_true] at spared
    refine ⟨?_, fun f mem => blobs_unlinkUnreferenced_of_spared (spared f mem) store.disk⟩
    exact Disk.meta?_congr (congrFun (Disk.metaText?_congr (dirs_unlinkUnreferenced _ _ _)) key)
  | rebuildInsert => exact ⟨rfl, fun _ _ => rfl⟩
  | _ => cases scope

/-- So the assertion of a process that did not move survives. -/
theorem Effect.checked {other : Proc} (effect : Effect env store proc a store')
    (scope : a.isRebuildRemoveOrSweep = true) (spared : sparesChecked store proc a other = true)
    (checked : other.Checked store) : other.Checked store' := by
  cases other with
  | rebuilding key m seen remaining =>
    obtain ⟨hmeta, hblobs⟩ := effect.spares scope spared
    obtain ⟨hfiles, hread, hseen⟩ := checked
    refine ⟨hfiles, hmeta.trans hread, fun f mem => ?_⟩
    have hok := hseen f mem
    rwa [rebuildFileOk, ← hblobs f mem] at hok
  | _ => trivial

/-- A process that moves asserts what it has just read. -/
theorem transition_checked {p : ℕ} {next : Store × Proc}
    (taken : transition env p store proc a = some next)
    (scope : a.isRebuildRemoveOrSweep = true) (checked : proc.Checked store) :
    next.2.Checked next.1 := by
  unfold transition at taken
  split at taken
  case h_5 key =>
    obtain ⟨text, -, htext⟩ := Option.bind_eq_some_iff.mp taken
    obtain ⟨m, -, rfl⟩ := Option.map_eq_some_iff.mp htext
    trivial
  case h_6 key text =>
    obtain ⟨m, -, rfl⟩ := Option.map_eq_some_iff.mp taken
    split <;> trivial
  case h_22 key =>
    split at taken
    · obtain ⟨m, hread, rfl⟩ := Option.map_eq_some_iff.mp taken
      exact ⟨rfl, hread, by simp⟩
    · cases taken
  case h_23 key m seen file rest =>
    obtain ⟨hfiles, hread, hseen⟩ := checked
    split at taken
    · next found =>
      cases taken
      refine ⟨by rw [hfiles, List.append_assoc, List.singleton_append], hread, ?_⟩
      intro f mem
      rcases List.mem_append.mp mem with mem | mem
      · exact hseen f mem
      · rw [List.mem_singleton.mp mem]
        exact found
    · cases taken
      trivial
  case h_25 => cases taken
  -- the other lines leave the scope, or end where nothing is asserted
  all_goals
    first
    | cases taken
      trivial
    | cases scope

/-- The transaction of a rebuild runs when no file is left to look for. -/
theorem transition_rebuildInsert {p : ℕ} {next : Store × Proc}
    (taken : transition env p store proc .rebuildInsert = some next) :
    ∃ key m seen, proc = .rebuilding key m seen [] ∧
      next.1 = ⟨rebuildInsert env key m store.index, store.disk⟩ := by
  cases proc with
  | rebuilding key m seen remaining =>
    cases remaining with
    | nil =>
      cases taken
      exact ⟨key, m, seen, rfl, rfl⟩
    | cons file rest => cases taken
  | _ => cases taken

/-- The only row a rebuild can commit is the one of its key. -/
theorem isCommitted_rebuildInsert {key k : String} {m : EntryMeta} {idx : Index}
    (before : idx.isCommitted k = false)
    (after : (rebuildInsert env key m idx).isCommitted k = true) : k = key := by
  by_cases hrow : (idx.entries.get key).isSome
  · rw [rebuildInsert_of_present hrow, before] at after
    cases after
  · rw [rebuildInsert_of_absent (Option.not_isSome_iff_eq_none.mp hrow)] at after
    by_contra hne
    simp only [Index.isCommitted, Index.insertOrReplaceEntry, Index.entries_registerRefs,
      Table.get_set, if_neg hne] at after
    rw [Index.isCommitted] at before
    rw [before] at after
    cases after

end Steps

/-! ## All interleavings -/

/-- The process that moves spares what every process has checked. -/
def stepSparesChecked (s : Processes) (a : ℕ × Action) : Prop :=
  ∀ proc ∈ s.procs[a.1]?, ∀ other ∈ s.procs, sparesChecked s.shared proc a.2 other = true

instance (s : Processes) (a : ℕ × Action) : Decidable (stepSparesChecked s a) :=
  inferInstanceAs (Decidable (∀ proc ∈ s.procs[a.1]?, ∀ other ∈ s.procs, _))

/-- **A rebuild registers complete entries only.**  From any store, in every
interleaving of rebuilds, removals and sweeps that spare what a rebuild has
checked, a rebuild that commits a row for a key leaves its `meta.json` and all
its listed blobs on disk at that commit. -/
theorem rebuild_registers_complete {env : Env} {store : Store} {n : ℕ} {s s' : Processes}
    (run : Reaches (fun s a => a.2.isRebuildRemoveOrSweep = true ∧ stepSparesChecked s a)
      (System.step (transition env)) (Processes.over store n) s)
    {p : ℕ} (taken : System.step (transition env) s (p, .rebuildInsert) = some s') {key : String}
    (before : s.shared.index.isCommitted key = false)
    (after : s'.shared.index.isCommitted key = true) :
    s'.shared.disk.CompleteEntry key := by
  have hchecked : ∀ (q : ℕ) (proc : Proc), s.procs[q]? = some proc → proc.Checked s.shared := by
    refine (run.local_invariant (I := fun _ => True)
      (J := fun _ store proc => Proc.Checked store proc) trivial ?_ ?_).2
    · intro q proc hproc
      obtain ⟨-, rfl⟩ := System.getElem?_start hproc
      trivial
    · rintro s q a proc next hproc - hall ⟨scope, spares⟩ htaken
      refine ⟨trivial, transition_checked htaken scope (hall q proc hproc), ?_⟩
      intro r other _ hother
      exact (transition_effect htaken).checked scope
        (spares proc hproc other (List.mem_of_getElem? hother)) (hall r other hother)
  obtain ⟨proc, next, hproc, htaken, rfl⟩ := System.step_eq_some.mp taken
  obtain ⟨key', m, seen, rfl, hnext⟩ := transition_rebuildInsert htaken
  obtain ⟨hfiles, hread, hseen⟩ := hchecked p _ hproc
  simp only [hnext] at after ⊢
  obtain rfl := isCommitted_rebuildInsert before after
  refine ⟨m, hread, fun f mem => ?_⟩
  rw [hfiles, List.append_nil] at mem
  have hok := hseen f mem
  simp only [rebuildFileOk, Bool.and_eq_true, Option.any_eq_true, beq_iff_eq] at hok
  exact hok.2

/-- A store with one entry, the file `a`. -/
def oneEntry : Store :=
  (putEntry sampleEnv (sampleRequest sampleKey₁ [sampleOutput "a" [97]]) (fun _ => none)
    Store.empty).1

/-- The rows are deleted, the rebuild finds the files, the cleanup unlinks them. -/
def lateCleanupTrace : List (ℕ × Action) :=
  [(0, .removeRead sampleKey₁), (0, .removeRows), (1, .rebuildRead sampleKey₁),
    (1, .rebuildProbe), (0, .removeCleanup)]

/-- **A rebuild registers a removed entry.**  Neither its `meta.json` nor its
blob is on disk when the row is committed. -/
theorem rebuild_registers_removed_entry :
    ∃ s s' : Processes, Reaches (fun _ a => a.2.isRebuildRemoveOrSweep = true)
        (System.step (transition sampleEnv)) (Processes.over oneEntry 2) s ∧
      System.step (transition sampleEnv) s (1, .rebuildInsert) = some s' ∧
      s.shared.index.isCommitted sampleKey₁ = false ∧
      s'.shared.index.isCommitted sampleKey₁ = true ∧
      s'.shared.disk.metaText? sampleKey₁ = none ∧ s'.shared.disk.blobs digestA = none ∧
      ¬ s'.shared.disk.CompleteEntry sampleKey₁ := by
  obtain ⟨s, run, htest⟩ := exists_reaches_of_replay
    (fun _ a => a.2.isRebuildRemoveOrSweep = true)
    (System.step (transition sampleEnv)) (Processes.over oneEntry 2) lateCleanupTrace
    (fun s => s.shared.index.isCommitted sampleKey₁ = false ∧
      (System.step (transition sampleEnv) s (1, .rebuildInsert)).any fun s' =>
        s'.shared.index.isCommitted sampleKey₁ = true ∧
          s'.shared.disk.metaText? sampleKey₁ = none ∧ s'.shared.disk.blobs digestA = none)
    (by decide +kernel)
  simp only [Option.any_eq_true, decide_eq_true_eq] at htest
  obtain ⟨before, s', taken, after, hmeta, hblob⟩ := htest
  refine ⟨s, s', run, taken, before, after, hmeta, hblob, ?_⟩
  rintro ⟨m, hread, -⟩
  rw [Disk.meta?, hmeta] at hread
  cases hread

/-- With the index lost, and a sweep that found nothing old, the rebuild
registers a complete entry. -/
theorem rebuild_registers_complete_alone :
    ∃ s' : Processes, s'.shared.index.isCommitted sampleKey₁ = true ∧
      s'.shared.disk.CompleteEntry sampleKey₁ := by
  obtain ⟨s, run, htest⟩ := exists_reaches_of_replay
    (fun s a => a.2.isRebuildRemoveOrSweep = true ∧ stepSparesChecked s a)
    (System.step (transition sampleEnv)) (Processes.over ⟨.empty, oneEntry.disk⟩ 2)
    [(0, .sweepScan []), (1, .rebuildRead sampleKey₁), (1, .rebuildProbe), (0, .sweepUnlink)]
    (fun s => s.shared.index.isCommitted sampleKey₁ = false ∧
      (System.step (transition sampleEnv) s (1, .rebuildInsert)).any fun s' =>
        s'.shared.index.isCommitted sampleKey₁ = true)
    (by decide +kernel)
  simp only [Option.any_eq_true, decide_eq_true_eq] at htest
  obtain ⟨before, s', taken, after⟩ := htest
  exact ⟨s', after, rebuild_registers_complete run taken before after⟩

end Kache
