import Kache.Foundation.Run
import Kache.Store.Durability
import Kache.Store.Put
import Kache.Store.Rebuild
import Kache.Store.Removal

/-!
# Refcount conservation

The store's writers update three tables and a file in different orders.  Run
one whole operation after another from an empty store, and the reference counts
are exact after each of them (`refcount_conservation`): `blobs` is the aggregate
of `entry_blobs`, and `entry_blobs` is what the `meta.json` files list.

That an import leaves the `meta.json` it registers is not a matter of course: it
moves or removes every file its list names, and a list may name `meta.json`.  A
single import also hashes what it takes, so the text would have to list its own
digest; a batch import compares sizes only, and commits a row whose `meta.json`
it has taken away (`import_takes_its_meta`).

An import is a whole operation together with the extraction that delivers its
directory.  The extraction replaces `meta.json` outside any transaction, so over
a key that is already committed it is the import that has to re-establish the
pairing.  `import_downloaded_entry` does so whenever its checks accept the
directory; `import_verified_restored_entries` never does, and is only run on
keys without a committed row.  `Operation.Admissible` is these two conditions,
and `Operation.KeepsMeta` that no imported list names `meta.json`.
-/

namespace Kache

/-- A whole operation on a store. -/
inductive Operation where
  /-- `put`; `live` are the sources as phase 2 reads them. -/
  | put (req : PutRequest) (live : ℕ → Option Bytes)
  /-- An archive is extracted over `entry_dir(key)`, then
  `import_downloaded_entry`. -/
  | importDownloaded (key : String) (delivered : EntryDir) (now : ℕ)
  /-- Archives are extracted, then `import_verified_restored_entries`. -/
  | importVerified (batch : List (VerifiedRestoredEntry × EntryDir)) (now : ℕ)
  /-- `rebuild_one_entry`. -/
  | rebuildOne (key : String)
  /-- `remove_entry`. -/
  | remove (key : String)

/-- Extract one archive per entry of a batch. -/
def deliver (batch : List (VerifiedRestoredEntry × EntryDir)) (disk : Disk) : Disk :=
  batch.foldl (fun acc e => acc.setDir e.1.cacheKey e.2) disk

/-- A publication that committed is flushed when durability is strict. -/
def finishPublication (env : Env) (strict : Bool) (keys : List String)
    (published : Store × Bool) : Store :=
  if published.2 then
    keys.foldl (fun acc key => (finishStrictDurability env strict key acc).1) published.1
  else published.1

namespace Operation

/-- Run one operation. -/
def run (env : Env) (strict : Bool) (s : Store) : Operation → Store
  | put req live => finishPublication env strict [req.cacheKey] (putEntry env req live s)
  | importDownloaded key delivered now =>
    finishPublication env strict [key]
      (importDownloadedEntry env now key ⟨s.index, s.disk.setDir key delivered⟩)
  | importVerified batch now =>
    finishPublication env strict (batch.map fun e => e.1.cacheKey)
      (importVerifiedRestoredEntries env now (batch.map Prod.fst)
        ⟨s.index, deliver batch s.disk⟩)
  | rebuildOne key => (rebuildOneEntry env key s).1
  | remove key => removeEntry key s

/-- Operations are total. -/
def step (env : Env) (strict : Bool) (s : Store) (op : Operation) : Option Store :=
  some (op.run env strict s)

/-- The directory an operation delivers replaces `meta.json` of a committed key
only when the import will register it. -/
def Admissible (env : Env) (s : Store) : Operation → Prop
  | importDownloaded key delivered _ =>
    s.index.isCommitted key = true →
      (checkDownloaded env (s.disk.setDir key delivered) key).toBool = true
  | importVerified batch _ => ∀ e ∈ batch, s.index.isCommitted e.1.cacheKey = false
  | _ => True

instance (env : Env) (s : Store) : (op : Operation) → Decidable (op.Admissible env s)
  | importDownloaded _ _ _ => inferInstanceAs (Decidable (_ → _))
  | importVerified batch _ =>
    inferInstanceAs (Decidable (∀ e ∈ batch, s.index.isCommitted e.1.cacheKey = false))
  | put _ _ | rebuildOne _ | remove _ => inferInstanceAs (Decidable True)

/-- What an operation imports. -/
def imports : Operation → List VerifiedRestoredEntry
  | importDownloaded key delivered _ =>
    ((delivered.metaJson.bind (·.parsed)).map (⟨key, ·⟩)).toList
  | importVerified batch _ => batch.map Prod.fst
  | _ => []

/-- No imported list names `meta.json`. -/
def KeepsMeta (op : Operation) : Prop := ∀ e ∈ op.imports, namesMeta e.entryMeta.files = false

instance (op : Operation) : Decidable op.KeepsMeta :=
  inferInstanceAs (Decidable (∀ e ∈ op.imports, _))

end Operation

/-- **Refcount conservation.** -/
structure RefcountConservation (s : Store) : Prop where
  /-- A hash has a `blobs` row exactly when some entry holds a reference on it. -/
  row_iff : ∀ h, (s.index.blobs.get h).isSome ↔ 0 < s.index.mappedRefs h
  /-- The count in the row is the sum of those references. -/
  refcount : ∀ h row, s.index.blobs.get h = some row → row.refcount = s.index.mappedRefs h
  /-- A committed key is mapped to exactly the hashes its `meta.json` lists. -/
  paired : ∀ key, s.index.isCommitted key = true →
    ∃ m, s.disk.meta? key = some m ∧ s.index.Maps key (hashesOf m.files)
  /-- A key without a committed row has no mapping. -/
  unmapped : ∀ key, s.index.isCommitted key = false →
    ∀ h, s.index.entryBlobs.get (key, h) = none

/-- The two halves of the counting invariant. -/
theorem RefcountConservation.of_counted {s : Store} (counted : s.index.Counted 0)
    (paired : ∀ key, s.index.isCommitted key = true → s.Paired key)
    (unmapped : ∀ key, s.index.isCommitted key = false → s.index.Maps key 0) :
    RefcountConservation s where
  row_iff := by
    intro h
    have hcount := counted.refcount h
    have hnonneg := counted.mappedRefs_nonneg h
    have hsome : (s.index.blobs.get h).isSome = (s.index.refcount? h).isSome := by
      simp [Index.refcount?]
    rw [hsome, hcount, Option.isSome_iff_ne_none, Ne, countRow_eq_none]
    simp only [Multiset.count_zero, Nat.cast_zero, add_zero]
    omega
  refcount := by
    intro h row hrow
    have hcount := counted.refcount h
    rw [Index.refcount?, hrow, Option.map_some, eq_comm, countRow_eq_some] at hcount
    simpa using hcount.1.symm
  paired := paired
  unmapped := by
    intro key uncommitted h
    rw [unmapped key uncommitted h, Multiset.count_zero]
    rfl

/-- They count. -/
theorem RefcountConservation.counted {s : Store} (conserved : RefcountConservation s) :
    s.index.Counted 0 := by
  have positive : ∀ p n, s.index.entryBlobs.get p = some n → 0 < n := by
    rintro ⟨key, h⟩ n row
    cases committed : s.index.isCommitted key with
    | false =>
      rw [conserved.unmapped key committed h] at row
      cases row
    | true =>
      obtain ⟨m, -, maps⟩ := conserved.paired key committed
      rw [maps h, countRow_eq_some] at row
      omega
  refine ⟨positive, fun h => ?_⟩
  have nonneg := (Index.refs_le_mappedRefs positive "" h).trans' (?_ : 0 ≤ s.index.refs "" h)
  · rw [Multiset.count_zero, Nat.cast_zero, add_zero, Index.refcount?]
    cases row : s.index.blobs.get h with
    | none =>
      have zero : ¬ 0 < s.index.mappedRefs h := by
        rw [← conserved.row_iff, row]
        simp
      rw [Option.map_none, eq_comm, countRow_eq_none]
      omega
    | some row' =>
      have some_ : 0 < s.index.mappedRefs h := (conserved.row_iff h).mp (row ▸ rfl)
      rw [Option.map_some, conserved.refcount h row' row, eq_comm, countRow_eq_some]
      exact ⟨rfl, by omega⟩
  · rw [Index.refs]
    cases row : s.index.entryBlobs.get ("", h) with
    | none => exact le_rfl
    | some n => exact (positive _ n row).le

namespace Store

variable {slack : Slack} {s : Store}

/-- A sound store without slack conserves references. -/
theorem Sound.refcountConservation (sound : s.Sound .exact) : RefcountConservation s := by
  refine .of_counted sound.counted
    (fun key committed => sound.paired_of_exact ((sound.isCommitted_iff key).mp committed)) ?_
  intro key uncommitted
  rw [← Bool.not_eq_true, sound.isCommitted_iff, Option.not_isSome_iff_eq_none] at uncommitted
  exact sound.unmapped key uncommitted

theorem Sound.finishPublication {published : Store × Bool} (sound : published.1.Sound slack)
    (env : Env) (strict : Bool) (keys : List String) :
    (finishPublication env strict keys published).Sound slack := by
  unfold Kache.finishPublication
  split
  · generalize published.1 = t at sound ⊢
    induction keys generalizing t with
    | nil => exact sound
    | cons key rest ih => exact ih _ (sound.finishStrictDurability env strict key)
  · exact sound

/-- Directories delivered for keys without a row do not matter. -/
theorem Sound.deliver (sound : s.Sound slack) {batch : List (VerifiedRestoredEntry × EntryDir)}
    (absent : ∀ e ∈ batch, s.index.entries.get e.1.cacheKey = none) :
    Sound slack ⟨s.index, deliver batch s.disk⟩ := by
  induction batch generalizing s with
  | nil => exact sound
  | cons e rest ih =>
    obtain ⟨hhead, hrest⟩ := List.forall_mem_cons.mp absent
    have hsound : Sound slack ⟨s.index, s.disk.setDir e.1.cacheKey e.2⟩ := by
      refine sound.of_unregistered hhead fun k hk => ?_
      rw [Disk.metaText?_setDir, if_neg hk]
    exact ih hsound hrest

/-- **A delivery over any key, imported.**  The directory may replace a committed
entry, because the import that accepts it registers it. -/
theorem Sound.importDelivered (sound : s.Sound slack) {env : Env} {now : ℕ} {key : String}
    {delivered : EntryDir}
    (covered : ∀ m, delivered.metaJson.bind (·.parsed) = some m → namesMeta m.files = true →
      key ∈ slack.lost)
    (accepted : (s.index.entries.get key).isSome →
      (checkDownloaded env (s.disk.setDir key delivered) key).toBool = true) :
    (Kache.importDownloadedEntry env now key
      ⟨s.index, s.disk.setDir key delivered⟩).1.Sound slack := by
  have hothers : ∀ k, k ≠ key →
      (s.disk.setDir key delivered).metaText? k = s.disk.metaText? k := by
    intro k hk
    rw [Disk.metaText?_setDir, if_neg hk]
  have hread : (s.disk.setDir key delivered).meta? key = delivered.metaJson.bind (·.parsed) := by
    rw [Disk.meta?, Disk.metaText?_setDir, if_pos rfl]
  by_cases present : (s.index.entries.get key).isSome
  · -- the import commits, and registers the `meta.json` that was delivered
    have hok := accepted present
    cases hcheck : checkDownloaded env (s.disk.setDir key delivered) key with
    | error e =>
      rw [hcheck] at hok
      cases hok
    | ok m =>
      obtain ⟨hmeta, hfiles⟩ := checkDownloaded_ok hcheck
      obtain ⟨idx', disk', hdone⟩ := importScript_commits now hfiles s.index
      have hcovered := covered m (hread ▸ hmeta)
      obtain ⟨hidx, hgrows, -⟩ := importScript_ok hcovered hdone
      have hafter := hgrows.trans (removeArtifacts_grows hcovered disk')
      simp only [Kache.importDownloadedEntry, hcheck, hdone]
      subst hidx
      refine sound.register key m (entryRow env m true false (some now)) rfl ?_ rfl rfl ?_
        fun k hk _ => hothers k hk ▸ hafter.texts k
      · intro k
        simp [Index.insertOrReplaceEntry]
      · exact (hafter.texts key).imp_left fun text => (Disk.meta?_congr text).trans hmeta
  · have habsent : s.index.entries.get key = none := Option.not_isSome_iff_eq_none.mp present
    have hdelivered : Sound slack ⟨s.index, s.disk.setDir key delivered⟩ :=
      sound.of_unregistered habsent hothers
    exact hdelivered.importDownloadedEntry (fun m parses => covered m (hread ▸ parses)) env now

end Store

/-- **One operation keeps a store sound** whose slack covers what it takes. -/
theorem Operation.run_sound {env : Env} {strict : Bool} {slack : Slack} {s : Store}
    {op : Operation} (sound : s.Sound slack) (admissible : op.Admissible env s)
    (covered : metaTaken op.imports ⊆ slack.lost) : (op.run env strict s).Sound slack := by
  cases op with
  | put req live => exact (sound.putEntry env req live).finishPublication env strict _
  | importDownloaded key delivered now =>
    refine Store.Sound.finishPublication (sound.importDelivered ?_ fun row => ?_) env strict _
    · intro m parses named
      exact covered ⟨⟨key, m⟩, by simp [imports, parses], rfl, named⟩
    · exact admissible ((sound.isCommitted_iff key).mpr row)
  | importVerified batch now =>
    refine Store.Sound.finishPublication ?_ env strict _
    refine Store.Sound.importVerifiedRestoredEntries (sound.deliver fun e mem => ?_) covered env now
    have habsent := admissible e mem
    rwa [← Bool.not_eq_true, sound.isCommitted_iff, Option.not_isSome_iff_eq_none] at habsent
  | rebuildOne key => exact sound.rebuildOneEntry env key
  | remove key => exact sound.removeEntry key

/-- **References are conserved.**  After every whole operation of every run from
an empty store whose imports keep `meta.json`, a hash has a `blobs` row exactly
when entries hold references on it, the row counts them, and every committed
entry holds exactly the references its `meta.json` lists. -/
theorem refcount_conservation {env : Env} {strict : Bool} {s : Store}
    (run : Reaches (fun s op => op.Admissible env s ∧ op.KeepsMeta) (Operation.step env strict)
      Store.empty s) :
    RefcountConservation s := by
  have hsound : s.Sound .exact := by
    refine run.invariant (I := Store.Sound .exact) (Store.sound_empty .empty) ?_
    rintro s op s' sound ⟨admissible, keeps⟩ taken
    cases taken
    exact Operation.run_sound sound admissible (metaTaken_eq_empty keeps).subset
  exact hsound.refcountConservation

/-- A key republished with a file list that names one hash twice, next to a
second key and a removal. -/
theorem refcount_conservation_republished :
    ∃ s, Reaches (fun s op => op.Admissible sampleEnv s ∧ op.KeepsMeta)
        (Operation.step sampleEnv true) Store.empty s ∧
      s.index.refcount? digestA = some 2 ∧ s.index.refcount? digestB = none ∧
      RefcountConservation s := by
  obtain ⟨s, run, htest⟩ := exists_reaches_of_replay
    (fun s op => op.Admissible sampleEnv s ∧ op.KeepsMeta) (Operation.step sampleEnv true)
    Store.empty
    [
      .put (sampleRequest sampleKey₁ [sampleOutput "a" [97], sampleOutput "b" [98]]) fun _ => none,
      .put (sampleRequest sampleKey₂ [sampleOutput "a" [97]]) fun _ => none,
      .put (sampleRequest sampleKey₁ [sampleOutput "a" [97], sampleOutput "c" [97]]) fun _ => none,
      .remove sampleKey₂]
    (fun s => s.index.refcount? digestA = some 2 ∧ s.index.refcount? digestB = none)
    (by decide +kernel)
  simp only [decide_eq_true_eq] at htest
  exact ⟨s, run, htest.1, htest.2, refcount_conservation run⟩

/-- An archive whose `meta.json` lists a file `meta.json` of its own length. -/
def selfListing (key : String) : VerifiedRestoredEntry × EntryDir :=
  let listed := putMeta sampleEnv (sampleRequest key []) [⟨"meta.json", 2, digestA, false⟩]
  (⟨key, listed⟩, ⟨some (.written sampleEnv listed), fun _ => none⟩)

/-- **A batch import takes its own `meta.json`**: it becomes the blob of the hash
it is listed with, and the row is committed. -/
theorem import_takes_its_meta :
    ∃ s, Reaches (fun s op => op.Admissible sampleEnv s) (Operation.step sampleEnv false)
        Store.empty s ∧
      s.index.isCommitted sampleKey₁ = true ∧ s.disk.metaText? sampleKey₁ = none ∧
      ¬ RefcountConservation s := by
  obtain ⟨s, run, htest⟩ := exists_reaches_of_replay
    (fun s op => op.Admissible sampleEnv s) (Operation.step sampleEnv false) Store.empty
    [.importVerified [selfListing sampleKey₁] 0]
    (fun s => s.index.isCommitted sampleKey₁ ∧ s.disk.metaText? sampleKey₁ = none)
    (by decide +kernel)
  simp only [decide_eq_true_eq] at htest
  refine ⟨s, run, htest.1, htest.2, fun conserved => ?_⟩
  obtain ⟨m, parses, -⟩ := conserved.paired sampleKey₁ htest.1
  rw [Disk.meta?, htest.2] at parses
  cases parses

/-- The condition on deliveries is needed: an archive that lists a wrong length
is refused by the import, and by then its `meta.json` has replaced the one the
committed row was registered with. -/
example :
    let put := Operation.put (sampleRequest sampleKey₁ [sampleOutput "a" [97]]) fun _ => none
    let listed := putMeta sampleEnv (sampleRequest sampleKey₁ []) [⟨"b", 2, digestB, false⟩]
    let refused := Operation.importDownloaded sampleKey₁
      ⟨some (.written sampleEnv listed), fun name => if name = "b" then some [98] else none⟩ 0
    let s := refused.run sampleEnv false (put.run sampleEnv false Store.empty)
    s.index.refs sampleKey₁ digestA = 1 ∧
      (s.disk.meta? sampleKey₁).map (fun m => m.files.map (·.hash)) = some [digestB] := by
  decide +kernel

end Kache
