import Kache.Eviction.Budget
import Kache.Store.Addressing
import Kache.Store.Backing

/-!
# The store is a dictionary

What a store is for: a publication binds a key to metadata, a removal unbinds it, and a lookup
returns what the key is bound to.  The catalogue of a store is the dictionary that its index and its
`meta.json` files spell.  However the steps of the processes interleave, each of them leaves the
catalogue as it is, except one in every operation, which takes it where the whole operation takes a
dictionary at once (`Atomic`): the registration of a put, the first transaction of a removal, the
transaction of an import or a rebuild.
-/

namespace Kache

/-- Metadata by key. -/
abbrev Dictionary := String → Option EntryMeta

/-- What a store serves: committed rows, with their `meta.json`. -/
def Store.catalogue (s : Store) : Dictionary := fun key =>
  if s.index.isCommitted key then s.disk.meta? key else none

/-- **The dictionary's operations.**  A step of a process is one of them, or none. -/
inductive Atomic (env : Env) (d : Dictionary) : Proc → Action → Dictionary → Prop
  | stutter (proc : Proc) (a : Action) : Atomic env d proc a d
  | put (req : PutRequest) (published : List CachedFile) (live : ℕ → Option Bytes) :
      Atomic env d (.putting req [] published) (.register live)
        (Function.update d req.cacheKey (some (putMeta env req published)))
  | remove (key : String) (text : MetaText) :
      Atomic env d (.removing key text) .removeRows (Function.update d key none)
  | importOne (key : String) (m : EntryMeta) (now : ℕ) :
      Atomic env d (.importing key m) (.importDownloaded now) (Function.update d key (some m))
  /-- A batch binds the keys that are free. -/
  | importBatch (batch : List VerifiedRestoredEntry) (now : ℕ) :
      Atomic env d (.importingBatch batch) (.importBatch now)
        fun k => (d k).or ((batch.find? (·.cacheKey = k)).map (·.entryMeta))
  | rebuild (key : String) (m : EntryMeta) (checked : List CachedFile) (free : d key = none) :
      Atomic env d (.rebuilding key m checked []) .rebuildInsert (Function.update d key (some m))

section Steps

variable {env : Env} {store store' : Store} {disk disk' : Disk} {key : String}
    {m : EntryMeta} {now : ℕ}
  {proc : Proc} {a : Action}

theorem catalogue_of_texts
    (text : ∀ k, (store.index.entries.get k).isSome → disk.metaText? k = store.disk.metaText? k) :
    Store.catalogue ⟨store.index, disk⟩ = store.catalogue := by
  funext k
  unfold Store.catalogue
  split
  · next committed => exact Disk.meta?_congr (text k (Index.isSome_of_isCommitted committed))
  · rfl

theorem catalogue_of_grows (grows : store.disk.Grows ∅ disk) :
    Store.catalogue ⟨store.index, disk⟩ = store.catalogue :=
  catalogue_of_texts fun k _ => grows.metaText? k

/-- A registration binds its key. -/
theorem catalogue_register {row : EntryRow} {files : List CachedFile} (hrow : row.committed)
    (parses : disk.meta? key = some m)
    (others : ∀ k, k ≠ key → disk.metaText? k = store.disk.metaText? k) :
    Store.catalogue ⟨Index.insertOrReplaceEntry key row (Index.registerRefs key files store.index),
        disk⟩ =
      Function.update store.catalogue key (some m) := by
  funext k
  unfold Store.catalogue Index.isCommitted Index.insertOrReplaceEntry
  dsimp only
  rw [Index.entries_registerRefs, Table.get_set, Function.update_apply]
  split
  · next same =>
    subst same
    exact (if_pos hrow).trans parses
  · next other => rw [Disk.meta?_congr (others k other)]

/-- A batch leaves the committed keys of before and its own. -/
theorem isCommitted_restoreEntries {batch : List VerifiedRestoredEntry} {idx idx' : Index}
    (done : Stmt.exec (batch.map (restoreEntry env now)) idx disk = .ok idx' disk') (k : String) :
    idx'.isCommitted k = (idx.isCommitted k || batch.any (·.cacheKey = k)) := by
  induction batch generalizing idx disk with
  | nil =>
    cases done
    simp
  | cons e rest ih =>
    obtain ⟨idx₁, disk₁, first, done⟩ := Outcome.andThen_eq_ok.mp done
    obtain ⟨-, rfl⟩ := restoreEntry_ok first
    have undone : ∀ k, (Index.undoUncommitted e.cacheKey idx).entries.get k =
        (idx.entries.get k).filter fun row => !(k = e.cacheKey && !row.committed) := by
      intro k
      unfold Index.undoUncommitted
      dsimp only
      split <;> rfl
    rw [ih done, List.any_cons, ← Bool.or_assoc]
    congr 1
    unfold Index.isCommitted
    by_cases own : k = e.cacheKey
    · subst own
      cases before : idx.entries.get e.cacheKey with
      | none => simp [undone, before, Index.insertOrReplaceEntry, entryRow]
      | some row =>
        cases committed : row.committed <;>
          simp [undone, before, committed, Index.insertOrReplaceEntry, entryRow, Option.filter]
    · have kept : (Index.undoUncommitted e.cacheKey idx).entries.get k = idx.entries.get k := by
        rw [undone]
        cases idx.entries.get k <;> simp [own]
      rw [decide_eq_false (Ne.symm own), Bool.or_false]
      split
      · rw [kept]
      · rw [Index.insertOrReplaceEntry, Table.get_set, if_neg own, Index.entries_registerRefs, kept]

theorem catalogue_importBatch (sound : store.Sound .exact) {batch : List VerifiedRestoredEntry}
    {idx : Index}
    (done : Stmt.exec (batch.map (restoreEntry env now)) store.index store.disk = .ok idx disk)
    (registers : ∀ e ∈ batch, store.index.entries.get e.cacheKey = none →
      store.disk.meta? e.cacheKey = some e.entryMeta)
    (keeps : metaTaken batch = ∅) :
    Store.catalogue ⟨idx, disk⟩ =
      fun k => (store.catalogue k).or ((batch.find? (·.cacheKey = k)).map (·.entryMeta)) := by
  have grows := restoreEntries_grows env now batch store.index store.disk
  rw [done, keeps] at grows
  funext k
  have text : disk.metaText? k = store.disk.metaText? k := grows.metaText? k
  unfold Store.catalogue
  dsimp only
  rw [isCommitted_restoreEntries done, Disk.meta?_congr text]
  cases committed : store.index.isCommitted k with
  | true =>
    obtain ⟨m, parses, -⟩ := sound.paired_of_exact (Index.isSome_of_isCommitted committed)
    simp [parses]
  | false =>
    cases found : batch.find? (·.cacheKey = k) with
    | none =>
      rw [List.any_eq_false.mpr (List.find?_eq_none.mp found)]
      rfl
    | some e =>
      have mem := List.mem_of_find?_eq_some found
      have own : e.cacheKey = k := by simpa using List.find?_some found
      rw [List.any_eq_true.mpr ⟨e, mem, decide_eq_true own⟩, ← own, registers e mem]
      · rfl
      · rwa [own, ← Option.not_isSome_iff_eq_none, ← sound.isCommitted_iff, Bool.not_eq_true]

/-- **One step of a process is one operation of the dictionary, or none.** -/
theorem Effect.atomic (effect : Effect env store proc a store') (sound : store.Sound .exact)
    (extracts : extractsUnregistered store proc a = true)
    (registers : registersWhatItChecked store proc a = true) (keeps : keepsMeta proc a = true) :
    Atomic env store.catalogue proc a store'.catalogue := by
  have stutters : ∀ {t : Store} {proc a}, t.catalogue = store.catalogue →
      Atomic env store.catalogue proc a t.catalogue := fun same => same ▸ .stutter _ _
  -- what is done to a directory without a row is not seen
  have hidden : ∀ {key} {disk : Disk}, (store.index.entries.get key).isNone →
      (∀ k, k ≠ key → disk.metaText? k = store.disk.metaText? k) →
      Store.catalogue ⟨store.index, disk⟩ = store.catalogue := by
    intro key disk absent others
    refine catalogue_of_texts fun k row => others k ?_
    rintro rfl
    rw [Option.isNone_iff_eq_none.mp absent] at row
    cases row
  cases effect with
  | reads => exact .stutter _ _
  | publish req out rest published =>
    exact stutters (catalogue_of_grows (publishOutput_grows env req.crateTypes out store.disk))
  | register req published live =>
    rcases commit_putScript env req.cacheKey (putMeta env req published) live store with
      ⟨grown, grows, commit⟩ | ⟨grown, grows, -, commit⟩
    · rw [commit]
      exact stutters (catalogue_of_grows grows)
    · have text := metaText?_after_put env req.cacheKey (putMeta env req published) grown
      rw [commit, catalogue_register (m := putMeta env req published) rfl]
      · exact .put req published live
      · exact Disk.meta?_eq_of_text ((text _).trans (if_pos rfl)) rfl
      · intro k other
        rw [text, if_neg other, grows.metaText?]
  | @removeRows key text m idx unlink parses done =>
    have unbound :
        Store.catalogue ⟨idx, store.disk⟩ = Function.update store.catalogue key none := by
      funext k
      unfold Store.catalogue Index.isCommitted
      rw [Eviction.entries_removeRows done, Function.update_apply]
      split <;> rfl
    rw [unbound]
    exact .remove key text
  | removeCleanup key unlink =>
    exact stutters (catalogue_of_texts fun k row => metaText?_removeCleanup_of_row row key unlink)
  | sweepUnlink candidates =>
    refine stutters (catalogue_of_texts fun k _ => ?_)
    rw [Kache.sweepUnlink, Disk.metaText?_congr (dirs_unlinkUnreferenced _ _ _)]
  | extractClear key batch =>
    refine stutters (hidden extracts fun k other => ?_)
    rw [Disk.metaText?_removeDir, if_neg other]
  | extractPlace key batch dir =>
    exact stutters (hidden extracts fun k other => metaText?_placeDir_of_ne other dir store.disk)
  | @importDownloaded key m now idx disk done =>
    obtain ⟨rfl, grows, -⟩ :=
      importScript_ok (fun named => by simp [keepsMeta, named] at keeps) done
    rw [catalogue_register (m := m) rfl _ fun k _ => grows.metaText? k]
    · exact .importOne key m now
    · rw [Disk.meta?_congr (grows.metaText? key)]
      simpa [registersWhatItChecked] using registers
  | importDownloadedFailed grows =>
    rw [metaTaken_of_keeps (by simpa [keepsMeta] using keeps)] at grows
    exact stutters (catalogue_of_grows grows)
  | @importBatch batch now idx disk done =>
    rw [catalogue_importBatch sound done]
    · exact .importBatch batch now
    · intro e mem absent
      simp only [registersWhatItChecked, List.all_eq_true, Bool.or_eq_true] at registers
      simpa [absent] using registers e mem
    · exact metaTaken_of_keeps keeps
  | importBatchFailed grows =>
    exact stutters (catalogue_of_grows (metaTaken_of_keeps keeps ▸ grows))
  | tidy batch =>
    have grows := removeRestoredArtifacts_grows batch store.disk
    exact stutters (catalogue_of_grows (metaTaken_of_keeps keeps ▸ grows))
  | discard key rest =>
    unfold discardUncommittedRestoredEntry
    split
    · exact .stutter _ _
    · next keep =>
      simp only [Bool.or_eq_true, not_or, sound.isCommitted_iff] at keep
      have absent := Option.isNone_iff_eq_none.mpr (Option.not_isSome_iff_eq_none.mp keep.2)
      refine stutters (hidden absent fun k other => ?_)
      rw [Disk.metaText?_removeDir, if_neg other]
  | rebuildInsert key m checked =>
    cases row : store.index.entries.get key with
    | some _ =>
      rw [rebuildInsert_of_present (by rw [row]; rfl)]
      exact .stutter _ _
    | none =>
      rw [rebuildInsert_of_absent row, catalogue_register (m := m) rfl _ fun _ _ => rfl]
      · exact .rebuild key m checked (by simp [Store.catalogue, Index.isCommitted, row])
      · simpa [registersWhatItChecked, row] using registers

end Steps

/-! ## All interleavings -/

/-- The process that moves extracts over no row, registers what it checked and takes
no `meta.json`. -/
def movesInOrder (s : Processes) (a : ℕ × Action) : Prop :=
  ∀ proc ∈ s.procs[a.1]?,
    extractsUnregistered s.shared proc a.2 = true ∧
      registersWhatItChecked s.shared proc a.2 = true ∧ keepsMeta proc a.2 = true

instance (s : Processes) (a : ℕ × Action) : Decidable (movesInOrder s a) :=
  inferInstanceAs (Decidable (∀ proc ∈ s.procs[a.1]?, _))

/-- **The interleaved store is a dictionary with atomic operations.**  In every state that any
number of processes reach, the next step of a process is an operation of the dictionary or changes
nothing in it, as long as imports and rebuilds find what they checked, extract over no row and list
no `meta.json`. -/
theorem interleavings_refine_dictionary {env : Env} {n : ℕ} {s : Processes}
    (run : Reaches movesInOrder (System.step (transition env)) (Processes.over Store.empty n) s)
    {p : ℕ} {a : Action} {proc : Proc} {s' : Processes} (there : s.procs[p]? = some proc)
    (order : movesInOrder s (p, a)) (taken : System.step (transition env) s (p, a) = some s') :
    Atomic env s.shared.catalogue proc a s'.shared.catalogue := by
  have sound : s.shared.Sound .exact := by
    refine run.shared_invariant (I := Store.Sound .exact) (Store.sound_empty .empty) ?_
    intro s p a proc next there sound order taken
    obtain ⟨extracts, registers, keeps⟩ := order proc there
    exact (transition_effect taken).sound sound extracts registers keeps
  obtain ⟨proc', next, there', taken, rfl⟩ := System.step_eq_some.mp taken
  cases there.symm.trans there'
  obtain ⟨extracts, registers, keeps⟩ := order proc there
  exact (transition_effect taken).atomic sound extracts registers keeps

/-- A put that registers after another process has removed what its key was bound to. -/
theorem interleavings_refine_dictionary_rebound : ∃ (s s' : Processes) (proc : Proc),
    s.shared.catalogue sampleKey₁ = none ∧ (s'.shared.catalogue sampleKey₁).isSome ∧
      Atomic sampleEnv s.shared.catalogue proc (.register fun _ => none) s'.shared.catalogue := by
  obtain ⟨s, run, test⟩ := exists_reaches_of_replay movesInOrder
    (System.step (transition sampleEnv)) (Processes.over Store.empty 2)
    (putActions 0 sampleKey₁ [sampleOutput "a" [97]] ++
      [(0, .startPut (sampleRequest sampleKey₁ [sampleOutput "b" [98]])), (0, .publish),
        (1, .removeRead sampleKey₁), (1, .removeRows), (1, .removeCleanup)])
    (fun s => movesInOrder s (0, .register fun _ => none) &&
      (s.shared.catalogue sampleKey₁).isNone &&
      (System.step (transition sampleEnv) s (0, .register fun _ => none)).any
        fun s' => (s'.shared.catalogue sampleKey₁).isSome)
    (by decide +kernel)
  simp only [Bool.and_eq_true, decide_eq_true_eq, Option.isNone_iff_eq_none,
    Option.any_eq_true] at test
  obtain ⟨⟨order, unbound⟩, s', taken, bound⟩ := test
  obtain ⟨proc, next, there, -, -⟩ := System.step_eq_some.mp taken
  exact ⟨s, s', proc, unbound, bound, interleavings_refine_dictionary run there order taken⟩

/-- **Counts are exact and entries backed across processes.**  Whatever puts, removals and orphan
sweeps any number of processes interleave, and whichever of them die between two steps of the table:
a publication of one output, a registration, the reading, the transaction and the cleanup of a
removal, the scan and the unlinking of a sweep. -/
theorem interleavings_conserve_references {env : Env} {n : ℕ} {s : Processes}
    (run : Reaches (fun _ a => a.2.isPutRemoveOrSweep = true) (System.step (transition env))
      (Processes.over Store.empty n) s) :
    RefcountConservation s.shared ∧ s.shared.Backed := by
  have kept : s.shared.Sound .exact ∧ s.shared.FilesPresent := by
    refine run.shared_invariant (I := fun store => store.Sound .exact ∧ store.FilesPresent) ?_ ?_
    · refine ⟨Store.sound_empty .empty, fun h row found => ?_⟩
      simp [Processes.over, System.start, Store.empty, Index.empty] at found
    · rintro s p a proc next - ⟨sound, files⟩ scope taken
      have effect := transition_effect taken
      -- none of these steps extracts, or registers what another step has checked
      have local_ : extractsUnregistered s.shared proc a = true ∧
          registersWhatItChecked s.shared proc a = true ∧ keepsMeta proc a = true := by
        unfold extractsUnregistered registersWhatItChecked keepsMeta
        refine ⟨?_, ?_, ?_⟩ <;> split <;> first | rfl | cases scope
      refine ⟨effect.sound sound local_.1 local_.2.1 local_.2.2,
        effect.filesPresent files fun rebuild => ?_⟩
      subst rebuild
      cases scope
  exact ⟨kept.1.refcountConservation, kept.1.backed kept.2⟩

/-- A removal of one process between the two steps of another one's put, which then dies. -/
theorem interleavings_conserve_references_dead : ∃ s : Processes,
    s.shared.index.refcount? digestA = some 1 ∧
    RefcountConservation s.shared ∧ s.shared.Backed := by
  obtain ⟨s, run, test⟩ := exists_reaches_of_replay (fun _ a => a.2.isPutRemoveOrSweep = true)
    (System.step (transition sampleEnv)) (Processes.over Store.empty 2)
    (putActions 0 sampleKey₁ [sampleOutput "a" [97]] ++
      putActions 0 sampleKey₂ [sampleOutput "a" [97]] ++
      [(1, .startPut (sampleRequest sampleKey₁ [sampleOutput "b" [98]])), (1, .publish),
        (0, .removeRead sampleKey₁), (0, .removeRows), (1, .die), (0, .removeCleanup)])
    (fun s => s.shared.index.refcount? digestA = some 1) (by decide +kernel)
  exact ⟨s, by simpa using test, interleavings_conserve_references run⟩

end Kache
