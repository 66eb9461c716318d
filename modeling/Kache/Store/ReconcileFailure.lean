import Kache.Store.Reconciled

/-!
# Reconciliations that fail

The dropping form deletes the row of an entry and then its directory, one entry after the other, in
one transaction.  Where the transaction fails, SQLite brings the rows back and nothing brings the
directories back.  `failed_reconcile_keeps_directories_iff` says for every failing step when all
directories survive: when those whose turn had come did not exist.
-/

namespace Kache

/-- The steps of a call that drops. -/
def droppingSteps (s : Store) : List ReconcileStep :=
  match authoritativeBlobIndex s.disk true s.index with
  | .ok scanned => reconcileSteps scanned.1 scanned.2 s.index
  | .error _ => []

namespace ReconcileFault

/-- The call comes as far as the fault. -/
def Strikes (s : Store) : ReconcileFault → Prop
  | opening => True
  | step n _ => n ≤ (droppingSteps s).length

/-- The entries whose turn came before the fault had no directory, and a removal that failed left
its directory as it was. -/
def SparesDirectories (layout : Layout) (s : Store) : ReconcileFault → Prop
  | opening => True
  | step n left =>
    (∀ key ∈ (unverifiable s).take (n / 2), ∀ k, (layout.reach key).dirs k = true →
      s.disk.dirs k = none) ∧
    (n % 2 = 1 → ∀ key, (unverifiable s)[n / 2]? = some key →
      ∀ k, (layout.reach key).dirs k = true → (s.disk.dirs k).isSome →
        left.dirs k = s.disk.dirs k)

end ReconcileFault

section Steps

variable (layout : Layout)

/-- After `n` steps the directories of the first `n / 2` dropped entries are gone. -/
theorem foldl_onDisk_take (dropped : List String) {rest : List ReconcileStep}
    (others : ∀ step ∈ rest, ∀ key, step ≠ .removeDir key) (n : ℕ) (disk : Disk) :
    ((dropSteps dropped ++ rest).take n).foldl (fun disk step => step.onDisk layout disk) disk
      = (dropped.take (n / 2)).foldl
          (fun disk key => disk.removeDirAll (layout.reach key)) disk := by
  induction dropped generalizing n disk with
  | nil =>
    rw [List.take_nil]
    exact foldl_onDisk_of_no_removal layout
      (fun step mem => others step (List.mem_of_mem_take mem)) disk
  | cons key dropped ih =>
    match n with
    | 0 => rfl
    | 1 => rfl
    | n + 2 =>
      rw [Nat.add_div_right n Nat.zero_lt_two]
      exact ih n (disk.removeDirAll (layout.reach key))

/-- Every other of the first steps is a removal. -/
theorem getElem?_dropSteps_append (dropped : List String) {rest : List ReconcileStep}
    (others : ∀ step ∈ rest, ∀ key, step ≠ .removeDir key) (n : ℕ) (key : String) :
    (dropSteps dropped ++ rest)[n]? = some (.removeDir key) ↔
      n % 2 = 1 ∧ dropped[n / 2]? = some key := by
  induction dropped generalizing n with
  | nil =>
    rw [List.getElem?_nil]
    refine ⟨fun found => ?_, fun h => nomatch h.2⟩
    exact absurd rfl (others _ (List.mem_of_getElem? found) key)
  | cons first dropped ih =>
    match n with
    | 0 => exact ⟨fun h => (nomatch h), fun h => (nomatch h.1)⟩
    | 1 =>
      show some (ReconcileStep.removeDir first) = _ ↔ 1 % 2 = 1 ∧ some first = some key
      simp
    | n + 2 =>
      rw [Nat.add_div_right n Nat.zero_lt_two, Nat.add_mod_right]
      exact ih n

/-- The directories after some of the removals. -/
theorem dirs_foldl_removeDirAll (keys : List String) (disk : Disk) (k : String) :
    (keys.foldl (fun disk key => disk.removeDirAll (layout.reach key)) disk).dirs k
      = if ∃ key ∈ keys, (layout.reach key).dirs k = true then none else disk.dirs k := by
  induction keys generalizing disk with
  | nil => simp
  | cons key rest ih =>
    rw [List.foldl_cons, ih, Disk.dirs_removeDirAll]
    by_cases first : (layout.reach key).dirs k = true
    · simp [first]
    · simp [first]

end Steps

/-- A call that fails at step `n`: the rows are back, the directories are not. -/
theorem reconcileDropping_failed (layout : Layout) {n : ℕ} (left : Disk) {s : Store}
    (inside : n ≤ (droppingSteps s).length) :
    ∃ rest, (∀ step ∈ rest, ∀ key, step ≠ ReconcileStep.removeDir key) ∧
      reconcileBlobIndexDroppingUnverifiable layout false (some (.step n left)) s
        = (.error (ReconcileStep.error (dropSteps (unverifiable s) ++ rest)[n]?),
            ⟨s.index, ReconcileStep.failed layout left (dropSteps (unverifiable s) ++ rest)[n]?
              (((unverifiable s).take (n / 2)).foldl
                (fun disk key => disk.removeDirAll (layout.reach key)) s.disk)⟩) := by
  obtain ⟨expected, scanned, -⟩ := reconcileDropping_eq layout s
  rw [droppingSteps, scanned] at inside
  have others : ∀ step ∈ ReconcileStep.readGraph ::
      (if (driftAfterDropping expected (unverifiable s) s.index).total = 0 then []
        else rewriteSteps expected), ∀ key, step ≠ ReconcileStep.removeDir key := by
    refine List.forall_mem_cons.mpr ⟨nofun, ?_⟩
    split
    · simp
    · exact rewriteSteps_no_removal expected
  refine ⟨_, others, ?_⟩
  rw [← foldl_onDisk_take layout (unverifiable s) others]
  have failed : reconcileBlobIndexDroppingUnverifiable layout false (some (.step n left)) s
      = reconcileFailed layout n left expected (unverifiable s) s := by
    simp only [reconcileBlobIndexDroppingUnverifiable, reconcileBlobIndexWith, Bool.false_eq_true,
      if_false, scanned, reconcileTransaction]
    exact if_pos inside
  rw [failed, reconcileFailed, Store.interrupted_stmt]
  rfl

/-- **One directory.**  It is there after the failed call when no removal that was through had it
inside, and a removal that failed left it. -/
theorem dirs_failed_iff {layout : Layout} {earlier : List String} {step : Option ReconcileStep}
    {left disk : Disk} {k : String} {dir : EntryDir} (present : disk.dirs k = some dir) :
    (ReconcileStep.failed layout left step
        (earlier.foldl (fun disk key => disk.removeDirAll (layout.reach key)) disk)).dirs k
          = some dir ↔
      (∀ key ∈ earlier, (layout.reach key).dirs k = false) ∧
        ∀ key, step = some (.removeDir key) → (layout.reach key).dirs k = true →
          left.dirs k = some dir := by
  have removed := dirs_foldl_removeDirAll layout earlier disk k
  generalize earlier.foldl (fun disk key => disk.removeDirAll (layout.reach key)) disk = after
    at removed
  by_cases taken : ∃ key ∈ earlier, (layout.reach key).dirs k = true
  · -- a directory that is gone does not come back
    rw [if_pos taken] at removed
    have gone : (ReconcileStep.failed layout left step after).dirs k = none := by
      unfold ReconcileStep.failed
      split
      · simp [Disk.removeWithin, removed]
      · exact removed
    rw [gone]
    obtain ⟨key, mem, within⟩ := taken
    refine ⟨nofun, fun kept => ?_⟩
    rw [kept.1 key mem] at within
    cases within
  · rw [if_neg taken, present] at removed
    have kept : ∀ key ∈ earlier, (layout.reach key).dirs k = false := by
      intro key mem
      exact Bool.eq_false_iff.mpr fun within => taken ⟨key, mem, within⟩
    rw [and_iff_right kept]
    unfold ReconcileStep.failed
    split
    · next key =>
      by_cases within : (layout.reach key).dirs k = true
      · simp [Disk.removeWithin, removed, within]
      · simp [Disk.removeWithin, removed, within]
    · next other =>
      rw [removed]
      exact ⟨fun _ key eq => absurd eq (other key), fun _ => rfl⟩

/-- **When a failed reconciliation loses no directory.**  Wherever the dropping form fails it
returns an error and the index is what it was.  The directories that existed are all as they were
exactly when the store was read-only, or the entries whose turn had come had no directory and a
removal that failed left its directory alone. -/
theorem failed_reconcile_keeps_directories_iff (layout : Layout) (readOnly : Bool)
    (fault : ReconcileFault) (s : Store) (strikes : fault.Strikes s) :
    let called := reconcileBlobIndexDroppingUnverifiable layout readOnly (some fault) s
    (∃ e, called.1 = .error e) ∧ called.2.index = s.index ∧
      ((∀ key, (s.disk.dirs key).isSome → called.2.disk.dirs key = s.disk.dirs key) ↔
        readOnly = true ∨ fault.SparesDirectories layout s) := by
  intro called
  cases readOnly with
  | true => exact ⟨⟨_, rfl⟩, rfl, fun _ => .inl rfl, fun _ _ _ => rfl⟩
  | false =>
    cases fault with
    | opening => exact ⟨⟨_, rfl⟩, rfl, fun _ => .inr trivial, fun _ _ _ => rfl⟩
    | step n left =>
      obtain ⟨rest, others, failed⟩ := reconcileDropping_failed layout left strikes
      have result : called = _ := failed
      rw [result]
      refine ⟨⟨_, rfl⟩, rfl, ?_⟩
      have turn := getElem?_dropSteps_append (unverifiable s) others n
      constructor
      · intro unchanged
        have each : ∀ k dir, s.disk.dirs k = some dir → _ := fun k dir present =>
          (dirs_failed_iff present).mp ((unchanged k (by simp [present])).trans present)
        refine .inr ⟨fun key mem k within => ?_, fun odd key found k within present => ?_⟩
        · by_contra present
          obtain ⟨dir, present⟩ := Option.ne_none_iff_exists'.mp present
          rw [(each k dir present).1 key mem] at within
          cases within
        · obtain ⟨dir, present⟩ := Option.isSome_iff_exists.mp present
          rw [present]
          exact (each k dir present).2 key ((turn key).mpr ⟨odd, found⟩) within
      · rintro (⟨⟨⟩⟩ | ⟨earlier, own⟩) k present
        obtain ⟨dir, present⟩ := Option.isSome_iff_exists.mp present
        rw [present]
        refine (dirs_failed_iff present).mpr ⟨fun key mem => ?_, fun key found within => ?_⟩
        · refine Bool.eq_false_iff.mpr fun within => ?_
          rw [earlier key mem k within] at present
          cases present
        · obtain ⟨odd, found⟩ := (turn key).mp found
          rw [own odd key found k within (by simp [present]), present]

/-- Two committed entries whose directories have lost their metadata. -/
def hollowStore : Store where
  index :=
    { Index.empty with
      entries := (Table.empty.set sampleKey₁ (entryRow sampleEnv sampleMeta true false none)).set
        sampleKey₂ (entryRow sampleEnv sampleMeta true false none) }
  disk :=
    { Disk.empty with
      dirs := fun k => if k = sampleKey₁ ∨ k = sampleKey₂ then some .empty else none }

theorem unverifiable_hollowStore : unverifiable hollowStore = [sampleKey₁, sampleKey₂] := by
  have keys : committedKeys hollowStore.index = [sampleKey₁, sampleKey₂] := by
    refine committedKeys_eq_of_sorted (by decide) (by decide) fun key => ?_
    by_cases first : key = sampleKey₁
    · subst first
      decide
    · by_cases second : key = sampleKey₂
      · subst second
        decide
      · simp [hollowStore, Index.isCommitted, Index.empty, first, second]
  rw [unverifiable, keys]
  decide +kernel

/-- The directory of the second entry cannot be removed.  The call fails, both rows are committed
again, and the first of them has lost its directory. -/
theorem second_removal_fails_first_directory_lost :
    let called := reconcileBlobIndexDroppingUnverifiable .plain false
      (some (.step 3 hollowStore.disk)) hollowStore
    called.1 = .error (.directory sampleKey₂) ∧ called.2.index.isCommitted sampleKey₁ = true ∧
      (hollowStore.disk.dirs sampleKey₁).isSome ∧ called.2.disk.dirs sampleKey₁ = none := by
  intro called
  obtain ⟨expected, scanned, -⟩ := reconcileDropping_eq .plain hollowStore
  have inside : 3 ≤ (droppingSteps hollowStore).length := by
    rw [droppingSteps, scanned, unverifiable_hollowStore]
    simp [reconcileSteps, dropSteps]
  obtain ⟨rest, others, failed⟩ := reconcileDropping_failed .plain hollowStore.disk inside
  have result : called = _ := failed
  rw [unverifiable_hollowStore] at result
  rw [result]
  refine ⟨rfl, ?_, by decide, ?_⟩
  · show hollowStore.index.isCommitted sampleKey₁ = true
    decide
  · show (Disk.removeWithin (Disk.removeDirAll (Layout.plain.reach sampleKey₁) hollowStore.disk)
      (Layout.plain.reach sampleKey₂) hollowStore.disk).dirs sampleKey₁ = none
    decide

/-- A row without a directory is dropped and the read behind it fails: nothing is lost. -/
theorem failed_reconcile_keeps_directories_of_stray_row :
    let called := reconcileBlobIndexDroppingUnverifiable .plain false (some (.step 2 .empty))
      (strayRowStore sampleKey₂)
    (∃ e, called.1 = .error e) ∧ called.2.index = (strayRowStore sampleKey₂).index ∧
      ∀ key, ((strayRowStore sampleKey₂).disk.dirs key).isSome →
        called.2.disk.dirs key = (strayRowStore sampleKey₂).disk.dirs key := by
  have alone := unverifiable_strayRowStore (show sampleKey₂ ≠ sampleKey₁ by decide)
  have strikes : (ReconcileFault.step 2 .empty).Strikes (strayRowStore sampleKey₂) := by
    obtain ⟨expected, scanned, -⟩ := reconcileDropping_eq .plain (strayRowStore sampleKey₂)
    rw [ReconcileFault.Strikes, droppingSteps, scanned, alone]
    simp [reconcileSteps, dropSteps]
  obtain ⟨failed, index, kept⟩ :=
    failed_reconcile_keeps_directories_iff .plain false (.step 2 .empty) _ strikes
  refine ⟨failed, index, kept.mpr (.inr ⟨fun key mem k within => ?_, fun impossible => ?_⟩)⟩
  · rw [alone] at mem
    cases List.mem_singleton.mp mem
    have own : k = sampleKey₂ := of_decide_eq_true within
    subst own
    rfl
  · cases impossible

end Kache
