import Kache.Scheduler.Pool
import Mathlib.Data.Finset.Card
import Mathlib.Order.Interval.Finset.Nat

/-!
# Tests do not block compiles

A test may itself wait for a compile, so a compile must not wait for tests to end.
Once it has waited it asks for no more than the slots tests leave, by the count of
their markers, or for the reserve when it cannot count them.  Where every held slot is
a test's and marked, either is at most what is free (`free_card`), and a scan that
nobody interferes with then gets all of it: the free slots ahead of the scan are never
fewer than what it still lacks (`Fits`).
-/

namespace Kache.Scheduler

/-! ## Counting the tests -/

/-- What probing the marker of slot `i` can give: an error, or the truth. -/
def CanProbe (σ : Shared) (i : ℕ) (probe : Option Bool) : Prop :=
  probe = none ∨ probe = some (σ.markers.get i).isSome

/-- What `tests_held` can find while the locks are `σ`.  A locked marker has a file, so
the directory is there, and lists it. -/
inductive CanRead (σ : Shared) : TestsDir → Prop
  | notFound (unlocked : ∀ i, σ.markers.get i = none) : CanRead σ .notFound
  | unreadable : CanRead σ .unreadable
  | entries {files : List ℕ} {probes : List (Option Bool)} (nodup : files.Nodup)
      (listed : ∀ i, (σ.markers.get i).isSome → i ∈ files)
      (probed : List.Forall₂ (CanProbe σ) files probes) : CanRead σ (.entries probes)

variable {pool : Pool} {p n : ℕ} {σ : Shared} {s : System Shared Proc}

/-- Probes without an error count the locked markers among the files. -/
theorem count_probes {files : List ℕ} {probes : List (Option Bool)}
    (probed : List.Forall₂ (CanProbe σ) files probes) (clean : none ∉ probes) :
    probes.count (some true) = (files.filter fun i => (σ.markers.get i).isSome).length := by
  induction probed with
  | nil => rfl
  | @cons i probe files probes first _ ih =>
    obtain ⟨hprobe, hclean⟩ := not_or.mp (mt List.mem_cons.mpr clean)
    have truth : probe = some (σ.markers.get i).isSome :=
      first.resolve_left fun error => hprobe error.symm
    rw [List.count_cons, ih hclean, List.filter_cons, truth]
    cases (σ.markers.get i).isSome <;> simp

/-- **The count is right or given up.** -/
theorem testsHeld_eq {dir : TestsDir} (read : CanRead σ dir) :
    testsHeld dir = σ.markers.keys.card ∨ testsHeld dir = u32Max := by
  cases read with
  | notFound unlocked =>
    have empty : σ.markers.keys = ∅ := by
      ext i
      simp [σ.markers.mem_keys, unlocked]
    exact .inl (by simp [testsHeld, empty])
  | unreadable => exact .inr rfl
  | @entries files probes nodup listed probed =>
    by_cases error : none ∈ probes
    · exact .inr (by simp [testsHeld, error])
    · left
      have same : (files.filter fun i => (σ.markers.get i).isSome).toFinset =
          σ.markers.keys := by
        ext i
        rw [List.mem_toFinset, List.mem_filter, σ.markers.mem_keys]
        exact ⟨fun h => h.2, fun locked => ⟨listed i locked, locked⟩⟩
      simp only [testsHeld, error, if_false, count_probes probed error]
      rw [← same, List.toFinset_card_of_nodup (nodup.filter _)]

/-! ## What tests leave -/

/-- The free slots from `first` on. -/
def freeFrom (pool : Pool) (σ : Shared) (first : ℕ) : Finset ℕ :=
  (Finset.Ico first pool.size).filter fun i => σ.slots.get i = none

/-- The free slots. -/
def freeSlots (pool : Pool) (σ : Shared) : Finset ℕ := freeFrom pool σ 0

/-- Every held slot is a test's, and its marker is locked. -/
def TestsOnly (σ : Shared) : Prop := ∀ i q, σ.slots.get i = some q → σ.markers.get i = some q

/-- Held slots are slots of the pool, tests' slots are above the reserve. -/
theorem Run.slots_subset (run : Run pool n s) (tests : TestsOnly s.shared) :
    s.shared.slots.keys ⊆ Finset.Ico (reserveFor pool.size) pool.size := by
  intro i mem
  obtain ⟨q, held⟩ := Option.isSome_iff_exists.mp ((s.shared.slots.mem_keys i).mp mem)
  obtain ⟨-, proc, found, test⟩ := run.marked (tests i q held)
  have sound := run.sound found
  have own := (sound.slots.mem_iff i).mp held
  exact Finset.mem_Ico.mpr ⟨sound.aboveReserve test i own, sound.inPool i own⟩

theorem Run.keys_eq (run : Run pool n s) (tests : TestsOnly s.shared) :
    s.shared.markers.keys = s.shared.slots.keys := by
  ext i
  simp only [s.shared.markers.mem_keys, s.shared.slots.mem_keys, Option.isSome_iff_exists]
  constructor
  · rintro ⟨q, locked⟩
    exact ⟨q, (run.marked locked).1⟩
  · rintro ⟨q, held⟩
    exact ⟨q, tests i q held⟩

/-- What is not held is free. -/
theorem Run.free_card (run : Run pool n s) (tests : TestsOnly s.shared) :
    (freeSlots pool s.shared).card = pool.size - s.shared.slots.keys.card := by
  have split : freeSlots pool s.shared = Finset.range pool.size \ s.shared.slots.keys := by
    ext i
    simp [freeSlots, freeFrom, s.shared.slots.mem_keys]
  have inside : s.shared.slots.keys ⊆ Finset.range pool.size := by
    intro i mem
    exact Finset.mem_range.mpr (Finset.mem_Ico.mp (run.slots_subset tests mem)).2
  rw [split, Finset.card_sdiff_of_subset inside, Finset.card_range]

/-- **What a compile that has waited asks for is free.** -/
theorem Run.compileNeed_le_free (run : Run pool n s) (tests : TestsOnly s.shared) (weight : ℕ)
    {dir : TestsDir} (read : CanRead s.shared dir) :
    compileNeed weight pool.size true (testsHeld dir) ≤ (freeSlots pool s.shared).card := by
  have few := Finset.card_le_card (run.slots_subset tests)
  rw [Nat.card_Ico] at few
  have reserve := reserveFor_le pool
  have answer := testsHeld_eq read
  rw [run.keys_eq tests] at answer
  rw [run.free_card tests]
  exact Kache.Scheduler.compileNeed_le_free pool weight (by omega) answer

/-! ## A scan alone -/

/-- What an attempt finds when no probe is at the lock and nothing fails. -/
def truth (σ : Shared) (i : ℕ) : Answer := if σ.slots.get i = none then .acquired else .busy

/-- The steps of an uncontended scan of process `p`: nobody else moves, and the locks
are what they are. -/
def Uncontended (p : ℕ) (s : System Shared Proc) (a : ℕ × Action) : Prop :=
  ∃ scan, s.procs[p]? = some (.scanning scan) ∧
    (a = (p, .attempt (truth s.shared scan.next)) ∨ a = (p, .exhausted))

/-- Process `p` has a permit of `need` slots. -/
def Collected (p need : ℕ) (s : System Shared Proc) : Prop :=
  ∃ scan, s.procs[p]? = some (.compiling scan) ∧ scan.got.length = need

/-- Process `p` scans for `need` slots, has too few yet, and there are enough ahead. -/
structure Fits (pool : Pool) (p need : ℕ) (s : System Shared Proc) (scan : Scan) : Prop where
  found : s.procs[p]? = some (.scanning scan)
  compile : ∃ weight, scan.job = .compile weight
  asking : scan.asking = need
  few : scan.got.length < need
  ahead : need ≤ scan.got.length + (freeFrom pool s.shared scan.next).card

/-- A free slot counts once. -/
theorem freeFrom_lock {i : ℕ} (inside : i < pool.size) (unlocked : σ.slots.get i = none) :
    (freeFrom pool (σ.lockSlot p i) (i + 1)).card + 1 = (freeFrom pool σ i).card := by
  have rest : freeFrom pool (σ.lockSlot p i) (i + 1) = freeFrom pool σ (i + 1) := by
    refine Finset.filter_congr fun j mem => ?_
    have other : j ≠ i := by
      have := (Finset.mem_Ico.mp mem).1
      omega
    simp [Shared.lockSlot, Table.get_set, other]
  have first : freeFrom pool σ i = insert i (freeFrom pool σ (i + 1)) := by
    ext j
    simp only [freeFrom, Finset.mem_filter, Finset.mem_Ico, Finset.mem_insert]
    constructor
    · rintro ⟨⟨low, high⟩, hj⟩
      exact (Nat.eq_or_lt_of_le low).imp Eq.symm fun above => ⟨⟨above, high⟩, hj⟩
    · rintro (rfl | ⟨⟨above, high⟩, hj⟩)
      · exact ⟨⟨Nat.le_refl j, inside⟩, unlocked⟩
      · exact ⟨⟨by omega, high⟩, hj⟩
  rw [rest, first, Finset.card_insert_of_notMem]
  simp [freeFrom]

/-- A held slot does not count. -/
theorem freeFrom_held {i q : ℕ} (held : σ.slots.get i = some q) :
    freeFrom pool σ (i + 1) = freeFrom pool σ i := by
  ext j
  simp only [freeFrom, Finset.mem_filter, Finset.mem_Ico]
  constructor
  · rintro ⟨⟨low, high⟩, unlocked⟩
    exact ⟨⟨by omega, high⟩, unlocked⟩
  · rintro ⟨⟨low, high⟩, unlocked⟩
    have other : j ≠ i := by
      rintro rfl
      rw [held] at unlocked
      cases unlocked
    exact ⟨⟨by omega, high⟩, unlocked⟩

variable {need : ℕ} {scan : Scan}

/-- The scan is not through while it lacks slots. -/
theorem Fits.inside (h : Fits pool p need s scan) : scan.next < pool.size := by
  by_contra through
  have none : freeFrom pool s.shared scan.next = ∅ := by
    simp [freeFrom, Finset.Ico_eq_empty_of_le (Nat.le_of_not_lt through)]
  have few := h.few
  have ahead := h.ahead
  rw [none, Finset.card_empty] at ahead
  omega

/-- **One attempt**: the scan has what it needs, or it goes on and there is enough
ahead. -/
theorem Fits.attempt (h : Fits pool p need s scan) :
    ∃ s', System.step (transition pool) s (p, .attempt (truth s.shared scan.next)) = some s' ∧
      (Collected p need s' ∨
        ∃ scan', scan'.next = scan.next + 1 ∧ Fits pool p need s' scan') := by
  have inside := h.inside
  have few := h.few
  have ahead := h.ahead
  obtain ⟨weight, compile⟩ := h.compile
  have hlt : p < s.procs.length := (List.getElem?_eq_some_iff.mp h.found).1
  cases lock : s.shared.slots.get scan.next with
  | none =>
    have count := freeFrom_lock (p := p) inside lock
    refine ⟨_, System.step_eq_some.mpr
      ⟨_, (s.shared.lockSlot p scan.next, scan.take.collected pool),
      h.found, by simp [transition, truth, inside, lock], rfl⟩, ?_⟩
    have grown : scan.take.got.length = scan.got.length + 1 := by simp [Scan.take]
    have asking : scan.take.asking = need := h.asking
    by_cases enough : scan.take.got.length = need
    · refine .inl ⟨scan.take, ?_, enough⟩
      have job : scan.take.job = .compile weight := compile
      simp [Scan.collected, enough, asking, Scan.ready, job, hlt]
    · refine .inr ⟨scan.take, rfl, ?_, ⟨weight, compile⟩, asking, by omega, ?_⟩
      · simp [Scan.collected, enough, asking, hlt]
      · change need ≤ scan.take.got.length +
          (freeFrom pool (s.shared.lockSlot p scan.next) (scan.next + 1)).card
        omega
  | some q =>
    refine ⟨_, System.step_eq_some.mpr ⟨_, (s.shared, .scanning scan.skip), h.found,
      by simp [transition, truth, inside, lock], rfl⟩, .inr ⟨scan.skip, rfl, ?_⟩⟩
    refine ⟨by simp [hlt], ⟨weight, compile⟩, h.asking, few, ?_⟩
    change need ≤ scan.got.length + (freeFrom pool s.shared (scan.next + 1)).card
    rw [freeFrom_held lock]
    exact ahead

/-- **A scan alone ends**, with what it asked for. -/
theorem Fits.collects (h : Fits pool p need s scan) :
    ∃ s', Reaches (Uncontended p) (System.step (transition pool)) s s' ∧ Collected p need s' := by
  -- the slots still to be tried
  induction left : pool.size - scan.next generalizing s scan with
  | zero =>
    have := h.inside
    omega
  | succ left ih =>
    obtain ⟨s', taken, collected | ⟨scan', next, fits⟩⟩ := h.attempt
    · exact ⟨s', .tail .refl ⟨scan, h.found, .inl rfl⟩ taken, collected⟩
    · obtain ⟨s'', rest, collected⟩ := ih fits (by omega)
      exact ⟨s'', (Reaches.tail .refl ⟨scan, h.found, .inl rfl⟩ taken).trans rest, collected⟩

/-- It ends in no other way. -/
theorem Fits.keeps {s' : System Shared Proc} (h : Fits pool p need s scan)
    (run : Reaches (Uncontended p) (System.step (transition pool)) s s') :
    Collected p need s' ∨ ∃ scan', Fits pool p need s' scan' := by
  refine run.invariant (I := fun s => Collected p need s ∨ ∃ scan, Fits pool p need s scan)
    (.inr ⟨scan, h⟩) ?_
  rintro s a s' (⟨done, compiling, -⟩ | ⟨scan, fits⟩) ⟨moving, found, act⟩ taken
  · -- a process that has its permit does not scan
    rw [compiling] at found
    cases found
  · cases fits.found.symm.trans found
    rcases act with rfl | rfl
    · obtain ⟨s'', taken', next⟩ := fits.attempt
      cases taken'.symm.trans taken
      exact next.imp_right fun ⟨scan', _, fits'⟩ => ⟨scan', fits'⟩
    · obtain ⟨proc, next, hproc, hnext, -⟩ := System.step_eq_some.mp taken
      cases fits.found.symm.trans hproc
      simp [transition, fits.inside] at hnext

/-- **Tests never block compiles.**  In every reachable state where all held slots are
marked slots of tests, a compile that has waited asks, for any weight and under any
pressure, for at least one slot and no more than there are free.  Its next scan, if
nobody interferes, ends with that many slots and in no other way. -/
theorem tests_never_block_compiles {pool : Pool} {n : ℕ} {s : System Shared Proc}
    (run : Run pool n s) (tests : TestsOnly s.shared) (weight : ℕ) (pressured : Bool)
    {dir : TestsDir} (read : CanRead s.shared dir) :
    let need := compileNeed (pressureWeight weight pool.size pressured) pool.size true
      (testsHeld dir)
    1 ≤ need ∧ need ≤ (freeSlots pool s.shared).card ∧
      ∀ p, s.procs[p]? = some (.deciding (.compile weight) true) →
        ∃ asked, System.step (transition pool) s (p, .ask pressured (testsHeld dir)) = some asked ∧
          (∃ s', Reaches (Uncontended p) (System.step (transition pool)) asked s' ∧
            Collected p need s') ∧
          ∀ s', Reaches (Uncontended p) (System.step (transition pool)) asked s' →
            Collected p need s' ∨ ∃ scan, s'.procs[p]? = some (.scanning scan) := by
  intro need
  have pos : 1 ≤ need := one_le_compileNeed pool _ true _
  have free : need ≤ (freeSlots pool s.shared).card := run.compileNeed_le_free tests _ read
  refine ⟨pos, free, fun p found => ?_⟩
  have hlt : p < s.procs.length := (List.getElem?_eq_some_iff.mp found).1
  have fits : Fits pool p need
      ⟨s.shared, s.procs.set p (.scanning (.start pool (.compile weight) true false need))⟩
      (.start pool (.compile weight) true false need) :=
    ⟨by simp [hlt], ⟨weight, rfl⟩, rfl, pos,
      by simpa [Scan.start, Job.lowest, freeSlots] using free⟩
  refine ⟨_, System.step_eq_some.mpr ⟨_, (s.shared, _), found, ?_, rfl⟩, fits.collects,
    fun s' alone => (fits.keeps alone).imp_right fun kept => ?_⟩
  · simp only [transition, Job.need]
    rw [Nat.max_eq_left pos]
  · obtain ⟨scan, h⟩ := kept
    exact ⟨scan, h.found⟩

/-- A test has two of four slots; a compile that would take all of them has waited and
settles for the other two. -/
theorem tests_never_block_compiles_halved :
    ∃ s, Run ⟨4, by decide, by decide⟩ 2 s ∧ TestsOnly s.shared ∧
      s.procs[0]? = some (.deciding (.compile 4) true) ∧
      ∃ asked s', Reaches (Uncontended 0) (System.step (transition ⟨4, by decide, by decide⟩))
        asked s' ∧ Collected 0 2 s' := by
  obtain ⟨s, run, test⟩ := exists_reaches_of_replay (fun _ _ => True)
    (System.step (transition ⟨4, by decide, by decide⟩)) (System.start .free .idle 2)
    [(1, .begin (.test (.fixed 2))), (1, .ask false 0), (1, .attempt .acquired),
      (1, .attempt .acquired), (1, .mark true), (1, .mark true), (1, .lease),
      (0, .begin (.compile 4)), (0, .ask false 0),
      (0, .attempt .acquired), (0, .attempt .busy), (0, .attempt .busy), (0, .attempt .acquired),
      (0, .exhausted), (0, .release), (0, .release), (0, .settle false),
      (0, .attempt .acquired), (0, .attempt .busy), (0, .attempt .busy), (0, .attempt .acquired),
      (0, .exhausted), (0, .release), (0, .release), (0, .settle false)]
    (fun s => s.procs[0]? = some (.deciding (.compile 4) true) ∧
      s.shared.markers.keys = {1, 2} ∧
      ∀ i ∈ s.shared.slots.keys, s.shared.slots.get i = s.shared.markers.get i)
    (by decide +kernel)
  obtain ⟨waited, markers, marked⟩ := of_decide_eq_true test
  have tests : TestsOnly s.shared := by
    intro i q held
    rw [← marked i ((s.shared.slots.mem_keys i).mpr (held ▸ rfl))]
    exact held
  have locked : ∀ i, (s.shared.markers.get i).isSome ↔ i = 1 ∨ i = 2 := fun i => by
    rw [← s.shared.markers.mem_keys, markers]
    simp
  have read : CanRead s.shared (.entries [some true, some true]) := by
    have nodup : [1, 2].Nodup := by decide
    refine .entries nodup (fun i => by simp [locked]) ?_
    exact .cons (.inr (by rw [(locked 1).mpr (.inl rfl)]))
      (.cons (.inr (by rw [(locked 2).mpr (.inr rfl)])) .nil)
  obtain ⟨-, -, scan⟩ := tests_never_block_compiles run tests 4 false read
  obtain ⟨asked, -, ⟨s', alone, collected⟩, -⟩ := scan 0 waited
  exact ⟨s, run, tests, waited, asked, s', alone, collected⟩

end Kache.Scheduler
