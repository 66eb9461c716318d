import Kache.Foundation.Interleaving
import Kache.Foundation.Locks
import Kache.Scheduler.Need

/-!
# The permit pool

Any number of processes take slots from one pool: compiles from all of it, test
binaries from what is above the compile reserve.  A slot is an exclusive file
lock, and nothing but these locks is shared, so a process collects its slots one
lock at a time and gives back what it has when they are not enough.  A test also
locks a *marker* for each of its slots, so that compiles can count what tests have.

The model goes by single lock operations.  What a lock attempt finds is in the
action: it can only succeed on a free lock, but it can fail on one too, since
a probe takes the lock for a moment and the file may be unusable.  Time-outs,
cancelled invocations, memory pressure and the count of the markers are in the
actions as well, without restriction.
-/

namespace Kache.Scheduler

/-- `TestWant`. -/
inductive TestWant where
  | fixed (slots : ℕ)
  | elastic (floor : ℕ)
  deriving DecidableEq

/-- What `acquire_test_lease` takes as its floor. -/
def TestWant.floor : TestWant → ℕ
  | .fixed slots => slots
  | .elastic floor => floor

/-- What slots are taken for: `acquire_permit` or `acquire_test_lease`. -/
inductive Job where
  | compile (weight : ℕ)
  | test (want : TestWant)
  deriving DecidableEq

namespace Job

def isTest : Job → Bool
  | .compile _ => false
  | .test _ => true

/-- The first slot of the range that is scanned; the range ends with the pool. -/
def lowest (pool : Pool) : Job → ℕ
  | .compile _ => 0
  | .test _ => reserveFor pool.size

/-- The closure that `wait_for_permit` asks on every scan. -/
def need (pool : Pool) (waited pressured : Bool) (testsHeld : ℕ) : Job → ℕ
  | .compile weight =>
    compileNeed (pressureWeight weight pool.size pressured) pool.size waited testsHeld
  | .test want => testNeed want.floor pool.size

end Job

/-- The locks, with the process that has them. -/
structure Shared where
  slots : Table ℕ ℕ
  markers : Table ℕ ℕ

namespace Shared

def free : Shared := ⟨.empty, .empty⟩

def lockSlot (σ : Shared) (p i : ℕ) : Shared := { σ with slots := σ.slots.set i p }

def unlockSlot (σ : Shared) (i : ℕ) : Shared := { σ with slots := σ.slots.erase i }

def lockMarker (σ : Shared) (p i : ℕ) : Shared := { σ with markers := σ.markers.set i p }

def unlockMarker (σ : Shared) (i : ℕ) : Shared := { σ with markers := σ.markers.erase i }

end Shared

/-- A call of `try_collect_slots` and where it is. -/
structure Scan where
  job : Job
  waited : Bool
  /-- It is the second scan of its round, after the release watch was armed. -/
  again : Bool
  asking : ℕ
  next : ℕ
  got : List ℕ
  busy : List ℕ
  deriving DecidableEq

/-- Where a process is. -/
inductive Proc where
  | idle
  /-- At the top of the loop of `wait_for_permit`. -/
  | deciding (job : Job) (waited : Bool)
  | scanning (scan : Scan)
  /-- The scan failed and its slots are dropped; `stopped` after a lock error. -/
  | undoing (scan : Scan) (stopped : Bool)
  /-- Has a `Permit`. -/
  | compiling (scan : Scan)
  /-- In `take_free_slots`. -/
  | extending (scan : Scan) (next : ℕ) (extra : List ℕ)
  /-- Locks the markers of its slots. -/
  | marking (scan : Scan) (extra markers todo : List ℕ)
  /-- Has a `TestLease`. -/
  | leased (scan : Scan) (extra markers : List ℕ)
  /-- Drops what it has: the markers, then the slots. -/
  | leaving (test : Bool) (markers slots : List ℕ)
  deriving DecidableEq

namespace Scan

/-- A scan that begins. -/
def start (pool : Pool) (job : Job) (waited again : Bool) (asking : ℕ) : Scan :=
  ⟨job, waited, again, asking, job.lowest pool, [], []⟩

/-- The next slot is locked. -/
def take (scan : Scan) : Scan :=
  { scan with next := scan.next + 1, got := scan.got ++ [scan.next] }

/-- The next slot is somebody else's. -/
def skip (scan : Scan) : Scan :=
  { scan with next := scan.next + 1, busy := scan.busy ++ [scan.next] }

/-- What is done with the slots of a scan that got them all. -/
def ready (pool : Pool) (scan : Scan) : Proc :=
  match scan.job with
  | .compile _ => .compiling scan
  | .test (.elastic _) => .extending scan (reserveFor pool.size) []
  | .test (.fixed _) => .marking scan [] [] scan.got

/-- A slot was locked: `Ready` when there are enough. -/
def collected (pool : Pool) (scan : Scan) : Proc :=
  if scan.got.length = scan.asking then scan.ready pool else .scanning scan

/-- The slots that are not kept but for the first. -/
def dropFirst (scan : Scan) : Scan := { scan with got := scan.got.tail }

/-- The rest of the loop body after a scan that failed. -/
def settled (pool : Pool) (scan : Scan) (stopped timedOut : Bool) : Proc :=
  if stopped ∨ timedOut then .idle
  else if scan.busy ≠ [] ∧ scan.again = false then
    .scanning (start pool scan.job scan.waited true scan.asking)
  else .deciding scan.job true

end Scan

/-- What an attempt to lock a slot gives. -/
inductive Answer where
  | acquired
  | busy
  | failed
  deriving DecidableEq

/-- The steps of the processes. -/
inductive Action where
  | begin (job : Job)
  /-- The need is asked, with these readings of the pressure and the markers. -/
  | ask (pressured : Bool) (testsHeld : ℕ)
  /-- The invocation is cancelled. -/
  | cancel
  | attempt (answer : Answer)
  /-- The range is through. -/
  | exhausted
  /-- One lock is dropped. -/
  | release
  | settle (timedOut : Bool)
  /-- `lock_marker`, and whether it got it in time. -/
  | mark (locked : Bool)
  /-- The lease is made. -/
  | lease
  /-- The compile or the test is over. -/
  | finish
  | leave

/-- One step of process `p`. -/
def transition (pool : Pool) (p : ℕ) (σ : Shared) : Proc → Action → Option (Shared × Proc)
  | .idle, .begin (.compile weight) => some (σ, .deciding (.compile weight) false)
  | .idle, .begin (.test want) =>
    -- nothing above the reserve: runs without a lease
    if testNeed want.floor pool.size = 0 then some (σ, .idle)
    else some (σ, .deciding (.test want) false)
  | .deciding job waited, .ask pressured testsHeld =>
    -- a need of zero would never be met
    let asking := max (job.need pool waited pressured testsHeld) 1
    some (σ, .scanning (.start pool job waited false asking))
  | .deciding _ _, .cancel => some (σ, .idle)
  | .scanning scan, .attempt answer =>
    if scan.next < pool.size then
      match answer with
      | .acquired =>
        if σ.slots.get scan.next = none then
          some (σ.lockSlot p scan.next, scan.take.collected pool)
        else none
      | .busy => some (σ, .scanning scan.skip)
      | .failed => some (σ, .undoing scan true)
    else none
  | .scanning scan, .exhausted =>
    if scan.next < pool.size then none else some (σ, .undoing scan false)
  | .undoing scan stopped, .release =>
    scan.got.head?.map fun i => (σ.unlockSlot i, .undoing scan.dropFirst stopped)
  | .undoing scan stopped, .settle timedOut =>
    if scan.got = [] then some (σ, scan.settled pool stopped timedOut) else none
  | .extending scan next extra, .attempt answer =>
    if next < pool.size then
      match answer with
      | .acquired =>
        if σ.slots.get next = none then
          some (σ.lockSlot p next, .extending scan (next + 1) (extra ++ [next]))
        else none
      -- a slot that is not to be had is passed over, whatever the reason
      | .busy | .failed => some (σ, .extending scan (next + 1) extra)
    else none
  | .extending scan next extra, .exhausted =>
    if next < pool.size then none
    else some (σ, .marking scan extra [] (scan.got ++ extra))
  | .marking scan extra markers (i :: todo), .mark locked =>
    if locked then
      if σ.markers.get i = none then
        some (σ.lockMarker p i, .marking scan extra (markers ++ [i]) todo)
      else none
    else some (σ, .leaving true markers (scan.got ++ extra))
  | .marking scan extra markers [], .lease => some (σ, .leased scan extra markers)
  | .compiling scan, .finish => some (σ, .leaving false [] scan.got)
  | .leased scan extra markers, .finish => some (σ, .leaving true markers (scan.got ++ extra))
  | .leaving test (i :: markers) slots, .release =>
    some (σ.unlockMarker i, .leaving test markers slots)
  | .leaving test [] (i :: slots), .release => some (σ.unlockSlot i, .leaving test [] slots)
  | .leaving _ [] [], .leave => some (σ, .idle)
  | _, _ => none

/-- The reachable states of a pool and `n` processes. -/
abbrev Run (pool : Pool) (n : ℕ) (s : System Shared Proc) : Prop :=
  Reaches (fun _ _ => True) (System.step (transition pool)) (System.start .free .idle n) s

/-! ## What a process has -/

namespace Proc

/-- The slots whose locks a process has. -/
def slots : Proc → List ℕ
  | .idle | .deciding _ _ => []
  | .scanning scan | .undoing scan _ | .compiling scan => scan.got
  | .extending scan _ extra | .marking scan extra _ _ | .leased scan extra _ => scan.got ++ extra
  | .leaving _ _ slots => slots

/-- The slots whose markers a process has. -/
def markers : Proc → List ℕ
  | .marking _ _ markers _ | .leased _ _ markers | .leaving _ markers _ => markers
  | _ => []

/-- A test, rather than a compile or nothing at all. -/
def isTest : Proc → Bool
  | .idle => false
  | .deciding job _ => job.isTest
  | .scanning scan | .undoing scan _ | .compiling scan | .extending scan _ _
  | .marking scan _ _ _ | .leased scan _ _ => scan.job.isTest
  | .leaving test _ _ => test

/-- **A scan is all or nothing**: one that goes on or failed has too few slots, one that
ended well has what it asked for.  Only an elastic test has slots beside those. -/
def Counted : Proc → Prop
  | .idle | .deciding _ _ | .leaving _ _ _ => True
  | .scanning scan | .undoing scan _ => scan.got.length < scan.asking
  | .compiling scan => scan.got.length = scan.asking
  | .extending scan _ extra | .marking scan extra _ _ | .leased scan extra _ =>
    scan.got.length = scan.asking ∧ (extra = [] ∨ ∃ floor, scan.job = .test (.elastic floor))

/-- How far a process is within its slots. -/
def Placed (pool : Pool) : Proc → Prop
  | .scanning scan => scan.job.lowest pool ≤ scan.next
  | .compiling scan => scan.job.isTest = false
  | .extending scan next _ =>
    (∃ floor, scan.job = .test (.elastic floor)) ∧ reserveFor pool.size ≤ next
  | .marking scan extra markers todo => scan.job.isTest ∧ markers ++ todo = scan.got ++ extra
  | .leased scan extra markers => scan.job.isTest ∧ markers = scan.got ++ extra
  | _ => True

end Proc

/-- **What is true of process `p`.** -/
structure Sound (pool : Pool) (p : ℕ) (σ : Shared) (proc : Proc) : Prop where
  slots : Locked σ.slots p proc.slots
  markers : Locked σ.markers p proc.markers
  marked : ∀ i ∈ proc.markers, i ∈ proc.slots
  unmarked : proc.isTest = false → proc.markers = []
  inPool : ∀ i ∈ proc.slots, i < pool.size
  aboveReserve : proc.isTest → ∀ i ∈ proc.slots, reserveFor pool.size ≤ i
  counted : proc.Counted
  placed : proc.Placed pool

/-! ## What a step does to the locks -/

/-- A step of process `p` moves at most one lock: a free one to it, or one of its
own away. -/
inductive Effect (p : ℕ) (σ : Shared) : Shared → Prop
  | nothing : Effect p σ σ
  | lockSlot {i : ℕ} (unlocked : σ.slots.get i = none) : Effect p σ (σ.lockSlot p i)
  | unlockSlot {i : ℕ} (own : σ.slots.get i = some p) : Effect p σ (σ.unlockSlot i)
  | lockMarker {i : ℕ} (unlocked : σ.markers.get i = none) : Effect p σ (σ.lockMarker p i)
  | unlockMarker {i : ℕ} (own : σ.markers.get i = some p) : Effect p σ (σ.unlockMarker i)

variable {pool : Pool} {p q n : ℕ} {σ σ' : Shared} {proc : Proc}

/-- The locks of the other processes stay theirs. -/
theorem Sound.other (h : Sound pool q σ proc) (effect : Effect p σ σ') (other : q ≠ p) :
    Sound pool q σ' proc := by
  cases effect with
  | nothing => exact h
  | lockSlot unlocked => exact { h with slots := h.slots.lock_other other unlocked }
  | unlockSlot own => exact { h with slots := h.slots.unlock_other other own }
  | lockMarker unlocked => exact { h with markers := h.markers.lock_other other unlocked }
  | unlockMarker own => exact { h with markers := h.markers.unlock_other other own }

/-- What a step of process `p` has to give. -/
structure Kept (pool : Pool) (p : ℕ) (σ : Shared) (next : Shared × Proc) : Prop where
  effect : Effect p σ next.1
  sound : Sound pool p next.1 next.2

/-- A process without locks. -/
theorem Sound.without {σ : Shared} (slots : Locked σ.slots p []) (markers : Locked σ.markers p [])
    (hslots : proc.slots = []) (hmarkers : proc.markers = []) (counted : proc.Counted)
    (placed : proc.Placed pool) : Sound pool p σ proc where
  slots := hslots ▸ slots
  markers := hmarkers ▸ markers
  marked := by simp [hmarkers]
  unmarked _ := hmarkers
  inPool := by simp [hslots]
  aboveReserve := by simp [hslots]
  counted := counted
  placed := placed

variable {proc' : Proc} {i : ℕ} {next : Shared × Proc}

/-- A process that changes its place and keeps its locks. -/
theorem Sound.move (h : Sound pool p σ proc) (hslots : proc'.slots = proc.slots)
    (hmarkers : proc'.markers = proc.markers) (hkind : proc'.isTest = proc.isTest)
    (counted : proc'.Counted) (placed : proc'.Placed pool) : Sound pool p σ proc' where
  slots := hslots ▸ h.slots
  markers := hmarkers ▸ h.markers
  marked := by rw [hmarkers, hslots]; exact h.marked
  unmarked := by rw [hmarkers, hkind]; exact h.unmarked
  inPool := by rw [hslots]; exact h.inPool
  aboveReserve := by rw [hslots, hkind]; exact h.aboveReserve
  counted := counted
  placed := placed

/-- A process that locks a free slot of its range. -/
theorem Sound.lockSlot (h : Sound pool p σ proc) (unlocked : σ.slots.get i = none)
    (inside : i < pool.size)
    (above : proc.isTest → reserveFor pool.size ≤ i) (hslots : proc'.slots = proc.slots ++ [i])
    (hmarkers : proc'.markers = proc.markers) (hkind : proc'.isTest = proc.isTest)
    (counted : proc'.Counted)
    (placed : proc'.Placed pool) : Sound pool p (σ.lockSlot p i) proc' where
  slots := hslots ▸ h.slots.lock unlocked
  markers := hmarkers ▸ h.markers
  marked := by
    rw [hmarkers, hslots]
    exact fun j mem => List.mem_append_left _ (h.marked j mem)
  unmarked := by rw [hmarkers, hkind]; exact h.unmarked
  inPool := by
    rw [hslots]
    intro j mem
    rcases List.mem_append.mp mem with old | last
    · exact h.inPool j old
    · exact List.mem_singleton.mp last ▸ inside
  aboveReserve := by
    rw [hslots, hkind]
    intro test j mem
    rcases List.mem_append.mp mem with old | last
    · exact h.aboveReserve test j old
    · exact List.mem_singleton.mp last ▸ above test
  counted := counted
  placed := placed

/-- A process without markers that gives its first slot back. -/
theorem Sound.unlockSlot (h : Sound pool p σ proc) (hslots : proc.slots = i :: proc'.slots)
    (hmarkers : proc.markers = []) (hmarkers' : proc'.markers = [])
    (hkind : proc'.isTest = proc.isTest) (counted : proc'.Counted) (placed : proc'.Placed pool) :
    Sound pool p (σ.unlockSlot i) proc' where
  slots := (hslots ▸ h.slots).unlock
  markers := by
    rw [hmarkers', ← hmarkers]
    exact h.markers
  marked := by simp [hmarkers']
  unmarked _ := hmarkers'
  inPool j mem := h.inPool j (hslots ▸ List.mem_cons_of_mem i mem)
  aboveReserve test j mem := h.aboveReserve (hkind ▸ test) j (hslots ▸ List.mem_cons_of_mem i mem)
  counted := counted
  placed := placed

/-- The lock a process has first in its list is its own. -/
theorem Sound.own_slot {rest : List ℕ} (h : Sound pool p σ proc) (hslots : proc.slots = i :: rest) :
    σ.slots.get i = some p :=
  (h.slots.mem_iff i).mpr (by simp [hslots])

/-! ## The steps -/

/-- Scans start within their range and with nothing. -/
theorem Sound.startScan (slots : Locked σ.slots p []) (markers : Locked σ.markers p [])
    (job : Job) (waited again : Bool) {asking : ℕ} (pos : 0 < asking) :
    Sound pool p σ (.scanning (.start pool job waited again asking)) :=
  .without slots markers rfl rfl pos (Nat.le_refl _)

variable {scan : Scan}

/-- A scan that goes on, or has all it asked for. -/
theorem Sound.collected (h : Sound pool p σ (.scanning scan))
    (unlocked : σ.slots.get scan.next = none) (inside : scan.next < pool.size) :
    Sound pool p (σ.lockSlot p scan.next) (scan.take.collected pool) := by
  have few : scan.got.length < scan.asking := h.counted
  have low : scan.job.lowest pool ≤ scan.next := h.placed
  have above : scan.job.isTest = true → reserveFor pool.size ≤ scan.next := by
    intro test
    cases job : scan.job with
    | compile weight => simp [job, Job.isTest] at test
    | test want => simpa [job, Job.lowest] using low
  unfold Scan.collected
  split
  · next enough =>
    unfold Scan.ready
    -- what comes next depends on the job, the slots do not
    split
    · next weight job =>
      exact h.lockSlot unlocked inside above rfl rfl rfl enough (congrArg Job.isTest job)
    · next floor job =>
      exact h.lockSlot unlocked inside above (List.append_nil _) rfl rfl
        ⟨enough, .inl rfl⟩ ⟨⟨floor, job⟩, Nat.le_refl _⟩
    · next count job =>
      exact h.lockSlot unlocked inside above (List.append_nil _) rfl rfl
        ⟨enough, .inl rfl⟩ ⟨congrArg Job.isTest job, (List.append_nil _).symm⟩
  · next short =>
    refine h.lockSlot unlocked inside above rfl rfl rfl ?_ (Nat.le_succ_of_le low)
    have grown : scan.take.got.length = scan.got.length + 1 := by simp [Scan.take]
    have same : scan.take.asking = scan.asking := rfl
    change scan.take.got.length < scan.take.asking
    omega

theorem Kept.attempt {answer : Answer} (h : Sound pool p σ (.scanning scan))
    (taken : transition pool p σ (.scanning scan) (.attempt answer) = some next) :
    Kept pool p σ next := by
  obtain ⟨inside, taken⟩ := Option.ite_none_right_eq_some.mp taken
  cases answer with
  | acquired =>
    obtain ⟨unlocked, ⟨⟩⟩ := Option.ite_none_right_eq_some.mp taken
    exact ⟨.lockSlot unlocked, h.collected unlocked inside⟩
  | busy =>
    cases taken
    exact ⟨.nothing, h.move rfl rfl rfl h.counted (Nat.le_succ_of_le h.placed)⟩
  | failed =>
    cases taken
    exact ⟨.nothing, h.move rfl rfl rfl h.counted trivial⟩

theorem Kept.undo {stopped : Bool} (h : Sound pool p σ (.undoing scan stopped))
    (taken : transition pool p σ (.undoing scan stopped) .release = some next) :
    Kept pool p σ next := by
  simp only [transition, Option.map_eq_some_iff] at taken
  obtain ⟨i, first, rfl⟩ := taken
  have split : scan.got = i :: scan.got.tail := (List.cons_head?_tail first).symm
  have fewer : scan.got.tail.length < scan.asking :=
    Nat.lt_of_le_of_lt (List.length_tail ▸ Nat.sub_le _ _) h.counted
  exact ⟨.unlockSlot (h.own_slot split), h.unlockSlot split rfl rfl rfl fewer trivial⟩

theorem Kept.settle {stopped timedOut : Bool} (h : Sound pool p σ (.undoing scan stopped))
    (taken : transition pool p σ (.undoing scan stopped) (.settle timedOut) = some next) :
    Kept pool p σ next := by
  obtain ⟨none, ⟨⟩⟩ := Option.ite_none_right_eq_some.mp taken
  have slots : Locked σ.slots p [] := none ▸ h.slots
  refine ⟨.nothing, ?_⟩
  dsimp only [Scan.settled]
  split_ifs
  · exact .without slots h.markers rfl rfl trivial trivial
  · exact .startScan slots h.markers scan.job scan.waited true (Nat.zero_lt_of_lt h.counted)
  · exact .without slots h.markers rfl rfl trivial trivial

variable {extra markers todo : List ℕ}

theorem Kept.extend {first : ℕ} {answer : Answer} (h : Sound pool p σ (.extending scan first extra))
    (taken : transition pool p σ (.extending scan first extra) (.attempt answer) = some next) :
    Kept pool p σ next := by
  obtain ⟨elastic, low⟩ :
      (∃ floor, scan.job = .test (.elastic floor)) ∧ reserveFor pool.size ≤ first := h.placed
  have passed : Kept pool p σ (σ, .extending scan (first + 1) extra) :=
    ⟨.nothing, h.move rfl rfl rfl h.counted ⟨elastic, Nat.le_succ_of_le low⟩⟩
  obtain ⟨inside, taken⟩ := Option.ite_none_right_eq_some.mp taken
  cases answer with
  | acquired =>
    obtain ⟨unlocked, ⟨⟩⟩ := Option.ite_none_right_eq_some.mp taken
    exact ⟨.lockSlot unlocked, h.lockSlot unlocked inside (fun _ => low)
      (List.append_assoc _ _ _).symm rfl rfl ⟨h.counted.1, .inr elastic⟩
      ⟨elastic, Nat.le_succ_of_le low⟩⟩
  | busy | failed =>
    cases taken
    exact passed

/-- A test whose slots are all marked or still to be marked. -/
theorem Kept.mark {locked : Bool} (h : Sound pool p σ (.marking scan extra markers (i :: todo)))
    (taken : transition pool p σ (.marking scan extra markers (i :: todo))
      (.mark locked) = some next) :
    Kept pool p σ next := by
  obtain ⟨test, order⟩ : scan.job.isTest ∧ markers ++ i :: todo = scan.got ++ extra := h.placed
  simp only [transition] at taken
  split at taken
  · split at taken
    · next unlocked =>
      cases taken
      refine ⟨.lockMarker unlocked, { h with
        markers := h.markers.lock unlocked
        marked := ?_
        unmarked := fun compile => absurd (compile.symm.trans test) Bool.false_ne_true
        placed := ⟨test, (List.append_assoc _ _ _).trans order⟩ }⟩
      intro j mem
      change j ∈ scan.got ++ extra
      rw [← order]
      rcases List.mem_append.mp mem with old | last
      · exact List.mem_append_left _ old
      · exact List.mem_append_right _ (List.mem_singleton.mp last ▸ List.mem_cons_self)
    · cases taken
  · cases taken
    exact ⟨.nothing, h.move rfl rfl test.symm trivial trivial⟩

/-- Markers go before slots, and nothing else is dropped. -/
theorem Kept.leave {test : Bool} {slots : List ℕ} (h : Sound pool p σ (.leaving test markers slots))
    (taken : transition pool p σ (.leaving test markers slots) .release = some next) :
    Kept pool p σ next := by
  cases markers with
  | cons i markers =>
    cases taken
    refine ⟨.unlockMarker ((h.markers.mem_iff i).mpr List.mem_cons_self), { h with
      markers := Locked.unlock h.markers
      marked := fun j mem => h.marked j (List.mem_cons_of_mem i mem)
      unmarked := fun compile => by cases h.unmarked compile }⟩
  | nil =>
    cases slots with
    | nil => cases taken
    | cons i slots =>
      cases taken
      exact ⟨.unlockSlot (h.own_slot rfl), h.unlockSlot rfl rfl rfl rfl trivial trivial⟩

/-- **One step.** -/
theorem transition_kept {a : Action} (h : Sound pool p σ proc)
    (taken : transition pool p σ proc a = some next) : Kept pool p σ next := by
  unfold transition at taken
  split at taken
  case h_5 => exact .attempt h taken
  case h_7 => exact .undo h taken
  case h_8 => exact .settle h taken
  case h_9 => exact .extend h taken
  case h_11 => exact .mark h taken
  case h_15 | h_16 => exact .leave h taken
  -- the other steps move no lock
  all_goals
    try split at taken
    all_goals cases taken
    all_goals refine ⟨.nothing, ?_⟩
  case h_3 job waited _ _ => exact .startScan h.slots h.markers job waited false (by omega)
  case h_6.isFalse => exact h.move rfl rfl rfl h.counted trivial
  case h_10.isFalse =>
    obtain ⟨⟨floor, job⟩, -⟩ := h.placed
    exact h.move rfl rfl rfl h.counted ⟨congrArg Job.isTest job, rfl⟩
  case h_12 scan extra markers =>
    obtain ⟨test, order⟩ := h.placed
    exact h.move rfl rfl rfl h.counted ⟨test, (List.append_nil markers).symm.trans order⟩
  case h_13 => exact h.move rfl rfl h.placed.symm trivial trivial
  case h_14 => exact h.move rfl rfl h.placed.1.symm trivial trivial
  all_goals exact .without h.slots h.markers rfl rfl trivial trivial

/-! ## Every run -/

variable {s : System Shared Proc}

/-- Every lock has a process of the run. -/
structure Owned (n : ℕ) (σ : Shared) : Prop where
  slots : ∀ i p, σ.slots.get i = some p → p < n
  markers : ∀ i p, σ.markers.get i = some p → p < n

theorem Owned.effect (h : Owned n σ) (inside : p < n) (effect : Effect p σ σ') : Owned n σ' := by
  have set : ∀ {t : Table ℕ ℕ} {i : ℕ}, (∀ j q, t.get j = some q → q < n) →
      ∀ j q, (t.set i p).get j = some q → q < n := by
    intro t i owned j q found
    rw [Table.get_set] at found
    split at found
    · exact Option.some.inj found ▸ inside
    · exact owned j q found
  have erase : ∀ {t : Table ℕ ℕ} {i : ℕ}, (∀ j q, t.get j = some q → q < n) →
      ∀ j q, (t.erase i).get j = some q → q < n := by
    intro t i owned j q found
    rw [Table.get_erase] at found
    split at found
    · cases found
    · exact owned j q found
  cases effect with
  | nothing => exact h
  | lockSlot _ => exact ⟨set h.slots, h.markers⟩
  | unlockSlot _ => exact ⟨erase h.slots, h.markers⟩
  | lockMarker _ => exact ⟨h.slots, set h.markers⟩
  | unlockMarker _ => exact ⟨h.slots, erase h.markers⟩

/-- **Every run**: what is true of a process at its start is true wherever it gets, and
no step of another process takes it away. -/
theorem Run.assertions (run : Run pool n s) :
    Owned n s.shared ∧ ∀ p proc, s.procs[p]? = some proc → p < n ∧ Sound pool p s.shared proc := by
  refine run.local_invariant (I := Owned n) (J := fun p σ proc => p < n ∧ Sound pool p σ proc)
    ⟨by simp [System.start, Shared.free], by simp [System.start, Shared.free]⟩ ?_ ?_
  · intro p proc found
    obtain ⟨inside, rfl⟩ := System.getElem?_start found
    exact ⟨inside, .without (.empty p) (.empty p) rfl rfl trivial trivial⟩
  · intro s p a proc next found owned assertions _ taken
    obtain ⟨inside, sound⟩ := assertions p proc found
    have kept := transition_kept sound taken
    refine ⟨owned.effect inside kept.effect, ⟨inside, kept.sound⟩, fun q other hq hother => ?_⟩
    exact ⟨(assertions q other hother).1, (assertions q other hother).2.other kept.effect hq⟩

theorem Run.sound (run : Run pool n s) (found : s.procs[p]? = some proc) :
    Sound pool p s.shared proc :=
  (run.assertions.2 p proc found).2

/-- Every lock has its process. -/
theorem Run.exists_proc (run : Run pool n s) (inside : p < n) : ∃ proc,
    s.procs[p]? = some proc := by
  have length : s.procs.length = n := run.length_procs.trans List.length_replicate
  exact ⟨_, List.getElem?_eq_getElem (length.symm ▸ inside)⟩

/-- The slots that tests have. -/
def testSlots (s : System Shared Proc) : Finset ℕ :=
  s.shared.slots.keys.filter fun i =>
    (s.shared.slots.get i).any fun p => s.procs[p]?.any Proc.isTest

/-- A locked marker goes with a slot of the same test. -/
theorem Run.marked (run : Run pool n s) (locked : s.shared.markers.get i = some p) :
    s.shared.slots.get i = some p ∧ ∃ proc, s.procs[p]? = some proc ∧ proc.isTest := by
  obtain ⟨proc, found⟩ := run.exists_proc (run.assertions.1.markers i p locked)
  have sound := run.sound found
  have mem := (sound.markers.mem_iff i).mp locked
  refine ⟨(sound.slots.mem_iff i).mpr (sound.marked i mem), proc, found, ?_⟩
  cases kind : proc.isTest with
  | true => rfl
  | false =>
    rw [sound.unmarked kind] at mem
    cases mem

theorem Run.markers_subset (run : Run pool n s) : s.shared.markers.keys ⊆ testSlots s := by
  intro i mem
  obtain ⟨p, locked⟩ := Option.isSome_iff_exists.mp ((s.shared.markers.mem_keys i).mp mem)
  obtain ⟨slot, proc, found, test⟩ := run.marked locked
  refine Finset.mem_filter.mpr ⟨(s.shared.slots.mem_keys i).mpr (slot ▸ rfl), ?_⟩
  simp [slot, found, test]

/-- **The permit pool.**  Whatever compiles and tests do, lock by lock: a slot is with
one process; the locks of a process are those of its scan and, for an elastic
test, free slots added to them; a scan that ended well has as many slots as it
asked for, and one that did not has none; tests have no slot of the
reserve; a marker is locked with its slot, by the same test. -/
theorem permit_pool {pool : Pool} {n : ℕ} {s : System Shared Proc} (run : Run pool n s) :
    (∀ (p q i : ℕ) (proc other : Proc), s.procs[p]? = some proc → s.procs[q]? = some other →
      i ∈ proc.slots → i ∈ other.slots → p = q) ∧
    (∀ (p : ℕ) (proc : Proc), s.procs[p]? = some proc →
      proc.slots.Nodup ∧ (∀ i, s.shared.slots.get i = some p ↔ i ∈ proc.slots) ∧ proc.Counted) ∧
    (∀ (p : ℕ) (proc : Proc), s.procs[p]? = some proc → proc.isTest →
      ∀ i ∈ proc.slots, reserveFor pool.size ≤ i) ∧
    (∀ i p, s.shared.markers.get i = some p →
      s.shared.slots.get i = some p ∧ ∃ proc, s.procs[p]? = some proc ∧ proc.isTest) ∧
    s.shared.markers.keys.card ≤ (testSlots s).card := by
  refine ⟨?_, ?_, ?_, fun i p locked => run.marked locked, Finset.card_le_card run.markers_subset⟩
  · intro p q i proc other found found' mem mem'
    exact (run.sound found).slots.unique (run.sound found').slots mem mem'
  · intro p proc found
    have sound := run.sound found
    exact ⟨sound.slots.nodup, sound.slots.mem_iff, sound.counted⟩
  · intro p proc found test i mem
    exact (run.sound found).aboveReserve test i mem

/-- Four slots, one in reserve.  An elastic test gets slot 1 while a compile of weight two
is scanning; the compile goes around it, and the test adds the slot that is left. -/
theorem permit_pool_elastic :
    ∃ s, Run ⟨4, by decide, by decide⟩ 2 s ∧
      (∃ scan, s.procs[0]? = some (.compiling scan) ∧ scan.got = [0, 2]) ∧
      (∃ scan, s.procs[1]? = some (.leased scan [3] [1, 3]) ∧ scan.got = [1]) ∧
      s.shared.markers.keys.card ≤ (testSlots s).card := by
  obtain ⟨s, run, test⟩ := exists_reaches_of_replay (fun _ _ => True)
    (System.step (transition ⟨4, by decide, by decide⟩)) (System.start .free .idle 2)
    [(0, .begin (.compile 2)), (0, .ask false 0), (1, .begin (.test (.elastic 1))),
      (1, .ask false 0), (0, .attempt .acquired), (1, .attempt .acquired), (0, .attempt .busy),
      (0, .attempt .acquired), (1, .attempt .busy), (1, .attempt .busy), (1, .attempt .acquired),
      (1, .exhausted), (1, .mark true), (1, .mark true), (1, .lease)]
    (fun s => s.procs[0]? = some (.compiling ⟨.compile 2, false, false, 2, 3, [0, 2], [1]⟩) ∧
      s.procs[1]? =
        some (.leased ⟨.test (.elastic 1), false, false, 1, 2, [1], []⟩ [3] [1, 3]))
    (by decide +kernel)
  obtain ⟨compiling, leased⟩ := of_decide_eq_true test
  exact ⟨s, run, ⟨_, compiling, rfl⟩, ⟨_, leased, rfl⟩, (permit_pool run).2.2.2.2⟩

/-- **No permit leaks.**  Whoever gives up, fails or leaves: a locked slot or marker is with a
process that has the slot to give back. -/
theorem no_permit_leaks {pool : Pool} {n : ℕ} {s : System Shared Proc}
    (run : Run pool n s) (i p : ℕ)
    (locked : s.shared.slots.get i = some p ∨ s.shared.markers.get i = some p) :
    ∃ proc, s.procs[p]? = some proc ∧ i ∈ proc.slots := by
  have slot : s.shared.slots.get i = some p := locked.elim id fun marker => (run.marked marker).1
  obtain ⟨proc, found⟩ := run.exists_proc (run.assertions.1.slots i p slot)
  exact ⟨proc, found, ((run.sound found).slots.mem_iff i).mp slot⟩

/-- A test does not get its second marker in time and a compile fails at its second slot; the
compile has undone its scan. -/
theorem no_permit_leaks_undone : ∃ s, Run ⟨4, by decide, by decide⟩ 2 s ∧
    s.shared.slots.get 0 = none ∧ ∃ proc, s.procs[1]? = some proc ∧ 1 ∈ proc.slots := by
  obtain ⟨s, run, test⟩ := exists_reaches_of_replay (fun _ _ => True)
    (System.step (transition ⟨4, by decide, by decide⟩)) (System.start .free .idle 2)
    [(0, .begin (.compile 2)), (0, .ask false 0), (1, .begin (.test (.fixed 2))), (1, .ask false 0),
      (0, .attempt .acquired), (1, .attempt .acquired), (0, .attempt .failed),
      (1, .attempt .acquired),
      (1, .mark true), (1, .mark false), (0, .release), (0, .settle false)]
    (fun s => s.shared.slots.get 0 = none ∧ s.shared.markers.get 1 = some 1) (by decide +kernel)
  obtain ⟨free, marker⟩ := of_decide_eq_true test
  exact ⟨s, run, free, no_permit_leaks run 1 1 (.inr marker)⟩

end Kache.Scheduler
