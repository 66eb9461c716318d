import Kache.Foundation.Interleaving
import Kache.Foundation.Iteration

/-!
# Download claims of the daemon

The daemon downloads an entry in one task at a time.  A task becomes the leader of
a key by inserting it in the `downloading` map; the others find it there and park
behind it.  The leader's `DownloadingGuard` takes the key out again when it is
dropped, at once when the map is free and in a spawned task when it is not, and
wakes those that wait.

The guard removes whatever stands at its key, without asking whether that is its
own claim.  It always is: from the claim until the removal the key is taken, so
nobody else can have claimed it.  The model makes this checkable by numbering the
claims — the *generation* of a claim is the identity of its `Notify` — and keeping
for each who has to remove it: the task that claimed, or the spawned removal it
handed the duty to.  A generation in the map is removed by its owner and by nobody
else (`Spares`).
-/

namespace Kache.Downloads

/-- Who has to remove a claim: a task, or a spawned removal. -/
inductive Owner where
  | task (p : ℕ)
  | removal (i : ℕ)
  deriving DecidableEq

/-- A claim: how often its `Notify` was fired, and who has to remove it. -/
structure Generation where
  wakes : ℕ
  owner : Owner

/-- A spawned removal, and where it is. -/
inductive Removal where
  | pending (key : String) (g : ℕ)
  /-- The key is removed, its `Notify` is not fired yet. -/
  | removed (notify : Option ℕ)
  | done

/-- The `downloading` map, every claim there ever was, the removals that were
spawned, and the clock. -/
structure Shared where
  map : Table String ℕ
  generations : List Generation
  removals : List Removal
  clock : ℕ

namespace Shared

def start : Shared := ⟨.empty, [], [], 0⟩

def generation? (σ : Shared) (g : ℕ) : Option Generation := σ.generations[g]?

/-- A fresh `Notify` at `key`, for task `p` to remove. -/
def insertClaim (σ : Shared) (p : ℕ) (key : String) : Shared :=
  { σ with
    map := σ.map.set key σ.generations.length
    generations := σ.generations ++ [⟨0, .task p⟩] }

/-- `claim_download` by task `p`: the generation that is there, or none and the key
is claimed. -/
def claimDownload (σ : Shared) (p : ℕ) (key : String) : Shared × Option ℕ :=
  match σ.map.get key with
  | some g => (σ, some g)
  | none => (σ.insertClaim p key, none)

/-- `remove(&key)`. -/
def remove (σ : Shared) (key : String) : Shared := { σ with map := σ.map.erase key }

/-- `notify_waiters`. -/
def notify (σ : Shared) : Option ℕ → Shared
  | none => σ
  | some g =>
    { σ with
      generations := σ.generations.modify g fun generation =>
        { generation with wakes := generation.wakes + 1 } }

/-- The removal of claim `g` is handed to a spawned task. -/
def spawn (σ : Shared) (key : String) (g : ℕ) : Shared :=
  { σ with
    generations := σ.generations.modify g fun generation =>
      { generation with owner := .removal σ.removals.length }
    removals := σ.removals ++ [.pending key g] }

/-- The spawned removal `i` moves on. -/
def setRemoval (σ : Shared) (i : ℕ) (removal : Removal) : Shared :=
  { σ with removals := σ.removals.set i removal }

end Shared

/-- `DOWNLOAD_JOIN_BUDGET`, in nanoseconds. -/
def downloadJoinBudget : ℕ := 30 * 10 ^ 9

/-- `download_join_deadline`. -/
def downloadJoinDeadline (now : ℕ) (overall : Option ℕ) : ℕ :=
  overall.elim (now + downloadJoinBudget) fun overall => min overall (now + downloadJoinBudget)

/-- Where a task is. -/
inductive Task where
  | idle
  /-- The packed entry is not on disk. -/
  | packing (key : String)
  /-- It won the claim and has no guard yet. -/
  | claimed (key : String) (g : ℕ)
  /-- It has a `DownloadingGuard`. -/
  | guarded (key : String) (g : ℕ)
  /-- The guard's key is removed, its `Notify` is not fired yet. -/
  | removed (notify : Option ℕ)
  /-- At the top of the loop of `join_inflight_download`. -/
  | joining (key : String) (g deadline : ℕ)
  /-- Registered on the `Notify` of `g`; it completes with the first wake after
  `seen`. -/
  | registered (key : String) (g seen deadline : ℕ)
  /-- The map still has `g`. -/
  | waiting (key : String) (g seen deadline : ℕ)
  /-- The wait is over. -/
  | released (key : String) (timedOut : Bool) (deadline : ℕ)
  /-- There is no `meta.json`: to claim again. -/
  | retrying (key : String) (timedOut : Bool) (deadline : ℕ)
  /-- `JoinOutcome::Found`. -/
  | found (key : String)
  /-- `JoinOutcome::GaveUp`. -/
  | gaveUp (key : String)
  deriving DecidableEq

/-- The steps of the tasks.  What the disk answers and whether the map is contended
is in the action. -/
inductive Action where
  | tick (elapsed : ℕ)
  /-- A remote check claims; it joins when it is not the first. -/
  | claimDemand (key : String) (overall : Option ℕ)
  /-- A prefetch claims; it skips the key when it is not the first. -/
  | claimPrefetch (key : String)
  /-- `try_claim_packed_download`: the look at the disk, then the claim. -/
  | lookPacked (key : String) (exists_ : Bool)
  | claimPacked
  | guard
  /-- The guard is dropped while the map is free. -/
  | dropFast
  /-- The guard is dropped while the map is contended, in a runtime or not. -/
  | dropContended (inRuntime : Bool)
  | notifyRemoved
  | register
  | recheck
  | wake
  | timeout
  | lookMeta (exists_ : Bool)
  | reclaim
  | leave
  /-- The runtime runs a spawned removal: the removal, then the wake-up. -/
  | runRemoval (i : ℕ)
  | finishRemoval (i : ℕ)

/-- A claim of task `p`: it leads `key` now, or goes on behind the generation it
found. -/
def claimOr (σ : Shared) (p : ℕ) (key : String) (behind : ℕ → Task) : Shared × Task :=
  match σ.claimDownload p key with
  | (σ', none) => (σ', .claimed key σ.generations.length)
  | (σ', some g) => (σ', behind g)

/-- What task `p` makes of an action. -/
def transition (p : ℕ) (σ : Shared) : Task → Action → Option (Shared × Task)
  | task, .tick elapsed => some ({ σ with clock := σ.clock + elapsed }, task)
  | task, .runRemoval i =>
    match σ.removals[i]? with
    | some (.pending key _) =>
      some ((σ.remove key).setRemoval i (.removed (σ.map.get key)), task)
    | _ => none
  | task, .finishRemoval i =>
    match σ.removals[i]? with
    | some (.removed notify) => some ((σ.notify notify).setRemoval i .done, task)
    | _ => none
  | .idle, .claimDemand key overall =>
    some (claimOr σ p key fun g => .joining key g (downloadJoinDeadline σ.clock overall))
  | .idle, .claimPrefetch key => some (claimOr σ p key fun _ => .idle)
  | .idle, .lookPacked key exists_ => some (σ, if exists_ then .idle else .packing key)
  | .packing key, .claimPacked => some (claimOr σ p key fun _ => .idle)
  | .claimed key g, .guard => some (σ, .guarded key g)
  | .guarded key _, .dropFast => some (σ.remove key, .removed (σ.map.get key))
  | .guarded key g, .dropContended inRuntime =>
    -- outside a runtime the key stays in the map
    some (if inRuntime then σ.spawn key g else σ, .idle)
  | .removed notify, .notifyRemoved => some (σ.notify notify, .idle)
  | .joining key g deadline, .register =>
    (σ.generation? g).map fun generation =>
      (σ, .registered key g generation.wakes deadline)
  | .registered key g seen deadline, .recheck =>
    some (σ, match σ.map.get key with
      | some current =>
        if current = g then .waiting key g seen deadline
        else if σ.clock < deadline then .joining key current deadline
        else .released key true deadline
      | none => .released key false deadline)
  | .waiting key g seen deadline, .wake =>
    (σ.generation? g).bind fun generation =>
      if seen < generation.wakes then some (σ, .released key false deadline) else none
  | .waiting key _ _ deadline, .timeout =>
    if deadline ≤ σ.clock then some (σ, .released key true deadline) else none
  | .released key timedOut deadline, .lookMeta exists_ =>
    some (σ, if exists_ then .found key else .retrying key timedOut deadline)
  | .retrying key timedOut deadline, .reclaim =>
    some (claimOr σ p key fun next =>
      if timedOut then .gaveUp key else .joining key next deadline)
  | .found _, .leave => some (σ, .idle)
  | .gaveUp _, .leave => some (σ, .idle)
  | _, _ => none

variable {σ : Shared} {key key' : String} {behind : ℕ → Task} {p g : ℕ}
    {owner : Owner} {task : Task}
  {action : Action} {next : Shared × Task}

theorem claimOr_of_vacant (vacant : σ.map.get key = none) :
    claimOr σ p key behind = (σ.insertClaim p key, .claimed key σ.generations.length) := by
  simp [claimOr, Shared.claimDownload, vacant]

theorem claimOr_of_row (row : σ.map.get key = some g) :
    claimOr σ p key behind = (σ, behind g) := by
  simp [claimOr, Shared.claimDownload, row]

/-! ## Claims and their owners -/

/-- Claim `g` stands in the map at `key`, and `owner` has to remove it. -/
def Holds (σ : Shared) (key : String) (g : ℕ) (owner : Owner) : Prop :=
  σ.map.get key = some g ∧ ∃ generation, σ.generation? g = some generation ∧
    generation.owner = owner

/-- A key is held by one owner. -/
theorem Holds.unique {g' : ℕ} {o o' : Owner} (h : Holds σ key g o) (h' : Holds σ key g' o') :
    g = g' ∧ o = o' := by
  obtain ⟨row, generation, found, rfl⟩ := h
  obtain ⟨row', generation', found', rfl⟩ := h'
  obtain rfl : g = g' := Option.some.inj (row.symm.trans row')
  exact ⟨rfl, by rw [Option.some.inj (found.symm.trans found')]⟩

/-- **What `owner` can change**: the claims of the others stay. -/
def Spares (owner : Owner) (σ σ' : Shared) : Prop :=
  ∀ key g other, other ≠ owner → Holds σ key g other → Holds σ' key g other

namespace Spares

/-- The owner of a claim removes it. -/
theorem remove (holds : Holds σ key g owner) :
    Spares owner σ (σ.remove key) := by
  intro key' g' other distinct holds'
  have keys : key' ≠ key := by
    rintro rfl
    exact distinct (holds'.unique holds).2
  exact ⟨by simpa [Shared.remove, keys] using holds'.1, holds'.2⟩

end Spares

/-- Firing a `Notify` leaves every claim where it is. -/
theorem Holds.notify (holds : Holds σ key g owner) (target : Option ℕ) :
    Holds (σ.notify target) key g owner := by
  cases target with
  | none => exact holds
  | some woken =>
    obtain ⟨row, generation, found, owned⟩ := holds
    refine ⟨row, if woken = g then { generation with wakes := generation.wakes + 1 }
      else generation, ?_, ?_⟩
    · unfold Shared.generation? at found ⊢
      simp only [Shared.notify, List.getElem?_modify, found]
      split <;> rfl
    · split <;> exact owned

/-- A claim leaves every claim where it is. -/
theorem Holds.insertClaim (holds : Holds σ key g owner) (vacant : σ.map.get key' = none) :
    Holds (σ.insertClaim p key') key g owner := by
  obtain ⟨row, generation, found, owned⟩ := holds
  have distinct : key ≠ key' := by
    rintro rfl
    rw [vacant] at row
    cases row
  refine ⟨by simpa [Shared.insertClaim, distinct] using row, generation, ?_, owned⟩
  unfold Shared.generation? at found ⊢
  rw [Shared.insertClaim, List.getElem?_append_left (List.getElem?_eq_some_iff.mp found).1]
  exact found

/-- The claimant of a vacant key holds it. -/
theorem holds_insertClaim :
    Holds (σ.insertClaim p key) key σ.generations.length (.task p) :=
  ⟨by simp [Shared.insertClaim], ⟨0, .task p⟩, by simp [Shared.generation?, Shared.insertClaim],
    rfl⟩

/-- A claim is handed over: the others keep theirs, and the removal has it. -/
theorem spares_spawn (holds : Holds σ key g (.task p)) :
    Spares (.task p) σ (σ.spawn key g) ∧
      Holds (σ.spawn key g) key g (.removal σ.removals.length) := by
  obtain ⟨row, generation, found, owned⟩ := holds
  constructor
  · rintro key' g' other distinct ⟨row', generation', found', owned'⟩
    have generations : g ≠ g' := by
      rintro rfl
      rw [Option.some.inj (found.symm.trans found')] at owned
      exact distinct (owned'.symm.trans owned)
    refine ⟨row', generation', ?_, owned'⟩
    unfold Shared.generation? at found' ⊢
    simpa [Shared.spawn, List.getElem?_modify, generations] using found'
  · refine ⟨row, { generation with owner := .removal σ.removals.length }, ?_, rfl⟩
    unfold Shared.generation? at found ⊢
    simp [Shared.spawn, found]

/-! ## Every step keeps the owners -/

/-- `task` leads `key`: it won the claim, and its guard is not dropped. -/
def Task.Leads (key : String) : Task → Prop
  | .claimed k _ | .guarded k _ => k = key
  | _ => False

/-- A leader holds its claim. -/
def Leader (p : ℕ) (σ : Shared) : Task → Prop
  | .claimed key g | .guarded key g => Holds σ key g (.task p)
  | _ => True

/-- A spawned removal that has not run holds its claim. -/
def Pending (σ : Shared) : Prop :=
  ∀ (i : ℕ) key g, σ.removals[i]? = some (Removal.pending key g) → Holds σ key g (.removal i)

/-- **One step** of task `p`, or of a removal the runtime runs meanwhile. -/
structure Kept (p : ℕ) (σ : Shared) (next : Shared × Task) : Prop where
  pending : Pending next.1
  leader : Leader p next.1 next.2
  others : ∀ q key g, q ≠ p → Holds σ key g (.task q) → Holds next.1 key g (.task q)

namespace Kept

/-- Nothing that is shared changes. -/
theorem local_step (pending : Pending σ) (leader : Leader p σ task) :
    Kept p σ (σ, task) :=
  ⟨pending, leader, fun _ _ _ _ holds => holds⟩

/-- A claim, won or not. -/
theorem claimOr (pending : Pending σ) (follower : ∀ g, Leader p σ (behind g)) :
    Kept p σ (Downloads.claimOr σ p key behind) := by
  cases row : σ.map.get key with
  | none =>
    rw [claimOr_of_vacant row]
    exact ⟨fun i key' g found => (pending i key' g found).insertClaim row, holds_insertClaim,
      fun _ _ _ _ holds => holds.insertClaim row⟩
  | some g =>
    rw [claimOr_of_row row]
    exact local_step pending (follower g)

theorem dropFast (pending : Pending σ) (holds : Holds σ key g (.task p)) :
    Kept p σ (σ.remove key, .removed (σ.map.get key)) := by
  refine ⟨fun i key' g' found => ?_, trivial, fun q key' g' distinct holds' => ?_⟩
  · exact Spares.remove holds key' g' _ (by simp) (pending i key' g' found)
  · exact Spares.remove holds key' g' _ (by simpa using distinct) holds'

theorem spawn (pending : Pending σ) (holds : Holds σ key g (.task p)) :
    Kept p σ (σ.spawn key g, .idle) := by
  obtain ⟨spares, handed⟩ := spares_spawn holds
  refine ⟨fun i key' g' found => ?_, trivial, fun q key' g' distinct holds' =>
    spares key' g' _ (by simpa using distinct) holds'⟩
  -- the removal that was spawned, or an earlier one
  simp only [Shared.spawn] at found
  rw [List.getElem?_append] at found
  split at found
  · exact spares key' g' _ (by simp) (pending i key' g' found)
  · next beyond =>
    have last : i - σ.removals.length = 0 := by
      by_contra nonzero
      rw [List.getElem?_eq_none (by simp only [List.length_singleton]; omega)] at found
      cases found
    rw [last] at found
    obtain ⟨rfl, rfl⟩ : key = key' ∧ g = g' := by simpa using found
    obtain rfl : i = σ.removals.length := by omega
    exact handed

theorem notify (pending : Pending σ) (target : Option ℕ) :
    Kept p σ (σ.notify target, .idle) := by
  refine ⟨fun i key g found => ?_, trivial, fun _ _ _ _ holds => holds.notify target⟩
  refine (pending i key g ?_).notify target
  cases target <;> exact found

theorem runRemoval {i : ℕ} (pending : Pending σ) (leader : Leader p σ task)
    (spawned : σ.removals[i]? = some (.pending key g)) :
    Kept p σ ((σ.remove key).setRemoval i (.removed (σ.map.get key)), task) := by
  have spares := Spares.remove (pending i key g spawned)
  refine ⟨fun j key' g' found => ?_, ?_, fun q key' g' _ holds => spares key' g' _ (by simp) holds⟩
  · rcases System.getElem?_set spawned found with ⟨-, isRemoved⟩ | ⟨distinct, found⟩
    · cases isRemoved
    · exact spares key' g' _ (by simpa using distinct) (pending j key' g' found)
  · cases task with
    | claimed key' g' => exact spares key' g' _ (by simp) leader
    | guarded key' g' => exact spares key' g' _ (by simp) leader
    | _ => trivial

theorem finishRemoval {i : ℕ} {target : Option ℕ} (pending : Pending σ) (leader : Leader p σ task)
    (spawned : σ.removals[i]? = some (.removed target)) :
    Kept p σ ((σ.notify target).setRemoval i .done, task) := by
  have removals : (σ.notify target).removals = σ.removals := by cases target <;> rfl
  refine ⟨fun j key g found => ?_, ?_, fun _ _ _ _ holds => holds.notify target⟩
  · simp only [Shared.setRemoval, removals] at found
    rcases System.getElem?_set spawned found with ⟨-, isDone⟩ | ⟨-, found⟩
    · cases isDone
    · exact (pending j key g found).notify target
  · cases task with
    | claimed key g => exact Holds.notify leader target
    | guarded key g => exact Holds.notify leader target
    | _ => trivial

end Kept

/-- **Every step keeps the owners.** -/
theorem transition_kept (pending : Pending σ) (leader : Leader p σ task)
    (taken : transition p σ task action = some next) : Kept p σ next := by
  have stays : ∀ {task}, Leader p σ task → Kept p σ (σ, task) := Kept.local_step pending
  have claims : ∀ {key behind}, (∀ g, Leader p σ (behind g)) → Kept p σ (claimOr σ p key behind) :=
    Kept.claimOr pending
  have ticks : ∀ elapsed, Kept p σ ({ σ with clock := σ.clock + elapsed }, task) := fun elapsed =>
    ⟨pending, by cases task <;> exact leader, fun _ _ _ _ holds => holds⟩
  unfold transition at taken
  grind [Kept.runRemoval, Kept.finishRemoval, Kept.dropFast, Kept.spawn, Kept.notify, Leader,
    Option.map_eq_some_iff, Option.bind_eq_some_iff]

/-! ## Runs -/

/-- The interleavings of `n` tasks. -/
abbrev Run (n : ℕ) (s : System Shared Task) : Prop :=
  Reaches (fun _ _ => True) (System.step transition) (System.start .start .idle n) s

/-- **The invariant of every run.** -/
theorem Run.owners {n : ℕ} {s : System Shared Task} (run : Run n s) :
    Pending s.shared ∧ ∀ p task, s.procs[p]? = some task → Leader p s.shared task := by
  refine run.local_invariant (I := Pending) (J := Leader) ?_ ?_ ?_
  · intro i key g found
    simp [System.start, Shared.start] at found
  · intro p task found
    obtain ⟨-, rfl⟩ := System.getElem?_start found
    trivial
  · intro s p action task next found pending leaders _ taken
    have kept := transition_kept pending (leaders p task found) taken
    refine ⟨kept.pending, kept.leader, fun q other distinct hq => ?_⟩
    have leader := leaders q other hq
    cases other with
    | claimed key g => exact kept.others q key g distinct leader
    | guarded key g => exact kept.others q key g distinct leader
    | _ => trivial

/-- A leader's claim. -/
theorem Leader.holds (leader : Leader p σ task) (leads : task.Leads key) :
    ∃ g, Holds σ key g (.task p) := by
  cases task with
  | claimed k g => exact ⟨g, leads ▸ leader⟩
  | guarded k g => exact ⟨g, leads ▸ leader⟩
  | _ => exact leads.elim

/-- A row that is gone after a removal at `key'` was the row at `key'`. -/
theorem eq_of_gone (row : σ.map.get key = some g) (gone : (σ.map.erase key').get key ≠ some g) :
    key' = key := by
  by_contra distinct
  exact gone (by simpa [Ne.symm distinct] using row)

/-- A claim removes no row. -/
theorem get_claimOr (row : σ.map.get key = some g) :
    (claimOr σ p key' behind).1.map.get key = some g := by
  cases row' : σ.map.get key' with
  | none =>
    have distinct : key ≠ key' := by
      rintro rfl
      rw [row'] at row
      cases row
    simpa [claimOr_of_vacant row', Shared.insertClaim, distinct] using row
  | some g' =>
    rw [claimOr_of_row row']
    exact row

/-- **A claim leaves the map only by its own removal**: the guard of that generation is
dropped, or the removal runs that was spawned for it. -/
theorem removed_by_owner (pending : Pending σ) (leader : Leader p σ task)
    (taken : transition p σ task action = some next) (row : σ.map.get key = some g)
    (gone : next.1.map.get key ≠ some g) :
    (task = .guarded key g ∧ action = .dropFast) ∨
      ∃ i, action = .runRemoval i ∧ σ.removals[i]? = some (.pending key g) := by
  have claims : ∀ {key' behind}, (claimOr σ p key' behind).1.map.get key = some g := get_claimOr row
  have notifies : ∀ target, (σ.notify target).map = σ.map := fun target => by cases target <;> rfl
  unfold transition at taken
  grind [eq_of_gone, Leader, Pending, Holds, Shared.remove, Shared.setRemoval, Shared.spawn,
    Option.map_eq_some_iff, Option.bind_eq_some_iff]

/-- **Giving up claims nothing**: it is the answer to a claim that found the key taken,
and the map stays as it is. -/
theorem gaveUp_of_transition (taken : transition p σ task action = some next)
    (joins : task ≠ .gaveUp key) (gaveUp : next.2 = .gaveUp key) :
    next.1 = σ ∧ ∃ g, σ.map.get key = some g := by
  unfold transition at taken
  grind [claimOr, Shared.claimDownload, Option.map_eq_some_iff, Option.bind_eq_some_iff]

/-- What a task that gave up does next, it does not lead. -/
theorem not_leads_of_gaveUp (taken : transition p σ (.gaveUp key) action = some next) (k : String) :
    ¬ next.2.Leads k := by
  unfold transition at taken
  grind [Task.Leads]

/-- **One download leader per key.**  In every interleaving of any number of tasks and
spawned removals: a key has at most one leader; a claim leaves the map only when its
own generation's guard is dropped or the removal spawned for it runs, and so never
by a predecessor's; and a joiner that gives up has claimed nothing, found the key
taken, and is no leader after. -/
theorem one_leader_per_key (n : ℕ) {s : System Shared Task} (run : Run n s) :
    (∀ (p q : ℕ) (key : String) (task other : Task), s.procs[p]? = some task →
      s.procs[q]? = some other → task.Leads key → other.Leads key → p = q) ∧
    ∀ (p : ℕ) (task : Task) action next, s.procs[p]? = some task →
      transition p s.shared task action = some next →
        (∀ key g, s.shared.map.get key = some g → next.1.map.get key ≠ some g →
          (task = .guarded key g ∧ action = .dropFast) ∨
            ∃ i, action = .runRemoval i ∧ s.shared.removals[i]? = some (.pending key g)) ∧
        ∀ key, (task ≠ .gaveUp key → next.2 = .gaveUp key →
            next.1 = s.shared ∧ ∃ g, s.shared.map.get key = some g) ∧
          (task = .gaveUp key → ∀ k, ¬ next.2.Leads k) := by
  obtain ⟨pending, leaders⟩ := run.owners
  refine ⟨?_, ?_⟩
  · intro p q key task other hp hq leads otherLeads
    obtain ⟨g, holds⟩ := (leaders p task hp).holds leads
    obtain ⟨g', otherHolds⟩ := (leaders q other hq).holds otherLeads
    simpa using (holds.unique otherHolds).2
  · intro p task action next hp taken
    refine ⟨fun key g row gone => removed_by_owner pending (leaders p task hp) taken row gone,
      fun key => ⟨fun joins gaveUp => gaveUp_of_transition taken joins gaveUp, ?_⟩⟩
    rintro rfl
    exact not_leads_of_gaveUp taken

/-- A removal that was deferred runs after a joiner has timed out and given up; then
the key is claimed anew. -/
theorem one_leader_per_key_deferred :
    ∃ s : System Shared Task, Run 3 s ∧ s.procs[1]? = some (.gaveUp "k") ∧
      s.procs[2]? = some (.guarded "k" 1) ∧
      ∀ (q : ℕ) (other : Task), s.procs[q]? = some other → other.Leads "k" → q = 2 := by
  obtain ⟨s, run, test⟩ := exists_reaches_of_replay (fun _ _ => True) (System.step transition)
    (System.start .start .idle 3)
    [(0, .claimDemand "k" none), (0, .guard), (1, .claimDemand "k" (some 5)), (1, .register),
      (1, .recheck), (0, .dropContended true), (2, .tick 5), (1, .timeout),
      (1, .lookMeta false), (1, .reclaim), (2, .runRemoval 0), (2, .claimPrefetch "k"),
      (2, .guard)]
    (fun s => s.procs[1]? = some (.gaveUp "k") ∧ s.procs[2]? = some (.guarded "k" 1))
    (by decide +kernel)
  obtain ⟨gaveUp, guarded⟩ := of_decide_eq_true test
  refine ⟨s, run, gaveUp, guarded, fun q other hq leads => ?_⟩
  exact (one_leader_per_key 3 run).1 q 2 "k" other (.guarded "k" 1) hq guarded leads rfl

end Kache.Downloads
