import Kache.Foundation.Interleaving

/-!
# `StoreLock`

A store lock is an OS lock on a marker file that stays in place; a sweep unlinks
marker files nobody has used for a while.  Unlinking lets two processes hold OS
locks on two files of one name, so every acquisition checks, once it has the OS
lock, that the path still names the file it locked, and starts over when it does
not.  The sweep locks the file, checks the same and unlinks.

The model keeps *files* and their *identities* apart.  Files are numbered in the
order of their creation; what the code can compare is the identity a file system
gave them (`InodeId`), and an identity may be given again once nothing refers to
the file that had it.  That no identity is reused while a handle is open is a
condition on runs (`NoReuse`).  OS locks are per file, exclusive, and end with
the handle.  A platform may have no identities at all (`identities = false`):
an acquisition then takes what it locked for current, and the sweep never
unlinks.  Where there are identities, an acquisition that cannot stat its own
handle takes what it locked for current too; after an unlink this lets two guards
live (`two_guards_after_failed_stat`), so that this does not happen is the second
condition (`StatsCurrent`).

The assertion behind `storeLock_exclusive` is that a process which confirmed the
identity holds the OS lock of the file that the path names, and keeps both until
it lets go: only a sweep changes what a path names, and it has to hold that same
lock.
-/

namespace Kache

namespace StoreLock

/-- A file, by its number in the order of creation. -/
abbrev File := ℕ

/-- `kache_fs::InodeId`. -/
abbrev InodeId := ℕ

/-- The file system around one lock path. -/
structure LockFs where
  /-- The file at the path. -/
  path : Option File
  /-- How many files have been created. -/
  created : ℕ
  identity : File → InodeId
  /-- The process that has the OS lock of a file. -/
  holder : File → Option ℕ

namespace LockFs

/-- A path without a file, or with one of identity `id`. -/
def start : Option InodeId → LockFs
  | none => ⟨none, 0, fun _ => 0, fun _ => none⟩
  | some id => ⟨some 0, 1, fun _ => id, fun _ => none⟩

/-- A new file of identity `id` at the path. -/
def create (id : InodeId) (fs : LockFs) : LockFs :=
  { fs with
    path := some fs.created
    created := fs.created + 1
    identity := fun f => if f = fs.created then id else fs.identity f }

/-- Process `p` gets the OS lock of `f`. -/
def take (p : ℕ) (f : File) (fs : LockFs) : LockFs :=
  { fs with holder := fun g => if g = f then some p else fs.holder g }

/-- Process `p` closes its handle on `f`, which ends a lock it has. -/
def release (p : ℕ) (f : File) (fs : LockFs) : LockFs :=
  { fs with holder := fun g => if g = f ∧ fs.holder g = some p then none else fs.holder g }

/-- `fs::remove_file(path)`. -/
def unlink (fs : LockFs) : LockFs := { fs with path := none }

/-- `kache_fs::handle_identity`; the stat of the handle may fail. -/
def handleIdentity (identities statted : Bool) (f : File) (fs : LockFs) : Option InodeId :=
  if identities && statted then some (fs.identity f) else none

/-- `kache_fs::file_identity(path)`; the path may be unreadable. -/
def fileIdentity (identities readable : Bool) (fs : LockFs) : Option InodeId :=
  if identities && readable then fs.path.map fs.identity else none

end LockFs

/-- `lock_is_current`. -/
def lockIsCurrent : (handle atPath : Option InodeId) → Bool
  | some handle, some atPath => handle == atPath
  | some _, none => false
  | none, _ => true

/-- `lock_file_is_at_path`. -/
def lockFileIsAtPath : (handle atPath : Option InodeId) → Bool
  | some handle, some atPath => handle == atPath
  | _, _ => false

/-- `LOCK_OPEN_ATTEMPTS`. -/
def lockOpenAttempts : ℕ := 4

/-- Where an acquisition or a sweep is between two steps. -/
inductive Actor where
  | idle
  /-- `acquire_current` with attempts left; `try_acquire` does not block. -/
  | acquiring (blocking : Bool) (attempts : ℕ)
  | opened (blocking : Bool) (attempts : ℕ) (f : File)
  | locked (blocking : Bool) (attempts : ℕ) (f : File)
  /-- `lock_is_current` said yes; `finish` writes the marker. -/
  | current (f : File)
  /-- A live guard. -/
  | guard (f : File)
  /-- `remove_stale_lock_file`, after the listing. -/
  | sweeping
  | sweepOpened (f : File)
  | sweepLocked (f : File)
  /-- Stale, and `lock_file_is_at_path` said yes. -/
  | sweepChecked (f : File)
  | sweepDone (f : File)
  deriving DecidableEq

/-- What an actor can do next.  What the model leaves open — the identity a file
system gives, whether a call fails, whether a file is stale — is an argument. -/
inductive LockAction where
  | acquire (blocking : Bool)
  | open (id : InodeId)
  | giveUp
  | lock
  | busy
  | check (statted readable : Bool)
  | finish (ok : Bool)
  | drop
  | sweepList
  | sweepOpen
  | sweepLock
  | sweepCheck (stale statted readable : Bool)
  | sweepUnlink (ok : Bool)
  | sweepClose
  /-- The process dies, or gives up on an error. -/
  | die

/-- The open handle of an actor. -/
def Actor.handle? : Actor → Option File
  | .opened _ _ f | .locked _ _ f | .current f | .guard f => some f
  | .sweepOpened f | .sweepLocked f | .sweepChecked f | .sweepDone f => some f
  | .idle | .acquiring _ _ | .sweeping => none

/-- The file an actor has locked. -/
def Actor.locked? : Actor → Option File
  | .locked _ _ f | .current f | .guard f => some f
  | .sweepLocked f | .sweepChecked f | .sweepDone f => some f
  | _ => none

/-- The file an actor has locked and found at the path. -/
def Actor.confirmed? : Actor → Option File
  | .current f | .guard f | .sweepChecked f => some f
  | _ => none

/-- What process `p` makes of the file system and an action. -/
def transition (identities : Bool) (p : ℕ) (fs : LockFs) :
    Actor → LockAction → Option (LockFs × Actor)
  | .idle, .acquire blocking => some (fs, .acquiring blocking lockOpenAttempts)
  | .acquiring blocking (n + 1), .open id =>
    match fs.path with
    | some f => some (fs, .opened blocking n f)
    | none => some (fs.create id, .opened blocking n fs.created)
  | .acquiring _ 0, .giveUp => some (fs, .idle)
  | .opened blocking n f, .lock =>
    if (fs.holder f).isNone then some (fs.take p f, .locked blocking n f) else none
  | .opened false _ f, .busy =>
    if (fs.holder f).isSome then some (fs.release p f, .idle) else none
  | .locked blocking n f, .check statted readable =>
    if lockIsCurrent (fs.handleIdentity identities statted f)
        (fs.fileIdentity identities readable) then
      some (fs, .current f)
    else some (fs.release p f, .acquiring blocking n)
  | .current f, .finish ok => if ok then some (fs, .guard f) else some (fs.release p f, .idle)
  | .guard f, .drop => some (fs.release p f, .idle)
  | .idle, .sweepList => if fs.path.isSome then some (fs, .sweeping) else none
  | .sweeping, .sweepOpen =>
    match fs.path with
    | some f => some (fs, .sweepOpened f)
    | none => some (fs, .idle)
  | .sweepOpened f, .sweepLock =>
    if (fs.holder f).isNone then some (fs.take p f, .sweepLocked f)
    else some (fs.release p f, .idle)
  | .sweepLocked f, .sweepCheck stale statted readable =>
    if stale && lockFileIsAtPath (fs.handleIdentity identities statted f)
        (fs.fileIdentity identities readable) then
      some (fs, .sweepChecked f)
    else some (fs.release p f, .idle)
  | .sweepChecked f, .sweepUnlink ok =>
    some (if ok then fs.unlink else fs, .sweepDone f)
  | .sweepDone f, .sweepClose => some (fs.release p f, .idle)
  | actor, .die => some (actor.handle?.elim fs (fs.release p ·), .idle)
  | _, _ => none

/-- A file is created with an identity that no open handle refers to. -/
def NoReuse (s : System LockFs Actor) (a : ℕ × LockAction) : Prop :=
  match a.2 with
  | .open id => s.shared.path = none →
      ∀ actor ∈ s.procs, ∀ f ∈ actor.handle?, s.shared.identity f ≠ id
  | _ => True

instance (s : System LockFs Actor) (a : ℕ × LockAction) : Decidable (NoReuse s a) := by
  unfold NoReuse
  split <;> infer_instance

/-- An acquisition that cannot stat its handle, where handles have identities,
has locked the file at the path. -/
def statsCurrent (identities : Bool) (fs : LockFs) : Actor → LockAction → Bool
  | .locked _ _ f, .check false _ => !identities || fs.path == some f
  | _, _ => true

/-- The process that moves does. -/
def StatsCurrent (identities : Bool) (s : System LockFs Actor) (a : ℕ × LockAction) : Prop :=
  ∀ actor ∈ s.procs[a.1]?, statsCurrent identities s.shared actor a.2 = true

instance (identities : Bool) (s : System LockFs Actor) (a : ℕ × LockAction) :
    Decidable (StatsCurrent identities s a) :=
  inferInstanceAs (Decidable (∀ actor ∈ s.procs[a.1]?, _))

/-! ## What an actor can rely on -/

/-- **The assertion of process `p`.** -/
structure Relies (identities : Bool) (p : ℕ) (fs : LockFs) (actor : Actor) : Prop where
  created : ∀ f ∈ actor.handle?, f < fs.created
  /-- Its file and the one at the path are the same when their identities are. -/
  identified : ∀ f ∈ actor.handle?, ∀ g ∈ fs.path, fs.identity f = fs.identity g → f = g
  locked : ∀ f ∈ actor.locked?, fs.holder f = some p
  confirmed : ∀ f ∈ actor.confirmed?, fs.path = some f
  /-- Without identities no path ever changes. -/
  kept : identities = false → ∀ f ∈ actor.handle?, fs.path = some f
  sweeps : ∀ f, actor = .sweepChecked f → identities = true

section Interference

variable {identities : Bool} {p q : ℕ} {fs : LockFs} {actor : Actor}

theorem locked?_of_confirmed? {f : File} (mem : f ∈ actor.confirmed?) : f ∈ actor.locked? := by
  cases actor <;> first | exact mem | cases mem

theorem handle?_of_locked? {f : File} (mem : f ∈ actor.locked?) : f ∈ actor.handle? := by
  cases actor <;> first | exact mem | cases mem

/-- An actor without a handle relies on nothing. -/
theorem relies_of_no_handle (identities : Bool) (p : ℕ) (fs : LockFs)
    (closed : actor.handle? = none) : Relies identities p fs actor := by
  constructor <;> grind [→ locked?_of_confirmed?, → handle?_of_locked?, Actor.handle?]

/-- Creating a file at a path that had none. -/
theorem Relies.create (relies : Relies identities q fs actor) {id : InodeId}
    (absent : fs.path = none) (fresh : ∀ f ∈ actor.handle?, fs.identity f ≠ id) :
    Relies identities q (fs.create id) actor := by
  obtain ⟨created, identified, locked, confirmed, kept, sweeps⟩ := relies
  constructor <;> grind [LockFs.create]

/-- Another process locks a file that nobody had locked. -/
theorem Relies.take (relies : Relies identities q fs actor) {f : File}
    (free : fs.holder f = none) : Relies identities q (fs.take p f) actor := by
  obtain ⟨created, identified, locked, confirmed, kept, sweeps⟩ := relies
  constructor <;> grind [LockFs.take]

/-- Another process closes a handle. -/
theorem Relies.release (relies : Relies identities q fs actor) (hne : q ≠ p) (f : File) :
    Relies identities q (fs.release p f) actor := by
  obtain ⟨created, identified, locked, confirmed, kept, sweeps⟩ := relies
  constructor <;> grind [LockFs.release]

/-- **Only the holder of the lock unlinks.** -/
theorem Relies.unlink (relies : Relies identities q fs actor) {f : File}
    (sweeper : Relies identities p fs (.sweepChecked f)) (hne : q ≠ p) :
    Relies identities q fs.unlink actor where
  created := relies.created
  identified := by
    intro g _ g' hg'
    cases hg'
  locked := relies.locked
  confirmed := by
    intro g mem
    -- two processes that confirmed the path would hold one lock
    have hpath := relies.confirmed g mem
    have hsame : f = g := Option.some.inj ((sweeper.confirmed f rfl).symm.trans hpath)
    have hheld := relies.locked g (locked?_of_confirmed? mem)
    rw [← hsame, sweeper.locked f rfl] at hheld
    exact absurd (Option.some.inj hheld).symm hne
  kept := by
    intro platform
    rw [sweeper.sweeps f rfl] at platform
    cases platform
  sweeps := relies.sweeps

end Interference

/-! ## One step -/

section Steps

variable {identities : Bool} {p : ℕ} {fs : LockFs} {actor : Actor} {f : File}

/-- An actor that opens the file at the path. -/
theorem relies_opened {next : Actor} (handle : next.handle? = some f)
    (unlocked : next.locked? = none) (path : fs.path = some f) (created : f < fs.created) :
    Relies identities p fs next := by
  constructor <;> grind [→ locked?_of_confirmed?, Actor.locked?]

/-- An actor that goes on with its handle, and has the lock of it. -/
theorem Relies.advance (relies : Relies identities p fs actor) (handle : actor.handle? = some f)
    {next : Actor} (same : next.handle? = some f) (held : fs.holder f = some p)
    (confirmed : ∀ g ∈ next.confirmed?, fs.path = some f)
    (sweeps : ∀ g, next = .sweepChecked g → identities = true) : Relies identities p fs next := by
  have hown : f ∈ actor.handle? := handle
  obtain ⟨created, identified, -, -, kept, -⟩ := relies
  constructor <;> grind [→ locked?_of_confirmed?, → handle?_of_locked?]

/-- **A file that checks as current is the one at the path.** -/
theorem Relies.path_of_current (relies : Relies identities p fs actor) (handle : f ∈ actor.handle?)
    {statted readable : Bool}
    (current : lockIsCurrent (fs.handleIdentity identities statted f)
      (fs.fileIdentity identities readable) = true)
    (fails : identities = true → statted = false → fs.path = some f) : fs.path = some f := by
  have identified := relies.identified f handle
  have kept := fun platform => relies.kept platform f handle
  cases identities <;> cases statted <;> cases readable <;> cases hpath : fs.path <;>
    simp_all [LockFs.handleIdentity, LockFs.fileIdentity, lockIsCurrent]

/-- The check of the sweep is the stricter one. -/
theorem lockIsCurrent_of_atPath {handle atPath : Option InodeId}
    (strict : lockFileIsAtPath handle atPath = true) :
    lockIsCurrent handle atPath = true ∧ handle.isSome := by
  cases handle <;> cases atPath <;> simp_all [lockFileIsAtPath, lockIsCurrent]

/-- What a step of process `p` has to do: establish its own assertion, and keep
those of the others. -/
structure KeepsRelies (identities : Bool) (p : ℕ) (fs : LockFs) (a : LockAction)
    (next : LockFs × Actor) : Prop where
  named : ∀ f ∈ next.1.path, f < next.1.created
  own : Relies identities p next.1 next.2
  /-- A created file is told apart from the files others have open. -/
  others : ∀ q other, q ≠ p → Relies identities q fs other →
    (∀ id, a = .open id → fs.path = none → ∀ f ∈ other.handle?, fs.identity f ≠ id) →
      Relies identities q next.1 other

namespace KeepsRelies

variable {a : LockAction} {next : Actor}

/-- The file system stays what it is. -/
theorem stay (named : ∀ f ∈ fs.path, f < fs.created) (own : Relies identities p fs next) :
    KeepsRelies identities p fs a (fs, next) where
  named := named
  own := own
  others := fun _ _ _ relies _ => relies

/-- A handle is closed. -/
theorem close (named : ∀ f ∈ fs.path, f < fs.created) (f : File)
    (closed : next.handle? = none) : KeepsRelies identities p fs a (fs.release p f, next) where
  named := named
  own := relies_of_no_handle _ _ _ closed
  others := fun _ _ hne relies _ => relies.release hne f

/-- A free lock is taken. -/
theorem lock (named : ∀ f ∈ fs.path, f < fs.created) (own : Relies identities p fs actor)
    (handle : actor.handle? = some f) (free : (fs.holder f).isNone = true)
    (same : next.handle? = some f) (unconfirmed : next.confirmed? = none) :
    KeepsRelies identities p fs a (fs.take p f, next) := by
  rw [Option.isNone_iff_eq_none] at free
  refine ⟨named, ?_, fun _ _ _ relies _ => relies.take free⟩
  refine (own.take (p := p) free).advance handle same (by simp [LockFs.take]) ?_ ?_
  · simp [unconfirmed]
  · rintro g rfl
    cases unconfirmed

/-- The file at the path is opened. -/
theorem openAt (named : ∀ f ∈ fs.path, f < fs.created) (path : fs.path = some f)
    (handle : next.handle? = some f) (unlocked : next.locked? = none) :
    KeepsRelies identities p fs a (fs, next) :=
  .stay named (relies_opened handle unlocked path (named f path))

/-- A file is created, with an identity of its own. -/
theorem create {id : InodeId} (absent : fs.path = none) {blocking : Bool} {n : ℕ} :
    KeepsRelies identities p fs (.open id)
      (fs.create id, .opened blocking n fs.created) where
  named := by
    intro f hf
    cases hf
    exact Nat.lt_succ_self _
  own := relies_opened rfl rfl rfl (Nat.lt_succ_self _)
  others := fun _ _ _ relies fresh => relies.create absent (fresh id rfl absent)

/-- A sweep that checked the path unlinks it. -/
theorem unlink (own : Relies identities p fs (.sweepChecked f)) :
    KeepsRelies identities p fs a (fs.unlink, .sweepDone f) := by
  have hunlinked : ∀ g, g ∉ fs.unlink.path := by simp [LockFs.unlink]
  refine ⟨fun g hg => absurd hg (hunlinked g), ?_, fun _ _ hne relies _ => relies.unlink own hne⟩
  constructor
  · exact own.created
  · exact fun _ _ g hg => absurd hg (hunlinked g)
  · exact own.locked
  · simp [Actor.confirmed?]
  · intro platform
    rw [own.sweeps f rfl] at platform
    cases platform
  · simp

end KeepsRelies

/-- **One step** establishes the assertion of the process that moves and keeps
those of the others. -/
theorem transition_relies {a : LockAction} {next : LockFs × Actor}
    (taken : transition identities p fs actor a = some next)
    (stats : statsCurrent identities fs actor a = true)
    (named : ∀ f ∈ fs.path, f < fs.created) (own : Relies identities p fs actor) :
    KeepsRelies identities p fs a next := by
  have idles : ∀ {next : Actor}, next.handle? = none → KeepsRelies identities p fs a (fs, next) :=
    fun closed => .stay named (relies_of_no_handle _ _ _ closed)
  have closes : ∀ f {next : Actor}, next.handle? = none →
      KeepsRelies identities p fs a (fs.release p f, next) := fun f _ => .close named f
  -- one case per clause of `transition`, in its order
  unfold transition at taken
  split at taken
  case h_6 f statted readable =>
    split at taken
    · next current =>
      cases taken
      -- holding the lock of the file at the path, the process has confirmed it
      have hpath := own.path_of_current rfl current (by
        rintro rfl rfl
        simpa [statsCurrent] using stats)
      refine .stay named (own.advance rfl rfl (own.locked f rfl) (fun _ _ => hpath) ?_)
      simp
    · cases taken
      exact closes f rfl
  case h_7 f ok =>
    split at taken
    · cases taken
      have hpath := own.confirmed f rfl
      refine .stay named (own.advance rfl rfl (own.locked f rfl) (fun _ _ => hpath) ?_)
      simp
    · cases taken
      exact closes f rfl
  case h_12 f stale statted readable =>
    split at taken
    · next checked =>
      cases taken
      obtain ⟨-, checked⟩ := Bool.and_eq_true_iff.mp checked
      obtain ⟨current, known⟩ := lockIsCurrent_of_atPath checked
      -- a sweep that cannot stat its handle does not unlink
      have hknown : identities = true ∧ statted = true := by
        simpa [LockFs.handleIdentity] using known
      have hpath := own.path_of_current rfl current fun _ failed => by simp [hknown.2] at failed
      exact .stay named (own.advance rfl rfl (own.locked f rfl) (fun _ _ => hpath)
        fun _ _ => hknown.1)
    · cases taken
      exact closes f rfl
  case h_13 f ok =>
    cases taken
    cases ok with
    | false =>
      refine .stay named (own.advance rfl rfl (own.locked f rfl) ?_ ?_)
      · simp [Actor.confirmed?]
      · simp
    | true => exact .unlink own
  case h_15 => cases handle : actor.handle? <;> grind [Actor.handle?]
  -- the other clauses open, lock or close a file
  all_goals grind [KeepsRelies.lock, KeepsRelies.openAt, KeepsRelies.create, Actor.handle?,
    Actor.locked?, Actor.confirmed?]

end Steps

/-! ## All interleavings -/

/-- **Mutual exclusion.**  However any number of acquisitions, guards and sweeps
interleave, from a path with or without a file, at most one guard is live, when
every acquisition that cannot stat its handle has locked the file at the path. -/
theorem storeLock_exclusive {identities : Bool} {existing : Option InodeId} {n : ℕ}
    {s : System LockFs Actor}
    (run : Reaches (fun s a => NoReuse s a ∧ StatsCurrent identities s a)
      (System.step (transition identities)) (System.start (LockFs.start existing) .idle n) s)
    {p q : ℕ} {f g : File} (first : s.procs[p]? = some (.guard f))
    (second : s.procs[q]? = some (.guard g)) : p = q := by
  obtain ⟨-, hrelies⟩ : (∀ f ∈ s.shared.path, f < s.shared.created) ∧
      ∀ (r : ℕ) actor, s.procs[r]? = some actor → Relies identities r s.shared actor := by
    refine run.local_invariant (I := fun fs => ∀ f ∈ fs.path, f < fs.created)
      (J := fun r fs actor => Relies identities r fs actor) ?_ ?_ ?_
    · intro f hf
      cases existing with
      | none => cases hf
      | some id =>
        cases hf
        exact Nat.zero_lt_one
    · intro r actor hactor
      obtain ⟨-, rfl⟩ := System.getElem?_start hactor
      exact relies_of_no_handle _ _ _ rfl
    · rintro s r a actor next hactor named hall ⟨reuse, stats⟩ taken
      obtain ⟨hnamed, hown, hothers⟩ :=
        transition_relies taken (stats actor hactor) named (hall r actor hactor)
      refine ⟨hnamed, hown, fun q' other hne hother => ?_⟩
      refine hothers q' other hne (hall q' other hother) ?_
      rintro id rfl absent
      exact reuse absent other (List.mem_of_getElem? hother)
  have hfirst := hrelies p _ first
  have hsecond := hrelies q _ second
  -- both hold the lock of the one file at the path
  have hsame : f = g :=
    Option.some.inj ((hfirst.confirmed f rfl).symm.trans (hsecond.confirmed g rfl))
  have hheld := hfirst.locked f rfl
  rw [hsame, hsecond.locked g rfl] at hheld
  exact (Option.some.inj hheld).symm

/-- A file is unlinked between the open and the lock of process 0, and process 1
acquires the file it creates in its place, of identity `id`; then process 0 locks
and checks, with or without a stat of its handle. -/
def sweptTrace (id : InodeId) (statted : Bool) : List (ℕ × LockAction) :=
  [(0, .acquire true), (0, .open 8), (2, .sweepList), (2, .sweepOpen), (2, .sweepLock),
    (2, .sweepCheck true true true), (2, .sweepUnlink true), (2, .sweepClose), (1, .acquire true),
    (1, .open id), (1, .lock), (1, .check true true), (1, .finish true), (0, .lock),
    (0, .check statted true), (0, .finish true)]

/-- **Two guards live** when the handle of the first file cannot be stat'ed. -/
theorem two_guards_after_failed_stat :
    ∃ s : System LockFs Actor, Reaches NoReuse (System.step (transition true))
        (System.start (LockFs.start (some 7)) .idle 3) s ∧
      s.procs[0]? = some (.guard 0) ∧ s.procs[1]? = some (.guard 1) := by
  obtain ⟨s, run, htest⟩ := exists_reaches_of_replay NoReuse (System.step (transition true))
    (System.start (LockFs.start (some 7)) .idle 3) (sweptTrace 8 false)
    (fun s => s.procs[0]? = some (.guard 0) ∧ s.procs[1]? = some (.guard 1))
    (by decide +kernel)
  simp only [decide_eq_true_eq] at htest
  exact ⟨s, run, htest⟩

/-- The condition on identities is needed: a file created with the identity of
an unlinked file that is still open makes both pass for current. -/
example :
    (replay (StatsCurrent true) (System.step (transition true))
      (System.start (LockFs.start (some 7)) .idle 3) (sweptTrace 7 true)).map (·.procs)
      = some [.guard 0, .guard 1, .idle] := by
  decide +kernel

/-- A sweep unlinks the file between the open and the lock of an acquisition,
which locks what it opened, finds nothing at the path, and starts over. -/
theorem storeLock_exclusive_swept :
    ∃ s : System LockFs Actor, Reaches (fun s a => NoReuse s a ∧ StatsCurrent true s a)
        (System.step (transition true)) (System.start (LockFs.start (some 7)) .idle 2) s ∧
      s.procs[0]? = some (.guard 1) ∧
      ∀ (q : ℕ) (g : File), s.procs[q]? = some (.guard g) → 0 = q := by
  obtain ⟨s, run, htest⟩ := exists_reaches_of_replay
    (fun s a => NoReuse s a ∧ StatsCurrent true s a) (System.step (transition true))
    (System.start (LockFs.start (some 7)) .idle 2)
    [(0, .acquire true), (0, .open 8), (1, .sweepList), (1, .sweepOpen), (1, .sweepLock),
      (1, .sweepCheck true true true), (1, .sweepUnlink true), (1, .sweepClose), (0, .lock),
      (0, .check true true), (0, .open 7), (0, .lock), (0, .check true true), (0, .finish true)]
    (fun s => s.procs[0]? = some (.guard 1))
    (by decide +kernel)
  simp only [decide_eq_true_eq] at htest
  exact ⟨s, run, htest, fun q g second => storeLock_exclusive run htest second⟩

end StoreLock

end Kache
