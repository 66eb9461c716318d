import Kache.Foundation.Interleaving
import Kache.Foundation.Iteration

/-!
# Keyed singleflight

Concurrent demands for one key share one *flight*: the first claims it and leads,
the others follow and are given its result.  The table of flights is bounded, and
a claim that finds it full is turned away.

A flight is finished in three steps, each under its own lock: the leader records
the outcome in the flight, then takes the flight out of the table, then wakes the
waiters.  Between the steps anybody may run; in particular a new flight for the
same key can start after the second.  A follower registers for the wake-up first
and looks at the outcome then, so that it cannot miss the one it waits for.

Flights are numbered in the order of their creation, which is what `Arc::ptr_eq`
compares.  A flight also remembers who leads it and how the leader ended; the code
has no such fields.  A process can only touch a flight it leads, and a table row
of a flight it leads (`Effect`): that one fact carries every assertion about the
other processes.
-/

namespace Kache.Singleflight

variable {T : Type}

/-- `Flight` and its `FlightOutcome`.  `wakes` counts the calls of
`notify_waiters`. -/
structure Flight (T : Type) where
  result : Option T
  finished : Bool
  wakes : ℕ
  /-- The process that leads the flight. -/
  leader : ℕ
  /-- How its leader ended: with a value, or by going away. -/
  ended : Option (Option T)

namespace Flight

/-- The flight a claim of process `p` creates. -/
def new (p : ℕ) : Flight T := ⟨none, false, 0, p, none⟩

/-- `complete`, under the lock of the outcome. -/
def complete (value : T) (flight : Flight T) : Flight T :=
  { flight with result := some value, finished := true, ended := some (some value) }

/-- `Drop for SingleflightLeader`, under the lock of the outcome. -/
def abandon (flight : Flight T) : Flight T :=
  { flight with finished := true, ended := some none }

/-- `notify_waiters`. -/
def wake (flight : Flight T) : Flight T := { flight with wakes := flight.wakes + 1 }

end Flight

/-- The table of `KeyedSingleflight`, every flight there ever was, and the clock. -/
structure Shared (T : Type) where
  table : Table String ℕ
  flights : List (Flight T)
  clock : ℕ

namespace Shared

def start : Shared T := ⟨.empty, [], 0⟩

/-- Flight number `f`. -/
def flight? (σ : Shared T) (f : ℕ) : Option (Flight T) := σ.flights[f]?

/-- Change flight `f`. -/
def modify (σ : Shared T) (f : ℕ) (change : Flight T → Flight T) : Shared T :=
  { σ with flights := σ.flights.modify f change }

/-- `claim` creates a flight for `key`. -/
def launch (σ : Shared T) (p : ℕ) (key : String) : Shared T :=
  { σ with flights := σ.flights ++ [Flight.new p], table := σ.table.set key σ.flights.length }

/-- `release`, under the lock of the table: the row is removed when it is this
flight's. -/
def remove (σ : Shared T) (key : String) (f : ℕ) : Shared T :=
  if σ.table.get key = some f then { σ with table := σ.table.erase key } else σ

theorem flight?_modify (σ : Shared T) (f g : ℕ) (change : Flight T → Flight T) :
    (σ.modify f change).flight? g = if f = g then (σ.flight? g).map change else σ.flight? g := by
  unfold modify flight?
  rw [List.getElem?_modify]
  by_cases same : f = g <;> simp [same]

theorem flight?_launch (σ : Shared T) (p f : ℕ) (key : String) :
    (σ.launch p key).flight? f =
      if f = σ.flights.length then some (.new p) else σ.flight? f := by
  unfold launch flight?
  rcases Nat.lt_trichotomy f σ.flights.length with below | at_end | beyond
  · simp [List.getElem?_append_left below, Nat.ne_of_lt below]
  · simp [at_end]
  · rw [List.getElem?_eq_none (by simp only [List.length_append, List.length_singleton]; omega),
      List.getElem?_eq_none (Nat.le_of_lt beyond)]
    simp [Nat.ne_of_gt beyond]

theorem lt_length_of_flight? {σ : Shared T} {f : ℕ} {flight : Flight T}
    (found : σ.flight? f = some flight) : f < σ.flights.length :=
  (List.getElem?_eq_some_iff.mp found).1

end Shared

/-- Where a process is. -/
inductive Proc (T : Type) where
  | idle
  /-- It has a `SingleflightLeader`. -/
  | leading (key : String) (f : ℕ)
  /-- The outcome is recorded, the flight is still in the table. -/
  | recorded (key : String) (f : ℕ)
  /-- The flight is out of the table, the waiters are not woken yet. -/
  | released (f : ℕ)
  /-- It has a `SingleflightFollower`. -/
  | following (f : ℕ)
  /-- `notified` is enabled; it completes with the first wake after `seen`. -/
  | registered (f seen : ℕ) (deadline : Option ℕ)
  /-- The outcome was not there yet. -/
  | waiting (f seen : ℕ) (deadline : Option ℕ)
  /-- `wait` returned. -/
  | answered (f : ℕ) (answer : Option T) (deadline : Option ℕ)
  deriving DecidableEq

/-- The steps of the calls. -/
inductive Action (T : Type) where
  | tick (elapsed : ℕ)
  | claim (key : String)
  | complete (value : T)
  | dropLeader
  | release
  | notify
  | wait (deadline : Option ℕ)
  | check
  | wake
  | timeout
  | again

/-- What process `p` makes of an action, for a table of `maxEntries`. -/
def transition (maxEntries : ℕ) (p : ℕ) (σ : Shared T) :
    Proc T → Action T → Option (Shared T × Proc T)
  | proc, .tick elapsed => some ({ σ with clock := σ.clock + elapsed }, proc)
  | .idle, .claim key =>
    match σ.table.get key with
    | some f => some (σ, .following f)
    | none =>
      -- `AtCapacity`
      if maxEntries ≤ σ.table.keys.card then some (σ, .idle)
      else some (σ.launch p key, .leading key σ.flights.length)
  | .leading key f, .complete value => some (σ.modify f (.complete value), .recorded key f)
  | .leading key f, .dropLeader => some (σ.modify f .abandon, .recorded key f)
  | .recorded key f, .release => some (σ.remove key f, .released f)
  | .released f, .notify => some (σ.modify f .wake, .idle)
  | .following f, .wait deadline =>
    (σ.flight? f).map fun flight => (σ, .registered f flight.wakes deadline)
  | .registered f seen deadline, .check =>
    (σ.flight? f).map fun flight =>
      (σ, if flight.finished then .answered f flight.result deadline
        else .waiting f seen deadline)
  | .waiting f seen deadline, .wake =>
    (σ.flight? f).bind fun flight =>
      if seen < flight.wakes then some (σ, .answered f flight.result deadline) else none
  | .waiting f _ deadline, .timeout =>
    if ∃ time ∈ deadline, time ≤ σ.clock then some (σ, .answered f none deadline) else none
  | .answered _ _ _, .again => some (σ, .idle)
  | _, _ => none

/-! ## What a step can do -/

/-- **What process `p` can change.**  Flights it does not lead stay as they are, and so
do their rows; a flight that has ended stays ended, and is woken at most more
often. -/
structure Effect (p : ℕ) (σ σ' : Shared T) : Prop where
  others : ∀ f flight, σ.flight? f = some flight → flight.leader ≠ p →
    σ'.flight? f = some flight
  flights : ∀ f flight, σ.flight? f = some flight → ∃ flight', σ'.flight? f = some flight' ∧
    flight'.leader = flight.leader ∧ (flight.ended.isSome → flight'.ended = flight.ended) ∧
      flight.wakes ≤ flight'.wakes
  fresh : ∀ f flight, σ'.flight? f = some flight → flight.leader ≠ p →
    σ.flight? f = some flight
  table : ∀ key f flight, σ.table.get key = some f → σ.flight? f = some flight →
    flight.leader ≠ p → σ'.table.get key = some f
  clock : σ.clock ≤ σ'.clock

variable {maxEntries p f seen : ℕ} {key : String} {σ : Shared T} {own : Flight T}
    {change : Flight T → Flight T}
  {proc : Proc T} {next : Shared T × Proc T} {deadline : Option ℕ}

namespace Effect

theorem refl (p : ℕ) (σ : Shared T) : Effect p σ σ :=
  ⟨fun _ _ found _ => found, fun _ flight found =>
    ⟨flight, found, rfl, fun _ => rfl, Nat.le_refl _⟩,
    fun _ _ found _ => found, fun _ _ _ found _ _ => found, Nat.le_refl _⟩

theorem tick (p : ℕ) (σ : Shared T) (elapsed : ℕ) :
    Effect p σ { σ with clock := σ.clock + elapsed } :=
  { refl p σ with clock := Nat.le_add_right _ _ }

/-- A claim adds a flight and its row. -/
theorem launch (vacant : σ.table.get key = none) : Effect p σ (σ.launch p key) := by
  have below : ∀ {f flight}, σ.flight? f = some flight → f < σ.flights.length :=
    Shared.lt_length_of_flight?
  have rows : ∀ key', (σ.launch p key).table.get key' =
      if key' = key then some σ.flights.length else σ.table.get key' := Table.get_set _ _ _
  have same : (σ.launch p key).clock = σ.clock := rfl
  constructor <;> grind [Shared.flight?_launch, Flight.new]

/-- The leader of a flight changes it, without undoing its end. -/
theorem modify (found : σ.flight? f = some own) (leads : own.leader = p)
    (leader : (change own).leader = own.leader)
    (ended : own.ended.isSome → (change own).ended = own.ended)
    (wakes : own.wakes ≤ (change own).wakes) : Effect p σ (σ.modify f change) := by
  have same : (σ.modify f change).table = σ.table ∧ (σ.modify f change).clock = σ.clock :=
    ⟨rfl, rfl⟩
  constructor <;> grind [Shared.flight?_modify]

/-- The leader of a flight takes its row away. -/
theorem remove (found : σ.flight? f = some own) (leads : own.leader = p) :
    Effect p σ (σ.remove key f) := by
  unfold Shared.remove
  split
  · refine { refl p σ with table := ?_ }
    grind [Table.get_erase]
  · exact refl p σ

end Effect

/-! ## The assertions -/

/-- `proc` leads flight `f`, or has yet to wake its waiters. -/
def Proc.Leads (f : ℕ) : Proc T → Prop
  | .leading _ g | .recorded _ g | .released g => g = f
  | _ => False

/-- `proc` is a live leader for `key`: its flight is not out of the table yet. -/
def Proc.LeadsKey (key : String) : Proc T → Prop
  | .leading k _ | .recorded k _ => k = key
  | _ => False

/-- What process `p` knows where it is. -/
def Place (p : ℕ) (σ : Shared T) : Proc T → Prop
  | .idle => True
  | .leading key f => σ.table.get key = some f ∧ ∃ flight, σ.flight? f = some flight ∧
      flight.leader = p ∧ flight.ended = none ∧ flight.wakes = 0
  | .recorded key f => σ.table.get key = some f ∧ ∃ flight, σ.flight? f = some flight ∧
      flight.leader = p ∧ flight.ended.isSome ∧ flight.wakes = 0
  | .released f => ∃ flight, σ.flight? f = some flight ∧
      flight.leader = p ∧ flight.ended.isSome ∧ flight.wakes = 0
  | .following f => ∃ flight, σ.flight? f = some flight
  | .registered f seen _ => ∃ flight, σ.flight? f = some flight ∧ seen ≤ flight.wakes
  | .waiting f seen _ => seen = 0 ∧ ∃ flight, σ.flight? f = some flight
  | .answered f answer deadline => ∃ flight, σ.flight? f = some flight ∧
      (∀ value, answer = some value → flight.ended = some (some value)) ∧
      (answer = none → flight.ended = some none ∨ ∃ time ∈ deadline, time ≤ σ.clock)

/-- **What holds of each process.**  A flight whose waiters have not been woken is one
its leader is still busy with. -/
structure Assertion (p : ℕ) (σ : Shared T) (proc : Proc T) : Prop where
  place : Place p σ proc
  busy : ∀ f flight, σ.flight? f = some flight → flight.leader = p → flight.wakes = 0 →
    proc.Leads f

/-- **What holds of the flights and the table.** -/
structure Sound (maxEntries : ℕ) (σ : Shared T) : Prop where
  outcome : ∀ f flight, σ.flight? f = some flight →
    flight.finished = flight.ended.isSome ∧ flight.result = flight.ended.join ∧
      (0 < flight.wakes → flight.ended.isSome)
  rows : ∀ key f, σ.table.get key = some f → ∃ flight, σ.flight? f = some flight
  bound : σ.table.keys.card ≤ maxEntries

/-- **A process keeps the assertions of the others.** -/
theorem Assertion.of_effect {q : ℕ} {σ' : Shared T} (assertion : Assertion q σ proc) (other : q ≠ p)
    (effect : Effect p σ σ') :
    Assertion q σ' proc := by
  obtain ⟨place, busy⟩ := assertion
  obtain ⟨others, flights, fresh, table, clock⟩ := effect
  refine ⟨?_, by grind⟩
  cases proc with
  | answered f answer deadline =>
    obtain ⟨flight, found, value, none⟩ := place
    obtain ⟨flight', found', -, ended, -⟩ := flights f flight found
    refine ⟨flight', found', by grind, fun hnone => ?_⟩
    rcases none hnone with dropped | ⟨time, mem, passed⟩
    · exact .inl ((ended (by rw [dropped]; rfl)).trans dropped)
    · exact .inr ⟨time, mem, Nat.le_trans passed clock⟩
  | _ => grind [Place]

/-! ## Every step keeps them -/

/-- A leader that changes its flight keeps the table and the flights sound. -/
theorem Sound.modify (sound : Sound maxEntries σ) (found : σ.flight? f = some own)
    (outcome : (change own).finished = (change own).ended.isSome ∧ (change own).result =
      (change own).ended.join ∧ (0 < (change own).wakes → (change own).ended.isSome)) :
    Sound maxEntries (σ.modify f change) where
  outcome := by grind [Shared.flight?_modify, sound.outcome]
  rows key g row := by
    obtain ⟨flight, hg⟩ := sound.rows key g row
    grind [Shared.flight?_modify]
  bound := sound.bound

/-- A leader that changes its flight stays its leader. -/
theorem busy_modify {proc' : Proc T} (assertion : Assertion p σ proc)
    (leader : ∀ flight, (change flight).leader = flight.leader)
    (wakes : ∀ flight, (change flight).wakes = flight.wakes)
    (same : ∀ g, proc.Leads g → proc'.Leads g) :
    ∀ g flight, (σ.modify f change).flight? g = some flight → flight.leader = p →
      flight.wakes = 0 → proc'.Leads g := by
  have busy := assertion.busy
  grind [Shared.flight?_modify, Option.map_eq_some_iff]

/-- **One step** of process `p` from `(σ, proc)`: its effect on the others, and the
assertions it re-establishes. -/
structure Kept (maxEntries p : ℕ) (σ : Shared T) (next : Shared T × Proc T) : Prop where
  effect : Effect p σ next.1
  sound : Sound maxEntries next.1
  assertion : Assertion p next.1 next.2

namespace Kept

/-- A step of a follower, which changes nothing that is shared. -/
theorem local_step {proc' : Proc T} (sound : Sound maxEntries σ) (assertion : Assertion p σ proc)
    (place : Place p σ proc') (same : ∀ g, proc.Leads g → proc'.Leads g) :
    Kept maxEntries p σ (σ, proc') where
  effect := Effect.refl p σ
  sound := sound
  assertion := ⟨place, fun f flight found leads zero =>
    same f (assertion.busy f flight found leads zero)⟩

theorem claim (sound : Sound maxEntries σ) (assertion : Assertion p σ .idle)
    (taken : transition maxEntries p σ .idle (.claim key) = some next) :
    Kept maxEntries p σ next := by
  simp only [transition] at taken
  split at taken
  · next f row =>
    cases taken
    exact local_step sound assertion (sound.rows key f row) (fun _ leads => leads.elim)
  · next vacant =>
    split at taken
    · cases taken
      exact local_step sound assertion trivial (fun _ leads => leads)
    · next room =>
      cases taken
      obtain ⟨outcome, rows, bound⟩ := sound
      have row : ∀ key', (σ.launch p key).table.get key' =
          if key' = key then some σ.flights.length else σ.table.get key' := Table.get_set _ _ _
      have created : (σ.launch p key).flight? σ.flights.length = some (.new p) := by
        rw [Shared.flight?_launch, if_pos rfl]
      refine ⟨Effect.launch vacant, ⟨?_, ?_, ?_⟩, ⟨?_, ?_⟩⟩
      · grind [Shared.flight?_launch, Flight.new]
      · grind [Shared.flight?_launch]
      · have added := Table.card_keys_set_le σ.table key σ.flights.length
        dsimp only [Shared.launch]
        omega
      · exact ⟨by simp [Shared.launch], _, created, rfl, rfl, rfl⟩
      · intro f flight found leads zero
        rw [Shared.flight?_launch] at found
        split at found
        · next same => exact same.symm
        · exact (assertion.busy f flight found leads zero).elim

/-- The outcome is recorded: `complete` and the drop of a leader. -/
theorem record (sound : Sound maxEntries σ) (assertion : Assertion p σ (.leading key f))
    (leader : ∀ flight, (change flight).leader = flight.leader)
    (wakes : ∀ flight, (change flight).wakes = flight.wakes)
    (ended : ∀ flight, (change flight).ended.isSome)
    (outcome : ∀ flight, flight.ended = none → flight.result = none →
      (change flight).finished = true ∧ (change flight).result = (change flight).ended.join) :
    Kept maxEntries p σ (σ.modify f change, .recorded key f) := by
  obtain ⟨row, flight, found, leads, unended, zero⟩ := assertion.place
  obtain ⟨-, noResult, -⟩ := sound.outcome f flight found
  rw [unended] at noResult
  obtain ⟨finished, result⟩ := outcome flight unended noResult
  refine ⟨Effect.modify found leads (leader flight) ?_ (by rw [wakes]), ?_, ⟨?_, ?_⟩⟩
  · intro isEnded
    rw [unended] at isEnded
    cases isEnded
  · exact sound.modify found ⟨by rw [finished, ended], result, fun _ => ended flight⟩
  · refine ⟨row, change flight, ?_, (leader flight).trans leads, ended flight,
      (wakes flight).trans zero⟩
    rw [Shared.flight?_modify, if_pos rfl, found]
    rfl
  · exact busy_modify assertion leader wakes fun _ leads => leads

theorem release (sound : Sound maxEntries σ) (assertion : Assertion p σ (.recorded key f)) :
    Kept maxEntries p σ (σ.remove key f, .released f) := by
  obtain ⟨row, flight, found, rest⟩ := assertion.place
  have removed : σ.remove key f = { σ with table := σ.table.erase key } := by
    simp [Shared.remove, row]
  refine ⟨Effect.remove found rest.1, ?_, ?_⟩
  · rw [removed]
    refine ⟨sound.outcome, fun key' g row' => ?_,
      Nat.le_trans (Table.card_keys_erase_le _ key) sound.bound⟩
    simp only [Table.get_erase] at row'
    split at row'
    · cases row'
    · exact sound.rows key' g row'
  · rw [removed]
    exact ⟨⟨flight, found, rest⟩, assertion.busy⟩

theorem notify (sound : Sound maxEntries σ) (assertion : Assertion p σ (.released f)) :
    Kept maxEntries p σ (σ.modify f .wake, .idle) := by
  obtain ⟨flight, found, leads, ended, -⟩ := assertion.place
  obtain ⟨finished, result, -⟩ := sound.outcome f flight found
  refine ⟨Effect.modify found leads rfl (fun _ => rfl) (Nat.le_succ _),
    sound.modify found ⟨finished, result, fun _ => ended⟩, ⟨trivial, ?_⟩⟩
  -- it led this flight alone, and this one is woken now
  intro g other hg leadsOther zero
  rw [Shared.flight?_modify] at hg
  split at hg
  · obtain ⟨before, -, rfl⟩ := Option.map_eq_some_iff.mp hg
    exact absurd zero (Nat.succ_ne_zero _)
  · next distinct => exact distinct (assertion.busy g other hg leadsOther zero)

theorem wait (sound : Sound maxEntries σ) (assertion : Assertion p σ (.following f))
    (taken : transition maxEntries p σ (.following f) (.wait deadline) = some next) :
    Kept maxEntries p σ next := by
  obtain ⟨flight, found, rfl⟩ := Option.map_eq_some_iff.mp taken
  exact local_step sound assertion ⟨flight, found, Nat.le_refl _⟩ fun _ leads => leads

/-- What a finished flight answers. -/
theorem place_answered {flight : Flight T} (sound : Sound maxEntries σ)
    (found : σ.flight? f = some flight) (ended : flight.ended.isSome) (deadline : Option ℕ) :
    Place p σ (.answered f flight.result deadline) := by
  obtain ⟨-, result, -⟩ := sound.outcome f flight found
  obtain ⟨how, hhow⟩ := Option.isSome_iff_exists.mp ended
  rw [hhow] at result
  refine ⟨flight, found, fun value hvalue => ?_, fun hnone => .inl ?_⟩
  · rw [hhow, ← hvalue, result]
    rfl
  · rw [hhow, ← hnone, result]
    rfl

theorem check (sound : Sound maxEntries σ) (assertion : Assertion p σ (.registered f seen deadline))
    (taken : transition maxEntries p σ (.registered f seen deadline) .check = some next) :
    Kept maxEntries p σ next := by
  obtain ⟨flight, found, rfl⟩ := Option.map_eq_some_iff.mp taken
  obtain ⟨registered, hregistered, seenLe⟩ := assertion.place
  obtain rfl : registered = flight := Option.some.inj (hregistered.symm.trans found)
  obtain ⟨finished, -, woken⟩ := sound.outcome f registered found
  by_cases isFinished : registered.finished = true
  · simp only [isFinished, if_true]
    exact local_step sound assertion
      (place_answered sound found (finished.symm.trans isFinished) deadline) fun _ leads => leads
  · -- not finished, so nobody was woken yet
    have zero : registered.wakes = 0 := by
      by_contra nonzero
      exact isFinished (finished.trans (woken (Nat.pos_of_ne_zero nonzero)))
    simp only [isFinished]
    exact local_step sound assertion ⟨by omega, registered, found⟩ fun _ leads => leads

theorem wake (sound : Sound maxEntries σ) (assertion : Assertion p σ (.waiting f seen deadline))
    (taken : transition maxEntries p σ (.waiting f seen deadline) .wake = some next) :
    Kept maxEntries p σ next := by
  obtain ⟨flight, found, taken⟩ := Option.bind_eq_some_iff.mp taken
  obtain ⟨woken, ⟨⟩⟩ := Option.ite_none_right_eq_some.mp taken
  have ended := (sound.outcome f flight found).2.2 (Nat.lt_of_le_of_lt (Nat.zero_le _) woken)
  exact local_step sound assertion (place_answered sound found ended deadline)
    fun _ leads => leads

theorem timeout (sound : Sound maxEntries σ) (assertion : Assertion p σ (.waiting f seen deadline))
    (taken : transition maxEntries p σ (.waiting f seen deadline) .timeout = some next) :
    Kept maxEntries p σ next := by
  obtain ⟨late, ⟨⟩⟩ := Option.ite_none_right_eq_some.mp taken
  obtain ⟨-, flight, found⟩ := assertion.place
  exact local_step sound assertion ⟨flight, found, by simp, fun _ => .inr late⟩
    fun _ leads => leads

theorem tick (sound : Sound maxEntries σ) (assertion : Assertion p σ proc) (elapsed : ℕ) :
    Kept maxEntries p σ ({ σ with clock := σ.clock + elapsed }, proc) := by
  refine ⟨Effect.tick p σ elapsed, ⟨sound.outcome, sound.rows, sound.bound⟩, ?_, assertion.busy⟩
  have place := assertion.place
  cases proc with
  | answered f answer deadline =>
    obtain ⟨flight, found, value, none⟩ := place
    refine ⟨flight, found, value, fun hnone => (none hnone).imp_right ?_⟩
    rintro ⟨time, mem, passed⟩
    exact ⟨time, mem, Nat.le_trans passed (Nat.le_add_right _ _)⟩
  | _ => exact place

end Kept

/-- **Every step keeps the assertions.** -/
theorem transition_kept {action : Action T} (sound : Sound maxEntries σ)
    (assertion : Assertion p σ proc) (taken : transition maxEntries p σ proc action = some next) :
    Kept maxEntries p σ next := by
  unfold transition at taken
  split at taken
  case h_2 => exact .claim sound assertion taken
  case h_7 => exact .wait sound assertion taken
  case h_8 => exact .check sound assertion taken
  case h_9 => exact .wake sound assertion taken
  case h_10 => exact .timeout sound assertion taken
  all_goals cases taken
  · exact .tick sound assertion _
  · exact .record sound assertion (fun _ => rfl) (fun _ => rfl) (fun _ => rfl) fun _ _ _ =>
      ⟨rfl, rfl⟩
  · exact .record sound assertion (fun _ => rfl) (fun _ => rfl) (fun _ => rfl)
      fun _ _ noResult => ⟨rfl, noResult⟩
  · exact .release sound assertion
  · exact .notify sound assertion
  · exact .local_step sound assertion trivial fun _ leads => leads

/-! ## Runs -/

section Runs

variable {n : ℕ} {s : System (Shared T) (Proc T)}

/-- The interleavings of `n` processes over a table of `maxEntries`. -/
abbrev Run (maxEntries n : ℕ) (s : System (Shared T) (Proc T)) : Prop :=
  Reaches (fun _ _ => True) (System.step (transition maxEntries)) (System.start .start .idle n) s

/-- **The invariant of every run.** -/
theorem Run.sound (run : Run maxEntries n s) :
    (Sound maxEntries s.shared ∧
      ∀ f flight, s.shared.flight? f = some flight → flight.leader < n) ∧
    ∀ p proc, s.procs[p]? = some proc → p < n ∧ Assertion p s.shared proc := by
  refine run.local_invariant (I := fun σ => Sound maxEntries σ ∧
      ∀ f flight, σ.flight? f = some flight → flight.leader < n)
    (J := fun p σ proc => p < n ∧ Assertion p σ proc) ?_ ?_ ?_
  · refine ⟨⟨?_, ?_, Nat.zero_le _⟩, ?_⟩
    · simp [System.start, Shared.start, Shared.flight?]
    · simp [System.start, Shared.start]
    · simp [System.start, Shared.start, Shared.flight?]
  · intro p proc found
    obtain ⟨inside, rfl⟩ := System.getElem?_start found
    exact ⟨inside, trivial, by simp [System.start, Shared.start, Shared.flight?]⟩
  · rintro s p action proc next found ⟨sound, leaders⟩ assertions - taken
    obtain ⟨inside, assertion⟩ := assertions p proc found
    have kept := transition_kept sound assertion taken
    refine ⟨⟨kept.sound, fun f flight hf => ?_⟩, ⟨inside, kept.assertion⟩,
      fun q other distinct hq => ⟨(assertions q other hq).1,
        (assertions q other hq).2.of_effect distinct kept.effect⟩⟩
    by_cases ours : flight.leader = p
    · omega
    · exact leaders f flight (kept.effect.fresh f flight hf ours)

/-- A live leader's row is in the table, and names a flight it leads. -/
theorem Assertion.row (assertion : Assertion p σ proc) (leads : proc.LeadsKey key) :
    ∃ f flight, σ.table.get key = some f ∧ σ.flight? f = some flight ∧ flight.leader = p := by
  have place := assertion.place
  cases proc <;> grind [Place, Proc.LeadsKey]

/-- **One live leader per key.** -/
theorem Run.leader_unique (run : Run maxEntries n s) {q : ℕ} {other : Proc T}
    (hp : s.procs[p]? = some proc)
    (hq : s.procs[q]? = some other) (leads : proc.LeadsKey key) (otherLeads : other.LeadsKey key) :
    p = q := by
  obtain ⟨f, flight, row, found, rfl⟩ := (run.sound.2 p proc hp).2.row leads
  obtain ⟨g, flight', row', found', rfl⟩ := (run.sound.2 q other hq).2.row otherLeads
  obtain rfl : f = g := Option.some.inj (row.symm.trans row')
  rw [Option.some.inj (found.symm.trans found')]

/-- **No wake-up is missed**: once nobody is busy with its flight any more, a waiting
follower has been woken. -/
theorem Run.wake_enabled (run : Run maxEntries n s)
    (waits : s.procs[p]? = some (.waiting f seen deadline))
    (nobody : ∀ (q : ℕ) (proc : Proc T), s.procs[q]? = some proc → ¬ proc.Leads f) :
    ∃ next, transition maxEntries p s.shared (.waiting f seen deadline) .wake = some next := by
  obtain ⟨⟨-, leaders⟩, assertions⟩ := run.sound
  obtain ⟨zero, flight, found⟩ := (assertions p _ waits).2.place
  have exists_ : flight.leader < s.procs.length := by
    rw [run.length_procs]
    simpa [System.start] using leaders f flight found
  obtain ⟨leader, hleader⟩ : ∃ leader, s.procs[flight.leader]? = some leader :=
    ⟨_, List.getElem?_eq_getElem exists_⟩
  have woken : flight.wakes ≠ 0 := fun none =>
    nobody flight.leader leader hleader
      ((assertions flight.leader leader hleader).2.busy f flight found rfl none)
  refine ⟨(s.shared, .answered f flight.result deadline), ?_⟩
  simp only [transition, found, Option.bind_some]
  rw [if_pos (by omega)]

/-- **A leader touches its own flight only.**  Whatever a process that leads flight `f`
does, every other flight keeps its outcome, and its row. -/
theorem transition_of_leads {g : ℕ} {action : Action T} (leads : proc.Leads f) (other : g ≠ f)
    (taken : transition maxEntries p σ proc action = some next) :
    next.1.flight? g = σ.flight? g ∧
      ∀ key, σ.table.get key = some g → next.1.table.get key = some g := by
  have modified : ∀ change, (σ.modify f change).flight? g = σ.flight? g := fun change => by
    rw [Shared.flight?_modify, if_neg (Ne.symm other)]
  have kept : ∀ change, (σ.modify f change).table = σ.table := fun _ => rfl
  have removed : ∀ key, (σ.remove key f).flight? g = σ.flight? g ∧
      ∀ key', σ.table.get key' = some g → (σ.remove key f).table.get key' = some g := by
    intro key
    unfold Shared.remove Shared.flight?
    grind [Table.get_erase]
  unfold transition at taken
  split at taken <;> grind [Proc.Leads, Shared.flight?]

end Runs

/-- **Singleflight.**  In every interleaving of any number of processes: a key has at
most one live leader and the table keeps its bound; a follower's value is the one
the leader of its flight completed with, and it has none only when that leader went
away or its own deadline passed; a follower that found its flight unfinished is
woken by the time nobody is busy with the flight; and a leader, however late, leaves
every other flight and its row alone. -/
theorem singleflight (maxEntries n : ℕ) {s : System (Shared T) (Proc T)}
    (run : Run maxEntries n s) :
    (∀ (p q : ℕ) (key : String) (proc other : Proc T), s.procs[p]? = some proc →
      s.procs[q]? = some other → proc.LeadsKey key → other.LeadsKey key → p = q) ∧
    s.shared.table.keys.card ≤ maxEntries ∧
    (∀ (p f : ℕ) answer deadline, s.procs[p]? = some (Proc.answered f answer deadline) →
      ∃ flight, s.shared.flight? f = some flight ∧
        (∀ value, answer = some value → flight.ended = some (some value)) ∧
        (answer = none → flight.ended = some none ∨ ∃ time ∈ deadline, time ≤ s.shared.clock)) ∧
    (∀ (p f : ℕ) seen deadline, s.procs[p]? = some (Proc.waiting f seen deadline) →
      (∀ (q : ℕ) (proc : Proc T), s.procs[q]? = some proc → ¬ proc.Leads f) →
        ∃ next, transition maxEntries p s.shared (.waiting f seen deadline) .wake = some next) ∧
    ∀ (p : ℕ) (proc : Proc T) action next f g, s.procs[p]? = some proc → proc.Leads f → g ≠ f →
      transition maxEntries p s.shared proc action = some next →
        next.1.flight? g = s.shared.flight? g ∧
          ∀ key, s.shared.table.get key = some g → next.1.table.get key = some g := by
  obtain ⟨⟨sound, -⟩, assertions⟩ := run.sound
  refine ⟨?_, sound.bound, ?_, ?_, ?_⟩
  · intro p q key proc other hp hq leads otherLeads
    exact run.leader_unique hp hq leads otherLeads
  · intro p f answer deadline found
    exact (assertions p _ found).2.place
  · intro p f seen deadline waits nobody
    exact run.wake_enabled waits nobody
  · intro p proc action next f g _ leads other taken
    exact transition_of_leads leads other taken

/-- A follower waits for the first flight of a key; it is woken, and given the
value of that flight, when a second flight of the key is under way. -/
theorem singleflight_overtaken :
    ∃ s : System (Shared ℕ) (Proc ℕ), Run 4 3 s ∧
      s.procs[1]? = some (.answered 0 (some 7) none) ∧
      s.procs[2]? = some (.leading "k" 1) ∧
      ∃ flight, s.shared.flight? 0 = some flight ∧ flight.ended = some (some 7) := by
  obtain ⟨s, run, test⟩ := exists_reaches_of_replay (fun _ _ => True)
    (System.step (transition (T := ℕ) 4)) (System.start .start .idle 3)
    [(0, .claim "k"), (1, .claim "k"), (1, .wait none), (1, .check), (0, .complete 7),
      (0, .release), (2, .claim "k"), (0, .notify), (1, .wake)]
    (fun s => s.procs[1]? = some (.answered 0 (some 7) none) ∧
      s.procs[2]? = some (.leading "k" 1)) (by decide +kernel)
  obtain ⟨answered, leads⟩ := of_decide_eq_true test
  obtain ⟨flight, found, value, -⟩ := (singleflight 4 3 run).2.2.1 1 0 (some 7) none answered
  exact ⟨s, run, answered, leads, flight, found, value 7 rfl⟩

end Kache.Singleflight
