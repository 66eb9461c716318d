import Kache.Foundation.Iteration
import Kache.Foundation.Run
import Kache.Format
import Mathlib.Data.Finset.Sort
import Mathlib.Data.String.Basic

/-!
# The negative key cache

After a definitive miss the daemon remembers for a while that a key is absent.
What it must never do is to keep saying so once it has itself begun to write the
key, or has seen it: reads of the remote are slow, and one that started before
the write may report its miss long after it.

Every observation therefore starts by taking a `KnowledgeToken` with a fresh
*epoch*, and a miss is recorded only while the token's epoch is still the one
remembered for the key.  The remembered epochs are bounded too; a key whose epoch
was forgotten has none, and no token matches it.

All calls run under one mutex.  What a call that records no miss can do is said
once, in `Effect`: epochs that appear are new, and no miss does.  From that,
`recorded_miss_is_newer` follows for every run.  The counter of epochs is taken
not to wrap.
-/

namespace Kache.NegativeCache

/-! ## The cache -/

/-- `NegativeEntry`. -/
structure NegativeEntry where
  missedAt : ℕ
  epoch : ℕ

/-- `KeyEpoch`. -/
structure KeyEpoch where
  epoch : ℕ
  touchedAt : ℕ

/-- `NegativeState`. -/
structure NegativeState where
  entries : Table String NegativeEntry
  epochs : Table String KeyEpoch
  nextEpoch : ℕ

/-- `KnowledgeToken`. -/
structure KnowledgeToken where
  key : String
  epoch : ℕ
  deriving DecidableEq

/-- `NegativeKeyCache`. -/
structure NegativeKeyCache where
  ttl : ℕ
  maxEntries : ℕ
  state : NegativeState
  hits : ℕ

namespace NegativeState

/-- `advance_epoch`. -/
def advanceEpoch (state : NegativeState) : NegativeState :=
  { state with nextEpoch := max (state.nextEpoch + 1) 1 }

/-- `remember_epoch`; `saturating_mul` is at the width of `usize`. -/
def rememberEpoch (order : Iteration String) (maxEntries now : ℕ) (key : String) (epoch : ℕ)
    (state : NegativeState) : NegativeState :=
  let maxEpochs := min (maxEntries * 2) (2 ^ 64 - 1)
  if maxEpochs = 0 then state
  else
    { state with
      epochs := state.epochs.insertEvicting order KeyEpoch.touchedAt maxEpochs key ⟨epoch, now⟩ }

/-- A fresh epoch for `key`: the two calls above, as every caller makes them. -/
def renew (order : Iteration String) (maxEntries now : ℕ) (key : String) (state : NegativeState) :
    NegativeState :=
  state.advanceEpoch.rememberEpoch order maxEntries now key state.advanceEpoch.nextEpoch

/-- `entries.remove(key)`. -/
def removeEntry (key : String) (state : NegativeState) : NegativeState :=
  { state with entries := state.entries.erase key }

/-- `epochs.get(&token.key).map(|e| e.epoch) == Some(token.epoch)`. -/
def isCurrent (state : NegativeState) (token : KnowledgeToken) : Bool :=
  (state.epochs.get token.key).map KeyEpoch.epoch == some token.epoch

end NegativeState

namespace NegativeKeyCache

/-- `NegativeKeyCache::with_max_entries`. -/
def withMaxEntries (ttl maxEntries : ℕ) : NegativeKeyCache :=
  ⟨ttl, maxEntries, ⟨.empty, .empty, 0⟩, 0⟩

/-- `NegativeKeyCache::enabled`. -/
def enabled (cache : NegativeKeyCache) : Bool := cache.ttl != 0

/-- `NegativeKeyCache::check`. -/
def check (cache : NegativeKeyCache) (now : ℕ) (key : String) : NegativeKeyCache × Bool :=
  if !cache.enabled then (cache, false)
  else
    match cache.state.entries.get key with
    | some entry =>
      if now - entry.missedAt ≤ cache.ttl then ({ cache with hits := cache.hits + 1 }, true)
      else ({ cache with state := cache.state.removeEntry key }, false)
    | none => (cache, false)

/-- `NegativeKeyCache::begin_observation`. -/
def beginObservation (cache : NegativeKeyCache) (order : Iteration String) (now : ℕ)
    (key : String) : NegativeKeyCache × Option KnowledgeToken :=
  if !isValidCacheKey key then (cache, none)
  else
    ({ cache with state := cache.state.renew order cache.maxEntries now key },
      some ⟨key, cache.state.advanceEpoch.nextEpoch⟩)

/-- `NegativeKeyCache::begin_write`. -/
def beginWrite (cache : NegativeKeyCache) (order : Iteration String) (now : ℕ) (key : String) :
    NegativeKeyCache × Option KnowledgeToken :=
  if !isValidCacheKey key then (cache, none)
  else
    ({ cache with
        state := (cache.state.renew order cache.maxEntries now key).removeEntry key },
      some ⟨key, cache.state.advanceEpoch.nextEpoch⟩)

/-- `NegativeKeyCache::record_miss`. -/
def recordMiss (cache : NegativeKeyCache) (order : Iteration String) (now : ℕ)
    (token : KnowledgeToken) : NegativeKeyCache × Bool :=
  if !cache.state.isCurrent token then (cache, false)
  else if !cache.enabled then (cache, true)
  else
    -- `prune_entries`, then the insertion
    let entries := cache.state.entries.deleteWhere fun _ entry =>
      !decide (now - entry.missedAt ≤ cache.ttl)
    ({ cache with
        state := { cache.state with
          entries := entries.insertEvicting order NegativeEntry.missedAt cache.maxEntries token.key
            ⟨now, token.epoch⟩ } },
      true)

/-- `NegativeKeyCache::record_present`. -/
def recordPresent (cache : NegativeKeyCache) (token : KnowledgeToken) : NegativeKeyCache × Bool :=
  if !cache.state.isCurrent token then (cache, false)
  else ({ cache with state := cache.state.removeEntry token.key }, true)

/-- `NegativeKeyCache::confirm_present`. -/
def confirmPresent (cache : NegativeKeyCache) (order : Iteration String) (now : ℕ)
    (key : String) : NegativeKeyCache × Bool :=
  if !isValidCacheKey key then (cache, false)
  else
    ({ cache with
        state := (cache.state.renew order cache.maxEntries now key).removeEntry key },
      true)

/-- `NegativeKeyCache::listing_epoch`. -/
def listingEpoch (cache : NegativeKeyCache) : ℕ := cache.state.nextEpoch

/-- The misses a listing proves wrong. -/
def provedPresent (cache : NegativeKeyCache) (order : Iteration String) (present : Finset String)
    (listingEpoch : ℕ) : List String :=
  (order.arrange cache.state.entries.keys).filter fun key =>
    key ∈ present ∧ (cache.state.entries.get key).any fun entry => entry.epoch ≤ listingEpoch

/-- `NegativeKeyCache::remove_present_in`. -/
def removePresentIn (cache : NegativeKeyCache) (order : Iteration String) (now : ℕ)
    (present : Finset String) (listingEpoch : ℕ) : NegativeKeyCache :=
  if !cache.enabled then cache
  else
    { cache with
      state := (cache.provedPresent order present listingEpoch).foldl
        (fun state key => (state.removeEntry key).renew order cache.maxEntries now key)
        cache.state }

end NegativeKeyCache

/-! ## What a call can do -/

/-- **A call that records no miss.**  Remembered epochs are old ones or fresh
ones, and every cached miss was there before. -/
structure Effect (before after : NegativeState) : Prop where
  next : before.nextEpoch ≤ after.nextEpoch
  epochs : ∀ key row, after.epochs.get key = some row →
    before.epochs.get key = some row ∨
      (before.nextEpoch < row.epoch ∧ row.epoch ≤ after.nextEpoch)
  entries : ∀ key entry, after.entries.get key = some entry → before.entries.get key = some entry

namespace Effect

theorem refl (state : NegativeState) : Effect state state :=
  ⟨Nat.le_refl _, fun _ _ found => .inl found, fun _ _ found => found⟩

theorem trans {a b c : NegativeState} (first : Effect a b) (second : Effect b c) : Effect a c where
  next := Nat.le_trans first.next second.next
  epochs := by grind [first.epochs, second.epochs, first.next, second.next]
  entries := fun key entry found => first.entries key entry (second.entries key entry found)

end Effect

namespace NegativeState

theorem nextEpoch_renew (order : Iteration String) (maxEntries now : ℕ) (key : String)
    (state : NegativeState) :
    (state.renew order maxEntries now key).nextEpoch = state.nextEpoch + 1 := by
  unfold renew rememberEpoch
  dsimp only
  split <;> simp [advanceEpoch]

@[simp] theorem entries_renew (order : Iteration String) (maxEntries now : ℕ) (key : String)
    (state : NegativeState) : (state.renew order maxEntries now key).entries = state.entries := by
  unfold renew rememberEpoch
  dsimp only
  split <;> rfl

/-- The epochs after one was renewed: at its key the fresh one, if any. -/
theorem epochs_renew {order : Iteration String} {maxEntries now : ℕ} {k : String}
    {state : NegativeState}
    {row : KeyEpoch} (found : (state.renew order maxEntries now key).epochs.get k = some row) :
    (k = key ∧ row.epoch = state.nextEpoch + 1) ∨
      (state.epochs.get k = some row ∧ (k = key → min (maxEntries * 2) (2 ^ 64 - 1) = 0)) := by
  unfold renew rememberEpoch at found
  dsimp only at found
  split at found
  · next zero => exact .inr ⟨found, fun _ => zero⟩
  · rcases Table.get_of_get_insertEvicting found with ⟨same, rfl⟩ | ⟨distinct, found⟩
    · exact .inl ⟨same, by simp [advanceEpoch]⟩
    · exact .inr ⟨found, fun same => absurd same distinct⟩

theorem effect_renew (order : Iteration String) (maxEntries now : ℕ) (key : String)
    (state : NegativeState) : Effect state (state.renew order maxEntries now key) where
  next := by rw [nextEpoch_renew]; omega
  epochs := by
    intro k row found
    rw [nextEpoch_renew]
    rcases epochs_renew found with ⟨-, fresh⟩ | ⟨earlier, -⟩
    · exact .inr (by omega)
    · exact .inl earlier
  entries := by
    intro k entry found
    rwa [entries_renew] at found

theorem effect_removeEntry (key : String) (state : NegativeState) :
    Effect state (state.removeEntry key) where
  next := Nat.le_refl _
  epochs := fun _ _ found => .inl found
  entries := by
    intro k entry found
    simp only [removeEntry, Table.get_erase] at found
    split at found
    · cases found
    · exact found

end NegativeState

/-- **The bounds of the two tables.** -/
structure Bounded (maxEntries : ℕ) (state : NegativeState) : Prop where
  entries : state.entries.keys.card ≤ maxEntries
  epochs : state.epochs.keys.card ≤ min (maxEntries * 2) (2 ^ 64 - 1)

namespace Bounded

variable {maxEntries : ℕ} {state : NegativeState}

theorem removeEntry (bounded : Bounded maxEntries state) (key : String) :
    Bounded maxEntries (state.removeEntry key) :=
  ⟨Nat.le_trans (Table.card_keys_erase_le _ key) bounded.entries, bounded.epochs⟩

theorem renew (bounded : Bounded maxEntries state) (order : Iteration String) (now : ℕ)
    (key : String) : Bounded maxEntries (state.renew order maxEntries now key) where
  entries := by
    rw [NegativeState.entries_renew]
    exact bounded.entries
  epochs := by
    unfold NegativeState.renew NegativeState.rememberEpoch
    dsimp only
    split
    · exact bounded.epochs
    · exact Table.card_keys_insertEvicting_le bounded.epochs (by omega) key _

/-- A key with an epoch shows that there is room for epochs. -/
theorem pos_of_epoch (bounded : Bounded maxEntries state) {row : KeyEpoch}
    (found : state.epochs.get key = some row) : 0 < min (maxEntries * 2) (2 ^ 64 - 1) := by
  have mem : key ∈ state.epochs.keys := by simp [state.epochs.mem_keys, found]
  have := Finset.card_pos.mpr ⟨key, mem⟩
  have := bounded.epochs
  omega

end Bounded

/-- What calls that record no miss make of the state: entries are removed and epochs renewed. -/
inductive Turned (maxEntries : ℕ) (before : NegativeState) : NegativeState → Prop
  | refl : Turned maxEntries before before
  | removeEntry {state} (turned : Turned maxEntries before state) (key : String) :
      Turned maxEntries before (state.removeEntry key)
  | renew {state} (turned : Turned maxEntries before state) (order : Iteration String) (now : ℕ)
      (key : String) : Turned maxEntries before (state.renew order maxEntries now key)

namespace Turned

variable {maxEntries : ℕ} {before after : NegativeState}

theorem effect (turned : Turned maxEntries before after) : Effect before after := by
  induction turned with
  | refl => exact Effect.refl _
  | removeEntry _ key ih => exact ih.trans (NegativeState.effect_removeEntry key _)
  | renew _ order now key ih =>
    exact ih.trans (NegativeState.effect_renew order maxEntries now key _)

theorem bounded (turned : Turned maxEntries before after) (bounded : Bounded maxEntries before) :
    Bounded maxEntries after := by
  induction turned with
  | refl => exact bounded
  | removeEntry _ key ih => exact ih.removeEntry key
  | renew _ order now key ih => exact ih.renew order now key

end Turned

theorem NegativeState.exists_epoch_of_isCurrent {state : NegativeState} {token : KnowledgeToken}
    (current : state.isCurrent token = true) :
    ∃ row, state.epochs.get token.key = some row ∧ row.epoch = token.epoch := by
  simpa [isCurrent, Option.map_eq_some_iff] using current

/-! ## Runs -/

/-- The cache, the clock, and the observations that are under way.  A token may be
cloned and is never invalid, so none is ever taken off the list. -/
structure World where
  cache : NegativeKeyCache
  clock : ℕ
  observations : List KnowledgeToken

namespace World

def start (ttl maxEntries : ℕ) : World := ⟨.withMaxEntries ttl maxEntries, 0, []⟩

/-- The world after a call. -/
def setCache (world : World) (cache : NegativeKeyCache) : World := { world with cache := cache }

/-- The caller keeps the token of its observation, if it was given one. -/
def observe (world : World) : Option KnowledgeToken → World
  | none => world
  | some token => { world with observations := token :: world.observations }

end World

/-- The calls, and time passing. -/
inductive Action where
  | tick (elapsed : ℕ)
  | check (key : String)
  | beginObservation (order : Iteration String) (key : String)
  | beginWrite (order : Iteration String) (key : String)
  | recordMiss (order : Iteration String) (token : KnowledgeToken)
  | recordPresent (token : KnowledgeToken)
  | confirmPresent (order : Iteration String) (key : String)
  | listingEpoch
  | removePresentIn (order : Iteration String) (present : Finset String) (listingEpoch : ℕ)

/-- One call under the mutex.  Outcomes are reported with the token of an
observation; the one `begin_write` returns is dropped with the upload. -/
def step (world : World) : Action → Option World
  | .tick elapsed => some { world with clock := world.clock + elapsed }
  | .check key => some (world.setCache (world.cache.check world.clock key).1)
  | .beginObservation order key =>
    some ((world.setCache (world.cache.beginObservation order world.clock key).1).observe
      (world.cache.beginObservation order world.clock key).2)
  | .beginWrite order key =>
    some (world.setCache (world.cache.beginWrite order world.clock key).1)
  | .recordMiss order token =>
    if token ∈ world.observations then
      some (world.setCache (world.cache.recordMiss order world.clock token).1)
    else none
  | .recordPresent token =>
    if token ∈ world.observations then
      some (world.setCache (world.cache.recordPresent token).1)
    else none
  | .confirmPresent order key =>
    some (world.setCache (world.cache.confirmPresent order world.clock key).1)
  | .listingEpoch => some world
  | .removePresentIn order present listingEpoch =>
    some (world.setCache (world.cache.removePresentIn order world.clock present listingEpoch))

variable {key : String} {world world' : World} {action : Action}

/-- A miss is recorded with a current token. -/
structure RecordsMiss (world : World) (token : KnowledgeToken) (world' : World) : Prop where
  observed : token ∈ world.observations
  current : world.cache.state.isCurrent token = true
  nextEpoch : world'.cache.state.nextEpoch = world.cache.state.nextEpoch
  epochs : world'.cache.state.epochs = world.cache.state.epochs
  entries : ∀ key entry, world'.cache.state.entries.get key = some entry →
    key = token.key ∨ world.cache.state.entries.get key = some entry
  observations : world'.observations = world.observations

/-- An observation begins: its epoch is fresh. -/
structure Begins (world : World) (token : KnowledgeToken) (world' : World) : Prop where
  valid : isValidCacheKey token.key = true
  newer : world.cache.state.nextEpoch < token.epoch
  le : token.epoch ≤ world'.cache.state.nextEpoch
  observations : world'.observations = token :: world.observations

/-- The state after a write of `key` was begun, or its presence confirmed. -/
theorem effect_write (cache : NegativeKeyCache) (order : Iteration String) (now : ℕ)
    (key : String) :
    Effect cache.state
      ((cache.state.renew order cache.maxEntries now key).removeEntry key) :=
  (NegativeState.effect_renew _ _ _ _ _).trans (NegativeState.effect_removeEntry _ _)

/-- **What a step can do.** -/
inductive Stepped (world : World) (action : Action) (world' : World) : Prop
  | turned (same : world'.cache.maxEntries = world.cache.maxEntries)
      (turned : Turned world.cache.maxEntries world.cache.state world'.cache.state)
      (observed : world'.observations = world.observations ∨ ∃ token, Begins world token world')
  | missed {order token} (same : world'.cache.maxEntries = world.cache.maxEntries)
      (records : action = .recordMiss order token) (miss : RecordsMiss world token world')
      (bounded : Bounded world.cache.maxEntries world.cache.state →
        Bounded world.cache.maxEntries world'.cache.state)

theorem stepped_of_step (taken : step world action = some world') :
    Stepped world action world' := by
  have quiet : ∀ cache, (cache.maxEntries = world.cache.maxEntries ∧
      Turned world.cache.maxEntries world.cache.state cache.state) → world' = world.setCache cache →
        Stepped world action world' := by
    rintro cache ⟨same, turned⟩ rfl
    exact .turned same turned (.inl rfl)
  cases action with
  | tick elapsed =>
    cases taken
    exact .turned rfl .refl (.inl rfl)
  | check key =>
    refine quiet _ ?_ (Option.some.inj taken).symm
    grind [NegativeKeyCache.check, Turned]
  | beginObservation order key =>
    cases taken
    unfold NegativeKeyCache.beginObservation
    split
    · exact .turned rfl .refl (.inl rfl)
    · next valid =>
      refine .turned rfl (Turned.refl.renew order world.clock key)
        (.inr ⟨⟨key, world.cache.state.advanceEpoch.nextEpoch⟩, ?_, ?_, ?_, rfl⟩)
      · simpa using valid
      · simp [NegativeState.advanceEpoch]
      · dsimp only [World.observe, World.setCache]
        rw [NegativeState.nextEpoch_renew]
        simp [NegativeState.advanceEpoch]
  | beginWrite order key =>
    refine quiet _ ?_ (Option.some.inj taken).symm
    grind [NegativeKeyCache.beginWrite, Turned]
  | recordMiss order token =>
    simp only [step] at taken
    split at taken
    · next observed =>
      unfold NegativeKeyCache.recordMiss at taken
      split at taken
      · exact quiet _ ⟨rfl, .refl⟩ (Option.some.inj taken).symm
      · next current =>
        split at taken
        · exact quiet _ ⟨rfl, .refl⟩ (Option.some.inj taken).symm
        · cases taken
          have current : world.cache.state.isCurrent token = true := by simpa using current
          refine .missed rfl rfl ⟨observed, current, rfl, rfl, ?_, rfl⟩ fun bounded => ?_
          · intro key entry found
            rcases Table.get_of_get_insertEvicting found with ⟨same, -⟩ | ⟨-, found⟩
            · exact .inl same
            · exact .inr (Option.filter_eq_some_iff.mp found).1
          · obtain ⟨row, found, -⟩ := NegativeState.exists_epoch_of_isCurrent current
            have room := bounded.pos_of_epoch found
            refine ⟨Table.card_keys_insertEvicting_le ?_ (by omega) _ _, bounded.epochs⟩
            exact Nat.le_trans (Table.card_keys_deleteWhere_le _ _) bounded.entries
    · cases taken
  | recordPresent token =>
    simp only [step] at taken
    split at taken
    · refine quiet _ ?_ (Option.some.inj taken).symm
      grind [NegativeKeyCache.recordPresent, Turned]
    · cases taken
  | confirmPresent order key =>
    refine quiet _ ?_ (Option.some.inj taken).symm
    grind [NegativeKeyCache.confirmPresent, Turned]
  | listingEpoch =>
    cases taken
    exact .turned rfl .refl (.inl rfl)
  | removePresentIn order present listingEpoch =>
    refine quiet _ ?_ (Option.some.inj taken).symm
    unfold NegativeKeyCache.removePresentIn
    split
    · exact ⟨rfl, .refl⟩
    · -- every turn of the loop is a removal and a renewal
      refine ⟨rfl, List.foldlRecOn _ _ .refl fun state turned key _ => ?_⟩
      exact (turned.removeEntry key).renew order world.clock key

theorem step_cases (taken : step world action = some world') :
    (Effect world.cache.state world'.cache.state ∧
      (world'.observations = world.observations ∨ ∃ token, Begins world token world')) ∨
    ∃ order token, action = .recordMiss order token ∧ RecordsMiss world token world' := by
  rcases stepped_of_step taken with ⟨-, turned, observed⟩ | ⟨-, records, miss, -⟩
  · exact .inl ⟨turned.effect, observed⟩
  · exact .inr ⟨_, _, records, miss⟩

/-! ### The bounds -/

/-- The tables are within the bounds of a cache of `maxEntries`. -/
def Fits (maxEntries : ℕ) (cache : NegativeKeyCache) : Prop :=
  cache.maxEntries = maxEntries ∧ Bounded maxEntries cache.state

theorem step_fits {maxEntries : ℕ} (fits : Fits maxEntries world.cache)
    (taken : step world action = some world') :
    Fits maxEntries world'.cache := by
  obtain ⟨rfl, bounded⟩ := fits
  rcases stepped_of_step taken with ⟨same, turned, -⟩ | ⟨same, -, -, recorded⟩
  · exact ⟨same, turned.bounded bounded⟩
  · exact ⟨same, recorded bounded⟩

/-! ### Tokens and misses -/

/-- **What holds of every token and every cached miss.** -/
structure Sound (world : World) : Prop where
  valid : ∀ token ∈ world.observations, isValidCacheKey token.key = true
  issued : ∀ token ∈ world.observations, token.epoch ≤ world.cache.state.nextEpoch
  entries : ∀ key entry, world.cache.state.entries.get key = some entry →
    isValidCacheKey key = true

theorem step_sound (sound : Sound world) (taken : step world action = some world') :
    Sound world' := by
  obtain ⟨valid, issued, entries⟩ := sound
  rcases step_cases taken with ⟨⟨next, -, kept⟩, observed⟩ | ⟨order, token, -, miss⟩
  · rcases observed with same | ⟨token, begun⟩
    · constructor <;> grind
    · obtain ⟨validToken, newer, le, observations⟩ := begun
      constructor <;> grind
  · obtain ⟨observed, current, nextEpoch, -, kept, observations⟩ := miss
    constructor <;> grind

/-- Tables within their bounds and sound tokens, in every run. -/
theorem reaches_sound {ttl maxEntries : ℕ}
    (run : Reaches (fun _ _ => True) step (.start ttl maxEntries) world) :
    Fits maxEntries world.cache ∧ Sound world := by
  refine run.invariant (I := fun world => Fits maxEntries world.cache ∧ Sound world) ?_ ?_
  · refine ⟨⟨rfl, ?_, ?_⟩, ?_, ?_, ?_⟩
    · exact Nat.zero_le _
    · exact Nat.zero_le _
    · simp [World.start]
    · simp [World.start]
    · simp [World.start, NegativeKeyCache.withMaxEntries]
  · rintro world action world' ⟨fits, sound⟩ - taken
    exact ⟨step_fits fits taken, step_sound sound taken⟩

/-! ### After a write -/

/-- `action` records a miss of `key` with a token that is not among `begun`. -/
def RecordsNewMiss (key : String) (begun : List KnowledgeToken) : Action → Prop
  | .recordMiss _ token => token.key = key ∧ token ∉ begun
  | _ => False

/-- **No miss of `key` is known** that is newer than the epoch `mark`: none is cached,
and the epoch remembered for the key, if any, is `mark` or a later one. -/
structure Cleared (key : String) (mark : ℕ) (world : World) : Prop where
  miss : world.cache.state.entries.get key = none
  passed : mark ≤ world.cache.state.nextEpoch
  epochs : ∀ row, world.cache.state.epochs.get key = some row → mark ≤ row.epoch

/-- It stays so while only tokens from before `mark` report misses of the key. -/
theorem Cleared.step {mark : ℕ} {begun : List KnowledgeToken} (cleared : Cleared key mark world)
    (old : ∀ token ∈ begun, token.key = key → token.epoch < mark)
    (allowed : ¬ RecordsNewMiss key begun action)
    (taken : Kache.NegativeCache.step world action = some world') : Cleared key mark world' := by
  obtain ⟨miss, passed, epochs⟩ := cleared
  rcases step_cases taken with ⟨⟨next, renewed, entries⟩, -⟩ | ⟨order, token, rfl, recorded⟩
  · refine ⟨?_, by omega, by grind⟩
    exact Option.eq_none_iff_forall_ne_some.mpr (by grind)
  · obtain ⟨-, current, nextEpoch, same, entries, -⟩ := recorded
    obtain ⟨row, remembered, epoch⟩ := NegativeState.exists_epoch_of_isCurrent current
    refine ⟨Option.eq_none_iff_forall_ne_some.mpr fun entry found => ?_, by omega, by rwa [same]⟩
    -- the token is one from before, and so not the one remembered
    grind [RecordsNewMiss]

/-- A write or a confirmation of a valid key clears it. -/
theorem cleared_write {maxEntries : ℕ} (fits : Fits maxEntries world.cache)
    (order : Iteration String) (key : String) :
    Cleared key (world.cache.state.nextEpoch + 1)
      (world.setCache { world.cache with
        state := (world.cache.state.renew order world.cache.maxEntries world.clock key).removeEntry
          key }) := by
  refine ⟨by simp [World.setCache, NegativeState.removeEntry], ?_, ?_⟩
  · dsimp only [World.setCache, NegativeState.removeEntry]
    rw [NegativeState.nextEpoch_renew]
  · intro row found
    rcases NegativeState.epochs_renew found with ⟨-, fresh⟩ | ⟨earlier, noRoom⟩
    · omega
    · -- without room for epochs none is remembered
      obtain ⟨rfl, bounded⟩ := fits
      have room := bounded.pos_of_epoch earlier
      rw [noRoom rfl] at room
      exact absurd room (Nat.lt_irrefl 0)

theorem check_of_no_entry {cache : NegativeKeyCache} (none : cache.state.entries.get key = none)
    (now : ℕ) : (cache.check now key).2 = false := by
  grind [NegativeKeyCache.check]

/-- **The negative cache never hides a known object.**  In every run the tables keep
their bounds; and after a write of `key` was begun, or its presence confirmed, a
check of the key reports no miss until one is recorded with a token begun later. -/
theorem recorded_miss_is_newer (ttl maxEntries : ℕ) {world : World}
    (run : Reaches (fun _ _ => True) step (.start ttl maxEntries) world) :
    (world.cache.state.entries.keys.card ≤ maxEntries ∧
      world.cache.state.epochs.keys.card ≤ 2 * maxEntries) ∧
    ∀ key action after, (∃ order, action = .beginWrite order key ∨
        action = .confirmPresent order key) → step world action = some after →
      ∀ later, Reaches (fun _ action => ¬ RecordsNewMiss key after.observations action) step
          after later →
        (later.cache.check later.clock key).2 = false := by
  obtain ⟨fits, sound⟩ := reaches_sound run
  refine ⟨⟨fits.2.entries, ?_⟩, ?_⟩
  · have := fits.2.epochs
    omega
  · rintro key action after ⟨order, isWrite⟩ taken later laterRun
    by_cases valid : isValidCacheKey key = true
    · have called : after = world.setCache { world.cache with
          state := (world.cache.state.renew order world.cache.maxEntries world.clock
            key).removeEntry key } := by
        rcases isWrite with rfl | rfl
        · simpa [step, NegativeKeyCache.beginWrite, valid, eq_comm] using taken
        · simpa [step, NegativeKeyCache.confirmPresent, valid, eq_comm] using taken
      have cleared := cleared_write fits order key
      rw [← called] at cleared
      have old : ∀ token ∈ after.observations, token.key = key →
          token.epoch < world.cache.state.nextEpoch + 1 := by
        intro token mem _
        rw [called] at mem
        exact Nat.lt_succ_of_le (sound.issued token mem)
      have stillCleared : Cleared key (world.cache.state.nextEpoch + 1) later :=
        laterRun.invariant (I := Cleared key (world.cache.state.nextEpoch + 1)) cleared
          fun _ _ _ cleared allowed taken => cleared.step old allowed taken
      exact check_of_no_entry stillCleared.miss later.clock
    · -- no token and so no miss of an invalid key exists
      have laterSound : Sound later :=
        laterRun.invariant (I := Sound) (step_sound sound taken)
          fun _ _ _ sound _ taken => step_sound sound taken
      refine check_of_no_entry (Option.eq_none_iff_forall_ne_some.mpr fun entry found => ?_) _
      exact valid (laterSound.entries key entry found)

/-- An iteration in the descending order of the keys. -/
def inOrder : Iteration String where
  arrange := fun s => s.sort (· ≥ ·)
  mem_arrange := fun _ _ => Finset.mem_sort _
  nodup_arrange := fun _ => Finset.sort_nodup _ _

/-- A valid key. -/
def sampleKey : String := String.ofList (List.replicate 64 'a')

/-- A cached miss is gone once an upload begins, and the read that found it cannot
bring it back. -/
theorem recorded_miss_is_newer_upload :
    ∃ world later, Reaches (fun _ _ => True) step (.start 10 1) world ∧
      (world.cache.check world.clock sampleKey).2 = true ∧
      Reaches (fun _ _ => True) step world later ∧
      (later.cache.check later.clock sampleKey).2 = false := by
  obtain ⟨world, run, cached⟩ := exists_reaches_of_replay (fun _ _ => True) step (.start 10 1)
    [.beginObservation inOrder sampleKey, .recordMiss inOrder ⟨sampleKey, 1⟩]
    (fun world => (world.cache.check world.clock sampleKey).2 ∧
      world.observations = [⟨sampleKey, 1⟩]) (by decide +kernel)
  obtain ⟨cached, observations⟩ := of_decide_eq_true cached
  -- the upload begins, and then the read reports once more
  have uploading : step world (.beginWrite inOrder sampleKey) =
      some (world.setCache (world.cache.beginWrite inOrder world.clock sampleKey).1) := rfl
  have reported : step (world.setCache (world.cache.beginWrite inOrder world.clock sampleKey).1)
      (.recordMiss inOrder ⟨sampleKey, 1⟩) = some _ :=
    if_pos (by simp [World.setCache, observations])
  refine ⟨world, _, run, cached, .tail (.tail .refl trivial uploading) trivial reported, ?_⟩
  refine (recorded_miss_is_newer 10 1 run).2 sampleKey _ _ ⟨inOrder, .inl rfl⟩ uploading _
    (.tail .refl ?_ reported)
  simp [RecordsNewMiss, World.setCache, observations]

end Kache.NegativeCache
