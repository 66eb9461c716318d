import Kache.Remote.NegativeCache

/-!
# Listings and the negative key cache

A full listing of the remote takes a while.  What it shows to be present is taken out of the
negative cache when it is there, but a miss that was recorded after the listing began is newer and
should stay.  The cache tells the two apart by the epoch of the miss, and that is the epoch at which
the *observation* began: an observation that was under way when the listing began looks old,
whenever it reports. `listing_spares_newer_misses_iff` says that these are the only misses that are
lost.

Here callers may keep every token, also the ones that `begin_write` returns.
-/

namespace Kache.NegativeCache

/-- One call under the mutex, by callers that keep every token. -/
def call (world : World) : Action → Option World
  | .beginWrite order key =>
    some ((world.setCache (world.cache.beginWrite order world.clock key).1).observe
      (world.cache.beginWrite order world.clock key).2)
  | action => step world action

/-- The miss that is remembered for a key. -/
def World.miss (world : World) (key : String) : Option NegativeEntry :=
  world.cache.state.entries.get key

/-! ## What a call can do -/

variable {cache : NegativeKeyCache} {world world' : World} {action : Action}

/-- The misses after one was recorded. -/
theorem get_entries_recordMiss {order : Iteration String} {now : ℕ} {token : KnowledgeToken}
    {key : String}
    {entry : NegativeEntry}
    (found : (cache.recordMiss order now token).1.state.entries.get key = some entry) :
    (cache.ttl ≠ 0 ∧ key = token.key ∧ entry = ⟨now, token.epoch⟩) ∨
      cache.state.entries.get key = some entry := by
  unfold NegativeKeyCache.recordMiss at found
  split at found
  · exact .inr found
  · split at found
    · exact .inr found
    · next enabled =>
      rcases Table.get_of_get_insertEvicting found with ⟨same, new⟩ | ⟨-, old⟩
      · refine .inl ⟨?_, same, new⟩
        simpa [NegativeKeyCache.enabled] using enabled
      · exact .inr (Option.filter_eq_some_iff.mp old).1

/-- A miss that was accepted is remembered. -/
theorem miss_recordMiss (order : Iteration String) (now : ℕ) {token : KnowledgeToken}
    (accepted : (cache.recordMiss order now token).2 = true) (enabled : cache.ttl ≠ 0) :
    (cache.recordMiss order now token).1.state.entries.get token.key = some ⟨now, token.epoch⟩ := by
  unfold NegativeKeyCache.recordMiss at accepted ⊢
  split at accepted
  · cases accepted
  · next current =>
    rw [if_neg current, if_neg (by simpa [NegativeKeyCache.enabled] using enabled)]
    show (Table.insertEvicting _ _ _ _ _ _).get token.key = _
    rw [Table.insertEvicting, Table.get_set, if_pos rfl]

/-- Misses that a run of removals leaves. -/
theorem get_entries_foldl (order : Iteration String) (maxEntries now : ℕ) (keys : List String)
    (state : NegativeState) (key : String) :
    (keys.foldl (fun state key => (state.removeEntry key).renew order maxEntries now key)
      state).entries.get key = if key ∈ keys then none else state.entries.get key := by
  induction keys generalizing state with
  | nil => rfl
  | cons first keys ih =>
    rw [List.foldl_cons, ih, NegativeState.entries_renew, NegativeState.removeEntry,
      Table.get_erase]
    grind

/-- **What a listing removes**: the misses of listed keys that are no newer than it. -/
theorem miss_removePresentIn (order : Iteration String) (now : ℕ) (present : Finset String)
    (epoch : ℕ) {key : String} {entry : NegativeEntry} (enabled : cache.ttl ≠ 0)
    (found : cache.state.entries.get key = some entry) :
    (cache.removePresentIn order now present epoch).state.entries.get key =
      if key ∈ present ∧ entry.epoch ≤ epoch then none else some entry := by
  have listed : key ∈ cache.provedPresent order present epoch ↔ key ∈ present ∧
      entry.epoch ≤ epoch := by
    have mem : key ∈ cache.state.entries.keys := by simp [cache.state.entries.mem_keys, found]
    simp [NegativeKeyCache.provedPresent, order.mem_arrange, mem, found]
  unfold NegativeKeyCache.removePresentIn
  rw [if_neg (by simpa [NegativeKeyCache.enabled] using enabled)]
  show (List.foldl _ cache.state (cache.provedPresent order present epoch)).entries.get key = _
  rw [get_entries_foldl]
  simp only [listed, found]

/-- The configuration is never changed. -/
theorem call_ttl (taken : call world action = some world') :
    world'.cache.ttl = world.cache.ttl := by
  have observes : ∀ (world : World) token, (world.observe token).cache = world.cache :=
    fun _ token => by
    cases token <;> rfl
  cases action <;>
    grind [call, step, World.setCache, NegativeKeyCache.check, NegativeKeyCache.beginObservation,
      NegativeKeyCache.beginWrite, NegativeKeyCache.recordMiss, NegativeKeyCache.recordPresent,
      NegativeKeyCache.confirmPresent, NegativeKeyCache.removePresentIn]

/-- **What a call does to tokens and misses**: tokens that appear are new, and so are misses unless
they were recorded with a token from before. -/
structure Change (world world' : World) : Prop where
  next : world.cache.state.nextEpoch ≤ world'.cache.state.nextEpoch
  tokens : ∀ token ∈ world'.observations, token ∈ world.observations ∨
    (world.cache.state.nextEpoch < token.epoch ∧ token.epoch ≤ world'.cache.state.nextEpoch)
  misses : ∀ key entry, world'.miss key = some entry → world.miss key = some entry ∨
    (world.cache.ttl ≠ 0 ∧ ∃ token ∈ world.observations, entry.epoch = token.epoch)

/-- A call that is a step without a miss. -/
theorem Change.of_effect (effect : Effect world.cache.state world'.cache.state)
    (observed : world'.observations = world.observations ∨ ∃ token, Begins world token world') :
    Change world world' := by
  refine ⟨effect.next, fun token mem => ?_, fun key entry found =>
    .inl (effect.entries key entry found)⟩
  rcases observed with same | ⟨begun, begins⟩
  · exact .inl (same ▸ mem)
  · rw [begins.observations] at mem
    rcases List.mem_cons.mp mem with rfl | old
    · exact .inr ⟨begins.newer, begins.le⟩
    · exact .inl old

theorem call_change (taken : call world action = some world') :
    Change world world' := by
  unfold call at taken
  split at taken
  · next order key =>
    cases taken
    unfold NegativeKeyCache.beginWrite
    split
    · exact .of_effect (Effect.refl _) (.inl rfl)
    · next valid =>
      refine .of_effect (effect_write world.cache order world.clock key)
        (.inr ⟨⟨key, world.cache.state.advanceEpoch.nextEpoch⟩, by simpa using valid, ?_, ?_, rfl⟩)
      · simp [NegativeState.advanceEpoch]
      · show _ ≤ (world.cache.state.renew order world.cache.maxEntries world.clock key).nextEpoch
        rw [NegativeState.nextEpoch_renew]
        simp [NegativeState.advanceEpoch]
  · rcases step_cases taken with ⟨effect, observed⟩ | ⟨order, token, rfl, miss⟩
    · exact .of_effect effect observed
    · refine ⟨Nat.le_of_eq miss.nextEpoch.symm, fun token mem => .inl (miss.observations ▸ mem), ?_⟩
      intro key entry found
      rw [step, if_pos miss.observed] at taken
      cases taken
      rcases get_entries_recordMiss found with ⟨enabled, -, rfl⟩ | old
      · exact .inr ⟨enabled, token, miss.observed, rfl⟩
      · exact .inl old

/-! ## Whole runs -/

/-- Any sequence of calls. -/
abbrev Calls (world world' : World) : Prop := Reaches (fun _ _ => True) call world world'

/-- **What holds in every run**: epochs were given out, and a cache that is switched off remembers
nothing. -/
structure Issued (ttl : ℕ) (world : World) : Prop where
  config : world.cache.ttl = ttl
  tokens : ∀ token ∈ world.observations, token.epoch ≤ world.cache.state.nextEpoch
  misses : ∀ key entry, world.miss key = some entry → ttl ≠ 0 ∧
    entry.epoch ≤ world.cache.state.nextEpoch

theorem Issued.call {ttl : ℕ} (issued : Issued ttl world)
    (taken : call world action = some world') : Issued ttl world' := by
  have change := call_change taken
  refine ⟨(call_ttl taken).trans issued.config, fun token mem => ?_, fun key entry found => ?_⟩
  · rcases change.tokens token mem with old | ⟨-, le⟩
    · exact (issued.tokens token old).trans change.next
    · exact le
  · rcases change.misses key entry found with old | ⟨enabled, token, mem, epoch⟩
    · obtain ⟨enabled, le⟩ := issued.misses key entry old
      exact ⟨enabled, le.trans change.next⟩
    · refine ⟨issued.config ▸ enabled, ?_⟩
      rw [epoch]
      exact (issued.tokens token mem).trans change.next

theorem Issued.calls {ttl : ℕ} (issued : Issued ttl world) (run : Calls world world') :
    Issued ttl world' :=
  run.invariant (I := Issued ttl) issued fun _ _ _ issued _ taken => issued.call taken

theorem issued_start (ttl maxEntries : ℕ) : Issued ttl (.start ttl maxEntries) := by
  refine ⟨rfl, fun token mem => ?_, fun key entry found => ?_⟩
  · cases mem
  · cases found

/-- Tokens that appear in a run are newer than its beginning. -/
theorem newer_tokens (run : Calls world world') :
    world.cache.state.nextEpoch ≤ world'.cache.state.nextEpoch ∧
      ∀ token ∈ world'.observations, token ∈ world.observations ∨
        world.cache.state.nextEpoch < token.epoch := by
  refine run.invariant (I := fun later =>
    world.cache.state.nextEpoch ≤ later.cache.state.nextEpoch ∧
    ∀ token ∈ later.observations, token ∈ world.observations ∨
      world.cache.state.nextEpoch < token.epoch)
    ⟨le_rfl, fun _ mem => .inl mem⟩ fun later action next before _ taken => ?_
  have change := call_change taken
  refine ⟨before.1.trans change.next, fun token mem => ?_⟩
  rcases change.tokens token mem with old | ⟨newer, -⟩
  · exact before.2 token old
  · exact .inr (Nat.lt_of_le_of_lt before.1 newer)

/-- Listings taken at `listing` leave a miss that was recorded at `recorded` where it is. -/
def LeftInPlace (listing recorded : World) (key : String) : Prop :=
  ∀ later, Calls recorded later → later.miss key = recorded.miss key →
    ∀ order present after,
      call later (.removePresentIn order present listing.cache.listingEpoch) = some after →
      after.miss key = later.miss key

/-- Listings taken at `listing` remove the misses from before of the keys they list. -/
def RemovesOlder (listing : World) : Prop :=
  ∀ later, Calls listing later → ∀ key entry, listing.miss key = some entry →
    later.miss key = some entry → ∀ order present after, key ∈ present →
      call later (.removePresentIn order present listing.cache.listingEpoch) = some after →
      after.miss key = none

/-- **Listings do not erase newer misses**, exactly if these come from observations that began after
the listing; and they erase the older ones. -/
theorem listing_spares_newer_misses_iff (ttl maxEntries : ℕ) {listing before recorded : World}
    {order : Iteration String} {token : KnowledgeToken}
    (run : Calls (.start ttl maxEntries) listing)
    (since : Calls listing before)
    (reported : call before (.recordMiss order token) = some recorded)
    (accepted : (before.cache.recordMiss order before.clock token).2 = true) :
    (LeftInPlace listing recorded token.key ↔ ttl = 0 ∨ token ∉ listing.observations) ∧
      RemovesOlder listing := by
  have issued := (issued_start ttl maxEntries).calls run
  have guarded : (if token ∈ before.observations then
      some (before.setCache (before.cache.recordMiss order before.clock token).1) else none) =
        some recorded :=
    reported
  have observed : token ∈ before.observations := by
    by_contra unknown
    rw [if_neg unknown] at guarded
    cases guarded
  have recorded_eq :
      recorded = before.setCache (before.cache.recordMiss order before.clock token).1 := by
    rw [if_pos observed] at guarded
    exact (Option.some.inj guarded).symm
  have issuedRecorded := (issued.calls since).call reported
  refine ⟨⟨fun left => ?_, fun spared => ?_⟩, ?_⟩
  · -- a listing of just this key, at once
    by_contra lost
    obtain ⟨enabled, old⟩ := not_or.mp lost
    have old : token ∈ listing.observations := not_not.mp old
    have remembered : recorded.miss token.key = some ⟨before.clock, token.epoch⟩ := by
      rw [recorded_eq]
      exact miss_recordMiss order before.clock accepted ((issued.calls since).config ▸ enabled)
    have gone := left recorded .refl rfl order {token.key} _ rfl
    rw [remembered] at gone
    have removed := miss_removePresentIn order recorded.clock {token.key} listing.cache.listingEpoch
      (issuedRecorded.config ▸ enabled) remembered
    rw [if_pos ⟨Finset.mem_singleton_self _, issued.tokens token old⟩] at removed
    exact absurd (gone.symm.trans removed) (by simp)
  · intro later calls same order' present after taken
    have config : later.cache.ttl = ttl := (issuedRecorded.calls calls).config
    cases taken
    show (later.cache.removePresentIn order' later.clock present
      listing.cache.listingEpoch).state.entries.get token.key = later.miss token.key
    by_cases disabled : ttl = 0
    · have off : (!later.cache.enabled) = true := by
        simp [NegativeKeyCache.enabled, config, disabled]
      rw [NegativeKeyCache.removePresentIn, if_pos off]
      rfl
    · -- the epoch of the miss is that of its observation, and newer than the listing
      have newer :=
        ((newer_tokens since).2 token observed).resolve_left (spared.resolve_left disabled)
      have found : later.miss token.key = some ⟨before.clock, token.epoch⟩ := by
        rw [same, recorded_eq]
        exact miss_recordMiss order before.clock accepted ((issued.calls since).config ▸ disabled)
      rw [miss_removePresentIn order' later.clock present listing.cache.listingEpoch
        (config ▸ disabled) found, if_neg fun stale => Nat.not_le_of_lt newer stale.2, found]
  · intro later calls key entry old found order' present after listed taken
    obtain ⟨enabled, le⟩ := issued.misses key entry old
    cases taken
    show (later.cache.removePresentIn order' later.clock present
      listing.cache.listingEpoch).state.entries.get key = none
    rw [miss_removePresentIn order' later.clock present listing.cache.listingEpoch
      ((issued.calls calls).config ▸ enabled) found, if_pos ⟨listed, le⟩]

/-- A miss reported by an observation that was under way when a listing began. -/
theorem listing_spares_newer_misses_iff_overlap :
    ∃ listing recorded, Calls (.start 60 8) listing ∧
      call listing (.recordMiss inOrder ⟨sampleKey, 1⟩) = some recorded ∧
      (LeftInPlace listing recorded sampleKey ↔
          60 = 0 ∨ (⟨sampleKey, 1⟩ : KnowledgeToken) ∉ listing.observations) ∧
      RemovesOlder listing := by
  obtain ⟨listing, run, begun⟩ := exists_reaches_of_replay (fun _ _ => True) call (.start 60 8)
    [.beginObservation inOrder sampleKey] (fun world => world.observations = [⟨sampleKey, 1⟩] ∧
      (world.cache.recordMiss inOrder world.clock ⟨sampleKey, 1⟩).2 = true) (by decide +kernel)
  obtain ⟨observations, accepted⟩ := of_decide_eq_true begun
  have reported : call listing (.recordMiss inOrder ⟨sampleKey, 1⟩) = some _ :=
    if_pos (by simp [observations])
  exact ⟨listing, _, run, reported,
    listing_spares_newer_misses_iff 60 8 run .refl reported accepted⟩

/-- **A listing erases a miss that was recorded after it began.**  An observation of a key begins,
the listing takes its epoch, the miss is reported and accepted, and the listing removes it. -/
theorem listing_erases_newer_miss :
    ∃ listing recorded after, Calls (.start 60 8) listing ∧ listing.miss sampleKey = none ∧
      (listing.cache.recordMiss inOrder listing.clock ⟨sampleKey, 1⟩).2 = true ∧
      call listing (.recordMiss inOrder ⟨sampleKey, 1⟩) = some recorded ∧
      (recorded.cache.check recorded.clock sampleKey).2 = true ∧
      call recorded (.removePresentIn inOrder {sampleKey} listing.cache.listingEpoch) = some after ∧
      (after.cache.check after.clock sampleKey).2 = false ∧
        ¬ LeftInPlace listing recorded sampleKey := by
  obtain ⟨listing, run, played⟩ := exists_reaches_of_replay (fun _ _ => True) call (.start 60 8)
    [.beginObservation inOrder sampleKey]
    (fun world => (world.miss sampleKey).isNone ∧
      (world.cache.recordMiss inOrder world.clock ⟨sampleKey, 1⟩).2 = true ∧
      ((call world (.recordMiss inOrder ⟨sampleKey, 1⟩)).bind fun recorded =>
        (call recorded (.removePresentIn inOrder {sampleKey} world.cache.listingEpoch)).map
          fun after =>
          ((recorded.cache.check recorded.clock sampleKey).2, (recorded.miss sampleKey).isSome,
            (after.cache.check after.clock sampleKey).2, (after.miss sampleKey).isSome)) =
        some (true, true, false, false)) (by decide +kernel)
  obtain ⟨unknown, accepted, played⟩ := of_decide_eq_true played
  obtain ⟨recorded, reported, played⟩ := Option.bind_eq_some_iff.mp played
  obtain ⟨after, removed, played⟩ := Option.map_eq_some_iff.mp played
  simp only [Prod.mk.injEq] at played
  obtain ⟨hit, remembered, missed, gone⟩ := played
  refine ⟨listing, recorded, after, run, Option.isNone_iff_eq_none.mp unknown, accepted,
    reported, hit, removed, missed, fun left => ?_⟩
  rw [left recorded .refl rfl inOrder {sampleKey} after removed, remembered] at gone
  cases gone

end Kache.NegativeCache
