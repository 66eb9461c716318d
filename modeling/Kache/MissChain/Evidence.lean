import Kache.MissChain.Walk

/-!
# Miss chains rest on evidence

Every root that `analyze` reports is reached by a path of compiles (`Reached`): the first one is the
missed compile, each next one is an earlier compile, in the same build tree, of the dependency that
the hop names, and that dependency's digest differs between the compile and a baseline of the same
unit.  All baselines are from one build tree.  A root of a resolved kind was compared as well, and
its dependencies are the same (`analyze_supported`).

What following one dependency can do is said once (`Follows`), and the invariant of the walk
(`Walk.Sound`) is kept by each of its cases, so by each turn of the loop.
-/

namespace Kache.MissChain

/-! ## What the searches find -/

variable {i before top : ℕ} {events : List BuildEvent} {dep : ChangedDep}

theorem rposition_eq_some {α : Type} {p : α → Bool} {l : List α} (found : rposition p l = some i) :
    ∃ a, l[i]? = some a ∧ p a := by
  induction l generalizing i <;> grind [rposition]

/-- The last event of a window with a property. -/
theorem rposition_take {p : BuildEvent → Bool} (found : rposition p (events.take before) = some i) :
    ∃ e, events[i]? = some e ∧ i < before ∧ p e := by
  obtain ⟨e, here, holds⟩ := rposition_eq_some found
  grind

theorem orElse_eq_some {α : Type} {first : Option α} {second : Unit → Option α} {a : α}
    (found : first.orElse second = some a) : first = some a ∨ second () = some a := by
  cases first with
  | none => exact .inr found
  | some b => exact .inl found

/-- The event is a compile of the dependency. -/
def Compiles (event : BuildEvent) (dep : ChangedDep) : Prop :=
  (event.result = .miss ∨ event.result = .dup) ∧
  ((∃ unit, dep.unit = some unit ∧ unitOf event = some unit) ∨
    ((dep.unit = none ∨ unitOf event = none) ∧ event.crateName = dep.name))

/-- Two events are of one unit, or of one crate name if one of them has no unit id. -/
def SameUnit (a b : BuildEvent) : Prop :=
  (∃ unit, unitOf a = some unit ∧ unitOf b = some unit) ∨
    ((unitOf a = none ∨ unitOf b = none) ∧ a.crateName = b.crateName)

theorem unitOf_eq_none {event : BuildEvent} : unitOf event = none ↔ event.unitId = "" := by
  unfold unitOf
  split <;> simp_all

/-- A dependency is produced by an earlier compile of it in the same build tree. -/
theorem producerIndex_eq_some {root : String}
    (found : producerIndex events dep root before = some i) :
    ∃ e, events[i]? = some e ∧ i < before ∧ Compiles e dep ∧ e.root = root := by
  unfold producerIndex at found
  rcases orElse_eq_some found with exact_ | named
  · obtain ⟨want, unit, last⟩ := Option.bind_eq_some_iff.mp exact_
    obtain ⟨e, here, earlier, holds⟩ := rposition_take last
    simp only [decide_eq_true_eq, sameRoot, compiled] at holds
    exact ⟨e, here, earlier, ⟨holds.2.2, .inl ⟨want, unit, holds.1⟩⟩, holds.2.1.2⟩
  · obtain ⟨e, here, earlier, holds⟩ := rposition_take named
    simp only [decide_eq_true_eq, sameRoot, compiled] at holds
    refine ⟨e, here, earlier, ⟨holds.2.2, ?_⟩, holds.2.1.2⟩
    have produces := holds.1
    unfold isProducer at produces
    split at produces
    · rename_i want have_ wanted had
      obtain rfl := of_decide_eq_true produces
      exact .inl ⟨want, wanted, had⟩
    · rename_i none
      exact .inr ⟨.inr none, of_decide_eq_true produces⟩
    · rename_i none
      exact .inr ⟨.inl none, of_decide_eq_true produces⟩

/-- A baseline is an earlier recorded state of the same unit in the given build tree. -/
theorem lastBaselineIndex_eq_some {e : BuildEvent} {root : String}
    (found : lastBaselineIndex events e root before = some i) :
    ∃ b, events[i]? = some b ∧ SameUnit e b ∧ b.keyExternsRecorded ∧ b.root = root := by
  have keyed : ∀ b, (sameRoot b root && isKeyed b) = true → b.keyExternsRecorded ∧
      b.root = root := by
    intro b both
    simp only [Bool.and_eq_true, sameRoot, isKeyed, decide_eq_true_eq] at both
    exact ⟨both.2.1, both.1.2⟩
  unfold lastBaselineIndex at found
  split at found
  · rename_i unit own
    rcases orElse_eq_some found with exact_ | legacy
    · obtain ⟨b, here, -, holds⟩ := rposition_take exact_
      simp only [decide_eq_true_eq] at holds
      obtain ⟨recorded, tree⟩ := keyed b holds.2
      exact ⟨b, here, .inl ⟨unit, own, holds.1⟩, recorded, tree⟩
    · obtain ⟨b, here, -, holds⟩ := rposition_take legacy
      simp only [decide_eq_true_eq] at holds
      obtain ⟨recorded, tree⟩ := keyed b holds.2.2
      exact ⟨b, here, .inr ⟨.inr (unitOf_eq_none.mpr holds.1), holds.2.1.symm⟩, recorded, tree⟩
  · rename_i own
    obtain ⟨b, here, -, holds⟩ := rposition_take found
    simp only [decide_eq_true_eq] at holds
    obtain ⟨recorded, tree⟩ := keyed b holds.2
    exact ⟨b, here, .inr ⟨.inl own, holds.1.symm⟩, recorded, tree⟩

theorem topBaseline_eq_some {index : ℕ} {cross : Bool}
    (found : topBaseline events index = some (top, cross)) :
    ∃ e b, events[index]? = some e ∧ events[top]? = some b ∧ SameUnit e b ∧
      b.keyExternsRecorded := by
  obtain ⟨e, here, found⟩ := Option.bind_eq_some_iff.mp found
  split at found
  · cases found
  · split at found
    · rename_i sameTree last
      cases found
      obtain ⟨b, there, unit, recorded, -⟩ := lastBaselineIndex_eq_some last
      exact ⟨e, b, here, there, unit, recorded⟩
    · obtain ⟨unit, own, found⟩ := Option.bind_eq_some_iff.mp found
      obtain ⟨other, last, found⟩ := Option.bind_eq_some_iff.mp found
      cases found
      obtain ⟨b, there, -, holds⟩ := rposition_take last
      simp only [decide_eq_true_eq, isKeyed] at holds
      exact ⟨e, b, here, there, .inl ⟨unit, own, holds.2.2.1⟩, holds.2.2.2.1⟩

/-! ## Differences -/

/-- The digest of the dependency differs between a baseline and a compile. -/
def Moved (dep : ChangedDep) (baseline compiled : BuildEvent) : Prop :=
  dep.from_ = baseline.keyExterns.get dep.name ∧ dep.to_ = compiled.keyExterns.get dep.name ∧
    dep.from_ ≠ dep.to_

theorem mem_diffExterns {before after units : SortedMap String String}
    (mem : dep ∈ diffExterns before after units) :
    dep.from_ = before.get dep.name ∧ dep.to_ = after.get dep.name ∧ dep.from_ ≠ dep.to_ := by
  rcases List.mem_append.mp ((sortByKey_perm _ _).mem_iff.mp mem) with moved | gone
  · obtain ⟨⟨name, digest⟩, entry, made⟩ := List.mem_filterMap.mp moved
    split at made
    · cases made
    · rename_i differs
      cases made
      exact ⟨rfl, (SortedMap.mem_entries_iff.mp entry).symm, differs⟩
  · obtain ⟨⟨name, digest⟩, entry, made⟩ := List.mem_filterMap.mp gone
    split at made
    · cases made
    · rename_i absent
      cases made
      have none : after.get name = none := by
        rw [SortedMap.containsKey, Option.not_isSome_iff_eq_none] at absent
        exact absent
      exact ⟨(SortedMap.mem_entries_iff.mp entry).symm, none.symm, Option.some_ne_none _⟩

/-- No difference means the same digests. -/
theorem diffExterns_eq_nil {before after units : SortedMap String String}
    (same : diffExterns before after units = [])
    (name : String) : after.get name = before.get name := by
  have empty : ∀ dep, dep ∉ diffExterns before after units := by
    intro dep mem
    rw [same] at mem
    exact List.not_mem_nil mem
  unfold diffExterns at empty
  simp only [(sortByKey_perm _ _).mem_iff, List.mem_append, List.mem_filterMap, not_or, not_exists,
    not_and] at empty
  cases hafter : after.get name with
  | some digest =>
    by_contra differs
    refine (empty ⟨name, before.get name, some digest, units.get name⟩).1 (name, digest)
      (SortedMap.mem_entries_iff.mpr hafter) ?_
    exact if_neg fun same => differs same.symm
  | none =>
    cases hbefore : before.get name with
    | none => rfl
    | some digest =>
      refine absurd ?_ ((empty ⟨name, some digest, none, units.get name⟩).2 (name, digest)
        (SortedMap.mem_entries_iff.mpr hbefore))
      refine if_neg ?_
      rw [SortedMap.containsKey, hafter]
      exact Bool.false_ne_true

theorem changedDepsAt_eq_some {index baseline : ℕ} {changed : List ChangedDep}
    (found : changedDepsAt events index (some baseline) = some changed) :
    ∃ e b, events[index]? = some e ∧ events[baseline]? = some b ∧ e.keyExternsRecorded ∧
      changed = diffExterns b.keyExterns e.keyExterns e.externUnits := by
  obtain ⟨e, here, found⟩ := Option.bind_eq_some_iff.mp found
  split at found
  · rename_i recorded
    obtain ⟨_, ⟨⟩, found⟩ := Option.bind_eq_some_iff.mp found
    obtain ⟨b, there, found⟩ := Option.bind_eq_some_iff.mp found
    cases found
    exact ⟨e, b, here, there, recorded, rfl⟩
  · cases found

/-! ## Paths -/

/-- The compile at `index` was compared with a recorded baseline of its unit in the given build
tree. -/
structure Compared (events : List BuildEvent) (tree : String) (index baseline : ℕ)
    (e b : BuildEvent) : Prop where
  event : events[index]? = some e
  base : events[baseline]? = some b
  recorded : e.keyExternsRecorded ∧ b.keyExternsRecorded
  unit : SameUnit e b
  tree : b.root = tree

theorem Compared.moved {tree : String} {index baseline : ℕ} {e b : BuildEvent}
    (compared : Compared events tree index baseline e b) {changed : List ChangedDep}
    (found : changedDepsAt events index (some baseline) = some changed) (mem : dep ∈ changed) :
    Moved dep b e := by
  obtain ⟨e', b', event, base, -, diff⟩ := changedDepsAt_eq_some found
  obtain rfl := Option.some.inj (event.symm.trans compared.event)
  obtain rfl := Option.some.inj (base.symm.trans compared.base)
  rw [diff] at mem
  exact mem_diffExterns mem

/-- The compile at `index`, with its baseline, is reached from the missed one by a path of hops. -/
inductive Reached (events : List BuildEvent) (tree : String) (missIndex : ℕ) : ℕ → ℕ →
    List Hop → Prop where
  | start {baseline : ℕ} {e b : BuildEvent} :
      Compared events tree missIndex baseline e b →
      Reached events tree missIndex missIndex baseline []
  | hop {index baseline index' baseline' : ℕ} {path : List Hop} {e b e' b' : BuildEvent}
      {dep : ChangedDep} :
      Reached events tree missIndex index baseline path → Compared events tree index baseline e b →
      Moved dep b e →
      index' < index → Compiles e' dep → e'.root = e.root →
      Compared events tree index' baseline' e' b' →
      Reached events tree missIndex index' baseline' (path ++ [hopOf e dep])

/-- The unit of a hop, or its crate name if it has no unit id. -/
def Hop.key (hop : Hop) : String := nodeKey hop.crateName hop.unit

/-- The unit of a root. -/
def Root.key (root : Root) : String := nodeKey root.crateName root.unit

/-- What stands behind a root: the last hop of its path leaves a compile that was reached, by a
dependency that moved, and no unit is twice on the path.  The root is the dependency, if no compile
of it is recorded, and may then be the unit it is a dependency of.  Otherwise it is an earlier
compile of the dependency, of a unit that is not on the path; and if its kind is resolved, it was
compared in the same way and its own dependencies did not move. -/
def Supported (events : List BuildEvent) (tree : String) (missIndex : ℕ) (root : Root) : Prop :=
  ∃ index baseline path e b dep,
    Reached events tree missIndex index baseline path ∧ Compared events tree index baseline e b ∧
    Moved dep b e ∧ root.path = path ++ [hopOf e dep] ∧ (root.path.map Hop.key).Nodup ∧
    (root.kind = .noMissRecorded ∧ root.crateName = dep.name ∧ root.unit = dep.unit ∧
        root.key ∉ path.map Hop.key ∨
      ∃ index' e', index' < index ∧ events[index']? = some e' ∧ Compiles e' dep ∧ e'.root = e.root ∧
        root.crateName = e'.crateName ∧ root.unit = unitOf e' ∧
        (root.path.map Hop.key ++ [root.key]).Nodup ∧
        (root.kind.isResolved → ∃ baseline' b', Compared events tree index' baseline' e' b' ∧
          ∀ name, e'.keyExterns.get name = b'.keyExterns.get name))

/-! ## What one dependency does to the walk -/

/-- A compile whose dependencies moved, with the hops that lead to it from the missed one. -/
inductive Pending (q : Question) (missIndex top : ℕ) : Node → Prop
  | start : Pending q missIndex top ⟨missIndex, top, []⟩
  | hop {node : Node} {e : BuildEvent} {dep : ChangedDep} {changed next : List ChangedDep}
      {index baseline : ℕ} : Pending q missIndex top node → q.events[node.index]? = some e →
      changedDepsAt q.events node.index (some node.baseline) = some changed → dep ∈ changed →
      producerIndex q.events dep e.root node.index = some index →
      diffed q node index = some (baseline, next) → next ≠ [] →
      Pending q missIndex top ⟨index, baseline, node.path ++ [hopOf e dep]⟩

/-- A compile that is followed has a dependency that moved. -/
structure Asks (q : Question) (missIndex top : ℕ) (node : Node) (e : BuildEvent)
    (dep : ChangedDep) : Prop where
  pending : Pending q missIndex top node
  event : q.events[node.index]? = some e
  changed : ∃ changed, changedDepsAt q.events node.index (some node.baseline) = some changed ∧
    dep ∈ changed

/-- The compile that is found for a dependency. -/
def produced (q : Question) (node : Node) (e : BuildEvent) (dep : ChangedDep) : Option BuildEvent :=
  (producerIndex q.events dep e.root node.index).bind (q.events[·]?)

/-- The compile at `index` is found for a dependency, and its unit was not met before. -/
structure Meets (q : Question) (node : Node) (e : BuildEvent) (dep : ChangedDep)
    (seen : List String) (index : ℕ) (e' : BuildEvent) : Prop where
  found : producerIndex q.events dep e.root node.index = some index
  there : q.events[index]? = some e'
  fresh : e'.key ∉ seen

theorem Meets.produced {q : Question} {node : Node} {e e' : BuildEvent}
    {seen : List String} {index : ℕ}
    (meets : Meets q node e dep seen index e') : produced q node e dep = some e' := by
  rw [MissChain.produced, meets.found]
  exact meets.there

/-- **What following one dependency can do.** -/
inductive Follows (q : Question) (node : Node) (e : BuildEvent) (dep : ChangedDep)
    (w : Walk) : Walk → Prop
  | looped (reached : List String) :
      Follows q node e dep w { w with truncated := some cycle, reached }
  | absent (reached : List String) (none : producerIndex q.events dep e.root node.index = none)
      (apart : nodeKey dep.name dep.unit ∉ node.path.map Hop.key) :
      Follows q node e dep w { w with
        reached, roots := w.roots ++
          [unresolved dep.name dep.unit .noMissRecorded (node.path ++ [hopOf e dep])] }
  | known (reached : List String) (seen : ∀ e' ∈ produced q node e dep, e'.key ∈ w.seen) :
      Follows q node e dep w { w with reached }
  | pushed (reached : List String) {index baseline : ℕ} {e' : BuildEvent} {next : List ChangedDep}
      (meets : Meets q node e dep w.seen index e')
      (diff : diffed q node index = some (baseline, next))
      (moved : next ≠ []) :
      Follows q node e dep w { w with
        reached, seen := e'.key :: w.seen,
        queue := ⟨index, baseline, node.path ++ [hopOf e dep]⟩ :: w.queue }
  | ended (reached : List String) {index : ℕ} {e' : BuildEvent} {root : Root}
      {truncated : Option String}
      (meets : Meets q node e dep w.seen index e') (path : root.path = node.path ++ [hopOf e dep])
      (name : root.crateName = e'.crateName) (unit : root.unit = unitOf e')
      (kind : root.kind ≠ .noMissRecorded)
      (resolved : root.kind.isResolved → ∃ baseline, diffed q node index = some (baseline, []))
      (limit : root.kind = .limitReached → truncated ≠ none)
      (whole : truncated = none → w.truncated = none) :
      Follows q node e dep w { w with
        reached, seen := e'.key :: w.seen, roots := w.roots ++ [root], truncated }

section

variable {q : Question} {missIndex : ℕ} {w w' : Walk} {node : Node} {e b : BuildEvent}

theorem classifyAt_kind (events : List BuildEvent) (index : ℕ) (compiled : BuildEvent)
    (baseline : Option BuildEvent) (cross : Bool) (path : List Hop) :
    (classifyAt events index compiled baseline cross path).kind ≠ .noMissRecorded ∧
      (classifyAt events index compiled baseline cross path).kind ≠ .limitReached := by
  cases baseline <;> grind [classifyAt]

theorem loopsBack_eq_false {path : List Hop} {miss : BuildEvent} {key : String}
    (apart : ¬ loopsBack path miss key = true) : key ∉ path.map Hop.key := by
  intro mem
  obtain ⟨hop, inside, rfl⟩ := List.mem_map.mp mem
  refine apart (Bool.or_eq_true_iff.mpr (.inl (List.any_eq_true.mpr ⟨hop, inside, ?_⟩)))
  exact decide_eq_true rfl

/-- `Walk.follow` does one of these. -/
theorem follows_follow (q : Question) (node : Node) (e : BuildEvent) (dep : ChangedDep) (w : Walk) :
    Follows q node e dep w (Walk.follow q node e dep w) := by
  unfold Walk.follow
  split
  · exact .looped _
  next apart =>
  split
  next none => exact .absent _ none (loopsBack_eq_false apart)
  next index found =>
  split
  next none =>
    refine .known _ fun e' mem => ?_
    rw [produced, found, Option.bind_some, none] at mem
    cases mem
  next producer there =>
  have only : produced q node e dep = some producer := by
    rw [produced, found]
    exact there
  unfold Walk.meet
  split
  · exact .looped _
  split
  next seen =>
    refine .known _ fun e' mem => ?_
    rw [only] at mem
    cases mem
    exact seen
  next fresh =>
  have meets : Meets q node e dep w.seen index producer := ⟨found, there, fresh⟩
  unfold Walk.descend
  split
  next baseline next diff =>
    split
    next moved =>
      split
      · exact .ended _ meets rfl rfl rfl RootKind.noConfusion (fun resolved => nomatch resolved)
          (fun _ => Option.some_ne_none _) (fun none => nomatch none)
      · exact .pushed _ meets diff moved
    next same =>
      obtain ⟨kind, short⟩ := classifyAt_kind q.events index producer q.events[baseline]?
        q.crossCheckout (node.path ++ [hopOf e dep])
      exact .ended _ meets rfl rfl rfl kind (fun _ => ⟨baseline, not_not.mp same ▸ diff⟩)
        (fun limited => absurd limited short) id
  next =>
    exact .ended _ meets rfl rfl rfl RootKind.noConfusion (fun resolved => nomatch resolved)
      (fun limited => RootKind.noConfusion limited) id

/-! ## The walk keeps its evidence -/

/-- A node that the walk may follow: no unit is twice on the path to it. -/
structure Node.Sound (q : Question) (missIndex top : ℕ) (seen : List String) (node : Node)
    (e : BuildEvent) : Prop where
  pending : Pending q missIndex top node
  event : q.events[node.index]? = some e
  nodup : (node.path.map Hop.key ++ [e.key]).Nodup
  known : ∀ key ∈ node.path.map Hop.key ++ [e.key], key ∈ seen

/-- What the walk knows of a root: the dependency of the last hop, and the compile found for it. -/
structure Endpoint (q : Question) (missIndex top : ℕ) (root : Root) (node : Node) (e : BuildEvent)
    (dep : ChangedDep) : Prop where
  asks : Asks q missIndex top node e dep
  path : root.path = node.path ++ [hopOf e dep]
  nodup : (node.path.map Hop.key ++ [e.key]).Nodup
  unit : root.kind = .noMissRecorded ∧ producerIndex q.events dep e.root node.index = none ∧
      root.crateName = dep.name ∧ root.unit = dep.unit ∧ root.key ∉ node.path.map Hop.key ∨
    ∃ index e', producerIndex q.events dep e.root node.index = some index ∧
    q.events[index]? = some e' ∧
      root.kind ≠ .noMissRecorded ∧ root.crateName = e'.crateName ∧ root.unit = unitOf e' ∧
      root.key ∉ node.path.map Hop.key ++ [e.key] ∧
      (root.kind.isResolved → ∃ baseline, diffed q node index = some (baseline, []))

/-- The invariant of the walk. -/
structure Walk.Sound (q : Question) (missIndex top : ℕ) (w : Walk) : Prop where
  queue : ∀ node ∈ w.queue, ∃ e, node.Sound q missIndex top w.seen e
  roots : ∀ root ∈ w.roots, ∃ node e dep, Endpoint q missIndex top root node e dep
  limit : ∀ root ∈ w.roots, root.kind = .limitReached → w.truncated ≠ none
  nodes : w.nodes ≤ maxNodes

theorem Node.Sound.mono {seen seen' : List String} (sound : node.Sound q missIndex top seen e)
    (more : seen ⊆ seen') : node.Sound q missIndex top seen' e :=
  ⟨sound.pending, sound.event, sound.nodup, fun key mem => more (sound.known key mem)⟩

/-- A step that adds a root, of which the walk knows where it ends. -/
theorem Walk.Sound.root (sound : w.Sound q missIndex top) {root : Root} {seen reached : List String}
    {truncated : Option String} (more : w.seen ⊆ seen)
    (ends : ∃ node e dep, Endpoint q missIndex top root node e dep)
    (limit : root.kind = .limitReached → truncated ≠ none)
    (whole : truncated = none → w.truncated = none) :
    Walk.Sound q missIndex top { w with seen, reached, roots := w.roots ++ [root], truncated } := by
  refine ⟨fun node mem => ?_, fun other mem => ?_, fun other mem limited none => ?_, sound.nodes⟩
  · obtain ⟨e, here⟩ := sound.queue node mem
    exact ⟨e, here.mono more⟩
  · rcases List.mem_append.mp mem with before | here
    · exact sound.roots other before
    · exact List.mem_singleton.mp here ▸ ends
  · rcases List.mem_append.mp mem with before | here
    · exact sound.limit other before limited (whole none)
    · exact limit (List.mem_singleton.mp here ▸ limited) none

/-- **Following one dependency that moved.** -/
theorem Walk.Sound.follow (sound : w.Sound q missIndex top)
    (here : node.Sound q missIndex top w.seen e)
    (asks : Asks q missIndex top node e dep) (follows : Follows q node e dep w w') :
    Walk.Sound q missIndex top w' := by
  cases follows with
  | looped => exact ⟨sound.queue, sound.roots, fun _ _ _ => Option.some_ne_none _, sound.nodes⟩
  | known => exact ⟨sound.queue, sound.roots, sound.limit, sound.nodes⟩
  | absent _ none apart =>
    exact sound.root (List.Subset.refl _) ⟨node, e, dep, asks, rfl, here.nodup,
      .inl ⟨rfl, none, rfl, rfl, apart⟩⟩ (fun limited => RootKind.noConfusion limited) id
  | ended _ meets path name unit kind resolved limit whole =>
    refine sound.root (List.subset_cons_self _ _)
      ⟨node, e, dep, asks, path, here.nodup, .inr ?_⟩ limit whole
    refine ⟨_, _, meets.found, meets.there, kind, name, unit, fun mem => meets.fresh ?_, resolved⟩
    have key := here.known _ mem
    rwa [Root.key, name, unit] at key
  | @pushed _ _ _ e' _ meets diff moved =>
    obtain ⟨changed, found, mem⟩ := asks.changed
    refine ⟨List.forall_mem_cons.mpr ⟨⟨e', ?_⟩, fun other inside => ?_⟩, sound.roots,
      sound.limit, sound.nodes⟩
    · have keys : (node.path ++ [hopOf e dep]).map Hop.key = node.path.map Hop.key ++ [e.key] :=
        List.map_append
      refine ⟨.hop here.pending here.event found mem meets.found diff moved, meets.there, ?_, ?_⟩
      · show ((node.path ++ [hopOf e dep]).map Hop.key ++ [e'.key]).Nodup
        rw [keys]
        refine here.nodup.append (List.nodup_singleton _) fun key mem same => ?_
        rw [List.mem_singleton.mp same] at mem
        exact meets.fresh (here.known _ mem)
      · intro key mem
        rw [keys] at mem
        rcases List.mem_append.mp mem with before | last
        · exact List.mem_cons_of_mem _ (here.known key before)
        · rw [List.mem_singleton.mp last]
          exact List.mem_cons_self
    · obtain ⟨other', known⟩ := sound.queue other inside
      exact ⟨other', known.mono (List.subset_cons_self _ _)⟩

theorem Follows.seen (follows : Follows q node e dep w w') : w.seen ⊆ w'.seen := by
  cases follows with
  | looped | absent | known => exact List.Subset.refl _
  | pushed | ended => exact List.subset_cons_self _ _

theorem Follows.nodes (follows : Follows q node e dep w w') : w'.nodes = w.nodes := by
  cases follows <;> rfl

theorem Follows.queue_length (follows : Follows q node e dep w w') :
    w'.queue.length ≤ w.queue.length + 1 := by
  cases follows with
  | looped | absent | known | ended => exact Nat.le_succ _
  | pushed => exact Nat.le_refl _

/-- The dependencies of one node, in their order. -/
theorem sound_examine {changed : List ChangedDep}
    (asks : ∀ dep ∈ changed, Asks q missIndex top node e dep)
    (sound : w.Sound q missIndex top) (here : node.Sound q missIndex top w.seen e) :
    Walk.Sound q missIndex top (Walk.examine q node e changed w) := by
  induction changed generalizing w with
  | nil => exact sound
  | cons dep rest ih =>
    obtain ⟨first, others⟩ := List.forall_mem_cons.mp asks
    unfold Walk.examine
    split
    · exact ⟨sound.queue, sound.roots, fun _ _ _ => Option.some_ne_none _, sound.nodes⟩
    next below =>
      have entered : Walk.Sound q missIndex top { w with nodes := w.nodes + 1 } :=
        ⟨sound.queue, sound.roots, sound.limit, Nat.lt_of_not_le below⟩
      have follows := follows_follow q node e dep { w with nodes := w.nodes + 1 }
      exact ih others (entered.follow here first follows) (here.mono follows.seen)

/-- The node that is taken from the queue, and what is left. -/
theorem Walk.Sound.pop (sound : w.Sound q missIndex top) {queue : List Node}
    (pending : w.queue = node :: queue) :
    (∃ e, node.Sound q missIndex top w.seen e) ∧ Walk.Sound q missIndex top { w with queue } := by
  have all := sound.queue
  rw [pending] at all
  obtain ⟨first, others⟩ := List.forall_mem_cons.mp all
  exact ⟨first, others, sound.roots, sound.limit, sound.nodes⟩

/-- The whole walk. -/
theorem sound_run (fuel : ℕ) (sound : w.Sound q missIndex top) :
    Walk.Sound q missIndex top (Walk.run q fuel w) := by
  induction fuel generalizing w with
  | zero => exact sound
  | succ fuel ih =>
    unfold Walk.run
    split
    · exact sound
    next node queue pending =>
      obtain ⟨⟨e, here⟩, popped⟩ := sound.pop pending
      split
      next changed consumer found there =>
        obtain rfl := Option.some.inj (there.symm.trans here.event)
        have examined := sound_examine
          (fun dep mem => ⟨here.pending, there, changed, found, mem⟩) popped here
        split
        · exact examined
        · exact ih examined
      next => exact ih popped

/-- A dependency that could be compared. -/
theorem compared_of_diffed {depIndex depBaseline : ℕ} {producer : BuildEvent}
    {next : List ChangedDep} {consumer : ℕ} (there : q.events[depIndex]? = some producer)
    (baseline : dependencyBaseline q.events depIndex q.baselineRoot q.crossCheckout consumer =
      some depBaseline)
    (changed : changedDepsAt q.events depIndex (some depBaseline) = some next) :
    ∃ b', Compared q.events q.baselineRoot depIndex depBaseline producer b' ∧
      next = diffExterns b'.keyExterns producer.keyExterns producer.externUnits := by
  obtain ⟨e', b', here, base, recorded, diff⟩ := changedDepsAt_eq_some changed
  obtain rfl := Option.some.inj (here.symm.trans there)
  obtain ⟨e'', again, last⟩ := Option.bind_eq_some_iff.mp baseline
  obtain rfl := Option.some.inj (again.symm.trans there)
  obtain ⟨b'', other, unit, keyed, tree⟩ := lastBaselineIndex_eq_some last
  obtain rfl := Option.some.inj (other.symm.trans base)
  exact ⟨b'', ⟨there, base, ⟨recorded, keyed⟩, unit, tree⟩, diff⟩

end

/-- The walk starts at the missed compile. -/
theorem question_eq_some {missIndex : ℕ} {q : Question} {direct : List ChangedDep}
    (asked : question events missIndex = some (q, top, direct)) :
    q.events = events ∧ ∃ b, Compared events q.baselineRoot missIndex top q.miss b := by
  obtain ⟨miss, here, asked⟩ := Option.bind_eq_some_iff.mp asked
  split at asked
  · cases asked
  obtain ⟨⟨top, cross⟩, found, asked⟩ := Option.bind_eq_some_iff.mp asked
  obtain ⟨baseline, base, asked⟩ := Option.bind_eq_some_iff.mp asked
  obtain ⟨direct, changed, asked⟩ := Option.bind_eq_some_iff.mp asked
  split at asked
  · cases asked
  cases asked
  obtain ⟨e, b, event, base', unit, keyed⟩ := topBaseline_eq_some found
  obtain rfl := Option.some.inj (event.symm.trans here)
  obtain rfl := Option.some.inj (base'.symm.trans base)
  obtain ⟨e', -, event', -, recorded, -⟩ := changedDepsAt_eq_some changed
  obtain rfl := Option.some.inj (event'.symm.trans here)
  exact ⟨rfl, b, here, base, ⟨recorded, keyed⟩, unit, rfl⟩

/-- What the walk follows was reached by evidence. -/
theorem Pending.reached {q : Question} {missIndex : ℕ} {miss base : BuildEvent}
    (compared : Compared q.events q.baselineRoot missIndex top miss base) {node : Node}
    (pending : Pending q missIndex top node) :
    (∃ e b, Compared q.events q.baselineRoot node.index node.baseline e b) ∧
      Reached q.events q.baselineRoot missIndex node.index node.baseline node.path := by
  induction pending with
  | start => exact ⟨⟨miss, base, compared⟩, .start compared⟩
  | @hop node e dep changed next index baseline _ event diff mem found compared moved ih =>
    obtain ⟨⟨e', b, here⟩, reached⟩ := ih
    obtain rfl := Option.some.inj (event.symm.trans here.event)
    obtain ⟨producer, there, earlier, compiles, tree⟩ := producerIndex_eq_some found
    obtain ⟨_, lookup, made⟩ := Option.bind_eq_some_iff.mp compared
    obtain ⟨_, again, pair⟩ := Option.map_eq_some_iff.mp made
    obtain ⟨rfl, rfl⟩ := Prod.mk.inj pair
    obtain ⟨b', next, -⟩ := compared_of_diffed there lookup again
    exact ⟨⟨producer, b', next⟩,
      .hop reached here (here.moved diff mem) earlier compiles tree next⟩

theorem sound_start (q : Question) (missIndex top : ℕ) (here : q.events[missIndex]? = some q.miss) :
    Walk.Sound q missIndex top
      ⟨[⟨missIndex, top, []⟩], [nodeKey q.miss.crateName (unitOf q.miss)], [], [], 0, none⟩ where
  queue := List.forall_mem_singleton.mpr
    ⟨q.miss, .start, here, List.nodup_singleton _, fun _ mem => mem⟩
  roots := fun _ mem => absurd mem List.not_mem_nil
  limit := fun _ mem => absurd mem List.not_mem_nil
  nodes := Nat.zero_le _

theorem sound_explore (q : Question) (missIndex top : ℕ)
    (here : q.events[missIndex]? = some q.miss) :
    (explore q missIndex top).Sound q missIndex top :=
      sound_run _ (sound_start q missIndex top here)

/-- What the walk knows of a root is evidence. -/
theorem Endpoint.supported {q : Question} {missIndex : ℕ} {miss base : BuildEvent}
    (compared : Compared q.events q.baselineRoot missIndex top miss base)
    {root : Root} {node : Node} {e : BuildEvent} (ends : Endpoint q missIndex top root node e dep) :
    Supported q.events q.baselineRoot missIndex root := by
  obtain ⟨⟨e', b, here⟩, reached⟩ := ends.asks.pending.reached compared
  obtain rfl := Option.some.inj (ends.asks.event.symm.trans here.event)
  obtain ⟨changed, diff, mem⟩ := ends.asks.changed
  have keys : root.path.map Hop.key = node.path.map Hop.key ++ [e.key] := by
    rw [ends.path]
    exact List.map_append
  refine ⟨node.index, node.baseline, node.path, e, b, dep, reached, here,
    here.moved diff mem, ends.path, keys ▸ ends.nodup, ends.unit.imp ?_ ?_⟩
  · rintro ⟨kind, -, name, unit, apart⟩
    exact ⟨kind, name, unit, apart⟩
  · rintro ⟨index, e', found, there, -, name, unit, apart, resolved⟩
    obtain ⟨producer, again, earlier, compiles, tree⟩ := producerIndex_eq_some found
    obtain rfl := Option.some.inj (again.symm.trans there)
    refine ⟨index, producer, earlier, there, compiles, tree, name, unit, ?_, fun kind => ?_⟩
    · rw [keys]
      refine ends.nodup.append (List.nodup_singleton _) fun key mem same => ?_
      exact apart (List.mem_singleton.mp same ▸ mem)
    · obtain ⟨baseline, found⟩ := resolved kind
      obtain ⟨_, lookup, made⟩ := Option.bind_eq_some_iff.mp found
      obtain ⟨_, again, pair⟩ := Option.map_eq_some_iff.mp made
      obtain ⟨rfl, rfl⟩ := Prod.mk.inj pair
      obtain ⟨b', compared, same⟩ := compared_of_diffed there lookup again
      exact ⟨_, b', compared, diffExterns_eq_nil same.symm⟩

/-- The number of branches is not part of the evidence. -/
theorem supported_counted {tree : String} {missIndex : ℕ} {root : Root} (w : Walk)
    (supported : Supported events tree missIndex root) :
    Supported events tree missIndex (w.counted root) := supported

/-- Every root that is reported has its evidence, with all baselines in one build tree, and at most
64 changed dependencies are looked at. -/
theorem analyze_supported (events : List BuildEvent) (missIndex : ℕ) :
    (∀ chain, analyze events missIndex = some chain →
      ∃ tree, ∀ root ∈ chain.roots, Supported events tree missIndex root) ∧
    examined events missIndex ≤ 64 := by
  constructor
  · intro chain analyzed
    obtain ⟨⟨q, top, direct⟩, asked, rfl⟩ := Option.map_eq_some_iff.mp analyzed
    refine ⟨q.baselineRoot, fun root mem => ?_⟩
    obtain ⟨found, member, rfl⟩ := List.mem_map.mp ((sortByKey_perm _ _).mem_iff.mp mem)
    obtain ⟨rfl, b, compared⟩ := question_eq_some asked
    obtain ⟨node, e, dep, ends⟩ := (sound_explore q missIndex top compared.event).roots found member
    exact supported_counted _ (ends.supported compared)
  · unfold examined
    cases asked : question events missIndex with
    | none => exact Nat.zero_le _
    | some walk =>
      obtain ⟨same, b, compared⟩ := question_eq_some asked
      exact (sound_explore walk.1 missIndex walk.2.1 (same ▸ compared.event)).nodes

/-- One compile of a crate in a build tree, with the digests of its dependencies. -/
def crateEvent (name : String) (result : EventResult) (source : String)
    (externs : SortedMap String String) : BuildEvent :=
  ⟨name, "/w", result, "", "", true, externs, .empty, .single "source" source, [], "", ""⟩

theorem b_lt_r : "b" < "r" := by decide

/-- An application that depends on `b` and `r`, of which `b` depends on `r` as well, built, and
built again after `r` was changed. -/
def shortcut : List BuildEvent :=
  let build := fun (result : EventResult) (version : String) =>
    [crateEvent "r" result version .empty, crateEvent "b" result "" (.single "r" version),
      crateEvent "app" result "" ⟨[("b", version), ("r", version)], List.pairwise_pair.mpr b_lt_r⟩]
  build .localHit "1" ++ build .miss "2"

/-- The miss of the application is traced to the source of `r`, one hop away. -/
theorem shortcut_supported : ∃ chain, analyze shortcut 5 = some chain ∧
    chain.roots.map (fun root => (root.kind, root.path.length)) = [(.groups ["source"], 1)] ∧
    ∃ tree, ∀ root ∈ chain.roots, Supported shortcut tree 5 root := by
  have analyzed : (analyze shortcut 5).map (fun chain =>
      chain.roots.map fun root => (root.kind, root.path.length)) =
        some [(.groups ["source"], 1)] := by
    decide +kernel
  obtain ⟨chain, found, kinds⟩ := Option.map_eq_some_iff.mp analyzed
  exact ⟨chain, found, kinds, (analyze_supported shortcut 5).1 chain found⟩

/-- A crate `b` that is recorded as a dependency of its own, and one above it, built and built
again. -/
def selfDependent : List BuildEvent :=
  let build := fun (result : EventResult) (version : String) =>
    [crateEvent "b" result version (.single "b" version),
      crateEvent "app" result "" (.single "b" version)]
  build .localHit "1" ++ build .miss "2"

/-- The crate is reported as a root that is also the last hop to it. -/
theorem selfDependent_repeats : ∃ chain, analyze selfDependent 3 = some chain ∧
    ∃ root ∈ chain.roots, ¬ (root.path.map Hop.key ++ [root.key]).Nodup := by
  have analyzed : (analyze selfDependent 3).map (fun chain =>
      chain.roots.map fun root => root.path.map Hop.key ++ [root.key]) =
      some [["name:app", "name:b", "name:b"]] := by decide +kernel
  obtain ⟨chain, found, keys⟩ := Option.map_eq_some_iff.mp analyzed
  obtain ⟨root, mem, same⟩ := List.mem_map.mp (keys ▸ List.mem_singleton_self _)
  exact ⟨chain, found, root, mem, same ▸ by decide⟩

/-! ## The walk ends -/

/-- What is pushed was counted, and the count stays within its bound. -/
theorem queue_examine (q : Question) (node : Node) (e : BuildEvent) (changed : List ChangedDep)
    {w : Walk} (bounded : w.nodes ≤ maxNodes) :
    (Walk.examine q node e changed w).nodes ≤ maxNodes ∧
    (Walk.examine q node e changed w).queue.length + w.nodes ≤
      w.queue.length + (Walk.examine q node e changed w).nodes := by
  induction changed generalizing w with
  | nil => exact ⟨bounded, Nat.le_refl _⟩
  | cons dep rest ih =>
    unfold Walk.examine
    split
    · exact ⟨bounded, Nat.le_refl _⟩
    next below =>
      have follows := follows_follow q node e dep { w with nodes := w.nodes + 1 }
      have pushed : _ ≤ w.queue.length + 1 := follows.queue_length
      have counted : _ = w.nodes + 1 := follows.nodes
      obtain ⟨within, later⟩ :=
        ih (w := Walk.follow q node e dep { w with nodes := w.nodes + 1 }) (by omega)
      exact ⟨within, by omega⟩

/-- With a turn for every node that may still be pushed, the walk comes to its end. -/
theorem run_ends {q : Question} {fuel : ℕ} {w : Walk} (bounded : w.nodes ≤ maxNodes)
    (enough : w.queue.length + (maxNodes - w.nodes) ≤ fuel) :
    (Walk.run q fuel w).queue = [] ∨ (Walk.run q fuel w).truncated = some tooMany := by
  induction fuel generalizing w with
  | zero => exact .inl (List.length_eq_zero_iff.mp (show w.queue.length = 0 by omega))
  | succ fuel ih =>
    unfold Walk.run
    split
    · exact .inl ‹_›
    · rename_i node queue pending
      have length : w.queue.length = queue.length + 1 := by
        rw [pending]
        rfl
      split
      · rename_i changed consumer _ _
        split
        · exact .inr ‹_›
        · obtain ⟨within, pushed⟩ :=
            queue_examine q node consumer changed (w := { w with queue }) bounded
          refine ih within ?_
          have fewer :
              (Walk.examine q node consumer changed { w with queue }).queue.length + w.nodes ≤
              queue.length + (Walk.examine q node consumer changed { w with queue }).nodes := pushed
          omega
      · exact ih (w := { w with queue }) bounded
          (show queue.length + (maxNodes - w.nodes) ≤ fuel by omega)

/-- The walk of `analyze` is not cut short by the turns it is given. -/
theorem explore_ends (q : Question) (missIndex top : ℕ) :
    (explore q missIndex top).queue = [] ∨ (explore q missIndex top).truncated = some tooMany :=
  run_ends (Nat.zero_le _) (show 1 + (maxNodes - 0) ≤ maxNodes + 2 by omega)

end Kache.MissChain
