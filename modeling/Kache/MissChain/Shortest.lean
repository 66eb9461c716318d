import Kache.MissChain.Evidence

/-!
# How long the reported paths are

The source keeps the compiles it still has to follow in a vector and takes the last one, so the walk
goes down one branch to its end before it looks at the next, and a unit that two branches lead to is
reported with the branch that was taken first.

A compile asks for all its dependencies before any compile below it does (`Walk.Ordered`).  So a
longer way to a unit is never reported where the compile at which it leaves the shorter way asks for
the unit itself, and the reported paths are shortest ones if ways of different lengths never part
earlier (`Uncontested`).
-/

namespace Kache.MissChain

variable {q : Question} {missIndex top : ℕ} {w w' : Walk} {node : Node} {e : BuildEvent}

/-- A compile that is followed is known by its path. -/
theorem Pending.eq_of_path {node' : Node} (pending : Pending q missIndex top node)
    (pending' : Pending q missIndex top node') (same : node.path = node'.path) : node = node' := by
  induction pending generalizing node' with
  | start =>
    cases pending' with
    | start => rfl
    | hop => exact absurd same.symm (List.append_ne_nil_of_right_ne_nil _ (List.cons_ne_nil _ _))
  | hop _ event _ _ found diff _ ih =>
    cases pending' with
    | start => exact absurd same (List.append_ne_nil_of_right_ne_nil _ (List.cons_ne_nil _ _))
    | hop pending' event' _ _ found' diff' _ =>
      obtain ⟨paths, last⟩ := List.append_inj' same rfl
      obtain rfl := ih pending' paths
      obtain rfl := Option.some.inj (event.symm.trans event')
      cases congrArg Hop.via (List.singleton_inj.mp last)
      obtain rfl := Option.some.inj (found.symm.trans found')
      cases Option.some.inj (diff.symm.trans diff')
      rfl

/-! ## What was asked for on the way -/

/-- `P` holds of every unit that a compile strictly before the end of a path found. -/
def Covers (q : Question) (missIndex top : ℕ) (P : String → Prop) (path : List Hop) : Prop :=
  ∀ node e dep e', Asks q missIndex top node e dep → node.path <+: path → node.path ≠ path →
    produced q node e dep = some e' → P e'.key

theorem Covers.imp {P P' : String → Prop} {path : List Hop} (covers : Covers q missIndex top P path)
    (more : ∀ key, P key → P' key) : Covers q missIndex top P' path :=
  fun node e dep e' asks below ne found => more _ (covers node e dep e' asks below ne found)

/-- What the dependencies `changed` of a node do to the walk. -/
structure Surveyed (q : Question) (node : Node) (e : BuildEvent) (changed : List ChangedDep)
    (w w' : Walk) : Prop where
  seen : w.seen ⊆ w'.seen
  queue : ∀ other ∈ w'.queue, other ∈ w.queue ∨ ∃ hop, other.path = node.path ++ [hop]
  whole : w'.truncated = none → w.truncated = none
  targets : w'.truncated = none → ∀ dep ∈ changed, ∀ e' ∈ produced q node e dep, e'.key ∈ w'.seen
  roots : ∀ root ∈ w'.roots, root ∈ w.roots ∨ root.kind = .noMissRecorded ∨
    root.path.dropLast = node.path ∧ root.key ∉ w.seen

theorem Follows.surveyed {dep : ChangedDep} (follows : Follows q node e dep w w') :
    Surveyed q node e [dep] w w' := by
  cases follows with
  | looped =>
    exact ⟨List.Subset.refl _, fun _ mem => .inl mem, fun none =>
      absurd none (Option.some_ne_none _),
      fun none => absurd none (Option.some_ne_none _), fun _ => .inl⟩
  | absent _ none =>
    refine ⟨List.Subset.refl _, fun _ mem => .inl mem, id, fun _ =>
      List.forall_mem_singleton.mpr ?_, fun root mem => ?_⟩
    · rw [produced, none]
      rintro _ ⟨⟩
    · rcases List.mem_append.mp mem with before | here
      · exact .inl before
      · exact .inr (.inl (List.mem_singleton.mp here ▸ rfl))
  | known _ seen =>
    exact ⟨List.Subset.refl _, fun _ mem => .inl mem, id, fun _ =>
      List.forall_mem_singleton.mpr seen, fun _ => .inl⟩
  | pushed _ meets =>
    refine ⟨List.subset_cons_self _ _, fun other mem => ?_, id, fun _ =>
      List.forall_mem_singleton.mpr ?_, fun _ => .inl⟩
    · rcases List.mem_cons.mp mem with rfl | before
      · exact .inr ⟨_, rfl⟩
      · exact .inl before
    · rw [meets.produced]
      rintro _ ⟨⟩
      exact List.mem_cons_self
  | ended _ meets path name unit _ _ _ whole =>
    refine ⟨List.subset_cons_self _ _, fun _ mem => .inl mem, whole,
      fun _ => List.forall_mem_singleton.mpr ?_, fun root mem => ?_⟩
    · rw [meets.produced]
      rintro _ ⟨⟩
      exact List.mem_cons_self
    · rcases List.mem_append.mp mem with before | here
      · exact .inl before
      · obtain rfl := List.mem_singleton.mp here
        refine .inr (.inr ⟨by rw [path, List.dropLast_concat], ?_⟩)
        rw [Root.key, name, unit]
        exact meets.fresh

/-- Between two turns: what was asked for on the way to a compile that is waiting has been met, and
what was asked for on the way to a root was another unit. -/
structure Walk.Ordered (q : Question) (missIndex top : ℕ) (w : Walk) : Prop where
  queue : ∀ node ∈ w.queue, Covers q missIndex top (· ∈ w.seen) node.path
  roots : ∀ root ∈ w.roots, root.kind ≠ .noMissRecorded →
    Covers q missIndex top (· ≠ root.key) root.path.dropLast

/-- **One turn**, of a node that is taken from the queue. -/
theorem Walk.Ordered.examine {changed : List ChangedDep} (ordered : w.Ordered q missIndex top)
    (covers : Covers q missIndex top (· ∈ w.seen) node.path)
    (pending : Pending q missIndex top node) (event : q.events[node.index]? = some e)
    (diff : changedDepsAt q.events node.index (some node.baseline) = some changed)
    (surveyed : Surveyed q node e changed w w') (whole : w'.truncated = none) :
    w'.Ordered q missIndex top := by
  constructor
  · intro other mem
    rcases surveyed.queue other mem with before | ⟨hop, path⟩
    · exact (ordered.queue other before).imp fun _ seen => surveyed.seen seen
    · rw [path]
      intro before e₀ dep e' asks below ne found
      by_cases parent : before.path = node.path
      · obtain rfl := asks.pending.eq_of_path pending parent
        obtain rfl := Option.some.inj (asks.event.symm.trans event)
        obtain ⟨changed', diff', mem⟩ := asks.changed
        cases Option.some.inj (diff.symm.trans diff')
        exact surveyed.targets whole dep mem e' found
      · have above : before.path <+: node.path := (List.prefix_concat_iff.mp below).resolve_left ne
        exact surveyed.seen (covers before e₀ dep e' asks above parent found)
  · intro root mem kind
    rcases surveyed.roots root mem with before | other | ⟨path, fresh⟩
    · exact ordered.roots root before kind
    · exact absurd other kind
    · rw [path]
      exact covers.imp fun key seen same => fresh (same ▸ seen)

end Kache.MissChain
