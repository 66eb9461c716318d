import Kache.Foundation.SortedMap
import Kache.Foundation.StableSort
import Mathlib.Data.List.Dedup
import Mathlib.Data.Prod.Lex
import Mathlib.Data.String.Basic

/-!
# Walking a cascade of misses

`miss_chain::analyze` explains why a compile missed the cache: it compares the compile with an
earlier build of the same unit, and goes on to the compiles of those dependencies whose digests
differ, until it meets units whose dependencies did not change.  Every decision is made by position
in the list of events, the oldest first.
-/

namespace Kache.MissChain

/-- `EventResult`. -/
inductive EventResult where
  | localHit
  | prefetchHit
  | remoteHit
  | dup
  | miss
  | error
  | passthrough
  | skipped
  deriving DecidableEq, Repr

/-- `BuildEvent`, the fields that are read here. -/
structure BuildEvent where
  crateName : String
  root : String
  result : EventResult
  cacheKey : String
  unitId : String
  keyExternsRecorded : Bool
  keyExterns : SortedMap String String
  externUnits : SortedMap String String
  keyFields : SortedMap String String
  keyDiff : List String
  package : String
  passthroughReason : String
  deriving DecidableEq

/-- `ChangedDep`. -/
structure ChangedDep where
  name : String
  from_ : Option String
  to_ : Option String
  unit : Option String
  deriving DecidableEq, Repr

/-- `Hop`. -/
structure Hop where
  crateName : String
  unit : Option String
  via : ChangedDep
  deriving DecidableEq, Repr

/-- `RootKind`. -/
inductive RootKind where
  | groups (groups : List String)
  | nothingRecorded
  | noMissRecorded
  | noBaseline
  | noDiffableHistory
  | limitReached
  | pathOnly
  deriving DecidableEq, Repr

/-- `RootKind::is_resolved`. -/
def RootKind.isResolved : RootKind → Bool
  | groups _ | nothingRecorded | pathOnly => true
  | _ => false

/-- `PassthroughGroup`. -/
structure PassthroughGroup where
  reason : String
  count : ℕ
  deriving DecidableEq, Repr

/-- `Root`. -/
structure Root where
  crateName : String
  unit : Option String
  kind : RootKind
  passthroughs : List PassthroughGroup
  branches : ℕ
  path : List Hop
  deriving DecidableEq, Repr

/-- `Chain`. -/
structure Chain where
  roots : List Root
  direct : List ChangedDep
  truncated : Option String
  baselineRoot : Option String
  deriving DecidableEq, Repr

def maxDepth : ℕ := 12

def maxNodes : ℕ := 64

/-! ## Events -/

/-- `Iterator::rposition`. -/
def rposition {α : Type} (p : α → Bool) : List α → Option ℕ
  | [] => none
  | a :: rest =>
    match rposition p rest with
    | some i => some (i + 1)
    | none => if p a then some 0 else none

/-- `unit_of`. -/
def unitOf (event : BuildEvent) : Option String :=
  if event.unitId = "" then none else some event.unitId

/-- `node_key`. -/
def nodeKey (name : String) : Option String → String
  | some unit => "unit:" ++ unit
  | none => "name:" ++ name

/-- `same_root`. -/
def sameRoot (event : BuildEvent) (root : String) : Bool := root ≠ "" ∧ event.root = root

/-- `is_keyed`. -/
def isKeyed (event : BuildEvent) : Bool :=
  event.keyExternsRecorded ∧
    event.result ∈ [.localHit, .prefetchHit, .remoteHit, .miss, .dup]

/-- `is_producer`. -/
def isProducer (event : BuildEvent) (dep : ChangedDep) : Bool :=
  match dep.unit, unitOf event with
  | some want, some have_ => want = have_
  | some _, none => event.crateName = dep.name
  | none, _ => event.crateName = dep.name

/-- Whether the compiler ran and its outputs were stored. -/
def compiled (event : BuildEvent) : Bool := event.result = .miss ∨ event.result = .dup

/-- `producer_index`. -/
def producerIndex (events : List BuildEvent) (dep : ChangedDep) (root : String)
    (before : ℕ) : Option ℕ :=
  let window := events.take before
  let exact_ := dep.unit.bind fun want =>
    rposition (fun e => unitOf e = some want ∧ sameRoot e root ∧ compiled e) window
  exact_.orElse fun _ => rposition (fun e => isProducer e dep ∧ sameRoot e root ∧ compiled e) window

/-- `last_baseline_index`. -/
def lastBaselineIndex (events : List BuildEvent) (compiled : BuildEvent) (root : String)
    (before : ℕ) : Option ℕ :=
  let keyed := fun e => sameRoot e root && isKeyed e
  let window := events.take before
  match unitOf compiled with
  | some unit =>
    (rposition (fun e => unitOf e = some unit ∧ keyed e) window).orElse fun _ =>
      rposition (fun e => e.unitId = "" ∧ e.crateName = compiled.crateName ∧ keyed e) window
  | none => rposition (fun e => e.crateName = compiled.crateName ∧ keyed e) window

/-- `top_baseline`. -/
def topBaseline (events : List BuildEvent) (index : ℕ) : Option (ℕ × Bool) := do
  let compiled ← events[index]?
  if compiled.root = "" then none
  else
    match lastBaselineIndex events compiled compiled.root index with
    | some sameTree => some (sameTree, false)
    | none => do
        let unit ← unitOf compiled
        let other ← rposition
          (fun e => e.root ≠ "" ∧ e.root ≠ compiled.root ∧ unitOf e = some unit ∧ isKeyed e)
          (events.take index)
        return (other, true)

/-- `dependency_baseline`, of the event at `depIndex`. -/
def dependencyBaseline (events : List BuildEvent) (depIndex : ℕ) (baselineRoot : String)
    (crossCheckout : Bool) (consumerBaseline : ℕ) : Option ℕ := do
  let producer ← events[depIndex]?
  lastBaselineIndex events producer baselineRoot (if crossCheckout then consumerBaseline
    else depIndex)

/-- `same_key`. -/
def sameKey (baseline compiled : BuildEvent) : Bool :=
  compiled.cacheKey ≠ "" ∧ compiled.cacheKey = baseline.cacheKey

/-! ## Differences -/

/-- `diff_externs`. -/
def diffExterns (before after units : SortedMap String String) : List ChangedDep :=
  let moved := after.entries.filterMap fun entry =>
    if before.get entry.1 = some entry.2 then none
    else some ⟨entry.1, before.get entry.1, some entry.2, units.get entry.1⟩
  let gone := before.entries.filterMap fun entry =>
    if after.containsKey entry.1 then none else
      some ⟨entry.1, some entry.2, none, units.get entry.1⟩
  sortByKey (·.name) (moved ++ gone)

/-- `changed_deps_at`. -/
def changedDepsAt (events : List BuildEvent) (index : ℕ) (baseline : Option ℕ) :
    Option (List ChangedDep) := do
  let compiled ← events[index]?
  if compiled.keyExternsRecorded then
    let baseline ← baseline
    let before ← events[baseline]?
    return diffExterns before.keyExterns compiled.keyExterns compiled.externUnits
  else none

/-- Sorted, with one of equal neighbours kept. -/
def sortDedup (groups : List String) : List String := (sortByKey id groups).destutter (· ≠ ·)

/-- `own_groups`. -/
def ownGroups (before after : SortedMap String String) : List String :=
  let moved := (after.entries.filter fun entry => before.get entry.1 ≠ some entry.2).map (·.1)
  let gone := (before.entries.map (·.1)).filter fun group => !after.containsKey group
  sortDedup ((moved ++ gone).filter (· ≠ "externs"))

/-! ## Passthroughs -/

/-- `replace('_', "-")`. -/
def dashed (name : String) : List Char := name.toList.map fun c => if c = '_' then '-' else c

/-- `looks_like_semver`. -/
def looksLikeSemver (value : List Char) : Bool :=
  let parts := (value.takeWhile fun c => c ≠ '-' ∧ c ≠ '+').splitOn '.'
  parts.length = 3 ∧ ∀ part ∈ parts, part ≠ [] ∧ part.all Char.isDigit

/-- `package_dir_matches`. -/
def packageDirMatches (root : String) (needle : List Char) : Bool :=
  (root.toList.splitOnP fun c => c = '/' ∨ c = '\\').any fun component =>
    component = needle ∨ (needle <+: component ∧
      (component.drop needle.length).head? = some '-' ∧
      looksLikeSemver (component.drop (needle.length + 1)))

/-- `passthroughs_for`. -/
def passthroughsFor (events : List BuildEvent) (crateName : String) (before : ℕ) :
    List PassthroughGroup :=
  let needle := dashed crateName
  let belongs := fun event : BuildEvent =>
    if event.package = "" then event.root ≠ "" && packageDirMatches event.root needle
    else dashed event.package = needle
  let reasons := ((events.take before).filter fun event => event.result = .passthrough ∧
    belongs event).map fun event =>
    if event.passthroughReason = "" then "(no reason recorded)" else event.passthroughReason
  let counts := reasons.dedup.map fun reason => ⟨reason, reasons.count reason⟩
  (sortByKey (fun group : PassthroughGroup =>
    toLex (OrderDual.toDual group.count, group.reason)) counts).take 4

/-! ## Endpoints -/

/-- `unresolved`. -/
def unresolved (crateName : String) (unit : Option String) (kind : RootKind) (path : List Hop) :
    Root :=
  ⟨crateName, unit, kind, [], 1, path⟩

/-- The groups that explain a compile, against its baseline. -/
def groupsAt (baseline compiled : BuildEvent) (crossCheckout : Bool) : List String :=
  let groups := ownGroups baseline.keyFields compiled.keyFields
  if groups = [] ∧ !crossCheckout ∧ compiled.keyDiff ≠ [] then
    sortDedup (compiled.keyDiff.filter (· ≠ "externs"))
  else groups

/-- `classify_at`, of the event `compiled` at `index`. -/
def classifyAt (events : List BuildEvent) (index : ℕ) (compiled : BuildEvent)
    (baseline : Option BuildEvent) (crossCheckout : Bool) (path : List Hop) : Root :=
  let kind := match baseline with
    | none => .noBaseline
    | some baseline =>
      if groupsAt baseline compiled crossCheckout ≠ [] then
        .groups (groupsAt baseline compiled crossCheckout)
      else if crossCheckout ∧ sameKey baseline compiled then .pathOnly
      else .nothingRecorded
  ⟨compiled.crateName, unitOf compiled, kind, passthroughsFor events compiled.crateName index,
    1, path⟩

/-- `loops_back`. -/
def loopsBack (path : List Hop) (miss : BuildEvent) (key : String) : Bool :=
  (path.any fun hop => nodeKey hop.crateName hop.unit = key) ||
    key = nodeKey miss.crateName (unitOf miss)

/-! ## The walk -/

/-- A compile still to be followed, its baseline and how it was reached. -/
structure Node where
  index : ℕ
  baseline : ℕ
  path : List Hop

/-- What the walk has done.  `queue` has the node that was pushed last first, and `reached` a key
for every branch that met it. -/
structure Walk where
  queue : List Node
  seen : List String
  reached : List String
  roots : List Root
  nodes : ℕ
  truncated : Option String

def tooMany : String := "too many changed dependencies to follow"

def cycle : String := "cycle in recorded dependency digests"

def tooLong : String := "chain longer than the walk limit"

/-- What a walk is about. -/
structure Question where
  events : List BuildEvent
  miss : BuildEvent
  baselineRoot : String
  crossCheckout : Bool
  deriving DecidableEq

/-- The dependencies of the compile at `depIndex` that moved, with its baseline. -/
def diffed (q : Question) (node : Node) (depIndex : ℕ) : Option (ℕ × List ChangedDep) :=
  (dependencyBaseline q.events depIndex q.baselineRoot q.crossCheckout node.baseline).bind
    fun depBaseline =>
    (changedDepsAt q.events depIndex (some depBaseline)).map fun next => (depBaseline, next)

/-- A dependency whose compile was found at `depIndex` and was not met before. -/
def Walk.descend (q : Question) (node : Node) (path : List Hop) (depIndex : ℕ)
    (producer : BuildEvent) (w : Walk) : Walk :=
  match diffed q node depIndex with
  | some (depBaseline, next) =>
    if next ≠ [] then
      if maxDepth ≤ path.length then
        { w with
          truncated := some tooLong
          roots := w.roots ++ [unresolved producer.crateName (unitOf producer) .limitReached path] }
      else { w with queue := ⟨depIndex, depBaseline, path⟩ :: w.queue }
    else
      { w with roots := w.roots ++
        [classifyAt q.events depIndex producer q.events[depBaseline]? q.crossCheckout path] }
  | none =>
    { w with
      roots := w.roots ++
        [{ unresolved producer.crateName (unitOf producer) .noDiffableHistory path with
        passthroughs := passthroughsFor q.events producer.crateName depIndex }] }

/-- The hop that leaves an event by one of its dependencies. -/
def hopOf (event : BuildEvent) (dep : ChangedDep) : Hop := ⟨event.crateName, unitOf event, dep⟩

/-- The key of an event. -/
def BuildEvent.key (event : BuildEvent) : String := nodeKey event.crateName (unitOf event)

/-- A dependency whose compile was found. -/
def Walk.meet (q : Question) (node : Node) (path : List Hop) (depIndex : ℕ) (producer : BuildEvent)
    (w : Walk) : Walk :=
  if loopsBack node.path q.miss producer.key then { w with truncated := some cycle }
  else if producer.key ∈ w.seen then w
  else Walk.descend q node path depIndex producer { w with seen := producer.key :: w.seen }

/-- A dependency that moved. -/
def Walk.follow (q : Question) (node : Node) (consumer : BuildEvent) (dep : ChangedDep)
    (w : Walk) : Walk :=
  if loopsBack node.path q.miss (nodeKey dep.name dep.unit) then { w with truncated := some cycle }
  else
    match producerIndex q.events dep consumer.root node.index with
    | none =>
      { w with
        reached := w.reached ++ [nodeKey dep.name dep.unit]
        roots := w.roots ++
          [unresolved dep.name dep.unit .noMissRecorded (node.path ++ [hopOf consumer dep])] }
    | some depIndex =>
      match q.events[depIndex]? with
      | none => w
      | some producer =>
        Walk.meet q node (node.path ++ [hopOf consumer dep]) depIndex producer
          { w with reached := w.reached ++ [producer.key] }

/-- The changed dependencies of one node. -/
def Walk.examine (q : Question) (node : Node) (consumer : BuildEvent) :
    List ChangedDep → Walk → Walk
  | [], w => w
  | dep :: rest, w =>
    if maxNodes ≤ w.nodes then { w with truncated := some tooMany }
    else Walk.examine q node consumer rest
      (Walk.follow q node consumer dep { w with nodes := w.nodes + 1 })

/-- The loop of `analyze`, for so many turns. -/
def Walk.run (q : Question) : ℕ → Walk → Walk
  | 0, w => w
  | fuel + 1, w =>
    match w.queue with
    | [] => w
    | node :: queue =>
      match changedDepsAt q.events node.index (some node.baseline), q.events[node.index]? with
      | some changed, some consumer =>
        if (Walk.examine q node consumer changed { w with queue }).truncated = some tooMany then
          Walk.examine q node consumer changed { w with queue }
        else Walk.run q fuel (Walk.examine q node consumer changed { w with queue })
      | _, _ => Walk.run q fuel { w with queue }

/-- The walk below the compile at `missIndex`, with its baseline at `top`. -/
def explore (q : Question) (missIndex top : ℕ) : Walk :=
  Walk.run q (maxNodes + 2)
    ⟨[⟨missIndex, top, []⟩], [nodeKey q.miss.crateName (unitOf q.miss)], [], [], 0, none⟩

/-- The branches that converge on a root. -/
def Walk.counted (w : Walk) (root : Root) : Root :=
  let reached := w.reached.count (nodeKey root.crateName root.unit)
  { root with branches := if reached = 0 then 1 else reached }

/-- The order in which the roots are reported. -/
def Root.rank (root : Root) : ℕᵒᵈ ×ₗ ℕ ×ₗ String :=
  toLex (OrderDual.toDual root.branches, toLex (root.path.length, root.crateName))

/-- What `analyze` is to walk: the question, the baseline of the missed compile, and the
dependencies that moved directly under it.  There is none if nothing is to be reported. -/
def question (events : List BuildEvent) (missIndex : ℕ) : Option (Question × ℕ × List ChangedDep) :=
  do
  let miss ← events[missIndex]?
  if !miss.keyExternsRecorded ∨ miss.root = "" then none
  else
    let (top, crossCheckout) ← topBaseline events missIndex
    let baseline ← events[top]?
    let direct ← changedDepsAt events missIndex (some top)
    if direct = [] then none
    else return (⟨events, miss, baseline.root, crossCheckout⟩, top, direct)

/-- `analyze`. -/
def analyze (events : List BuildEvent) (missIndex : ℕ) : Option Chain :=
  (question events missIndex).map fun (q, top, direct) =>
    let w := explore q missIndex top
    { roots := sortByKey Root.rank (w.roots.map w.counted)
      direct
      truncated := w.truncated
      baselineRoot := if q.crossCheckout then some q.baselineRoot else none }

/-- How many changed dependencies `analyze` looks at. -/
def examined (events : List BuildEvent) (missIndex : ℕ) : ℕ :=
  (question events missIndex).elim 0 fun (q, top, _) => (explore q missIndex top).nodes

end Kache.MissChain
