import Kache.Scheduler.Cpuset
import Kache.Foundation.UnixPath
import Mathlib.Algebra.Order.Field.Rat
import Mathlib.Algebra.Order.Field.Basic
import Mathlib.Order.Bounds.Defs

/-!
# The limits of a control group

A process is limited by its control group and by every group above it, so a snapshot reads the limit
files of all of them, up to the mount point, and keeps the tightest.  A file that cannot be read, or
makes no sense, may hide a tighter limit: the snapshot then reports none.

Memory and CPU time are read by one loop and in one way (`Tightest`), memory in bytes and CPU time
as a fraction of quota and period.  Fractions are compared by multiplying across in 128 bits, which
is exact for all 64-bit values (`cpuLimitIsTighter_iff`); that makes the comparison a preorder, and
the least limit of a chain of any length follows from it as for numbers.
-/

namespace Kache.Scheduler

open Text

/-! ## The code -/

/-- A directory or a file, by the names on the way to it. -/
abbrev Place := List OsStr

/-- What there is to read at a place. -/
inductive Contents where
  | missing
  | unreadable
  | text (chars : List Char)
  deriving DecidableEq

/-- `fs::read_to_string`, when it succeeds. -/
def Contents.read : Contents → Option (List Char)
  | .text chars => some chars
  | _ => none

/-- `str::parse::<u64>`: digits, with at most one `+` before them. -/
def parseU64 (text : List Char) : Option UInt64 :=
  let digits := if text.head? = some '+' then text.tail else text
  if digits = [] ∨ ¬ digits.all Char.isDigit then none
  else if digitsValue digits < 2 ^ 64 then some (UInt64.ofNat (digitsValue digits))
  else none

/-- `str::split_whitespace`. -/
def splitWhitespace (text : List Char) : List (List Char) :=
  (text.splitOnP isWhitespace).filter (· ≠ [])

/-- A quota of CPU time in each period; the period is not zero. -/
structure CpuLimit where
  quotaUs : UInt64
  periodUs : UInt64
  period_ne_zero : periodUs ≠ 0
  deriving DecidableEq

/-- `read_u64_file`. -/
def readU64File (file : Contents) : Option UInt64 := do
  let text ← file.read
  parseU64 (trimmed text)

/-- `read_memory_limit`: nothing for a file that cannot be read, `none` for no limit. -/
def readMemoryLimit (file : Contents) : Option (Option UInt64) := do
  let text ← file.read
  if trimmed text = "max".toList then some none
  else do
    let limit ← parseU64 (trimmed text)
    some (some limit)

/-- `parse_cpu_limit`. -/
def parseCpuLimit (text : List Char) : Option (Option CpuLimit) :=
  match splitWhitespace text with
  | [quota, period] =>
    match parseU64 period with
    | none => none
    | some periodUs =>
      if zero : periodUs = 0 then none
      else if quota = "max".toList then some none
      else
        match parseU64 quota with
        | none => none
        | some quotaUs => if quotaUs > 0 then some (some ⟨quotaUs, periodUs, zero⟩) else none
  | _ => none

/-- `read_cpu_limit`. -/
def readCpuLimit (file : Contents) : Option (Option CpuLimit) := do
  let text ← file.read
  parseCpuLimit text

/-- `cpu_limit_is_tighter`, in 128-bit words. -/
def cpuLimitIsTighter (left right : CpuLimit) : Bool :=
  (left.quotaUs.toNat * right.periodUs.toNat) % 2 ^ 128 ≤
    (right.quotaUs.toNat * left.periodUs.toNat) % 2 ^ 128

/-- Counters of `memory.events`. -/
structure MemoryEvents where
  low : UInt64 := 0
  high : UInt64 := 0
  max : UInt64 := 0
  oom : UInt64 := 0
  oomKill : UInt64 := 0
  oomGroupKill : UInt64 := 0
  deriving DecidableEq

/-- The counter a line names. -/
def MemoryEvents.set (events : MemoryEvents) (key : List Char) (value : UInt64) : MemoryEvents :=
  if key = "low".toList then { events with low := value }
  else if key = "high".toList then { events with high := value }
  else if key = "max".toList then { events with max := value }
  else if key = "oom".toList then { events with oom := value }
  else if key = "oom_kill".toList then { events with oomKill := value }
  else if key = "oom_group_kill".toList then { events with oomGroupKill := value }
  else events

/-- The loop over the lines, with whether any was found. -/
def readEvents : List (List Char) → MemoryEvents → Bool → Option (MemoryEvents × Bool)
  | [], events, found => some (events, found)
  | line :: rest, events, found =>
    if trimmed line = [] then readEvents rest events found
    else
      match splitWhitespace line with
      | [key, value] =>
        match parseU64 value with
        | some value => readEvents rest (events.set key value) true
        | none => none
      | _ => none

/-- `parse_memory_events`. -/
def parseMemoryEvents (text : List Char) : Option MemoryEvents := do
  let (events, found) ← readEvents (text.splitOn '\n') {} false
  if found then some events else none

/-- The tightest limit so far, and whether all files could be read. -/
structure Tightest (α : Type) where
  limit : Option α := none
  complete : Bool

/-- What a file of an ancestor says about the limit.  At the mount root it may be missing. -/
def Tightest.visit {α : Type} (tighter : α → α → Bool) (so : Tightest α) (missingRoot : Bool) :
    Option (Option α) → Tightest α
  | some (some limit) =>
    { so with
      limit := some (match so.limit with
        | some current => if tighter current limit then current else limit
        | none => limit) }
  | some none => so
  | none => if missingRoot then so else { so with complete := false }

/-- The variables of the loop. -/
structure LimitScan where
  memory : Tightest UInt64
  headroom : Option UInt64 := none
  headroomComplete : Bool := true
  cpu : Tightest CpuLimit

/-- `ResourceDomain`. -/
structure ResourceDomain where
  mountPoint : Place
  current : Place
  ancestorLimitsComplete : Bool

/-- `ResourceSnapshot`. -/
structure ResourceSnapshot where
  memoryLimitBytes : Option UInt64
  cpuLimit : Option CpuLimit
  cpusetCpus : Option ℕ
  memoryCurrentBytes : Option UInt64
  memoryHeadroomBytes : Option UInt64
  ancestorLimitsComplete : Bool
  currentMemoryEvents : Option MemoryEvents
  deriving DecidableEq

/-- `path.join(name)`. -/
def Place.join (path : Place) (name : String) : Place := path ++ [utf8 name]

/-- The loop of `ancestors`, for at most `steps` directories. -/
def climb (mountPoint : Place) : ℕ → Place → List Place
  | 0, _ => []
  | steps + 1, path =>
    if mountPoint <+: path then
      path :: if path = mountPoint ∨ path = [] then [] else climb mountPoint steps path.dropLast
    else []

namespace ResourceDomain

/-- `ResourceDomain::ancestors`. -/
def ancestors (domain : ResourceDomain) : List Place :=
  climb domain.mountPoint (domain.current.length + 1) domain.current

/-- The limits of a directory that has a finite one lower the headroom as well. -/
def visitHeadroom (files : Place → Contents) (path : Place) (scan : LimitScan) : LimitScan :=
  match readMemoryLimit (files (path.join "memory.max")) with
  | some (some limit) =>
    match readU64File (files (path.join "memory.current")) with
    | some current =>
      let headroom := if current ≤ limit then limit - current else 0
      { scan with
        headroom := some (match scan.headroom with
          | some least => min least headroom
          | none => headroom) }
    | none => { scan with headroomComplete := false }
  | _ => scan

/-- The body of the loop over the ancestors. -/
def visit (domain : ResourceDomain) (files : Place → Contents) (scan : LimitScan) (path : Place) :
    LimitScan :=
  let missing (file : Place) : Bool := path = domain.mountPoint ∧ files file = .missing
  let memoryMax := path.join "memory.max"
  let cpuMax := path.join "cpu.max"
  let scan := visitHeadroom files path scan
  { scan with
    -- `current.min(limit)`
    memory := scan.memory.visit (fun current limit => decide (current ≤ limit)) (missing memoryMax)
      (readMemoryLimit (files memoryMax))
    cpu := scan.cpu.visit cpuLimitIsTighter (missing cpuMax) (readCpuLimit (files cpuMax)) }

/-- `ResourceDomain::snapshot`. -/
def snapshot (domain : ResourceDomain) (files : Place → Contents) : ResourceSnapshot :=
  let scan := domain.ancestors.foldl (domain.visit files)
    { memory := { complete := domain.ancestorLimitsComplete }
      cpu := { complete := domain.ancestorLimitsComplete } }
  { memoryLimitBytes := if scan.memory.complete then scan.memory.limit else none
    cpuLimit := if scan.cpu.complete then scan.cpu.limit else none
    cpusetCpus := do
      let text ← (files (domain.current.join "cpuset.cpus.effective")).read
      parseCpusetCpus text
    memoryCurrentBytes := readU64File (files (domain.current.join "memory.current"))
    memoryHeadroomBytes :=
      if scan.memory.complete ∧ scan.headroomComplete then scan.headroom else none
    ancestorLimitsComplete := domain.ancestorLimitsComplete
    currentMemoryEvents := do
      let text ← (files (domain.current.join "memory.events")).read
      parseMemoryEvents text }

end ResourceDomain

/-! ## The tightest of a chain -/

section Chain

variable {α β ρ : Type} [LinearOrder ρ] (measure : α → ρ) (reading : β → Option (Option α))
  (excused : β → Bool)

/-- What is known when the files of `items` have been read. -/
structure Tightest.Seen (start : Bool) (items : List β) (so : Tightest α) : Prop where
  complete : so.complete = true ↔
    start = true ∧ ∀ item ∈ items, reading item = none → excused item = true
  found : ∀ best, so.limit = some best → ∃ item ∈ items, reading item = some (some best)
  least : ∀ item ∈ items, ∀ limit, reading item = some (some limit) →
    ∃ best, so.limit = some best ∧ measure best ≤ measure limit

variable {measure reading excused} {tighter : α → α → Bool}

/-- A finite limit: the tighter of it and what there was is kept. -/
theorem Tightest.visit_limit (exact : ∀ a b, tighter a b = true ↔ measure a ≤ measure b)
    (so : Tightest α) (missingRoot : Bool) (limit : α) :
    ∃ best, so.visit tighter missingRoot (some (some limit)) = { so with limit := some best } ∧
      (best = limit ∨ so.limit = some best) ∧ measure best ≤ measure limit ∧
      ∀ current, so.limit = some current → measure best ≤ measure current := by
  cases held : so.limit with
  | none =>
    exact ⟨limit, by rw [Tightest.visit, held], .inl rfl, le_rfl, fun _ none => nomatch none⟩
  | some current =>
    by_cases tight : tighter current limit = true
    · refine ⟨current, by simp only [Tightest.visit, held, tight, if_true], .inr rfl,
        (exact _ _).mp tight, ?_⟩
      exact fun _ same => Option.some.inj same ▸ le_rfl
    · refine ⟨limit, by simp [Tightest.visit, held, tight], .inl rfl, le_rfl, ?_⟩
      rintro _ ⟨⟩
      exact (not_le.mp fun le => tight ((exact _ _).mpr le)).le

/-- One more file. -/
theorem Tightest.Seen.concat (exact : ∀ a b, tighter a b = true ↔ measure a ≤ measure b)
    {start : Bool}
    {items : List β} {so : Tightest α} (seen : Tightest.Seen measure reading excused start items so)
    (item : β) :
    Tightest.Seen measure reading excused start (items ++ [item])
      (so.visit tighter (excused item) (reading item)) := by
  have each : ∀ {P : β → Prop}, (∀ b ∈ items, P b) → P item → ∀ b ∈ items ++ [item], P b := by
    intro P old new b mem
    rcases List.mem_append.mp mem with mem | mem
    · exact old b mem
    · rw [List.mem_singleton.mp mem]
      exact new
  have older : ∀ {best : α}, so.limit = some best →
      ∃ b ∈ items ++ [item], reading b = some (some best) := by
    intro best same
    obtain ⟨b, mem, read⟩ := seen.found best same
    exact ⟨b, List.mem_append_left _ mem, read⟩
  have readable : reading item ≠ none →
      (so.complete = true ↔ start = true ∧ ∀ b ∈ items ++ [item], reading b = none →
        excused b = true) := by
    intro read
    rw [seen.complete]
    exact and_congr_right fun _ =>
      ⟨fun old => each old fun none => absurd none read, fun all b mem =>
        all b (List.mem_append_left _ mem)⟩
  rcases here : reading item with _ | _ | limit
  · -- the file could not be read
    have silent : ∀ {limit : α}, reading item ≠ some (some limit) := fun read =>
      nomatch here.symm.trans read
    have least : ∀ b ∈ items ++ [item], ∀ limit, reading b = some (some limit) →
        ∃ best, so.limit = some best ∧ measure best ≤ measure limit :=
      each seen.least fun limit read => absurd read silent
    unfold Tightest.visit
    dsimp only
    split
    · next allowed =>
      refine ⟨?_, fun best same => older same, least⟩
      rw [seen.complete]
      exact and_congr_right fun _ =>
        ⟨fun old => each old fun _ => allowed, fun all b mem => all b (List.mem_append_left _ mem)⟩
    · next refused =>
      refine ⟨iff_of_false (fun h => nomatch h) fun all => refused ?_, fun best same =>
        older same, least⟩
      exact all.2 item (by simp) here
  · -- it sets no limit
    refine ⟨readable (by simp [here]), fun best same => older same,
      each seen.least fun limit read => ?_⟩
    exact nomatch here.symm.trans read
  · -- it sets one
    obtain ⟨best, visited, origin, least, below⟩ := so.visit_limit exact (excused item) limit
    rw [visited]
    refine ⟨readable (by simp [here]), fun kept same =>
      ?_, each (fun b mem limit read => ?_) fun _ read => ?_⟩
    · obtain rfl : best = kept := Option.some.inj same
      rcases origin with rfl | held
      · exact ⟨item, by simp, here⟩
      · exact older held
    · obtain ⟨current, held, le⟩ := seen.least b mem limit read
      exact ⟨best, rfl, (below current held).trans le⟩
    · obtain rfl := Option.some.inj (Option.some.inj (here.symm.trans read))
      exact ⟨best, rfl, least⟩

/-- The files of a whole chain. -/
theorem Tightest.seen_foldl (exact : ∀ a b, tighter a b = true ↔ measure a ≤ measure b)
    (start : Bool) (items : List β) :
    Tightest.Seen measure reading excused start items
      (items.foldl (fun so item => so.visit tighter (excused item) (reading item))
          { complete := start }) := by
  induction items using List.reverseRecOn with
  | nil => exact ⟨by simp, by simp, by simp⟩
  | append_singleton items item ih =>
    rw [List.foldl_append, List.foldl_cons, List.foldl_nil]
    exact ih.concat exact item

end Chain

/-! ## Fractions -/

/-- CPUs, as the quota in each period. -/
def CpuLimit.ratio (limit : CpuLimit) : ℚ := limit.quotaUs.toNat / limit.periodUs.toNat

/-- The product of two 64-bit words fits 128 bits. -/
theorem mul_toNat_lt (a b : UInt64) : a.toNat * b.toNat < 2 ^ 128 := by
  have ha := a.toNat_lt
  have hb := b.toNat_lt
  calc a.toNat * b.toNat ≤ (2 ^ 64 - 1) * (2 ^ 64 - 1) := Nat.mul_le_mul (by omega) (by omega)
    _ < 2 ^ 128 := by norm_num

/-- **Fractions are compared exactly**, for all 64-bit quotas and periods. -/
theorem cpuLimitIsTighter_iff (left right : CpuLimit) :
    cpuLimitIsTighter left right = true ↔ left.ratio ≤ right.ratio := by
  have positive : ∀ limit : CpuLimit, (0 : ℚ) < limit.periodUs.toNat := fun limit =>
    Nat.cast_pos.mpr (Nat.pos_of_ne_zero fun zero =>
      limit.period_ne_zero (UInt64.toNat_inj.mp zero))
  unfold cpuLimitIsTighter CpuLimit.ratio
  rw [decide_eq_true_eq, Nat.mod_eq_of_lt (mul_toNat_lt _ _), Nat.mod_eq_of_lt (mul_toNat_lt _ _),
    div_le_div_iff₀ (positive left) (positive right)]
  exact_mod_cast Iff.rfl

/-! ## The chain of ancestors -/

/-- The loop passes exactly the directories between the group and the mount point. -/
theorem mem_climb (mountPoint path : Place) {p : Place} :
    p ∈ climb mountPoint (path.length + 1) path ↔ mountPoint <+: p ∧ p <+: path := by
  induction path using List.reverseRecOn with
  | nil =>
    have stop : climb mountPoint 1 [] = if mountPoint <+: [] then [[]] else [] := by simp [climb]
    rw [List.length_nil, stop]
    split
    · next below =>
      rw [List.mem_singleton, List.prefix_nil]
      exact ⟨fun same => ⟨same ▸ below, same⟩, fun h => h.2⟩
    · next apart =>
      refine iff_of_false List.not_mem_nil fun h => apart (h.1.trans h.2)
  | append_singleton path name ih =>
    rw [List.length_append, List.length_singleton, climb, List.dropLast_concat]
    split
    · next below =>
      by_cases root : path ++ [name] = mountPoint
      · rw [if_pos (.inl root), List.mem_singleton, root]
        refine ⟨fun same => same ▸ ⟨List.prefix_rfl, List.prefix_rfl⟩, fun h => ?_⟩
        exact h.2.eq_of_length (Nat.le_antisymm h.2.length_le h.1.length_le)
      · have inner : ¬ (path ++ [name] = mountPoint ∨ path ++ [name] = []) := by simp [root]
        rw [if_neg inner, List.mem_cons, ih, List.prefix_concat_iff]
        constructor
        · rintro (rfl | between)
          · exact ⟨below, .inl rfl⟩
          · exact ⟨between.1, .inr between.2⟩
        · rintro ⟨up, rfl | down⟩
          · exact .inl rfl
          · exact .inr ⟨up, down⟩
    · next apart =>
      refine iff_of_false List.not_mem_nil fun h => apart (h.1.trans h.2)

namespace ResourceDomain

variable (domain : ResourceDomain) (files : Place → Contents)

/-- A directory between the group and its mount point, both included. -/
def IsAncestor (path : Place) : Prop := domain.mountPoint <+: path ∧ path <+: domain.current

/-- Every ancestor has a readable file of this name that makes sense; the mount root may have
none. -/
def AllRead {α : Type} (name : String) (parse : Contents → Option α) : Prop :=
  ∀ path, domain.IsAncestor path → parse (files (path.join name)) = none →
    path = domain.mountPoint ∧ files (path.join name) = .missing

/-- The finite limits the ancestors set. -/
def limits {α : Type} (name : String) (parse : Contents → Option (Option α)) : Set α :=
  { limit | ∃ path, domain.IsAncestor path ∧ parse (files (path.join name)) = some (some limit) }

theorem mem_ancestors {path : Place} : path ∈ domain.ancestors ↔ domain.IsAncestor path :=
  mem_climb domain.mountPoint domain.current

@[simp] theorem visitHeadroom_memory (path : Place) (scan : LimitScan) :
    (visitHeadroom files path scan).memory = scan.memory := by
  unfold visitHeadroom
  split
  · split <;> rfl
  · rfl

@[simp] theorem visitHeadroom_cpu (path : Place) (scan : LimitScan) :
    (visitHeadroom files path scan).cpu = scan.cpu := by
  unfold visitHeadroom
  split
  · split <;> rfl
  · rfl

/-- Whether a missing file is excused. -/
def excused (name : String) (path : Place) : Bool :=
  path = domain.mountPoint ∧ files (path.join name) = .missing

/-- The two limits are read by the loop independently of each other. -/
theorem foldl_visit_memory (paths : List Place) (scan : LimitScan) :
    (paths.foldl (domain.visit files) scan).memory =
      paths.foldl (fun so path => so.visit (fun current limit => decide (current ≤ limit))
        (domain.excused files "memory.max" path) (readMemoryLimit (files (path.join "memory.max"))))
        scan.memory := by
  refine (List.foldl_hom LimitScan.memory fun scan path => ?_).symm
  unfold visit
  dsimp only
  rw [visitHeadroom_memory]
  rfl

theorem foldl_visit_cpu (paths : List Place) (scan : LimitScan) :
    (paths.foldl (domain.visit files) scan).cpu =
      paths.foldl (fun so path => so.visit cpuLimitIsTighter (domain.excused files "cpu.max" path)
        (readCpuLimit (files (path.join "cpu.max")))) scan.cpu := by
  refine (List.foldl_hom LimitScan.cpu fun scan path => ?_).symm
  unfold visit
  dsimp only
  rw [visitHeadroom_cpu]
  rfl

/-- What a chain of files says, in terms of the ancestors. -/
theorem reported {α ρ : Type} [LinearOrder ρ] {measure : α → ρ} {name : String}
    {parse : Contents → Option (Option α)} {so : Tightest α}
    (seen : Tightest.Seen measure (fun path => parse (files (path.join name)))
      (domain.excused files name) domain.ancestorLimitsComplete domain.ancestors so) :
    (∀ best, (if so.complete then so.limit else none) = some best →
        (domain.ancestorLimitsComplete = true ∧ domain.AllRead files name parse) ∧
          best ∈ domain.limits files name parse ∧
          ∀ limit ∈ domain.limits files name parse, measure best ≤ measure limit) ∧
      ((if so.complete then so.limit else none) = none ↔
        ¬ (domain.ancestorLimitsComplete = true ∧ domain.AllRead files name parse) ∨
          domain.limits files name parse = ∅) := by
  have complete : so.complete = true ↔
      domain.ancestorLimitsComplete = true ∧ domain.AllRead files name parse := by
    rw [seen.complete]
    refine and_congr_right fun _ => ?_
    simp only [mem_ancestors, excused, decide_eq_true_eq, AllRead]
  have least : ∀ limit ∈ domain.limits files name parse,
      ∃ best, so.limit = some best ∧ measure best ≤ measure limit := by
    rintro limit ⟨path, ancestor, read⟩
    exact seen.least path (domain.mem_ancestors.mpr ancestor) limit read
  have found : ∀ best, so.limit = some best → best ∈ domain.limits files name parse := by
    intro best same
    obtain ⟨path, mem, read⟩ := seen.found best same
    exact ⟨path, domain.mem_ancestors.mp mem, read⟩
  rw [← complete]
  by_cases all : so.complete = true
  · rw [if_pos all]
    refine ⟨fun best same => ⟨all, found best same, fun limit mem => ?_⟩, ?_⟩
    · obtain ⟨_, kept, le⟩ := least limit mem
      rwa [Option.some.inj (same.symm.trans kept)]
    · rw [Set.eq_empty_iff_forall_notMem]
      constructor
      · intro none
        refine .inr fun limit mem => ?_
        obtain ⟨best, kept, -⟩ := least limit mem
        cases none.symm.trans kept
      · rintro (missing | empty)
        · exact absurd all missing
        · exact Option.eq_none_iff_forall_ne_some.mpr fun best same => empty best (found best same)
  · rw [if_neg all]
    exact ⟨fun _ none => (nomatch none), iff_of_true rfl (.inl all)⟩

/-- **The tightest limits.**  The memory limit of a snapshot is the least finite one of the
ancestors and its CPU limit has the least ratio of theirs, compared exactly; each is absent when no
ancestor sets one, when a file could not be read or makes no sense (other than a missing one at the
mount root), and when the mount hides ancestors. -/
theorem snapshot_tightest (domain : ResourceDomain) (files : Place → Contents) :
    (∀ limit, (domain.snapshot files).memoryLimitBytes = some limit ↔
        (domain.ancestorLimitsComplete = true ∧ domain.AllRead files "memory.max" readMemoryLimit) ∧
          IsLeast (domain.limits files "memory.max" readMemoryLimit) limit) ∧
      (∀ limit, (domain.snapshot files).cpuLimit = some limit →
        (domain.ancestorLimitsComplete = true ∧ domain.AllRead files "cpu.max" readCpuLimit) ∧
          limit ∈ domain.limits files "cpu.max" readCpuLimit ∧
          ∀ other ∈ domain.limits files "cpu.max" readCpuLimit, limit.ratio ≤ other.ratio) ∧
      ((domain.snapshot files).cpuLimit = none ↔
        ¬ (domain.ancestorLimitsComplete = true ∧ domain.AllRead files "cpu.max" readCpuLimit) ∨
          domain.limits files "cpu.max" readCpuLimit = ∅) ∧
      ∀ left right, cpuLimitIsTighter left right = true ↔ left.ratio ≤ right.ratio := by
  let scan : LimitScan := domain.ancestors.foldl (domain.visit files)
    { memory := { complete := domain.ancestorLimitsComplete }
      cpu := { complete := domain.ancestorLimitsComplete } }
  have memorySeen :
      Tightest.Seen UInt64.toNat (fun path => readMemoryLimit (files (path.join "memory.max")))
      (domain.excused files "memory.max") domain.ancestorLimitsComplete domain.ancestors
      scan.memory := by
    rw [foldl_visit_memory]
    refine Tightest.seen_foldl (fun a b => ?_) _ _
    rw [decide_eq_true_iff, UInt64.le_iff_toNat_le]
  have cpuSeen :
      Tightest.Seen CpuLimit.ratio (fun path => readCpuLimit (files (path.join "cpu.max")))
      (domain.excused files "cpu.max") domain.ancestorLimitsComplete domain.ancestors scan.cpu := by
    rw [foldl_visit_cpu]
    exact Tightest.seen_foldl cpuLimitIsTighter_iff _ _
  have memory := domain.reported files memorySeen
  have cpu := domain.reported files cpuSeen
  refine ⟨fun limit => ⟨fun kept => ?_, ?_⟩, cpu.1, cpu.2, cpuLimitIsTighter_iff⟩
  · obtain ⟨complete, member, below⟩ := memory.1 limit kept
    exact ⟨complete, member, fun other mem => UInt64.le_iff_toNat_le.mpr (below other mem)⟩
  rintro ⟨complete, mem, least⟩
  cases kept : (domain.snapshot files).memoryLimitBytes with
  | none =>
    rcases memory.2.mp kept with missing | empty
    · exact absurd complete missing
    · exact absurd mem (empty ▸ Set.notMem_empty limit)
  | some best =>
    obtain ⟨-, member, below⟩ := memory.1 best kept
    exact congrArg some (UInt64.le_antisymm (UInt64.le_iff_toNat_le.mpr (below limit mem))
      (least member))

/-- A mount that shows one group, whose memory is limited to 100 bytes. -/
def subtree (complete : Bool) : ResourceDomain :=
  { mountPoint := [], current := [], ancestorLimitsComplete := complete }

def subtreeFiles (file : Place) : Contents :=
  if file = Place.join [] "memory.max" then .text "100\n".toList else .missing

theorem isAncestor_subtree {complete : Bool} {path : Place} :
    (subtree complete).IsAncestor path ↔ path = [] := by
  simp [IsAncestor, subtree]

theorem subtree_limit : readMemoryLimit (subtreeFiles (Place.join [] "memory.max")) =
    some (some 100) := by
  decide +kernel

theorem isLeast_subtree (complete : Bool) :
    IsLeast ((subtree complete).limits subtreeFiles "memory.max" readMemoryLimit) 100 := by
  refine ⟨⟨[], isAncestor_subtree.mpr rfl, subtree_limit⟩, ?_⟩
  rintro limit ⟨path, ancestor, read⟩
  rw [isAncestor_subtree.mp ancestor, subtree_limit] at read
  rw [← Option.some.inj (Option.some.inj read)]
  exact UInt64.le_refl _

theorem allRead_subtree (complete : Bool) :
    (subtree complete).AllRead subtreeFiles "memory.max" readMemoryLimit := by
  intro path ancestor none
  rw [isAncestor_subtree.mp ancestor, subtree_limit] at none
  cases none

/-- The ancestors that a mount hides may set a tighter limit, so the limits that can be seen are
not reported. -/
theorem hidden_ancestors_hide_limits :
    ¬ ∀ (domain : ResourceDomain) (files : Place → Contents),
      domain.AllRead files "memory.max" readMemoryLimit →
        ∀ limit, IsLeast (domain.limits files "memory.max" readMemoryLimit) limit →
          (domain.snapshot files).memoryLimitBytes = some limit := by
  intro reports
  have reported :=
    reports (subtree false) subtreeFiles (allRead_subtree false) 100 (isLeast_subtree false)
  have absent : ((subtree false).snapshot subtreeFiles).memoryLimitBytes = none := by decide +kernel
  cases absent.symm.trans reported

end ResourceDomain

end Kache.Scheduler
