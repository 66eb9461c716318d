import Kache.Foundation.Grouping
import Kache.Foundation.StableSort
import Mathlib.Data.Prod.Lex
import Mathlib.Data.String.Basic

/-!
# Eviction policies

A policy is a function from the features of the entries to the keys to evict, the worst first; it
removes nothing itself.  The score of the size policy is a floating-point number and so is the idle
time it is computed from.  The duplicate policy only compares idle times, and is given here for
every linear order of them.
-/

namespace Kache.Eviction

universe u

/-- `EntryFeatures`: what a policy sees of one entry. -/
structure EntryFeatures (τ : Type u) where
  key : String
  size : ℤ
  hitCount : ℤ
  /-- Hours since `last_accessed`. -/
  idleHours : τ
  contentHash : Option String
  committed : Bool
  compileTimeMs : ℤ
  /-- The bytes evicting the entry would free, `none` if the entry has no mapping. -/
  reclaimableBytes : Option ℤ
  recentlyAccessed : Bool
  recentlyImported : Bool

/-! ## The size policy -/

/-- `EVICT_TARGET_PERCENT`. -/
def evictTargetPercent : ℕ := 90

/-- `eviction_target`: the size a sweep evicts down to. -/
def evictionTarget (maxSize : ℕ) : ℕ := maxSize * evictTargetPercent / 100

/-- `over_eviction_trigger`: whether a sweep fires. -/
def overEvictionTrigger (physicalSize maxSize : ℕ) : Bool := physicalSize > maxSize

/-- `size_pressure_score`: the lower, the sooner evicted. -/
def sizePressureScore (e : EntryFeatures Float) : Float :=
  let idle := max e.idleHours 0.01
  let bytes := e.reclaimableBytes.getD e.size
  let sizeMb := max (Float.ofInt bytes / 1048576.0) 0.001
  (Float.ofInt e.hitCount + 1.0) / (idle * sizeMb)

/-- `SizePressurePolicy::select`: every key, ranked. -/
def sizePressureSelect (candidates : List (EntryFeatures Float)) : List String :=
  (candidates.mergeSort fun a b => !(sizePressureScore b < sizePressureScore a)).map (·.key)

/-- The ranking is of all the keys. -/
theorem sizePressureSelect_perm (candidates : List (EntryFeatures Float)) :
    (sizePressureSelect candidates).Perm (candidates.map (·.key)) :=
  (List.mergeSort_perm candidates _).map _

/-! ## The duplicate policy -/

section Duplicates

variable {τ : Type u}

/-- The group of an entry: the content hash, if it is committed and has one. -/
def duplicateGroup (e : EntryFeatures τ) : Option String :=
  if e.committed then e.contentHash else none

theorem duplicateGroup_eq_some {e : EntryFeatures τ} {hash : String} :
    duplicateGroup e = some hash ↔ e.committed = true ∧ e.contentHash = some hash := by
  unfold duplicateGroup
  split
  · next committed => simp [committed]
  · next uncommitted => simp [uncommitted]

/-- With distinct keys a key has one entry. -/
theorem eq_of_key_eq {candidates : List (EntryFeatures τ)}
    (distinct : (candidates.map (·.key)).Nodup) {e f : EntryFeatures τ}
    (he : e ∈ candidates) (hf : f ∈ candidates) (same : e.key = f.key) : e = f :=
  List.inj_on_of_nodup_map distinct he hf same

variable [LinearOrder τ]

/-- The one pass of the policy: per content hash the number of entries (`counts`) and the idle time
of the last accessed one (`newest`). -/
def duplicateGroups (candidates : List (EntryFeatures τ)) : Groups String τ :=
  Groups.collect duplicateGroup (·.idleHours) candidates

/-- The filter of the policy. -/
def duplicateEligible (groups : Groups String τ) (e : EntryFeatures τ) : Bool :=
  match duplicateGroup e with
  | none => false
  | some hash =>
    e.reclaimableBytes.any (0 < ·) && (1 < groups.count hash) &&
      (groups.least hash).any (· < e.idleHours)

/-- The order of the victims: the stalest first, then by key. -/
def duplicateOrder (e : EntryFeatures τ) : τᵒᵈ ×ₗ String :=
  toLex (OrderDual.toDual e.idleHours, e.key)

/-- `DuplicatePolicy::select`. -/
def duplicateSelect (candidates : List (EntryFeatures τ)) : List String :=
  (sortByKey duplicateOrder
    (candidates.filter (duplicateEligible (duplicateGroups candidates)))).map (·.key)

/-- An entry that `select` may return. -/
theorem duplicateEligible_eq_true {groups : Groups String τ} {e : EntryFeatures τ} :
    duplicateEligible groups e = true ↔
      ∃ hash, duplicateGroup e = some hash ∧
        (∃ bytes, e.reclaimableBytes = some bytes ∧ 0 < bytes) ∧
        1 < groups.count hash ∧ ∃ newest, groups.least hash = some newest ∧
          newest < e.idleHours := by
  unfold duplicateEligible
  cases duplicateGroup e with
  | none => simp
  | some hash => simp [Option.any_eq_true, and_assoc]

/-- What is selected. -/
theorem mem_duplicateSelect {candidates : List (EntryFeatures τ)} {key : String} :
    key ∈ duplicateSelect candidates ↔
      ∃ e ∈ candidates, e.key = key ∧ duplicateEligible (duplicateGroups candidates) e = true := by
  rw [duplicateSelect, List.mem_map]
  constructor
  · rintro ⟨e, mem, rfl⟩
    obtain ⟨inside, eligible⟩ := List.mem_filter.mp ((sortByKey_perm _ _).mem_iff.mp mem)
    exact ⟨e, inside, rfl, eligible⟩
  · rintro ⟨e, inside, rfl, eligible⟩
    exact ⟨e, (sortByKey_perm _ _).mem_iff.mpr (List.mem_filter.mpr ⟨inside, eligible⟩), rfl⟩

/-- A selected entry is idle for longer than some entry of its group. -/
theorem exists_fresher_of_eligible {candidates : List (EntryFeatures τ)} {e : EntryFeatures τ}
    (eligible : duplicateEligible (duplicateGroups candidates) e = true) :
    ∃ hash, duplicateGroup e = some hash ∧ ∃ f ∈ candidates, duplicateGroup f = some hash ∧
      f.idleHours < e.idleHours ∧
      ∀ g ∈ candidates, duplicateGroup g = some hash → f.idleHours ≤ g.idleHours := by
  obtain ⟨hash, grouped, -, -, newest, least, fresher⟩ := duplicateEligible_eq_true.mp eligible
  obtain ⟨⟨f, mem, grouped', rfl⟩, below⟩ := Groups.least_collect_eq_some least
  exact ⟨hash, grouped, f, mem, grouped', fresher, below⟩

variable {candidates : List (EntryFeatures τ)}

/-- **The most recently accessed entries of a group are not selected.** -/
theorem notMem_duplicateSelect_of_least (distinct : (candidates.map (·.key)).Nodup)
    {e : EntryFeatures τ} (mem : e ∈ candidates) {hash : String}
    (grouped : duplicateGroup e = some hash)
    (least : ∀ g ∈ candidates, duplicateGroup g = some hash → e.idleHours ≤ g.idleHours) :
    e.key ∉ duplicateSelect candidates := by
  intro selected
  obtain ⟨e', mem', same, eligible⟩ := mem_duplicateSelect.mp selected
  cases eq_of_key_eq distinct mem' mem same
  obtain ⟨hash', grouped', f, memF, groupedF, fresher, -⟩ := exists_fresher_of_eligible eligible
  cases grouped.symm.trans grouped'
  exact absurd fresher (not_lt.mpr (least f memF groupedF))

/-- The keys of a selection are distinct. -/
theorem nodup_duplicateSelect (distinct : (candidates.map (·.key)).Nodup) :
    (duplicateSelect candidates).Nodup := by
  have filtered : ((candidates.filter
      (duplicateEligible (duplicateGroups candidates))).map (·.key)).Nodup :=
    distinct.sublist (List.filter_sublist.map _)
  exact ((sortByKey_perm duplicateOrder _).map _).nodup_iff.mpr filtered

/-- The order of the entries is of no account. -/
theorem duplicateSelect_perm (distinct : (candidates.map (·.key)).Nodup)
    {other : List (EntryFeatures τ)} (perm : other.Perm candidates) :
    duplicateSelect other = duplicateSelect candidates := by
  have groups : duplicateGroups other = duplicateGroups candidates := Groups.collect_perm perm
  have sorted := sortByKey_eq_of_perm
    (perm.filter (duplicateEligible (duplicateGroups candidates))) fun a ha b hb same =>
      eq_of_key_eq distinct (perm.mem_iff.mp (List.mem_filter.mp ha).1)
        (perm.mem_iff.mp (List.mem_filter.mp hb).1)
        (congrArg (fun order : τᵒᵈ ×ₗ String => (ofLex order).2)
          (show duplicateOrder a = duplicateOrder b from same))
  rw [duplicateSelect, duplicateSelect, groups, sorted]

/-- **Duplicate eviction keeps a survivor.**  Whatever is removed of a selection, every group keeps
its most recently accessed entries. -/
theorem duplicates_keep_a_survivor (candidates : List (EntryFeatures τ))
    (distinct : (candidates.map (·.key)).Nodup) :
    (duplicateSelect candidates).Nodup ∧
    (∀ other : List (EntryFeatures τ), other.Perm candidates →
      duplicateSelect other = duplicateSelect candidates) ∧
    (∀ key ∈ duplicateSelect candidates, ∃ e ∈ candidates, e.key = key ∧ e.committed = true ∧
      e.contentHash.isSome = true ∧ ∃ bytes, e.reclaimableBytes = some bytes ∧ 0 < bytes) ∧
    ∀ removed : List String, removed ⊆ duplicateSelect candidates →
      (∀ hash, ∀ e ∈ candidates, e.committed = true → e.contentHash = some hash →
        (∀ g ∈ candidates, g.committed = true → g.contentHash = some hash →
          e.idleHours ≤ g.idleHours) → e.key ∉ removed) ∧
      (∀ hash, (∃ e ∈ candidates, e.committed = true ∧ e.contentHash = some hash) →
        ∃ e ∈ candidates, e.committed = true ∧ e.contentHash = some hash ∧ e.key ∉ removed) ∧
      ∀ e ∈ candidates, e.key ∈ removed → ∃ f ∈ candidates, f.committed = true ∧
        f.contentHash = e.contentHash ∧ f.key ∉ removed ∧ f.idleHours < e.idleHours := by
  refine ⟨nodup_duplicateSelect distinct, fun _ => duplicateSelect_perm distinct, ?_, ?_⟩
  · intro key selected
    obtain ⟨e, mem, same, eligible⟩ := mem_duplicateSelect.mp selected
    obtain ⟨hash, grouped, reclaims, -⟩ := duplicateEligible_eq_true.mp eligible
    obtain ⟨committed, hashed⟩ := duplicateGroup_eq_some.mp grouped
    exact ⟨e, mem, same, committed, hashed ▸ rfl, reclaims⟩
  · intro removed selected
    have kept : ∀ hash, ∀ e ∈ candidates, e.committed = true → e.contentHash = some hash →
        (∀ g ∈ candidates, g.committed = true → g.contentHash = some hash →
          e.idleHours ≤ g.idleHours) → e.key ∉ removed := by
      intro hash e mem committed hashed least gone
      have grouped := duplicateGroup_eq_some.mpr ⟨committed, hashed⟩
      refine notMem_duplicateSelect_of_least distinct mem grouped ?_ (selected gone)
      intro g memG groupedG
      obtain ⟨committedG, hashedG⟩ := duplicateGroup_eq_some.mp groupedG
      exact least g memG committedG hashedG
    refine ⟨kept, ?_, ?_⟩
    · rintro hash ⟨e, mem, committed, hashed⟩
      -- the pass has found the least idle time of the group, and an entry with it
      cases found : (duplicateGroups candidates).least hash with
      | none =>
        exact absurd (duplicateGroup_eq_some.mpr ⟨committed, hashed⟩)
          (Groups.least_collect_eq_none.mp found e mem)
      | some newest =>
        obtain ⟨⟨f, memF, groupedF, rfl⟩, below⟩ := Groups.least_collect_eq_some found
        obtain ⟨committedF, hashedF⟩ := duplicateGroup_eq_some.mp groupedF
        exact ⟨f, memF, committedF, hashedF, kept hash f memF committedF hashedF
          fun g memG committedG hashedG =>
            below g memG (duplicateGroup_eq_some.mpr ⟨committedG, hashedG⟩)⟩
    · intro e mem gone
      obtain ⟨e', mem', same, eligible⟩ := mem_duplicateSelect.mp (selected gone)
      cases eq_of_key_eq distinct mem' mem same
      obtain ⟨hash, grouped, f, memF, groupedF, fresher, below⟩ :=
        exists_fresher_of_eligible eligible
      obtain ⟨committedF, hashedF⟩ := duplicateGroup_eq_some.mp groupedF
      obtain ⟨-, hashed⟩ := duplicateGroup_eq_some.mp grouped
      refine ⟨f, memF, committedF, hashedF.trans hashed.symm, ?_, fresher⟩
      exact kept hash f memF committedF hashedF fun g memG committedG hashedG =>
        below g memG (duplicateGroup_eq_some.mpr ⟨committedG, hashedG⟩)

end Duplicates

/-- Of two entries with one content the stale one goes. -/
theorem duplicates_keep_a_survivor_of_two :
    let entry (key : String) (idle : ℕ) : EntryFeatures ℕ :=
      ⟨key, 10, 0, idle, some "content", true, 0, some 10, false, false⟩
    duplicateSelect [entry "fresh" 1, entry "stale" 9] = ["stale"] ∧
      "fresh" ∉ ["stale"] ∧ (duplicateSelect [entry "fresh" 1, entry "stale" 9]).Nodup := by
  intro entry
  have run : duplicateSelect [entry "fresh" 1, entry "stale" 9] = ["stale"] := by decide +kernel
  obtain ⟨nodup, -, -, removed⟩ :=
    duplicates_keep_a_survivor [entry "fresh" 1, entry "stale" 9] (by decide)
  obtain ⟨kept, -, -⟩ := removed ["stale"] (by simp [run])
  exact ⟨run, kept "content" (entry "fresh" 1) (by simp) rfl rfl (by simp [entry]), nodup⟩

end Kache.Eviction
