import Kache.Foundation.Hexadecimal
import Kache.Foundation.SortedMap
import Kache.Remote.Catalog
import Kache.Remote.PackRoundTrip
import Mathlib.Data.Set.Function

/-!
# Selectors of dependency sets

`shards.rs` spreads the dependencies of a Cargo.lock over 64 buckets by the hash of their names and
hashes the sorted text of each bucket.  `selector_hash` hashes these shard hashes, sorted, behind
the manifest key, the namespace and the key schema, and catalogs of packs are looked up under the
result.

Collisions are ruled out only among the texts that are hashed for the selectors in question
(`hashedTexts`): digests have 32 bytes, so no hash function is free of them altogether.
-/

namespace Kache.Pack

/-! ## Shards -/

/-- A dependency: the name of a crate and its version. -/
abbrev Dependency := String × String

/-- `NUM_SHARDS`. -/
def numShards : ℕ := 64

/-- `ShardSet`. -/
structure ShardSet where
  shards : List (String × List Dependency)
  deriving DecidableEq, Repr

/-- The bucket of a crate. -/
def bucketOf (blake3 : Bytes → Bytes) (name : String) : ℕ :=
  leValue ((blake3 (utf8 name)).take 8) % numShards

/-- The text of a bucket: `name1@v1|name2@v2|…`. -/
def shardContent (entries : List Dependency) : String :=
  "|".intercalate (entries.map fun entry => entry.1 ++ "@" ++ entry.2)

/-- `entries.sort()`. -/
def sortEntries (entries : List Dependency) : List Dependency :=
  sortByKey (fun entry => toLex entry) entries

/-- The buckets of a dependency list. -/
def buckets (blake3 : Bytes → Bytes) (deps : List Dependency) : SortedMap ℕ (List Dependency) :=
  SortedMap.bucketed (fun dep => bucketOf blake3 dep.1) deps

/-- The shard of a bucket: the hash of its text, and its entries. -/
def shardOf (blake3 : Bytes → Bytes) (entries : List Dependency) : String × List Dependency :=
  (blake3Hex blake3 (utf8 (shardContent (sortEntries entries))), sortEntries entries)

/-- `compute_shards`. -/
def computeShards (blake3 : Bytes → Bytes) (deps : List Dependency) : ShardSet :=
  ⟨(buckets blake3 deps).entries.map fun bucket => shardOf blake3 bucket.2⟩

/-- The hashes of the shards of a dependency list. -/
def shardHashes (blake3 : Bytes → Bytes) (deps : List Dependency) : List String :=
  (computeShards blake3 deps).shards.map (·.1)

/-! ### The text of a bucket -/

/-- Neither the name nor the version has one of the separators in it. -/
def Dependency.Plain (dep : Dependency) : Prop :=
  '@' ∉ dep.1.toList ∧ '|' ∉ dep.1.toList ∧ '@' ∉ dep.2.toList ∧ '|' ∉ dep.2.toList

instance (dep : Dependency) : Decidable dep.Plain :=
  inferInstanceAs
    (Decidable ('@' ∉ dep.1.toList ∧ '|' ∉ dep.1.toList ∧ '@' ∉ dep.2.toList ∧ '|' ∉ dep.2.toList))

/-- A dependency as it stands in the text. -/
def Dependency.written (dep : Dependency) : List Char := dep.1.toList ++ '@' :: dep.2.toList

theorem Dependency.written_injective {a b : Dependency} (plain : a.Plain)
    (same : a.written = b.written) : a = b := by
  obtain ⟨name, -, version⟩ := (List.append_cons_inj_of_notMem plain.1 plain.2.2.1).mp same
  exact Prod.ext (String.toList_inj.mp name) (String.toList_inj.mp version)

theorem map_written_injective {a b : List Dependency} (plain : ∀ dep ∈ a, dep.Plain)
    (same : a.map Dependency.written = b.map Dependency.written) : a = b := by
  induction a generalizing b with
  | nil => exact (List.map_eq_nil_iff.mp same.symm).symm
  | cons dep a ih =>
    obtain ⟨other, b, rfl, first, rest⟩ := List.map_eq_cons_iff.mp same.symm
    obtain ⟨here, others⟩ := List.forall_mem_cons.mp plain
    rw [Dependency.written_injective here first.symm, ih others rest.symm]

theorem toList_shardContent (entries : List Dependency) :
    (shardContent entries).toList = ['|'].intercalate (entries.map Dependency.written) := by
  rw [shardContent, String.toList_intercalate, List.map_map]
  refine congrArg _ (List.map_congr_left fun entry _ => ?_)
  simp [Dependency.written]

/-- The text of a bucket determines its entries. -/
theorem shardContent_injective {a b : List Dependency} (plainA : ∀ dep ∈ a, dep.Plain)
    (plainB : ∀ dep ∈ b, dep.Plain)
    (nonemptyA : a ≠ []) (nonemptyB : b ≠ []) (same : shardContent a = shardContent b) : a = b := by
  have bar : ∀ {l : List Dependency}, (∀ dep ∈ l, dep.Plain) → ∀ piece ∈ l.map Dependency.written,
      '|' ∉ piece := by
    intro l plain piece mem inside
    obtain ⟨dep, there, rfl⟩ := List.mem_map.mp mem
    obtain ⟨-, inName, -, inVersion⟩ := plain dep there
    rcases List.mem_append.mp inside with inside | inside
    · exact inName inside
    · exact inVersion (List.mem_of_ne_of_mem (by decide) inside)
  have texts := congrArg String.toList same
  rw [toList_shardContent, toList_shardContent] at texts
  have pieces := congrArg (List.splitOn '|') texts
  rw [List.splitOn_intercalate _ (bar plainA) (by simpa using nonemptyA),
    List.splitOn_intercalate _ (bar plainB) (by simpa using nonemptyB)] at pieces
  exact map_written_injective plainA pieces

theorem sortEntries_perm (entries : List Dependency) : (sortEntries entries).Perm entries :=
  sortByKey_perm _ entries

theorem sortEntries_eq_of_perm {a b : List Dependency} (perm : a.Perm b) :
    sortEntries a = sortEntries b :=
  sortByKey_eq_of_perm perm fun _ _ _ _ same => toLex_inj.mp same

theorem blake3_eq_of_hex {blake3 : Bytes → Bytes} {a b : Bytes}
    (same : blake3Hex blake3 a = blake3Hex blake3 b) : blake3 a = blake3 b := by
  have digits : ∀ m < 16, ∀ n < 16, Memo.hexDigit m = Memo.hexDigit n → m = n := by decide
  exact flatMap_digits_injective digits (String.ofList_injective same)

/-! ### The shards of a list -/

section Shards

variable {blake3 : Bytes → Bytes} {deps deps' : List Dependency}

/-- The dependencies in a bucket. -/
def inBucket (blake3 : Bytes → Bytes) (deps : List Dependency) (b : ℕ) : List Dependency :=
  deps.filter fun dep => bucketOf blake3 dep.1 = b

theorem mem_buckets {b : ℕ} {entries : List Dependency} :
    (b, entries) ∈ (buckets blake3 deps).entries ↔ entries = inBucket blake3 deps b ∧
      entries ≠ [] :=
  SortedMap.mem_entries_bucketed _

theorem mem_shards {shard : String × List Dependency} : shard ∈ (computeShards blake3 deps).shards ↔
    ∃ b, inBucket blake3 deps b ≠ [] ∧ shard = shardOf blake3 (inBucket blake3 deps b) := by
  constructor
  · intro mem
    obtain ⟨⟨b, entries⟩, there, rfl⟩ := List.mem_map.mp mem
    obtain ⟨rfl, nonempty⟩ := mem_buckets.mp there
    exact ⟨b, nonempty, rfl⟩
  · rintro ⟨b, nonempty, rfl⟩
    exact List.mem_map.mpr ⟨(b, inBucket blake3 deps b), mem_buckets.mpr ⟨rfl, nonempty⟩, rfl⟩

theorem bucketOf_of_mem {b : ℕ} {dep : Dependency} (mem : dep ∈ inBucket blake3 deps b) :
    bucketOf blake3 dep.1 = b := by
  simpa using (List.mem_filter.mp mem).2

/-- The texts that are hashed for the shards of a list. -/
def shardTexts (blake3 : Bytes → Bytes) (deps : List Dependency) : List Bytes :=
  (computeShards blake3 deps).shards.map fun shard => utf8 (shardContent shard.2)

theorem mem_shardTexts {b : ℕ} (nonempty : inBucket blake3 deps b ≠ []) :
    utf8 (shardContent (sortEntries (inBucket blake3 deps b))) ∈ shardTexts blake3 deps :=
  List.mem_map.mpr ⟨shardOf blake3 (inBucket blake3 deps b), mem_shards.mpr ⟨b, nonempty, rfl⟩, rfl⟩

/-- The hash of a shard determines its bucket and what is in it. -/
theorem perm_of_hash_eq {texts : Set Bytes} (free : Set.InjOn blake3 texts)
    (hashed : ∀ text ∈ shardTexts blake3 deps, text ∈ texts)
    (hashed' : ∀ text ∈ shardTexts blake3 deps', text ∈ texts)
    (plain : ∀ dep ∈ deps, dep.Plain) (plain' : ∀ dep ∈ deps', dep.Plain) {b b' : ℕ}
    (nonempty : inBucket blake3 deps b ≠ []) (nonempty' : inBucket blake3 deps' b' ≠ [])
    (same : (shardOf blake3 (inBucket blake3 deps b)).1 =
      (shardOf blake3 (inBucket blake3 deps' b')).1) :
    b = b' ∧ (inBucket blake3 deps b).Perm (inBucket blake3 deps' b') := by
  have texts := free (hashed _ (mem_shardTexts nonempty)) (hashed' _ (mem_shardTexts nonempty'))
    (blake3_eq_of_hex same)
  have sorted : ∀ {deps : List Dependency} {b : ℕ}, (∀ dep ∈ deps, dep.Plain) →
      ∀ dep ∈ sortEntries (inBucket blake3 deps b), dep.Plain := fun plain dep mem =>
    plain dep (List.mem_filter.mp ((sortEntries_perm _).mem_iff.mp mem)).1
  have nonnil : ∀ {entries : List Dependency}, entries ≠ [] → sortEntries entries ≠ [] :=
    fun some none =>
    some (List.Perm.eq_nil (none ▸ (sortEntries_perm _).symm))
  have entries := shardContent_injective (sorted plain) (sorted plain') (nonnil nonempty)
    (nonnil nonempty') (utf8_injective texts)
  have perm : (inBucket blake3 deps b).Perm (inBucket blake3 deps' b') :=
    (sortEntries_perm _).symm.trans (entries ▸ sortEntries_perm _)
  obtain ⟨dep, mem⟩ := List.exists_mem_of_ne_nil _ nonempty
  exact ⟨(bucketOf_of_mem mem).symm.trans (bucketOf_of_mem (perm.mem_iff.mp mem)), perm⟩

/-- Different buckets have different hashes. -/
theorem nodup_shardHashes (free : Set.InjOn blake3 {text | text ∈ shardTexts blake3 deps})
    (plain : ∀ dep ∈ deps, dep.Plain) : (shardHashes blake3 deps).Nodup := by
  rw [shardHashes, computeShards, List.map_map]
  refine List.Nodup.map_on ?_ (List.Nodup.of_map Prod.fst (buckets blake3 deps).nodup_keys)
  rintro ⟨b, entries⟩ mem ⟨b', entries'⟩ mem' same
  obtain ⟨rfl, nonempty⟩ := mem_buckets.mp mem
  obtain ⟨rfl, nonempty'⟩ := mem_buckets.mp mem'
  obtain ⟨rfl, -⟩ := perm_of_hash_eq free (fun _ text => text)
    (fun _ text => text) plain plain nonempty nonempty' same
  rfl

theorem inBucket_perm (perm : deps.Perm deps') (b : ℕ) :
    (inBucket blake3 deps b).Perm (inBucket blake3 deps' b) :=
  perm.filter _

/-- A bucket with the same dependencies is the same shard. -/
theorem mem_shards_of_perm {b : ℕ} (perm : (inBucket blake3 deps b).Perm (inBucket blake3 deps' b))
    (nonempty : inBucket blake3 deps b ≠ []) :
    shardOf blake3 (inBucket blake3 deps b) ∈ (computeShards blake3 deps').shards := by
  refine mem_shards.mpr ⟨b, fun none => nonempty (List.Perm.eq_nil (none ▸ perm)), ?_⟩
  rw [shardOf, shardOf, sortEntries_eq_of_perm perm]

theorem shardHashes_subset_of_perm (perm : deps.Perm deps') :
    shardHashes blake3 deps ⊆ shardHashes blake3 deps' := by
  intro hash mem
  obtain ⟨shard, there, rfl⟩ := List.mem_map.mp mem
  obtain ⟨b, nonempty, rfl⟩ := mem_shards.mp there
  exact List.mem_map_of_mem (mem_shards_of_perm (inBucket_perm perm b) nonempty)

/-- **Shard hashes identify dependency lists** up to the order. -/
theorem shardHashes_perm_iff {texts : Set Bytes} (free : Set.InjOn blake3 texts)
    (hashed : ∀ text ∈ shardTexts blake3 deps, text ∈ texts)
    (hashed' : ∀ text ∈ shardTexts blake3 deps', text ∈ texts)
    (plain : ∀ dep ∈ deps, dep.Plain) (plain' : ∀ dep ∈ deps', dep.Plain) :
    (shardHashes blake3 deps).Perm (shardHashes blake3 deps') ↔ deps.Perm deps' := by
  constructor
  · intro hashes
    rw [List.perm_iff_count]
    intro dep
    -- only the bucket of the dependency matters
    have counted : ∀ deps : List Dependency,
        deps.count dep = (inBucket blake3 deps (bucketOf blake3 dep.1)).count dep := fun deps =>
      (List.count_filter (by simp)).symm
    have transfer : ∀ {a c : List Dependency}, shardHashes blake3 a ⊆ shardHashes blake3 c →
        (∀ text ∈ shardTexts blake3 a, text ∈ texts) →
        (∀ text ∈ shardTexts blake3 c, text ∈ texts) →
        (∀ dep ∈ a, dep.Plain) → (∀ dep ∈ c, dep.Plain) → ∀ b, inBucket blake3 a b ≠ [] →
        (inBucket blake3 a b).Perm (inBucket blake3 c b) := by
      intro a c subset inA inC plainA plainC b nonempty
      have mem := subset (List.mem_map_of_mem (mem_shards.mpr ⟨b, nonempty, rfl⟩))
      obtain ⟨shard, there, same⟩ := List.mem_map.mp mem
      obtain ⟨b', nonempty', rfl⟩ := mem_shards.mp there
      obtain ⟨rfl, perm⟩ := perm_of_hash_eq free inA inC plainA plainC nonempty nonempty' same.symm
      exact perm
    rw [counted deps, counted deps']
    by_cases nonempty : inBucket blake3 deps (bucketOf blake3 dep.1) = []
    · by_cases nonempty' : inBucket blake3 deps' (bucketOf blake3 dep.1) = []
      · rw [nonempty, nonempty']
      · exact ((transfer hashes.symm.subset hashed' hashed plain' plain _ nonempty').count_eq
          dep).symm
    · exact (transfer hashes.subset hashed hashed' plain plain' _ nonempty).count_eq dep
  · intro perm
    have free' : Set.InjOn blake3 {text | text ∈ shardTexts blake3 deps} := free.mono hashed
    have free'' : Set.InjOn blake3 {text | text ∈ shardTexts blake3 deps'} := free.mono hashed'
    rw [List.perm_ext_iff_of_nodup (nodup_shardHashes free' plain)
      (nodup_shardHashes free'' plain')]
    exact fun hash => ⟨fun mem => shardHashes_subset_of_perm perm mem,
      fun mem => shardHashes_subset_of_perm perm.symm mem⟩

/-- **Insertion stability.**  Lists that differ in one crate have the same shards, but for the
bucket of that crate. -/
theorem shards_stable {name : String}
    (others : (deps.filter fun dep => dep.1 ≠ name).Perm (deps'.filter fun dep => dep.1 ≠ name))
    {shard : String × List Dependency} (mem : shard ∈ (computeShards blake3 deps).shards)
    (new : shard ∉ (computeShards blake3 deps').shards) :
    shard = shardOf blake3 (inBucket blake3 deps (bucketOf blake3 name)) := by
  obtain ⟨b, nonempty, rfl⟩ := mem_shards.mp mem
  by_cases own : b = bucketOf blake3 name
  · rw [own]
  · -- in another bucket every dependency has another name
    have apart : ∀ deps : List Dependency,
        inBucket blake3 deps b = inBucket blake3 (deps.filter fun dep => dep.1 ≠ name) b := by
      intro deps
      rw [inBucket, inBucket, List.filter_filter]
      refine List.filter_congr fun dep _ => ?_
      by_cases there : bucketOf blake3 dep.1 = b
      · have other : dep.1 ≠ name := fun same => own (there ▸ same ▸ rfl)
        simp [there, other]
      · simp [there]
    refine absurd (mem_shards_of_perm ?_ nonempty) new
    rw [apart deps, apart deps']
    exact inBucket_perm others b

end Shards

/-! ## Selectors -/

/-- What `selector_hash` hashes. -/
def selectorText (manifestKey nameSpace : String) (shards : List String) (keySchema : ℕ) : Bytes :=
  utf8 "kache-prefetch-selector-v1" ++ hashField (utf8 manifestKey) ++
    hashField (utf8 nameSpace) ++ leBytes 4 keySchema ++ leBytes 8 shards.length ++
    shards.flatMap fun shard => hashField (utf8 shard)

theorem hasEqualNeighbours_of_nodup {l : List String} (nodup : l.Nodup) :
    hasEqualNeighbours l = false := by
  induction l using hasEqualNeighbours.induct with
  | case1 a b rest ih =>
    obtain ⟨fresh, tail⟩ := List.nodup_cons.mp nodup
    rw [hasEqualNeighbours, ih tail, Bool.or_false, beq_eq_false_iff_ne]
    exact fun same => fresh (same ▸ List.mem_cons_self)
  | case2 l short =>
    rw [hasEqualNeighbours]
    exact short

theorem length_utf8 (s : String) : (utf8 s).length = (s.toList.map Char.utf8Size).sum := by
  rw [utf8, List.length_flatMap]
  refine congrArg List.sum (List.map_congr_left fun c _ => ?_)
  exact String.length_utf8EncodeChar c

theorem length_utf8_of_valid {digest : String} (valid : isValidCacheKey digest = true) :
    (utf8 digest).length < 256 ^ 8 := by
  rw [isValidCacheKey, Bool.and_eq_true, beq_iff_eq, List.all_eq_true] at valid
  have ones : digest.toList.map Char.utf8Size = digest.toList.map fun _ => 1 :=
    List.map_congr_left fun c mem => utf8Size_of_isLowerHexDigit (valid.2 c mem)
  rw [length_utf8, ones, List.map_const', List.sum_replicate_nat, String.length_toList, valid.1]
  decide

theorem selfDelimiting_hashField :
    SelfDelimiting (fun s : String => (utf8 s).length < 256 ^ 8) fun s => hashField (utf8 s) := by
  intro x y fits fits' s t same
  obtain ⟨texts, rest⟩ := selfDelimiting_framed 8 fits fits' same
  exact ⟨utf8_injective texts, rest⟩

theorem validateSelectorText_eq_ok {label : SelectorText} {value : String} {u : Unit} :
    validateSelectorText label value = .ok u ↔
      value ≠ "" ∧ (utf8 value).length ≤ maxSelectorTextBytes ∧
        value.toList.any isControl = false := by
  rw [validateSelectorText, bailIf_eq_ok]
  simp only [not_or, not_lt, Bool.not_eq_true, ne_eq]

theorem length_of_validateSelectorText {label : SelectorText} {value : String} {u : Unit}
    (valid : validateSelectorText label value = .ok u) : (utf8 value).length < 256 ^ 8 := by
  have short := (validateSelectorText_eq_ok.mp valid).2.1
  exact lt_of_le_of_lt short (by decide)

theorem selectorHash_eq {blake3 : Bytes → Bytes} {manifestKey nameSpace : String}
    {shards : List String}
    {keySchema : ℕ} (key : validateSelectorText .manifestKey manifestKey = .ok ())
    (space : validateSelectorText .nameSpace nameSpace = .ok ()) (nodup : shards.Nodup)
    (digests : ∀ shard ∈ shards, isValidCacheKey shard = true) :
    selectorHash blake3 manifestKey nameSpace shards keySchema =
      .ok (blake3Hex blake3
          (selectorText manifestKey nameSpace (sortByKey id shards) keySchema)) := by
  have sorted := sortByKey_perm id shards
  have distinct : hasEqualNeighbours (sortByKey id shards) = false :=
    hasEqualNeighbours_of_nodup (sorted.nodup_iff.mpr nodup)
  refine bind_eq_ok.mpr
    ⟨(), key, bind_eq_ok.mpr ⟨(), space, bind_eq_ok.mpr ⟨(), ?_, bind_eq_ok.mpr ⟨(), ?_, rfl⟩⟩⟩⟩
  · exact bailIf_eq_ok.mpr (by simp [distinct])
  · refine forM_eq_ok.mpr fun shard mem => bailIf_eq_ok.mpr ?_
    simp [digests shard (sorted.mem_iff.mp mem)]

/-- The hashed text determines what it was made of. -/
theorem selectorText_injective {key key' space space' : String} {shards shards' : List String}
    {schema schema' : ℕ}
    (keyFits : (utf8 key).length < 256 ^ 8) (keyFits' : (utf8 key').length < 256 ^ 8)
    (spaceFits : (utf8 space).length < 256 ^ 8) (spaceFits' : (utf8 space').length < 256 ^ 8)
    (schemaFits : schema < 256 ^ 4) (schemaFits' : schema' < 256 ^ 4)
    (digests : ∀ shard ∈ shards, (utf8 shard).length < 256 ^ 8)
    (digests' : ∀ shard ∈ shards', (utf8 shard).length < 256 ^ 8)
    (same : selectorText key space shards schema = selectorText key' space' shards' schema') :
    key = key' ∧ space = space' ∧ schema = schema' ∧ shards = shards' := by
  simp only [selectorText, List.append_assoc] at same
  obtain ⟨rfl, rest⟩ := selfDelimiting_hashField keyFits keyFits' (List.append_cancel_left same)
  obtain ⟨rfl, afterSpace⟩ := selfDelimiting_hashField spaceFits spaceFits' rest
  obtain ⟨rfl, afterSchema⟩ := selfDelimiting_leBytes 4 schemaFits schemaFits' afterSpace
  -- the count of the shards is of one width, and the shards end by themselves
  obtain ⟨-, listed⟩ := List.append_inj afterSchema (by rw [length_leBytes, length_leBytes])
  have nonempty : ∀ s : String, hashField (utf8 s) ≠ [] := fun s none => by
    have length := congrArg List.length none
    rw [hashField, List.length_append, length_leBytes] at length
    cases Nat.add_comm _ _ ▸ length
  exact ⟨rfl, rfl, rfl, selfDelimiting_hashField.flatMap_injective nonempty digests digests' listed⟩

/-- What a selector is asked for. -/
structure Request where
  manifestKey : String
  nameSpace : String
  deps : List Dependency
  keySchema : UInt32
  deriving DecidableEq, Repr

/-- The texts pass the check, and no dependency has a separator in it. -/
structure Request.Valid (request : Request) : Prop where
  manifestKey : validateSelectorText .manifestKey request.manifestKey = .ok ()
  nameSpace : validateSelectorText .nameSpace request.nameSpace = .ok ()
  plain : ∀ dep ∈ request.deps, dep.Plain

/-- The selector over the shard hashes of the dependencies. -/
def Request.selector (blake3 : Bytes → Bytes) (request : Request) : Except CatalogError String :=
  selectorHash blake3 request.manifestKey request.nameSpace
    (shardHashes blake3 request.deps) request.keySchema.toNat

/-- The text of a request that is hashed last. -/
def Request.text (blake3 : Bytes → Bytes) (request : Request) : Bytes :=
  selectorText request.manifestKey request.nameSpace
    (sortByKey id (shardHashes blake3 request.deps)) request.keySchema.toNat

/-- The texts that are hashed for the shards and the selector of a request. -/
def Request.hashedTexts (blake3 : Bytes → Bytes) (request : Request) : List Bytes :=
  request.text blake3 :: shardTexts blake3 request.deps

section Requests

variable {blake3 : Bytes → Bytes} (width : ∀ bytes, (blake3 bytes).length = 32) {a b : Request}
include width

theorem isValidCacheKey_of_mem {shard : String} (mem : shard ∈ shardHashes blake3 a.deps) :
    isValidCacheKey shard = true := by
  obtain ⟨_, there, rfl⟩ := List.mem_map.mp mem
  obtain ⟨_, -, rfl⟩ := mem_shards.mp there
  exact isValidCacheKey_blake3Hex width _

theorem Request.selector_eq (valid : a.Valid)
    (free : Set.InjOn blake3 {text | text ∈ shardTexts blake3 a.deps}) :
    a.selector blake3 = .ok (blake3Hex blake3 (a.text blake3)) :=
  selectorHash_eq valid.manifestKey valid.nameSpace (nodup_shardHashes free valid.plain)
    fun _ mem => isValidCacheKey_of_mem width mem

theorem Request.text_injective (validA : a.Valid) (validB : b.Valid)
    (same : a.text blake3 = b.text blake3) :
    a.manifestKey = b.manifestKey ∧ a.nameSpace = b.nameSpace ∧ a.keySchema = b.keySchema ∧
      (shardHashes blake3 a.deps).Perm (shardHashes blake3 b.deps) := by
  have digests : ∀ request : Request, ∀ shard ∈ sortByKey id (shardHashes blake3 request.deps),
      (utf8 shard).length < 256 ^ 8 := fun request shard mem =>
    length_utf8_of_valid (isValidCacheKey_of_mem width ((sortByKey_perm id _).mem_iff.mp mem))
  obtain ⟨key, space, schema, shards⟩ := selectorText_injective
    (length_of_validateSelectorText validA.manifestKey)
    (length_of_validateSelectorText validB.manifestKey)
    (length_of_validateSelectorText validA.nameSpace)
    (length_of_validateSelectorText validB.nameSpace)
    a.keySchema.toNat_lt b.keySchema.toNat_lt (digests a) (digests b) same
  refine ⟨key, space, UInt32.toNat_inj.mp schema, ?_⟩
  exact (sortByKey_perm id _).symm.trans (shards ▸ sortByKey_perm id _)

end Requests

/-- **Prefetch selectors identify dependency sets**, and a change of one crate touches one shard. -/
theorem selector_identifies {blake3 : Bytes → Bytes} (width : ∀ bytes, (blake3 bytes).length = 32)
    (a b : Request) (validA : a.Valid) (validB : b.Valid)
    (free : Set.InjOn blake3 {text | text ∈ a.hashedTexts blake3 ∨ text ∈ b.hashedTexts blake3}) :
    (∃ selector, a.selector blake3 = .ok selector) ∧
      (∃ selector, b.selector blake3 = .ok selector) ∧ (a.selector blake3 = b.selector blake3 ↔
        a.manifestKey = b.manifestKey ∧ a.nameSpace = b.nameSpace ∧ a.keySchema = b.keySchema ∧
          a.deps.Perm b.deps) ∧
      ∀ name : String,
        (a.deps.filter fun dep => dep.1 ≠ name).Perm (b.deps.filter fun dep => dep.1 ≠ name) →
        (∀ shard ∈ (computeShards blake3 a.deps).shards,
            shard ∉ (computeShards blake3 b.deps).shards →
          shard = shardOf blake3 (inBucket blake3 a.deps (bucketOf blake3 name))) ∧
        ∀ shard ∈ (computeShards blake3 b.deps).shards,
          shard ∉ (computeShards blake3 a.deps).shards →
          shard = shardOf blake3 (inBucket blake3 b.deps (bucketOf blake3 name)) := by
  have inA : ∀ text ∈ shardTexts blake3 a.deps, text ∈ a.hashedTexts blake3 ∨
      text ∈ b.hashedTexts blake3 :=
    fun text mem => .inl (List.mem_cons_of_mem _ mem)
  have inB : ∀ text ∈ shardTexts blake3 b.deps, text ∈ a.hashedTexts blake3 ∨
      text ∈ b.hashedTexts blake3 :=
    fun text mem => .inr (List.mem_cons_of_mem _ mem)
  have selA := a.selector_eq width validA (free.mono inA)
  have selB := b.selector_eq width validB (free.mono inB)
  have shards := shardHashes_perm_iff free inA inB validA.plain validB.plain
  refine ⟨⟨_, selA⟩, ⟨_, selB⟩, ⟨fun same => ?_, ?_⟩, fun name others => ⟨?_, ?_⟩⟩
  · rw [selA, selB, Except.ok.injEq] at same
    have texts := free (.inl List.mem_cons_self) (.inr List.mem_cons_self) (blake3_eq_of_hex same)
    obtain ⟨key, space, schema, hashes⟩ := Request.text_injective width validA validB texts
    exact ⟨key, space, schema, shards.mp hashes⟩
  · rintro ⟨key, space, schema, perm⟩
    have sorted :
        sortByKey id (shardHashes blake3 a.deps) = sortByKey id (shardHashes blake3 b.deps) :=
      sortByKey_eq_of_perm (shards.mpr perm) fun _ _ _ _ same => same
    rw [selA, selB, Request.text, Request.text, key, space, schema, sorted]
  · exact fun shard mem new => shards_stable others mem new
  · exact fun shard mem new => shards_stable others.symm mem new

/-- A hash for small texts: their bytes as a number, cut to 32 bytes. -/
def mixingHash (bytes : Bytes) : Bytes :=
  leBytes 32 (bytes.foldl (fun acc b => acc * 257 + b.toNat + 1) 0)

/-- Everything that is hashed for two lockfiles. -/
def smallTexts : List Bytes :=
  (⟨"main", "dev", [("serde", "1.0.1"), ("syn", "2.0.0")], 3⟩ : Request).hashedTexts mixingHash ++
    (⟨"main", "dev", [("serde", "1.0.2"), ("syn", "2.0.0")], 3⟩ : Request).hashedTexts mixingHash

/-- Two lockfiles that differ in the version of one crate. -/
theorem selector_identifies_upgrade :
    ¬ (⟨"main", "dev", [("serde", "1.0.1"), ("syn", "2.0.0")], 3⟩ : Request).selector mixingHash =
      (⟨"main", "dev", [("serde", "1.0.2"), ("syn", "2.0.0")], 3⟩ : Request).selector
        mixingHash := by
  have identifies := (@selector_identifies mixingHash (fun bytes => length_leBytes 32 _)
    ⟨"main", "dev", [("serde", "1.0.1"), ("syn", "2.0.0")], 3⟩
    ⟨"main", "dev", [("serde", "1.0.2"), ("syn", "2.0.0")], 3⟩
    ⟨by decide +kernel, by decide +kernel, by decide +kernel⟩
    ⟨by decide +kernel, by decide +kernel, by decide +kernel⟩
    (by
      have apart : ∀ x ∈ smallTexts, ∀ y ∈ smallTexts, mixingHash x = mixingHash y → x = y := by
        decide +kernel
      exact fun x hx y hy => apart x (List.mem_append.mpr hx) y (List.mem_append.mpr hy))).2.2.1
  rw [identifies]
  decide +kernel

end Kache.Pack
