import Kache.Remote.CatalogRoundTrip
import Kache.Foundation.Decimal

/-!
# The newest catalog

Catalogs are found by listing the objects of a selector.  The name of one is its time, padded to
twenty digits, and its digest; `parse_catalog_object_ref` reads exactly these names, and
`latest_catalog_object` takes the greatest time and digest among whatever else the listing holds.
-/

namespace Kache.Pack

open Decimal

/-! ## Names -/

/-- The name of a catalog behind the prefix of its selector. -/
def catalogFilename (createdAtMs : UInt64) (digest : String) : List Char :=
  padded 20 createdAtMs.toNat ++ '-' :: (digest.toList ++ ".json".toList)

/-- The prefix of a selector. -/
def selectorPrefix (first selector : String) : String :=
  joinRemoteKey first ("v4/prefetch/catalogs/" ++ selector ++ "/")

theorem joinRemoteKey_append (first a b : String) :
    joinRemoteKey first (a ++ b) = joinRemoteKey first a ++ b := by
  unfold joinRemoteKey
  split
  · rfl
  · rw [← String.append_assoc]

theorem catalogPrefix_eq_ok {first selector start : String} :
    catalogPrefix first selector = .ok start ↔
      isValidCacheKey selector = true ∧ start = selectorPrefix first selector := by
  simp only [catalogPrefix, bind_eq_ok, validateCatalogDigest_eq_ok, exists_const, Except.ok.injEq]
  exact and_congr_right fun _ => eq_comm

/-- **The keys that are produced.** -/
theorem catalogObjectKey_eq_ok {first selector digest key : String} {createdAtMs : UInt64} :
    catalogObjectKey first selector createdAtMs digest = .ok key ↔
      isValidCacheKey selector = true ∧ isValidCacheKey digest = true ∧
        key.toList = (selectorPrefix first selector).toList ++
          catalogFilename createdAtMs digest := by
  have spelled : joinRemoteKey first ("v4/prefetch/catalogs/" ++ selector ++ "/" ++
      twentyDigits createdAtMs.toNat ++ "-" ++ digest ++ ".json") = selectorPrefix first selector ++
        String.ofList (catalogFilename createdAtMs digest) := by
    rw [joinRemoteKey_append, joinRemoteKey_append, joinRemoteKey_append, joinRemoteKey_append,
      selectorPrefix, String.append_assoc, String.append_assoc, String.append_assoc]
    congr 1
    apply String.toList_inj.mp
    simp [catalogFilename, twentyDigits, padded]
  simp only [catalogObjectKey, bind_eq_ok, validateCatalogDigest_eq_ok, exists_const,
    Except.ok.injEq]
  refine and_congr_right fun _ => and_congr_right fun _ => ?_
  rw [spelled, eq_comm, ← String.toList_inj, String.toList_append, String.toList_ofList]

/-! ## Reading a name -/

theorem stripStart_eq_some {start text rest : List Char} :
    stripStart start text = some rest ↔ text = start ++ rest := by
  unfold stripStart
  constructor
  · intro h
    obtain ⟨⟨after, rfl⟩, ⟨⟩⟩ := Option.ite_none_right_eq_some.mp h
    rw [List.drop_left]
  · rintro rfl
    rw [if_pos (List.prefix_append _ _), List.drop_left]

theorem stripEnd_eq_some {tail text rest : List Char} :
    stripEnd tail text = some rest ↔ text = rest ++ tail := by
  unfold stripEnd
  constructor
  · intro h
    obtain ⟨⟨before, rfl⟩, ⟨⟩⟩ := Option.ite_none_right_eq_some.mp h
    simp
  · rintro rfl
    rw [if_pos (List.suffix_append _ _)]
    simp

theorem splitOnceAt_eq_some {sep : Char} {text before after : List Char} :
    splitOnceAt sep text = some (before, after) ↔ sep ∉ before ∧ text = before ++ sep :: after := by
  unfold splitOnceAt
  constructor
  · intro h
    split at h
    · cases h
    · next c rest cut =>
      cases h
      have stop : c = sep := by
        have first := List.head?_dropWhile_not (fun d => decide (d ≠ sep)) text
        rw [cut] at first
        simpa using first
      refine ⟨fun mem => ?_, ?_⟩
      · simpa using List.mem_takeWhile_imp mem
      · subst stop
        rw [← cut, List.takeWhile_append_dropWhile]
  · rintro ⟨free, rfl⟩
    have all : ∀ c ∈ before, decide (c ≠ sep) = true :=
      fun c mem => decide_eq_true fun same => free (same ▸ mem)
    rw [List.dropWhile_append_of_pos all, List.takeWhile_append_of_pos all]
    simp

theorem parseUsize_eq_some {word : List Char} {n : ℕ} :
    Text.parseUsize word = some n ↔ Text.digitsValue word = n ∧ n < 2 ^ 64 := by
  unfold Text.parseUsize
  constructor
  · intro h
    obtain ⟨small, ⟨⟩⟩ := Option.ite_none_right_eq_some.mp h
    exact ⟨rfl, small⟩
  · rintro ⟨rfl, small⟩
    rw [if_pos small]

theorem length_padded_time (t : UInt64) : (padded 20 t.toNat).length = 20 :=
  length_padded (by decide) (t.toNat_lt.trans (by decide))

/-- **What is read is what was written**, and nothing else is read. -/
theorem parseCatalogObjectRef_eq_some {start key : String} {ref : CatalogObjectRef} :
    parseCatalogObjectRef start key = some ref ↔
      ref.objectKey = key ∧ isValidCacheKey ref.digest = true ∧
        key.toList = start.toList ++ catalogFilename ref.createdAtMs ref.digest := by
  constructor
  · intro parsed
    obtain ⟨filename, stripped, parsed⟩ := Option.bind_eq_some_iff.mp parsed
    obtain ⟨rest, front, back⟩ := Option.bind_eq_some_iff.mp stripped
    obtain ⟨⟨createdAt, digest⟩, cut, parsed⟩ := Option.bind_eq_some_iff.mp parsed
    have front := stripStart_eq_some.mp front
    have back := stripEnd_eq_some.mp back
    obtain ⟨-, cut⟩ := splitOnceAt_eq_some.mp cut
    obtain ⟨shape, parsed⟩ := Option.ite_none_left_eq_some.mp parsed
    obtain ⟨length, digits⟩ := not_or.mp shape
    have length := not_not.mp length
    have digits : IsDigits createdAt := List.all_eq_true.mp (not_not.mp digits)
    obtain ⟨valid, parsed⟩ := Option.ite_none_left_eq_some.mp parsed
    obtain ⟨n, number, ⟨⟩⟩ := Option.bind_eq_some_iff.mp parsed
    obtain ⟨rfl, small⟩ := parseUsize_eq_some.mp number
    refine ⟨rfl, Bool.eq_true_of_not_eq_false valid, ?_⟩
    have word := padded_digitsValue digits (by omega)
    rw [length] at word
    rw [front, back, cut, catalogFilename, UInt64.toNat_ofNat_of_lt' small, word,
      List.append_assoc, List.cons_append]
    show _ = start.toList ++ (createdAt ++ '-' :: ((String.ofList digest).toList ++ _))
    simp only [String.toList_ofList]
  · obtain ⟨objectKey, createdAtMs, digest⟩ := ref
    rintro ⟨rfl, valid, spelled⟩
    have dash : '-' ∉ padded 20 createdAtMs.toNat := by
      intro mem
      exact absurd (isDigits_padded 20 _ '-' mem) (by decide)
    refine Option.bind_eq_some_iff.mpr ⟨padded 20 createdAtMs.toNat ++ '-' :: digest.toList, ?_, ?_⟩
    · refine Option.bind_eq_some_iff.mpr ⟨_, stripStart_eq_some.mpr spelled,
        stripEnd_eq_some.mpr ?_⟩
      simp [catalogFilename]
    · refine Option.bind_eq_some_iff.mpr ⟨_, splitOnceAt_eq_some.mpr ⟨dash, rfl⟩, ?_⟩
      simp only
      rw [if_neg, if_neg]
      · refine Option.bind_eq_some_iff.mpr ⟨createdAtMs.toNat, parseUsize_eq_some.mpr ?_, ?_⟩
        · exact ⟨digitsValue_padded _ _, createdAtMs.toNat_lt⟩
        · simp
      · simp [valid]
      · have digits : (padded 20 createdAtMs.toNat).all Char.isDigit = true :=
          List.all_eq_true.mpr (isDigits_padded 20 _)
        simp [length_padded_time, digits]

/-! ## The order of names -/

/-- Words of one length that differ are told apart before anything that follows them. -/
theorem append_lt_append {a b : List Char} (length : a.length = b.length) (less : a < b)
    (s t : List Char) : a ++ s < b ++ t := by
  induction a generalizing b with
  | nil =>
    cases b with
    | nil => exact absurd less (List.not_lt_nil _)
    | cons d rest => cases length
  | cons c rest ih =>
    cases b with
    | nil => cases length
    | cons d rest' =>
      rw [List.cons_append, List.cons_append, List.cons_lt_cons_iff]
      rcases List.cons_lt_cons_iff.mp less with first | ⟨same, later⟩
      · exact .inl first
      · exact .inr ⟨same, ih (Nat.succ.inj length) later⟩

theorem length_of_isValidCacheKey {digest : String} (valid : isValidCacheKey digest = true) :
    digest.toList.length = 64 := by
  rw [isValidCacheKey, Bool.and_eq_true, beq_iff_eq] at valid
  exact String.length_toList.trans valid.1

/-- **The newer catalog has the greater name.** -/
theorem catalogFilename_lt {t t' : UInt64} {d d' : String} (valid : isValidCacheKey d = true)
    (valid' : isValidCacheKey d' = true)
    (less : (toLex (t.toNat, d) : ℕ ×ₗ String) < toLex (t'.toNat, d')) :
    catalogFilename t d < catalogFilename t' d' := by
  rcases Prod.Lex.lt_iff.mp less with earlier | ⟨same, digest⟩
  · refine append_lt_append ((length_padded_time t).trans (length_padded_time t').symm) ?_ _ _
    refine (digitsValue_lt_iff (isDigits_padded _ _) (isDigits_padded _ _) ?_).mp ?_
    · rw [length_padded_time, length_padded_time]
    · rw [digitsValue_padded, digitsValue_padded]
      exact earlier
  · have same : t = t' := UInt64.toNat_inj.mp same
    subst same
    refine List.append_left_lt (List.cons_lt_cons_iff.mpr (.inr ⟨rfl, ?_⟩))
    have length : d.toList.length = d'.toList.length :=
      (length_of_isValidCacheKey valid).trans (length_of_isValidCacheKey valid').symm
    exact append_lt_append length (String.lt_iff_toList_lt.mp digest) _ _

/-! ## The newest -/

section Newest

variable {first selector : String}

/-- A reference that is read is to a key that is produced. -/
theorem produced_of_parsed (valid : isValidCacheKey selector = true) {key : String}
    {ref : CatalogObjectRef}
    (parsed : parseCatalogObjectRef (selectorPrefix first selector) key = some ref) :
    ref.objectKey = key ∧ catalogObjectKey first selector ref.createdAtMs ref.digest = .ok key := by
  obtain ⟨same, digest, spelled⟩ := parseCatalogObjectRef_eq_some.mp parsed
  exact ⟨same, catalogObjectKey_eq_ok.mpr ⟨valid, digest, spelled⟩⟩

/-- A key that is produced is read. -/
theorem parsed_of_produced {createdAtMs : UInt64} {digest key : String}
    (produced : catalogObjectKey first selector createdAtMs digest = .ok key) :
    parseCatalogObjectRef (selectorPrefix first selector) key =
      some ⟨key, createdAtMs, digest⟩ := by
  obtain ⟨-, valid, spelled⟩ := catalogObjectKey_eq_ok.mp produced
  exact parseCatalogObjectRef_eq_some.mpr ⟨rfl, valid, spelled⟩

/-- References that are read and are equally new are one. -/
theorem age_injective {a b : CatalogObjectRef} {key key' : String}
    (pa : parseCatalogObjectRef (selectorPrefix first selector) key = some a)
    (pb : parseCatalogObjectRef (selectorPrefix first selector) key' = some b)
    (same : a.age = b.age) : a = b := by
  obtain ⟨rfl, -, spelled⟩ := parseCatalogObjectRef_eq_some.mp pa
  obtain ⟨rfl, -, spelled'⟩ := parseCatalogObjectRef_eq_some.mp pb
  have time : a.createdAtMs = b.createdAtMs :=
    UInt64.toNat_inj.mp (congrArg (fun age : ℕ ×ₗ String => (ofLex age).1) same)
  have digest : a.digest = b.digest := congrArg (fun age : ℕ ×ₗ String => (ofLex age).2) same
  rw [time, digest] at spelled
  have key : a.objectKey = b.objectKey := String.toList_inj.mp (spelled.trans spelled'.symm)
  cases a
  cases b
  exact CatalogObjectRef.mk.injEq .. ▸ ⟨key, time, digest⟩

/-- The greater age is the greater key. -/
theorem objectKey_le {a b : CatalogObjectRef} {key key' : String}
    (pa : parseCatalogObjectRef (selectorPrefix first selector) key = some a)
    (pb : parseCatalogObjectRef (selectorPrefix first selector) key' = some b)
    (le : a.age ≤ b.age) : a.objectKey ≤ b.objectKey := by
  rcases lt_or_eq_of_le le with less | same
  · obtain ⟨rfl, valid, spelled⟩ := parseCatalogObjectRef_eq_some.mp pa
    obtain ⟨rfl, valid', spelled'⟩ := parseCatalogObjectRef_eq_some.mp pb
    refine le_of_lt (String.lt_iff_toList_lt.mpr ?_)
    rw [spelled, spelled']
    exact List.append_left_lt (catalogFilename_lt valid valid' less)
  · rw [age_injective pa pb same]

end Newest

/-- **Newest catalog selection.**  `parse_catalog_object_ref` inverts `catalog_object_key` and reads
nothing else.  `latest_catalog_object` returns the produced key with the greatest time and digest,
which is the greatest of the produced keys as a string, or nothing if there is none; the order of
the listing is of no account. -/
theorem newest_catalog_selection (first selector : String) (valid : isValidCacheKey selector = true)
    (objectKeys : List String) :
    ∃ start, catalogPrefix first selector = .ok start ∧
      (∀ createdAtMs digest key, catalogObjectKey first selector createdAtMs digest = .ok key →
        parseCatalogObjectRef start key = some ⟨key, createdAtMs, digest⟩) ∧
      (∀ key ref, parseCatalogObjectRef start key = some ref →
        ref.objectKey = key ∧
          catalogObjectKey first selector ref.createdAtMs ref.digest = .ok key) ∧
      ∃ latest, latestCatalogObject first selector objectKeys = .ok latest ∧
        (latest = none → ∀ key ∈ objectKeys, ∀ createdAtMs digest,
          catalogObjectKey first selector createdAtMs digest ≠ .ok key) ∧
        (∀ ref, latest = some ref → ref.objectKey ∈ objectKeys ∧
          catalogObjectKey first selector ref.createdAtMs ref.digest = .ok ref.objectKey ∧
          ∀ key ∈ objectKeys, ∀ createdAtMs digest,
            catalogObjectKey first selector createdAtMs digest = .ok key →
            (toLex (createdAtMs.toNat, digest) : ℕ ×ₗ String) ≤
              toLex (ref.createdAtMs.toNat, ref.digest) ∧ key ≤ ref.objectKey) ∧
        ∀ other : List String, other.Perm objectKeys →
          latestCatalogObject first selector other = .ok latest := by
  have start := catalogPrefix_eq_ok.mpr ⟨valid, Eq.refl (selectorPrefix first selector)⟩
  let read (keys : List String) : List CatalogObjectRef :=
    keys.filterMap (parseCatalogObjectRef (selectorPrefix first selector))
  have call : ∀ keys, latestCatalogObject first selector keys =
      .ok (maxByKey CatalogObjectRef.age (read keys)) := by
    intro keys
    rw [latestCatalogObject, start]
    rfl
  have readable : ∀ {key createdAtMs digest}, key ∈ objectKeys →
      catalogObjectKey first selector createdAtMs digest = .ok key →
      (⟨key, createdAtMs, digest⟩ : CatalogObjectRef) ∈ read objectKeys := by
    intro key createdAtMs digest mem produced
    exact List.mem_filterMap.mpr ⟨key, mem, parsed_of_produced produced⟩
  refine ⟨_, start, fun _ _ _ => parsed_of_produced, fun _ _ => produced_of_parsed valid, _,
    call objectKeys, ?_, ?_, ?_⟩
  · intro nothing key mem createdAtMs digest produced
    have inside := readable mem produced
    rw [maxByKey_eq_none.mp nothing] at inside
    cases inside
  · intro ref chosen
    obtain ⟨inside, above⟩ := maxByKey_eq_some chosen
    obtain ⟨key, mem, parsed⟩ := List.mem_filterMap.mp inside
    obtain ⟨rfl, produced⟩ := produced_of_parsed valid parsed
    refine ⟨mem, produced, fun key' mem' createdAtMs digest produced' => ?_⟩
    have le := above _ (readable mem' produced')
    exact ⟨le, objectKey_le (parsed_of_produced produced') parsed le⟩
  · intro other perm
    rw [call]
    have perm : (read other).Perm (read objectKeys) := perm.filterMap _
    -- the greatest is one, whatever the order
    cases found : maxByKey CatalogObjectRef.age (read other) with
    | none =>
      rw [maxByKey_eq_none.mp found] at perm
      rw [perm.symm.eq_nil]
      rfl
    | some ref =>
      obtain ⟨inside, above⟩ := maxByKey_eq_some found
      cases found' : maxByKey CatalogObjectRef.age (read objectKeys) with
      | none =>
        rw [maxByKey_eq_none.mp found'] at perm
        rw [perm.eq_nil] at inside
        cases inside
      | some ref' =>
        obtain ⟨inside', above'⟩ := maxByKey_eq_some found'
        obtain ⟨_, -, parsed⟩ := List.mem_filterMap.mp inside
        obtain ⟨_, -, parsed'⟩ := List.mem_filterMap.mp inside'
        rw [age_injective parsed parsed' (le_antisymm (above' ref (perm.mem_iff.mp inside))
          (above ref' (perm.mem_iff.mpr inside')))]

/-- A listing with two catalogs and another object: the newer one is chosen. -/
theorem newest_catalog_selection_of_two :
    isValidCacheKey (hexKey 'a') = true ∧ ∃ older newer latest,
      catalogObjectKey "p" (hexKey 'a') 7 (hexKey 'b') = .ok older ∧
      catalogObjectKey "p" (hexKey 'a') 9 (hexKey 'a') = .ok newer ∧
      latestCatalogObject "p" (hexKey 'a') ["p/other", newer, older] = .ok (some latest) ∧
      9 ≤ latest.createdAtMs.toNat := by
  have selector : isValidCacheKey (hexKey 'a') = true := isValidCacheKey_hexKey (by decide)
  have produced (createdAtMs : UInt64) {c : Char} (hex : isLowerHexDigit c = true) :
      ∃ key, catalogObjectKey "p" (hexKey 'a') createdAtMs (hexKey c) = .ok key :=
    ⟨_, catalogObjectKey_eq_ok.mpr ⟨selector, isValidCacheKey_hexKey hex, String.toList_ofList⟩⟩
  obtain ⟨older, first⟩ := produced 7 (c := 'b') (by decide)
  obtain ⟨newer, second⟩ := produced 9 (c := 'a') (by decide)
  obtain ⟨_, -, -, -, latest, call, nothing, chosen, -⟩ :=
    newest_catalog_selection "p" (hexKey 'a') selector ["p/other", newer, older]
  refine ⟨selector, older, newer, ?_⟩
  cases latest with
  | none => exact absurd second (nothing rfl _ (by simp) _ _)
  | some ref =>
    have newest := ((chosen ref rfl).2.2 newer (by simp) _ _ second).1
    refine ⟨ref, first, second, call, ?_⟩
    rcases Prod.Lex.le_iff.mp newest with less | ⟨same, -⟩
    · exact le_of_lt less
    · exact le_of_eq same

end Kache.Pack
