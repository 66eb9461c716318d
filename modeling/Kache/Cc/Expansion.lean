import Kache.Cc.PrefixMaps
import Kache.Foundation.Framing
import Mathlib.Data.Set.Defs
import Mathlib.Data.String.Basic

/-!
# The hash of a preprocessed unit

The key of a C compile holds a hash of the preprocessed text.  A text that no prefix map changes is
hashed as it is.  One that spells out a root of its checkout is hashed behind a header and the list
of all mapped roots, so that another checkout does not share the key.

The header and the roots can be told apart from what follows them, so two bound texts never share a
hash by accident.  But the portable form has no header of its own: a portable text that *is* such a
header, root list and text gets the hash of the bound one.  `Forges` says when, and apart from it
equal hashes mean equal texts, equal flags and, for bound texts, equal roots
(`hash_cc_expansion_separates`).
-/

namespace Kache.Cc

/-! ## The code -/

variable {δ : Type}

/-- `CcExpansionHash`. -/
structure CcExpansionHash (δ : Type) where
  hash : δ
  pathBound : Bool
  deriving DecidableEq

/-- The roots, sorted and without repetitions. -/
def expansionRoots (prefixMaps : List CcPrefixMap) : List String :=
  (sortByKey id ((prefixMaps.map (·.source)).filter (· ≠ ""))).destutter (· ≠ ·)

/-- What is hashed for a text that spells out a root. -/
def boundPreimage (raw : Bytes) (prefixMaps : List CcPrefixMap) : Bytes :=
  utf8 "kache.cc.path-bound-expansion.v1" ++ [0] ++
    ((expansionRoots prefixMaps).flatMap fun root => utf8 root ++ [0]) ++ 10 :: raw

/-- `hash_cc_expansion`.  `blake3Hex` is the hash function with its hexadecimal digest. -/
def hashCcExpansion (blake3Hex : Bytes → δ) (raw : Bytes) (prefixMaps : List CcPrefixMap) :
    CcExpansionHash δ :=
  let mapped := applyCcPrefixMapsToBytes raw prefixMaps
  if mapped = raw then { hash := blake3Hex mapped, pathBound := false }
  else { hash := blake3Hex (boundPreimage raw prefixMaps), pathBound := true }

/-! ## What a hash says -/

/-- An absolute path without NUL, as POSIX or Windows spells it. -/
def AbsoluteRoot (root : String) : Prop :=
  (UnixPath.isRooted (utf8 root) = true ∨ ccWindowsAbsolutePrefix (utf8 root) = true) ∧
    0 ∉ utf8 root

/-- Every source that is not empty is such a path. -/
def AbsoluteSources (prefixMaps : List CcPrefixMap) : Prop :=
  ∀ map ∈ prefixMaps, map.source ≠ "" → AbsoluteRoot map.source

/-- The sources that are not empty. -/
def sources (prefixMaps : List CcPrefixMap) : Set String :=
  { root | root ≠ "" ∧ ∃ map ∈ prefixMaps, map.source = root }

/-- A text that its maps leave alone, and that is byte for byte what is hashed for another one. -/
def Forges (raw : Bytes) (prefixMaps : List CcPrefixMap) (other : Bytes)
    (otherMaps : List CcPrefixMap) : Prop :=
  applyCcPrefixMapsToBytes raw prefixMaps = raw ∧ applyCcPrefixMapsToBytes other otherMaps ≠ other ∧
    raw = boundPreimage other otherMaps

/-! ## The list of roots -/

variable {prefixMaps : List CcPrefixMap} {raw : Bytes}

theorem mem_expansionRoots {root : String} :
    root ∈ expansionRoots prefixMaps ↔ root ∈ sources prefixMaps := by
  have sorted : (sortByKey id ((prefixMaps.map (·.source)).filter (· ≠ ""))).Pairwise (· ≤ ·) :=
    pairwise_sortByKey id _
  rw [expansionRoots, sorted.destutter_eq_dedup, List.mem_dedup, (sortByKey_perm _ _).mem_iff]
  simp [sources, and_comm]

/-- An absolute path does not begin with a newline. -/
theorem AbsoluteRoot.head {root : String} (absolute : AbsoluteRoot root) (rest : Bytes) :
    ¬ ∃ tail, utf8 root ++ [0] ++ rest = 10 :: tail := by
  rintro ⟨tail, same⟩
  cases first : utf8 root with
  | nil =>
    rw [first] at same
    cases same
  | cons a others =>
    rw [first] at same
    obtain rfl : a = 10 := (List.cons_eq_cons.mp same).1
    rcases absolute.1 with rooted | windows
    · rw [first] at rooted
      simp [UnixPath.isRooted, UnixPath.slash] at rooted
    · rw [first] at windows
      revert windows
      rcases others with _ | ⟨b, _ | ⟨c, others⟩⟩ <;>
        simp [ccWindowsAbsolutePrefix, Ascii.isAlphabetic]

/-- A root ends at its NUL. -/
theorem selfDelimiting_root : SelfDelimiting AbsoluteRoot fun root => utf8 root ++ [0] := by
  intro root root' absolute absolute' rest rest' same
  obtain ⟨bytes, rests⟩ := selfDelimiting_terminated 0 absolute.2 absolute'.2 same
  exact ⟨utf8_injective bytes, rests⟩

/-- The roots and the text can be read back. -/
theorem boundPreimage_inj {raw' : Bytes} {prefixMaps' : List CcPrefixMap}
    (absolute : AbsoluteSources prefixMaps) (absolute' : AbsoluteSources prefixMaps')
    (same : boundPreimage raw prefixMaps = boundPreimage raw' prefixMaps') :
    raw = raw' ∧ sources prefixMaps = sources prefixMaps' := by
  have roots : ∀ {maps}, AbsoluteSources maps → ∀ root ∈ expansionRoots maps,
      AbsoluteRoot root := by
    intro maps absolute root mem
    obtain ⟨nonempty, map, listed, rfl⟩ := mem_expansionRoots.mp mem
    exact absolute map listed nonempty
  simp only [boundPreimage, List.append_assoc] at same
  -- what follows the roots begins with a newline, and no root does
  obtain ⟨listed, rests⟩ := selfDelimiting_root.flatMap_append_injective (Q := fun s =>
    ∃ tail, s = 10 :: tail)
    (fun root absolute rest => absolute.head rest) (roots absolute) (roots absolute')
      ⟨raw, rfl⟩ ⟨raw', rfl⟩
    (List.append_cancel_left (List.append_cancel_left same))
  refine ⟨(List.cons_eq_cons.mp rests).2, ?_⟩
  ext root
  rw [← mem_expansionRoots, ← mem_expansionRoots, listed]

/-! ## Separation -/

theorem hashCcExpansion_portable (blake3Hex : Bytes → δ)
    (portable : applyCcPrefixMapsToBytes raw prefixMaps = raw) :
    hashCcExpansion blake3Hex raw prefixMaps = { hash := blake3Hex raw, pathBound := false } := by
  rw [hashCcExpansion, if_pos portable, portable]

theorem hashCcExpansion_bound (blake3Hex : Bytes → δ)
    (bound : applyCcPrefixMapsToBytes raw prefixMaps ≠ raw) :
    hashCcExpansion blake3Hex raw prefixMaps =
      { hash := blake3Hex (boundPreimage raw prefixMaps), pathBound := true } := if_neg bound

/-- Equal hashes, in the way they should not occur. -/
theorem Forges.collides (blake3Hex : Bytes → δ) {other : Bytes} {otherMaps : List CcPrefixMap}
    (forges : Forges raw prefixMaps other otherMaps) :
    (hashCcExpansion blake3Hex raw prefixMaps).hash =
      (hashCcExpansion blake3Hex other otherMaps).hash ∧
      (hashCcExpansion blake3Hex raw prefixMaps).pathBound ≠
        (hashCcExpansion blake3Hex other otherMaps).pathBound := by
  obtain ⟨portable, bound, same⟩ := forges
  rw [hashCcExpansion_portable blake3Hex portable, hashCcExpansion_bound blake3Hex bound, same]
  exact ⟨rfl, Bool.false_ne_true⟩

/-- What equal hashes should mean. -/
def Separates (blake3Hex : Bytes → δ) (raw raw' : Bytes)
    (prefixMaps prefixMaps' : List CcPrefixMap) : Prop :=
  (hashCcExpansion blake3Hex raw prefixMaps).hash =
    (hashCcExpansion blake3Hex raw' prefixMaps').hash → raw = raw' ∧
      (hashCcExpansion blake3Hex raw prefixMaps).pathBound =
        (hashCcExpansion blake3Hex raw' prefixMaps').pathBound ∧
      ((hashCcExpansion blake3Hex raw prefixMaps).pathBound = true →
        sources prefixMaps = sources prefixMaps')

/-- **Expansion hashes separate checkouts**, unless one text is the framed form of the other. -/
theorem hash_cc_expansion_separates (blake3Hex : Bytes → δ)
    (collisionFree : Function.Injective blake3Hex)
    (raw raw' : Bytes) (prefixMaps prefixMaps' : List CcPrefixMap)
    (absolute : AbsoluteSources prefixMaps) (absolute' : AbsoluteSources prefixMaps') :
    Separates blake3Hex raw raw' prefixMaps prefixMaps' ↔
      ¬ Forges raw prefixMaps raw' prefixMaps' ∧ ¬ Forges raw' prefixMaps' raw prefixMaps := by
  constructor
  · intro separates
    refine ⟨fun forges => ?_, fun forges => ?_⟩
    · obtain ⟨hashes, flags⟩ := forges.collides blake3Hex
      exact flags (separates hashes).2.1
    · obtain ⟨hashes, flags⟩ := forges.collides blake3Hex
      exact flags (separates hashes.symm).2.1.symm
  · rintro ⟨none, none'⟩ hashes
    by_cases portable : applyCcPrefixMapsToBytes raw prefixMaps = raw
    · by_cases portable' : applyCcPrefixMapsToBytes raw' prefixMaps' = raw'
      · rw [hashCcExpansion_portable _ portable, hashCcExpansion_portable _ portable'] at hashes ⊢
        exact ⟨collisionFree hashes, rfl, fun no => nomatch no⟩
      · rw [hashCcExpansion_portable _ portable, hashCcExpansion_bound _ portable'] at hashes
        exact absurd ⟨portable, portable', collisionFree hashes⟩ none
    · by_cases portable' : applyCcPrefixMapsToBytes raw' prefixMaps' = raw'
      · rw [hashCcExpansion_bound _ portable, hashCcExpansion_portable _ portable'] at hashes
        exact absurd ⟨portable', portable, (collisionFree hashes).symm⟩ none'
      · rw [hashCcExpansion_bound _ portable, hashCcExpansion_bound _ portable'] at hashes ⊢
        obtain ⟨texts, roots⟩ := boundPreimage_inj absolute absolute' (collisionFree hashes)
        exact ⟨texts, rfl, fun _ => roots⟩

/-- The maps of two checkouts. -/
def checkoutMaps (root : String) : List CcPrefixMap := [⟨root, "/kache/cc-root"⟩]

theorem absoluteSources_checkout : AbsoluteSources (checkoutMaps "/w/a") ∧
    AbsoluteSources (checkoutMaps "/w/b") := by
  constructor
  · intro map mem _
    rw [List.mem_singleton.mp mem]
    exact ⟨by decide +kernel, by decide +kernel⟩
  · intro map mem _
    rw [List.mem_singleton.mp mem]
    exact ⟨by decide +kernel, by decide +kernel⟩

/-- Two texts of two checkouts that do not forge each other. -/
theorem hash_cc_expansion_separates_checkouts :
    AbsoluteSources (checkoutMaps "/w/a") ∧ AbsoluteSources (checkoutMaps "/w/b") ∧
      Separates id (utf8 "/w/a/x") (utf8 "/w/b/x") (checkoutMaps "/w/a") (checkoutMaps "/w/b") := by
  refine ⟨absoluteSources_checkout.1, absoluteSources_checkout.2, ?_⟩
  refine (hash_cc_expansion_separates id Function.injective_id _ _ _ _ absoluteSources_checkout.1
    absoluteSources_checkout.2).mpr ⟨fun forges => ?_, fun forges => ?_⟩
  · exact absurd forges.1 (by decide +kernel)
  · exact absurd forges.1 (by decide +kernel)

/-- A text of the second checkout that is what is hashed for a text of the first one. -/
def forgedText : Bytes := boundPreimage (utf8 "/w/a/x") (checkoutMaps "/w/a")

/-- The two texts share a hash, whatever the hash function is. -/
theorem portable_text_forges_bound_one :
    ¬ ∀ (blake3Hex : Bytes → Bytes), Function.Injective blake3Hex → ∀ (raw raw' : Bytes)
      (prefixMaps prefixMaps' : List CcPrefixMap), AbsoluteSources prefixMaps →
        AbsoluteSources prefixMaps' → Separates blake3Hex raw raw' prefixMaps prefixMaps' := by
  intro separates
  have forges : Forges forgedText (checkoutMaps "/w/b") (utf8 "/w/a/x") (checkoutMaps "/w/a") :=
    ⟨by decide +kernel, by decide +kernel, rfl⟩
  obtain ⟨hashes, flags⟩ := forges.collides id
  exact flags (separates id Function.injective_id _ _ _ _ absoluteSources_checkout.2
    absoluteSources_checkout.1 hashes).2.1

end Kache.Cc
