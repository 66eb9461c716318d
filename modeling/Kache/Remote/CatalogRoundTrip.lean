import Kache.Remote.Catalog
import Kache.Remote.PackRoundTrip

/-!
# A catalog and its packs

A pack has its entries in the order of `build_pack`, a catalog lists them in the order of
`canonicalize_catalog`: the same, by key and crate.  So the canonical reference to a pack is a
function of the pack (`BuiltPack.ref`), in whatever order the entries were listed, and
`decode_catalog_pack` finds the two descriptions equal place by place.
-/

namespace Kache.Pack

/-! ## What is checked -/

theorem inPack_eq_ok {α : Type} {call : Except Fault α} {a : α} :
    inPack call = .ok a ↔ call = .ok a := by
  cases call with
  | ok b => exact ⟨fun h => congrArg _ (Except.ok.inj h), fun h => congrArg _ (Except.ok.inj h)⟩
  | error fault => exact ⟨fun no => (nomatch no), fun no => (nomatch no)⟩

variable {blake3 : Bytes → Bytes} {catalog : PackCatalog}

theorem validateCatalogDigest_eq_ok {label : CatalogDigest} {value : String} {u : Unit} :
    validateCatalogDigest label value = .ok u ↔ isValidCacheKey value = true := by
  simp [validateCatalogDigest]

/-- The keys that a run over entries adds, and that none is added twice. -/
theorem foldlM_claimKey {entries : List CatalogEntry} {keys keys' : List String}
    (run : entries.foldlM claimKey keys = .ok keys') :
    keys' = (entries.map (·.cacheKey)).reverse ++ keys ∧ (keys.Nodup → keys'.Nodup) := by
  induction entries generalizing keys with
  | nil =>
    cases run
    exact ⟨rfl, id⟩
  | cons entry rest ih =>
    rw [List.foldlM_cons] at run
    obtain ⟨middle, claimed, run⟩ := bind_eq_ok.mp run
    obtain ⟨_, -, claimed⟩ := bind_eq_ok.mp claimed
    obtain ⟨_, fresh, same⟩ := bind_eq_ok.mp claimed
    have fresh := bailIf_eq_ok.mp fresh
    cases same
    obtain ⟨whole, nodup⟩ := ih run
    refine ⟨?_, fun distinct => nodup (List.nodup_cons.mpr ⟨fresh, distinct⟩)⟩
    rw [whole, List.map_cons, List.reverse_cons, List.append_assoc, List.singleton_append]

/-- The keys and digests that a run over packs adds. -/
theorem foldlM_checkPack {packs : List CatalogPackRef} {seen seen' : Seen}
    (run : packs.foldlM checkPack seen = .ok seen') :
    (seen'.cacheKeys = ((packs.flatMap (·.entries)).map (·.cacheKey)).reverse ++ seen.cacheKeys ∧
      (seen.cacheKeys.Nodup → seen'.cacheKeys.Nodup)) ∧
    seen'.packDigests = (packs.map (·.digest)).reverse ++ seen.packDigests ∧
      (seen.packDigests.Nodup → seen'.packDigests.Nodup) := by
  induction packs generalizing seen with
  | nil =>
    cases run
    exact ⟨⟨rfl, id⟩, rfl, id⟩
  | cons pack rest ih =>
    rw [List.foldlM_cons] at run
    obtain ⟨middle, checked, run⟩ := bind_eq_ok.mp run
    obtain ⟨_, -, checked⟩ := bind_eq_ok.mp checked
    obtain ⟨_, fresh, checked⟩ := bind_eq_ok.mp checked
    obtain ⟨_, -, checked⟩ := bind_eq_ok.mp checked
    obtain ⟨_, -, checked⟩ := bind_eq_ok.mp checked
    obtain ⟨keys, claimed, checked⟩ := bind_eq_ok.mp checked
    obtain ⟨total, -, same⟩ := bind_eq_ok.mp checked
    have fresh := bailIf_eq_ok.mp fresh
    cases same
    obtain ⟨added, distinct⟩ := foldlM_claimKey claimed
    obtain ⟨⟨whole, nodup⟩, digests, nodupDigests⟩ := ih run
    refine ⟨⟨?_, fun before => nodup (distinct before)⟩, ?_,
      fun before => nodupDigests (List.nodup_cons.mpr ⟨fresh, before⟩)⟩
    · rw [whole, added, List.flatMap_cons, List.map_append, List.reverse_append, List.append_assoc]
    · rw [digests, List.map_cons, List.reverse_cons, List.append_assoc, List.singleton_append]

/-- The keys of a catalog, those of the packs first. -/
def PackCatalog.cacheKeys (catalog : PackCatalog) : List String :=
  (catalog.packs.flatMap (·.entries) ++ catalog.fallbackEntries).map (·.cacheKey)

/-- **Uniqueness**: what passes `validate_catalog` has no key and no pack twice. -/
theorem nodup_of_validateCatalog {u : Unit} (valid : validateCatalog blake3 catalog = .ok u) :
    catalog.cacheKeys.Nodup ∧ (catalog.packs.map (·.digest)).Nodup := by
  simp only [validateCatalog, bind_eq_ok] at valid
  obtain ⟨_, -, _, -, _, -, _, -, _, -, _, -, _, -, _, -, _, -, _, -, seen, packs, keys,
    fallback, -⟩ :=
    valid
  obtain ⟨⟨added, distinct⟩, digests, distinctDigests⟩ := foldlM_checkPack packs
  obtain ⟨whole, nodup⟩ := foldlM_claimKey fallback
  have all := nodup (distinct List.nodup_nil)
  rw [whole, added, List.append_nil, ← List.reverse_append, List.nodup_reverse, ← List.map_append]
    at all
  have packsOnce := distinctDigests List.nodup_nil
  rw [digests, List.append_nil, List.nodup_reverse] at packsOnce
  exact ⟨all, packsOnce⟩

/-! ## The canonical order -/

theorem CatalogPackRef.arranged_arranged (pack : CatalogPackRef) :
    pack.arranged.arranged = pack.arranged := by
  show CatalogPackRef.mk _ _ _ = CatalogPackRef.mk _ _ _
  congr 1
  exact sortByKey_of_pairwise (pairwise_sortByKey _ _)

/-- Arranging a second time changes nothing. -/
theorem PackCatalog.arranged_arranged (catalog : PackCatalog) :
    catalog.arranged.arranged = catalog.arranged := by
  have inner : catalog.arranged.packs.map CatalogPackRef.arranged = catalog.arranged.packs := by
    refine (List.map_congr_left fun pack mem => ?_).trans (List.map_id _)
    obtain ⟨origin, -, rfl⟩ := List.mem_map.mp ((sortByKey_perm _ _).mem_iff.mp mem)
    exact origin.arranged_arranged
  have packs :
      sortByKey CatalogPackRef.digest (catalog.arranged.packs.map CatalogPackRef.arranged) =
      catalog.arranged.packs := by
    rw [inner]
    exact sortByKey_of_pairwise (pairwise_sortByKey _ _)
  have shards : sortByKey id catalog.arranged.shardHashes = catalog.arranged.shardHashes :=
    sortByKey_of_pairwise (pairwise_sortByKey _ _)
  have fallback : sortByKey CatalogEntry.sortKey catalog.arranged.fallbackEntries =
      catalog.arranged.fallbackEntries := sortByKey_of_pairwise (pairwise_sortByKey _ _)
  show PackCatalog.mk _ _ _ _ _ _ _ _ _ _ = PackCatalog.mk _ _ _ _ _ _ _ _ _ _
  rw [packs, shards, fallback]
  rfl

theorem canonicalizeCatalog_eq_ok {canonical : PackCatalog} :
    canonicalizeCatalog blake3 catalog = .ok canonical ↔
      validateCatalog blake3 catalog.arranged = .ok () ∧ canonical = catalog.arranged := by
  simp only [canonicalizeCatalog, bind_eq_ok, Except.ok.injEq]
  exact ⟨fun ⟨_, valid, same⟩ => ⟨valid, same.symm⟩, fun ⟨valid, same⟩ => ⟨(), valid, same.symm⟩⟩

/-- Canonicalizing a second time changes nothing. -/
theorem canonicalizeCatalog_canonical {canonical : PackCatalog}
    (ok : canonicalizeCatalog blake3 catalog = .ok canonical) :
    canonicalizeCatalog blake3 canonical = .ok canonical := by
  obtain ⟨valid, rfl⟩ := canonicalizeCatalog_eq_ok.mp ok
  refine canonicalizeCatalog_eq_ok.mpr ⟨?_, catalog.arranged_arranged.symm⟩
  rw [catalog.arranged_arranged]
  exact valid

/-! ## Encoding and decoding -/

theorem encodeCatalog_eq_ok {json : CatalogJson} {first : String} {encoded : EncodedCatalog} :
    encodeCatalog json blake3 first catalog = .ok encoded ↔
      canonicalizeCatalog blake3 catalog = .ok encoded.catalog ∧
        json.toVec encoded.catalog = some encoded.bytes ∧
        encoded.bytes.length ≤ maxCatalogBytes ∧ encoded.digest = blake3Hex blake3 encoded.bytes ∧
        catalogObjectKey first encoded.catalog.selectorHash encoded.catalog.createdAtMs
          encoded.digest = .ok encoded.objectKey := by
  simp only [encodeCatalog, bind_eq_ok, okOr_eq_ok, bailIf_eq_ok, not_lt, Except.ok.injEq]
  constructor
  · rintro ⟨canonical, ok, bytes, written, _, small, objectKey, key, rfl⟩
    exact ⟨ok, written, small, rfl, key⟩
  · obtain ⟨bytes, digest, objectKey, canonical⟩ := encoded
    rintro ⟨ok, written, small, digest, key⟩
    simp only at ok written small digest key
    subst digest
    exact ⟨canonical, ok, bytes, written, (), small, objectKey, key, rfl⟩

/-- **What is encoded decodes.** -/
theorem decodeCatalog_encoded {json : CatalogJson} (parses : json.RoundTrips) {first : String}
    {encoded : EncodedCatalog} (accepted : encodeCatalog json blake3 first catalog = .ok encoded) :
    decodeCatalog json blake3 encoded.bytes encoded.digest = .ok encoded.catalog := by
  obtain ⟨ok, written, small, digest, key⟩ := encodeCatalog_eq_ok.mp accepted
  have valid : isValidCacheKey encoded.digest = true := by
    obtain ⟨_, -, key⟩ := bind_eq_ok.mp key
    obtain ⟨_, checked, -⟩ := bind_eq_ok.mp key
    exact validateCatalogDigest_eq_ok.mp checked
  simp only [decodeCatalog, bind_eq_ok, okOr_eq_ok, bailIf_eq_ok, not_lt, ne_eq, not_not,
    validateCatalogDigest_eq_ok, exists_const]
  exact ⟨valid, small, digest.symm, encoded.catalog, parses _ _ written, encoded.catalog,
    canonicalizeCatalog_canonical ok, rfl, rfl⟩

/-! ## Catalogs that list built packs -/

/-- What a catalog says of an entry of an index. -/
def PackIndexEntry.catalogEntry (entry : PackIndexEntry) : CatalogEntry :=
  ⟨entry.cacheKey, entry.crateName, entry.metaDigest⟩

/-- The reference to a pack, its entries in the order of the index. -/
def BuiltPack.ref (pack : BuiltPack) : CatalogPackRef :=
  ⟨pack.digest, UInt64.ofNat pack.bytes.length, pack.index.entries.map (·.catalogEntry)⟩

/-- A pack that `build_pack` produces. -/
def IsBuilt (json : IndexJson) (blake3 : Bytes → Bytes) (pack : BuiltPack) : Prop :=
  ∃ first entries maxBytes, buildPack json blake3 first entries maxBytes = .ok pack

/-- A reference to a pack, its entries in any order. -/
structure CatalogPackRef.Describes (ref : CatalogPackRef) (pack : BuiltPack) : Prop where
  digest : ref.digest = pack.digest
  packBytes : ref.packBytes.toNat = pack.bytes.length
  entries : ref.entries.Perm (pack.index.entries.map (·.catalogEntry))

/-- A catalog that lists packs, entries without a pack and shards, in any order. -/
structure PackCatalog.Lists (catalog : PackCatalog) (packs : List BuiltPack)
    (fallback : List CatalogEntry) (shards : List String) : Prop where
  packs : ∃ order : List BuiltPack, order.Perm packs ∧
    List.Forall₂ CatalogPackRef.Describes catalog.packs order
  fallback : catalog.fallbackEntries.Perm fallback
  shards : catalog.shardHashes.Perm shards

/-- Two catalogs of one selector, time and version. -/
structure PackCatalog.SameHeader (a b : PackCatalog) : Prop where
  version : a.version = b.version
  keySchema : a.keySchema = b.keySchema
  manifestKey : a.manifestKey = b.manifestKey
  nameSpace : a.nameSpace = b.nameSpace
  selectorHash : a.selectorHash = b.selectorHash
  createdAtMs : a.createdAtMs = b.createdAtMs
  expiresAtMs : a.expiresAtMs = b.expiresAtMs

section Listed

variable {json : IndexJson} {pack : BuiltPack}

/-- The keys of the index of a pack increase. -/
theorem IsBuilt.increase (built : IsBuilt json blake3 pack) :
    (pack.index.entries.map (·.cacheKey)).Pairwise (· < ·) := by
  obtain ⟨first, entries, maxBytes, build⟩ := built
  obtain ⟨-, -, -, sorted, rfl, laid, -, -, -, -, -, -, -, index⟩ := buildPack_eq_ok.mp build
  rw [index]
  show ((indexFrom 0 _).map _).Pairwise _
  rw [map_cacheKey_indexFrom]
  exact increase_of_laid laid

/-- **One order.**  Whatever order the entries of a pack are listed in, arranging them gives the
order of its index. -/
theorem CatalogPackRef.Describes.arranged_eq {ref : CatalogPackRef} (describes : ref.Describes pack)
    (built : IsBuilt json blake3 pack) : ref.arranged = pack.ref := by
  have keys : ((pack.index.entries.map (·.catalogEntry)).map (·.cacheKey)).Pairwise (· < ·) := by
    rw [List.map_map]
    exact built.increase
  have sorted : (pack.index.entries.map (·.catalogEntry)).Pairwise fun a b =>
      a.sortKey ≤ b.sortKey := by
    refine (List.pairwise_map.mp keys).imp fun less => ?_
    exact Prod.Lex.le_iff.mpr (.inl less)
  have apart : ∀ a ∈ ref.entries, ∀ b ∈ ref.entries, a.sortKey = b.sortKey → a = b := by
    intro a ha b hb same
    refine List.inj_on_of_nodup_map (keys.imp ne_of_lt) (describes.entries.mem_iff.mp ha)
      (describes.entries.mem_iff.mp hb) ?_
    exact congrArg (fun key : String ×ₗ String => (ofLex key).1) same
  have entries : sortByKey CatalogEntry.sortKey ref.entries =
      pack.index.entries.map (·.catalogEntry) := by
    rw [sortByKey_eq_of_perm describes.entries apart, sortByKey_of_pairwise sorted]
  have size : ref.packBytes = UInt64.ofNat pack.bytes.length := by
    rw [← describes.packBytes, UInt64.ofNat_toNat]
  show CatalogPackRef.mk _ _ _ = CatalogPackRef.mk _ _ _
  rw [entries, describes.digest, size]

variable {packs : List BuiltPack} {fallback : List CatalogEntry} {shards : List String}
  {catalog : PackCatalog}

/-- The packs of a catalog, arranged one by one, are those it lists. -/
theorem PackCatalog.Lists.arranged_packs (lists : catalog.Lists packs fallback shards)
    (built : ∀ pack ∈ packs, IsBuilt json blake3 pack) :
    (catalog.packs.map CatalogPackRef.arranged).Perm (packs.map BuiltPack.ref) := by
  obtain ⟨order, perm, describes⟩ := lists.packs
  have each : catalog.packs.map CatalogPackRef.arranged = order.map BuiltPack.ref := by
    have inside : ∀ pack ∈ order, IsBuilt json blake3 pack :=
      fun pack mem => built pack (perm.mem_iff.mp mem)
    clear perm lists
    generalize catalog.packs = refs at describes
    induction describes with
    | nil => rfl
    | cons here rest ih =>
      obtain ⟨first, others⟩ := List.forall_mem_cons.mp inside
      rw [List.map_cons, List.map_cons, here.arranged_eq first, ih others]
  rw [each]
  exact perm.map _

/-- **The order does not show**: catalogs that list the same are arranged to the same, if one of
them has no key and no pack twice. -/
theorem PackCatalog.Lists.arranged_eq {other : PackCatalog}
    (lists : catalog.Lists packs fallback shards)
    (lists' : other.Lists packs fallback shards) (header : other.SameHeader catalog)
    (built : ∀ pack ∈ packs, IsBuilt json blake3 pack) (keys : catalog.arranged.cacheKeys.Nodup)
    (digests : (catalog.arranged.packs.map (·.digest)).Nodup) :
    other.arranged = catalog.arranged := by
  have packs : sortByKey CatalogPackRef.digest (catalog.packs.map CatalogPackRef.arranged) =
      sortByKey CatalogPackRef.digest (other.packs.map CatalogPackRef.arranged) := by
    refine sortByKey_eq_of_perm
      ((lists.arranged_packs built).trans (lists'.arranged_packs built).symm) ?_
    intro a ha b hb same
    exact List.inj_on_of_nodup_map digests ((sortByKey_perm _ _).mem_iff.mpr ha)
      ((sortByKey_perm _ _).mem_iff.mpr hb) same
  have fallback : sortByKey CatalogEntry.sortKey catalog.fallbackEntries =
      sortByKey CatalogEntry.sortKey other.fallbackEntries := by
    refine sortByKey_eq_of_perm (lists.fallback.trans lists'.fallback.symm) ?_
    intro a ha b hb same
    rw [PackCatalog.cacheKeys, List.map_append] at keys
    refine List.inj_on_of_nodup_map (List.Nodup.of_append_right keys)
      ((sortByKey_perm _ _).mem_iff.mpr ha) ((sortByKey_perm _ _).mem_iff.mpr hb) ?_
    exact congrArg (fun key : String ×ₗ String => (ofLex key).1) same
  have shards : sortByKey id catalog.shardHashes = sortByKey id other.shardHashes :=
    sortByKey_eq_of_perm (lists.shards.trans lists'.shards.symm) fun _ _ _ _ same => same
  show PackCatalog.mk _ _ _ _ _ _ _ _ _ _ = PackCatalog.mk _ _ _ _ _ _ _ _ _ _
  rw [packs, fallback, shards, header.version, header.keySchema, header.manifestKey,
    header.nameSpace, header.selectorHash, header.createdAtMs, header.expiresAtMs]

/-- The keys of the arranged catalog are those of the packs and of the entries without one. -/
theorem PackCatalog.Lists.cacheKeys_perm (lists : catalog.Lists packs fallback shards)
    (built : ∀ pack ∈ packs, IsBuilt json blake3 pack) : catalog.arranged.cacheKeys.Perm
      ((packs.flatMap (·.index.entries)).map (·.cacheKey) ++ fallback.map (·.cacheKey)) := by
  have inPacks : (catalog.arranged.packs.flatMap (·.entries)).Perm
      ((packs.map BuiltPack.ref).flatMap (·.entries)) :=
    ((sortByKey_perm _ _).trans (lists.arranged_packs built)).flatMap_right _
  have listed : ((packs.map BuiltPack.ref).flatMap (·.entries)).map (·.cacheKey) =
      (packs.flatMap (·.index.entries)).map (·.cacheKey) := by
    rw [List.flatMap_map, List.map_flatMap, List.map_flatMap]
    refine List.flatMap_congr fun pack _ => ?_
    show (pack.index.entries.map _).map _ = _
    rw [List.map_map]
    rfl
  have outside : catalog.arranged.fallbackEntries.Perm fallback :=
    (sortByKey_perm _ _).trans lists.fallback
  rw [PackCatalog.cacheKeys, List.map_append, ← listed]
  exact (inPacks.map _).append (outside.map _)

/-- **Position by position**: the bytes of a pack are accepted against its reference. -/
theorem decodeCatalogPack_ref (parses : json.RoundTrips) (built : IsBuilt json blake3 pack)
    {cap : UInt64} (valid : ValidCap cap) (fits : pack.bytes.length ≤ cap.toNat) :
    ∃ decoded, decodeCatalogPack json blake3 pack.bytes pack.ref cap = .ok decoded ∧
      decoded.index = pack.index := by
  obtain ⟨first, entries, maxBytes, build⟩ := built
  have decode := decodePack_under_cap parses build valid fits
  obtain ⟨-, -, -, sorted, rfl, -, -, -, -, -, -, -, -, index⟩ := buildPack_eq_ok.mp build
  rw [← index] at decode
  have length : pack.bytes.length % 2 ^ 64 = (UInt64.ofNat pack.bytes.length).toNat :=
    (UInt64.toNat_ofNat' ..).symm
  refine ⟨pack.index.decoded ((sortByKey PackInputEntry.sortKey entries).flatMap (·.payload)),
    ?_, rfl⟩
  simp only [decodeCatalogPack, bind_eq_ok, bailIf_eq_ok, ne_eq, not_not,
    exists_const, inPack_eq_ok]
  refine ⟨length, _, decode, ?_, ⟨⟩, ?_, rfl⟩
  · simp [PackIndex.decoded, BuiltPack.ref]
  · refine forM_eq_ok.mpr fun item mem => bailIf_eq_ok.mpr ?_
    -- both lists are images of the index
    rw [show pack.ref.entries = pack.index.entries.map (·.catalogEntry) from rfl, PackIndex.decoded,
      List.zip_map', List.mem_map] at mem
    obtain ⟨entry, -, rfl⟩ := mem
    simp [PackIndexEntry.catalogEntry]

end Listed

/-! ## A catalog -/

/-- **Catalog and pack agree.**  If `encode_catalog` accepts a catalog of built packs, then every
catalog that lists the same encodes to the same; the bytes decode, with their digest, to the
canonical catalog, which canonicalizing leaves as it is; every key of the packs and of the entries
without one is in it once; and `decode_catalog_pack` accepts the bytes of every pack against its
reference. -/
theorem catalog_and_pack_agree {json : IndexJson} (parses : json.RoundTrips)
    {catalogJson : CatalogJson}
    (catalogParses : catalogJson.RoundTrips) {blake3 : Bytes → Bytes} {first : String}
    {packs : List BuiltPack} (built : ∀ pack ∈ packs, IsBuilt json blake3 pack)
    {fallback : List CatalogEntry} {shards : List String} {catalog : PackCatalog}
    (lists : catalog.Lists packs fallback shards) {encoded : EncodedCatalog}
    (accepted : encodeCatalog catalogJson blake3 first catalog = .ok encoded) :
    (∀ other : PackCatalog, other.Lists packs fallback shards → other.SameHeader catalog →
      encodeCatalog catalogJson blake3 first other = .ok encoded) ∧
    canonicalizeCatalog blake3 catalog = .ok encoded.catalog ∧
    decodeCatalog catalogJson blake3 encoded.bytes encoded.digest = .ok encoded.catalog ∧
    canonicalizeCatalog blake3 encoded.catalog = .ok encoded.catalog ∧
    (encoded.catalog.cacheKeys.Nodup ∧ encoded.catalog.cacheKeys.Perm
      ((packs.flatMap (·.index.entries)).map (·.cacheKey) ++ fallback.map (·.cacheKey))) ∧
    ∀ pack ∈ packs, ∃ ref ∈ encoded.catalog.packs, ref.digest = pack.digest ∧
      ∀ cap, ValidCap cap → pack.bytes.length ≤ cap.toNat →
        ∃ decoded, decodeCatalogPack json blake3 pack.bytes ref cap = .ok decoded ∧
          decoded.index = pack.index := by
  obtain ⟨ok, written⟩ := encodeCatalog_eq_ok.mp accepted
  obtain ⟨valid, canonical⟩ := canonicalizeCatalog_eq_ok.mp ok
  obtain ⟨keys, digests⟩ := nodup_of_validateCatalog valid
  refine ⟨?_, ok, decodeCatalog_encoded catalogParses accepted, canonicalizeCatalog_canonical ok,
    ?_, ?_⟩
  · intro other lists' header
    have same := lists.arranged_eq lists' header built keys digests
    refine encodeCatalog_eq_ok.mpr ⟨canonicalizeCatalog_eq_ok.mpr ?_, written⟩
    rw [same]
    exact ⟨valid, canonical⟩
  · rw [canonical]
    exact ⟨keys, lists.cacheKeys_perm built⟩
  · intro pack mem
    have inside : pack.ref ∈ encoded.catalog.packs := by
      rw [canonical]
      refine (sortByKey_perm _ _).mem_iff.mpr ((lists.arranged_packs built).mem_iff.mpr ?_)
      exact List.mem_map_of_mem mem
    exact ⟨pack.ref, inside, rfl, fun cap valid fits =>
      decodeCatalogPack_ref parses (built pack mem) valid fits⟩

/-- A hash that gives one digest for everything. -/
def zeroHash (_ : Bytes) : Bytes := List.replicate 32 0

theorem blake3Hex_zeroHash (bytes : Bytes) : blake3Hex zeroHash bytes = hexKey '0' := by
  show blake3Hex zeroHash [] = hexKey '0'
  decide +kernel

/-- A catalog of one pack of two entries, and one entry without a pack. -/
def smallCatalog (ref : CatalogPackRef) : PackCatalog :=
  ⟨1, 33, "manifest", "release", hexKey '0', [], 1, 2, [ref], [⟨hexKey 'c', "kache", hexKey '0'⟩]⟩

/-- The entries of the small index, the last one first. -/
def smallRef : CatalogPackRef :=
  ⟨hexKey '0', 21, [⟨hexKey 'b', "kache", hexKey '0'⟩, ⟨hexKey 'a', "kache", hexKey '0'⟩]⟩

/-- The reference in its canonical order. -/
def smallRefSorted : CatalogPackRef :=
  ⟨hexKey '0', 21, [⟨hexKey 'a', "kache", hexKey '0'⟩, ⟨hexKey 'b', "kache", hexKey '0'⟩]⟩

theorem hexKey_lt {c d : Char} (less : c < d) : hexKey c < hexKey d := by
  rw [String.lt_iff_toList_lt, hexKey, hexKey, String.toList_ofList, String.toList_ofList,
    List.replicate_succ, List.replicate_succ]
  exact List.Lex.rel less

theorem arranged_smallCatalog : (smallCatalog smallRef).arranged = smallCatalog smallRefSorted := by
  have less : ¬ (toLex (hexKey 'b', "kache") : String ×ₗ String) ≤ toLex (hexKey 'a', "kache") := by
    rw [not_le]
    exact Prod.Lex.lt_iff.mpr (.inl (hexKey_lt (by decide)))
  simp [PackCatalog.arranged, CatalogPackRef.arranged, smallCatalog, smallRef, smallRefSorted,
    sortByKey, List.insertionSort, List.orderedInsert, CatalogEntry.sortKey, less]

theorem valid_smallCatalog : validateCatalog zeroHash (smallCatalog smallRefSorted) = .ok () := by
  have digits : isValidCacheKey (hexKey '0') = true := isValidCacheKey_hexKey (by decide)
  have keys : isValidCacheKey (hexKey 'a') = true ∧ isValidCacheKey (hexKey 'b') = true ∧
      isValidCacheKey (hexKey 'c') = true :=
    ⟨isValidCacheKey_hexKey (by decide), isValidCacheKey_hexKey (by decide),
      isValidCacheKey_hexKey (by decide)⟩
  have apart : hexKey 'b' ≠ hexKey 'a' ∧ hexKey 'c' ≠ hexKey 'b' ∧ hexKey 'c' ≠ hexKey 'a' :=
    ⟨(hexKey_lt (by decide)).ne', (hexKey_lt (by decide)).ne', (hexKey_lt (by decide)).ne'⟩
  have name : isValidCrateName "kache" = true := by decide +kernel
  have texts : validateSelectorText .manifestKey "manifest" = .ok () ∧
      validateSelectorText .nameSpace "release" = .ok () := by decide +kernel
  have selector : selectorHash zeroHash "manifest" "release" [] 33 = .ok (hexKey '0') := by
    simp only [selectorHash, bind_eq_ok, bailIf_eq_ok, blake3Hex_zeroHash]
    exact ⟨(), texts.1, (), texts.2, (), Bool.false_ne_true, (), rfl, trivial⟩
  have claims : ∀ {key seen}, isValidCacheKey key = true → key ∉ seen →
      claimKey seen ⟨key, "kache", hexKey '0'⟩ = .ok (key :: seen) := by
    intro key seen valid fresh
    simp only [claimKey, bind_eq_ok, bailIf_eq_ok]
    exact ⟨(), inPack_eq_ok.mpr (validateEntryFields_eq_ok.mpr ⟨valid, name, digits⟩), (),
      fresh, trivial⟩
  have entries : smallRefSorted.entries.foldlM claimKey [] = .ok [hexKey 'b', hexKey 'a'] := by
    refine bind_eq_ok.mpr ⟨_, claims keys.1 List.not_mem_nil,
      bind_eq_ok.mpr ⟨_, claims keys.2.1 ?_, rfl⟩⟩
    simpa using apart.1
  have pack : checkPack ⟨[], [], 0⟩ smallRefSorted =
      .ok ⟨[hexKey '0'], [hexKey 'b', hexKey 'a'], 2⟩ := by
    simp only [checkPack, bind_eq_ok, bailIf_eq_ok, okOr_eq_ok]
    exact ⟨(), validateCatalogDigest_eq_ok.mpr digits, (), List.not_mem_nil,
      (), by decide, (), by decide, _, entries, 2, by decide, rfl⟩
  have fallback : claimKey [hexKey 'b', hexKey 'a'] ⟨hexKey 'c', "kache", hexKey '0'⟩ =
      .ok [hexKey 'c', hexKey 'b', hexKey 'a'] := by
    refine claims keys.2.2 ?_
    simpa using ⟨apart.2.1, apart.2.2⟩
  simp only [validateCatalog, bind_eq_ok, bailIf_eq_ok, okOr_eq_ok]
  exact ⟨(), by decide, (), by decide, (), texts.1, (), texts.2, (), by decide, (),
    Bool.false_ne_true, (), rfl, _, selector, (), fun no => no rfl, (), by decide, _,
    bind_eq_ok.mpr ⟨_, pack, rfl⟩, _, bind_eq_ok.mpr ⟨_, fallback, rfl⟩, 3, by decide, by decide⟩

/-- A serializer that knows one catalog. -/
def smallCatalogJson : CatalogJson where
  toVec catalog := if catalog = smallCatalog smallRefSorted then some (utf8 "\x7b\x7d") else none
  fromSlice bytes := if bytes = utf8 "\x7b\x7d" then some (smallCatalog smallRefSorted) else none

theorem roundTrips_smallCatalogJson : smallCatalogJson.RoundTrips := by
  intro catalog bytes written
  obtain ⟨rfl, same⟩ := Option.ite_none_right_eq_some.mp written
  cases same
  simp [smallCatalogJson]

theorem encodes_smallCatalog :
    ∃ encoded, encodeCatalog smallCatalogJson zeroHash "p" (smallCatalog smallRef) =
      .ok encoded := by
  have canonical : canonicalizeCatalog zeroHash (smallCatalog smallRef) =
      .ok (smallCatalog smallRefSorted) :=
    canonicalizeCatalog_eq_ok.mpr
      ⟨arranged_smallCatalog ▸ valid_smallCatalog, arranged_smallCatalog.symm⟩
  have digits : isValidCacheKey (hexKey '0') = true := isValidCacheKey_hexKey (by decide)
  let written : Bytes := utf8 "\x7b\x7d"
  let encoded : EncodedCatalog := ⟨written, blake3Hex zeroHash written,
    joinRemoteKey "p" ("v4/prefetch/catalogs/" ++ hexKey '0' ++ "/" ++ twentyDigits 1 ++ "-" ++
      blake3Hex zeroHash written ++ ".json"), smallCatalog smallRefSorted⟩
  have key : catalogObjectKey "p" encoded.catalog.selectorHash encoded.catalog.createdAtMs
      encoded.digest = .ok encoded.objectKey := by
    simp only [catalogObjectKey, bind_eq_ok]
    refine ⟨(), validateCatalogDigest_eq_ok.mpr digits, (), validateCatalogDigest_eq_ok.mpr ?_, rfl⟩
    show isValidCacheKey (blake3Hex zeroHash _) = true
    rw [blake3Hex_zeroHash]
    exact digits
  exact ⟨encoded, encodeCatalog_eq_ok.mpr
    ⟨canonical, by simp [smallCatalogJson, encoded, written], by decide, rfl, key⟩⟩

/-- A pack is built and listed, and its catalog encoded. -/
theorem catalog_and_pack_agree_small :
    ∃ pack encoded, IsBuilt smallJson zeroHash pack ∧
      encodeCatalog smallCatalogJson zeroHash "p" (smallCatalog smallRef) = .ok encoded ∧
      decodeCatalog smallCatalogJson zeroHash encoded.bytes encoded.digest = .ok encoded.catalog ∧
      ∃ ref ∈ encoded.catalog.packs, ref.digest = pack.digest := by
  obtain ⟨pack, build, -⟩ := wellFormed_smallIndex.exists_rebuilt roundTrips_smallJson
    (fun _ => List.length_replicate : ∀ bytes, (zeroHash bytes).length = 32) "p" roomFor_smallIndex
  obtain ⟨-, -, -, sorted, rfl, -, json, written, -, -, bytes, digest, -, index⟩ :=
    buildPack_eq_ok.mp build
  obtain ⟨encoded, accepted⟩ := encodes_smallCatalog
  have built : IsBuilt smallJson zeroHash pack := ⟨_, _, _, build⟩
  have wellFormed := wellFormed_smallIndex
  rw [wellFormed.sort_inputs, wellFormed.indexOf_inputs, toVec_smallIndex] at written
  rw [wellFormed.sort_inputs, wellFormed.flatMap_inputs, ← Option.some.inj written] at bytes
  rw [wellFormed.sort_inputs, wellFormed.indexOf_inputs] at index
  have describes : smallRef.Describes pack := by
    refine ⟨?_, ?_, ?_⟩
    · exact (digest.trans (blake3Hex_zeroHash pack.bytes)).symm
    · rw [bytes, length_packBytes]
      rfl
    · rw [index]
      exact .swap _ _ _
  have lists : (smallCatalog smallRef).Lists [pack] (smallCatalog smallRef).fallbackEntries [] :=
    ⟨⟨[pack], .refl _, .cons describes .nil⟩, .refl _, .refl _⟩
  have agree := catalog_and_pack_agree roundTrips_smallJson roundTrips_smallCatalogJson
    (List.forall_mem_singleton.mpr built) lists accepted
  obtain ⟨ref, inside, same, -⟩ := agree.2.2.2.2.2 pack (List.mem_singleton_self _)
  exact ⟨pack, encoded, built, accepted, agree.2.2.1, ref, inside, same⟩

end Kache.Pack
