import Kache.Remote.Pack
import Kache.Foundation.Text

/-!
# Catalogs of prefetch packs

A catalog lists, for one selector (a manifest, a namespace and a set of Cargo.lock shards), the
packs that are there with the entries in each, and the entries left without a pack.  It is stored
under a name that has its time and its digest in it.

`encode_catalog` brings a catalog into its canonical order before it is written, and
`decode_catalog` takes no other.  As for the index of a pack, the JSON of a catalog is a parameter
(`CatalogJson`).
-/

namespace Kache.Pack

/-! ## Data -/

/-- `CATALOG_VERSION`. -/
def catalogVersion : ℕ := 1

/-- `MAX_CATALOG_BYTES`: 64 MiB. -/
def maxCatalogBytes : ℕ := 64 * 1024 * 1024

/-- `MAX_CATALOG_PACKS`. -/
def maxCatalogPacks : ℕ := 16384

/-- `MAX_SELECTOR_TEXT_BYTES`. -/
def maxSelectorTextBytes : ℕ := 4096

/-- `CatalogEntry`. -/
@[ext]
structure CatalogEntry where
  cacheKey : String
  crateName : String
  metaDigest : String
  deriving DecidableEq, Repr

/-- `CatalogPackRef`. -/
@[ext]
structure CatalogPackRef where
  digest : String
  packBytes : UInt64
  entries : List CatalogEntry
  deriving DecidableEq, Repr

/-- `PackCatalog`. -/
@[ext]
structure PackCatalog where
  version : ℕ
  keySchema : ℕ
  manifestKey : String
  nameSpace : String
  selectorHash : String
  shardHashes : List String
  createdAtMs : UInt64
  expiresAtMs : UInt64
  packs : List CatalogPackRef
  fallbackEntries : List CatalogEntry
  deriving DecidableEq, Repr

/-- `EncodedCatalog`. -/
structure EncodedCatalog where
  bytes : Bytes
  digest : String
  objectKey : String
  catalog : PackCatalog
  deriving DecidableEq, Repr

/-- `CatalogObjectRef`. -/
structure CatalogObjectRef where
  objectKey : String
  createdAtMs : UInt64
  digest : String
  deriving DecidableEq, Repr

/-- What a digest that is not one was supposed to be. -/
inductive CatalogDigest where
  | catalogSelector
  | catalogDigest
  | expectedCatalogDigest
  | shardHash
  | packDigest
  deriving DecidableEq, Repr

/-- Which text of a selector was rejected. -/
inductive SelectorText where
  | manifestKey
  | nameSpace
  deriving DecidableEq, Repr

/-- The errors, with what their texts mention. -/
inductive CatalogError where
  | notADigest (label : CatalogDigest) (value : String)
  | selectorText (label : SelectorText)
  | duplicateSelectorShard
  | unsupportedVersion (version : ℕ)
  | otherKeySchema (keySchema : ℕ)
  | expiry
  | duplicateShard
  | selectorMismatch (expected actual : String)
  | tooManyPacks (count : ℕ)
  | duplicatePack (digest : String)
  | packSize (digest : String) (packBytes : UInt64)
  | packEntryCount (digest : String)
  | duplicateCacheKey (cacheKey : String)
  | entryCountOverflow
  | tooManyEntries (count : ℕ)
  | serializing
  | tooLarge
  | digestMismatch (expected actual : String)
  | parsing
  | notCanonicallyOrdered
  | packSizeMismatch (catalog : UInt64) (object : ℕ)
  | packEntryCountMismatch
  | packIndexMismatch
  | inPack (fault : Fault)
  deriving DecidableEq, Repr

/-- `serde_json::to_vec` and `serde_json::from_slice` at `PackCatalog`. -/
structure CatalogJson where
  toVec : PackCatalog → Option Bytes
  fromSlice : Bytes → Option PackCatalog

/-- What was serialized parses to what it was. -/
def CatalogJson.RoundTrips (json : CatalogJson) : Prop :=
  ∀ catalog bytes, json.toVec catalog = some bytes → json.fromSlice bytes = some catalog

/-- An error of the functions on packs, as `?` passes it on. -/
def inPack {α : Type} : Except Fault α → Except CatalogError α
  | .ok a => .ok a
  | .error fault => .error (.inPack fault)

/-! ## Selectors -/

/-- `validate_digest`, with the labels of a catalog. -/
def validateCatalogDigest (label : CatalogDigest) (value : String) : Except CatalogError Unit :=
  bailIf (isValidCacheKey value = false) (.notADigest label value)

/-- `char::is_control`. -/
def isControl (c : Char) : Bool := c.toNat < 0x20 || (0x7F ≤ c.toNat && c.toNat < 0xA0)

/-- `validate_selector_text`. -/
def validateSelectorText (label : SelectorText) (value : String) : Except CatalogError Unit :=
  bailIf (value = "" ∨ maxSelectorTextBytes < (utf8 value).length ∨ value.toList.any isControl)
    (.selectorText label)

/-- `windows(2).any(|pair| pair[0] == pair[1])`. -/
def hasEqualNeighbours : List String → Bool
  | a :: b :: rest => a == b || hasEqualNeighbours (b :: rest)
  | _ => false

/-- What `hash_field` adds to a hash. -/
def hashField (value : Bytes) : Bytes := leBytes 8 value.length ++ value

/-- `selector_hash`. -/
def selectorHash (blake3 : Bytes → Bytes) (manifestKey nameSpace : String)
    (shardHashes : List String) (keySchema : ℕ) : Except CatalogError String := do
  validateSelectorText .manifestKey manifestKey
  validateSelectorText .nameSpace nameSpace
  let shards := sortByKey id shardHashes
  bailIf (hasEqualNeighbours shards) .duplicateSelectorShard
  shards.forM (validateCatalogDigest .shardHash)
  .ok (blake3Hex blake3 (utf8 "kache-prefetch-selector-v1" ++ hashField (utf8 manifestKey) ++
    hashField (utf8 nameSpace) ++ leBytes 4 keySchema ++ leBytes 8 shards.length ++
    shards.flatMap fun shard => hashField (utf8 shard)))

/-! ## Object keys -/

/-- `catalog_prefix`. -/
def catalogPrefix (first selector : String) : Except CatalogError String := do
  validateCatalogDigest .catalogSelector selector
  .ok (joinRemoteKey first ("v4/prefetch/catalogs/" ++ selector ++ "/"))

/-- `{n:020}`. -/
def twentyDigits (n : ℕ) : String := String.ofList ((Nat.toDigits 10 n).leftpad 20 '0')

/-- `catalog_object_key`. -/
def catalogObjectKey (first selector : String) (createdAtMs : UInt64) (digest : String) :
    Except CatalogError String := do
  validateCatalogDigest .catalogSelector selector
  validateCatalogDigest .catalogDigest digest
  .ok (joinRemoteKey first ("v4/prefetch/catalogs/" ++ selector ++ "/" ++
    twentyDigits createdAtMs.toNat ++ "-" ++ digest ++ ".json"))

/-- `str::strip_prefix`. -/
def stripStart (start text : List Char) : Option (List Char) :=
  if start <+: text then some (text.drop start.length) else none

/-- `str::strip_suffix`. -/
def stripEnd (tail text : List Char) : Option (List Char) :=
  if tail <:+ text then some (text.take (text.length - tail.length)) else none

/-- `str::split_once`. -/
def splitOnceAt (sep : Char) (text : List Char) : Option (List Char × List Char) :=
  match text.dropWhile (· ≠ sep) with
  | [] => none
  | _ :: after => some (text.takeWhile (· ≠ sep), after)

/-- `parse_catalog_object_ref`. -/
def parseCatalogObjectRef (start key : String) : Option CatalogObjectRef := do
  let filename ← (stripStart start.toList key.toList).bind (stripEnd ".json".toList)
  let (createdAt, digest) ← splitOnceAt '-' filename
  if createdAt.length ≠ 20 ∨ ¬ createdAt.all Char.isDigit then none
  else if isValidCacheKey (String.ofList digest) = false then none
  else
    let createdAtMs ← Text.parseUsize createdAt
    some ⟨key, UInt64.ofNat createdAtMs, String.ofList digest⟩

/-- The order in which `latest_catalog_object` looks for the greatest. -/
def CatalogObjectRef.age (ref : CatalogObjectRef) : ℕ ×ₗ String :=
  toLex (ref.createdAtMs.toNat, ref.digest)

/-- `latest_catalog_object`. -/
def latestCatalogObject (first selector : String) (objectKeys : List String) :
    Except CatalogError (Option CatalogObjectRef) := do
  let expectedPrefix ← catalogPrefix first selector
  .ok (maxByKey CatalogObjectRef.age (objectKeys.filterMap (parseCatalogObjectRef expectedPrefix)))

/-! ## The canonical order -/

/-- `validate_entry`. -/
def validateEntry (entry : CatalogEntry) : Except CatalogError Unit :=
  inPack (validateEntryFields entry.cacheKey entry.crateName entry.metaDigest)

/-- An entry is checked and its key added to those seen. -/
def claimKey (cacheKeys : List String) (entry : CatalogEntry) : Except CatalogError (List String) :=
  do
  validateEntry entry
  bailIf (entry.cacheKey ∈ cacheKeys) (.duplicateCacheKey entry.cacheKey)
  .ok (entry.cacheKey :: cacheKeys)

/-- The variables of the loop over the packs. -/
structure Seen where
  packDigests : List String
  cacheKeys : List String
  totalEntries : ℕ

/-- One round of it. -/
def checkPack (seen : Seen) (pack : CatalogPackRef) : Except CatalogError Seen := do
  validateCatalogDigest .packDigest pack.digest
  bailIf (pack.digest ∈ seen.packDigests) (.duplicatePack pack.digest)
  bailIf (pack.packBytes = 0 ∨ defaultMaxPackBytes < pack.packBytes.toNat)
    (.packSize pack.digest pack.packBytes)
  bailIf (pack.entries = [] ∨ maxPackEntries < pack.entries.length) (.packEntryCount pack.digest)
  let cacheKeys ← pack.entries.foldlM claimKey seen.cacheKeys
  let totalEntries ← okOr .entryCountOverflow
    (usizeCheckedAdd seen.totalEntries pack.entries.length)
  .ok ⟨pack.digest :: seen.packDigests, cacheKeys, totalEntries⟩

/-- `validate_catalog`. -/
def validateCatalog (blake3 : Bytes → Bytes) (catalog : PackCatalog) : Except CatalogError Unit :=
  do
  bailIf (catalog.version ≠ catalogVersion) (.unsupportedVersion catalog.version)
  bailIf (catalog.keySchema ≠ cacheKeyVersion) (.otherKeySchema catalog.keySchema)
  validateSelectorText .manifestKey catalog.manifestKey
  validateSelectorText .nameSpace catalog.nameSpace
  bailIf (catalog.expiresAtMs ≤ catalog.createdAtMs) .expiry
  bailIf (hasEqualNeighbours catalog.shardHashes) .duplicateShard
  catalog.shardHashes.forM (validateCatalogDigest .shardHash)
  let expectedSelector ←
    selectorHash blake3 catalog.manifestKey catalog.nameSpace catalog.shardHashes catalog.keySchema
  bailIf (catalog.selectorHash ≠ expectedSelector)
    (.selectorMismatch expectedSelector catalog.selectorHash)
  bailIf (maxCatalogPacks < catalog.packs.length) (.tooManyPacks catalog.packs.length)
  let seen ← catalog.packs.foldlM checkPack ⟨[], [], 0⟩
  let _ ← catalog.fallbackEntries.foldlM claimKey seen.cacheKeys
  let totalEntries ← okOr .entryCountOverflow
    (usizeCheckedAdd seen.totalEntries catalog.fallbackEntries.length)
  bailIf (maxPackEntries < totalEntries) (.tooManyEntries totalEntries)

/-- The order of the entries of a pack, and of those without one. -/
def CatalogEntry.sortKey (entry : CatalogEntry) : String ×ₗ String :=
  toLex (entry.cacheKey, entry.crateName)

/-- A pack with its entries in order. -/
def CatalogPackRef.arranged (pack : CatalogPackRef) : CatalogPackRef :=
  { pack with entries := sortByKey CatalogEntry.sortKey pack.entries }

/-- The catalog in order. -/
def PackCatalog.arranged (catalog : PackCatalog) : PackCatalog :=
  { catalog with
    shardHashes := sortByKey id catalog.shardHashes
    packs := sortByKey CatalogPackRef.digest (catalog.packs.map CatalogPackRef.arranged)
    fallbackEntries := sortByKey CatalogEntry.sortKey catalog.fallbackEntries }

/-- `canonicalize_catalog`. -/
def canonicalizeCatalog (blake3 : Bytes → Bytes) (catalog : PackCatalog) :
    Except CatalogError PackCatalog := do
  validateCatalog blake3 catalog.arranged
  .ok catalog.arranged

/-! ## Encoding and decoding -/

/-- `encode_catalog`. -/
def encodeCatalog (json : CatalogJson) (blake3 : Bytes → Bytes) (first : String)
    (catalog : PackCatalog) : Except CatalogError EncodedCatalog := do
  let catalog ← canonicalizeCatalog blake3 catalog
  let bytes ← okOr .serializing (json.toVec catalog)
  bailIf (maxCatalogBytes < bytes.length) .tooLarge
  let digest := blake3Hex blake3 bytes
  let objectKey ← catalogObjectKey first catalog.selectorHash catalog.createdAtMs digest
  .ok ⟨bytes, digest, objectKey, catalog⟩

/-- `decode_catalog`. -/
def decodeCatalog (json : CatalogJson) (blake3 : Bytes → Bytes) (bytes : Bytes)
    (expectedDigest : String) : Except CatalogError PackCatalog := do
  validateCatalogDigest .expectedCatalogDigest expectedDigest
  bailIf (maxCatalogBytes < bytes.length) .tooLarge
  let actualDigest := blake3Hex blake3 bytes
  bailIf (actualDigest ≠ expectedDigest) (.digestMismatch expectedDigest actualDigest)
  let catalog ← okOr .parsing (json.fromSlice bytes)
  let canonical ← canonicalizeCatalog blake3 catalog
  bailIf (canonical ≠ catalog) .notCanonicallyOrdered
  .ok catalog

/-- `decode_catalog_pack`. -/
def decodeCatalogPack (json : IndexJson) (blake3 : Bytes → Bytes) (bytes : Bytes)
    (pack : CatalogPackRef) (maxBytes : UInt64) : Except CatalogError DecodedPack := do
  bailIf (bytes.length % 2 ^ 64 ≠ pack.packBytes.toNat)
    (.packSizeMismatch pack.packBytes bytes.length)
  let decoded ← inPack (decodePack json blake3 bytes pack.digest maxBytes)
  bailIf (decoded.entries.length ≠ pack.entries.length) .packEntryCountMismatch
  (decoded.entries.zip pack.entries).forM fun (decoded, catalog) =>
    bailIf (decoded.descriptor.cacheKey ≠ catalog.cacheKey ∨
      decoded.descriptor.crateName ≠ catalog.crateName ∨
      decoded.descriptor.metaDigest ≠ catalog.metaDigest) .packIndexMismatch
  .ok decoded

end Kache.Pack
