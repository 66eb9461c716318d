import Kache.Foundation.Checks
import Kache.Memo.Preprocess
import Mathlib.Algebra.Ring.Nat
import Mathlib.Data.Prod.Lex
import Mathlib.Data.String.Basic

/-!
# Prefetch packs

A pack carries several entries of the remote store in one object:

    KACHPK01 | index length: u64 | index JSON | payloads

`build_pack` sorts its entries by key and lays their payloads out one after the other;
`decode_pack` takes such an object apart, from bytes that may come from anyone.

The JSON of the index is a parameter (`IndexJson`), and so is `blake3`.  What the source
would answer with a panic, a slice out of bounds or a failed `expect`, is the fault
`panic`, told apart from an error it returns.  `usize` has 64 bits.
-/

namespace Kache.Pack

/-! ## Data -/

/-- `PACK_VERSION`. -/
def packVersion : ℕ := 1

/-- `DEFAULT_MAX_PACK_BYTES`: 256 MiB. -/
def defaultMaxPackBytes : ℕ := 256 * 1024 * 1024

/-- `PACK_MAGIC`: `KACHPK01`. -/
def packMagic : Bytes := [75, 65, 67, 72, 80, 75, 48, 49]

/-- `PACK_HEADER_BYTES`. -/
def packHeaderBytes : ℕ := packMagic.length + 8

/-- `MAX_PACK_INDEX_BYTES`: 16 MiB. -/
def maxPackIndexBytes : ℕ := 16 * 1024 * 1024

/-- `MAX_PACK_ENTRIES`. -/
def maxPackEntries : ℕ := 65536

/-- `PackInputEntry`. -/
structure PackInputEntry where
  cacheKey : String
  crateName : String
  metaDigest : String
  payload : Bytes
  deriving DecidableEq, Repr

/-- `PackIndexEntry`.  The offset is relative to the first payload byte. -/
structure PackIndexEntry where
  cacheKey : String
  crateName : String
  metaDigest : String
  offset : UInt64
  length : UInt64
  deriving DecidableEq, Repr

/-- `PackIndex`. -/
structure PackIndex where
  version : ℕ
  keySchema : ℕ
  entries : List PackIndexEntry
  deriving DecidableEq, Repr

/-- `BuiltPack`. -/
structure BuiltPack where
  bytes : Bytes
  digest : String
  objectKey : String
  index : PackIndex
  deriving DecidableEq, Repr

/-- `DecodedPackEntry`. -/
structure DecodedPackEntry where
  descriptor : PackIndexEntry
  payload : Bytes
  deriving DecidableEq, Repr

/-- `DecodedPack`. -/
structure DecodedPack where
  index : PackIndex
  entries : List DecodedPackEntry
  deriving DecidableEq, Repr

/-- What a digest that is not one was supposed to be. -/
inductive DigestLabel where
  | packDigest
  | expectedPackDigest
  | entryMetadataDigest
  deriving DecidableEq, Repr

/-- The errors, with what their texts mention. -/
inductive PackError where
  | cap (maxBytes : UInt64)
  | empty
  | tooManyEntries (count : ℕ)
  | invalidCacheKey (cacheKey : String)
  | unsafeCrateName (crateName : String)
  | notADigest (label : DigestLabel) (value : String)
  | duplicateCacheKey (cacheKey : String)
  | emptyPayload (cacheKey : String)
  | entryLengthOverflow
  | payloadLengthOverflow
  | serializing
  | indexTooLarge
  | packLengthOverflow
  | aboveCap (length : ℕ) (maxBytes : UInt64)
  | digestMismatch (expected actual : String)
  | magicOrTruncated
  | indexLengthOverflow
  | indexBeyondObject
  | parsing
  | unsupportedVersion (version : ℕ)
  | otherKeySchema (keySchema : ℕ)
  | entryCount
  | notCanonicallyOrdered
  | frames
  | frameTotal (total : UInt64) (payloadLen : ℕ)
  deriving DecidableEq, Repr

/-- How a call ends without a result. -/
inductive Fault where
  | bail (error : PackError)
  | panic
  deriving DecidableEq, Repr

/-- `serde_json::to_vec` and `serde_json::from_slice` at `PackIndex`. -/
structure IndexJson where
  toVec : PackIndex → Option Bytes
  fromSlice : Bytes → Option PackIndex

/-- What was serialized parses to what it was. -/
def IndexJson.RoundTrips (json : IndexJson) : Prop :=
  ∀ index bytes, json.toVec index = some bytes → json.fromSlice bytes = some index

/-! ## Machine integers and slices -/

/-- `u64::checked_add`. -/
def checkedAdd (a b : UInt64) : Option UInt64 :=
  if a.toNat + b.toNat < 2 ^ 64 then some (a + b) else none

/-- `usize::checked_add`. -/
def usizeCheckedAdd (a b : ℕ) : Option ℕ := if a + b < 2 ^ 64 then some (a + b) else none

/-- `u64::try_from` of a length. -/
def u64TryFrom (n : ℕ) : Option UInt64 := if n < 2 ^ 64 then some (UInt64.ofNat n) else none

/-- `usize::try_from` of a `u64`. -/
def usizeTryFrom (n : UInt64) : Option ℕ := some n.toNat

/-- `&bytes[start..stop]`. -/
def slice (bytes : Bytes) (start stop : ℕ) : Except Fault Bytes :=
  if start ≤ stop ∧ stop ≤ bytes.length then .ok ((bytes.drop start).take (stop - start))
  else .error .panic

/-- `&s[..n]`: the characters that take up the first `n` bytes. -/
def strSliceTo (s : String) (n : ℕ) : Except Fault String :=
  match ((List.range (n + 1)).map (s.toList.take ·)).find? fun chars =>
      (chars.map Char.utf8Size).sum = n with
  | some chars => .ok (String.ofList chars)
  | none => .error .panic

/-- `u64::from_le_bytes(bytes.try_into().expect(…))`. -/
def u64FromLeBytes (bytes : Bytes) : Except Fault UInt64 :=
  if bytes.length = 8 then .ok (UInt64.ofNat (leValue bytes)) else .error .panic

/-- `blake3::hash(bytes).to_hex()`. -/
def blake3Hex (blake3 : Bytes → Bytes) (bytes : Bytes) : String :=
  String.ofList ((blake3 bytes).flatMap fun b =>
    [Memo.hexDigit (b.toNat / 16), Memo.hexDigit (b.toNat % 16)])

/-! ## Validators -/

/-- `validate_pack_cap`. -/
def validatePackCap (maxBytes : UInt64) : Except Fault Unit :=
  bailIf (maxBytes = 0 ∨ defaultMaxPackBytes < maxBytes.toNat) (.bail (.cap maxBytes))

/-- `validate_digest`. -/
def validateDigest (label : DigestLabel) (value : String) : Except Fault Unit :=
  bailIf (isValidCacheKey value = false) (.bail (.notADigest label value))

/-- `validate_entry_fields`. -/
def validateEntryFields (cacheKey crateName metaDigest : String) : Except Fault Unit := do
  bailIf (isValidCacheKey cacheKey = false) (.bail (.invalidCacheKey cacheKey))
  bailIf (isValidCrateName crateName = false) (.bail (.unsafeCrateName crateName))
  validateDigest .entryMetadataDigest metaDigest

/-- `checked_file_region`. -/
def checkedFileRegion (fileLen : ℕ) (offset size : UInt64) (minimumOffset : ℕ) :
    Option (ℕ × ℕ) := do
  let start ← usizeTryFrom offset
  let size ← usizeTryFrom size
  if size ≠ 0 ∧ start < minimumOffset then none
  else
    let stop ← usizeCheckedAdd start size
    if fileLen < stop then none else some (start, stop)

/-- `checked_nonempty_contiguous_region`. -/
def checkedNonemptyContiguousRegion (expectedOffset offset length : UInt64) (payloadLen : ℕ) :
    Option (UInt64 × ℕ × ℕ) :=
  if offset ≠ expectedOffset ∨ length = 0 then none
  else do
    let nextOffset ← checkedAdd offset length
    let range ← checkedFileRegion payloadLen offset length 0
    some (nextOffset, range)

/-- The variables of the loop of `validate_pack_index`. -/
structure Scan where
  expectedOffset : UInt64
  previousKey : Option String
  ranges : List (ℕ × ℕ)

/-- One round of it. -/
def scanEntry (payloadLen : ℕ) (scan : Scan) (entry : PackIndexEntry) : Except Fault Scan := do
  validateEntryFields entry.cacheKey entry.crateName entry.metaDigest
  bailIf (∃ previous ∈ scan.previousKey, entry.cacheKey ≤ previous) (.bail .notCanonicallyOrdered)
  let (nextOffset, range) ← okOr (.bail .frames)
    (checkedNonemptyContiguousRegion scan.expectedOffset entry.offset entry.length payloadLen)
  .ok ⟨nextOffset, some entry.cacheKey, scan.ranges ++ [range]⟩

/-- `validate_pack_index`. -/
def validatePackIndex (index : PackIndex) (payloadLen : ℕ) : Except Fault (List (ℕ × ℕ)) := do
  bailIf (index.version ≠ packVersion) (.bail (.unsupportedVersion index.version))
  bailIf (index.keySchema ≠ cacheKeyVersion) (.bail (.otherKeySchema index.keySchema))
  bailIf (index.entries = [] ∨ maxPackEntries < index.entries.length) (.bail .entryCount)
  let scan ← index.entries.foldlM (scanEntry payloadLen) ⟨0, none, []⟩
  let payloadLen ← okOr (.bail .payloadLengthOverflow) (u64TryFrom payloadLen)
  bailIf (scan.expectedOffset ≠ payloadLen)
    (.bail (.frameTotal scan.expectedOffset payloadLen.toNat))
  .ok scan.ranges

/-! ## Object keys -/

/-- `join_remote_key`. -/
def joinRemoteKey (first rest : String) : String :=
  if first = "" then rest else first ++ "/" ++ rest

/-- `pack_object_key`. -/
def packObjectKey (first digest : String) : Except Fault String := do
  validateDigest .packDigest digest
  let shard ← strSliceTo digest 2
  .ok (joinRemoteKey first ("v4/prefetch/packs/" ++ shard ++ "/" ++ digest ++ ".kpack"))

/-! ## Building -/

/-- The variables of the loop of `build_pack`. -/
structure Layout where
  indexEntries : List PackIndexEntry
  nextOffset : UInt64
  previousKey : Option String

/-- One round of it. -/
def layEntry (layout : Layout) (entry : PackInputEntry) : Except Fault Layout := do
  validateEntryFields entry.cacheKey entry.crateName entry.metaDigest
  bailIf (layout.previousKey = some entry.cacheKey) (.bail (.duplicateCacheKey entry.cacheKey))
  bailIf (entry.payload = []) (.bail (.emptyPayload entry.cacheKey))
  let length ← okOr (.bail .entryLengthOverflow) (u64TryFrom entry.payload.length)
  let nextOffset ← okOr (.bail .payloadLengthOverflow) (checkedAdd layout.nextOffset length)
  .ok ⟨layout.indexEntries ++
    [⟨entry.cacheKey, entry.crateName, entry.metaDigest, layout.nextOffset, length⟩],
    nextOffset, some entry.cacheKey⟩

/-- The order `build_pack` puts its entries in. -/
def PackInputEntry.sortKey (entry : PackInputEntry) : String ×ₗ String :=
  toLex (entry.cacheKey, entry.crateName)

/-- The bytes of a pack. -/
def packBytes (indexJson payload : Bytes) : Bytes :=
  packMagic ++ leBytes 8 indexJson.length ++ indexJson ++ payload

/-- `build_pack`. -/
def buildPack (json : IndexJson) (blake3 : Bytes → Bytes) (first : String)
    (entries : List PackInputEntry) (maxBytes : UInt64) : Except Fault BuiltPack := do
  validatePackCap maxBytes
  bailIf (entries = []) (.bail .empty)
  bailIf (maxPackEntries < entries.length) (.bail (.tooManyEntries entries.length))
  let entries := sortByKey PackInputEntry.sortKey entries
  let layout ← entries.foldlM layEntry ⟨[], 0, none⟩
  let index : PackIndex := ⟨packVersion, cacheKeyVersion, layout.indexEntries⟩
  let indexJson ← okOr (.bail .serializing) (json.toVec index)
  bailIf (maxPackIndexBytes < indexJson.length) (.bail .indexTooLarge)
  let payloadLen ← okOr (.bail .payloadLengthOverflow) (usizeTryFrom layout.nextOffset)
  let totalLen ← okOr (.bail .packLengthOverflow)
    ((usizeCheckedAdd packHeaderBytes indexJson.length).bind (usizeCheckedAdd · payloadLen))
  bailIf (maxBytes.toNat < totalLen) (.bail (.aboveCap totalLen maxBytes))
  let bytes := packBytes indexJson (entries.flatMap (·.payload))
  let digest := blake3Hex blake3 bytes
  let objectKey ← packObjectKey first digest
  .ok ⟨bytes, digest, objectKey, index⟩

/-! ## Decoding -/

/-- Whether an object starts like a pack; a short one is not sliced. -/
def hasHeader (bytes : Bytes) : Except Fault Bool :=
  if bytes.length < packHeaderBytes then .ok false
  else do
    let magic ← slice bytes 0 packMagic.length
    .ok (decide (magic = packMagic))

/-- An entry with the payload in its range. -/
def cutEntry (payload : Bytes) (item : PackIndexEntry × ℕ × ℕ) : Except Fault DecodedPackEntry := do
  let bytes ← slice payload item.2.1 item.2.2
  .ok ⟨item.1, bytes⟩

/-- `decode_pack`. -/
def decodePack (json : IndexJson) (blake3 : Bytes → Bytes) (bytes : Bytes)
    (expectedDigest : String) (maxBytes : UInt64) : Except Fault DecodedPack := do
  validatePackCap maxBytes
  validateDigest .expectedPackDigest expectedDigest
  bailIf (maxBytes.toNat < bytes.length) (.bail (.aboveCap bytes.length maxBytes))
  let actualDigest := blake3Hex blake3 bytes
  bailIf (actualDigest ≠ expectedDigest) (.bail (.digestMismatch expectedDigest actualDigest))
  let header ← hasHeader bytes
  bailIf (header = false) (.bail .magicOrTruncated)
  let lengthBytes ← slice bytes packMagic.length packHeaderBytes
  let indexLen ← u64FromLeBytes lengthBytes
  let indexLen ← okOr (.bail .indexLengthOverflow) (usizeTryFrom indexLen)
  bailIf (maxPackIndexBytes < indexLen) (.bail .indexTooLarge)
  let payloadStart ← okOr (.bail .indexLengthOverflow) (usizeCheckedAdd packHeaderBytes indexLen)
  bailIf (bytes.length < payloadStart) (.bail .indexBeyondObject)
  let indexJson ← slice bytes packHeaderBytes payloadStart
  let index ← okOr (.bail .parsing) (json.fromSlice indexJson)
  let payload ← slice bytes payloadStart bytes.length
  let ranges ← validatePackIndex index payload.length
  let entries ← (index.entries.zip ranges).mapM (cutEntry payload)
  .ok ⟨index, entries⟩

end Kache.Pack
