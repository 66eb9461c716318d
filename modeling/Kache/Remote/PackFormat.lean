import Kache.Foundation.Tiling
import Kache.Remote.Pack

/-!
# The pack format

What `decode_pack` accepts and what `build_pack` produces are each described by one
equivalence, over a grammar of the bytes:

* `validatePackIndex_eq_ok`: an index is accepted when it is `WellFormed`, that is when its
  fields pass their validators, its keys increase and its frames tile the payload;
* `decodePack_eq_ok`: an object is accepted when it is a header, the JSON of a well-formed
  index and the payload;
* `buildPack_eq_ok`: entries are accepted when, in the order of their keys, they are such
  an index and its payload.

The two meet in `WellFormed`.
-/

namespace Kache.Pack

/-! ## Machine integers -/

theorem checkedAdd_eq_some {a b c : UInt64} :
    checkedAdd a b = some c ↔ a.toNat + b.toNat = c.toNat := by
  unfold checkedAdd
  constructor
  · intro h
    split at h
    · next fits =>
      cases h
      rw [UInt64.toNat_add, Nat.mod_eq_of_lt fits]
    · cases h
  · intro h
    have fits : a.toNat + b.toNat < 2 ^ 64 := h ▸ c.toNat_lt
    rw [if_pos fits, Option.some.injEq, ← UInt64.toNat_inj, UInt64.toNat_add, Nat.mod_eq_of_lt fits]
    exact h

theorem usizeCheckedAdd_eq_some {a b c : ℕ} :
    usizeCheckedAdd a b = some c ↔ a + b = c ∧ c < 2 ^ 64 := by
  unfold usizeCheckedAdd
  constructor
  · intro h
    split at h
    · next fits =>
      cases h
      exact ⟨rfl, fits⟩
    · cases h
  · rintro ⟨rfl, fits⟩
    exact if_pos fits

theorem u64TryFrom_eq_some {n : ℕ} {c : UInt64} : u64TryFrom n = some c ↔ n = c.toNat := by
  unfold u64TryFrom
  constructor
  · intro h
    split at h
    · next fits =>
      cases h
      exact (UInt64.toNat_ofNat_of_lt' fits).symm
    · cases h
  · rintro rfl
    rw [if_pos c.toNat_lt, UInt64.ofNat_toNat]

/-! ## The index -/

/-- The fields of an entry pass their validators. -/
def ValidFields (cacheKey crateName metaDigest : String) : Prop :=
  isValidCacheKey cacheKey = true ∧ isValidCrateName crateName = true ∧
    isValidCacheKey metaDigest = true

variable {u : Unit} {entry : PackIndexEntry} {payloadLen start : ℕ} {bytes : Bytes}
    {maxBytes : UInt64}

theorem validateDigest_eq_ok {label : DigestLabel} {value : String} :
    validateDigest label value = .ok u ↔ isValidCacheKey value = true := by
  rw [validateDigest, bailIf_eq_ok, Bool.not_eq_false]

theorem validateEntryFields_eq_ok {cacheKey crateName metaDigest : String} :
    validateEntryFields cacheKey crateName metaDigest = .ok u ↔
      ValidFields cacheKey crateName metaDigest := by
  simp only [validateEntryFields, bind_eq_ok, bailIf_eq_ok, Bool.not_eq_false, exists_const,
    validateDigest_eq_ok, ValidFields]

/-- The frame of an entry: its offset and its length. -/
def PackIndexEntry.span (entry : PackIndexEntry) : ℕ × ℕ :=
  (entry.offset.toNat, entry.length.toNat)

/-- The frame as a range. -/
def PackIndexEntry.range (entry : PackIndexEntry) : ℕ × ℕ :=
  (entry.offset.toNat, entry.offset.toNat + entry.length.toNat)

theorem checkedFileRegion_eq_some {fileLen : ℕ} {offset size : UInt64} {range : ℕ × ℕ} :
    checkedFileRegion fileLen offset size 0 = some range ↔
      range = (offset.toNat, offset.toNat + size.toNat) ∧ offset.toNat + size.toNat ≤ fileLen ∧
        offset.toNat + size.toNat < 2 ^ 64 := by
  unfold checkedFileRegion usizeTryFrom
  simp only [Option.bind_eq_bind, Option.bind_some, Nat.not_lt_zero, and_false, if_false,
    Option.bind_eq_some_iff, usizeCheckedAdd_eq_some]
  constructor
  · rintro ⟨stop, ⟨rfl, fits⟩, h⟩
    split at h
    · cases h
    · next inside =>
      cases h
      exact ⟨rfl, not_lt.mp inside, fits⟩
  · rintro ⟨rfl, inside, fits⟩
    exact ⟨_, ⟨rfl, fits⟩, if_neg (not_lt.mpr inside)⟩

theorem checkedNonemptyContiguousRegion_eq_some {expected next : UInt64} {range : ℕ × ℕ} :
    checkedNonemptyContiguousRegion expected entry.offset entry.length payloadLen =
        some (next, range) ↔
      entry.offset = expected ∧ 0 < entry.length.toNat ∧
        expected.toNat + entry.length.toNat = next.toNat ∧ next.toNat ≤ payloadLen ∧
        range = entry.range := by
  unfold checkedNonemptyContiguousRegion
  constructor
  · intro h
    obtain ⟨usable, h⟩ := Option.ite_none_left_eq_some.mp h
    obtain ⟨same, nonzero⟩ := not_or.mp usable
    have same : entry.offset = expected := not_not.mp same
    obtain ⟨_, added, h⟩ := Option.bind_eq_some_iff.mp h
    obtain ⟨_, region, h⟩ := Option.bind_eq_some_iff.mp h
    cases h
    obtain ⟨rfl, inside, -⟩ := checkedFileRegion_eq_some.mp region
    have total := checkedAdd_eq_some.mp added
    have positive : entry.length.toNat ≠ 0 := fun zero =>
      nonzero (UInt64.toNat_inj.mp (zero.trans UInt64.toNat_zero.symm))
    exact ⟨same, Nat.pos_of_ne_zero positive, same ▸ total, total ▸ inside, rfl⟩
  · rintro ⟨same, positive, total, inside, rfl⟩
    rw [← same] at total
    have nonzero : entry.length ≠ 0 := fun zero => by
      rw [zero] at positive
      exact absurd positive (by decide)
    rw [if_neg (not_or.mpr ⟨not_not.mpr same, nonzero⟩), checkedAdd_eq_some.mpr total,
      Option.bind_eq_bind, Option.bind_some,
      checkedFileRegion_eq_some.mpr ⟨rfl, total ▸ inside, total ▸ next.toNat_lt⟩]
    rfl

/-! ## The loop over the index -/

/-- What one round asks for and does. -/
theorem scanEntry_eq_ok {scan scan' : Scan} :
    scanEntry payloadLen scan entry = .ok scan' ↔
      ValidFields entry.cacheKey entry.crateName entry.metaDigest ∧
        (∀ previous ∈ scan.previousKey, previous < entry.cacheKey) ∧
        entry.offset = scan.expectedOffset ∧ 0 < entry.length.toNat ∧
        scan.expectedOffset.toNat + entry.length.toNat = scan'.expectedOffset.toNat ∧
        scan'.expectedOffset.toNat ≤ payloadLen ∧
        scan'.previousKey = some entry.cacheKey ∧ scan'.ranges = scan.ranges ++ [entry.range] := by
  simp only [scanEntry, bind_eq_ok, bailIf_eq_ok, okOr_eq_ok, exists_const,
    validateEntryFields_eq_ok, not_exists, not_and, not_le, Except.ok.injEq]
  obtain ⟨expected', previous', ranges'⟩ := scan'
  constructor
  · rintro ⟨fields, later, ⟨next, range⟩, region, done⟩
    obtain ⟨same, positive, total, inside, rfl⟩ :=
      checkedNonemptyContiguousRegion_eq_some.mp region
    cases done
    exact ⟨fields, later, same, positive, total, inside, rfl, rfl⟩
  · rintro ⟨fields, later, same, positive, total, inside, rfl, rfl⟩
    have region := checkedNonemptyContiguousRegion_eq_some.mpr ⟨same, positive, total, inside, rfl⟩
    exact ⟨fields, later, _, region, rfl⟩

/-- What the loop accepts: from `expected` on, after `previous`. -/
structure Scanned (payloadLen : ℕ) (expected : UInt64) (previous : Option String)
    (entries : List PackIndexEntry) : Prop where
  fields : ∀ entry ∈ entries, ValidFields entry.cacheKey entry.crateName entry.metaDigest
  ordered : (previous.toList ++ entries.map (·.cacheKey)).IsChain (· < ·)
  tiles : Tiles expected.toNat (entries.map (·.span)) payloadLen

theorem scanned_cons {expected : UInt64} {previous : Option String} {rest : List PackIndexEntry}
    (fits : payloadLen < 2 ^ 64) :
    Scanned payloadLen expected previous (entry :: rest) ↔
      ∃ next : UInt64, ValidFields entry.cacheKey entry.crateName entry.metaDigest ∧
        (∀ key ∈ previous, key < entry.cacheKey) ∧ entry.offset = expected ∧
        0 < entry.length.toNat ∧ expected.toNat + entry.length.toNat = next.toNat ∧
        next.toNat ≤ payloadLen ∧ Scanned payloadLen next (some entry.cacheKey) rest := by
  have chain : (previous.toList ++ (entry :: rest).map (·.cacheKey)).IsChain (· < ·) ↔
      (∀ key ∈ previous, key < entry.cacheKey) ∧
        (entry.cacheKey :: rest.map (·.cacheKey)).IsChain (· < ·) := by
    cases previous <;> simp [List.isChain_cons_cons]
  constructor
  · rintro ⟨fields, ordered, tiles⟩
    obtain ⟨valid, fields⟩ := List.forall_mem_cons.mp fields
    obtain ⟨same, positive, tail⟩ := tiles
    have next : expected.toNat + entry.length.toNat < 2 ^ 64 := lt_of_le_of_lt tail.le fits
    have total : (UInt64.ofNat (expected.toNat + entry.length.toNat)).toNat =
        expected.toNat + entry.length.toNat := UInt64.toNat_ofNat_of_lt' next
    refine ⟨_, valid, (chain.mp ordered).1, UInt64.toNat_inj.mp same, positive, total.symm,
      ?_, fields, (chain.mp ordered).2, ?_⟩
    · rw [total]
      exact tail.le
    · rw [total]
      exact tail
  · rintro ⟨next, valid, later, same, positive, total, -, fields, ordered, tail⟩
    refine ⟨List.forall_mem_cons.mpr ⟨valid, fields⟩, chain.mpr ⟨later, ordered⟩, ?_⟩
    exact ⟨congrArg UInt64.toNat same, positive, total ▸ tail⟩

/-- **The loop and the check behind it.** -/
theorem foldlM_scanEntry (fits : payloadLen < 2 ^ 64) (scan : Scan) {entries : List PackIndexEntry}
    {ranges : List (ℕ × ℕ)} :
    (∃ scan', entries.foldlM (scanEntry payloadLen) scan = .ok scan' ∧
        scan'.expectedOffset.toNat = payloadLen ∧ scan'.ranges = ranges) ↔
      Scanned payloadLen scan.expectedOffset scan.previousKey entries ∧
        ranges = scan.ranges ++ entries.map (·.range) := by
  induction entries generalizing scan ranges with
  | nil =>
    simp only [List.foldlM_nil, pure, Except.pure, Except.ok.injEq, exists_eq_left', List.map_nil,
      List.append_nil]
    constructor
    · rintro ⟨whole, rfl⟩
      refine ⟨⟨fun _ mem => (nomatch mem), ?_, whole⟩, rfl⟩
      rw [List.map_nil, List.append_nil]
      cases scan.previousKey with
      | none => exact .nil
      | some key => exact .singleton key
    · rintro ⟨scanned, rfl⟩
      exact ⟨scanned.tiles, rfl⟩
  | cons entry rest ih =>
    simp only [List.foldlM_cons, bind_eq_ok]
    rw [scanned_cons fits]
    constructor
    · rintro ⟨scan', ⟨middle, body, done⟩, finished⟩
      obtain ⟨valid, later, same, positive, total, inside, key, sofar⟩ := scanEntry_eq_ok.mp body
      obtain ⟨scanned, result⟩ := (ih middle).mp ⟨scan', done, finished⟩
      rw [key] at scanned
      refine ⟨⟨_, valid, later, same, positive, total, inside, scanned⟩, ?_⟩
      rw [result, sofar, List.append_assoc]
      rfl
    · rintro ⟨⟨next, valid, later, same, positive, total, inside, scanned⟩, rfl⟩
      have body : scanEntry payloadLen scan entry =
          .ok ⟨next, some entry.cacheKey, scan.ranges ++ [entry.range]⟩ :=
        scanEntry_eq_ok.mpr ⟨valid, later, same, positive, total, inside, rfl, rfl⟩
      obtain ⟨scan', done, whole, sofar⟩ :=
        (ih ⟨next, some entry.cacheKey, scan.ranges ++ [entry.range]⟩).mpr ⟨scanned, rfl⟩
      refine ⟨scan', ⟨_, body, done⟩, whole, ?_⟩
      rw [sofar, List.append_assoc]
      rfl

/-- An index that describes a payload of a given length. -/
structure PackIndex.WellFormed (index : PackIndex) (payloadLen : ℕ) : Prop where
  version : index.version = packVersion
  keySchema : index.keySchema = cacheKeyVersion
  nonempty : index.entries ≠ []
  count : index.entries.length ≤ maxPackEntries
  fields : ∀ entry ∈ index.entries, ValidFields entry.cacheKey entry.crateName entry.metaDigest
  ordered : (index.entries.map (·.cacheKey)).Pairwise (· < ·)
  tiles : Tiles 0 (index.entries.map (·.span)) payloadLen

theorem PackIndex.WellFormed.inside {index : PackIndex} (h : index.WellFormed payloadLen) :
    ∀ entry ∈ index.entries,
      entry.offset.toNat + entry.length.toNat ≤ payloadLen :=
  fun _ mem => (h.tiles.inside (List.mem_map_of_mem mem)).2.2

theorem validatePackIndex_eq_ok {index : PackIndex} {ranges : List (ℕ × ℕ)} :
    validatePackIndex index payloadLen = .ok ranges ↔
      index.WellFormed payloadLen ∧ payloadLen < 2 ^ 64 ∧
        ranges = index.entries.map (·.range) := by
  simp only [validatePackIndex, bind_eq_ok, bailIf_eq_ok, okOr_eq_ok, exists_const, not_or, not_lt,
    ne_eq, not_not, u64TryFrom_eq_some, Except.ok.injEq]
  constructor
  · rintro ⟨version, keySchema, ⟨nonempty, count⟩, scan, loop, len, rfl, whole, rfl⟩
    obtain ⟨scanned, same⟩ := (foldlM_scanEntry len.toNat_lt _).mp
      ⟨scan, loop, congrArg UInt64.toNat whole, rfl⟩
    exact ⟨⟨version, keySchema, nonempty, count, scanned.fields,
      List.isChain_iff_pairwise.mp scanned.ordered, scanned.tiles⟩, len.toNat_lt, same⟩
  · rintro ⟨h, fits, rfl⟩
    have len : (UInt64.ofNat payloadLen).toNat = payloadLen := UInt64.toNat_ofNat_of_lt' fits
    obtain ⟨scan, loop, whole, ranges⟩ := (foldlM_scanEntry fits ⟨0, none, []⟩).mpr
      ⟨⟨h.fields, List.isChain_iff_pairwise.mpr h.ordered, h.tiles⟩, rfl⟩
    exact ⟨h.version, h.keySchema, ⟨h.nonempty, h.count⟩, scan, loop, UInt64.ofNat payloadLen,
      len.symm, UInt64.toNat_inj.mp (whole.trans len.symm), ranges⟩

/-! ## Slices of an object -/

theorem slice_eq_ok {out : Bytes} {stop : ℕ} :
    slice bytes start stop = .ok out ↔
      ∃ before after, bytes = before ++ out ++ after ∧ before.length = start ∧
        start + out.length = stop := by
  unfold slice
  constructor
  · intro h
    split at h
    · next bounds =>
      cases h
      refine ⟨bytes.take start, (bytes.drop start).drop (stop - start), ?_, ?_, ?_⟩
      · rw [List.append_assoc, List.take_append_drop, List.take_append_drop]
      · exact List.length_take_of_le (le_trans bounds.1 bounds.2)
      · rw [List.length_take, List.length_drop]
        omega
    · cases h
  · rintro ⟨before, after, rfl, rfl, rfl⟩
    rw [if_pos, Nat.add_sub_cancel_left, List.append_assoc, List.drop_left, List.take_left]
    simp only [List.length_append]
    omega

/-- The slice between two known parts. -/
theorem slice_append {before out after : Bytes} {stop : ℕ} (first : before.length = start)
    (last : start + out.length = stop) : slice (before ++ out ++ after) start stop = .ok out :=
  slice_eq_ok.mpr ⟨before, after, rfl, first, last⟩

/-- The length field, read. -/
theorem u64FromLeBytes_eq_ok {n : UInt64} :
    u64FromLeBytes bytes = .ok n ↔ bytes = leBytes 8 n.toNat := by
  unfold u64FromLeBytes
  constructor
  · intro h
    split at h
    · next eight =>
      cases h
      have fits : leValue bytes < 2 ^ 64 := by
        have := leValue_lt bytes
        rwa [eight] at this
      have back := leBytes_leValue bytes
      rw [eight] at back
      rw [UInt64.toNat_ofNat_of_lt' fits, back]
    · cases h
  · rintro rfl
    rw [if_pos (length_leBytes 8 _), leValue_leBytes n.toNat_lt, UInt64.ofNat_toNat]

/-- The header, recognised. -/
theorem hasHeader_eq_ok_true :
    hasHeader bytes = .ok true ↔
      packHeaderBytes ≤ bytes.length ∧ ∃ after, bytes = packMagic ++ after := by
  unfold hasHeader
  split
  · next short =>
    constructor
    · intro h
      cases h
    · rintro ⟨long, -⟩
      exact absurd short (not_lt.mpr long)
  · next long =>
    simp only [bind_eq_ok, Except.ok.injEq, decide_eq_true_eq, slice_eq_ok]
    constructor
    · rintro ⟨_, ⟨before, after, split, none, -⟩, rfl⟩
      rw [List.length_eq_zero_iff.mp none] at split
      exact ⟨not_lt.mp long, after, split⟩
    · rintro ⟨-, after, split⟩
      exact ⟨_, ⟨[], after, split, rfl, Nat.zero_add _⟩, rfl⟩

/-- The entries cut from a payload their frames lie in. -/
theorem mapM_cutEntry {payload : Bytes} {entries : List PackIndexEntry}
    (inside : ∀ entry ∈ entries, entry.offset.toNat + entry.length.toNat ≤ payload.length) :
    (entries.zip (entries.map (·.range))).mapM (cutEntry payload) =
      .ok (entries.map fun entry => ⟨entry, sliceOf payload entry.span⟩) := by
  induction entries with
  | nil => rfl
  | cons entry rest ih =>
    obtain ⟨here, others⟩ := List.forall_mem_cons.mp inside
    have cut : cutEntry payload (entry, entry.range) =
        .ok ⟨entry, sliceOf payload entry.span⟩ := by
      unfold cutEntry slice PackIndexEntry.range sliceOf PackIndexEntry.span
      rw [if_pos ⟨Nat.le_add_right _ _, here⟩, Nat.add_sub_cancel_left]
      rfl
    rw [List.map_cons, List.zip_cons_cons, List.mapM_cons, ih others, cut]
    rfl

/-! ## What is accepted -/

/-- A cap that may be asked for. -/
def ValidCap (maxBytes : UInt64) : Prop := maxBytes ≠ 0 ∧ maxBytes.toNat ≤ defaultMaxPackBytes

theorem validatePackCap_eq_ok :
    validatePackCap maxBytes = .ok u ↔ ValidCap maxBytes := by
  rw [validatePackCap, bailIf_eq_ok, not_or, not_lt]
  rfl

/-- The entries of an index with their parts of a payload. -/
def PackIndex.decoded (index : PackIndex) (payload : Bytes) : DecodedPack :=
  ⟨index, index.entries.map fun entry => ⟨entry, sliceOf payload entry.span⟩⟩

theorem length_packBytes (indexJson payload : Bytes) :
    (packBytes indexJson payload).length = packHeaderBytes + indexJson.length + payload.length := by
  unfold packBytes packHeaderBytes
  rw [List.length_append, List.length_append, List.length_append, length_leBytes]

/-- An object with an index length that fits is a header, the JSON and the payload. -/
theorem eq_packBytes {lengthBytes indexJson payload : Bytes}
    (magic : ∃ after, bytes = packMagic ++ after)
    (field : slice bytes packMagic.length packHeaderBytes = .ok lengthBytes)
    (count : lengthBytes = leBytes 8 indexJson.length)
    (json : slice bytes packHeaderBytes (packHeaderBytes + indexJson.length) = .ok indexJson)
    (rest : slice bytes (packHeaderBytes + indexJson.length) bytes.length = .ok payload) :
    bytes = packBytes indexJson payload := by
  obtain ⟨after, magic⟩ := magic
  obtain ⟨a, a', field, lenA, -⟩ := slice_eq_ok.mp field
  obtain ⟨b, b', json, lenB, -⟩ := slice_eq_ok.mp json
  obtain ⟨c, c', rest, lenC, total⟩ := slice_eq_ok.mp rest
  have afterRest : c' = [] := by
    have := congrArg List.length rest
    rw [List.length_append, List.length_append] at this
    exact List.length_eq_zero_iff.mp (by omega)
  -- Each part begins where the one before it ends.
  have first : a = packMagic := by
    rw [magic, List.append_assoc] at field
    exact (List.append_inj field lenA.symm).1.symm
  have second : b = a ++ lengthBytes := by
    rw [field, List.append_assoc b] at json
    refine (List.append_inj json ?_).1.symm
    rw [List.length_append, count, length_leBytes, lenA, lenB]
    rfl
  have third : c = b ++ indexJson := by
    rw [json, List.append_assoc c] at rest
    refine (List.append_inj rest ?_).1.symm
    rw [List.length_append, lenB, lenC]
  rw [rest, afterRest, List.append_nil, third, second, first, count]
  rfl

/-- **What `decode_pack` accepts, and what it makes of it.** -/
theorem decodePack_eq_ok {json : IndexJson} {blake3 : Bytes → Bytes} {expectedDigest : String}
    {decoded : DecodedPack} :
    decodePack json blake3 bytes expectedDigest maxBytes = .ok decoded ↔
      ValidCap maxBytes ∧ isValidCacheKey expectedDigest = true ∧
        bytes.length ≤ maxBytes.toNat ∧ blake3Hex blake3 bytes = expectedDigest ∧
        ∃ indexJson payload index, bytes = packBytes indexJson payload ∧
          indexJson.length ≤ maxPackIndexBytes ∧ json.fromSlice indexJson = some index ∧
          index.WellFormed payload.length ∧ decoded = index.decoded payload := by
  simp only [decodePack, bind_eq_ok, bailIf_eq_ok, okOr_eq_ok, exists_const, not_lt, ne_eq, not_not,
    validatePackCap_eq_ok, validateDigest_eq_ok, Bool.not_eq_false,
    u64FromLeBytes_eq_ok, usizeCheckedAdd_eq_some, validatePackIndex_eq_ok, Except.ok.injEq]
  constructor
  · rintro ⟨cap, digest, short, hash, header, recognised, rfl, lengthBytes, field, n,
      count, indexLen,
      converted, small, start, ⟨rfl, -⟩, inside, indexJson, cutJson, index, parsed,
      payload, cutPayload,
      ranges, ⟨wellFormed, -, rfl⟩, entries, cut, rfl⟩
    cases converted
    have jsonLen : indexJson.length = n.toNat := by
      obtain ⟨_, _, -, -, total⟩ := slice_eq_ok.mp cutJson
      omega
    refine ⟨cap, digest, short, hash, indexJson, payload, index, ?_, jsonLen ▸ small,
      parsed, wellFormed, ?_⟩
    · rw [← jsonLen] at count cutJson cutPayload
      exact eq_packBytes (hasHeader_eq_ok_true.mp recognised).2 field count cutJson cutPayload
    · rw [mapM_cutEntry wellFormed.inside] at cut
      cases cut
      rfl
  · rintro ⟨cap, digest, short, hash, indexJson, payload, index, rfl, small, parsed,
      wellFormed, rfl⟩
    have total := length_packBytes indexJson payload
    have bound : maxPackIndexBytes < 2 ^ 64 := by decide
    have capBound : defaultMaxPackBytes < 2 ^ 64 := by decide
    have len : (UInt64.ofNat indexJson.length).toNat = indexJson.length :=
      UInt64.toNat_ofNat_of_lt' (lt_of_le_of_lt small bound)
    have fits : packHeaderBytes + indexJson.length + payload.length < 2 ^ 64 :=
      lt_of_le_of_lt (total ▸ le_trans short cap.2) capBound
    have header : packMagic.length + (leBytes 8 indexJson.length).length = packHeaderBytes := by
      rw [length_leBytes]
      rfl
    have field : slice (packBytes indexJson payload) packMagic.length packHeaderBytes =
        .ok (leBytes 8 indexJson.length) := by
      rw [packBytes, List.append_assoc]
      exact slice_append rfl header
    have cutJson : slice (packBytes indexJson payload) packHeaderBytes
        (packHeaderBytes + indexJson.length) = .ok indexJson :=
      slice_append (by rw [List.length_append, header]) rfl
    have cutPayload : slice (packBytes indexJson payload) (packHeaderBytes + indexJson.length)
        (packBytes indexJson payload).length = .ok payload := by
      rw [total, ← List.append_nil (packBytes indexJson payload), packBytes]
      exact slice_append (by rw [List.length_append, List.length_append, header]) rfl
    have recognised : hasHeader (packBytes indexJson payload) = .ok true := by
      refine hasHeader_eq_ok_true.mpr
        ⟨by omega, leBytes 8 indexJson.length ++ indexJson ++ payload, ?_⟩
      rw [packBytes, List.append_assoc, List.append_assoc, List.append_assoc]
    refine ⟨cap, digest, short, hash, true, recognised, rfl, _, field,
      UInt64.ofNat indexJson.length, ?_,
      indexJson.length, ?_, small, _,
      ⟨rfl, by omega⟩, by omega, _, cutJson, index, parsed, _, cutPayload,
      _, ⟨wellFormed, by omega, rfl⟩, _, mapM_cutEntry wellFormed.inside, rfl⟩
    · rw [len]
    · rw [usizeTryFrom, len]

/-! ## The loop over the entries -/

/-- The index of entries whose payloads are laid out from `start` on. -/
def indexFrom : ℕ → List PackInputEntry → List PackIndexEntry
  | _, [] => []
  | start, entry :: rest =>
    ⟨entry.cacheKey, entry.crateName, entry.metaDigest, UInt64.ofNat start,
      UInt64.ofNat entry.payload.length⟩ :: indexFrom (start + entry.payload.length) rest

/-- What one round asks for and does. -/
theorem layEntry_eq_ok {layout layout' : Layout} {entry : PackInputEntry} :
    layEntry layout entry = .ok layout' ↔
      ValidFields entry.cacheKey entry.crateName entry.metaDigest ∧
        (∀ previous ∈ layout.previousKey, previous ≠ entry.cacheKey) ∧ entry.payload ≠ [] ∧
        layout.nextOffset.toNat + entry.payload.length = layout'.nextOffset.toNat ∧
        layout'.previousKey = some entry.cacheKey ∧
        layout'.indexEntries = layout.indexEntries ++
          indexFrom layout.nextOffset.toNat [entry] := by
  have previous : (∀ previous ∈ layout.previousKey, previous ≠ entry.cacheKey) ↔
      ¬ layout.previousKey = some entry.cacheKey := by
    cases layout.previousKey <;> simp
  simp only [layEntry, bind_eq_ok, bailIf_eq_ok, okOr_eq_ok, exists_const,
    validateEntryFields_eq_ok, u64TryFrom_eq_some, checkedAdd_eq_some, Except.ok.injEq, previous,
    indexFrom, UInt64.ofNat_toNat]
  obtain ⟨indexEntries', nextOffset', previousKey'⟩ := layout'
  constructor
  · rintro ⟨fields, fresh, nonempty, length, long, next, total, done⟩
    cases done
    rw [long, UInt64.ofNat_toNat]
    exact ⟨fields, fresh, nonempty, total, rfl, rfl⟩
  · rintro ⟨fields, fresh, nonempty, total, rfl, rfl⟩
    have long : (UInt64.ofNat entry.payload.length).toNat = entry.payload.length := by
      refine UInt64.toNat_ofNat_of_lt' (lt_of_le_of_lt ?_ nextOffset'.toNat_lt)
      exact total ▸ Nat.le_add_left _ _
    refine ⟨fields, fresh, nonempty, _, long.symm, nextOffset', ?_, rfl⟩
    rw [long]
    exact total

/-- What the loop accepts: from `start` on, after `previous`. -/
structure Laid (start : ℕ) (previous : Option String) (entries : List PackInputEntry) : Prop where
  fields : ∀ entry ∈ entries, ValidFields entry.cacheKey entry.crateName entry.metaDigest
  nonempty : ∀ entry ∈ entries, entry.payload ≠ []
  fresh : (previous.toList ++ entries.map (·.cacheKey)).IsChain (· ≠ ·)
  fits : start + (entries.flatMap (·.payload)).length < 2 ^ 64

theorem laid_cons {previous : Option String} {entry : PackInputEntry} {rest : List PackInputEntry} :
    Laid start previous (entry :: rest) ↔
      ValidFields entry.cacheKey entry.crateName entry.metaDigest ∧
        (∀ key ∈ previous, key ≠ entry.cacheKey) ∧ entry.payload ≠ [] ∧
        Laid (start + entry.payload.length) (some entry.cacheKey) rest := by
  have chain : (previous.toList ++ (entry :: rest).map (·.cacheKey)).IsChain (· ≠ ·) ↔
      (∀ key ∈ previous, key ≠ entry.cacheKey) ∧
        (entry.cacheKey :: rest.map (·.cacheKey)).IsChain (· ≠ ·) := by
    cases previous <;> simp [List.isChain_cons_cons]
  have total : start + ((entry :: rest).flatMap (·.payload)).length =
      start + entry.payload.length + (rest.flatMap (·.payload)).length := by
    rw [List.flatMap_cons, List.length_append, Nat.add_assoc]
  constructor
  · rintro ⟨fields, nonempty, fresh, fits⟩
    obtain ⟨valid, fields⟩ := List.forall_mem_cons.mp fields
    obtain ⟨some, nonempty⟩ := List.forall_mem_cons.mp nonempty
    exact ⟨valid, (chain.mp fresh).1, some, fields, nonempty, (chain.mp fresh).2, total ▸ fits⟩
  · rintro ⟨valid, new, some, fields, nonempty, fresh, fits⟩
    exact ⟨List.forall_mem_cons.mpr ⟨valid, fields⟩, List.forall_mem_cons.mpr ⟨some, nonempty⟩,
      chain.mpr ⟨new, fresh⟩, total ▸ fits⟩

/-- **The loop.** -/
theorem foldlM_layEntry (layout : Layout) {entries : List PackInputEntry}
    {indexEntries : List PackIndexEntry} {next : UInt64} :
    (∃ layout', entries.foldlM layEntry layout = .ok layout' ∧
        layout'.indexEntries = indexEntries ∧ layout'.nextOffset = next) ↔
      Laid layout.nextOffset.toNat layout.previousKey entries ∧
        indexEntries = layout.indexEntries ++ indexFrom layout.nextOffset.toNat entries ∧
        layout.nextOffset.toNat + (entries.flatMap (·.payload)).length = next.toNat := by
  induction entries generalizing layout indexEntries with
  | nil =>
    simp only [List.foldlM_nil, pure, Except.pure, Except.ok.injEq, exists_eq_left',
      List.flatMap_nil, List.length_nil, Nat.add_zero, indexFrom, List.append_nil]
    constructor
    · rintro ⟨rfl, rfl⟩
      refine ⟨⟨fun _ mem => (nomatch mem), fun _ mem => (nomatch mem), ?_, ?_⟩, rfl, rfl⟩
      · rw [List.map_nil, List.append_nil]
        cases layout.previousKey with
        | none => exact .nil
        | some key => exact .singleton key
      · exact layout.nextOffset.toNat_lt
    · rintro ⟨-, rfl, same⟩
      exact ⟨rfl, UInt64.toNat_inj.mp same⟩
  | cons entry rest ih =>
    simp only [List.foldlM_cons, bind_eq_ok]
    rw [laid_cons, List.flatMap_cons, List.length_append, ← Nat.add_assoc]
    constructor
    · rintro ⟨layout', ⟨middle, body, done⟩, finished⟩
      obtain ⟨valid, fresh, nonempty, total, key, sofar⟩ := layEntry_eq_ok.mp body
      obtain ⟨laid, result, whole⟩ := (ih middle).mp ⟨layout', done, finished⟩
      rw [key, ← total] at laid
      rw [← total] at result whole
      refine ⟨⟨valid, fresh, nonempty, laid⟩, ?_, whole⟩
      rw [result, sofar, List.append_assoc]
      rfl
    · rintro ⟨⟨valid, fresh, nonempty, laid⟩, rfl, whole⟩
      have total : (UInt64.ofNat (layout.nextOffset.toNat + entry.payload.length)).toNat =
          layout.nextOffset.toNat + entry.payload.length :=
        UInt64.toNat_ofNat_of_lt' (lt_of_le_of_lt (Nat.le_add_right _ _) laid.fits)
      let middle : Layout :=
        ⟨layout.indexEntries ++ indexFrom layout.nextOffset.toNat [entry],
          UInt64.ofNat (layout.nextOffset.toNat + entry.payload.length), some entry.cacheKey⟩
      have body : layEntry layout entry = .ok middle :=
        layEntry_eq_ok.mpr ⟨valid, fresh, nonempty, total.symm, rfl, rfl⟩
      rw [← total] at laid whole
      obtain ⟨layout', done, result, finished⟩ := (ih middle).mpr ⟨laid, rfl, whole⟩
      refine ⟨layout', ⟨middle, body, done⟩, ?_, finished⟩
      rw [result, total, List.append_assoc]
      rfl

/-! ## What is built -/

/-- The index of entries in their order. -/
def indexOf (entries : List PackInputEntry) : PackIndex :=
  ⟨packVersion, cacheKeyVersion, indexFrom 0 entries⟩

/-- **What `build_pack` accepts, and what it makes of it.** -/
theorem buildPack_eq_ok {json : IndexJson} {blake3 : Bytes → Bytes} {first : String}
    {entries : List PackInputEntry} {built : BuiltPack} :
    buildPack json blake3 first entries maxBytes = .ok built ↔
      ValidCap maxBytes ∧ entries ≠ [] ∧ entries.length ≤ maxPackEntries ∧
        ∃ sorted, sorted = sortByKey PackInputEntry.sortKey entries ∧ Laid 0 none sorted ∧
        ∃ indexJson, json.toVec (indexOf sorted) = some indexJson ∧
          indexJson.length ≤ maxPackIndexBytes ∧
          packHeaderBytes + indexJson.length + (sorted.flatMap (·.payload)).length ≤
            maxBytes.toNat ∧
          built.bytes = packBytes indexJson (sorted.flatMap (·.payload)) ∧
          built.digest = blake3Hex blake3 built.bytes ∧
          packObjectKey first built.digest = .ok built.objectKey ∧
          built.index = indexOf sorted := by
  simp only [buildPack, bind_eq_ok, bailIf_eq_ok, okOr_eq_ok, exists_const, not_lt,
    validatePackCap_eq_ok, Option.bind_eq_some_iff, usizeCheckedAdd_eq_some, usizeTryFrom,
    Except.ok.injEq, ne_eq, exists_eq_left]
  refine and_congr_right fun cap => and_congr_right fun _ => and_congr_right fun _ => ?_
  constructor
  · rintro ⟨layout, loop, indexJson, serialized, small, payloadLen, converted, totalLen,
      ⟨_, ⟨rfl, -⟩, rfl, -⟩, underCap, objectKey, key, rfl⟩
    cases converted
    obtain ⟨laid, same, total⟩ := (foldlM_layEntry _).mp ⟨layout, loop, rfl, rfl⟩
    have total : (List.flatMap (·.payload) (sortByKey PackInputEntry.sortKey entries)).length =
        layout.nextOffset.toNat := (Nat.zero_add _).symm.trans total
    rw [same] at serialized
    refine ⟨laid, indexJson, serialized, small, total ▸ underCap, rfl, rfl, key, ?_⟩
    rw [same]
    rfl
  · rintro ⟨laid, indexJson, serialized, small, underCap, bytes, digest, key, index⟩
    obtain ⟨bytes', digest', objectKey', index'⟩ := built
    simp only at bytes digest key index
    subst bytes digest index
    have bound : defaultMaxPackBytes < 2 ^ 64 := by decide
    have fits := lt_of_le_of_lt (le_trans underCap cap.2) bound
    have next : (UInt64.ofNat (List.flatMap (·.payload)
        (sortByKey PackInputEntry.sortKey entries)).length).toNat = _ :=
      UInt64.toNat_ofNat_of_lt' (lt_of_le_of_lt (Nat.le_add_left _ _) fits)
    obtain ⟨layout, loop, sofar, offset⟩ := (foldlM_layEntry ⟨[], 0, none⟩).mpr
      ⟨laid, rfl, (Nat.zero_add _).trans next.symm⟩
    have serialized : json.toVec ⟨packVersion, cacheKeyVersion, layout.indexEntries⟩ =
        some indexJson := by
      rw [sofar]
      exact serialized
    refine ⟨layout, loop, indexJson, serialized, small, _, rfl, _, ⟨_, ⟨rfl, by omega⟩, rfl, ?_⟩,
      ?_, _, key, ?_⟩
    · rw [offset, next]
      exact fits
    · rw [offset, next]
      exact underCap
    · rw [sofar]
      rfl

end Kache.Pack
