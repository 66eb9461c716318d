import Kache.Remote.PackFormat
import Mathlib.Data.List.Chain

/-!
# Packs there and back

The two directions of the pack format, composed.

* A pack that was built decodes to its entries, in the order of their keys, and the order they
  came in is of no account (`pack_round_trip`).
* Bytes of any origin make `decode_pack` return, and if it accepts them they are a pack: its
  slices partition the payload, and a pack built from them decodes to the same
  (`decode_sound`).

Both go through `PackIndex.WellFormed`: what `build_pack` lays out is well formed
(`wellFormed_indexOf`), and laying out what a well-formed index cuts gives the index back
(`PackIndex.WellFormed.indexOf_inputs`).
-/

namespace Kache.Pack

/-! ## Round trip -/

variable {entries : List PackInputEntry}

/-- Keys in order, no two neighbours alike: the keys increase. -/
theorem keys_increase (sorted : entries.Pairwise fun a b => a.sortKey ≤ b.sortKey)
    (fresh : (entries.map (·.cacheKey)).IsChain (· ≠ ·)) :
    (entries.map (·.cacheKey)).Pairwise (· < ·) := by
  rw [← List.isChain_iff_pairwise]
  rw [List.isChain_map, List.isChain_iff_forall_rel_of_append_cons_cons] at fresh ⊢
  intro a b before after split
  have neighbours := List.isChain_iff_forall_rel_of_append_cons_cons.mp sorted.isChain split
  refine lt_of_le_of_ne ?_ (fresh split)
  rcases Prod.Lex.le_iff.mp neighbours with less | ⟨same, -⟩
  · exact le_of_lt less
  · exact le_of_eq same

section Layout

variable {start : ℕ}

/-- The frames of a layout tile its payload. -/
theorem tiles_indexFrom (nonempty : ∀ entry ∈ entries, entry.payload ≠ [])
    (fits : start + (entries.flatMap (·.payload)).length < 2 ^ 64) :
    Tiles start ((indexFrom start entries).map (·.span))
      (start + (entries.flatMap (·.payload)).length) := by
  induction entries generalizing start with
  | nil => rfl
  | cons entry rest ih =>
    obtain ⟨here, others⟩ := List.forall_mem_cons.mp nonempty
    rw [List.flatMap_cons, List.length_append, ← Nat.add_assoc] at fits ⊢
    have length : (UInt64.ofNat entry.payload.length).toNat = entry.payload.length :=
      UInt64.toNat_ofNat_of_lt' (lt_of_le_of_lt (by omega) fits)
    refine ⟨UInt64.toNat_ofNat_of_lt' (lt_of_le_of_lt (by omega) fits), ?_, ?_⟩
    · rw [length]
      exact List.length_pos_iff.mpr here
    · rw [length]
      exact ih others fits

/-- An entry as it was put in. -/
def DecodedPackEntry.input (entry : DecodedPackEntry) : PackInputEntry :=
  ⟨entry.descriptor.cacheKey, entry.descriptor.crateName, entry.descriptor.metaDigest,
    entry.payload⟩

/-- Cutting the payload at the frames of a layout gives the entries back. -/
theorem map_input_indexFrom (front : Bytes)
    (fits : front.length + (entries.flatMap (·.payload)).length < 2 ^ 64) :
    (indexFrom front.length entries).map (fun entry => DecodedPackEntry.input
      ⟨entry, sliceOf (front ++ entries.flatMap (·.payload)) entry.span⟩) = entries := by
  induction entries generalizing front with
  | nil => rfl
  | cons entry rest ih =>
    rw [List.flatMap_cons, List.length_append, ← Nat.add_assoc] at fits
    have offset : (UInt64.ofNat front.length).toNat = front.length :=
      UInt64.toNat_ofNat_of_lt' (lt_of_le_of_lt (by omega) fits)
    have length : (UInt64.ofNat entry.payload.length).toNat = entry.payload.length :=
      UInt64.toNat_ofNat_of_lt' (lt_of_le_of_lt (by omega) fits)
    have tail := ih (front ++ entry.payload) (by rw [List.length_append]; exact fits)
    rw [List.length_append, List.append_assoc] at tail
    rw [indexFrom, List.map_cons, List.flatMap_cons, tail]
    congr 1
    simp only [DecodedPackEntry.input, PackIndexEntry.span, sliceOf, offset, length,
      List.drop_left, List.take_left]

theorem length_indexFrom (start : ℕ) (entries : List PackInputEntry) :
    (indexFrom start entries).length = entries.length := by
  induction entries generalizing start with
  | nil => rfl
  | cons entry rest ih => rw [indexFrom, List.length_cons, List.length_cons, ih]

theorem map_cacheKey_indexFrom (start : ℕ) (entries : List PackInputEntry) :
    (indexFrom start entries).map (·.cacheKey) = entries.map (·.cacheKey) := by
  induction entries generalizing start with
  | nil => rfl
  | cons entry rest ih => rw [indexFrom, List.map_cons, List.map_cons, ih]

theorem fields_indexFrom (fields : ∀ entry ∈ entries,
      ValidFields entry.cacheKey entry.crateName entry.metaDigest) :
    ∀ entry ∈ indexFrom start entries,
      ValidFields entry.cacheKey entry.crateName entry.metaDigest := by
  induction entries generalizing start with
  | nil => exact fun _ mem => nomatch mem
  | cons entry rest ih =>
    obtain ⟨here, others⟩ := List.forall_mem_cons.mp fields
    exact List.forall_mem_cons.mpr ⟨here, ih others⟩

/-- **A layout is a well-formed index.** -/
theorem wellFormed_indexOf (some : entries ≠ []) (count : entries.length ≤ maxPackEntries)
    (laid : Laid 0 none entries) (increase : (entries.map (·.cacheKey)).Pairwise (· < ·)) :
    (indexOf entries).WellFormed (entries.flatMap (·.payload)).length where
  version := rfl
  keySchema := rfl
  nonempty := by
    intro none
    have := length_indexFrom 0 entries
    rw [show indexFrom 0 entries = [] from none] at this
    exact some (List.length_eq_zero_iff.mp this.symm)
  count := by
    show (indexFrom 0 entries).length ≤ _
    rw [length_indexFrom]
    exact count
  fields := fields_indexFrom laid.fields
  ordered := by
    show ((indexFrom 0 entries).map _).Pairwise _
    rw [map_cacheKey_indexFrom]
    exact increase
  tiles := by
    have tiles := tiles_indexFrom laid.nonempty laid.fits
    rwa [Nat.zero_add] at tiles

end Layout

/-- The entries in the order of their keys. -/
theorem increase_of_laid (laid : Laid 0 none (sortByKey PackInputEntry.sortKey entries)) :
    ((sortByKey PackInputEntry.sortKey entries).map (·.cacheKey)).Pairwise (· < ·) :=
  keys_increase (pairwise_sortByKey _ entries) laid.fresh

variable {json : IndexJson} {blake3 : Bytes → Bytes} {maxBytes : UInt64}

/-- **A built pack decodes**, under every cap that it fits. -/
theorem decodePack_under_cap (parses : json.RoundTrips) {first : String} {cap : UInt64}
    {built : BuiltPack}
    (build : buildPack json blake3 first entries maxBytes = .ok built) (valid : ValidCap cap)
    (fits : built.bytes.length ≤ cap.toNat) :
    decodePack json blake3 built.bytes built.digest cap =
      .ok ((indexOf (sortByKey PackInputEntry.sortKey entries)).decoded
        ((sortByKey PackInputEntry.sortKey entries).flatMap (·.payload))) := by
  obtain ⟨-, some, count, sorted, rfl, laid, indexJson, serialized, small, -, bytes, digest,
    key, -⟩ := buildPack_eq_ok.mp build
  have perm := sortByKey_perm PackInputEntry.sortKey entries
  have nonempty : sortByKey PackInputEntry.sortKey entries ≠ [] := by
    intro none
    rw [none] at perm
    exact some perm.symm.eq_nil
  have wellFormed := wellFormed_indexOf nonempty (perm.length_eq ▸ count) laid
    (increase_of_laid laid)
  have isDigest : isValidCacheKey built.digest = true := by
    obtain ⟨_, checked, -⟩ := bind_eq_ok.mp key
    exact validateDigest_eq_ok.mp checked
  exact decodePack_eq_ok.mpr ⟨valid, isDigest, fits, digest.symm, indexJson, _, _, bytes, small,
    parses _ _ serialized, wellFormed, rfl⟩

/-- **Decoding undoes building.** -/
theorem decodePack_built (parses : json.RoundTrips) {first : String} {built : BuiltPack}
    (build : buildPack json blake3 first entries maxBytes = .ok built) :
    decodePack json blake3 built.bytes built.digest maxBytes =
      .ok ((indexOf (sortByKey PackInputEntry.sortKey entries)).decoded
        ((sortByKey PackInputEntry.sortKey entries).flatMap (·.payload))) := by
  obtain ⟨cap, -, -, sorted, rfl, -, indexJson, -, -, underCap, bytes, -⟩ :=
    buildPack_eq_ok.mp build
  refine decodePack_under_cap parses build cap ?_
  rw [bytes, length_packBytes]
  exact underCap

theorem map_input_decoded (laid : Laid 0 none entries) :
    ((indexOf entries).decoded (entries.flatMap (·.payload))).entries.map (·.input) = entries := by
  have back := map_input_indexFrom [] laid.fits
  rw [List.nil_append] at back
  show ((indexFrom 0 entries).map _).map _ = _
  rw [List.map_map]
  exact back

/-! ## Digests -/

theorem isLowerHexDigit_hexDigit : ∀ n < 16, isLowerHexDigit (Memo.hexDigit n) = true := by
  decide

theorem utf8Size_of_isLowerHexDigit {c : Char} (hex : isLowerHexDigit c = true) :
    c.utf8Size = 1 := by
  have small : c.val ≤ 0x7F := by
    simp only [isLowerHexDigit, Char.isDigit, Bool.or_eq_true, Bool.and_eq_true, decide_eq_true_eq,
      Char.le_def] at hex
    rcases hex with ⟨-, le⟩ | ⟨-, le⟩
    · exact UInt32.le_trans le (by decide)
    · exact UInt32.le_trans le (by decide)
  exact if_pos small

/-- `to_hex` of a digest of 32 bytes is a digest. -/
theorem isValidCacheKey_blake3Hex (width : ∀ bytes, (blake3 bytes).length = 32) (bytes : Bytes) :
    isValidCacheKey (blake3Hex blake3 bytes) = true := by
  have length : (blake3Hex blake3 bytes).length = 64 := by
    rw [blake3Hex, String.length_ofList, List.length_flatMap]
    simp only [List.length_cons, List.length_nil]
    rw [List.map_const', width]
    rfl
  have hex : (blake3Hex blake3 bytes).toList.all isLowerHexDigit = true := by
    rw [blake3Hex, String.toList_ofList, List.all_flatMap]
    refine List.all_eq_true.mpr fun b _ => ?_
    have := b.toNat_lt
    simp only [List.all_cons, List.all_nil, Bool.and_true, Bool.and_eq_true]
    exact ⟨isLowerHexDigit_hexDigit _ (by omega), isLowerHexDigit_hexDigit _ (by omega)⟩
  rw [isValidCacheKey, length, hex]
  rfl

/-- A digest has an object key: its first two characters are two bytes. -/
theorem exists_packObjectKey (first : String) {digest : String}
    (valid : isValidCacheKey digest = true) :
    ∃ objectKey, packObjectKey first digest = .ok objectKey := by
  have digits : digest.toList.length = 64 ∧ digest.toList.all isLowerHexDigit = true := by
    rw [isValidCacheKey, Bool.and_eq_true, beq_iff_eq] at valid
    exact valid
  have shard : ∃ shard, strSliceTo digest 2 = .ok shard := by
    obtain ⟨a, b, rest, chars⟩ : ∃ a b rest, digest.toList = a :: b :: rest := by
      rcases chars : digest.toList with _ | ⟨a, _ | ⟨b, rest⟩⟩
      · rw [chars] at digits
        cases digits.1
      · rw [chars] at digits
        cases digits.1
      · exact ⟨a, b, rest, rfl⟩
    rw [chars] at digits
    simp only [List.all_cons, Bool.and_eq_true] at digits
    have one := utf8Size_of_isLowerHexDigit digits.2.1
    have two := utf8Size_of_isLowerHexDigit digits.2.2.1
    refine ⟨String.ofList [a, b], ?_⟩
    simp [strSliceTo, chars, List.range_succ, one, two]
  obtain ⟨shard, cut⟩ := shard
  exact ⟨_, bind_eq_ok.mpr ⟨(), validateDigest_eq_ok.mpr valid, bind_eq_ok.mpr ⟨shard, cut, rfl⟩⟩⟩

/-! ## No panic -/

section NoPanic

variable {α β : Type}

/-- A call that returns. -/
def Returns (call : Except Fault α) : Prop := call ≠ .error .panic

theorem returns_ok (a : α) : Returns (.ok a : Except Fault α) := by
  intro h
  cases h

theorem returns_bail (error : PackError) : Returns (.error (.bail error) : Except Fault α) := by
  intro h
  cases h

theorem Returns.bind {call : Except Fault α} {rest : α → Except Fault β} (first : Returns call)
    (second : ∀ a, call = .ok a → Returns (rest a)) : Returns (call >>= rest) := by
  cases call with
  | error fault =>
    intro h
    have same : Except.error fault = Except.error Fault.panic := h
    cases same
    exact first rfl
  | ok a => exact second a rfl

theorem returns_bailIf {bad : Prop} [Decidable bad] (error : PackError) :
    Returns (bailIf bad (Fault.bail error) : Except Fault Unit) := by
  unfold bailIf
  split
  · exact returns_bail error
  · exact returns_ok ()

theorem returns_okOr (error : PackError) (o : Option α) : Returns (okOr (Fault.bail error) o) := by
  cases o with
  | none => exact returns_bail error
  | some a => exact returns_ok a

theorem returns_of_eq_ok {call : Except Fault α} {a : α} (h : call = .ok a) : Returns call :=
  h ▸ returns_ok a

theorem returns_slice {bytes : Bytes} {start stop : ℕ} (low : start ≤ stop)
    (high : stop ≤ bytes.length) : Returns (slice bytes start stop) := by
  unfold slice
  rw [if_pos ⟨low, high⟩]
  exact returns_ok _

theorem returns_foldlM {f : β → α → Except Fault β} (body : ∀ b a, Returns (f b a)) (l : List α)
    (b : β) : Returns (l.foldlM f b) := by
  induction l generalizing b with
  | nil => exact returns_ok b
  | cons a rest ih =>
    rw [List.foldlM_cons]
    exact (body b a).bind fun b' _ => ih b'

theorem returns_validateEntryFields (cacheKey crateName metaDigest : String) :
    Returns (validateEntryFields cacheKey crateName metaDigest) :=
  (returns_bailIf _).bind fun _ _ => (returns_bailIf _).bind fun _ _ => returns_bailIf _

theorem returns_scanEntry (payloadLen : ℕ) (scan : Scan) (entry : PackIndexEntry) :
    Returns (scanEntry payloadLen scan entry) :=
  (returns_validateEntryFields _ _ _).bind fun _ _ => (returns_bailIf _).bind fun _ _ =>
    (returns_okOr _ _).bind fun _ _ => returns_ok _

theorem returns_validatePackIndex (index : PackIndex) (payloadLen : ℕ) :
    Returns (validatePackIndex index payloadLen) :=
  (returns_bailIf _).bind fun _ _ => (returns_bailIf _).bind fun _ _ =>
    (returns_bailIf _).bind fun _ _ => (returns_foldlM (returns_scanEntry payloadLen) _ _).bind
      fun _ _ => (returns_okOr _ _).bind fun _ _ => (returns_bailIf _).bind fun _ _ => returns_ok _

theorem returns_hasHeader (bytes : Bytes) : Returns (hasHeader bytes) := by
  unfold hasHeader
  split
  · exact returns_ok false
  · next long =>
    have : packMagic.length ≤ packHeaderBytes := by decide
    exact (returns_slice (Nat.zero_le _) (by omega)).bind fun _ _ => returns_ok _

/-- **`decode_pack` returns on every input.** -/
theorem returns_decodePack (json : IndexJson) (blake3 : Bytes → Bytes) (bytes : Bytes)
    (expectedDigest : String) (maxBytes : UInt64) :
    Returns (decodePack json blake3 bytes expectedDigest maxBytes) := by
  refine (returns_bailIf _).bind fun _ _ => (returns_bailIf _).bind fun _ _ =>
    (returns_bailIf _).bind fun _ _ => (returns_bailIf _).bind fun _ _ =>
    (returns_hasHeader bytes).bind fun header recognised =>
      (returns_bailIf _).bind fun _ isHeader => ?_
  rw [bailIf_eq_ok, Bool.not_eq_false] at isHeader
  subst isHeader
  have long : packHeaderBytes ≤ bytes.length := (hasHeader_eq_ok_true.mp recognised).1
  refine (returns_slice (by decide) long).bind fun lengthBytes field => ?_
  obtain ⟨_, _, -, -, eight⟩ := slice_eq_ok.mp field
  have eight : lengthBytes.length = 8 := by
    unfold packHeaderBytes at eight
    omega
  have read : Returns (u64FromLeBytes lengthBytes) := by
    rw [u64FromLeBytes, if_pos eight]
    exact returns_ok _
  refine read.bind fun n _ => (returns_okOr _ _).bind fun indexLen _ =>
    (returns_bailIf _).bind fun _ _ => (returns_okOr _ _).bind fun payloadStart added =>
    (returns_bailIf _).bind fun _ inside => ?_
  rw [okOr_eq_ok, usizeCheckedAdd_eq_some] at added
  rw [bailIf_eq_ok, not_lt] at inside
  refine (returns_slice (by omega) inside).bind fun indexJson _ =>
    (returns_okOr _ _).bind fun index _ =>
    (returns_slice inside (le_refl _)).bind fun payload _ =>
    (returns_validatePackIndex index _).bind fun ranges checked => ?_
  obtain ⟨wellFormed, -, rfl⟩ := validatePackIndex_eq_ok.mp checked
  exact (returns_of_eq_ok (mapM_cutEntry wellFormed.inside)).bind fun _ _ => returns_ok _

end NoPanic

/-! ## Rebuilding what was decoded -/

section Rebuild

variable {index : PackIndex} {payload : Bytes}

theorem length_sliceOf_span {entry : PackIndexEntry}
    (inside : entry.offset.toNat + entry.length.toNat ≤ payload.length) :
    (sliceOf payload entry.span).length = entry.length.toNat := by
  rw [sliceOf, List.length_take, List.length_drop]
  unfold PackIndexEntry.span
  simp only
  omega

/-- Laying the slices of a tiling out again gives its frames. -/
theorem indexFrom_slices {start : ℕ} {entries : List PackIndexEntry}
    (tiles : Tiles start (entries.map (·.span)) payload.length) :
    indexFrom start (entries.map fun entry =>
      DecodedPackEntry.input ⟨entry, sliceOf payload entry.span⟩) = entries := by
  induction entries generalizing start with
  | nil => rfl
  | cons entry rest ih =>
    obtain ⟨offset, -, tail⟩ := tiles
    have offset : entry.offset.toNat = start := offset
    have inside : entry.offset.toNat + entry.length.toNat ≤ payload.length := offset ▸ tail.le
    have length := length_sliceOf_span inside
    rw [List.map_cons, indexFrom]
    simp only [DecodedPackEntry.input]
    rw [length, ← offset, UInt64.ofNat_toNat, UInt64.ofNat_toNat]
    congr 1
    refine ih ?_
    rw [offset]
    exact tail

/-- The entries a decoded pack has, as they would be put in. -/
def PackIndex.inputs (index : PackIndex) (payload : Bytes) : List PackInputEntry :=
  (index.decoded payload).entries.map (·.input)

theorem inputs_eq : index.inputs payload = index.entries.map fun entry =>
    DecodedPackEntry.input ⟨entry, sliceOf payload entry.span⟩ := by
  show (index.entries.map _).map _ = _
  rw [List.map_map]
  rfl

theorem PackIndex.WellFormed.slice_ne_nil (h : index.WellFormed payload.length) :
    ∀ entry ∈ index.entries, sliceOf payload entry.span ≠ [] := by
  intro entry mem
  have positive : 0 < entry.length.toNat := (h.tiles.inside (List.mem_map_of_mem mem)).2.1
  rw [← List.length_pos_iff, length_sliceOf_span (h.inside entry mem)]
  exact positive

theorem PackIndex.WellFormed.indexOf_inputs (h : index.WellFormed payload.length) :
    indexOf (index.inputs payload) = index := by
  obtain ⟨version, keySchema, entries⟩ := index
  rw [indexOf, inputs_eq, indexFrom_slices h.tiles]
  have first : version = packVersion := h.version
  have second : keySchema = cacheKeyVersion := h.keySchema
  rw [first, second]

theorem PackIndex.WellFormed.flatMap_inputs (h : index.WellFormed payload.length) :
    (index.inputs payload).flatMap (·.payload) = payload := by
  rw [inputs_eq, List.flatMap_map]
  have whole := h.tiles.flatMap_slice
  rwa [List.flatMap_map, List.drop_zero] at whole

/-- The inputs come in the order `build_pack` gives them. -/
theorem PackIndex.WellFormed.sort_inputs (h : index.WellFormed payload.length) :
    sortByKey PackInputEntry.sortKey (index.inputs payload) = index.inputs payload := by
  refine sortByKey_of_pairwise ?_
  rw [inputs_eq, List.pairwise_map]
  refine (List.pairwise_map.mp h.ordered).imp fun {a b} less => ?_
  exact Prod.Lex.le_iff.mpr (.inl less)

theorem PackIndex.WellFormed.laid_inputs (h : index.WellFormed payload.length)
    (fits : payload.length < 2 ^ 64) : Laid 0 none (index.inputs payload) where
  fields := by
    rw [inputs_eq]
    exact List.forall_mem_map.mpr h.fields
  nonempty := by
    rw [inputs_eq]
    exact List.forall_mem_map.mpr h.slice_ne_nil
  fresh := by
    rw [inputs_eq, List.map_map]
    exact (h.ordered.imp ne_of_lt).isChain
  fits := by
    rw [h.flatMap_inputs, Nat.zero_add]
    exact fits

/-- The index can be written, and the sizes `build_pack` puts a cap on are within it. -/
def RoomFor (json : IndexJson) (index : PackIndex) (payload : Bytes) (maxBytes : UInt64) : Prop :=
  ValidCap maxBytes ∧ ∃ indexJson, json.toVec index = some indexJson ∧
    indexJson.length ≤ maxPackIndexBytes ∧
      packHeaderBytes + indexJson.length + payload.length ≤ maxBytes.toNat

/-- **Building from a decoded pack** fails only for want of room, and decodes to the pack. -/
theorem PackIndex.WellFormed.exists_rebuilt (h : index.WellFormed payload.length)
    (parses : json.RoundTrips) (width : ∀ bytes, (blake3 bytes).length = 32) (first : String)
    (room : RoomFor json index payload maxBytes) :
    ∃ built, buildPack json blake3 first (index.inputs payload) maxBytes = .ok built ∧
      decodePack json blake3 built.bytes built.digest maxBytes = .ok (index.decoded payload) := by
  obtain ⟨cap, indexJson, serialized, small, underCap⟩ := room
  have bound : defaultMaxPackBytes < 2 ^ 64 := by decide
  have fits : payload.length < 2 ^ 64 :=
    lt_of_le_of_lt (le_trans (Nat.le_add_left _ _) (le_trans underCap cap.2)) bound
  have count : (index.inputs payload).length = index.entries.length := by
    rw [inputs_eq, List.length_map]
  have some : index.inputs payload ≠ [] := by
    intro none
    rw [none] at count
    exact h.nonempty (List.length_eq_zero_iff.mp count.symm)
  obtain ⟨objectKey, key⟩ := exists_packObjectKey first
    (isValidCacheKey_blake3Hex width (packBytes indexJson payload))
  have build : buildPack json blake3 first (index.inputs payload) maxBytes =
      .ok ⟨packBytes indexJson payload, blake3Hex blake3 (packBytes indexJson payload), objectKey,
        index⟩ := by
    refine buildPack_eq_ok.mpr ⟨cap, some, count ▸ h.count, _, h.sort_inputs.symm,
      h.laid_inputs fits, indexJson, ?_, small, ?_, ?_, rfl, key, h.indexOf_inputs.symm⟩
    · rw [h.indexOf_inputs]
      exact serialized
    · rw [h.flatMap_inputs]
      exact underCap
    · rw [h.flatMap_inputs]
  refine ⟨_, build, ?_⟩
  rw [decodePack_built parses build, h.sort_inputs, h.indexOf_inputs, h.flatMap_inputs]

end Rebuild

/-! ## A pack -/

/-- A digest of one digit. -/
def hexKey (c : Char) : String := String.ofList (List.replicate 64 c)

theorem isValidCacheKey_hexKey {c : Char} (hex : isLowerHexDigit c = true) :
    isValidCacheKey (hexKey c) = true := by
  simp [isValidCacheKey, hexKey, hex]

/-- Two entries, with two bytes and one byte of payload. -/
def smallIndex : PackIndex :=
  ⟨1, 33, [⟨hexKey 'a', "kache", hexKey '0', 0, 2⟩, ⟨hexKey 'b', "kache", hexKey '0', 2, 1⟩]⟩

theorem wellFormed_smallIndex : smallIndex.WellFormed ([1, 1, 2] : Bytes).length where
  version := rfl
  keySchema := rfl
  nonempty := by simp [smallIndex]
  count := by decide
  fields := by
    have digest := isValidCacheKey_hexKey (c := '0') (by decide)
    have name : isValidCrateName "kache" = true := by decide +kernel
    simp only [smallIndex, List.forall_mem_cons]
    exact ⟨⟨isValidCacheKey_hexKey (by decide), name, digest⟩,
      ⟨isValidCacheKey_hexKey (by decide), name, digest⟩, fun _ mem => nomatch mem⟩
  ordered := by
    have less : hexKey 'a' < hexKey 'b' := by
      rw [String.lt_iff_toList_lt, hexKey, hexKey, String.toList_ofList, String.toList_ofList]
      decide
    exact List.pairwise_pair.mpr less
  tiles := ⟨rfl, by decide, rfl, by decide, rfl⟩

/-- A serializer that knows one index. -/
def smallJson : IndexJson where
  toVec index := if index = smallIndex then some (utf8 "\x7b\x7d") else none
  fromSlice bytes := if bytes = utf8 "\x7b\x7d" then some smallIndex else none

theorem toVec_smallIndex : smallJson.toVec smallIndex = some (utf8 "\x7b\x7d") := by
  simp [smallJson]

theorem roundTrips_smallJson : smallJson.RoundTrips := by
  intro index bytes written
  obtain ⟨rfl, same⟩ := Option.ite_none_right_eq_some.mp written
  cases same
  simp [smallJson]

theorem roomFor_smallIndex : RoomFor smallJson smallIndex [1, 1, 2] 100000 :=
  ⟨⟨by decide, by decide⟩, _, toVec_smallIndex, by decide, by decide⟩

/-! ## Round trip and soundness -/

/-- **Round trip and canonical form.**  What `build_pack` makes of entries, `decode_pack` takes
apart into the same entries, in the order of their keys; and `build_pack` makes the same of them
in whatever order they come. -/
theorem pack_round_trip {json : IndexJson} (parses : json.RoundTrips) {blake3 : Bytes → Bytes}
    {first : String} {entries : List PackInputEntry} {maxBytes : UInt64} {built : BuiltPack}
    (build : buildPack json blake3 first entries maxBytes = .ok built) :
    (∃ decoded, decodePack json blake3 built.bytes built.digest maxBytes = .ok decoded ∧
      (decoded.entries.map (·.input)).Perm entries ∧
      (decoded.entries.map (·.descriptor.cacheKey)).Pairwise (· < ·)) ∧
    ∀ entries', entries.Perm entries' →
      buildPack json blake3 first entries' maxBytes = .ok built := by
  have decode := decodePack_built parses build
  obtain ⟨cap, some, count, sorted, rfl, laid, rest⟩ := buildPack_eq_ok.mp build
  have perm := sortByKey_perm PackInputEntry.sortKey entries
  have increase := increase_of_laid laid
  constructor
  · refine ⟨_, decode, ?_, ?_⟩
    · rw [map_input_decoded laid]
      exact perm
    · show (((indexFrom 0 _).map _).map _).Pairwise _
      rw [List.map_map]
      exact (map_cacheKey_indexFrom 0 _).symm ▸ increase
  · intro entries' other
    have apart : ∀ a ∈ entries, ∀ b ∈ entries, a.sortKey = b.sortKey → a = b := by
      intro a ha b hb same
      refine List.inj_on_of_nodup_map (increase.imp ne_of_lt) (perm.mem_iff.mpr ha)
        (perm.mem_iff.mpr hb) ?_
      exact congrArg (fun key : String ×ₗ String => (ofLex key).1) same
    have same := sortByKey_eq_of_perm other apart
    refine buildPack_eq_ok.mpr ⟨cap, fun none => some ?_, other.length_eq ▸ count, _,
      same, laid, rest⟩
    rw [none] at other
    exact other.eq_nil

/-- A pack is built, decoded and built again. -/
theorem pack_round_trip_small :
    ∃ built, buildPack smallJson (fun _ => List.replicate 32 0) "p"
        (smallIndex.inputs [1, 1, 2]) 100000 = .ok built ∧
      (∃ decoded, decodePack smallJson (fun _ => List.replicate 32 0) built.bytes built.digest
          100000 = .ok decoded ∧
        (decoded.entries.map (·.input)).Perm (smallIndex.inputs [1, 1, 2]) ∧
        (decoded.entries.map (·.descriptor.cacheKey)).Pairwise (· < ·)) ∧
      ∀ entries', (smallIndex.inputs [1, 1, 2]).Perm entries' →
        buildPack smallJson (fun _ => List.replicate 32 0) "p" entries' 100000 = .ok built := by
  obtain ⟨built, build, -⟩ := wellFormed_smallIndex.exists_rebuilt roundTrips_smallJson
    (fun _ => List.length_replicate) "p" roomFor_smallIndex
  exact ⟨built, build, pack_round_trip roundTrips_smallJson build⟩

/-- **Decoding hostile bytes.**  `decode_pack` returns on every input.  What it accepts is a
header, an index and a payload; the index passes every check and its keys increase; the entries'
payloads are the slices at their frames, none is empty, every byte of the payload is in exactly
one and together they are the payload.  Wherever there is room, a pack built from the entries
decodes to the same. -/
theorem decode_sound {json : IndexJson} (parses : json.RoundTrips) {blake3 : Bytes → Bytes}
    (width : ∀ bytes, (blake3 bytes).length = 32) (bytes : Bytes) (expectedDigest : String)
    (maxBytes : UInt64) :
    Returns (decodePack json blake3 bytes expectedDigest maxBytes) ∧
    ∀ decoded, decodePack json blake3 bytes expectedDigest maxBytes = .ok decoded →
      ∃ indexJson payload, bytes = packBytes indexJson payload ∧
        decoded.index.WellFormed payload.length ∧
        decoded.entries.map (·.descriptor) = decoded.index.entries ∧
        (∀ entry ∈ decoded.entries, entry.payload = sliceOf payload entry.descriptor.span ∧
          entry.payload ≠ []) ∧
        decoded.entries.flatMap (·.payload) = payload ∧
        (∀ position < payload.length, ∃! k : ℕ, ∃ span : ℕ × ℕ,
          (decoded.entries.map (·.descriptor.span))[k]? = some span ∧
            span.1 ≤ position ∧ position < span.1 + span.2) ∧
        ∀ first cap, RoomFor json decoded.index payload cap →
          ∃ built, buildPack json blake3 first (decoded.entries.map (·.input)) cap = .ok built ∧
            decodePack json blake3 built.bytes built.digest cap = .ok decoded := by
  refine ⟨returns_decodePack json blake3 bytes expectedDigest maxBytes, fun decoded ok => ?_⟩
  obtain ⟨-, -, -, -, indexJson, payload, index, split, -, -, h, rfl⟩ := decodePack_eq_ok.mp ok
  have spans : (index.decoded payload).entries.map (·.descriptor.span) =
      index.entries.map (·.span) := by
    show (index.entries.map _).map _ = _
    rw [List.map_map]
    rfl
  refine ⟨indexJson, payload, split, h, ?_, ?_, ?_, fun position inside =>
    ?_, fun first cap room => ?_⟩
  · show (index.entries.map _).map _ = _
    rw [List.map_map]
    exact List.map_id _
  · exact List.forall_mem_map.mpr fun entry mem => ⟨rfl, h.slice_ne_nil entry mem⟩
  · have whole := h.flatMap_inputs
    rwa [PackIndex.inputs, List.flatMap_map] at whole
  · rw [spans]
    exact h.tiles.existsUnique (Nat.zero_le _) inside
  · exact h.exists_rebuilt parses width first room

/-- A pack whose payload is in exactly two slices. -/
theorem decode_sound_small :
    ∃ built : BuiltPack, decodePack smallJson (fun _ => List.replicate 32 0) built.bytes
        built.digest 100000 = .ok (smallIndex.decoded [1, 1, 2]) ∧
      ∃ indexJson payload, built.bytes = packBytes indexJson payload ∧
        smallIndex.WellFormed payload.length ∧
        (smallIndex.decoded [1, 1, 2]).entries.flatMap (·.payload) = payload := by
  obtain ⟨built, -, decode⟩ := wellFormed_smallIndex.exists_rebuilt roundTrips_smallJson
    (fun _ => List.length_replicate) "p" roomFor_smallIndex
  obtain ⟨-, sound⟩ := decode_sound roundTrips_smallJson (fun _ => List.length_replicate)
    built.bytes built.digest 100000
  obtain ⟨indexJson, payload, split, wellFormed, -, -, whole, -⟩ := sound _ decode
  exact ⟨built, decode, indexJson, payload, split, wellFormed, whole⟩

end Kache.Pack
