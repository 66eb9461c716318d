import Kache.PePdb.Msf

/-!
# Streams are put together again

`Msf` describes a container by what is in it: streams with their contents, and for each of them,
and for the directory, the blocks it is in.  `LaidOut file m` says that a file is such a
container, block by block, and nothing about where the blocks are: they may come in any order,
anywhere in the file, and the last block of everything is filled only in part.

The reader goes through the same description.  The directory is read back from its blocks
(`readDirectory_of`), a stream's part of the directory is found behind the blocks of all streams
before it (`streamBlocks_of`), and what the blocks hold, in their order, is the stream
(`foldlM_appendBlock_of`).
-/

namespace Kache.PePdb

open Checked

/-! ## Containers -/

/-- A stream: its bytes, unless it was deleted, and the blocks they are in. -/
structure MsfStream where
  content : Option Bytes
  ids : List UInt32

namespace MsfStream

/-- The bytes of a stream. -/
def bytes (s : MsfStream) : Bytes := s.content.getD []

/-- The size the directory gives for it. -/
def sizeWord (s : MsfStream) : ℕ := s.content.elim 0xffffffff List.length

end MsfStream

/-- The number of a block, as the directory has it. -/
def idBytes (id : UInt32) : Bytes := leBytes 4 id.toNat

/-- A container. -/
structure Msf where
  blockSize : ℕ
  blocks : ℕ
  blockMap : ℕ
  directoryIds : List UInt32
  streams : List MsfStream

namespace Msf

/-- The size fields of the directory. -/
def sizeFields (m : Msf) : Bytes := m.streams.flatMap fun s => leBytes 4 s.sizeWord

/-- The directory: the number of streams, their sizes, and their blocks. -/
def directory (m : Msf) : Bytes :=
  leBytes 4 m.streams.length ++ m.sizeFields ++ m.streams.flatMap fun s => s.ids.flatMap idBytes

/-- What the superblock says of it. -/
def superblock (m : Msf) : Superblock := ⟨m.blockSize, m.blocks, m.directory.length, m.blockMap⟩

end Msf

/-- `content` is in the blocks `ids`, in this order, and ends in the last one. -/
structure Spread (file : Bytes) (blockSize blocks : ℕ) (ids : List UInt32) (content : Bytes) :
    Prop where
  count : ids.length = divCeil content.length blockSize
  inRange : ∀ id ∈ ids, id.toNat < blocks
  held : ∀ p ∈ ids.zipIdx,
    window file (p.1.toNat * blockSize) (min (content.length - p.2 * blockSize) blockSize) =
      window content (p.2 * blockSize) blockSize

/-- The file is the container: a superblock with a supported block size, a block map in one
block, and directory and streams in their blocks. -/
structure LaidOut (file : Bytes) (m : Msf) : Prop where
  magic : window file 0 32 = msfMagic
  blockSize : (word32 file 32).toNat = m.blockSize
  blocks : (word32 file 40).toNat = m.blocks
  directoryBytes : (word32 file 44).toNat = m.directory.length
  blockMap : (word32 file 52).toNat = m.blockMap
  powerOfTwo : isPowerOfTwo 64 m.blockSize = true
  low : 512 ≤ m.blockSize
  high : m.blockSize ≤ 65536
  long : m.blocks * m.blockSize ≤ file.length
  mapInRange : m.blockMap < m.blocks
  map : window file (m.blockMap * m.blockSize) (m.directoryIds.length * 4) =
    m.directoryIds.flatMap idBytes
  oneMapBlock : m.directoryIds.length * 4 ≤ m.blockSize
  admitted : m.directory.length ≤ maxDirectoryBytes
  directory : Spread file m.blockSize m.blocks m.directoryIds m.directory
  streams : ∀ s ∈ m.streams, Spread file m.blockSize m.blocks s.ids s.bytes
  sizes : ∀ s ∈ m.streams, ∀ content ∈ s.content, content.length < 0xffffffff

/-! ## Blocks -/

/-- A block that is in range is in the file. -/
theorem block_inside {file : Bytes} {blockSize blocks block length : ℕ}
    (long : blocks * blockSize ≤ file.length) (inRange : block < blocks)
    (short : length ≤ blockSize) : block * blockSize + length ≤ file.length := by
  have next : (block + 1) * blockSize ≤ blocks * blockSize := Nat.mul_le_mul_right blockSize inRange
  rw [Nat.add_mul, Nat.one_mul] at next
  omega

theorem length_idBytes (id : UInt32) : (idBytes id).length = 4 := length_leBytes 4 _

variable {i : ℕ} {s : MsfStream}

section Spread

variable {file : Bytes} {blockSize blocks : ℕ} {ids : List UInt32} {content : Bytes}

/-- The next block of a content. -/
theorem Spread.appendBlock_of (spread : Spread file blockSize blocks ids content)
    (high : blockSize ≤ 65536)
    (long : blocks * blockSize ≤ file.length) {id : UInt32} (found : ids[i]? = some id) :
    appendBlock file blockSize content.length (content.take (i * blockSize)) id.toNat =
      .ok (content.take ((i + 1) * blockSize)) := by
  have inRange := spread.inRange id (List.mem_of_getElem? found)
  have held := spread.held (id, i) (List.mk_mem_zipIdx_iff_getElem?.mpr found)
  have remaining : content.length - (content.take (i * blockSize)).length =
      content.length - i * blockSize := by
    rw [List.length_take]
    omega
  unfold appendBlock
  refine bind_of (word_of (block_offset id.toNat_lt high)) ?_
  refine bind_of (minus_of (List.length_take_le' _ _)) ?_
  rw [remaining]
  refine bind_of (readAt_of (block_inside long inRange (min_le_right _ _))) ?_
  rw [held, Nat.add_mul, Nat.one_mul, List.take_add]
  rfl

/-- The blocks of a content give it back. -/
theorem foldlM_appendBlock_of (spread : Spread file blockSize blocks ids content)
    (low : 0 < blockSize) (high : blockSize ≤ 65536) (long : blocks * blockSize ≤ file.length) :
    ids.foldlM (fun sofar id => appendBlock file blockSize content.length sofar id.toNat) [] =
      .ok content := by
  -- after the first `i` blocks, the first `i * blockSize` bytes are there
  have loop : ∀ (rest : List UInt32) (i : ℕ), ids.drop i = rest →
      rest.foldlM (fun sofar id => appendBlock file blockSize content.length sofar id.toNat)
        (content.take (i * blockSize)) = .ok content := by
    intro rest
    induction rest with
    | nil =>
      intro i split
      have past : ids.length ≤ i := List.drop_eq_nil_iff.mp split
      have enough := le_divCeil_mul content.length low
      rw [← spread.count] at enough
      rw [List.foldlM_nil, List.take_of_length_le (enough.trans (Nat.mul_le_mul_right _ past))]
      rfl
    | cons id rest ih =>
      intro i split
      have found : ids[i]? = some id := by
        rw [← List.head?_drop, split, List.head?_cons]
      have tail : ids.drop (i + 1) = rest := by
        rw [← List.drop_drop, split, List.drop_one, List.tail_cons]
      rw [List.foldlM_cons]
      exact bind_of (spread.appendBlock_of high long found) (ih (i + 1) tail)
  have start := loop ids 0 rfl
  rwa [Nat.zero_mul, List.take_zero] at start

/-- A list of block numbers, cut into its numbers. -/
theorem foldlM_asChunks {σ : Type} (f : σ → Bytes → Checked String σ)
    (g : σ → UInt32 → Checked String σ)
    (same : ∀ s id, f s (idBytes id) = g s id) (ids : List UInt32) (s : σ) :
    (asChunks 4 (ids.flatMap idBytes)).foldlM f s = ids.foldlM g s := by
  rw [asChunks_flatMap length_idBytes (by decide), List.foldlM_map]
  congr 1
  funext s id
  exact same s id

end Spread

/-! ## The directory -/

section Directory

variable {file : Bytes} {m : Msf}

theorem LaidOut.readSuperblock_of (laid : LaidOut file m) :
    readSuperblock file = .ok m.superblock := by
  have positive : 0 < m.blocks := Nat.zero_lt_of_lt laid.mapInRange
  have header : 56 ≤ file.length := by
    have := block_inside laid.long positive le_rfl
    have := laid.low
    omega
  have length : (window file 0 56).length = 56 := length_window (by omega)
  have field : ∀ offset, offset + 4 ≤ 56 →
      (u32At (window file 0 56) offset : Checked String UInt32) = .ok (word32 file offset) := by
    intro offset inside
    rw [u32At_of (by omega) (by omega), word32_window inside, Nat.zero_add]
  have blocks := laid.directory.count
  have map := laid.oneMapBlock
  have high := laid.high
  have small : 4 ≤ m.directory.length := by
    rw [Msf.directory, List.length_append, List.length_append, length_leBytes]
    omega
  have positiveBlocks : m.blocks ≠ 0 := Nat.ne_of_gt positive
  have all : m.blocks * m.blockSize < 2 ^ 64 := by
    rw [← laid.blocks]
    exact block_offset (UInt32.toNat_lt _) high
  unfold readSuperblock
  refine bind_of (readAt_of (by omega)) ?_
  refine bind_of (slice_of (by omega) (by omega)) ?_
  refine bind_of (ensure_of ?_ _) ?_
  · rw [window_window file (by decide)]
    exact laid.magic
  refine bind_of (field 32 (by decide)) ?_
  rw [laid.blockSize]
  refine bind_of (ensure_of ⟨laid.powerOfTwo, laid.low, high⟩ _) ?_
  refine bind_of (field 40 (by decide)) ?_
  rw [laid.blocks]
  refine bind_of (ensure_of positiveBlocks _) ?_
  refine bind_of (word_of all) ?_
  refine bind_of (checkRange_of (by rw [Nat.zero_add]; exact laid.long)) ?_
  refine bind_of (field 44 (by decide)) ?_
  rw [laid.directoryBytes]
  refine bind_of (ensure_of ⟨small, laid.admitted⟩ _) ?_
  refine bind_of (field 52 (by decide)) ?_
  rw [laid.blockMap]
  refine bind_of (ensure_of laid.mapInRange _) ?_
  have four : m.superblock.directoryBlocks * 4 = m.directoryIds.length * 4 := by
    rw [blocks]
    rfl
  refine bind_of (word_of (show m.superblock.directoryBlocks * 4 < 2 ^ 64 by omega)) ?_
  refine bind_of (ensure_of (show m.superblock.directoryBlocks * 4 ≤ m.blockSize by omega) _) ?_
  rfl

theorem LaidOut.readDirectory_of (laid : LaidOut file m) :
    readDirectory file m.superblock = .ok m.directory := by
  have high := laid.high
  have map := laid.oneMapBlock
  have count : m.superblock.directoryBlocks = m.directoryIds.length := laid.directory.count.symm
  have inRange : m.blockMap < 2 ^ 32 := by
    rw [← laid.blockMap]
    exact UInt32.toNat_lt _
  unfold readDirectory
  refine bind_of (word_of (block_offset inRange high)) ?_
  refine bind_of (word_of (show m.superblock.directoryBlocks * 4 < 2 ^ 64 by omega)) ?_
  rw [count]
  refine bind_of (readAt_of (block_inside laid.long laid.mapInRange map)) ?_
  show (asChunks 4 (window file (m.blockMap * m.blockSize) _)).foldlM _ _ = _
  rw [laid.map]
  rw [foldlM_asChunks _ (fun directory id => do
    ensure (id.toNat < m.blocks) "MSF directory block is outside the declared blocks"
    appendBlock file m.blockSize m.directory.length directory id.toNat) ?_]
  · have passed : ∀ directory : Bytes, ∀ id ∈ m.directoryIds, (do
        ensure (id.toNat < m.blocks) "MSF directory block is outside the declared blocks"
        appendBlock file m.blockSize m.directory.length directory id.toNat) =
        appendBlock file m.blockSize m.directory.length directory id.toNat := by
      intro directory id mem
      rw [ensure_of (laid.directory.inRange id mem)]
      rfl
    rw [foldlM_congr passed]
    exact foldlM_appendBlock_of laid.directory (lt_of_lt_of_le (by decide) laid.low) high laid.long
  · intro directory id
    unfold directoryBlock
    rw [idBytes, u32FromLeBytes_leBytes]
    rfl

/-- The part of the directory before the blocks. -/
theorem length_directory_head (m : Msf) :
    (leBytes 4 m.streams.length ++ m.sizeFields).length = 4 + 4 * m.streams.length := by
  rw [List.length_append, length_leBytes, Msf.sizeFields, length_flatMap_of fun s =>
    length_leBytes 4 _]

theorem directory_head_le (m : Msf) : 4 + 4 * m.streams.length ≤ m.directory.length := by
  rw [Msf.directory, List.length_append, length_directory_head]
  omega

theorem LaidOut.readStreams_of (laid : LaidOut file m) :
    readStreams m.directory = .ok m.streams.length := by
  have head := directory_head_le m
  have admitted : m.directory.length ≤ 64 * 2 ^ 20 := laid.admitted
  have field : word32 m.directory 0 = UInt32.ofNat m.streams.length := by
    have first : window m.directory 0 4 = leBytes 4 m.streams.length := by
      rw [Msf.directory, List.append_assoc]
      show window ([] ++ leBytes 4 m.streams.length ++ _) 0 4 = _
      exact window_append rfl (length_leBytes 4 _)
    rw [word32, first, u32FromLeBytes, leValue_leBytes (show m.streams.length < 256 ^ 4 by omega)]
  have count : (word32 m.directory 0).toNat = m.streams.length := by
    rw [field]
    exact UInt32.toNat_ofNat_of_lt' (show m.streams.length < 2 ^ 32 by omega)
  unfold readStreams
  refine bind_of (u32At_of (by omega) (by omega)) ?_
  rw [count]
  refine bind_of (minus_of (by omega)) ?_
  refine bind_of (ensure_of (by omega) _) ?_
  rfl

/-- The size of a stream, as the directory has it. -/
theorem LaidOut.sizeOf_of (laid : LaidOut file m) (found : m.streams[i]? = some s) :
    sizeOf m.directory i = .ok s.bytes.length := by
  have inside : i < m.streams.length := (List.getElem?_eq_some_iff.mp found).1
  have head := directory_head_le m
  have admitted : m.directory.length ≤ 64 * 2 ^ 20 := laid.admitted
  have size : s.sizeWord < 2 ^ 32 := by
    unfold MsfStream.sizeWord
    cases hcontent : s.content with
    | none => decide
    | some content =>
      have := laid.sizes s (List.mem_of_getElem? found) content hcontent
      exact lt_trans this (by decide)
  have field : word32 m.directory (4 + 4 * i) = UInt32.ofNat s.sizeWord := by
    have fields : window m.sizeFields (4 * i) 4 = leBytes 4 s.sizeWord :=
      window_flatMap (fun s => length_leBytes 4 _) found
    have whole : window m.directory 4 (4 * m.streams.length) = m.sizeFields := by
      refine window_append (length_leBytes 4 _) ?_
      exact length_flatMap_of (fun s => length_leBytes 4 _) _
    rw [word32, ← window_window m.directory (show 4 * i + 4 ≤ 4 * m.streams.length by omega),
      whole, fields, u32FromLeBytes, leValue_leBytes size]
  unfold sizeOf
  refine bind_of (word_of (by omega)) ?_
  refine bind_of (u32At_of (by omega) (by omega)) ?_
  rw [field]
  unfold MsfStream.sizeWord MsfStream.bytes
  cases hcontent : s.content with
  | none => rfl
  | some content =>
    have short := laid.sizes s (List.mem_of_getElem? found) content hcontent
    have value : (UInt32.ofNat content.length).toNat = content.length :=
      UInt32.toNat_ofNat_of_lt' (lt_trans short (by decide))
    have other : UInt32.ofNat content.length ≠ 0xffffffff := by
      intro same
      rw [← UInt32.toNat_inj, value] at same
      exact absurd same (Nat.ne_of_lt short)
    show Except.ok (if UInt32.ofNat content.length = 0xffffffff then 0
      else (UInt32.ofNat content.length).toNat) = .ok content.length
    rw [if_neg other, value]

/-- The blocks of the first streams. -/
def blocksOf (m : Msf) (n : ℕ) : ℕ := ((m.streams.take n).flatMap MsfStream.ids).length

theorem blocksOf_succ (found : m.streams[i]? = some s) :
    blocksOf m (i + 1) = blocksOf m i + s.ids.length := by
  obtain ⟨inside, rfl⟩ := List.getElem?_eq_some_iff.mp found
  rw [blocksOf, blocksOf, List.take_succ_eq_append_getElem inside, List.flatMap_append,
    List.length_append, List.flatMap_singleton]

theorem flatMap_ids (l : List MsfStream) :
    (l.flatMap fun s => s.ids.flatMap idBytes) = (l.flatMap MsfStream.ids).flatMap idBytes :=
  List.flatMap_assoc.symm

/-- All blocks of the directory are counted in it. -/
theorem blocksOf_le (m : Msf) (n : ℕ) :
    4 + 4 * m.streams.length + 4 * blocksOf m n ≤ m.directory.length := by
  have whole : m.streams.flatMap MsfStream.ids =
      (m.streams.take n).flatMap MsfStream.ids ++ (m.streams.drop n).flatMap MsfStream.ids := by
    rw [← List.flatMap_append, List.take_append_drop]
  have part : blocksOf m n ≤ (m.streams.flatMap MsfStream.ids).length := by
    rw [whole, List.length_append]
    exact Nat.le_add_right _ _
  rw [Msf.directory, List.length_append, length_directory_head, flatMap_ids,
    length_flatMap_of length_idBytes]
  omega

theorem LaidOut.blocksBefore_of (laid : LaidOut file m) {n : ℕ} (inside : n ≤ m.streams.length) :
    blocksBefore m.superblock m.directory n = .ok (blocksOf m n) := by
  have admitted : m.directory.length ≤ 64 * 2 ^ 20 := laid.admitted
  unfold blocksBefore
  induction n with
  | zero => rfl
  | succ i ih =>
    have found := List.getElem?_eq_getElem (show i < m.streams.length from inside)
    have bound := blocksOf_le m (i + 1)
    have count := (laid.streams _ (List.getElem_mem inside)).count
    rw [List.range_succ, List.foldlM_append]
    refine bind_of (ih (by omega)) ?_
    rw [List.foldlM_cons]
    refine bind_of (bind_of (laid.sizeOf_of found) ?_) rfl
    show word 64 (blocksOf m i + divCeil _ m.blockSize) = _
    rw [← count, ← blocksOf_succ found]
    exact word_of (by omega)

/-- A stream's part of the directory. -/
theorem window_directory (found : m.streams[i]? = some s) :
    window m.directory (4 + 4 * m.streams.length + 4 * blocksOf m i) (4 * s.ids.length) =
      s.ids.flatMap idBytes := by
  rw [Msf.directory, flatMap_split (fun s : MsfStream => s.ids.flatMap idBytes) found,
    ← List.append_assoc, ← List.append_assoc]
  refine window_append ?_ (length_flatMap_of length_idBytes _)
  rw [List.length_append, length_directory_head, flatMap_ids, length_flatMap_of length_idBytes]
  rfl

/-- The size and the blocks of a stream. -/
theorem LaidOut.streamBlocks_of (laid : LaidOut file m) (found : m.streams[i]? = some s)
    (full : s.bytes ≠ []) (admitted : i ≠ pdbInfoStream ∨ s.bytes.length ≤ maxInfoStreamBytes) :
    streamBlocks m.superblock m.directory m.streams.length i =
      .ok (s.bytes.length, s.ids.flatMap idBytes) := by
  have inside : i < m.streams.length := (List.getElem?_eq_some_iff.mp found).1
  have spread := laid.streams s (List.mem_of_getElem? found)
  have count : divCeil s.bytes.length m.superblock.blockSize = s.ids.length := spread.count.symm
  have small : m.directory.length ≤ 64 * 2 ^ 20 := laid.admitted
  have bound := blocksOf_le m (i + 1)
  rw [blocksOf_succ found] at bound
  unfold streamBlocks
  refine bind_of (ensure_of inside _) ?_
  refine bind_of (laid.sizeOf_of found) ?_
  have nonempty : s.bytes.length ≠ 0 := fun none => full (List.length_eq_zero_iff.mp none)
  refine bind_of (ensure_of nonempty _) ?_
  refine bind_of (ensure_of admitted _) ?_
  refine bind_of (laid.blocksBefore_of (le_of_lt inside)) ?_
  refine bind_of (word_of (by omega)) ?_
  rw [count]
  refine bind_of (word_of (by omega)) ?_
  refine bind_of (word_of (by omega)) ?_
  have ids : getRange m.directory (4 + 4 * m.streams.length + 4 * blocksOf m i)
      (4 + 4 * m.streams.length + 4 * blocksOf m i + 4 * s.ids.length) =
        some (s.ids.flatMap idBytes) := by
    refine getRange_eq_some.mpr ⟨Nat.le_add_right _ _, by omega, ?_⟩
    rw [Nat.add_sub_cancel_left, window_directory found]
  rw [ids]
  refine bind_of (orFail_some _ _) ?_
  refine bind_of (ensure_of ?_ _) rfl
  rw [asChunks_flatMap length_idBytes (by decide)]
  intro chunk mem
  obtain ⟨id, listed, rfl⟩ := List.mem_map.mp mem
  rw [idBytes, u32FromLeBytes_leBytes]
  exact spread.inRange id listed

end Directory

/-! ## The identity -/

/-- The information stream is read whole. -/
theorem LaidOut.readInfo_of {file : Bytes} {m : Msf} (laid : LaidOut file m)
    (found : m.streams[pdbInfoStream]? = some s) (long : 28 ≤ s.bytes.length)
    (admitted : s.bytes.length ≤ maxInfoStreamBytes) :
    readInfo file m.superblock m.directory m.streams.length = .ok s.bytes := by
  have spread := laid.streams s (List.mem_of_getElem? found)
  have full : s.bytes ≠ [] := by
    intro none
    rw [none] at long
    exact absurd long (by decide)
  unfold readInfo
  refine bind_of (laid.streamBlocks_of found full (.inr admitted)) ?_
  refine bind_of (ensure_of long _) ?_
  rw [foldlM_asChunks _ (fun info id => appendBlock file m.blockSize s.bytes.length info id.toNat)]
  · exact foldlM_appendBlock_of spread (lt_of_lt_of_le (by decide) laid.low) laid.high laid.long
  · intro info id
    rw [idBytes, u32FromLeBytes_leBytes]
    rfl

/-- The header of the DBI stream is in its first block. -/
theorem LaidOut.readDbi_of {file : Bytes} {m : Msf} (laid : LaidOut file m)
    (found : m.streams[dbiStream]? = some s) (long : 64 ≤ s.bytes.length) :
    readDbi file m.superblock m.directory m.streams.length = .ok (window s.bytes 0 64) := by
  have spread := laid.streams s (List.mem_of_getElem? found)
  have low := laid.low
  have full : s.bytes ≠ [] := by
    intro none
    rw [none] at long
    exact absurd long (by decide)
  have first : ∃ id rest, s.ids = id :: rest := by
    refine List.exists_cons_of_ne_nil fun none => ?_
    have enough := le_divCeil_mul s.bytes.length (lt_of_lt_of_le (by decide) low)
    rw [← spread.count, none, List.length_nil] at enough
    omega
  obtain ⟨id, rest, hids⟩ := first
  have inRange := spread.inRange id (hids ▸ List.mem_cons_self)
  have held := spread.held (id, 0) (List.mk_mem_zipIdx_iff_getElem?.mpr (by rw [hids]; rfl))
  rw [Nat.zero_mul, Nat.sub_zero] at held
  have field : word32 (s.ids.flatMap idBytes) 0 = id := by
    have front : window (s.ids.flatMap idBytes) 0 4 = idBytes id :=
      window_flatMap length_idBytes (show s.ids[0]? = some id by rw [hids]; rfl)
    rw [word32, front, idBytes, u32FromLeBytes_leBytes]
  have length : (s.ids.flatMap idBytes).length = 4 * s.ids.length :=
    length_flatMap_of length_idBytes _
  have positive : 0 < s.ids.length := by
    rw [hids]
    exact Nat.succ_pos _
  unfold readDbi
  refine bind_of (laid.streamBlocks_of found full (.inl (by decide))) ?_
  refine bind_of (ensure_of long _) ?_
  refine bind_of (u32At_of (show 0 + 4 ≤ (s.ids.flatMap idBytes).length by omega) (by decide)) ?_
  rw [field]
  refine bind_of (word_of (block_offset id.toNat_lt laid.high)) ?_
  show readAt file (id.toNat * m.blockSize) 64 = _
  rw [readAt_of (block_inside laid.long inRange (by omega))]
  congr 1
  calc window file (id.toNat * m.blockSize) 64
      = window (window file (id.toNat * m.blockSize) (min s.bytes.length m.blockSize)) 0 64 :=
        (window_window file (show 0 + 64 ≤ min s.bytes.length m.blockSize by omega)).symm
    _ = window (window s.bytes 0 m.blockSize) 0 64 := by rw [held]
    _ = window s.bytes 0 64 := window_window s.bytes (show 0 + 64 ≤ m.blockSize by omega)

/-- **Streams are put together again.**  A file is laid out as a container `m`, its streams spread
over any blocks in any order.  If stream 1 is an information stream of a supported version whose
features are supported, within the admitted size, and stream 3 has a supported DBI header, then
`read_pdb_identity` returns the GUID and age of the one and the age of the other. -/
theorem pdb_identity_reassembled {file : Bytes} {m : Msf} (laid : LaidOut file m)
    (info dbi : MsfStream) (infoStream : m.streams[pdbInfoStream]? = some info)
    (admitted : info.bytes.length ≤ maxInfoStreamBytes)
    (version : SupportedInfo (word32 info.bytes 0))
    (features : checkPdbInfoFeatures info.bytes = .ok ())
    (dbiStreamIs : m.streams[dbiStream]? = some dbi) (header : 64 ≤ dbi.bytes.length)
    (supported : SupportedDbi (word32 dbi.bytes 0) (word32 dbi.bytes 4)) :
    readPdbIdentity file =
      .ok ⟨window info.bytes 12 16, word32 info.bytes 8, word32 dbi.bytes 8⟩ := by
  have small : info.bytes.length ≤ 2 ^ 20 := admitted
  have long : 28 ≤ info.bytes.length := (safe_checkPdbInfoFeatures (by omega)).result features
  have length : (window dbi.bytes 0 64).length = 64 := length_window (by omega)
  have field : ∀ offset, offset + 4 ≤ 64 →
      (u32At (window dbi.bytes 0 64) offset : Checked String UInt32) =
        .ok (word32 dbi.bytes offset) := by
    intro offset inside
    rw [u32At_of (by omega) (by omega), word32_window inside, Nat.zero_add]
  unfold readPdbIdentity
  refine bind_of laid.readSuperblock_of ?_
  refine bind_of laid.readDirectory_of ?_
  refine bind_of laid.readStreams_of ?_
  refine bind_of (laid.readInfo_of infoStream long admitted) ?_
  refine bind_of (u32At_of (by omega) (by omega)) ?_
  refine bind_of (ensure_of version _) ?_
  refine bind_of features ?_
  refine bind_of (slice_of (by omega) (by omega)) ?_
  refine bind_of (laid.readDbi_of dbiStreamIs header) ?_
  refine bind_of (field 0 (by decide)) ?_
  refine bind_of (field 4 (by decide)) ?_
  refine bind_of (ensure_of supported _) ?_
  refine bind_of (u32At_of (by omega) (by omega)) ?_
  refine bind_of (field 8 (by decide)) ?_
  rfl

instance (file : Bytes) (blockSize blocks : ℕ) (ids : List UInt32) (content : Bytes) :
    Decidable (Spread file blockSize blocks ids content) :=
  -- lists are searched as they are: `UInt32` is finite, and all of it could be searched instead
  decidable_of_iff (ids.length = divCeil content.length blockSize ∧
    (ids.all fun id => id.toNat < blocks) = true ∧
      (ids.zipIdx.all fun p =>
        window file (p.1.toNat * blockSize) (min (content.length - p.2 * blockSize) blockSize) =
          window content (p.2 * blockSize) blockSize) = true)
    ⟨fun h => ⟨h.1, by simpa using h.2.1,
      fun p mem => of_decide_eq_true (List.all_eq_true.mp h.2.2 p mem)⟩,
      fun h => ⟨h.count, by simpa using h.inRange,
        List.all_eq_true.mpr fun p mem => decide_eq_true (h.held p mem)⟩⟩

/-- An information stream without named streams and features. -/
def plainInfo : Bytes :=
  leBytes 4 20000404 ++ leBytes 4 7 ++ leBytes 4 2 ++ (List.range 16).map UInt8.ofNat ++
    leBytes 4 0 ++ leBytes 4 0 ++ leBytes 4 1 ++ leBytes 4 0 ++ leBytes 4 0 ++ leBytes 4 0

/-- A DBI stream of just a header. -/
def plainDbi : Bytes :=
  leBytes 4 0xffffffff ++ leBytes 4 19990903 ++ leBytes 4 3 ++ List.replicate 52 0

/-- Four streams, the first one deleted, the third in two blocks that are not in their order. -/
def smallMsf : Msf where
  blockSize := 512
  blocks := 7
  blockMap := 3
  directoryIds := [2]
  streams := [⟨none, []⟩, ⟨some plainInfo, [5]⟩, ⟨some (List.replicate 600 9), [6, 1]⟩,
    ⟨some plainDbi, [4]⟩]

/-- The blocks of `smallMsf`, one after the other. -/
def smallPdb : Bytes :=
  let block (bytes : Bytes) : Bytes := bytes ++ List.replicate (512 - bytes.length) 0
  block (msfMagic ++ leBytes 4 512 ++ leBytes 4 1 ++ leBytes 4 7 ++
    leBytes 4 smallMsf.directory.length ++ leBytes 4 0 ++ leBytes 4 3) ++
  block (List.replicate 88 9) ++ block smallMsf.directory ++ block (leBytes 4 2) ++
  block plainDbi ++ block plainInfo ++ List.replicate 512 9

theorem pdb_identity_reassembled_small :
    readPdbIdentity smallPdb = .ok ⟨(List.range 16).map UInt8.ofNat, 2, 3⟩ := by
  have laid : LaidOut smallPdb smallMsf := by
    constructor <;> decide +kernel
  have identity := pdb_identity_reassembled laid ⟨some plainInfo, [5]⟩ ⟨some plainDbi, [4]⟩ rfl
    (by decide +kernel) (by decide +kernel) (by decide +kernel) rfl
    (by decide +kernel) (by decide +kernel)
  rw [identity]
  decide +kernel

end Kache.PePdb
