import Kache.PePdb.CodeView

/-!
# The identity of a program database

A program database is an MSF container: a file of blocks, a directory of streams that is itself
spread over blocks, and streams whose blocks the directory lists one stream after the other.
`readPdbIdentity` reads the directory, the information stream and the header of the DBI stream.

As in `CodeView`, every offset, count and block number is a field of the file, and
`safe_readPdbIdentity` says that none of them leads out of a buffer, a word or the file.  The loops
that put blocks together never have more than the announced size in hand
(`safe_foldlM_appendBlock`), which is what the subtractions need and, at the end, what
the reads at fixed offsets need.
-/

namespace Kache.PePdb

open Checked

/-- `MSF_MAGIC`. -/
def msfMagic : Bytes := utf8 "Microsoft C/C++ MSF 7.00\r\n\x1aDS\x00\x00\x00"

/-- `PDB_INFO_STREAM`. -/
def pdbInfoStream : ℕ := 1

/-- `DBI_STREAM`. -/
def dbiStream : ℕ := 3

/-- `MAX_DIRECTORY_BYTES`. -/
def maxDirectoryBytes : ℕ := 64 * 2 ^ 20

/-- `MAX_INFO_STREAM_BYTES`. -/
def maxInfoStreamBytes : ℕ := 2 ^ 20

/-- `PdbIdentity`. -/
structure PdbIdentity where
  guid : Bytes
  infoAge : UInt32
  dbiAge : UInt32
  deriving DecidableEq

/-! ## Features of the information stream -/

/-- `take`: the first bytes and the others. -/
def take (bytes : Bytes) (length : ℕ) : Checked String (Bytes × Bytes) :=
  if length ≤ bytes.length then .ok (bytes.take length, bytes.drop length)
  else fail "truncated PDB Info named-stream map"

/-- `number`. -/
def number (bytes : Bytes) : Checked String (UInt32 × Bytes) := do
  let taken ← take bytes 4
  pure (← u32At taken.1 0, taken.2)

/-- `bitmap`. -/
def bitmap (bytes : Bytes) : Checked String (Bytes × Bytes) := do
  let words ← number bytes
  let length ← orFail "PDB Info bitmap length overflow" (checkedMul 64 words.1.toNat 4)
  take words.2 length

/-- `rposition`. -/
def rposition (p : UInt8 → Bool) (bytes : Bytes) : Option ℕ :=
  (bytes.reverse.findIdx? p).map fun i => bytes.length - 1 - i

/-- One word of a bitmap; only the words of the first bitmap are counted. -/
def bitmapWord (capacity : UInt32) (isPresent : Bool) (presentCount : ℕ) (chunk : Bytes × ℕ) :
    Checked String ℕ := do
  let bits := (u32FromLeBytes chunk.1).toNat
  let used ← minus 32 (leadingZeros 32 bits)
  ensure (bits = 0 ∨ (← word 64 ((← word 64 (chunk.2 * 32)) + used)) ≤ capacity.toNat)
    "PDB Info bitmap exceeds its map capacity"
  if isPresent then word 64 (presentCount + countOnes 32 bits) else pure presentCount

/-- The words of a bitmap. -/
def bitmapWords (capacity : UInt32) (isPresent : Bool) (presentCount : ℕ) (map : Bytes) :
    Checked String ℕ :=
  (asChunks 4 map).zipIdx.foldlM (bitmapWord capacity isPresent) presentCount

/-- One entry of the named-stream map. -/
def mapEntry (lastTerminator : Option ℕ) (bytes : Bytes) (_ : ℕ) : Checked String Bytes := do
  let name ← number bytes
  ensure (lastTerminator.any fun stop => name.1.toNat ≤ stop) "PDB Info map names an invalid string"
  let stream ← number name.2
  pure stream.2

/-- One feature of the tail. -/
def checkFeature (chunk : Bytes) : Checked String Unit :=
  let feature := u32FromLeBytes chunk
  if feature = 0x494e494d then fail "FASTLINK PDB needs the original object and library files"
  else if feature = 20091201 ∨ feature = 20140508 ∨ feature = 0x4d544f4e then pure ()
  else fail ("unsupported PDB Info feature " ++ lowerHex feature.toNat)

/-- `check_pdb_info_features`. -/
def checkPdbInfoFeatures (info : Bytes) : Checked String Unit := do
  let bytes ← orFail "truncated PDB Info header" (getFrom info 28)
  let stringBytes ← number bytes
  let names ← take stringBytes.2 stringBytes.1.toNat
  let lastTerminator := rposition (· = 0) names.1
  let entries ← number names.2
  let capacity ← number entries.2
  ensure (capacity.1 ≠ 0 ∧
      entries.1.toNat ≤ (← word 64 ((← word 64 (capacity.1.toNat * 2)) / 3 + 1)))
    "invalid PDB Info map capacity"
  let present ← bitmap capacity.2
  let deleted ← bitmap present.2
  let presentCount ← bitmapWords capacity.1 true 0 present.1
  let presentCount ← bitmapWords capacity.1 false presentCount deleted.1
  ensure (presentCount = entries.1.toNat) "PDB Info present count does not match its map size"
  ensure (∀ pair ∈ (asChunks 4 present.1).zip (asChunks 4 deleted.1),
      u32FromLeBytes pair.1 &&& u32FromLeBytes pair.2 = 0)
    "PDB Info present and deleted maps overlap"
  let bytes ← (List.range entries.1.toNat).foldlM (mapEntry lastTerminator) deleted.2
  let niMac ← number bytes
  ensure (niMac.2.length % 4 = 0) "PDB Info feature tail is truncated"
  (asChunks 4 niMac.2).forM checkFeature

theorem safe_take (bytes : Bytes) (length : ℕ) : Safe (take bytes length) fun taken =>
    taken.1.length = length ∧ taken.2.length + length = bytes.length := by
  refine Safe.ite (fun inside => Safe.ok ⟨?_, ?_⟩) fun _ => Safe.fail _ _
  · exact List.length_take_of_le inside
  · rw [List.length_drop]
    omega

theorem safe_number (bytes : Bytes) :
    Safe (number bytes) fun rest => rest.2.length ≤ bytes.length := by
  unfold number
  refine (safe_take bytes 4).bind fun taken htaken => ?_
  refine (safe_u32At (by omega) (by omega)).bind fun value _ => ?_
  exact Safe.pure (show taken.2.length ≤ bytes.length by omega)

theorem safe_bitmap (bytes : Bytes) : Safe (bitmap bytes) fun map =>
    map.1.length ≤ bytes.length ∧ map.2.length ≤ bytes.length := by
  unfold bitmap
  refine (safe_number bytes).bind fun words hwords => ?_
  refine (safe_orFail _ _).bind fun length _ => ?_
  exact (safe_take words.2 length).mono fun map hmap => by omega

/-- Counts stay below 32 for each word. -/
theorem safe_bitmapWords (capacity : UInt32) (isPresent : Bool) {presentCount : ℕ} {map : Bytes}
    (small : map.length < 2 ^ 32) (low : presentCount < 2 ^ 40) :
    Safe (bitmapWords capacity isPresent presentCount map) fun count =>
      count ≤ presentCount + 32 * (map.length / 4) := by
  have words : (asChunks 4 map).zipIdx.length = map.length / 4 := by
    rw [List.length_zipIdx, length_asChunks]
  rw [← words]
  refine Safe.foldlM _ (fun done count => count ≤ presentCount + 32 * done.length)
    (Nat.le_add_right _ _) fun done chunk rest count split here => ?_
  have listed : chunk ∈ (asChunks 4 map).zipIdx :=
    split ▸ List.mem_append_right done List.mem_cons_self
  have position : chunk.2 < map.length / 4 := by
    have := List.snd_lt_of_mem_zipIdx listed
    rwa [length_asChunks] at this
  have before : done.length < map.length / 4 := by
    rw [← words, split, List.length_append, List.length_cons]
    omega
  have ones := countOnes_le 32 (u32FromLeBytes chunk.1).toNat
  unfold bitmapWord
  refine (safe_minus (leadingZeros_le 32 _)).bind fun used hused => ?_
  refine (safe_word (by omega)).bind fun first hfirst => ?_
  refine (safe_word (by omega)).bind fun last _ => ?_
  refine (safe_ensure _ _).bind fun _ _ => ?_
  rw [List.length_append, List.length_singleton]
  refine Safe.ite (fun _ => ?_) fun _ => Safe.pure (by omega)
  exact (safe_word (by omega)).mono fun count' hcount => by omega

theorem safe_mapEntry (lastTerminator : Option ℕ) (bytes : Bytes) (i : ℕ) :
    Safe (mapEntry lastTerminator bytes i) fun _ => True := by
  unfold mapEntry
  refine (safe_number bytes).bind fun name _ => ?_
  refine (safe_ensure _ _).bind fun _ _ => ?_
  exact (safe_number name.2).bind fun stream _ => Safe.pure True.intro

theorem safe_checkFeature (chunk : Bytes) : Safe (checkFeature chunk) fun _ => True :=
  Safe.ite (fun _ => True.intro) fun _ => Safe.ite (fun _ => True.intro) fun _ => True.intro

/-- A stream that passes has a whole header. -/
theorem safe_checkPdbInfoFeatures {info : Bytes} (small : info.length < 2 ^ 32) :
    Safe (checkPdbInfoFeatures info) fun _ => 28 ≤ info.length := by
  unfold checkPdbInfoFeatures
  refine (safe_orFail _ _).bind fun bytes found => ?_
  obtain ⟨header, rfl⟩ := getFrom_eq_some.mp found
  have length : (info.drop 28).length < 2 ^ 32 := by
    rw [List.length_drop]
    omega
  refine (safe_number _).bind fun stringBytes hstring => ?_
  refine (safe_take stringBytes.2 _).bind fun names hnames => ?_
  refine (safe_number names.2).bind fun entries hentries => ?_
  refine (safe_number entries.2).bind fun capacity hcapacity => ?_
  have hword := capacity.1.toNat_lt
  refine (safe_word (by omega)).bind fun double hdouble => ?_
  refine (safe_word (by omega)).bind fun most _ => ?_
  refine (safe_ensure _ _).bind fun _ _ => ?_
  refine (safe_bitmap capacity.2).bind fun present hpresent => ?_
  refine (safe_bitmap present.2).bind fun deleted hdeleted => ?_
  refine (safe_bitmapWords capacity.1 true (by omega) (by omega)).bind fun count hcount => ?_
  refine (safe_bitmapWords capacity.1 false (by omega) (by omega)).bind fun count' _ => ?_
  refine (safe_ensure _ _).bind fun _ _ => ?_
  refine (safe_ensure _ _).bind fun _ _ => ?_
  refine (Safe.foldlM _ (fun _ _ => True) True.intro
    fun _ i _ bytes _ _ => safe_mapEntry _ bytes i).bind fun bytes _ => ?_
  refine (safe_number bytes).bind fun niMac _ => ?_
  refine (safe_ensure _ _).bind fun _ _ => ?_
  exact (Safe.forM fun chunk _ => safe_checkFeature chunk).mono fun _ _ => header

/-! ## The container -/

/-- What the superblock says. -/
structure Superblock where
  blockSize : ℕ
  blocks : ℕ
  directoryBytes : ℕ
  blockMap : ℕ

/-- The blocks the directory takes. -/
def Superblock.directoryBlocks (sb : Superblock) : ℕ := divCeil sb.directoryBytes sb.blockSize

/-- The superblock, as `read_pdb_identity` reads and checks it. -/
def readSuperblock (file : Bytes) : Checked String Superblock := do
  let superblock ← readAt file 0 56
  ensure ((← slice superblock 0 32) = msfMagic) "not an MSF 7.0 program database"
  let blockSize := (← u32At superblock 32).toNat
  ensure (isPowerOfTwo 64 blockSize ∧ 512 ≤ blockSize ∧ blockSize ≤ 65536)
    ("MSF block size " ++ toString blockSize)
  let blocks := (← u32At superblock 40).toNat
  ensure (blocks ≠ 0) "MSF has no blocks"
  checkRange file 0 (← word 64 (blocks * blockSize))
  let directoryBytes := (← u32At superblock 44).toNat
  ensure (4 ≤ directoryBytes ∧ directoryBytes ≤ maxDirectoryBytes)
    ("MSF stream directory of " ++ toString directoryBytes ++ " bytes")
  let blockMap := (← u32At superblock 52).toNat
  ensure (blockMap < blocks) "MSF block map is outside the declared blocks"
  let sb : Superblock := ⟨blockSize, blocks, directoryBytes, blockMap⟩
  ensure ((← word 64 (sb.directoryBlocks * 4)) ≤ blockSize)
    "MSF stream directory spans too many blocks"
  pure sb

/-- The body of the loops that put blocks together: the next block, or what of it still
belongs to the `total` bytes. -/
def appendBlock (file : Bytes) (blockSize total : ℕ) (sofar : Bytes) (block : ℕ) :
    Checked String Bytes := do
  let offset ← word 64 (block * blockSize)
  let remaining ← minus total sofar.length
  pure (sofar ++ (← readAt file offset (min remaining blockSize)))

/-- One block of the directory. -/
def directoryBlock (file : Bytes) (sb : Superblock) (directory chunk : Bytes) :
    Checked String Bytes := do
  let block := (u32FromLeBytes chunk).toNat
  ensure (block < sb.blocks) "MSF directory block is outside the declared blocks"
  appendBlock file sb.blockSize sb.directoryBytes directory block

/-- The directory, through the block map. -/
def readDirectory (file : Bytes) (sb : Superblock) : Checked String Bytes := do
  let map ← readAt file (← word 64 (sb.blockMap * sb.blockSize))
    (← word 64 (sb.directoryBlocks * 4))
  (asChunks 4 map).foldlM (directoryBlock file sb) []

/-- The number of streams. -/
def readStreams (directory : Bytes) : Checked String ℕ := do
  let streams := (← u32At directory 0).toNat
  ensure (streams ≤ (← minus directory.length 4) / 4) "MSF stream directory is truncated"
  pure streams

/-- `size_of`: a stream that was deleted has no bytes. -/
def sizeOf (directory : Bytes) (i : ℕ) : Checked String ℕ := do
  let size ← u32At directory (← word 64 (4 + 4 * i))
  pure (if size = 0xffffffff then 0 else size.toNat)

/-- The blocks of the streams before one. -/
def blocksBefore (sb : Superblock) (directory : Bytes) (stream : ℕ) : Checked String ℕ :=
  (List.range stream).foldlM (fun sum i => do
    word 64 (sum + divCeil (← sizeOf directory i) sb.blockSize)) 0

/-- `stream_blocks`: the size of a stream and its part of the directory. -/
def streamBlocks (sb : Superblock) (directory : Bytes) (streams stream : ℕ) :
    Checked String (ℕ × Bytes) := do
  ensure (stream < streams) ("PDB stream " ++ toString stream ++ " is missing")
  let size ← sizeOf directory stream
  ensure (size ≠ 0) ("PDB stream " ++ toString stream ++ " is empty")
  ensure (stream ≠ pdbInfoStream ∨ size ≤ maxInfoStreamBytes)
    ("PDB Info stream of " ++ toString size ++ " bytes exceeds the supported admission size")
  let before ← blocksBefore sb directory stream
  let offset ← word 64 (4 + 4 * streams + 4 * before)
  let length ← word 64 (4 * divCeil size sb.blockSize)
  let ids ← orFail "MSF stream directory is truncated"
    (getRange directory offset (← word 64 (offset + length)))
  ensure (∀ id ∈ asChunks 4 ids, (u32FromLeBytes id).toNat < sb.blocks)
    ("PDB stream " ++ toString stream ++ " points outside the declared blocks")
  pure (size, ids)

/-- The information stream. -/
def readInfo (file : Bytes) (sb : Superblock) (directory : Bytes) (streams : ℕ) :
    Checked String Bytes := do
  let stream ← streamBlocks sb directory streams pdbInfoStream
  ensure (28 ≤ stream.1) "the PDB information stream is truncated"
  (asChunks 4 stream.2).foldlM
    (fun info chunk => appendBlock file sb.blockSize stream.1 info (u32FromLeBytes chunk).toNat) []

/-- The header of the DBI stream. -/
def readDbi (file : Bytes) (sb : Superblock) (directory : Bytes) (streams : ℕ) :
    Checked String Bytes := do
  let stream ← streamBlocks sb directory streams dbiStream
  ensure (64 ≤ stream.1) "the PDB DBI header is truncated"
  readAt file (← word 64 ((← u32At stream.2 0).toNat * sb.blockSize)) 64

/-- The versions of the information stream that are read. -/
def SupportedInfo (version : UInt32) : Prop :=
  version = 20000404 ∨ version = 20030901 ∨ version = 20091201 ∨ version = 20140508

/-- The DBI headers that are read. -/
def SupportedDbi (signature version : UInt32) : Prop :=
  signature = 0xffffffff ∧ (version = 19990903 ∨ version = 20091201)

instance (version : UInt32) : Decidable (SupportedInfo version) :=
  inferInstanceAs (Decidable (_ ∨ _))

instance (signature version : UInt32) : Decidable (SupportedDbi signature version) :=
  inferInstanceAs (Decidable (_ ∧ _))

/-- `read_pdb_identity`. -/
def readPdbIdentity (file : Bytes) : Checked String PdbIdentity := do
  let sb ← readSuperblock file
  let directory ← readDirectory file sb
  let streams ← readStreams directory
  let info ← readInfo file sb directory streams
  ensure (SupportedInfo (← u32At info 0)) "unsupported PDB Info stream version"
  checkPdbInfoFeatures info
  let guid ← slice info 12 28
  let dbi ← readDbi file sb directory streams
  ensure (SupportedDbi (← u32At dbi 0) (← u32At dbi 4)) "unsupported PDB DBI header"
  pure ⟨guid, ← u32At info 8, ← u32At dbi 8⟩

/-! ### Totality -/

/-- What the checks of the superblock give. -/
structure Superblock.Checked (sb : Superblock) : Prop where
  low : 512 ≤ sb.blockSize
  high : sb.blockSize ≤ 65536
  blocks : sb.blocks < 2 ^ 32
  small : 4 ≤ sb.directoryBytes
  large : sb.directoryBytes ≤ maxDirectoryBytes
  map : sb.blockMap < sb.blocks
  one : sb.directoryBlocks * 4 ≤ sb.blockSize

/-- Offsets of blocks are words. -/
theorem block_offset {block blockSize : ℕ} (word : block < 2 ^ 32) (high : blockSize ≤ 65536) :
    block * blockSize < 2 ^ 64 :=
  lt_of_le_of_lt (Nat.mul_le_mul (le_of_lt word) high) (by decide)

theorem safe_readSuperblock (file : Bytes) : Safe (readSuperblock file) Superblock.Checked := by
  unfold readSuperblock
  refine (safe_readAt file 0 56).bind fun superblock hsuper => ?_
  refine (safe_slice (by omega) (by omega)).bind fun magic _ => ?_
  refine (safe_ensure _ _).bind fun _ _ => ?_
  refine (safe_u32At (by omega) (by omega)).bind fun blockSize _ => ?_
  refine (safe_ensure _ _).bind fun _ hsize => ?_
  refine (safe_u32At (by omega) (by omega)).bind fun blocks _ => ?_
  refine (safe_ensure _ _).bind fun _ _ => ?_
  refine (safe_word (block_offset blocks.toNat_lt hsize.2.2)).bind fun all _ => ?_
  refine (safe_checkRange file 0 all).bind fun _ _ => ?_
  refine (safe_u32At (by omega) (by omega)).bind fun directoryBytes _ => ?_
  refine (safe_ensure _ _).bind fun _ hbytes => ?_
  refine (safe_u32At (by omega) (by omega)).bind fun blockMap _ => ?_
  refine (safe_ensure _ _).bind fun _ hmap => ?_
  have count := divCeil_le directoryBytes.toNat blockSize.toNat
  have bytes := directoryBytes.toNat_lt
  refine (safe_word ?_).bind fun four hfour => ?_
  · show divCeil directoryBytes.toNat blockSize.toNat * 4 < 2 ^ 64
    omega
  refine (safe_ensure _ _).bind fun _ one => ?_
  exact Safe.pure ⟨hsize.2.1, hsize.2.2, blocks.toNat_lt, hbytes.1, hbytes.2, hmap, hfour ▸ one⟩

/-- Blocks put together are never more than announced, and with enough blocks they are all of
it. -/
theorem safe_foldlM_appendBlock (file : Bytes) {blockSize : ℕ} (high : blockSize ≤ 65536)
    (total : ℕ)
    {γ : Type} {step : Bytes → γ → Checked String Bytes} {items : List γ} (block : γ → UInt32)
    (body : ∀ sofar x P, x ∈ items →
      Safe (appendBlock file blockSize total sofar (block x).toNat) P → Safe (step sofar x) P)
    (enough : total ≤ items.length * blockSize) :
    Safe (items.foldlM step []) fun bytes => bytes.length = total := by
  have loop : Safe (items.foldlM step [])
      fun bytes => bytes.length = min total (items.length * blockSize) := by
    refine Safe.foldlM _ (fun done (bytes : Bytes) =>
      bytes.length = min total (done.length * blockSize)) ?_ fun done x rest sofar split here => ?_
    · simp
    · refine body sofar x _ (split ▸ List.mem_append_right done List.mem_cons_self) ?_
      unfold appendBlock
      refine (safe_word (block_offset (block x).toNat_lt high)).bind fun offset _ => ?_
      refine (safe_minus (here ▸ min_le_left _ _)).bind fun remaining hremaining => ?_
      refine (safe_readAt file offset _).bind fun bytes hbytes => ?_
      refine Safe.pure ?_
      rw [List.length_append, List.length_append, List.length_singleton, Nat.add_mul, Nat.one_mul,
        hbytes.2.2]
      omega
  exact loop.mono fun bytes length => length.trans (min_eq_left enough)

theorem safe_readDirectory (file : Bytes) {sb : Superblock} (checked : sb.Checked) :
    Safe (readDirectory file sb) fun directory => directory.length = sb.directoryBytes := by
  have one := checked.one
  have high := checked.high
  unfold readDirectory
  refine (safe_word (block_offset (lt_trans checked.map checked.blocks) high)).bind fun offset _ =>
    ?_
  refine (safe_word (by omega)).bind fun length hlength => ?_
  refine (safe_readAt file offset length).bind fun map hmap => ?_
  refine safe_foldlM_appendBlock file high sb.directoryBytes u32FromLeBytes
    (fun directory chunk P _ safe => ?_) ?_
  · exact (safe_ensure _ _).bind fun _ _ => safe
  · have count : (asChunks 4 map).length = sb.directoryBlocks := by
      rw [length_asChunks, hmap.2.2, hlength, Nat.mul_div_cancel _ (by decide)]
    rw [count]
    exact le_divCeil_mul _ (lt_of_lt_of_le (by decide) checked.low)

theorem safe_readStreams {directory : Bytes} (four : 4 ≤ directory.length) :
    Safe (readStreams directory) fun streams => 4 + 4 * streams ≤ directory.length := by
  unfold readStreams
  refine (safe_u32At (by omega) (by omega)).bind fun streams _ => ?_
  refine (safe_minus four).bind fun rest hrest => ?_
  refine (safe_ensure _ _).bind fun _ fits => ?_
  exact Safe.pure (by omega)

section Streams

variable {sb : Superblock} {directory : Bytes} {streams : ℕ}

theorem safe_sizeOf (listed : 4 + 4 * streams ≤ directory.length)
    (small : directory.length < 2 ^ 32) {i : ℕ} (inside : i < streams) :
    Safe (sizeOf directory i) fun size => size < 2 ^ 32 := by
  unfold sizeOf
  refine (safe_word (by omega)).bind fun offset hoffset => ?_
  refine (safe_u32At (by omega) (by omega)).bind fun size _ => ?_
  have hsize := size.toNat_lt
  refine Safe.pure ?_
  split
  · decide
  · exact hsize

theorem safe_blocksBefore (listed : 4 + 4 * streams ≤ directory.length)
    (small : directory.length < 2 ^ 32) {stream : ℕ} (inside : stream < streams) :
    Safe (blocksBefore sb directory stream) fun before => before ≤ stream * (2 ^ 32 + 1) := by
  have loop := Safe.foldlM (List.range stream) (ε := String) (s := 0)
    (f := fun sum i => do word 64 (sum + divCeil (← sizeOf directory i) sb.blockSize))
    (fun done sum => sum ≤ done.length * (2 ^ 32 + 1)) (Nat.zero_le _)
    fun done i rest sum split here => ?_
  · rw [List.length_range] at loop
    exact loop
  · have mem : i ∈ List.range stream := split ▸ List.mem_append_right done List.mem_cons_self
    have before : done.length < stream := by
      have length := congrArg List.length split
      rw [List.length_range, List.length_append, List.length_cons] at length
      omega
    refine (safe_sizeOf listed small (lt_trans (List.mem_range.mp mem) inside)).bind
      fun size hsize => ?_
    have count := divCeil_le size sb.blockSize
    refine (safe_word ?_).mono fun sum' hsum => ?_
    · have : done.length < 2 ^ 30 := by omega
      omega
    · rw [List.length_append, List.length_singleton]
      omega

theorem safe_streamBlocks (listed : 4 + 4 * streams ≤ directory.length)
    (small : directory.length < 2 ^ 27) (stream : ℕ) :
    Safe (streamBlocks sb directory streams stream) fun found => found.1 < 2 ^ 32 ∧
      (stream = pdbInfoStream → found.1 ≤ maxInfoStreamBytes) ∧
      found.2.length = 4 * divCeil found.1 sb.blockSize := by
  unfold streamBlocks
  refine (safe_ensure _ _).bind fun _ inside => ?_
  refine (safe_sizeOf listed (by omega) inside).bind fun size hsize => ?_
  refine (safe_ensure _ _).bind fun _ _ => ?_
  refine (safe_ensure _ _).bind fun _ bounded => ?_
  refine (safe_blocksBefore listed (by omega) inside).bind fun before hbefore => ?_
  refine (safe_word (by omega)).bind fun offset hoffset => ?_
  have count := divCeil_le size sb.blockSize
  refine (safe_word (by omega)).bind fun length hlength => ?_
  refine (safe_word (by omega)).bind fun stop hstop => ?_
  refine (safe_orFail _ _).bind fun ids found => ?_
  obtain ⟨le, fits, rfl⟩ := getRange_eq_some.mp found
  refine (safe_ensure _ _).bind fun _ _ => ?_
  refine Safe.pure ⟨hsize, fun info => bounded.resolve_left fun no => no info, ?_⟩
  show (window directory offset (stop - offset)).length = 4 * divCeil size sb.blockSize
  rw [length_window (by omega)]
  omega

theorem safe_readInfo (file : Bytes) (checked : sb.Checked)
    (listed : 4 + 4 * streams ≤ directory.length) (small : directory.length < 2 ^ 27) :
    Safe (readInfo file sb directory streams) fun info =>
      28 ≤ info.length ∧ info.length ≤ maxInfoStreamBytes := by
  unfold readInfo
  refine (safe_streamBlocks listed small pdbInfoStream).bind fun stream hstream => ?_
  refine (safe_ensure _ _).bind fun _ long => ?_
  refine (safe_foldlM_appendBlock file checked.high stream.1 u32FromLeBytes
    (fun _ _ _ _ safe => safe) ?_).mono fun info length => ?_
  · rw [length_asChunks, hstream.2.2, Nat.mul_div_cancel_left _ (by decide)]
    exact le_divCeil_mul _ (lt_of_lt_of_le (by decide) checked.low)
  · rw [length]
    exact ⟨long, hstream.2.1 rfl⟩

theorem safe_readDbi (file : Bytes) (checked : sb.Checked)
    (listed : 4 + 4 * streams ≤ directory.length) (small : directory.length < 2 ^ 27) :
    Safe (readDbi file sb directory streams) fun dbi => dbi.length = 64 := by
  unfold readDbi
  refine (safe_streamBlocks listed small dbiStream).bind fun stream hstream => ?_
  refine (safe_ensure _ _).bind fun _ long => ?_
  have enough := le_divCeil_mul stream.1 (lt_of_lt_of_le (by decide) checked.low)
  have some : 0 < divCeil stream.1 sb.blockSize := by
    rcases Nat.eq_zero_or_pos (divCeil stream.1 sb.blockSize) with none | some
    · rw [none] at enough
      omega
    · exact some
  refine (safe_u32At (by omega) (by omega)).bind fun block _ => ?_
  refine (safe_word (block_offset block.toNat_lt checked.high)).bind fun offset _ => ?_
  exact (safe_readAt file offset 64).mono fun dbi hdbi => hdbi.2.2

end Streams

/-- **`read_pdb_identity` is total.** -/
theorem safe_readPdbIdentity (file : Bytes) : Safe (readPdbIdentity file) fun _ => True := by
  unfold readPdbIdentity
  refine (safe_readSuperblock file).bind fun sb checked => ?_
  have hsmall := checked.small
  have hlarge := checked.large
  unfold maxDirectoryBytes at hlarge
  refine (safe_readDirectory file checked).bind fun directory hdirectory => ?_
  refine (safe_readStreams (by omega)).bind fun streams listed => ?_
  refine (safe_readInfo file checked listed (by omega)).bind fun info hinfo => ?_
  have hmax : info.length ≤ 2 ^ 20 := hinfo.2
  refine (safe_u32At (by omega) (by omega)).bind fun version _ => ?_
  refine (safe_ensure _ _).bind fun _ _ => ?_
  refine (safe_checkPdbInfoFeatures (by omega)).bind fun _ _ => ?_
  refine (safe_slice (by omega) (by omega)).bind fun guid _ => ?_
  refine (safe_readDbi file checked listed (by omega)).bind fun dbi hdbi => ?_
  refine (safe_u32At (by omega) (by omega)).bind fun signature _ => ?_
  refine (safe_u32At (by omega) (by omega)).bind fun dbiVersion _ => ?_
  refine (safe_ensure _ _).bind fun _ _ => ?_
  refine (safe_u32At (by omega) (by omega)).bind fun infoAge _ => ?_
  refine (safe_u32At (by omega) (by omega)).bind fun dbiAge _ => ?_
  exact Safe.pure True.intro

/-- **The readers of executables and program databases are total.**  For every content of a file
they return a value or an error: none of their indices, words and reads faults. -/
theorem pe_pdb_readers_total (file : Bytes) :
    ((∃ debug, readCodeview file = .ok debug) ∨ ∃ e, readCodeview file = .error (.err e)) ∧
    ((∃ identity, readPdbIdentity file = .ok identity) ∨
      ∃ e, readPdbIdentity file = .error (.err e)) :=
  ⟨(safe_readCodeview file).returns, (safe_readPdbIdentity file).returns⟩

end Kache.PePdb
