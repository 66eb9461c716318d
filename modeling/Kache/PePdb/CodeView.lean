import Kache.Format
import Kache.Foundation.Text
import Kache.Foundation.Words

/-!
# The debug record of a Windows executable

A PE executable names its program database in a CodeView record: the headers lead to a
debug directory, an address in the image that the section table maps to a place in the file;
an entry of the directory leads to the record, by an address again.  All of these are fields of an
untrusted file.  `readCodeview` is the reader, and `safe_readCodeview` says that whatever the file
holds it returns or fails: every offset it computes stays in its word, every index in its
buffer, and every read inside the file.

A reader works on the bytes of a file; that opening or reading it may fail for other reasons is left
out.
-/

namespace Kache.PePdb

open Checked

/-- A number as `{:#x}` prints it. -/
def lowerHex (n : ℕ) : String := "0x" ++ String.ofList (Nat.toDigits 16 n)

/-! ## The file -/

/-- The error of a range that is not in the file. -/
def exceeds (file : Bytes) (offset len : ℕ) : String :=
  "reading " ++ toString len ++ " bytes at offset " ++ toString offset ++ " exceeds file size " ++
    toString file.length

/-- `Reader::check_range`. -/
def checkRange (file : Bytes) (offset len : ℕ) : Checked String Unit :=
  if offset ≤ file.length then do
    ensure (len ≤ (← minus file.length offset)) (exceeds file offset len)
  else fail (exceeds file offset len)

/-- A seek and a `read_exact`. -/
def readExact (file : Bytes) (offset len : ℕ) : Checked String Bytes :=
  if offset + len ≤ file.length then .ok (window file offset len) else .error (.fault .readPastEnd)

/-- `Reader::read_at`. -/
def readAt (file : Bytes) (offset len : ℕ) : Checked String Bytes := do
  checkRange file offset len
  readExact file offset len

theorem checkRange_of {file : Bytes} {offset len : ℕ} (inside : offset + len ≤ file.length) :
    checkRange file offset len = .ok () := by
  rw [checkRange, if_pos (by omega), minus_of (by omega)]
  exact ensure_of (by omega) _

theorem readAt_of {file : Bytes} {offset len : ℕ} (inside : offset + len ≤ file.length) :
    readAt file offset len = .ok (window file offset len) := by
  rw [readAt, checkRange_of inside]
  exact if_pos inside

theorem safe_checkRange (file : Bytes) (offset len : ℕ) :
    Safe (checkRange file offset len) fun _ => offset + len ≤ file.length := by
  refine Safe.ite (fun below => ?_) fun _ => Safe.fail _ _
  refine (safe_minus below).bind fun rest here => ?_
  refine (safe_ensure _ _).mono fun _ fits => ?_
  omega

/-- What is read is there. -/
theorem safe_readAt (file : Bytes) (offset len : ℕ) :
    Safe (readAt file offset len) fun bytes =>
      offset + len ≤ file.length ∧ bytes = window file offset len ∧ bytes.length = len := by
  refine (safe_checkRange file offset len).bind fun _ inside => ?_
  rw [readExact, if_pos inside]
  exact Safe.ok ⟨inside, rfl, length_window inside⟩

/-! ## Addresses -/

/-- `SECTION_HEADER_SIZE`. -/
def sectionHeaderSize : ℕ := 40

/-- One section of `file_offset_for_rva`'s loop; `location` is where the extent from `start` to
`stop` was found so far. -/
def sectionLocation (start stop : ℕ) (location : Option ℕ) (sectionHeader : Bytes) :
    Checked String (Option ℕ) := do
  let address := (← u32At sectionHeader 12).toNat
  let rawSize := (← u32At sectionHeader 16).toNat
  let span := max (← u32At sectionHeader 8).toNat rawSize
  if stop ≤ address ∨ (← word 64 (address + span)) ≤ start then pure location
  else do
    ensure (address ≤ start ∧ stop ≤ (← word 64 (address + rawSize)))
      "PE debug data is not fully file-backed in an overlapping section"
    ensure (location = none) "PE debug data has ambiguous RVA mappings"
    let pointer := (← u32At sectionHeader 20).toNat
    pure (some (← minus (← word 64 (pointer + start)) address))

/-- The location in the headers, if it is there. -/
def headerLocation (rva : UInt32) (stop : ℕ) (headers : UInt32) : Checked String (Option ℕ) :=
  if rva < headers then do
    ensure (stop ≤ headers.toNat) "PE debug data crosses the headers"
    pure (some rva.toNat)
  else pure none

/-- `file_offset_for_rva`. -/
def fileOffsetForRva (rva size headers : UInt32) (table : Bytes) : Checked String ℕ := do
  ensure (rva ≠ 0) "PE debug data has no mapped RVA (file-only layout is unsupported)"
  let start := rva.toNat
  let stop ← word 64 (start + size.toNat)
  let location ← headerLocation rva stop headers
  let location ← (asChunks sectionHeaderSize table).foldlM (sectionLocation start stop) location
  orFail "PE debug data has no file-backed RVA mapping" location

/-- Offsets below four words of 32 bits: what a field, and sums of fields, can give. -/
def Near (offset : ℕ) : Prop := offset < 2 ^ 34

theorem safe_sectionLocation {start stop : ℕ} (small : start < 2 ^ 32) {location : Option ℕ}
    (near : ∀ o ∈ location, Near o) {sectionHeader : Bytes} (whole : sectionHeader.length = 40) :
    Safe (sectionLocation start stop location sectionHeader) fun found => ∀ o ∈ found, Near o := by
  unfold sectionLocation
  refine (safe_u32At (by omega) (by omega)).bind fun address _ => ?_
  refine (safe_u32At (by omega) (by omega)).bind fun rawSize _ => ?_
  refine (safe_u32At (by omega) (by omega)).bind fun virtualSize _ => ?_
  have haddress := address.toNat_lt
  have hraw := rawSize.toNat_lt
  have hvirtual := virtualSize.toNat_lt
  refine (safe_word (by omega)).bind fun last _ => ?_
  refine Safe.ite (fun _ => Safe.pure near) fun _ => ?_
  refine (safe_word (by omega)).bind fun backed _ => ?_
  refine (safe_ensure _ _).bind fun _ inside => ?_
  refine (safe_ensure _ _).bind fun _ _ => ?_
  refine (safe_u32At (by omega) (by omega)).bind fun pointer _ => ?_
  have hpointer := pointer.toNat_lt
  refine (safe_word (by omega)).bind fun sum hsum => ?_
  refine (safe_minus (by omega)).bind fun offset hoffset => ?_
  refine Safe.pure fun o mem => ?_
  cases mem
  unfold Near
  omega

theorem safe_fileOffsetForRva (rva size headers : UInt32) (table : Bytes) :
    Safe (fileOffsetForRva rva size headers table) Near := by
  have hrva := rva.toNat_lt
  have hsize := size.toNat_lt
  unfold fileOffsetForRva
  refine (safe_ensure _ _).bind fun _ _ => ?_
  refine (safe_word (by omega)).bind fun stop _ => ?_
  have header : Safe (headerLocation rva stop headers) fun found => ∀ o ∈ found, Near o := by
    refine Safe.ite (fun _ => ?_) fun _ => Safe.pure fun o mem => nomatch mem
    refine (safe_ensure _ _).bind fun _ _ => ?_
    refine Safe.pure fun o mem => ?_
    cases mem
    unfold Near
    omega
  refine header.bind fun location near => ?_
  refine (Safe.foldlM _ (fun _ found => ∀ o ∈ found, Near o) near
    fun done chunk rest found split here => ?_).bind fun location near => ?_
  · have mem := split ▸ List.mem_append_right done List.mem_cons_self
    exact safe_sectionLocation hrva here (length_of_mem_asChunks mem)
  exact (safe_orFail _ location).mono fun o found => near o found

/-! ## The record -/

/-- `CodeViewRecord`. -/
structure CodeViewRecord where
  guid : Bytes
  age : UInt32
  pdbPath : String
  deriving DecidableEq

/-- `ExecutableDebug`. -/
inductive ExecutableDebug where
  | otherFormat
  | noCodeView
  | codeView (record : CodeViewRecord)
  deriving DecidableEq

/-- `DEBUG_TYPE_CODEVIEW`. -/
def debugTypeCodeview : UInt32 := 2

/-- `DEBUG_DATA_DIRECTORY`. -/
def debugDataDirectory : UInt32 := 6

/-- `DEBUG_ENTRY_SIZE`. -/
def debugEntrySize : ℕ := 28

/-- `MAX_CODEVIEW_BYTES`. -/
def maxCodeviewBytes : ℕ := 4096

/-- `MAX_DEBUG_ENTRIES`. -/
def maxDebugEntries : ℕ := 4096

/-- The headers of a PE file, as far as they are read first. -/
structure PeHeaders where
  pe : ℕ
  sections : ℕ
  optionalSize : ℕ
  optional : Bytes

/-- The first reads of `read_codeview`, after the magic number. -/
def readPeHeaders (file : Bytes) : Checked String PeHeaders := do
  let dos ← readAt file 0 64
  let pe := (← u32At dos 0x3c).toNat
  let coff ← readAt file pe 24
  ensure ((← slice coff 0 4) = utf8 "PE\x00\x00") "not a PE file (no PE signature)"
  let sections := (← u16At coff 6).toNat
  let optionalSize := (← u16At coff 20).toNat
  let optional ← readAt file (← word 64 (pe + 24)) optionalSize
  ensure (2 ≤ optional.length) "PE optional header is missing"
  pure ⟨pe, sections, optionalSize, optional⟩

/-- Where the optional header has the number of data directories, and the first of them. -/
def dataDirectories (magic : UInt16) : Checked String (ℕ × ℕ) :=
  if magic = 0x10b then pure (92, 96)
  else if magic = 0x20b then pure (108, 112)
  else fail ("unknown PE optional header magic " ++ lowerHex magic.toNat)

/-- Address and size of the debug directory, if there is one. -/
def debugDirectory (optional : Bytes) : Checked String (Option (UInt32 × UInt32)) := do
  let dirs ← dataDirectories (← u16At optional 0)
  ensure (dirs.1 + 4 ≤ optional.length) "PE optional header is truncated"
  if (← u32At optional dirs.1) ≤ debugDataDirectory then pure none
  else do
    let entry := dirs.2 + 8 * debugDataDirectory.toNat
    ensure (entry + 8 ≤ optional.length) "PE data directories are truncated"
    let debugRva ← u32At optional entry
    let debugSize ← u32At optional (entry + 4)
    if debugRva = 0 ∧ debugSize = 0 then pure none
    else do
      ensure (debugRva ≠ 0 ∧ debugSize ≠ 0) "incomplete PE debug directory location"
      ensure (debugSize.toNat % debugEntrySize = 0 ∧
        debugSize.toNat / debugEntrySize ≤ maxDebugEntries)
        "PE debug directory has an invalid or excessive entry count"
      pure (some (debugRva, debugSize))

/-- The record of an entry. -/
def readRecord (record : Bytes) : Checked String CodeViewRecord := do
  ensure ((← slice record 0 4) = utf8 "RSDS") "CodeView record is not RSDS"
  let guid ← slice record 4 20
  let name ← slice record 24 record.length
  let stop ← orFail "CodeView path is not NUL-terminated" (name.findIdx? (· = 0))
  let text ← orFail "CodeView .pdb path is not UTF-8" (Text.fromUtf8 (← slice name 0 stop))
  pure ⟨guid, ← u32At record 20, String.ofList text⟩

/-- One entry of the debug directory. -/
def debugEntry (file : Bytes) (headers : UInt32) (table : Bytes) (debugOffset : ℕ)
    (found : Option CodeViewRecord) (i : ℕ) : Checked String (Option CodeViewRecord) := do
  let entry ← readAt file (← word 64 (debugOffset + (← word 64 (i * debugEntrySize))))
    debugEntrySize
  if (← u32At entry 12) ≠ debugTypeCodeview then pure found
  else do
    ensure (found = none) "PE has multiple CodeView records"
    let size ← u32At entry 16
    ensure (25 ≤ size.toNat ∧ size.toNat ≤ maxCodeviewBytes)
      ("CodeView record of " ++ toString size.toNat ++ " bytes")
    let recordOffset ← fileOffsetForRva (← u32At entry 20) size headers table
    ensure (recordOffset = (← u32At entry 24).toNat)
      "CodeView RVA and raw pointer select different data"
    some <$> readRecord (← readAt file recordOffset size.toNat)

/-- `read_codeview`. -/
def readCodeview (file : Bytes) : Checked String ExecutableDebug := do
  if (← readAt file 0 2) ≠ utf8 "MZ" then pure .otherFormat
  else do
    let h ← readPeHeaders file
    match ← debugDirectory h.optional with
    | none => pure .noCodeView
    | some (debugRva, debugSize) => do
      let table ← readAt file (← word 64 ((← word 64 (h.pe + 24)) + h.optionalSize))
        (← word 64 (h.sections * sectionHeaderSize))
      let headers ← u32At h.optional 60
      let debugOffset ← fileOffsetForRva debugRva debugSize headers table
      checkRange file debugOffset debugSize.toNat
      let found ← (List.range (debugSize.toNat / debugEntrySize)).foldlM
        (debugEntry file headers table debugOffset) none
      pure (found.elim .noCodeView .codeView)

/-! ### Totality -/

/-- The fields are words, and there is an optional header. -/
structure PeHeaders.Bounded (h : PeHeaders) : Prop where
  pe : h.pe < 2 ^ 32
  sections : h.sections < 2 ^ 16
  optionalSize : h.optionalSize < 2 ^ 16
  optional : 2 ≤ h.optional.length

theorem safe_readPeHeaders (file : Bytes) : Safe (readPeHeaders file) PeHeaders.Bounded := by
  unfold readPeHeaders
  refine (safe_readAt file 0 64).bind fun dos hdos => ?_
  refine (safe_u32At (by omega) (by omega)).bind fun pe _ => ?_
  refine (safe_readAt file _ 24).bind fun coff hcoff => ?_
  refine (safe_slice (by omega) (by omega)).bind fun signature _ => ?_
  refine (safe_ensure _ _).bind fun _ _ => ?_
  refine (safe_u16At (by omega) (by omega)).bind fun sections _ => ?_
  refine (safe_u16At (by omega) (by omega)).bind fun optionalSize _ => ?_
  have hpe := pe.toNat_lt
  refine (safe_word (by omega)).bind fun offset _ => ?_
  refine (safe_readAt file offset _).bind fun optional _ => ?_
  refine (safe_ensure _ _).bind fun _ two => ?_
  exact Safe.pure ⟨hpe, sections.toNat_lt, optionalSize.toNat_lt, two⟩

theorem safe_dataDirectories (magic : UInt16) :
    Safe (dataDirectories magic) fun dirs => dirs = (92, 96) ∨ dirs = (108, 112) :=
  Safe.ite (fun _ => .inl rfl) fun _ => Safe.ite (fun _ => .inr rfl) fun _ => True.intro

/-- Whoever has a debug directory has an optional header long enough for its other fields. -/
theorem safe_debugDirectory {optional : Bytes} (two : 2 ≤ optional.length) :
    Safe (debugDirectory optional) fun found =>
      ∀ extent ∈ found, 64 ≤ optional.length ∧
        extent.2.toNat / debugEntrySize ≤ maxDebugEntries := by
  unfold debugDirectory
  refine (safe_u16At (by omega) (by omega)).bind fun magic _ => ?_
  refine (safe_dataDirectories magic).bind fun dirs hdirs => ?_
  have low : 92 ≤ dirs.1 ∧ dirs.1 ≤ 108 ∧ dirs.2 ≤ 112 := by
    rcases hdirs with rfl | rfl <;> decide
  have six : debugDataDirectory.toNat = 6 := rfl
  refine (safe_ensure _ _).bind fun _ count => ?_
  refine (safe_u32At (by omega) (by omega)).bind fun directories _ => ?_
  refine Safe.ite (fun _ => Safe.pure fun _ mem => nomatch mem) fun _ => ?_
  refine (safe_ensure _ _).bind fun _ listed => ?_
  refine (safe_u32At (by omega) (by omega)).bind fun debugRva _ => ?_
  refine (safe_u32At (by omega) (by omega)).bind fun debugSize _ => ?_
  refine Safe.ite (fun _ => Safe.pure fun _ mem => nomatch mem) fun _ => ?_
  refine (safe_ensure _ _).bind fun _ _ => ?_
  refine (safe_ensure _ _).bind fun _ entries => ?_
  refine Safe.pure fun extent mem => ?_
  cases mem
  exact ⟨by omega, entries.2⟩

theorem safe_readRecord {record : Bytes} (long : 25 ≤ record.length) :
    Safe (readRecord record) fun _ => True := by
  unfold readRecord
  refine (safe_slice (by omega) (by omega)).bind fun tag _ => ?_
  refine (safe_ensure _ _).bind fun _ _ => ?_
  refine (safe_slice (by omega) (by omega)).bind fun guid _ => ?_
  refine (safe_slice (by omega) le_rfl).bind fun name _ => ?_
  refine (safe_orFail _ _).bind fun stop found => ?_
  have inside : stop < name.length := (List.findIdx?_eq_some_iff_findIdx_eq.mp found).1
  refine (safe_slice (Nat.zero_le stop) (le_of_lt inside)).bind fun path _ => ?_
  refine (safe_orFail _ _).bind fun text _ => ?_
  refine (safe_u32At (by omega) (by omega)).bind fun age _ => ?_
  exact Safe.pure True.intro

theorem safe_debugEntry (file : Bytes) (headers : UInt32) (table : Bytes) {debugOffset i : ℕ}
    (near : Near debugOffset) (few : i < maxDebugEntries) (found : Option CodeViewRecord) :
    Safe (debugEntry file headers table debugOffset found i) fun _ => True := by
  unfold Near at near
  have count : i * debugEntrySize < 2 ^ 17 := by
    unfold maxDebugEntries at few
    unfold debugEntrySize
    omega
  unfold debugEntry
  refine (safe_word (by omega)).bind fun skipped hskipped => ?_
  refine (safe_word (by omega)).bind fun offset _ => ?_
  refine (safe_readAt file offset debugEntrySize).bind fun entry hentry => ?_
  have size : entry.length = 28 := hentry.2.2
  refine (safe_u32At (by omega) (by omega)).bind fun kind _ => ?_
  refine Safe.ite (fun _ => Safe.pure True.intro) fun _ => ?_
  refine (safe_ensure _ _).bind fun _ _ => ?_
  refine (safe_u32At (by omega) (by omega)).bind fun size _ => ?_
  refine (safe_ensure _ _).bind fun _ long => ?_
  refine (safe_u32At (by omega) (by omega)).bind fun rva _ => ?_
  refine (safe_fileOffsetForRva rva size headers table).bind fun recordOffset _ => ?_
  refine (safe_u32At (by omega) (by omega)).bind fun pointer _ => ?_
  refine (safe_ensure _ _).bind fun _ _ => ?_
  refine (safe_readAt file recordOffset _).bind fun record hrecord => ?_
  exact (safe_readRecord (by omega)).bind fun _ _ => Safe.pure True.intro

/-- **`read_codeview` is total.** -/
theorem safe_readCodeview (file : Bytes) : Safe (readCodeview file) fun _ => True := by
  unfold readCodeview
  refine (safe_readAt file 0 2).bind fun magic _ => ?_
  refine Safe.ite (fun _ => Safe.pure True.intro) fun _ => ?_
  refine (safe_readPeHeaders file).bind fun h bounded => ?_
  obtain ⟨hpe, hsections, hoptional, two⟩ := bounded
  refine (safe_debugDirectory two).bind fun found directory => ?_
  match found, directory with
  | none, _ => exact Safe.pure True.intro
  | some (debugRva, debugSize), directory =>
    obtain ⟨long, entries⟩ := directory _ rfl
    refine (safe_word (by omega)).bind fun first hfirst => ?_
    refine (safe_word (by omega)).bind fun offset _ => ?_
    refine (safe_word (by unfold sectionHeaderSize; omega)).bind fun size _ => ?_
    refine (safe_readAt file offset size).bind fun table _ => ?_
    refine (safe_u32At (by omega) (by omega)).bind fun headers _ => ?_
    refine (safe_fileOffsetForRva debugRva debugSize headers table).bind fun debugOffset near => ?_
    refine (safe_checkRange file debugOffset _).bind fun _ _ => ?_
    refine (Safe.foldlM _ (fun _ _ => True) True.intro
      fun done i rest found split _ => ?_).bind fun found _ => Safe.pure True.intro
    have listed := List.mem_range.mp (split ▸ List.mem_append_right done List.mem_cons_self)
    exact safe_debugEntry file headers table near (lt_of_lt_of_le listed entries) found

end Kache.PePdb
