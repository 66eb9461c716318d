import Kache.Foundation.Framing
import Kache.Foundation.Loop
import Kache.Foundation.Rows
import Kache.Foundation.StableSort
import Kache.Format

/-!
# The C/C++ preprocess memo

The index remembers, for a preprocessor invocation, the files it read: the *inputs* of a
memo.  A later invocation with the same memo key may reuse the result if every input
still has the bytes it had then, and the cheap way to tell is the file's *stamp*
(`FileFingerprint`): path, size, mtime, ctime and inode.

Input rows are shared: a row belongs to every memo that read the same bytes under the
same name.  So a row's stamp may be rewritten by

* a put of this release whose stamp had settled when it was observed — it also writes the
  row's `proof`, a digest of the stamp;
* a put whose stamp had not settled — it leaves the row as it is, or starts one with no
  stamp and no proof;
* a put of an older release, which rewrites the stamp and does not know the proof.

A lookup trusts the stamp of a row only while the proof matches it.
-/

namespace Kache.Memo

open UnixPath

/-! ## Stamps -/

/-- `i64::MAX`. -/
def i64Max : ℤ := 9223372036854775807

/-- `i64::MIN`. -/
def i64Min : ℤ := -9223372036854775808

/-- Saturating arithmetic on `i64`. -/
def saturate (n : ℤ) : ℤ := max i64Min (min n i64Max)

/-- `FileFingerprint`. -/
structure FileFingerprint where
  path : String
  size : ℤ
  mtimeNs : ℤ
  ctimeNs : ℤ
  inode : ℤ
  deriving DecidableEq, Repr

/-- A file as the file system has it.  The times are in nanoseconds since the Unix epoch;
an mtime can be set to any time, a ctime is a time of the system clock. -/
structure File where
  bytes : Bytes
  mtime : ℤ
  ctime : ℕ
  inode : ℕ
  deriving DecidableEq, Repr

/-- `metadata_parts_ns`. -/
def metadataPartsNs (seconds nanoseconds : ℤ) : ℤ :=
  saturate (saturate (seconds * 1000000000) + nanoseconds)

/-- `metadata_mtime_ns`, from `st_mtime` and `st_mtime_nsec`. -/
def metadataMtimeNs (file : File) : ℤ :=
  metadataPartsNs (file.mtime / 1000000000) (file.mtime % 1000000000)

/-- `metadata_ctime_ns`. -/
def metadataCtimeNs (file : File) : ℤ :=
  metadataPartsNs (file.ctime / 1000000000) (file.ctime % 1000000000)

/-- `FileFingerprint::from_metadata` for an absolute path. -/
def FileFingerprint.fromMetadata (path : String) (file : File) : FileFingerprint where
  path := path
  size := min file.bytes.length i64Max
  mtimeNs := metadataMtimeNs file
  ctimeNs := metadataCtimeNs file
  inode := min file.inode i64Max

/-- `wall_clock_ns` at a time since the Unix epoch. -/
def wallClockNs (now : ℕ) : ℤ := min now i64Max

/-- `HASH_SETTLE_NS`. -/
def hashSettleNs : ℤ := 2000000000

/-- `stamp_is_settled`. -/
def stampIsSettled (fingerprint : FileFingerprint) (observedNs : ℤ) : Bool :=
  let changed := max fingerprint.mtimeNs fingerprint.ctimeNs
  hashSettleNs ≤ saturate (observedNs - changed)

/-- `ObservedFingerprint`. -/
structure ObservedFingerprint where
  fingerprint : FileFingerprint
  observedNs : ℤ
  deriving DecidableEq, Repr

/-- `CcPreprocessMemoInput`. -/
structure CcPreprocessMemoInput where
  name : String
  fingerprint : FileFingerprint
  content : String
  mapped : String
  observedNs : ℤ
  deriving DecidableEq, Repr

/-- `stamp_settled`. -/
def CcPreprocessMemoInput.stampSettled (input : CcPreprocessMemoInput) : Bool :=
  stampIsSettled input.fingerprint input.observedNs

/-- `UNPROVEN_SIZE`. -/
def unprovenSize : ℤ := -1

/-- `unproven`: the stamp that matches no file. -/
def unproven (path : String) : FileFingerprint where
  path := path
  size := unprovenSize
  mtimeNs := 0
  ctimeNs := 0
  inode := 0

/-- `i64::to_le_bytes`. -/
def i64ToLeBytes (value : ℤ) : Bytes := leBytes 8 (value % 18446744073709551616).toNat

/-- `CC_MEMO_RULE`. -/
def ccMemoRule : ℤ := 1

/-- `stamp_proof`: the first eight bytes of the digest of the rule and the stamp. -/
def stampProof (blake3 : Bytes → Bytes) (stamp : FileFingerprint) : ℤ :=
  asI64 (leValue ((blake3 (i64ToLeBytes ccMemoRule ++ utf8 stamp.path ++ [0] ++
    [stamp.size, stamp.mtimeNs, stamp.ctimeNs, stamp.inode].flatMap i64ToLeBytes)).take 8))

/-- A lowercase hex digit. -/
def hexDigit (n : ℕ) : Char := if n < 10 then Char.ofNat (48 + n) else Char.ofNat (87 + n)

/-- `hash_file`, of the bytes it reads. -/
def hashFile (blake3 : Bytes → Bytes) (bytes : Bytes) : String :=
  String.ofList ((blake3 bytes).flatMap fun b => [hexDigit (b.toNat / 16), hexDigit (b.toNat % 16)])

/-! ## The tables -/

/-- A row of `cc_preprocess_memos`; `lastUsed` is in seconds. -/
structure MemoRow where
  id : ℕ
  memoKey : String
  preprocessedHash : String
  inputCount : ℕ
  lastUsed : ℤ
  deriving DecidableEq, Repr

/-- A row of `cc_memo_inputs`; `stamp` is its `local_path`, `size`, `mtime_ns`, `ctime_ns`
and `inode` columns. -/
structure InputRow where
  id : ℕ
  name : String
  content : String
  mapped : String
  stamp : FileFingerprint
  proof : Option ℤ
  deriving DecidableEq, Repr

/-- A row of `cc_header_scans`. -/
structure HeaderScanRow where
  content : String
  scan : String
  version : ℤ
  deriving DecidableEq, Repr

/-- The memo's tables.  A reference is a memo's id and an input's. -/
structure Index where
  memos : List MemoRow
  inputs : List InputRow
  refs : List (ℕ × ℕ)
  headerScans : List HeaderScanRow
  deriving DecidableEq, Repr

/-- The index as `ensure_schema` creates it. -/
def Index.empty : Index := ⟨[], [], [], []⟩

/-! ## Recording -/

/-- The unique index of `cc_memo_inputs`. -/
def InputRow.shared (input : CcPreprocessMemoInput) (row : InputRow) : Bool :=
  row.name = input.name ∧ row.content = input.content ∧ row.mapped = input.mapped

/-- A new row for an input. -/
def InputRow.new (rows : List InputRow) (input : CcPreprocessMemoInput) (stamp : FileFingerprint)
    (proof : Option ℤ) : InputRow :=
  ⟨nextId (rows.map (·.id)), input.name, input.content, input.mapped, stamp, proof⟩

/-- The statement `put` or `put_unproven`. -/
def putInput (blake3 : Bytes → Bytes) (rows : List InputRow) (input : CcPreprocessMemoInput) :
    List InputRow × InputRow :=
  let stamp := input.fingerprint
  if input.stampSettled then
    upsert (InputRow.shared input)
      (fun row => { row with stamp := stamp, proof := some (stampProof blake3 stamp) })
      (.new rows input stamp (some (stampProof blake3 stamp))) rows
  else
    upsert (InputRow.shared input) (fun row => { row with name := input.name })
      (.new rows input (unproven stamp.path) none) rows

/-- The statement of a release from before the proof. -/
def putInputAsOlderRelease (rows : List InputRow) (input : CcPreprocessMemoInput) :
    List InputRow × InputRow :=
  upsert (InputRow.shared input) (fun row => { row with stamp := input.fingerprint })
    (.new rows input input.fingerprint none) rows

/-- `INSERT OR IGNORE INTO cc_memo_input_refs`. -/
def insertRef (refs : List (ℕ × ℕ)) (ref : ℕ × ℕ) : List (ℕ × ℕ) :=
  if ref ∈ refs then refs else refs ++ [ref]

/-- The transaction that records a memo, with `record` for one input; `now` is
`unixepoch()`. -/
def recordMemo (record : List InputRow → CcPreprocessMemoInput → List InputRow × InputRow)
    (now : ℤ) (memoKey preprocessedHash : String) (inputs : List CcPreprocessMemoInput)
    (index : Index) : Index :=
  let (memos, memo) := upsert (fun row => row.memoKey = memoKey)
    (fun row => { row with preprocessedHash := preprocessedHash, lastUsed := now })
    ⟨nextId (index.memos.map (·.id)), memoKey, preprocessedHash, 0, now⟩ index.memos
  let refs := index.refs.filter (·.1 ≠ memo.id)
  let (rows, refs) := inputs.foldl (fun (rows, refs) input =>
    let (rows, row) := record rows input
    (rows, insertRef refs (memo.id, row.id))) (index.inputs, refs)
  let count := (refs.filter (·.1 = memo.id)).length
  { index with
    memos := memos.map fun row => if row.id = memo.id then { row with inputCount := count } else row
    inputs := rows
    refs := refs }

/-- `put_cc_preprocess_memo_inputs`. -/
def putCcPreprocessMemoInputs (blake3 : Bytes → Bytes) :=
  recordMemo (putInput blake3)

/-- How an older release records a memo. -/
def recordAsOlderRelease := recordMemo putInputAsOlderRelease

/-- `put_cc_header_scans`. -/
def putCcHeaderScans (version : ℤ) (pairs : List (String × String)) (index : Index) : Index :=
  { index with
    headerScans := pairs.foldl (fun rows pair =>
      (upsert (fun row => row.content = pair.1)
        (fun row => if row.version ≠ version then { row with scan := pair.2, version := version }
          else row)
        ⟨pair.1, pair.2, version⟩ rows).1) index.headerScans }

/-! ## Looking up -/

/-- `CcPreprocessMemo`. -/
structure CcPreprocessMemo where
  preprocessedHash : String
  inputs : List CcPreprocessMemoInput
  headerScans : List (Option (ℤ × String))
  needsTouch : Bool
  deriving DecidableEq, Repr

/-- An input as a lookup reads it back: with its stamp if the row's proof is of it. -/
def InputRow.readBack (blake3 : Bytes → Bytes) (row : InputRow) : CcPreprocessMemoInput where
  name := row.name
  fingerprint :=
    if row.proof = some (stampProof blake3 row.stamp) then row.stamp else unproven row.stamp.path
  content := row.content
  mapped := row.mapped
  observedNs := 0

/-- `get_cc_preprocess_memo`.  A reference to no row, no reference at all and a count that
is not the recorded one all give no memo. -/
def getCcPreprocessMemo (blake3 : Bytes → Bytes) (now : ℤ) (index : Index) (memoKey : String) :
    Option CcPreprocessMemo := do
  let memo ← index.memos.find? (·.memoKey = memoKey)
  let ids := sortByKey id ((index.refs.filter (·.1 = memo.id)).map (·.2))
  let rows ← ids.mapM fun inputId => index.inputs.find? (·.id = inputId)
  if 0 < memo.inputCount ∧ rows.length = memo.inputCount then
    some {
      preprocessedHash := memo.preprocessedHash
      inputs := rows.map (·.readBack blake3)
      headerScans := rows.map fun row =>
        (index.headerScans.find? (·.content = row.content)).map fun s => (s.version, s.scan)
      needsTouch := memo.lastUsed ≤ now - 86400 }
  else none

/-! ## Keeping -/

/-- `touch_cc_preprocess_memo`. -/
def touchCcPreprocessMemo (now : ℤ) (memoKey : String) (index : Index) : Index :=
  { index with
    memos := index.memos.map fun row =>
      if row.memoKey = memoKey ∧ row.lastUsed ≤ now - 86400 then { row with lastUsed := now }
      else row }

/-- The statements of `prune_cc_preprocess_memos`, where `unixepoch()` is `refsNow` for the first
one and `memosNow` for the second. -/
def pruneStatements (refsNow memosNow : ℤ) (index : Index) : Index × ℕ × ℕ :=
  let old := (index.memos.filter fun row => row.lastUsed < refsNow - 2592000).map (·.id)
  let refs := index.refs.filter (·.1 ∉ old)
  let memos := index.memos.filter fun row => !decide (row.lastUsed < memosNow - 2592000)
  let inputs := index.inputs.filter fun row => row.id ∈ refs.map (·.2)
  let headerScans := index.headerScans.filter fun row => row.content ∈ inputs.map (·.content)
  (⟨memos, inputs, refs, headerScans⟩,
    index.memos.length - memos.length, index.inputs.length - inputs.length)

/-- `prune_cc_preprocess_memos`: memos not used for thirty days, and the inputs and header
scans nothing refers to any more.  Returns how many memos and inputs went. -/
def pruneCcPreprocessMemos (now : ℤ) (index : Index) : Index × ℕ × ℕ :=
  pruneStatements now now index

/-! ## Rules for the rows -/

variable {input : CcPreprocessMemoInput}

section Rows

variable {P : InputRow → Prop} {rows : List InputRow}

/-- A row that is shared has the input's name and bytes, whatever is its stamp. -/
theorem InputRow.restamp_of_shared {row : InputRow} (shared : InputRow.shared input row = true)
    (stamp : FileFingerprint) (proof : Option ℤ) :
    { row with stamp := stamp, proof := proof } =
      (⟨row.id, input.name, input.content, input.mapped, stamp, proof⟩ : InputRow) := by
  obtain ⟨name, content, mapped⟩ := of_decide_eq_true shared
  rw [name, content, mapped]

/-- **A put** proves settled stamps and nothing else. -/
theorem forall_putInput {blake3 : Bytes → Bytes} (old : ∀ row ∈ rows, P row)
    (settled : input.stampSettled = true → ∀ id, P ⟨id, input.name, input.content, input.mapped,
      input.fingerprint, some (stampProof blake3 input.fingerprint)⟩)
    (plain : ∀ row, row.proof = none → P row) :
    ∀ row ∈ (putInput blake3 rows input).1, P row := by
  unfold putInput
  by_cases ready : input.stampSettled = true
  · rw [if_pos ready]
    refine forall_upsert old (fun row _ shared => ?_) (settled ready _)
    rw [InputRow.restamp_of_shared shared]
    exact settled ready row.id
  · rw [if_neg ready]
    refine forall_upsert old (fun row mem shared => ?_) (plain _ rfl)
    obtain ⟨name, -⟩ := of_decide_eq_true shared
    rw [← name]
    exact old row mem

/-- **An older release** rewrites stamps under proofs it leaves alone. -/
theorem forall_putInputAsOlderRelease (old : ∀ row ∈ rows, P row)
    (restamped : ∀ row ∈ rows, P { row with stamp := input.fingerprint })
    (plain : ∀ row, row.proof = none → P row) :
    ∀ row ∈ (putInputAsOlderRelease rows input).1, P row :=
  forall_upsert old (fun row mem _ => restamped row mem) (plain _ rfl)

/-- A property of every row survives a transaction if recording one input keeps it. -/
theorem forall_recordMemo
    {record : List InputRow → CcPreprocessMemoInput → List InputRow × InputRow} {now : ℤ}
    {memoKey preprocessedHash : String} {inputs : List CcPreprocessMemoInput} {index : Index}
    (old : ∀ row ∈ index.inputs, P row)
    (each : ∀ input ∈ inputs, ∀ rows, (∀ row ∈ rows, P row) → ∀ row ∈ (record rows input).1,
      P row) :
    ∀ row ∈ (recordMemo record now memoKey preprocessedHash inputs index).inputs, P row := by
  refine Loop.invariant (I := fun s : List InputRow × List (ℕ × ℕ) => ∀ row ∈ s.1, P row)
    (Loop.foldl (R := fun input s t => t.1 = (record s.1 input).1) (fun _ _ _ => rfl) _) old ?_
  intro input mem s t before body
  rw [body]
  exact each input mem s.1 before

/-- A lookup reads its inputs back from rows of the index. -/
theorem exists_row_of_mem_inputs {blake3 : Bytes → Bytes} {now : ℤ} {index : Index}
    {memoKey : String}
    {memo : CcPreprocessMemo} (found : getCcPreprocessMemo blake3 now index memoKey = some memo)
    (mem : input ∈ memo.inputs) :
    ∃ row ∈ index.inputs, input = row.readBack blake3 := by
  unfold getCcPreprocessMemo at found
  obtain ⟨memoRow, -, found⟩ := Option.bind_eq_some_iff.mp found
  obtain ⟨rows, joined, found⟩ := Option.bind_eq_some_iff.mp found
  split at found
  · cases found
    obtain ⟨row, inside, rfl⟩ := List.mem_map.mp mem
    obtain ⟨inputId, -, here⟩ := (mem_mapM joined).mp inside
    exact ⟨row, List.mem_of_find?_eq_some here, rfl⟩
  · cases found

end Rows

end Kache.Memo
