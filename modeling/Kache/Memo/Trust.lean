import Kache.Foundation.Iteration
import Kache.Foundation.Run
import Kache.Foundation.Settled
import Kache.Memo.Preprocess
import Mathlib.Data.Set.Function

/-!
# A trusted memo stamp does not lie

Files are written and removed, any number of processes look at them and record what they
saw, releases from before the proof record beside them, and the index is pruned.  This
module follows one thing through all of it: what a stamp with a matching proof says about
the bytes of its file (`trusted_stamp_never_lies`).

The argument has two halves.

* **Time.**  A process reads the clock, then takes the stat, then reads the bytes.  If the
  stamp lay two seconds before the clock reading, every write after the stat is stamped
  later (`Later.write`), so a file that still has the stamp still has the bytes.  This is
  `Vouched`, an instance of `Stands`.
* **Rows.**  A proof is only ever written together with its stamp, for the bytes that
  stamp vouches for, and a row never changes its bytes.  So a proof is always the proof of
  *some* vouched stamp (`Proved`); that it is the row's own one is what the lookup checks.

Collision-freeness of `stamp_proof` cannot mean injectivity — a proof has 64 bits — and is
assumed for the stamps that are recorded in the run.
-/

namespace Kache.Memo

/-! ## The system -/

/-- A file being read: what was observed of it, and its bytes so far. -/
structure Reading where
  observed : ObservedFingerprint
  bytes : Bytes
  deriving DecidableEq, Repr

/-- The machine: its clock in nanoseconds since the Unix epoch, its files and the index; and
what any of its processes has seen so far. -/
structure World where
  now : ℕ
  files : Table String File
  clocks : List ℤ
  readings : List Reading
  inputs : List CcPreprocessMemoInput
  index : Index

/-- The memo is created, or purged by `ensure_rule`; there are files. -/
def World.start (now : ℕ) (files : Table String File) : World :=
  ⟨now, files, [], [], [], Index.empty⟩

/-- `unixepoch()`. -/
def World.unixepoch (w : World) : ℤ := w.now / 1000000000

/-- The coarsest file system keeps its times in steps of two seconds. -/
def maxGrainNs : ℕ := 2000000000

/-- The file at a stamp's path, if it has the stamp. -/
def World.stamped (w : World) (stamp : FileFingerprint) : Option File :=
  (w.files.get stamp.path).filter fun file => FileFingerprint.fromMetadata stamp.path file = stamp

/-- Whether a read can return `chunk`.  A process may have opened a file that was replaced
since: its bytes can be any. -/
def World.canRead (w : World) (reading : Reading) (chunk : Bytes) : Bool :=
  (w.stamped reading.observed.fingerprint).all fun file =>
    chunk <+: file.bytes.drop reading.bytes.length

/-- Whether a read can come to the end of the file. -/
def World.canEnd (w : World) (reading : Reading) : Bool :=
  (w.stamped reading.observed.fingerprint).all fun file =>
    file.bytes.length ≤ reading.bytes.length

/-- What can happen. -/
inductive Action where
  | tick (ns : ℕ)
  | write (path : String) (bytes : Bytes) (mtime : ℤ) (inode grain : ℕ)
  | remove (path : String)
  | readClock
  | stat (observedNs : ℤ) (path : String)
  | read (reading : Reading) (chunk : Bytes)
  | hash (reading : Reading) (name mapped : String)
  | put (memoKey preprocessedHash : String) (inputs : List CcPreprocessMemoInput)
  | recordAsOlderRelease (memoKey preprocessedHash : String)
      (inputs : List CcPreprocessMemoInput)
  | putHeaderScans (version : ℤ) (pairs : List (String × String))
  | touch (memoKey : String)
  | prune

/-- One step of the machine. -/
def step (blake3 : Bytes → Bytes) (w : World) : Action → Option World
  | .tick ns => some { w with now := w.now + ns }
  | .write path bytes mtime inode grain =>
    -- The mtime may be set to anything; the ctime is the time of the write, rounded down.
    if 0 < grain ∧ grain ≤ maxGrainNs then
      some { w with files := w.files.set path ⟨bytes, mtime, w.now / grain * grain, inode⟩ }
    else none
  | .remove path => some { w with files := w.files.erase path }
  | .readClock => some { w with clocks := wallClockNs w.now :: w.clocks }
  | .stat observedNs path =>
    if observedNs ∈ w.clocks then
      (w.files.get path).map fun file =>
        { w with readings := ⟨⟨.fromMetadata path file, observedNs⟩, []⟩ :: w.readings }
    else none
  | .read reading chunk =>
    if reading ∈ w.readings ∧ w.canRead reading chunk then
      some { w with readings := { reading with bytes := reading.bytes ++ chunk } :: w.readings }
    else none
  | .hash reading name mapped =>
    if reading ∈ w.readings ∧ w.canEnd reading then
      some { w with
        inputs := ⟨name, reading.observed.fingerprint, hashFile blake3 reading.bytes, mapped,
          reading.observed.observedNs⟩ :: w.inputs }
    else none
  | .put memoKey preprocessedHash inputs =>
    if ∀ input ∈ inputs, input ∈ w.inputs then
      some { w with
        index := putCcPreprocessMemoInputs blake3 w.unixepoch memoKey preprocessedHash inputs
          w.index }
    else none
  | .recordAsOlderRelease memoKey preprocessedHash inputs =>
    some { w with
      index := Memo.recordAsOlderRelease w.unixepoch memoKey preprocessedHash inputs w.index }
  | .putHeaderScans version pairs => some { w with index := putCcHeaderScans version pairs w.index }
  | .touch memoKey =>
    some { w with index := touchCcPreprocessMemo w.unixepoch memoKey w.index }
  | .prune => some { w with index := (pruneCcPreprocessMemos w.unixepoch w.index).1 }

/-- The stamps a run records are among `stamps`. -/
def Recorded (stamps : Set FileFingerprint) (_ : World) : Action → Prop
  | .put _ _ inputs => ∀ input ∈ inputs, input.fingerprint ∈ stamps
  | .recordAsOlderRelease _ _ inputs => ∀ input ∈ inputs, input.fingerprint ∈ stamps
  | _ => True

instance (stamps : Set FileFingerprint) [DecidablePred (· ∈ stamps)] (w : World) (a : Action) :
    Decidable (Recorded stamps w a) := by
  cases a <;> unfold Recorded <;> infer_instance

/-! ## Time -/

/-- `metadata_ctime_ns` in the range of an `i64`. -/
theorem metadataCtimeNs_eq (file : File) : metadataCtimeNs file = min (file.ctime : ℤ) i64Max := by
  unfold metadataCtimeNs metadataPartsNs saturate i64Min i64Max
  omega

theorem le_of_stampIsSettled {stamp : FileFingerprint} {observedNs : ℤ}
    (settled : stampIsSettled stamp observedNs = true) :
    stamp.ctimeNs + hashSettleNs ≤ observedNs := by
  have := of_decide_eq_true settled
  unfold hashSettleNs saturate i64Min i64Max at *
  omega

/-- The clock as a process reads it is ahead of the stamp of a write by less than the time
a stamp needs to settle. -/
theorem wallClockNs_lt_ctime (now : ℕ) {grain : ℕ} (pos : 0 < grain) (le : grain ≤ maxGrainNs)
    (bytes : Bytes) (mtime : ℤ) (inode : ℕ) :
    wallClockNs now <
      metadataCtimeNs ⟨bytes, mtime, now / grain * grain, inode⟩ + hashSettleNs := by
  rw [metadataCtimeNs_eq]
  have rounded : now < now / grain * grain + grain := Nat.lt_div_mul_add pos
  unfold wallClockNs hashSettleNs maxGrainNs i64Max at *
  simp only
  omega

/-- While the file has the stamp, its bytes have `P`. -/
def Vouched (w : World) (stamp : FileFingerprint) (P : Bytes → Prop) : Prop :=
  Stands hashSettleNs (wallClockNs w.now) metadataCtimeNs (w.files.get stamp.path) stamp.ctimeNs
    fun file => FileFingerprint.fromMetadata stamp.path file = stamp → P file.bytes

section Vouched

variable {w : World} {stamp : FileFingerprint} {P Q : Bytes → Prop} {observedNs : ℤ}

theorem stamped_eq_some {file : File} : w.stamped stamp = some file ↔
    w.files.get stamp.path = some file ∧ FileFingerprint.fromMetadata stamp.path file = stamp := by
  rw [World.stamped, Option.filter_eq_some_iff, decide_eq_true_eq]

theorem Vouched.holds (h : Vouched w stamp P) {file : File}
    (there : w.files.get stamp.path = some file)
    (same : FileFingerprint.fromMetadata stamp.path file = stamp) : P file.bytes :=
  Stands.holds h file there (congrArg FileFingerprint.ctimeNs same) same

/-- A stamp that had settled when it was taken vouches for what all bytes have. -/
theorem Vouched.of_settled (settled : stampIsSettled stamp observedNs = true)
    (past : observedNs ≤ wallClockNs w.now) (all : ∀ bytes, P bytes) : Vouched w stamp P :=
  ⟨le_trans (le_of_stampIsSettled settled) past, fun file _ _ _ => all file.bytes⟩

theorem Vouched.mono (h : Vouched w stamp P)
    (weaker : ∀ file, w.stamped stamp = some file → P file.bytes → Q file.bytes) :
    Vouched w stamp Q :=
  Stands.mono h fun file there _ had same =>
    weaker file (stamped_eq_some.mpr ⟨there, same⟩) (had same)

end Vouched

/-- The world moves on, and stamps go on vouching for what they vouched for. -/
structure Later (w w' : World) : Prop where
  clock : wallClockNs w.now ≤ wallClockNs w'.now
  vouched : ∀ {stamp : FileFingerprint} {P : Bytes → Prop}, Vouched w stamp P → Vouched w' stamp P

namespace Later

theorem tick (w : World) (ns : ℕ) : Later w { w with now := w.now + ns } := by
  have clock : wallClockNs w.now ≤ wallClockNs (w.now + ns) := by
    unfold wallClockNs
    omega
  exact ⟨clock, fun h => Stands.later h clock⟩

/-- **A write** stamps the file anew, and no settled stamp comes back. -/
theorem write (w : World) (path : String) (bytes : Bytes) (mtime : ℤ) {inode grain : ℕ}
    (pos : 0 < grain) (le : grain ≤ maxGrainNs) :
    Later w { w with files := w.files.set path ⟨bytes, mtime, w.now / grain * grain, inode⟩ } where
  clock := le_refl _
  vouched {stamp P} h := by
    unfold Vouched
    rw [Table.get_set]
    split
    · exact Stands.rewrite h (wallClockNs_lt_ctime _ pos le bytes mtime inode)
    · exact h

theorem remove (w : World) (path : String) : Later w { w with files := w.files.erase path } where
  clock := le_refl _
  vouched {stamp P} h := by
    unfold Vouched
    rw [Table.get_erase]
    split
    · exact Stands.removed h
    · exact h

end Later

/-! ## Rows -/

section Trust

variable {blake3 : Bytes → Bytes} {stamps : Set FileFingerprint} {w w' : World}

/-- A row's proof is the proof of a stamp that vouches for the row's bytes. -/
def Proved (blake3 : Bytes → Bytes) (stamps : Set FileFingerprint) (w : World)
    (row : InputRow) : Prop :=
  ∀ p, row.proof = some p → row.stamp ∈ stamps ∧
    ∃ stamp ∈ stamps, p = stampProof blake3 stamp ∧
      Vouched w stamp fun bytes => hashFile blake3 bytes = row.content

theorem Proved.of_none {row : InputRow} (plain : row.proof = none) :
    Proved blake3 stamps w row := by
  intro p proof
  rw [plain] at proof
  cases proof

/-- A stamp that matches the proof is the one that vouches. -/
theorem Proved.vouched {row : InputRow} (h : Proved blake3 stamps w row)
    (collisionFree : stamps.InjOn (stampProof blake3))
    (proven : row.proof = some (stampProof blake3 row.stamp)) :
    Vouched w row.stamp fun bytes => hashFile blake3 bytes = row.content := by
  obtain ⟨recorded, stamp, mem, same, vouched⟩ := h _ proven
  rwa [← collisionFree recorded mem same] at vouched

/-- What holds of the clock readings, the reads under way, the inputs built and the rows. -/
structure Inv (blake3 : Bytes → Bytes) (stamps : Set FileFingerprint) (w : World) : Prop where
  clocks : ∀ observedNs ∈ w.clocks, observedNs ≤ wallClockNs w.now
  readings : ∀ reading ∈ w.readings,
    stampIsSettled reading.observed.fingerprint reading.observed.observedNs = true →
      Vouched w reading.observed.fingerprint (reading.bytes <+: ·)
  inputs : ∀ input ∈ w.inputs, input.stampSettled = true →
    Vouched w input.fingerprint fun bytes => hashFile blake3 bytes = input.content
  rows : ∀ row ∈ w.index.inputs, Proved blake3 stamps w row

theorem Inv.start (now : ℕ) (files : Table String File) :
    Inv blake3 stamps (World.start now files) where
  clocks _ mem := nomatch mem
  readings _ mem := nomatch mem
  inputs _ mem := nomatch mem
  rows _ mem := nomatch mem

namespace Inv

/-- Files and clock move on. -/
theorem later {now : ℕ} {files : Table String File} (h : Inv blake3 stamps w)
    (later : Later w { w with now := now, files := files }) :
    Inv blake3 stamps { w with now := now, files := files } where
  clocks observedNs mem := le_trans (h.clocks observedNs mem) later.clock
  readings reading mem settled := later.vouched (h.readings reading mem settled)
  inputs input mem settled := later.vouched (h.inputs input mem settled)
  rows row mem p proof := by
    obtain ⟨recorded, stamp, inside, same, vouched⟩ := h.rows row mem p proof
    exact ⟨recorded, stamp, inside, same, later.vouched vouched⟩

theorem withReading {reading : Reading} (h : Inv blake3 stamps w)
    (vouched : stampIsSettled reading.observed.fingerprint reading.observed.observedNs = true →
      Vouched w reading.observed.fingerprint (reading.bytes <+: ·)) :
    Inv blake3 stamps { w with readings := reading :: w.readings } where
  clocks := h.clocks
  readings := List.forall_mem_cons.mpr ⟨vouched, h.readings⟩
  inputs := h.inputs
  rows := h.rows

theorem withInput {input : CcPreprocessMemoInput} (h : Inv blake3 stamps w)
    (vouched : input.stampSettled = true →
      Vouched w input.fingerprint fun bytes => hashFile blake3 bytes = input.content) :
    Inv blake3 stamps { w with inputs := input :: w.inputs } where
  clocks := h.clocks
  readings := h.readings
  inputs := List.forall_mem_cons.mpr ⟨vouched, h.inputs⟩
  rows := h.rows

theorem withIndex {index : Index} (h : Inv blake3 stamps w)
    (rows : ∀ row ∈ index.inputs, Proved blake3 stamps w row) :
    Inv blake3 stamps { w with index := index } where
  clocks := h.clocks
  readings := h.readings
  inputs := h.inputs
  rows := rows

/-- The rows after a put: a settled stamp vouches for the bytes it is recorded with. -/
theorem rows_put {inputs : List CcPreprocessMemoInput} (h : Inv blake3 stamps w)
    (built : ∀ input ∈ inputs, input ∈ w.inputs)
    (recorded : ∀ input ∈ inputs, input.fingerprint ∈ stamps) (now : ℤ)
    (memoKey preprocessedHash : String) :
    ∀ row ∈ (putCcPreprocessMemoInputs blake3 now memoKey preprocessedHash inputs w.index).inputs,
      Proved blake3 stamps w row := by
  refine forall_recordMemo h.rows fun input mem rows old => ?_
  refine forall_putInput old (fun settled id p proof => ?_) fun _ => Proved.of_none
  cases proof
  exact ⟨recorded input mem, input.fingerprint, recorded input mem, rfl,
    h.inputs input (built input mem) settled⟩

/-- The rows after an older release's: whatever their stamps, the proofs are the old ones. -/
theorem rows_older {inputs : List CcPreprocessMemoInput} (h : Inv blake3 stamps w)
    (recorded : ∀ input ∈ inputs, input.fingerprint ∈ stamps) (now : ℤ)
    (memoKey preprocessedHash : String) :
    ∀ row ∈ (recordAsOlderRelease now memoKey preprocessedHash inputs w.index).inputs,
      Proved blake3 stamps w row := by
  refine forall_recordMemo h.rows fun input mem rows old => ?_
  refine forall_putInputAsOlderRelease old (fun row inside p proof => ?_) fun _ => Proved.of_none
  exact ⟨recorded input mem, (old row inside p proof).2⟩

/-- A read appends what the file has there, if it still is the file. -/
theorem vouched_read {reading : Reading} {chunk : Bytes}
    (vouched : Vouched w reading.observed.fingerprint (reading.bytes <+: ·))
    (next : w.canRead reading chunk = true) :
    Vouched w reading.observed.fingerprint (reading.bytes ++ chunk <+: ·) := by
  refine vouched.mono fun file there sofar => ?_
  rw [World.canRead, there, Option.all_some, decide_eq_true_eq] at next
  obtain ⟨rest, whole⟩ := sofar
  rw [← whole, List.drop_left] at next
  rw [← whole]
  exact (List.prefix_append_right_inj _).mpr next

/-- At the end of the file the bytes read are the file's. -/
theorem vouched_hash {reading : Reading}
    (vouched : Vouched w reading.observed.fingerprint (reading.bytes <+: ·))
    (atEnd : w.canEnd reading = true) :
    Vouched w reading.observed.fingerprint fun bytes =>
      hashFile blake3 bytes = hashFile blake3 reading.bytes := by
  refine vouched.mono fun file there sofar => ?_
  rw [World.canEnd, there, Option.all_some, decide_eq_true_eq] at atEnd
  rw [sofar.eq_of_length_le atEnd]

/-- **One step.** -/
theorem step {a : Action} (h : Inv blake3 stamps w) (recorded : Recorded stamps w a)
    (taken : Memo.step blake3 w a = some w') : Inv blake3 stamps w' := by
  cases a with
  | tick ns =>
    cases taken
    exact h.later (.tick w ns)
  | write path bytes mtime inode grain =>
    obtain ⟨fits, ⟨⟩⟩ := Option.ite_none_right_eq_some.mp taken
    exact h.later (.write w path bytes mtime fits.1 fits.2)
  | remove path =>
    cases taken
    exact h.later (.remove w path)
  | readClock =>
    cases taken
    exact { h with clocks := List.forall_mem_cons.mpr ⟨le_refl _, h.clocks⟩ }
  | stat observedNs path =>
    obtain ⟨read, taken⟩ := Option.ite_none_right_eq_some.mp taken
    obtain ⟨file, -, rfl⟩ := Option.map_eq_some_iff.mp taken
    exact h.withReading fun settled =>
      .of_settled settled (h.clocks observedNs read) fun _ => List.nil_prefix
  | read reading chunk =>
    obtain ⟨can, ⟨⟩⟩ := Option.ite_none_right_eq_some.mp taken
    exact h.withReading fun settled => vouched_read (h.readings reading can.1 settled) can.2
  | hash reading name mapped =>
    obtain ⟨can, ⟨⟩⟩ := Option.ite_none_right_eq_some.mp taken
    exact h.withInput fun settled => vouched_hash (h.readings reading can.1 settled) can.2
  | put memoKey preprocessedHash inputs =>
    obtain ⟨built, ⟨⟩⟩ := Option.ite_none_right_eq_some.mp taken
    exact h.withIndex (h.rows_put built recorded _ memoKey preprocessedHash)
  | recordAsOlderRelease memoKey preprocessedHash inputs =>
    cases taken
    exact h.withIndex (h.rows_older recorded _ memoKey preprocessedHash)
  | putHeaderScans version pairs =>
    cases taken
    exact h.withIndex h.rows
  | touch memoKey =>
    cases taken
    exact h.withIndex h.rows
  | prune =>
    cases taken
    exact h.withIndex fun row mem => h.rows row (List.mem_filter.mp mem).1

end Inv

/-- No file has the stamp that stands for none. -/
theorem fromMetadata_ne_unproven (path : String) (file : File) :
    FileFingerprint.fromMetadata path file ≠ unproven path := by
  intro same
  have size : min (file.bytes.length : ℤ) i64Max = -1 := congrArg FileFingerprint.size same
  unfold i64Max at size
  omega

/-- **A trusted stamp never lies.**  In every run in which `stamp_proof` is free of collisions
on the stamps recorded: if a lookup returns an input whose fingerprint is what the file's
stat is now, the file's bytes hash to the input's content. -/
theorem trusted_stamp_never_lies (blake3 : Bytes → Bytes) (stamps : Set FileFingerprint)
    (collisionFree : stamps.InjOn (stampProof blake3)) {now : ℕ} {files : Table String File}
    {w : World} (run : Reaches (Recorded stamps) (step blake3) (World.start now files) w)
    {memoKey : String} {memo : CcPreprocessMemo}
    (found : getCcPreprocessMemo blake3 w.unixepoch w.index memoKey = some memo)
    {input : CcPreprocessMemoInput} (mem : input ∈ memo.inputs) {file : File}
    (there : w.files.get input.fingerprint.path = some file)
    (same : FileFingerprint.fromMetadata input.fingerprint.path file = input.fingerprint) :
    hashFile blake3 file.bytes = input.content := by
  have inv : Inv blake3 stamps w := run.invariant (.start now files)
    fun _ _ _ h recorded taken => h.step recorded taken
  obtain ⟨row, inside, rfl⟩ := exists_row_of_mem_inputs found mem
  by_cases proven : row.proof = some (stampProof blake3 row.stamp)
  · have stamp : (row.readBack blake3).fingerprint = row.stamp := if_pos proven
    rw [stamp] at there same
    exact ((inv.rows row inside).vouched collisionFree proven).holds there same
  · have stamp : (row.readBack blake3).fingerprint = unproven row.stamp.path := if_neg proven
    rw [stamp] at same
    exact absurd same (fromMetadata_ne_unproven _ file)

/-- A header is recorded, an older release restamps its row, it is recorded again and the
index is pruned: the lookup trusts the stamp, and the bytes are the file's. -/
theorem trusted_stamp_never_lies_restamped :
    let blake3 : Bytes → Bytes := fun bytes => bytes.drop (bytes.length - 8)
    let header : FileFingerprint := ⟨"/h", 2, 0, 0, 1⟩
    let older : FileFingerprint := ⟨"/h", 2, 0, 0, 2⟩
    let input : CcPreprocessMemoInput := ⟨"h", header, "6162", "", 0⟩
    let file : File := ⟨[97, 98], 0, 0, 1⟩
    ∃ w, Reaches (Recorded {stamp | stamp ∈ [header, older]}) (step blake3)
        (World.start 1000000000 Table.empty) w ∧
      getCcPreprocessMemo blake3 w.unixepoch w.index "memo" =
        some ⟨"p", [input], [none], false⟩ ∧
      w.files.get "/h" = some file ∧ FileFingerprint.fromMetadata "/h" file = header ∧
      hashFile blake3 file.bytes = "6162" := by
  intro blake3 header older input file
  have collisionFree : Set.InjOn (stampProof blake3) {stamp | stamp ∈ [header, older]} := by
    have differ : stampProof blake3 header ≠ stampProof blake3 older := by decide +kernel
    simp only [Set.InjOn, Set.mem_ofPred_eq, List.mem_cons, List.not_mem_nil, or_false]
    rintro _ (rfl | rfl) _ (rfl | rfl) same
    · rfl
    · exact absurd same differ
    · exact absurd same.symm differ
    · rfl
  let built : CcPreprocessMemoInput := ⟨"h", header, "6162", "", 10000000000⟩
  obtain ⟨w, run, test⟩ := exists_reaches_of_replay (Recorded {stamp | stamp ∈ [header, older]})
    (step blake3) (World.start 1000000000 Table.empty)
    [.write "/h" [97, 98] 0 1 2000000000, .tick 9000000000, .readClock, .stat 10000000000 "/h",
      .read ⟨⟨header, 10000000000⟩, []⟩ [97, 98],
      .hash ⟨⟨header, 10000000000⟩, [97, 98]⟩ "h" "", .put "memo" "p" [built],
      .recordAsOlderRelease "older" "p" [{ input with fingerprint := older }],
      .put "memo" "p" [built], .prune]
    (fun w => getCcPreprocessMemo blake3 w.unixepoch w.index "memo" =
      some ⟨"p", [input], [none], false⟩ ∧ w.files.get "/h" = some file) (by decide +kernel)
  obtain ⟨found, there⟩ := of_decide_eq_true test
  have same : FileFingerprint.fromMetadata "/h" file = header := by decide +kernel
  exact ⟨w, run, found, there, same, trusted_stamp_never_lies blake3 _ collisionFree run found
    List.mem_cons_self there same⟩

end Trust

end Kache.Memo
