import Kache.Foundation.Ascii
import Kache.Foundation.Lines
import Kache.Foundation.Text
import Kache.Foundation.UnixPath

/-!
# Rotation of the event log

A log that is over its size is replaced by a suffix of its lines: the last ones that fit, and beyond
these the lines of the build in progress, as far as half the size allows (`retainedSuffix`).  What a
writer that died left at the end is no line.  A rotation reads the log as a string (`rotateLog`), so
it takes place exactly if the whole log is UTF-8.
-/

namespace Kache.Events

open Lines Text
open Ascii (newline)

abbrev Bytes := List UInt8

/-! ## Appends -/

/-- What `append_log_line` writes: an end for an abandoned fragment, the line and its end. -/
def appended (content line : Bytes) : Bytes :=
  (if content.getLast?.all (· = newline) then [] else [newline]) ++ (line ++ [newline])

/-- What appends leave; a writer may die after any byte. -/
inductive Left : Bytes → Prop
  | empty : Left []
  | append {content line : Bytes} (left : Left content) (text : (fromUtf8 line).isSome)
      (single : newline ∉ line)
      (written : ℕ) : Left (content ++ (appended content line).take written)

/-! ## Rotation

`serde_json` is not part of the repository: the session that a line names and the text of a
`session_id` field are parameters.
-/

variable {S : Type} (lineSession : Bytes → Option S) (sessionNeedle : S → Bytes)

/-- `RetainedSuffix`. -/
structure RetainedSuffix (S : Type) where
  start : ℕ
  cutSession : Option S

/-- `content[..complete_len].split_inclusive('\n')`. -/
def completeLines (content : Bytes) : List Bytes :=
  splitInclusive newline (content.rdropWhile (· ≠ newline))

/-- `bytes_from`. -/
def bytesFrom (lines : List Bytes) (start : ℕ) : ℕ := (lines.drop start).flatten.length

/-- `(low..high).find(..)`. -/
def findFrom (low high : ℕ) (p : ℕ → Bool) : Option ℕ := (List.range' low (high - low)).find? p

/-- The last `keep_lines` lines, trimmed from the front to fit. -/
def usualStart (lines : List Bytes) (keepLines maxSize : ℕ) : ℕ :=
  (findFrom (lines.length - keepLines) (lines.length - 1) (bytesFrom lines · ≤ maxSize)).getD
    (max (lines.length - 1) (lines.length - keepLines))

/-- `retained_suffix`, with `retention_cap`. -/
def retainedSuffix (lines : List Bytes) (keepLines maxSize : ℕ) : RetainedSuffix S :=
  let start := usualStart lines keepLines maxSize
  match lines.getLast?.bind lineSession with
  | none => ⟨start, none⟩
  | some session =>
    match lines.findIdx? (sessionNeedle session <:+: ·) with
    | none => ⟨start, none⟩
    | some first =>
      let start := (findFrom first start (bytesFrom lines · ≤ maxSize / 2)).getD start
      ⟨start, if first < start then some session else none⟩

/-- What a rotation leaves: the log, the lines given to `fold`, and the session that the marker
names. -/
structure Rotated (S : Type) where
  log : Bytes
  folded : List Bytes
  cutSession : Option S

/-- `rotate_log_impl`, with file operations that succeed. -/
def rotateLog (content : Bytes) (maxSize keepLines : ℕ) : Except String (Option (Rotated S)) :=
  if content.length ≤ maxSize then .ok none
  else if (fromUtf8 content).isSome then
    let lines := completeLines content
    let retained := retainedSuffix lineSession sessionNeedle lines keepLines maxSize
    .ok (some ⟨(lines.drop retained.start).flatten,
      splitInclusive newline (lines.take retained.start).flatten, retained.cutSession⟩)
  else .error "stream did not contain valid UTF-8"

/-! ## What is kept -/

/-- A bounded suffix of whole lines is kept, the others are folded, and a session is whole or said
to be cut. -/
structure Kept (lines : List Bytes) (maxSize keepLines start : ℕ) (rotated : Rotated S) : Prop where
  log : rotated.log = (lines.drop start).flatten
  newest : lines ≠ [] → start < lines.length
  size : rotated.log.length ≤ maxSize ∨ (lines.drop start).length ≤ 1
  count : (lines.drop start).length ≤ keepLines ∨ rotated.log.length ≤ maxSize / 2
  folded : rotated.folded ++ lines.drop start = lines
  session : ∀ session, lines.getLast?.bind lineSession = some session →
    (∀ line ∈ lines.take start, lineSession line ≠ some session) ∨ rotated.cutSession = some session

theorem whole_of_mem_splitInclusive {text : Bytes} (ended : ∀ c ∈ text.getLast?, c = newline) :
    ∀ line ∈ splitInclusive newline text, Whole newline line := by
  induction text using lines_induction newline with
  | nil => exact fun line no => absurd no List.not_mem_nil
  | last line unended =>
    have there := List.getLast_mem unended.1
    rw [ended _ (List.getLast?_eq_some_getLast unended.1)] at there
    exact absurd there unended.2
  | whole line text whole ih =>
    rw [splitInclusive_whole whole]
    refine List.forall_mem_cons.mpr ⟨whole, ih fun c last => ended c ?_⟩
    exact List.mem_getLast?_append_of_mem_getLast? last

theorem splitInclusive_flatten {lines : List Bytes} (whole : ∀ line ∈ lines, Whole newline line) :
    splitInclusive newline lines.flatten = lines := by
  induction lines with
  | nil => rfl
  | cons line lines ih =>
    obtain ⟨first, others⟩ := List.forall_mem_cons.mp whole
    rw [List.flatten_cons, splitInclusive_whole first, ih others]

/-- Lines are cut off before the newlines that end them. -/
theorem whole_completeLines (content : Bytes) : ∀ line ∈ completeLines content,
    Whole newline line := by
  refine whole_of_mem_splitInclusive fun c last => ?_
  have nonempty : content.rdropWhile (· ≠ newline) ≠ [] := by
    rintro none
    rw [none] at last
    cases last
  have stops := List.rdropWhile_last_not (· ≠ newline) content nonempty
  rw [List.getLast?_eq_some_getLast nonempty, Option.mem_some_iff] at last
  rw [← last]
  simpa using stops

theorem findFrom_eq_some {low high n : ℕ} {p : ℕ → Bool} (found : findFrom low high p = some n) :
    low ≤ n ∧ n < high ∧ p n = true := by
  obtain ⟨above, below⟩ := List.mem_range'_1.mp (List.mem_of_find?_eq_some found)
  exact ⟨above, by omega, List.find?_some found⟩

/-- The usual rule keeps few lines that fit, the newest among them. -/
theorem usualStart_spec (lines : List Bytes) {keepLines : ℕ} (positive : 0 < keepLines)
    (maxSize : ℕ) : lines.length - keepLines ≤ usualStart lines keepLines maxSize ∧
      usualStart lines keepLines maxSize ≤ lines.length - 1 ∧
      (bytesFrom lines (usualStart lines keepLines maxSize) ≤ maxSize ∨
        usualStart lines keepLines maxSize = lines.length - 1) := by
  rw [usualStart]
  rcases found : findFrom _ _ _ with _ | n
  · have newest : max (lines.length - 1) (lines.length - keepLines) = lines.length - 1 := by omega
    rw [Option.getD_none, newest]
    exact ⟨by omega, le_rfl, .inr rfl⟩
  · obtain ⟨above, below, fits⟩ := findFrom_eq_some found
    exact ⟨above, below.le, .inl (of_decide_eq_true fits)⟩

/-- Where the suffix starts: by the usual rule, or earlier and within half the size. -/
theorem retainedSuffix_start (lines : List Bytes) (keepLines maxSize : ℕ) :
    let start := (retainedSuffix lineSession sessionNeedle lines keepLines maxSize).start
    start = usualStart lines keepLines maxSize ∨
      start < usualStart lines keepLines maxSize ∧ bytesFrom lines start ≤ maxSize / 2 := by
  rw [retainedSuffix]
  split
  · exact .inl rfl
  · split
    · exact .inl rfl
    next first _ =>
      rcases found : findFrom first (usualStart lines keepLines maxSize) _ with _ | n
      · exact .inl rfl
      · obtain ⟨-, below, fits⟩ := findFrom_eq_some found
        exact .inr ⟨below, of_decide_eq_true fits⟩

variable {lineSession sessionNeedle}

/-- No line of the newest session is dropped, or the session is named. -/
theorem retainedSuffix_session {lines : List Bytes} (keepLines maxSize : ℕ)
    (written : ∀ line ∈ lines, ∀ session, lineSession line = some session →
      sessionNeedle session <:+: line)
    {session : S} (newest : lines.getLast?.bind lineSession = some session) :
    let retained := retainedSuffix lineSession sessionNeedle lines keepLines maxSize
    (∀ line ∈ lines.take retained.start, lineSession line ≠ some session) ∨
    retained.cutSession = some session := by
  intro retained
  obtain ⟨line, last, names⟩ := Option.bind_eq_some_iff.mp newest
  rcases found : lines.findIdx? (sessionNeedle session <:+: ·) with _ | first
  · have none := List.findIdx?_eq_none_iff.mp found line (List.mem_of_getLast? last)
    exact absurd (written line (List.mem_of_getLast? last) session names) (of_decide_eq_false none)
  by_cases cut : first < retained.start
  · right
    simp only [retained, retainedSuffix, newest, found] at cut ⊢
    exact if_pos cut
  · left
    intro line mem names
    obtain ⟨n, inside, rfl⟩ := List.mem_take_iff_getElem.mp mem
    obtain ⟨_, -, before⟩ := List.findIdx?_eq_some_iff_getElem.mp found
    exact before n (by omega) (decide_eq_true (written _ (List.getElem_mem _) session names))

/-- **A rotation of an oversized log succeeds and keeps a bounded suffix of whole lines exactly if
the log is UTF-8.** -/
theorem rotateLog_keeps_iff {content : Bytes} {maxSize keepLines : ℕ}
    (oversized : maxSize < content.length)
    (positive : 0 < keepLines) (written : ∀ line ∈ completeLines content, ∀ session,
      lineSession line = some session → sessionNeedle session <:+: line) :
    (∃ rotated start, rotateLog lineSession sessionNeedle content maxSize keepLines =
        .ok (some rotated) ∧
      Kept lineSession (completeLines content) maxSize keepLines start rotated) ↔
          (fromUtf8 content).isSome := by
  rw [rotateLog, if_neg (by omega)]
  constructor
  · rintro ⟨rotated, start, done, -⟩
    split at done
    next text => exact text
    next => cases done
  · intro text
    rw [if_pos text]
    have usual := usualStart_spec (completeLines content) positive maxSize
    have start :=
      retainedSuffix_start lineSession sessionNeedle (completeLines content) keepLines maxSize
    refine ⟨_, _, rfl, rfl, ?_, ?_, ?_, ?_, fun session =>
      retainedSuffix_session keepLines maxSize written⟩
    · intro some_line
      have length := List.length_pos_iff.mpr some_line
      omega
    · change bytesFrom _ _ ≤ maxSize ∨ _
      rw [List.length_drop]
      rcases start with same | ⟨-, small⟩
      · rw [same]
        omega
      · exact .inl (by omega)
    · change _ ∨ bytesFrom _ _ ≤ maxSize / 2
      rw [List.length_drop]
      omega
    · dsimp only
      rw [splitInclusive_flatten, List.take_append_drop]
      exact fun line mem => whole_completeLines content line (List.mem_of_mem_take mem)

/-- The session of the lines that begin with an `s`. -/
def sessionOf (line : Bytes) : Option Unit := if line.head? = some 115 then some () else none

theorem infix_of_sessionOf {line : Bytes} {session : Unit} (names : sessionOf line = some session) :
    utf8 "s" <:+: line := by
  obtain ⟨first, -⟩ := Option.ite_none_right_eq_some.mp names
  obtain ⟨rest, rfl⟩ := List.head?_eq_some_iff.mp first
  exact ⟨[], rest, rfl⟩

/-- A log of three lines of one session, of which the newest is kept. -/
theorem rotateLog_keeps_newest :
    (completeLines (utf8 "s1\ns2\ns3\n")).getLast?.bind sessionOf = some () ∧ ∃ rotated start,
      rotateLog sessionOf (fun _ => utf8 "s") (utf8 "s1\ns2\ns3\n") 3 1 = .ok (some rotated) ∧
        Kept sessionOf (completeLines (utf8 "s1\ns2\ns3\n")) 3 1 start rotated :=
  ⟨by decide +kernel, (rotateLog_keeps_iff (by decide +kernel) Nat.one_pos
    fun _ _ _ => infix_of_sessionOf).mpr (by decide +kernel)⟩

/-- A line of which the first two bytes were written, the second of them half a character, and the
line written after it. -/
def torn : Bytes := [34, 195] ++ appended [34, 195] [34, 195, 169, 34]

/-- The log cannot be rotated any more, for whatever size. -/
theorem torn_not_rotated : Left torn ∧ ∀ maxSize < torn.length,
    rotateLog (fun _ => none) (fun _ : Unit => []) torn maxSize 1 =
      .error "stream did not contain valid UTF-8" := by
  constructor
  · have half : Left [34, 195] := @Left.append [] [34, 195, 169, 34] .empty (by decide +kernel)
      (by decide) 2
    exact @Left.append [34, 195] [34, 195, 169, 34] half (by decide +kernel) (by decide) 6
  · intro maxSize oversized
    rw [rotateLog, if_neg (by omega), if_neg (by decide +kernel)]

end Kache.Events
