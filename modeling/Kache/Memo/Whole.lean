import Kache.Foundation.Interning
import Kache.Foundation.Run
import Kache.Memo.Preprocess

/-!
# Memo reads are whole

Processes record, touch and prune memos in one index.  A recording or a prune is a transaction that
takes the write lock when it begins (`BEGIN IMMEDIATE`), works on tables of its own, and either
commits them or is rolled back; a lookup is one statement and sees the tables of the last commit.

The memo of a key is spread over three tables: the row with the hash and the count, references, and
input rows that memos share.  `Sound` ties them together: every memo there is has the hash of the
last put for its key, and holds exactly the inputs of that put, or else has lost all of its
references at once.  Both the shared rows and their reuse are the business of `Recorded`, which
knows nothing of memos.
-/

namespace Kache.Memo

/-! ## Processes -/

/-- What makes an input: its name, its bytes and what they map to. -/
abbrev Triple := String × String × String

def CcPreprocessMemoInput.triple (input : CcPreprocessMemoInput) : Triple :=
  (input.name, input.content, input.mapped)

def InputRow.triple (row : InputRow) : Triple := (row.name, row.content, row.mapped)

/-- A put that was committed. -/
structure Put where
  memoKey : String
  preprocessedHash : String
  inputs : List CcPreprocessMemoInput

/-- A transaction. -/
inductive Request where
  | put (memo : Put)
  | prune
  | scans (version : ℤ) (pairs : List (String × String))

/-- The index as all processes see it, the transaction that holds the write lock with the tables it
began with, and the puts committed so far, the last one first. -/
structure Shared where
  index : Index
  writer : Option (ℕ × Request × Index)
  committed : List Put

def Shared.start : Shared := ⟨Index.empty, none, []⟩

/-- What a process does.  Times are what `unixepoch()` gives to a statement. -/
inductive Move where
  /-- `BEGIN IMMEDIATE`. -/
  | begin (process : ℕ) (request : Request)
  /-- The statements of the transaction, and its commit. -/
  | commit (process : ℕ) (now later : ℤ)
  /-- The transaction fails, or the process dies. -/
  | rollback (process : ℕ)
  /-- `touch_cc_preprocess_memo`, a transaction of one statement. -/
  | touch (process : ℕ) (now : ℤ) (memoKey : String)

/-- The tables a transaction commits. -/
def Request.run (blake3 : Bytes → Bytes) (now later : ℤ) (index : Index) : Request → Index
  | .put memo =>
    putCcPreprocessMemoInputs blake3 now memo.memoKey memo.preprocessedHash memo.inputs index
  | .prune => (pruneStatements now later index).1
  | .scans version pairs => putCcHeaderScans version pairs index

/-- The puts committed with it. -/
def Request.puts : Request → List Put
  | .put memo => [memo]
  | .prune => []
  | .scans _ _ => []

/-- A move; a process that finds the lock taken does nothing. -/
def move (blake3 : Bytes → Bytes) (s : Shared) : Move → Option Shared
  | .begin process request =>
    match s.writer with
    | none => some { s with writer := some (process, request, s.index) }
    | some _ => none
  | .commit process now later =>
    match s.writer with
    | some (owner, request, index) =>
      if owner = process then
        some ⟨request.run blake3 now later index, none, request.puts ++ s.committed⟩
      else none
    | none => none
  | .rollback process =>
    match s.writer with
    | some (owner, _, _) => if owner = process then some { s with writer := none } else none
    | none => none
  | .touch _ now memoKey =>
    match s.writer with
    | none => some { s with index := touchCcPreprocessMemo now memoKey s.index }
    | some _ => none

/-- The last committed put for a key. -/
def Shared.last (s : Shared) (memoKey : String) : Option Put :=
  s.committed.find? (·.memoKey = memoKey)

/-- A lookup is whole: nothing, or the hash of the put and its distinct inputs, each once. -/
def WholeRead (last : Option Put) : Option CcPreprocessMemo → Prop
  | none => True
  | some memo => ∃ put, last = some put ∧ memo.preprocessedHash = put.preprocessedHash ∧
      (memo.inputs.map CcPreprocessMemoInput.triple).Nodup ∧
      ∀ triple, triple ∈ memo.inputs.map CcPreprocessMemoInput.triple ↔
        triple ∈ put.inputs.map CcPreprocessMemoInput.triple

/-! ## The invariant -/

/-- The input rows by key and triple. -/
def names (rows : List InputRow) : List (ℕ × Triple) := rows.map fun row => (row.id, row.triple)

/-- The memo holds the inputs of the put, and counts its references. -/
def Intact (index : Index) (memo : MemoRow) (put : Put) : Prop :=
  memo.inputCount = (index.refs.filter (·.1 = memo.id)).length ∧
    ∀ triple, Holds (names index.inputs) index.refs memo.id triple ↔
      triple ∈ put.inputs.map CcPreprocessMemoInput.triple

/-- The memo has no reference.  A prune leaves it so when the clock is put back between its
statements. -/
def Stripped (index : Index) (memo : MemoRow) : Prop := ∀ ref ∈ index.refs, ref.1 ≠ memo.id

structure Sound (last : String → Option Put) (index : Index) : Prop where
  ids : (index.memos.map (·.id)).Nodup
  keys : (index.memos.map (·.memoKey)).Nodup
  interned : Interned (names index.inputs)
  nodup : index.refs.Nodup
  referential : Referential (names index.inputs) index.refs
  whole : ∀ memo ∈ index.memos, ∃ put, last memo.memoKey = some put ∧
    memo.preprocessedHash = put.preprocessedHash ∧ (Intact index memo put ∨ Stripped index memo)

theorem Sound.empty : Sound (fun _ => none) Index.empty where
  ids := List.nodup_nil
  keys := List.nodup_nil
  interned := ⟨List.nodup_nil, List.nodup_nil⟩
  nodup := List.nodup_nil
  referential := fun _ mem => absurd mem List.not_mem_nil
  whole := fun _ mem => absurd mem List.not_mem_nil

variable {blake3 : Bytes → Bytes} {last : String → Option Put} {index : Index}

/-! ## Lookups -/

/-- The rows a join finds, by their keys. -/
theorem ids_of_join {ids : List ℕ} {rows : List InputRow}
    (joined : (ids.mapM fun inputId => index.inputs.find? (·.id = inputId)) = some rows) :
    rows.map (·.id) = ids ∧ ∀ row ∈ rows, row ∈ index.inputs := by
  rw [mapM_eq_some_iff] at joined
  induction joined with
  | nil => exact ⟨rfl, fun _ mem => absurd mem List.not_mem_nil⟩
  | cons here _ ih =>
    have same := List.find?_some here
    rw [decide_eq_true_eq] at same
    refine ⟨?_, List.forall_mem_cons.mpr ⟨List.mem_of_find?_eq_some here, ih.2⟩⟩
    rw [List.map_cons, ih.1, same]

/-- **Lookups** in a sound index are whole. -/
theorem Sound.read (sound : Sound last index) (now : ℤ) (memoKey : String) :
    WholeRead (last memoKey) (getCcPreprocessMemo blake3 now index memoKey) := by
  cases result : getCcPreprocessMemo blake3 now index memoKey with
  | none => trivial
  | some found =>
    unfold getCcPreprocessMemo at result
    obtain ⟨memo, here, result⟩ := Option.bind_eq_some_iff.mp result
    obtain ⟨rows, joined, result⟩ := Option.bind_eq_some_iff.mp result
    obtain ⟨mem, key⟩ := (find?_key_eq_some_iff sound.keys).mp here
    obtain ⟨put, latest, hash, state⟩ := sound.whole memo mem
    obtain ⟨ids, inside⟩ := ids_of_join joined
    have perm := sortByKey_perm id ((index.refs.filter (·.1 = memo.id)).map (·.2))
    obtain ⟨counted, ⟨⟩⟩ := Option.ite_none_right_eq_some.mp result
    -- the references of the memo have different keys, and rows with different keys different
    -- triples
    have distinct : (rows.map (·.id)).Nodup := by
      rw [ids, perm.nodup_iff]
      refine List.Nodup.map_on ?_ (sound.nodup.filter _)
      intro a ha b hb same
      rw [List.mem_filter, decide_eq_true_eq] at ha hb
      exact Prod.ext (ha.2.trans hb.2.symm) same
    have referred : ∀ row ∈ rows, (memo.id, row.id) ∈ index.refs := by
      intro row there
      have listed : row.id ∈ rows.map (·.id) := List.mem_map_of_mem there
      rw [ids, perm.mem_iff, List.mem_map] at listed
      obtain ⟨ref, kept, same⟩ := listed
      rw [List.mem_filter, decide_eq_true_eq] at kept
      rw [← kept.2, ← same]
      exact kept.1
    refine ⟨put, key ▸ latest, hash, ?_, fun triple => ?_⟩
    · show ((rows.map (·.readBack blake3)).map _).Nodup
      rw [List.map_map]
      refine List.Nodup.map_on ?_ distinct.of_map
      intro a ha b hb same
      have named : ∀ row ∈ rows, (row.id, row.triple) ∈ names index.inputs := fun row there =>
        List.mem_map_of_mem (inside row there)
      have alike : a.triple = b.triple := same
      refine List.inj_on_of_nodup_map distinct ha hb ?_
      exact sound.interned.key_unique (named a ha) (alike ▸ named b hb)
    · show triple ∈ (rows.map (·.readBack blake3)).map _ ↔ _
      rw [List.map_map]
      rcases state with intact | stripped
      · rw [← intact.2]
        constructor
        · intro listed
          obtain ⟨row, there, rfl⟩ := List.mem_map.mp listed
          exact ⟨row.id, List.mem_map_of_mem (inside row there), referred row there⟩
        · rintro ⟨inputId, named, ref⟩
          have listed : inputId ∈ rows.map (·.id) := by
            rw [ids, perm.mem_iff, List.mem_map]
            exact ⟨(memo.id, inputId), List.mem_filter.mpr ⟨ref, decide_eq_true rfl⟩, rfl⟩
          obtain ⟨row, there, same⟩ := List.mem_map.mp listed
          have other : (inputId, row.triple) ∈ names index.inputs := by
            rw [← same]
            exact List.mem_map_of_mem (inside row there)
          rw [sound.interned.value_unique named other]
          exact List.mem_map_of_mem there
      · -- a memo without references has no rows, and a count of none is not served
        have none : rows = [] := List.eq_nil_iff_forall_not_mem.mpr fun row there =>
          stripped _ (referred row there) rfl
        rw [none] at counted
        exact absurd counted.2 (Nat.ne_of_lt counted.1)

/-! ## Touching and pruning -/

/-- An update of some rows leaves a column that it does not write. -/
theorem map_updated {β : Type} (written : MemoRow → Prop) [DecidablePred written]
    (update : MemoRow → MemoRow)
    (column : MemoRow → β) (memos : List MemoRow) (same : ∀ row, column (update row) = column row) :
    (memos.map fun row => if written row then update row else row).map column =
      memos.map column := by
  rw [List.map_map]
  refine List.map_congr_left fun row _ => ?_
  show column (if _ then _ else _) = column row
  split
  · exact same row
  · rfl

theorem Sound.touch (sound : Sound last index) (now : ℤ) (memoKey : String) :
    Sound last (touchCcPreprocessMemo now memoKey index) := by
  refine ⟨?_, ?_, sound.interned, sound.nodup, sound.referential, fun memo mem => ?_⟩
  · rw [touchCcPreprocessMemo, map_updated]
    exacts [sound.ids, fun _ => rfl]
  · rw [touchCcPreprocessMemo, map_updated]
    exacts [sound.keys, fun _ => rfl]
  · obtain ⟨row, inside, rfl⟩ := List.mem_map.mp mem
    obtain ⟨put, latest, hash, state⟩ := sound.whole row inside
    split
    · exact ⟨put, latest, hash, state⟩
    · exact ⟨put, latest, hash, state⟩

theorem Sound.scans (sound : Sound last index) (version : ℤ) (pairs : List (String × String)) :
    Sound last (putCcHeaderScans version pairs index) :=
  ⟨sound.ids, sound.keys, sound.interned, sound.nodup, sound.referential, sound.whole⟩

/-- A reference that the prune leaves, leaves its row. -/
theorem mem_names_prune {refsNow memosNow : ℤ} {key : ℕ} {triple : Triple}
    (named : (key, triple) ∈ names index.inputs)
    (referred : key ∈ (pruneStatements refsNow memosNow index).1.refs.map (·.2)) :
    (key, triple) ∈ names (pruneStatements refsNow memosNow index).1.inputs := by
  obtain ⟨row, inside, same⟩ := List.mem_map.mp named
  obtain ⟨rfl, rfl⟩ := Prod.mk.inj same
  exact List.mem_map_of_mem (List.mem_filter.mpr ⟨inside, decide_eq_true referred⟩)

theorem Sound.prune (sound : Sound last index) (refsNow memosNow : ℤ) :
    Sound last (pruneStatements refsNow memosNow index).1 := by
  have fewer :
      (names (pruneStatements refsNow memosNow index).1.inputs).Sublist (names index.inputs) :=
    List.filter_sublist.map _
  have memos : (pruneStatements refsNow memosNow index).1.memos.Sublist index.memos :=
    List.filter_sublist
  refine ⟨sound.ids.sublist (memos.map _), sound.keys.sublist (memos.map _),
    sound.interned.sublist fewer, sound.nodup.filter _, fun ref mem => ?_, fun memo mem => ?_⟩
  · obtain ⟨row, named, same⟩ :=
      List.mem_map.mp (sound.referential ref (List.mem_of_mem_filter mem))
    refine List.mem_map.mpr ⟨row, mem_names_prune named ?_, same⟩
    rw [same]
    exact List.mem_map_of_mem mem
  · obtain ⟨put, latest, hash, state⟩ := sound.whole memo (memos.subset mem)
    refine ⟨put, latest, hash, ?_⟩
    by_cases old :
      memo.id ∈ (index.memos.filter fun row => row.lastUsed < refsNow - 2592000).map (·.id)
    · refine .inr fun ref kept same => ?_
      have young := (List.mem_filter.mp kept).2
      rw [decide_eq_true_eq, same] at young
      exact young old
    · rcases state with intact | stripped
      · -- the references of this memo stay, and with them the rows
        have same : ∀ key, (memo.id, key) ∈ (pruneStatements refsNow memosNow index).1.refs ↔
            (memo.id, key) ∈ index.refs := fun key =>
          ⟨List.mem_of_mem_filter, fun ref => List.mem_filter.mpr ⟨ref, decide_eq_true old⟩⟩
        refine .inl ⟨?_, fun triple => ?_⟩
        · rw [intact.1]
          show _ = ((index.refs.filter _).filter _).length
          rw [List.filter_filter]
          refine congrArg List.length (List.filter_congr fun ref _ => ?_)
          by_cases mine : ref.1 = memo.id
          · simp [mine, old]
          · simp [mine]
        · rw [← intact.2]
          constructor
          · rintro ⟨key, named, ref⟩
            exact ⟨key, fewer.subset named, (same key).mp ref⟩
          · rintro ⟨key, named, ref⟩
            have kept := (same key).mpr ref
            exact ⟨key, mem_names_prune named (List.mem_map_of_mem kept), kept⟩
      · exact .inr fun ref kept => stripped ref (List.mem_of_mem_filter kept)

/-- An input that a memo refers to stays with the memo, unless the clock is put back during the
prune. -/
theorem Sound.prune_keeps (sound : Sound last index) {refsNow memosNow : ℤ}
    (forward : refsNow ≤ memosNow)
    {memo : MemoRow} (remains : memo ∈ (pruneStatements refsNow memosNow index).1.memos)
    {row : InputRow} (mem : row ∈ index.inputs) (referred : (memo.id, row.id) ∈ index.refs) :
    row ∈ (pruneStatements refsNow memosNow index).1.inputs := by
  obtain ⟨inside, young⟩ := List.mem_filter.mp remains
  have kept : (memo.id, row.id) ∈ (pruneStatements refsNow memosNow index).1.refs := by
    refine List.mem_filter.mpr ⟨referred, decide_eq_true fun old => ?_⟩
    obtain ⟨other, listed, same⟩ := List.mem_map.mp old
    obtain ⟨there, stale⟩ := List.mem_filter.mp listed
    obtain rfl := List.inj_on_of_nodup_map sound.ids there inside same
    rw [decide_eq_true_eq] at stale
    rw [Bool.not_eq_true', decide_eq_false_iff_not] at young
    omega
  exact List.mem_filter.mpr ⟨mem, decide_eq_true (List.mem_map_of_mem kept)⟩

/-! ## Recording -/

theorem shared_iff {input : CcPreprocessMemoInput} {row : InputRow} :
    InputRow.shared input row = true ↔ row.triple = input.triple := by
  rw [InputRow.shared, decide_eq_true_eq, InputRow.triple, CcPreprocessMemoInput.triple,
    Prod.mk.injEq, Prod.mk.injEq]

/-- Both statements for an input intern its triple. -/
theorem names_upsert {input : CcPreprocessMemoInput} {update : InputRow → InputRow}
    {stamp : FileFingerprint} {proof : Option ℤ} {rows : List InputRow}
    (same : ∀ row, row.triple = input.triple → (update row).id = row.id ∧
      (update row).triple = row.triple) :
    intern (names rows) input.triple =
      (names (upsert (InputRow.shared input) update (.new rows input stamp proof) rows).1,
        (upsert (InputRow.shared input) update (.new rows input stamp proof) rows).2.id) := by
  have found : (names rows).find? (·.2 = input.triple) =
      (rows.find? (InputRow.shared input)).map fun row => (row.id, row.triple) := by
    rw [names, List.find?_map]
    refine congrArg _ (congrArg (fun p => rows.find? p) (funext fun row => ?_))
    rw [Bool.eq_iff_iff, shared_iff]
    exact decide_eq_true_iff
  unfold intern upsert
  rw [found]
  cases here : rows.find? (InputRow.shared input) with
  | some row =>
    have triple := shared_iff.mp (List.find?_some here)
    refine Prod.ext ?_ (same row triple).1.symm
    show names rows = names (rows.map _)
    rw [names, names, List.map_map]
    refine List.map_congr_left fun r _ => ?_
    show _ = ((if InputRow.shared input r = true then update r else r).id,
      (if InputRow.shared input r = true then update r else r).triple)
    split
    · next shared => rw [(same r (shared_iff.mp shared)).1, (same r (shared_iff.mp shared)).2]
    · rfl
  | none =>
    have next : (names rows).map Prod.fst = rows.map (·.id) := List.map_map
    show (names rows ++ [_], _) = (names (rows ++ [_]), _)
    rw [next, names, names, List.map_append]
    rfl

theorem names_putInput (rows : List InputRow) (input : CcPreprocessMemoInput) :
    intern (names rows) input.triple =
      (names (putInput blake3 rows input).1, (putInput blake3 rows input).2.id) := by
  unfold putInput
  dsimp only
  split
  · exact names_upsert fun row _ => ⟨rfl, rfl⟩
  · refine names_upsert fun row triple => ⟨rfl, ?_⟩
    have name := congrArg Prod.fst triple
    show (input.name, row.content, row.mapped) = row.triple
    rw [← show row.name = input.name from name]
    rfl

/-- The loop over the inputs. -/
def recordInputs (blake3 : Bytes → Bytes) (owner : ℕ) (inputs : List CcPreprocessMemoInput)
    (tables : List InputRow × List (ℕ × ℕ)) : List InputRow × List (ℕ × ℕ) :=
  inputs.foldl (fun (rows, refs) input =>
    let (rows, row) := putInput blake3 rows input
    (rows, insertRef refs (owner, row.id))) tables

/-- **The loop** records the triples of the inputs. -/
theorem recorded_recordInputs {owner : ℕ} {rows : List InputRow} {refs : List (ℕ × ℕ)}
    (start : Kache.Recorded owner (names rows) refs [] (names rows) refs)
    (inputs : List CcPreprocessMemoInput) :
    Kache.Recorded owner (names rows) refs (inputs.map CcPreprocessMemoInput.triple)
      (names (recordInputs blake3 owner inputs (rows, refs)).1)
        (recordInputs blake3 owner inputs (rows, refs)).2 := by
  induction inputs using List.reverseRecOn with
  | nil => exact start
  | append_singleton front input ih =>
    have one := ih.next input.triple
    rw [names_putInput] at one
    rw [List.map_append, recordInputs, List.foldl_append]
    exact one

/-- The first statement: the row of the memo, new or renewed. -/
def upsertMemo (now : ℤ) (put : Put) (memos : List MemoRow) : List MemoRow × MemoRow :=
  upsert (fun row => row.memoKey = put.memoKey)
    (fun row => { row with preprocessedHash := put.preprocessedHash, lastUsed := now })
    ⟨nextId (memos.map (·.id)), put.memoKey, put.preprocessedHash, 0, now⟩ memos

/-- The row of the memo, and the rows of the others. -/
structure Renewed (put : Put) (before after : List MemoRow) (memo : MemoRow) : Prop where
  ids : (after.map (·.id)).Nodup
  keys : (after.map (·.memoKey)).Nodup
  mem : memo ∈ after
  key : memo.memoKey = put.memoKey
  hash : memo.preprocessedHash = put.preprocessedHash
  others : ∀ row ∈ after, row.id ≠ memo.id → row ∈ before ∧ row.memoKey ≠ put.memoKey

theorem renewed_upsertMemo {memos : List MemoRow} (ids : (memos.map (·.id)).Nodup)
    (keys : (memos.map (·.memoKey)).Nodup) (now : ℤ) (put : Put) :
    Renewed put memos (upsertMemo now put memos).1 (upsertMemo now put memos).2 := by
  rcases upsert_cases (fun row : MemoRow => decide (row.memoKey = put.memoKey))
    (fun row => { row with preprocessedHash := put.preprocessedHash, lastUsed := now })
    ⟨nextId (memos.map (·.id)), put.memoKey, put.preprocessedHash, 0, now⟩ memos with
    ⟨row, mem, key, eq⟩ | ⟨absent, eq⟩
  · rw [decide_eq_true_eq] at key
    rw [upsertMemo, eq]
    refine ⟨?_, ?_, ?_, key, rfl, ?_⟩
    · rw [map_updated]
      exacts [ids, fun _ => rfl]
    · rw [map_updated]
      exacts [keys, fun _ => rfl]
    · exact List.mem_map.mpr ⟨row, mem, if_pos (decide_eq_true key)⟩
    · intro other inside ne
      obtain ⟨r, there, rfl⟩ := List.mem_map.mp inside
      by_cases same : r.memoKey = put.memoKey
      · -- only one row has the key
        obtain rfl := List.inj_on_of_nodup_map keys there mem (same.trans key.symm)
        rw [if_pos (decide_eq_true same)] at ne
        exact absurd rfl ne
      · rw [if_neg (by rwa [decide_eq_true_eq])]
        exact ⟨there, same⟩
  · rw [upsertMemo, eq]
    have strange : put.memoKey ∉ memos.map (·.memoKey) := by
      intro mem
      obtain ⟨row, there, same⟩ := List.mem_map.mp mem
      exact of_decide_eq_false (absent row there) same
    refine ⟨?_, ?_, List.mem_append_right _ List.mem_cons_self, rfl, rfl, ?_⟩
    · rw [List.map_append, List.map_singleton, ← List.concat_eq_append, List.nodup_concat]
      exact ⟨nextId_notMem _, ids⟩
    · rw [List.map_append, List.map_singleton, ← List.concat_eq_append, List.nodup_concat]
      exact ⟨strange, keys⟩
    · intro row mem ne
      rcases List.mem_append.mp mem with mem | mem
      · exact ⟨mem, of_decide_eq_false (absent row mem)⟩
      · rw [List.mem_singleton.mp mem] at ne
        exact absurd rfl ne

/-- References of another memo, before and after. -/
theorem length_refs_other {refs refs' : List (ℕ × ℕ)} (nodup : refs.Nodup)
    (nodup' : refs'.Nodup) {owner : ℕ} (same : ∀ key, (owner, key) ∈ refs' ↔ (owner, key) ∈ refs) :
    (refs'.filter (·.1 = owner)).length = (refs.filter (·.1 = owner)).length := by
  refine List.Perm.length_eq
    ((List.perm_ext_iff_of_nodup (nodup'.filter _) (nodup.filter _)).mpr fun ref => ?_)
  rw [List.mem_filter, List.mem_filter, decide_eq_true_eq]
  refine and_congr_left fun mine => ?_
  rw [← Prod.mk.eta (p := ref), mine]
  exact same ref.2

/-- The tables with the count of the memo's references. -/
def withCount (memo : MemoRow) (refs : List (ℕ × ℕ)) (memos : List MemoRow) : List MemoRow :=
  memos.map fun row =>
    if row.id = memo.id then { row with inputCount := (refs.filter (·.1 = memo.id)).length }
      else row

/-- The tables a put leaves, statement by statement. -/
theorem putCcPreprocessMemoInputs_eq (now : ℤ) (put : Put) :
    putCcPreprocessMemoInputs blake3 now put.memoKey put.preprocessedHash put.inputs index =
      let (memos, memo) := upsertMemo now put index.memos
      let (rows, refs) :=
        recordInputs blake3 memo.id put.inputs (index.inputs, index.refs.filter (·.1 ≠ memo.id))
      { index with memos := withCount memo refs memos, inputs := rows, refs := refs } := rfl

/-- What the statements did to the memos and to the inputs. -/
theorem Sound.put_cases (sound : Sound last index) (blake3 : Bytes → Bytes) (now : ℤ) (put : Put) :
    ∃ memos memo rows refs, Renewed put index.memos memos memo ∧
      Kache.Recorded memo.id (names index.inputs) (index.refs.filter (·.1 ≠ memo.id))
        (put.inputs.map CcPreprocessMemoInput.triple) (names rows) refs ∧
      putCcPreprocessMemoInputs blake3 now put.memoKey put.preprocessedHash put.inputs index =
        { index with memos := withCount memo refs memos, inputs := rows, refs := refs } := by
  have renewed := renewed_upsertMemo sound.ids sound.keys now put
  rw [putCcPreprocessMemoInputs_eq]
  generalize upsertMemo now put index.memos = written at renewed ⊢
  obtain ⟨memos, memo⟩ := written
  have without : ∀ ref ∈ index.refs.filter (·.1 ≠ memo.id), ref.1 ≠ memo.id := fun ref mem =>
    of_decide_eq_true (List.mem_filter.mp mem).2
  have referential : Referential (names index.inputs) (index.refs.filter (·.1 ≠ memo.id)) :=
    fun ref mem =>
    sound.referential ref (List.mem_of_mem_filter mem)
  have start := Kache.Recorded.start sound.interned referential (sound.nodup.filter _) without
  exact ⟨memos, memo, _, _, renewed, recorded_recordInputs start put.inputs, rfl⟩

/-- **A put** makes its memo whole and leaves the others as they are. -/
theorem Sound.put (sound : Sound last index) (blake3 : Bytes → Bytes) (now : ℤ) (put : Put) :
    Sound (fun key => if key = put.memoKey then some put else last key)
      (putCcPreprocessMemoInputs blake3 now put.memoKey put.preprocessedHash put.inputs index) := by
  obtain ⟨memos, memo, rows, refs, renewed, recorded, eq⟩ := sound.put_cases blake3 now put
  rw [eq]
  refine ⟨?_, ?_, recorded.interned, recorded.nodup, recorded.referential, fun row mem => ?_⟩
  · rw [withCount, map_updated]
    exacts [renewed.ids, fun _ => rfl]
  · rw [withCount, map_updated]
    exacts [renewed.keys, fun _ => rfl]
  · obtain ⟨old, inside, rfl⟩ := List.mem_map.mp mem
    by_cases mine : old.id = memo.id
    · obtain rfl := List.inj_on_of_nodup_map renewed.ids inside renewed.mem mine
      rw [if_pos rfl]
      exact ⟨put, if_pos renewed.key, renewed.hash, .inl ⟨rfl, recorded.whole⟩⟩
    · rw [if_neg mine]
      obtain ⟨before, other⟩ := renewed.others old inside mine
      obtain ⟨previous, latest, hash, state⟩ := sound.whole old before
      have same : ∀ key, (old.id, key) ∈ refs ↔ (old.id, key) ∈ index.refs := by
        intro key
        rw [recorded.others _ mine, List.mem_filter, and_iff_left (decide_eq_true mine)]
      refine ⟨previous, (if_neg other).trans latest, hash, ?_⟩
      rcases state with intact | stripped
      · refine .inl ⟨?_, fun triple => ?_⟩
        · rw [intact.1]
          exact (length_refs_other sound.nodup recorded.nodup same).symm
        · rw [← intact.2]
          -- rows are shared, but nobody else's reference came or went
          have referential : Referential (names index.inputs) (index.refs.filter (·.1 ≠ memo.id)) :=
            fun ref mem => sound.referential ref (List.mem_of_mem_filter mem)
          refine (recorded.holds_other referential mine triple).trans ?_
          refine exists_congr fun key => and_congr_right fun _ => ?_
          rw [List.mem_filter, and_iff_left (decide_eq_true mine)]
      · refine .inr fun ref kept owner => stripped (old.id, ref.2) ?_ rfl
        rw [← same, ← owner]
        exact kept

/-- An intact memo with inputs is served. -/
theorem Sound.served (sound : Sound last index) {memo : MemoRow} (mem : memo ∈ index.memos)
    {put : Put} (intact : Intact index memo put) (some : put.inputs ≠ []) (now : ℤ) :
    (getCcPreprocessMemo blake3 now index memo.memoKey).isSome := by
  have here := (find?_key_eq_some_iff sound.keys).mpr ⟨mem, rfl⟩
  have perm := sortByKey_perm id ((index.refs.filter (·.1 = memo.id)).map (·.2))
  obtain ⟨rows, joined⟩ : ∃ rows,
    (sortByKey id ((index.refs.filter (·.1 = memo.id)).map (·.2))).mapM
      (fun inputId => index.inputs.find? (·.id = inputId)) = .some rows := by
    refine Option.ne_none_iff_exists'.mp fun missing => ?_
    obtain ⟨inputId, listed, absent⟩ := mapM_eq_none_iff.mp missing
    rw [perm.mem_iff, List.mem_map] at listed
    obtain ⟨ref, kept, rfl⟩ := listed
    obtain ⟨name, inside, same⟩ :=
      List.mem_map.mp (sound.referential ref (List.mem_of_mem_filter kept))
    obtain ⟨row, there, rfl⟩ := List.mem_map.mp inside
    exact List.find?_eq_none.mp absent row there (decide_eq_true same)
  have count : rows.length = memo.inputCount := by
    rw [intact.1, ← List.length_map (f := InputRow.id), (ids_of_join joined).1, perm.length_eq,
      List.length_map]
  have positive : 0 < memo.inputCount := by
    obtain ⟨input, inputs, split⟩ := List.exists_cons_of_ne_nil some
    have first : input.triple ∈ put.inputs.map CcPreprocessMemoInput.triple := by
      rw [split]
      exact List.mem_cons_self
    obtain ⟨key, -, ref⟩ := (intact.2 input.triple).mpr first
    rw [intact.1]
    exact List.length_pos_of_mem (List.mem_filter.mpr ⟨ref, decide_eq_true rfl⟩)
  unfold getCcPreprocessMemo
  rw [here]
  show (Option.isSome do
    let rows ← (sortByKey id ((index.refs.filter (·.1 = memo.id)).map (·.2))).mapM
      (fun inputId => index.inputs.find? (·.id = inputId))
    _) = true
  rw [joined]
  show Option.isSome (if 0 < memo.inputCount ∧ rows.length = memo.inputCount then _
    else none) = true
  rw [if_pos ⟨positive, count⟩]
  rfl

/-- **What was put is there**: the next lookup finds a put that has inputs. -/
theorem Sound.served_after_put (sound : Sound last index) (now later : ℤ) {put : Put}
    (some : put.inputs ≠ []) : (getCcPreprocessMemo blake3 later
      (putCcPreprocessMemoInputs blake3 now put.memoKey put.preprocessedHash put.inputs index)
        put.memoKey).isSome := by
  have after := sound.put blake3 now put
  obtain ⟨memos, memo, rows, refs, renewed, recorded, eq⟩ := sound.put_cases blake3 now put
  rw [eq] at after ⊢
  have mem : { memo with inputCount := (refs.filter (·.1 = memo.id)).length } ∈
    withCount memo refs memos :=
    List.mem_map.mpr ⟨memo, renewed.mem, if_pos rfl⟩
  have intact : Intact
      { index with memos := withCount memo refs memos, inputs := rows, refs := refs }
      { memo with inputCount := (refs.filter (·.1 = memo.id)).length } put :=
    ⟨rfl, recorded.whole⟩
  rw [← renewed.key]
  exact after.served mem intact some later

/-! ## Runs -/

/-- The index is sound, and so is the one a transaction began with. -/
structure Consistent (s : Shared) : Prop where
  index : Sound s.last s.index
  writer : ∀ writer ∈ s.writer, writer.2.2 = s.index

theorem Consistent.run {s : Shared} (consistent : Consistent s) (now later : ℤ)
    (request : Request) :
    Sound (Shared.last ⟨request.run blake3 now later s.index, none, request.puts ++ s.committed⟩)
      (request.run blake3 now later s.index) := by
  cases request with
  | put memo =>
    have last : Shared.last ⟨Request.run blake3 now later s.index (.put memo), none,
        [memo] ++ s.committed⟩ =
        fun key => if key = memo.memoKey then some memo else s.last key := by
      funext key
      show List.find? _ (memo :: s.committed) = _
      rw [List.find?_cons]
      by_cases same : memo.memoKey = key
      · rw [if_pos same.symm, decide_eq_true same]
      · rw [if_neg (Ne.symm same), decide_eq_false same]
        rfl
    rw [Request.puts, last]
    exact consistent.index.put blake3 now memo
  | prune => exact consistent.index.prune now later
  | scans version pairs => exact consistent.index.scans version pairs

/-- **One move** keeps the index sound. -/
theorem Consistent.move {s s' : Shared} {a : Move} (consistent : Consistent s)
    (taken : move blake3 s a = some s') : Consistent s' := by
  have idle : ∀ writer ∈ (none : Option (ℕ × Request × Index)), writer.2.2 = s'.index :=
    fun _ none =>
    (nomatch none)
  unfold Memo.move at taken
  split at taken <;> split at taken <;> try cases taken
  · refine ⟨consistent.index, fun writer mem => ?_⟩
    rw [← Option.mem_some.mp mem]
  · next process now later _ owner request index held =>
    obtain rfl : index = s.index := consistent.writer (owner, request, index) held
    obtain ⟨-, ⟨⟩⟩ := Option.ite_none_right_eq_some.mp taken
    exact ⟨consistent.run now later request, idle⟩
  · obtain ⟨-, ⟨⟩⟩ := Option.ite_none_right_eq_some.mp taken
    exact ⟨consistent.index, idle⟩
  · next process now memoKey _ free =>
    refine ⟨consistent.index.touch now memoKey, ?_⟩
    rw [free]
    exact idle

theorem consistent_of_reaches {s : Shared}
    (run : Reaches (fun _ _ => True) (move blake3) Shared.start s) : Consistent s :=
  run.invariant (I := Consistent) ⟨Sound.empty, fun _ none => (nomatch none)⟩
    fun _ _ _ before _ taken => before.move taken

/-- Memo reads are whole in every run of any number of processes, and a prune keeps every input that
a remaining memo refers to. -/
theorem memo_reads_whole (blake3 : Bytes → Bytes) {s : Shared}
    (run : Reaches (fun _ _ => True) (move blake3) Shared.start s) :
    (∀ now memoKey, WholeRead (s.last memoKey) (getCcPreprocessMemo blake3 now s.index memoKey)) ∧
      ∀ now later, ∀ memo ∈ (pruneStatements now later s.index).1.memos, ∀ row ∈ s.index.inputs,
        ((memo.id, row.id) ∈ (pruneStatements now later s.index).1.refs ∨
          now ≤ later ∧ (memo.id, row.id) ∈ s.index.refs) →
        row ∈ (pruneStatements now later s.index).1.inputs := by
  have sound := (consistent_of_reaches run).index
  refine ⟨fun now memoKey => sound.read now memoKey,
    fun now later memo remains row mem referred => ?_⟩
  rcases referred with referred | ⟨forward, referred⟩
  · exact List.mem_filter.mpr ⟨mem, decide_eq_true (List.mem_map_of_mem referred)⟩
  · exact sound.prune_keeps forward remains mem referred

/-- Two processes record the same key, and the second one also another key that shares an input. -/
def sharedRun : List Move :=
  let input (name : String) : CcPreprocessMemoInput :=
    ⟨name, ⟨"/src/" ++ name, 1, 0, 0, 7⟩, "c" ++ name, "m", 0⟩
  [.begin 1 (.put ⟨"k", "old", [input "a.h", input "b.h"]⟩), .commit 1 0 0,
    .begin 2 (.put ⟨"k", "new", [input "b.h", input "c.h", input "b.h"]⟩), .commit 2 5 5,
    .begin 1 .prune, .rollback 1, .begin 2 (.put ⟨"l", "other", [input "a.h"]⟩), .commit 2 9 9,
    .begin 1 .prune, .commit 1 2592001 2592006, .touch 3 2592010 "l"]

/-- The memo of the first key is gone after the prune, and the other one is read whole. -/
theorem memo_reads_whole_shared :
    ∃ s, Reaches (fun _ _ => True) (move fun _ => []) Shared.start s ∧
      (getCcPreprocessMemo (fun _ => []) 2592010 s.index "l").isSome = true ∧
      WholeRead (s.last "l") (getCcPreprocessMemo (fun _ => []) 2592010 s.index "l") := by
  obtain ⟨s, run, served⟩ := exists_reaches_of_replay (fun _ _ => True)
    (move fun _ => []) Shared.start sharedRun
    (fun s => (getCcPreprocessMemo (fun _ => []) 2592010 s.index "l").isSome) (by decide +kernel)
  exact ⟨s, run, served, (memo_reads_whole (fun _ => []) run).1 2592010 "l"⟩

/-- **What was put is read back.**  Wherever a run has got, a put with inputs that commits there is
served whole to every lookup until the next write. -/
theorem put_is_read_back (blake3 : Bytes → Bytes) {s s' : Shared}
    (run : Reaches (fun _ _ => True) (move blake3) Shared.start s) {process : ℕ} {put : Put}
    {index : Index}
    (writes : s.writer = some (process, .put put, index)) (inputs : put.inputs ≠ []) {now later : ℤ}
    (commits : move blake3 s (.commit process now later) = some s') (time : ℤ) :
    ∃ memo, getCcPreprocessMemo blake3 time s'.index put.memoKey = some memo ∧ WholeRead (some put)
      (some memo) := by
  have consistent := consistent_of_reaches run
  obtain rfl : index = s.index := consistent.writer _ writes
  have whole : WholeRead _ (getCcPreprocessMemo blake3 time _ put.memoKey) :=
    (consistent.move commits).index.read time _
  obtain rfl : ⟨_, none, put :: s.committed⟩ = s' := by
    simpa [move, writes, Request.puts] using commits
  obtain ⟨memo, found⟩ :=
    Option.isSome_iff_exists.mp (consistent.index.served_after_put now time inputs)
  have last : Shared.last ⟨Request.run blake3 now later s.index (.put put), none,
      put :: s.committed⟩ put.memoKey = some put := List.find?_cons_of_pos (decide_eq_true rfl)
  exact ⟨memo, found, last ▸ found ▸ whole⟩

/-- A second process replaces the memo of the first. -/
theorem put_is_read_back_replaced : ∃ (s' : Shared) (memo : CcPreprocessMemo),
    s'.committed.length = 2 ∧
    getCcPreprocessMemo (fun _ => []) 6 s'.index "k" = some memo ∧
      memo.preprocessedHash = "new" := by
  let put (hash : String) : Put := ⟨"k", hash, [⟨"a.h", ⟨"/src/a.h", 1, 0, 0, 7⟩, "c", "m", 0⟩]⟩
  let index := (Request.put (put "old")).run (fun _ => []) 0 0 .empty
  let s : Shared := ⟨index, some (2, .put (put "new"), index), [put "old"]⟩
  have run : Reaches (fun _ _ => True) (move fun _ => []) .start s := .of_replay .refl
    (show replay _ _ _ [.begin 1 (.put (put "old")), .commit 1 0 0, .begin 2 (.put (put "new"))] =
      some s from rfl)
  obtain ⟨memo, found, _, same, hash, -⟩ := put_is_read_back _ run rfl (by decide)
    (show move _ s (.commit 2 5 5) = some _ from rfl) 6
  cases same
  exact ⟨_, memo, rfl, found, hash⟩

end Kache.Memo
