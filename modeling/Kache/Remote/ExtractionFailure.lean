import Kache.Remote.Extraction

/-!
# Extractions that fail

An extraction works in a directory of its own until it has verified what it unpacked.  Up to there a
failure does not touch the destination.  Then the destination is removed, the new directory is
renamed to it, or copied where the rename fails, and the deadline is read once more.  None of these
steps is undone when it or a later one fails, so an extraction that returns an error may have
removed the entry that was there, and may have published the new one.

`failed_extraction_keeps_files_iff` says when an error leaves the destination with the files it
held. It says so in terms of the members, the binding, the deadline and the failing steps: whether
the archive is delivered (`Delivers`), the publication comes to its end (`Publishes`), or the files
it puts there are the old ones (`SparesFiles`).
-/

namespace Kache

open UnixPath

/-- The files below a destination that may not exist. -/
def heldFiles (dest : Option FileTree) (l : List OsStr) : Option Bytes := dest.bind (·.file? l)

/-- The files at the destination once the new directory was moved there, as far as the move came. -/
def movedFiles (faults : ExtractFaults) (delivered : List OsStr → Option Bytes)
    (l : List OsStr) : Option Bytes :=
  if faults.rename then
    match faults.copy with
    | some .unmade => none
    | some (.started made length) =>
      if FileTree.Kept made l then (delivered l).map (List.take (length l)) else none
    | none => delivered l
  else delivered l

/-- The publication leaves the files as they were: the deadline had passed before an existing
destination was touched, or its removal failed and had taken no file, or the files that were moved
there are the ones it held. -/
def SparesFiles (faults : ExtractFaults) (dest : Option FileTree)
    (delivered : List OsStr → Option Bytes) : Prop :=
  match dest with
  | none => ∀ l, movedFiles faults delivered l = none
  | some old =>
    faults.publication = true ∨
      match faults.removal with
      | some left => ∀ l, (old.file? l).isSome → FileTree.Kept left l
      | none => ∀ l, movedFiles faults delivered l = old.file? l

variable {faults : ExtractFaults}

/-- What the move puts at the destination. -/
theorem heldFiles_moveInto (tree : FileTree) (l : List OsStr) :
    heldFiles (moveInto faults tree).1 l = movedFiles faults tree.file? l := by
  unfold moveInto movedFiles
  split
  · cases faults.copy with
    | none => rfl
    | some fault =>
      cases fault with
      | unmade => rfl
      | started made length =>
        show ((tree.restrict made).truncated length).file? l = _
        rw [FileTree.file?_truncated, FileTree.file?_restrict]
        split
        · next kept => exact (if_pos kept).symm
        · next lost => exact (if_neg lost).symm
  · rfl

theorem heldFiles_publishExtracted_iff (dest : Option FileTree) (tree : FileTree) :
    (∀ l, heldFiles (publishExtracted faults dest tree).1 l = heldFiles dest l) ↔
      SparesFiles faults dest tree.file? := by
  cases dest with
  | none => exact forall_congr' fun l => by rw [← heldFiles_moveInto]; rfl
  | some old =>
    unfold publishExtracted SparesFiles
    dsimp only
    split
    · next passed => exact ⟨fun _ => .inl passed, fun _ _ => rfl⟩
    · next inTime =>
      rw [or_iff_right inTime]
      cases faults.removal with
      | none => exact forall_congr' fun l => by rw [← heldFiles_moveInto]; rfl
      | some left =>
        show (∀ l, (old.restrict left).file? l = old.file? l) ↔ _
        refine forall_congr' fun l => ?_
        rw [FileTree.file?_restrict]
        split
        · next kept => exact ⟨fun _ _ => kept, fun _ => rfl⟩
        · next lost =>
          refine ⟨fun same present => ?_, fun spares => ?_⟩
          · rw [← same] at present
            cases present
          · by_contra differs
            exact lost (spares (Option.isSome_iff_ne_none.mpr (Ne.symm differs)))

/-! ## What an archive is delivered with -/

/-- There is a place for a member among those before it. -/
def HasPlace (earlier : List Member) (member : Member) : Prop :=
  member.path.contains 0 = false ∧
    if member.kind = .directory then
      MakesDir earlier (location member.path) ∨
        landing earlier (location member.path) = none ∧ endsInDot member.path = false ∧
          MakesDir earlier (location member.path).dropLast
    else mustBeDir member.path = false ∧ location member.path ≠ [] ∧
      ¬ MakesDir earlier (location member.path) ∧
      ∀ l, l <+: (location member.path).dropLast → landing earlier l = none

/-- A member is unpacked after those before it. -/
@[mk_iff] structure Accepts (faults : ExtractFaults) (earlier : List Member) (member : Member) :
    Prop where
  read : faults.next earlier.length = false
  capped : (earlier.map (·.size)).sum + member.size ≤ maxExtractedBytes
  relative : isRooted member.path = false
  below : .parentDir ∉ components member.path
  noLink : member.kind = .regular ∨ member.kind = .directory
  written : faults.write earlier.length = false
  place : HasPlace earlier member

/-- An archive gets through the temporary directory: every member is unpacked, and the metadata
passes the gate. -/
structure Delivers (env : Env) (parse : Bytes → Option EntryMeta) (faults : ExtractFaults)
    (members : List Member) (expected : Option ExpectedEntryBinding) : Prop where
  setup : faults.setup = false
  accepts : ∀ earlier member later, members = earlier ++ member :: later →
    Accepts faults earlier member
  readMeta : faults.readMeta = false
  gate : ∃ m, PassesGate env parse members expected m

variable {env : Env} {earlier members : List Member} {member : Member} {state : Unpacked}

theorem hasPlace_iff_directory (reflects : state.Reflects env earlier)
    (isDir : member.kind = .directory) :
    HasPlace earlier member ↔ ∃ tree, state.tree.createDir member.path = some tree := by
  rw [FileTree.exists_createDir_iff, HasPlace, if_pos isDir, FileTree.node?_eq_none_iff, ne_eq,
    reflects.dirs, reflects.dirs, reflects.files]
  tauto

theorem hasPlace_iff_file (reflects : state.Reflects env earlier)
    (isFile : member.kind ≠ .directory) : HasPlace earlier member ↔
      ∃ tree, state.tree.createFile member.path member.content = some tree := by
  simp only [FileTree.exists_createFile_iff, HasPlace, if_neg isFile, ne_eq, reflects.dirs,
    reflects.files]

/-- **One member** is unpacked where it is accepted. -/
theorem exists_unpackMember_iff (reflects : state.Reflects env earlier) :
    (∃ state', unpackMember env faults earlier.length state member = .ok state') ↔
      Accepts faults earlier member := by
  have cap : min ((earlier.map (·.size)).sum + member.size) (2 ^ 64 - 1) ≤ maxExtractedBytes ↔
      (earlier.map (·.size)).sum + member.size ≤ maxExtractedBytes := by
    have : maxExtractedBytes < 2 ^ 64 - 1 := by decide
    omega
  have kinds : ¬ (member.kind = .symlink ∨ member.kind = .hardLink) ↔
      member.kind = .regular ∨ member.kind = .directory := by
    cases member.kind <;> decide
  simp only [unpackMember, bind_eq_ok, bailIf_eq_ok, exists_const, exists_and_left, reflects.total,
    not_lt, cap, Bool.not_eq_true, kinds, accepts_iff]
  by_cases isDir : member.kind = .directory
  · simp only [if_pos isDir, hasPlace_iff_directory reflects isDir, bind_eq_ok, okOr_eq_ok, pure,
      Except.pure, Except.ok.injEq]
    simp only [exists_comm (α := Unpacked), exists_and_left, exists_eq', and_true]
  · simp only [if_neg isDir, hasPlace_iff_file reflects isDir, bind_eq_ok, okOr_eq_ok, pure,
      Except.pure, Except.ok.injEq]
    simp only [exists_comm (α := Unpacked), exists_and_left, exists_eq', and_true]

/-- **The whole archive** is unpacked where each of its members is accepted after those before. -/
theorem exists_unpackMembers_iff (reflects : state.Reflects env earlier) :
    (∃ state', unpackMembers env faults earlier.length state members = .ok state') ↔
      ∀ before member later, members = before ++ member :: later →
        Accepts faults (earlier ++ before) member := by
  induction members generalizing earlier state with
  | nil => exact ⟨fun _ before _ _ none => absurd none (by simp), fun _ => ⟨state, rfl⟩⟩
  | cons first rest ih =>
    have split_ : (∀ before member later, first :: rest = before ++ member :: later →
        Accepts faults (earlier ++ before) member) ↔ Accepts faults earlier first ∧
        ∀ before member later, rest = before ++ member :: later →
          Accepts faults ((earlier ++ [first]) ++ before) member := by
      refine ⟨fun all => ⟨by simpa using all [] first rest rfl, fun before member later eq => ?_⟩,
        ?_⟩
      · simpa using all (first :: before) member later (by rw [eq]; rfl)
      · rintro ⟨here, there⟩ before member later eq
        rcases List.cons_eq_append_iff.mp eq with ⟨rfl, same⟩ | ⟨tail, rfl, same⟩
        · cases same
          simpa using here
        · simpa using there tail member later same
    have length : (earlier ++ [first]).length = earlier.length + 1 := List.length_append
    rw [split_, ← exists_unpackMember_iff reflects, unpackMembers]
    simp only [bind_eq_ok]
    constructor
    · rintro ⟨state', next, taken, done⟩
      refine ⟨⟨next, taken⟩, (ih (reflects.unpackMember taken)).mp ⟨state', ?_⟩⟩
      rw [length]
      exact done
    · rintro ⟨⟨next, taken⟩, others⟩
      obtain ⟨state', done⟩ := (ih (reflects.unpackMember taken)).mpr others
      rw [length] at done
      exact ⟨state', next, taken, done⟩

/-- What the temporary directory holds when the archive has come through. -/
theorem file?_unpackAndVerify {parse : Bytes → Option EntryMeta}
    {expected : Option ExpectedEntryBinding} {tree : FileTree} {entry : ExtractedEntry}
    (unpacked : unpackAndVerify env parse faults members expected = .ok (tree, entry)) :
    tree.file? = landing members := by
  simp only [unpackAndVerify, bind_eq_ok, pure, Except.pure, Except.ok.injEq] at unpacked
  obtain ⟨-, -, state, looped, m, -, same⟩ := unpacked
  cases same
  have reflects : state.Reflects env members := by
    simpa using Unpacked.reflects_start.unpackMembers looped
  exact funext reflects.files

theorem exists_unpackAndVerify_iff {parse : Bytes → Option EntryMeta}
    {expected : Option ExpectedEntryBinding} :
    (∃ result, unpackAndVerify env parse faults members expected = .ok result) ↔
      Delivers env parse faults members expected := by
  have start : Unpacked.start.Reflects env [] := Unpacked.reflects_start
  have loop : (∃ state, unpackMembers env faults 0 Unpacked.start members = .ok state) ↔ _ :=
    exists_unpackMembers_iff start
  have reflects : ∀ {state}, unpackMembers env faults 0 Unpacked.start members = .ok state →
      state.Reflects env members := fun looped => by
    simpa using Unpacked.reflects_start.unpackMembers looped
  simp only [unpackAndVerify, bind_eq_ok, bailIf_eq_ok, Bool.not_eq_true, exists_const,
    pure, Except.pure, Except.ok.injEq]
  constructor
  · rintro ⟨_, setup, state, looped, m, verified, rfl⟩
    obtain ⟨readable, gate⟩ := (verifyUnpacked_eq_ok (reflects looped)).mp verified
    exact ⟨setup, loop.mp ⟨state, looped⟩, readable, m, gate⟩
  · rintro ⟨setup, accepts, readable, m, gate⟩
    obtain ⟨state, looped⟩ := loop.mpr accepts
    exact ⟨_, setup, state, looped, m,
      (verifyUnpacked_eq_ok (reflects looped)).mpr ⟨readable, gate⟩, rfl⟩

/-! ## When a failure spares the files -/

/-- The publication comes to its end: no deadline passes, and no step fails that is not made up
for. -/
@[mk_iff] structure Publishes (faults : ExtractFaults) (dest : Option FileTree) : Prop where
  removed : dest.isSome → faults.publication = false ∧ faults.removal = none
  moved : faults.rename = true → faults.copy = none ∧ faults.cleanup = false
  inTime : faults.finish = false

theorem publishExtracted_eq_ok {dest : Option FileTree} {tree : FileTree} :
    (publishExtracted faults dest tree).2 = .ok () ↔ Publishes faults dest := by
  have moved : (publishExtracted.finish faults (moveInto faults tree)).2 = .ok () ↔
      (faults.rename = true → faults.copy = none ∧ faults.cleanup = false) ∧
        faults.finish = false := by
    simp only [publishExtracted.finish, bind_eq_ok, bailIf_eq_ok, exists_and_right,
      Bool.not_eq_true]
    refine and_congr_left' ⟨?_, ?_⟩
    · rintro ⟨⟨⟩, done⟩ renamed
      rw [moveInto, if_pos renamed] at done
      cases copy : faults.copy with
      | none =>
        rw [copy] at done
        exact ⟨rfl, by simpa using bailIf_eq_ok.mp done⟩
      | some fault =>
        rw [copy] at done
        cases fault <;> cases done
    · intro sound
      refine ⟨⟨⟩, ?_⟩
      unfold moveInto
      split
      · next renamed =>
        rw [(sound renamed).1]
        exact bailIf_eq_ok.mpr (by simp [(sound renamed).2])
      · rfl
  rw [publishes_iff, ← moved]
  cases dest with
  | none => simp [publishExtracted]
  | some old =>
    unfold publishExtracted
    cases faults.publication <;> cases faults.removal <;> simp

/-- **When an extraction that fails leaves the files at its destination alone**: when it cannot
fail, since the archive is delivered and published; when the archive is not delivered; or when the
publication spares the files. -/
theorem failed_extraction_keeps_files_iff (env : Env) (parse : Bytes → Option EntryMeta)
    (faults : ExtractFaults) (dest : Option FileTree) (members : List Member)
    (expected : Option ExpectedEntryBinding) :
    ((∃ e, (extractEntryPackUntil env parse faults dest members expected).2 = .error e) →
        ∀ l, heldFiles (extractEntryPackUntil env parse faults dest members expected).1 l
          = heldFiles dest l) ↔
      ¬ Delivers env parse faults members expected ∨ Publishes faults dest ∨
        SparesFiles faults dest (landing members) := by
  rw [← exists_unpackAndVerify_iff]
  unfold extractEntryPackUntil
  cases unpacked : unpackAndVerify env parse faults members expected with
  | error e => simp
  | ok result =>
    obtain ⟨tree, entry⟩ := result
    have published : (publishExtracted faults dest tree).2 = .ok () ↔ _ := publishExtracted_eq_ok
    rw [← file?_unpackAndVerify unpacked, ← heldFiles_publishExtracted_iff, ← published]
    dsimp only
    cases (publishExtracted faults dest tree).2 with
    | error e => simp [bind, Except.bind]
    | ok => simp [bind, Except.bind, pure, Except.pure]

/-- A destination with one file. -/
def oldEntry : Option FileTree := FileTree.empty.createFile (utf8 "old") [1]

/-- The deadline passes while the verified entry is renamed into place: the call fails, the file
that was there is gone, and the new `meta.json` is there. -/
theorem late_deadline_replaces_entry :
    let called := extractEntryPackUntil archiveEnv sampleParse
      { ExtractFaults.none with finish := true } oldEntry plainArchive (some sampleExpected)
    called.2 = .error .publicationDeadline ∧
      heldFiles oldEntry [utf8 "old"] = some [1] ∧ heldFiles called.1 [utf8 "old"] = none ∧
      heldFiles called.1 [utf8 "meta.json"] = some sampleMetaJson := by
  decide +kernel

end Kache
