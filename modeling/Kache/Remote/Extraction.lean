import Kache.Foundation.Checks
import Kache.Foundation.FileTree
import Kache.Store.Put

/-!
# Extracting a downloaded entry

`extract_entry_pack_until` unpacks an archive into a temporary directory, checks
the unpacked files against the `meta.json` among them, and only then replaces the
entry's directory.

The digests it compares are taken while the members are written, and filed under
the member's *path*; the files are at the path's *location*.  A path is a key by
its components, and `./a` and `a` are two keys for one file.  So the digest filed
under a declared name is that of the last member spelled like it, while the file
of that name is the last member that landed there, and the two need not be the
same member (`extraction_verifies_iff`).

The tar reader is represented by the members it yields, and `parse` is
`read_to_string` followed by `serde_json::from_str`.  A passed deadline, a
damaged stream and a failing system call are `ExtractFaults`.
-/

namespace Kache

open UnixPath

/-- `MAX_EXTRACTED_BYTES`: 8 GiB. -/
def maxExtractedBytes : ℕ := 8 * 1024 * 1024 * 1024

/-- The type of a tar header; everything that is neither a directory nor a link
is written out as a file. -/
inductive MemberKind where
  | regular
  | directory
  | symlink
  | hardLink
  deriving DecidableEq, Repr

/-- One member of an archive. -/
structure Member where
  path : OsStr
  kind : MemberKind
  /-- The size its header declares. -/
  size : ℕ
  content : Bytes
  deriving DecidableEq, Repr

/-- What the caller already knows about the entry. -/
structure ExpectedEntryBinding where
  cacheKey : String
  crateName : String
  metaDigest : Option String
  deriving DecidableEq, Repr

/-- Why an extraction fails. -/
inductive ExtractError where
  | setup
  | archive
  | extractionCap
  | absolutePath (path : OsStr)
  | pathTraversal (path : OsStr)
  | link (path : OsStr)
  | unpacking (path : OsStr)
  | creating (path : OsStr)
  | readingMeta
  | parsingMeta
  | incompatibleKeySchema (keySchema : ℕ)
  | bindingMismatch (expected : ExpectedEntryBinding) (cacheKey crateName : String)
  | missingMetaDigest
  | metaDigestMismatch (expected actual : String)
  | malformedBlobHash (name hash : String)
  | unsafeFileName (name : String)
  | contentHashMismatch (name expected actual : String)
  | missingDeclaredFile (name : String)
  | publicationDeadline
  | removingExisting
  | copying
  | removingTemp
  deriving DecidableEq, Repr

/-- How far a copy came that failed. -/
inductive CopyFault where
  /-- The destination was not made. -/
  | unmade
  /-- It was, with these files, up to these lengths. -/
  | started (made : List OsStr → Bool) (length : List OsStr → ℕ)

/-- What the environment does to one extraction. -/
structure ExtractFaults where
  /-- The deadline has passed, or the temporary directory cannot be made. -/
  setup : Bool
  /-- The deadline has passed, or the stream is damaged, at the `i`-th member. -/
  next : ℕ → Bool
  /-- Writing the `i`-th member fails. -/
  write : ℕ → Bool
  /-- The stream is damaged after the last member, the deadline has passed, or
  `meta.json` cannot be read. -/
  readMeta : Bool
  /-- The deadline has passed before an existing directory is removed. -/
  publication : Bool
  /-- `remove_dir_all` fails and leaves these files. -/
  removal : Option (List OsStr → Bool)
  /-- `rename` fails. -/
  rename : Bool
  /-- The copy that replaces a failed rename fails. -/
  copy : Option CopyFault
  /-- The temporary directory cannot be removed after the copy. -/
  cleanup : Bool
  /-- The deadline has passed after the publication. -/
  finish : Bool

/-- Nothing fails. -/
def ExtractFaults.none : ExtractFaults :=
  ⟨false, fun _ => false, fun _ => false, false, false, .none, false, .none, false, false⟩

/-- The state of the member loop. -/
structure Unpacked where
  /-- The temporary directory. -/
  tree : FileTree
  /-- `computed_hashes`: the digest filed under each member path. -/
  computedHashes : Table (List Component) String
  totalBytes : ℕ

/-- Before the first member. -/
def Unpacked.start : Unpacked := ⟨FileTree.empty, Table.empty, 0⟩

/-! ## The member loop -/

/-- One member: the guards, in order, then the write. -/
def unpackMember (env : Env) (faults : ExtractFaults) (i : ℕ) (state : Unpacked)
    (member : Member) : Except ExtractError Unpacked := do
  bailIf (faults.next i = true) .archive
  -- `saturating_add` on `u64`.
  let totalBytes := min (state.totalBytes + member.size) (2 ^ 64 - 1)
  bailIf (maxExtractedBytes < totalBytes) .extractionCap
  bailIf (isRooted member.path = true) (.absolutePath member.path)
  bailIf (.parentDir ∈ components member.path) (.pathTraversal member.path)
  bailIf (member.kind = .symlink ∨ member.kind = .hardLink) (.link member.path)
  bailIf (faults.write i = true) (.unpacking member.path)
  if member.kind = .directory then
    let tree ← okOr (.unpacking member.path) (state.tree.createDir member.path)
    pure ⟨tree, state.computedHashes, totalBytes⟩
  else
    let tree ← okOr (.creating member.path) (state.tree.createFile member.path member.content)
    pure ⟨tree, state.computedHashes.set (components member.path) (env.blake3 member.content),
      totalBytes⟩

/-- The loop over the archive, from its `i`-th member on. -/
def unpackMembers (env : Env) (faults : ExtractFaults) :
    ℕ → Unpacked → List Member → Except ExtractError Unpacked
  | _, state, [] => pure state
  | i, state, member :: rest => do
      let state ← unpackMember env faults i state member
      unpackMembers env faults (i + 1) state rest

/-! ## The integrity gate -/

/-- The metadata has to be the one the caller asked for. -/
def checkBinding (state : Unpacked) (m : EntryMeta) (expected : ExpectedEntryBinding) :
    Except ExtractError Unit := do
  bailIf (m.cacheKey ≠ expected.cacheKey ∨ m.crateName ≠ expected.crateName)
    (.bindingMismatch expected m.cacheKey m.crateName)
  match expected.metaDigest with
  | none => pure ()
  | some digest =>
    let actual ← okOr .missingMetaDigest
      (state.computedHashes.get (components (utf8 "meta.json")))
    bailIf (actual ≠ digest) (.metaDigestMismatch digest actual)

/-- A declared file is well formed. -/
def checkDeclared (file : CachedFile) : Except ExtractError Unit := do
  bailIf (isBlobHash file.hash = false) (.malformedBlobHash file.name file.hash)
  bailIf (isSafeArtifactName file.name = false) (.unsafeFileName file.name)

/-- The digest filed under a declared name is the declared one. -/
def checkContent (state : Unpacked) (file : CachedFile) : Except ExtractError Unit := do
  let actual ← okOr (.missingDeclaredFile file.name)
    (state.computedHashes.get (components (utf8 file.name)))
  bailIf (actual ≠ file.hash) (.contentHashMismatch file.name file.hash actual)

/-- Everything between the loop and the publication. -/
def verifyUnpacked (parse : Bytes → Option EntryMeta) (faults : ExtractFaults)
    (expected : Option ExpectedEntryBinding) (state : Unpacked) :
    Except ExtractError EntryMeta := do
  bailIf (faults.readMeta = true) .readingMeta
  let text ← okOr .readingMeta (state.tree.read? (utf8 "meta.json"))
  let m ← okOr .parsingMeta (parse text)
  bailIf (m.keySchema ≠ cacheKeyVersion) (.incompatibleKeySchema m.keySchema)
  expected.toList.forM (checkBinding state m)
  m.files.forM checkDeclared
  m.files.forM (checkContent state)
  pure m

/-! ## Publication -/

/-- Move `tree` to a destination that does not exist: rename, or copy and remove. -/
def moveInto (faults : ExtractFaults) (tree : FileTree) :
    Option FileTree × Except ExtractError Unit :=
  if faults.rename then
    match faults.copy with
    | some .unmade => (none, .error .copying)
    | some (.started made length) =>
      (some ((tree.restrict made).truncated length), .error .copying)
    | none => (some tree, bailIf (faults.cleanup = true) .removingTemp)
  else (some tree, .ok ())

/-- Replace the destination by `tree`; the destination is what is left there in
either case. -/
def publishExtracted (faults : ExtractFaults) (dest : Option FileTree) (tree : FileTree) :
    Option FileTree × Except ExtractError Unit :=
  match dest with
  | none => finish (moveInto faults tree)
  | some old =>
    if faults.publication then (some old, .error .publicationDeadline)
    else
      match faults.removal with
      | some left => (some (old.restrict left), .error .removingExisting)
      | none => finish (moveInto faults tree)
where
  /-- The deadline check after the move. -/
  finish (moved : Option FileTree × Except ExtractError Unit) :
      Option FileTree × Except ExtractError Unit :=
    (moved.1, do moved.2; bailIf (faults.finish = true) .publicationDeadline)

/-- What a successful extraction returns. -/
structure ExtractedEntry where
  originalBytes : ℕ
  entryMeta : EntryMeta
  deriving DecidableEq, Repr

/-- The part that works in the temporary directory. -/
def unpackAndVerify (env : Env) (parse : Bytes → Option EntryMeta) (faults : ExtractFaults)
    (members : List Member) (expected : Option ExpectedEntryBinding) :
    Except ExtractError (FileTree × ExtractedEntry) := do
  bailIf (faults.setup = true) .setup
  let state ← unpackMembers env faults 0 Unpacked.start members
  let m ← verifyUnpacked parse faults expected state
  pure (state.tree, ⟨state.totalBytes, m⟩)

/-- `extract_entry_pack_until`: the destination afterwards, and the result. -/
def extractEntryPackUntil (env : Env) (parse : Bytes → Option EntryMeta)
    (faults : ExtractFaults) (dest : Option FileTree) (members : List Member)
    (expected : Option ExpectedEntryBinding) :
    Option FileTree × Except ExtractError ExtractedEntry :=
  match unpackAndVerify env parse faults members expected with
  | .error e => (dest, .error e)
  | .ok (tree, entry) =>
    let published := publishExtracted faults dest tree
    (published.1, do published.2; pure entry)

/-! ## What the archive puts where -/

/-- The content of the last file of an archive whose path is selected. -/
def lastContent (selects : OsStr → Bool) (members : List Member) : Option Bytes :=
  (members.filter fun member => member.kind = .regular && selects member.path).getLast?.map
    (·.content)

/-- The content that ends up at a location. -/
def landing (members : List Member) (l : List OsStr) : Option Bytes :=
  lastContent (fun path => location path = l) members

/-- The content of the last file with this spelling of its path. -/
def spelled (members : List Member) (key : List Component) : Option Bytes :=
  lastContent (fun path => components path = key) members

@[simp] theorem lastContent_nil (selects : OsStr → Bool) : lastContent selects [] = none := rfl

theorem lastContent_concat (selects : OsStr → Bool) (members : List Member) (member : Member) :
    lastContent selects (members ++ [member]) =
      if member.kind = .regular ∧ selects member.path = true then some member.content
      else lastContent selects members := by
  unfold lastContent
  by_cases h : member.kind = .regular ∧ selects member.path = true
  · rw [if_pos h, List.filter_append, List.filter_cons_of_pos (by simp [h.1, h.2]),
      List.filter_nil, List.getLast?_concat, Option.map_some]
  · rw [if_neg h, List.filter_append, List.filter_cons_of_neg (by simpa using h),
      List.filter_nil, List.append_nil]

variable {members : List Member} {i : ℕ} {state state' : Unpacked}

theorem lastContent_congr {selects selects' : OsStr → Bool}
    (same : ∀ member ∈ members, selects member.path = selects' member.path) :
    lastContent selects members = lastContent selects' members := by
  unfold lastContent
  rw [List.filter_congr fun member mem => by rw [same member mem]]

/-- The members make a directory at `l`: as a member, or on the way to a file. -/
def MakesDir (members : List Member) (l : List OsStr) : Prop :=
  l = [] ∨ ∃ member ∈ members, if member.kind = .directory then l = location member.path
    else l <+: (location member.path).dropLast

/-- The loop state after `members`: the files are what landed last, the digests
are those of what was spelled last. -/
structure Unpacked.Reflects (env : Env) (members : List Member) (state : Unpacked) : Prop where
  files : ∀ l, state.tree.file? l = landing members l
  dirs : ∀ l, state.tree.node? l = some .dir ↔ MakesDir members l
  digests : ∀ key, state.computedHashes.get key = (spelled members key).map env.blake3
  total : state.totalBytes = (members.map (·.size)).sum

theorem makesDir_concat {member : Member} {l : List OsStr} :
    MakesDir (members ++ [member]) l ↔ MakesDir members l ∨
      if member.kind = .directory then l = location member.path
      else l <+: (location member.path).dropLast := by
  simp [MakesDir, or_and_right, exists_or, or_assoc]

variable {env : Env} {faults : ExtractFaults}

theorem Unpacked.reflects_start : Unpacked.start.Reflects env [] where
  files := by simp [Unpacked.start, landing]
  dirs := by simp [Unpacked.start, FileTree.empty, MakesDir]
  digests := by simp [Unpacked.start, spelled]
  total := rfl

/-- What a member that was unpacked did. -/
theorem unpackMember_ok {member : Member}
    (done : unpackMember env faults i state member = .ok state') :
    state'.totalBytes = state.totalBytes + member.size ∧
      ((member.kind = .directory ∧ state.tree.createDir member.path = some state'.tree ∧
        state'.computedHashes = state.computedHashes) ∨
      (member.kind = .regular ∧
        state.tree.createFile member.path member.content = some state'.tree ∧
        state'.computedHashes =
          state.computedHashes.set (components member.path) (env.blake3 member.content))) := by
  simp only [unpackMember, bind_eq_ok, bailIf_eq_ok] at done
  obtain ⟨-, -, -, capped, -, -, -, -, -, notLink, -, -, done⟩ := done
  have total : min (state.totalBytes + member.size)
      (2 ^ 64 - 1) = state.totalBytes + member.size := by
    have : maxExtractedBytes < 2 ^ 64 - 1 := by decide
    omega
  rw [total] at done
  split at done
  · next isDir =>
    simp only [bind_eq_ok, okOr_eq_ok, pure, Except.pure, Except.ok.injEq] at done
    obtain ⟨tree, made, rfl⟩ := done
    exact ⟨rfl, .inl ⟨isDir, made, rfl⟩⟩
  · next notDir =>
    simp only [bind_eq_ok, okOr_eq_ok, pure, Except.pure, Except.ok.injEq] at done
    obtain ⟨tree, made, rfl⟩ := done
    have hkind : member.kind = .regular := by
      cases hkind : member.kind <;> simp_all
    exact ⟨rfl, .inr ⟨hkind, made, rfl⟩⟩

/-- **One member.** -/
theorem Unpacked.Reflects.unpackMember (reflects : state.Reflects env members) {member : Member}
    (done : unpackMember env faults i state member = .ok state') :
    state'.Reflects env (members ++ [member]) := by
  obtain ⟨total, ⟨hkind, made, hdigests⟩ | ⟨hkind, made, hdigests⟩⟩ := unpackMember_ok done
  · -- A directory is no file, and is filed under no digest.
    refine ⟨?_, fun l => ?_, ?_, by simp [total, reflects.total]⟩
    · intro l
      rw [FileTree.file?_createDir made, reflects.files, landing, landing, lastContent_concat,
        if_neg (by simp [hkind])]
    · rw [FileTree.isDir_createDir made, reflects.dirs, makesDir_concat, if_pos hkind]
    · intro key
      rw [hdigests, reflects.digests, spelled, spelled, lastContent_concat,
        if_neg (by simp [hkind])]
  · refine ⟨?_, fun l => ?_, ?_, by simp [total, reflects.total]⟩
    · intro l
      rw [FileTree.file?_createFile made, reflects.files, landing, landing, lastContent_concat]
      simp [hkind, eq_comm]
    · rw [FileTree.isDir_createFile made, reflects.dirs, makesDir_concat, hkind, if_neg (by decide)]
    · intro key
      rw [hdigests, Table.get_set, reflects.digests, spelled, spelled, lastContent_concat]
      -- the digest goes to the key of this spelling, whatever the location is
      by_cases hkey : key = components member.path
      · simp [hkind, hkey]
      · simp [hkind, hkey, Ne.symm hkey]

/-- **The whole archive.** -/
theorem Unpacked.Reflects.unpackMembers {rest : List Member} (reflects : state.Reflects env members)
    (done : unpackMembers env faults i state rest = .ok state') :
    state'.Reflects env (members ++ rest) := by
  induction rest generalizing i state members with
  | nil =>
    cases done
    simpa using reflects
  | cons member rest ih =>
    obtain ⟨next, taken, done⟩ := bind_eq_ok.mp done
    simpa using ih (reflects.unpackMember taken) done

/-! ## What the gate establishes -/

/-- The metadata an archive delivers. -/
def deliveredMeta (parse : Bytes → Option EntryMeta) (members : List Member) :
    Option EntryMeta :=
  (landing members [utf8 "meta.json"]).bind parse

theorem read?_metaJson (tree : FileTree) :
    tree.read? (utf8 "meta.json") = tree.file? [utf8 "meta.json"] := by
  have hfile : mustBeDir (utf8 "meta.json") = false := by decide
  have hloc : location (utf8 "meta.json") = [utf8 "meta.json"] := by decide
  rw [FileTree.read?, hfile, hloc]
  rfl

/-- The digest of the last member spelled like a name. -/
def spelledDigest (env : Env) (members : List Member) (name : String) : Option String :=
  (spelled members (components (utf8 name))).map env.blake3

/-- What the gate asks of an archive: its metadata is of this version and the one the caller asked
for, and every digest it or the caller names is that of the last member spelled like the name. -/
structure PassesGate (env : Env) (parse : Bytes → Option EntryMeta) (members : List Member)
    (expected : Option ExpectedEntryBinding) (m : EntryMeta) : Prop where
  delivered : deliveredMeta parse members = some m
  schema : m.keySchema = cacheKeyVersion
  bound : ∀ e ∈ expected, (m.cacheKey = e.cacheKey ∧ m.crateName = e.crateName) ∧
    ∀ digest ∈ e.metaDigest, spelledDigest env members "meta.json" = some digest
  declared : ∀ file ∈ m.files, isBlobHash file.hash = true ∧ isSafeArtifactName file.name = true
  contents : ∀ file ∈ m.files, spelledDigest env members file.name = some file.hash

theorem checkContent_eq_ok (reflects : state.Reflects env members) {file : CachedFile} :
    checkContent state file = .ok () ↔ spelledDigest env members file.name = some file.hash := by
  simp only [checkContent, reflects.digests, bind_eq_ok, okOr_eq_ok, bailIf_eq_ok, ne_eq, not_not,
    exists_eq_right, spelledDigest]

theorem checkBinding_eq_ok (reflects : state.Reflects env members) {m : EntryMeta}
    {expected : ExpectedEntryBinding} : checkBinding state m expected = .ok () ↔
      (m.cacheKey = expected.cacheKey ∧ m.crateName = expected.crateName) ∧
        ∀ digest ∈ expected.metaDigest, spelledDigest env members "meta.json" = some digest := by
  simp only [checkBinding, reflects.digests, bind_eq_ok, bailIf_eq_ok, not_or, ne_eq, not_not,
    exists_const]
  refine and_congr_right' ?_
  cases expected.metaDigest with
  | none => simp [pure, Except.pure]
  | some digest =>
    simp only [bind_eq_ok, okOr_eq_ok, bailIf_eq_ok, not_not, exists_eq_right,
      Option.mem_some_iff, forall_eq', spelledDigest]

theorem verifyUnpacked_eq_ok (reflects : state.Reflects env members)
    {parse : Bytes → Option EntryMeta} {expected : Option ExpectedEntryBinding} {m : EntryMeta} :
    verifyUnpacked parse faults expected state = .ok m ↔
      faults.readMeta = false ∧ PassesGate env parse members expected m := by
  simp only [verifyUnpacked, bind_eq_ok, okOr_eq_ok, bailIf_eq_ok, forM_eq_ok, pure, Except.pure,
    Except.ok.injEq, checkContent_eq_ok reflects, checkBinding_eq_ok reflects, checkDeclared,
    read?_metaJson, reflects.files, Bool.not_eq_true, Bool.not_eq_false, exists_const,
    ne_eq, not_not]
  constructor
  · rintro ⟨readable, text, read, m', parsed, schema, bound, declared, contents, rfl⟩
    exact ⟨readable, by rw [deliveredMeta, read, Option.bind_some, parsed], schema,
      fun e mem => bound e (by simpa using mem), declared, contents⟩
  · rintro ⟨readable, delivered, schema, bound, declared, contents⟩
    obtain ⟨text, read, parsed⟩ := Option.bind_eq_some_iff.mp delivered
    exact ⟨readable, text, read, m, parsed, schema, fun e mem =>
      bound e (by simpa using mem), declared, contents, rfl⟩

/-- What a publication that succeeded left at the destination. -/
theorem publishExtracted_ok {dest : Option FileTree} {tree : FileTree}
    (done : (publishExtracted faults dest tree).2 = .ok ()) :
    (publishExtracted faults dest tree).1 = some tree := by
  have moved : (publishExtracted.finish faults (moveInto faults tree)).2 = .ok () →
      (publishExtracted.finish faults (moveInto faults tree)).1 = some tree := by
    intro finished
    obtain ⟨_, whole, -⟩ := bind_eq_ok.mp finished
    show (moveInto faults tree).1 = some tree
    revert whole
    unfold moveInto
    grind
  unfold publishExtracted at *
  grind

/-- A successful extraction has published the directory it unpacked and checked. -/
theorem extractEntryPackUntil_ok {parse : Bytes → Option EntryMeta} {dest : Option FileTree}
    {expected : Option ExpectedEntryBinding} {entry : ExtractedEntry}
    (done : (extractEntryPackUntil env parse faults dest members expected).2 = .ok entry) :
    ∃ state, unpackMembers env faults 0 Unpacked.start members = .ok state ∧
      verifyUnpacked parse faults expected state = .ok entry.entryMeta ∧
      (extractEntryPackUntil env parse faults dest members expected).1 = some state.tree := by
  unfold extractEntryPackUntil at done ⊢
  cases hunpack : unpackAndVerify env parse faults members expected with
  | error e =>
    rw [hunpack] at done
    cases done
  | ok result =>
    rw [hunpack] at done
    obtain ⟨⟨⟩, published, hentry⟩ := bind_eq_ok.mp done
    cases hentry
    simp only [unpackAndVerify, bind_eq_ok, pure, Except.pure, Except.ok.injEq] at hunpack
    obtain ⟨-, -, state, unpacked, m, verified, rfl⟩ := hunpack
    exact ⟨state, unpacked, verified, publishExtracted_ok published⟩

/-! ## What is published -/

/-- The file at `path` exists and has this digest. -/
def FileTree.HasDigest (env : Env) (tree : FileTree) (path : OsStr) (digest : String) : Prop :=
  ∃ bytes, tree.read? path = some bytes ∧ env.blake3 bytes = digest

/-- Every file the directory's `meta.json` declares is there with the declared
digest, and `meta.json` has the digest that was asked for. -/
structure FileTree.Verified (env : Env) (parse : Bytes → Option EntryMeta)
    (expected : Option ExpectedEntryBinding) (tree : FileTree) : Prop where
  declared : ∃ m, (tree.read? (utf8 "meta.json")).bind parse = some m ∧
    ∀ file ∈ m.files, tree.HasDigest env (utf8 file.name) file.hash
  bound : ∀ e ∈ expected, ∀ digest ∈ e.metaDigest,
    tree.HasDigest env (utf8 "meta.json") digest

/-- The name can name a file, and the last member that lands there has the digest
of the last member that is spelled like the name. -/
def Unshadowed (env : Env) (members : List Member) (path : OsStr) : Prop :=
  mustBeDir path = false ∧
    (landing members (location path)).map env.blake3 =
      (spelled members (components path)).map env.blake3

/-- A digest that was filed under a name is that of the file of the name exactly
when no other member lies over it. -/
theorem Unpacked.Reflects.hasDigest_iff (reflects : state.Reflects env members) {path : OsStr}
    {digest : String} (filed : state.computedHashes.get (components path) = some digest) :
    state.tree.HasDigest env path digest ↔ Unshadowed env members path := by
  rw [reflects.digests] at filed
  rw [Unshadowed, filed, FileTree.HasDigest, FileTree.read?, reflects.files]
  cases mustBeDir path with
  | true => simp
  | false => simp [Option.map_eq_some_iff]

/-- **What an extraction verifies.**  The published directory is what its metadata
says exactly when no member of the archive lies over a declared file, or over a
`meta.json` whose digest was asked for, under another spelling. -/
theorem extraction_verifies_iff (env : Env) (parse : Bytes → Option EntryMeta)
    (faults : ExtractFaults) (dest : Option FileTree) (members : List Member)
    (expected : Option ExpectedEntryBinding) {entry : ExtractedEntry}
    (done : (extractEntryPackUntil env parse faults dest members expected).2 = .ok entry) :
    (∃ tree, (extractEntryPackUntil env parse faults dest members expected).1 = some tree ∧
        tree.Verified env parse expected) ↔
      (∀ m ∈ deliveredMeta parse members, ∀ file ∈ m.files,
          Unshadowed env members (utf8 file.name)) ∧
        ∀ e ∈ expected, e.metaDigest.isSome → Unshadowed env members (utf8 "meta.json") := by
  obtain ⟨state, unpacked, verified, hdest⟩ := extractEntryPackUntil_ok done
  have reflects : state.Reflects env members := by
    simpa using Unpacked.reflects_start.unpackMembers unpacked
  have gate := ((verifyUnpacked_eq_ok reflects).mp verified).2
  have hdelivered := gate.delivered
  have hmeta : (state.tree.read? (utf8 "meta.json")).bind parse = some entry.entryMeta := by
    rw [read?_metaJson, reflects.files]
    exact hdelivered
  have hfiled := fun file mem => (reflects.digests _).trans (gate.contents file mem)
  have hbound := fun e mem digest asked =>
    (reflects.digests _).trans ((gate.bound e mem).2 digest asked)
  rw [hdest]
  -- either side is about the files the metadata on disk names, one by one
  constructor
  · rintro ⟨tree, same, declared, bound⟩
    cases same
    obtain ⟨m, hm, declared⟩ := declared
    rw [hmeta] at hm
    cases hm
    constructor
    · intro m hm file mem
      rw [hdelivered] at hm
      cases hm
      exact (reflects.hasDigest_iff (hfiled file mem)).mp (declared file mem)
    · intro e he asked
      obtain ⟨digest, hdigest⟩ := Option.isSome_iff_exists.mp asked
      exact (reflects.hasDigest_iff (hbound e he digest hdigest)).mp (bound e he digest hdigest)
  · rintro ⟨declared, bound⟩
    refine ⟨state.tree, rfl, ⟨entry.entryMeta, hmeta, fun file mem => ?_⟩, fun e he digest hd => ?_⟩
    · exact (reflects.hasDigest_iff (hfiled file mem)).mpr
        (declared entry.entryMeta hdelivered file mem)
    · exact (reflects.hasDigest_iff (hbound e he digest hd)).mpr
        (bound e he (Option.isSome_of_mem hd))

/-- An archive without a rooted path and without a leading `.` lies over none of
its own files. -/
theorem Unshadowed.of_plain (plain : ∀ member ∈ members, isPlain member.path = true) {path : OsStr}
    (name : OsStr) (single : components path = [.normal name]) (hname : name ≠ dotDot)
    (isFile : mustBeDir path = false) : Unshadowed env members path := by
  have hloc : location path = [name] := by
    rw [location_eq, single]
    rfl
  refine ⟨isFile, ?_⟩
  rw [landing, spelled, single, hloc, lastContent_congr fun member mem => ?_]
  rw [decide_eq_decide]
  exact (components_eq_singleton_iff (plain member mem) hname).symm

/-! ## Two archives -/

/-- The `meta.json` of an entry whose one file is `a`, in pieces. -/
def sampleMetaJson : Bytes :=
  ["\x7b\"cache_key\":\"", "00000000000000000000000000000000",
    "00000000000000000000000000000001", "\",\"key_schema\":33,",
    "\"crate_name\":\"demo\",", "\"crate_types\":[\"lib\"],", "\"files\":[\x7b\"name\":\"a\",",
    "\"size\":1,\"hash\":\"", "17762fddd969a453925d65717ac3eea2",
    "1320b66b54342fde15128d6caf21215f", "\"\x7d],\"stdout\":\"\",\"stderr\":\"\"\x7d"].flatMap utf8

/-- The digest of that text. -/
def sampleMetaDigest : String :=
  "8dbd7acf77682180411f495e90740def8b42c1ae1c0f0c1360cff079c787cda8"

/-- An environment that hashes that text and the one-byte files `a` and `b`. -/
def archiveEnv : Env :=
  { sampleEnv with
    blake3 := fun bytes =>
      if bytes = sampleMetaJson then sampleMetaDigest else sampleEnv.blake3 bytes }

/-- What that text parses to. -/
def sampleDelivered : EntryMeta where
  cacheKey := sampleKey₁
  keySchema := 33
  crateName := "demo"
  crateTypes := ["lib"]
  files := [⟨"a", 1, digestA, false⟩]
  stdout := ""
  stderr := ""
  features := []
  target := ""
  profile := ""
  compileTimeMs := 0
  emitKinds := []

/-- A parser that knows that text. -/
def sampleParse (text : Bytes) : Option EntryMeta :=
  if text = sampleMetaJson then some sampleDelivered else none

/-- A caller that asks for that entry, down to the digest of its metadata. -/
def sampleExpected : ExpectedEntryBinding := ⟨sampleKey₁, "demo", some sampleMetaDigest⟩

/-- A regular member. -/
def sampleMember (path : String) (content : Bytes) : Member :=
  ⟨utf8 path, .regular, content.length, content⟩

/-- An archive of the entry. -/
def plainArchive : List Member :=
  [sampleMember "meta.json" sampleMetaJson, sampleMember "a" [97]]

/-- The archive with one more member, `./a`. -/
def shadowingArchive : List Member := plainArchive ++ [sampleMember "./a" [98]]

/-- `extract_entry_pack_until` on a sample archive, with nothing at the destination. -/
def extractSample (members : List Member) : Option FileTree × Except ExtractError ExtractedEntry :=
  extractEntryPackUntil archiveEnv sampleParse .none none members (some sampleExpected)

/-- **A second spelling is not verified.**  The extraction succeeds and `a` holds
the bytes of `./a`, whose digest is not the declared one. -/
theorem second_spelling_published_unverified :
    (extractSample shadowingArchive).2 =
        .ok ⟨sampleMetaJson.length + 2, sampleDelivered⟩ ∧
      ¬ ∃ tree, (extractSample shadowingArchive).1 = some tree ∧
        tree.Verified archiveEnv sampleParse (some sampleExpected) := by
  -- one evaluation of the extraction answers all three
  obtain ⟨done, hread, hparse⟩ : (extractSample shadowingArchive).2 =
        .ok ⟨sampleMetaJson.length + 2, sampleDelivered⟩ ∧
      ((extractSample shadowingArchive).1.bind fun tree => tree.read? (utf8 "a")) = some [98] ∧
      ((extractSample shadowingArchive).1.bind
        fun tree => (tree.read? (utf8 "meta.json")).bind sampleParse) = some sampleDelivered := by
    decide +kernel
  refine ⟨done, ?_⟩
  rintro ⟨tree, published, ⟨m, hm, declared⟩, -⟩
  rw [published, Option.bind_some] at hread hparse
  rw [hparse] at hm
  cases hm
  obtain ⟨bytes, present, digest⟩ := declared ⟨"a", 1, digestA, false⟩ (by simp [sampleDelivered])
  rw [hread] at present
  cases present
  exact absurd digest (by decide +kernel)

/-- The archive without the second spelling. -/
theorem extraction_verifies_iff_plain :
    ∃ tree, (extractSample plainArchive).1 = some tree ∧
      tree.Verified archiveEnv sampleParse (some sampleExpected) := by
  have done : (extractSample plainArchive).2 =
      .ok ⟨sampleMetaJson.length + 1, sampleDelivered⟩ := by decide +kernel
  have plain : ∀ member ∈ plainArchive, isPlain member.path = true := by decide +kernel
  refine (extraction_verifies_iff archiveEnv sampleParse .none none plainArchive
    (some sampleExpected) done).mpr ⟨fun m hm file mem => ?_, fun _ _ _ => ?_⟩
  · have hdelivered : deliveredMeta sampleParse plainArchive = some sampleDelivered := by
      decide +kernel
    rw [hdelivered] at hm
    cases hm
    obtain rfl := List.mem_singleton.mp mem
    exact .of_plain plain (utf8 "a") (by decide) (by decide) (by decide)
  · exact .of_plain plain (utf8 "meta.json") (by decide) (by decide) (by decide)

end Kache
