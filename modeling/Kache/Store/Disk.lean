import Kache.Foundation.Transaction
import Kache.Store.Index
import Mathlib.Data.List.Sort

/-!
# The store directory

The files of a store are of two kinds: blobs, one per content address, and one
directory per cache key that holds the entry's `meta.json` and, between an
extraction and its import, the artifacts themselves.

A `meta.json` is kept as the *text* it is, because the store compares texts: two
texts that parse alike are still different files to a removal that checks that
nothing was republished.  `MetaText` records what a text parses to and its bytes;
the text the store itself writes is `written`.  A file list may name `meta.json`,
and then it is taken for an artifact like any other file of the directory.

What a digest is does not matter to any argument about the store, so `blake3`
is a field of `Env`, next to the serializer of metadata and the artifact policy
of the compiler front end.
-/

namespace Kache

/-- What the store takes from outside. -/
structure Env where
  /-- The digest of a file's bytes, in hex. -/
  blake3 : Bytes → String
  /-- `serde_json::to_string_pretty` of an entry's metadata. -/
  metaBytes : EntryMeta → Bytes
  /-- `ArtifactPolicy::allow_empty`. -/
  allowEmpty : String → List String → Bool
  /-- `ArtifactPolicy::emit_kind`. -/
  emitKind : String → Option String

/-! ## The content hash of an entry -/

/-- `u64::to_le_bytes`. -/
def toLeBytes (n : ℕ) : Bytes := (List.range 8).map fun i => UInt8.ofNat (n / 256 ^ i)

/-- `fold_field`: a field, length first. -/
def foldField (bytes : Bytes) : Bytes := toLeBytes bytes.length ++ bytes

/-- The order `compute_content_hash` sorts files by: name, then hash. -/
def contentOrder (a b : CachedFile) : Bool :=
  compare a.name b.name |>.then (compare a.hash b.hash) |>.isLE

/-- The bytes `compute_content_hash` feeds to the hasher. -/
def contentBytes (files : List CachedFile) : Bytes :=
  (files.insertionSort fun a b => contentOrder a b).flatMap fun f =>
    foldField (utf8 f.name) ++ foldField (utf8 f.hash) ++ foldField (toLeBytes f.size) ++
      foldField [if f.executable then 1 else 0]

/-- `compute_content_hash`. -/
def computeContentHash (env : Env) (files : List CachedFile) : String :=
  env.blake3 (contentBytes files)

/-- The row an entry is registered with.  Every writer derives it from the
metadata; they differ in the last three columns. -/
def entryRow (env : Env) (m : EntryMeta) (committed durable : Bool) (importedAt : Option ℕ) :
    EntryRow where
  crateName := m.crateName
  crateType := ",".intercalate m.crateTypes
  profile := m.profile
  numFeatures := m.features.length
  size := asI64 (m.files.map (·.size)).sum
  contentHash := computeContentHash env m.files
  compileTimeMs := asI64 m.compileTimeMs
  keySchema := m.keySchema
  committed := committed
  durable := durable
  importedAt := importedAt

/-! ## Files -/

/-- A `meta.json` text: what it parses to, and its bytes. -/
structure MetaText where
  parsed : Option EntryMeta
  bytes : Bytes
  deriving DecidableEq

/-- The text the store writes for `m`. -/
def MetaText.written (env : Env) (m : EntryMeta) : MetaText := ⟨some m, env.metaBytes m⟩

@[simp] theorem MetaText.parsed_written (env : Env) (m : EntryMeta) :
    (written env m).parsed = some m := rfl

/-- The directory of one cache key. -/
structure EntryDir where
  /-- The file `meta.json`. -/
  metaJson : Option MetaText
  /-- The files beside it. -/
  artifacts : String → Option Bytes

namespace EntryDir

/-- A fresh directory. -/
def empty : EntryDir := ⟨none, fun _ => none⟩

/-- The file `entry_dir.join(name)`, which may be `meta.json`. -/
def artifact? (dir : EntryDir) (name : String) : Option Bytes :=
  if name = "meta.json" then dir.metaJson.map (·.bytes) else dir.artifacts name

/-- Take the file `name` away. -/
def removeArtifact (name : String) (dir : EntryDir) : EntryDir :=
  if name = "meta.json" then { dir with metaJson := none }
  else { dir with artifacts := fun n => if n = name then none else dir.artifacts n }

/-- `meta.json` goes only when it is the file that is named. -/
theorem metaJson_removeArtifact (name : String) (dir : EntryDir) :
    (removeArtifact name dir).metaJson = dir.metaJson ∨
      name = "meta.json" ∧ (removeArtifact name dir).metaJson = none := by
  unfold removeArtifact
  split
  · next hname => exact .inr ⟨hname, rfl⟩
  · exact .inl rfl

theorem artifact?_removeArtifact_of_ne {n name : String} (hne : n ≠ name) (dir : EntryDir) :
    (removeArtifact name dir).artifact? n = dir.artifact? n := by
  by_cases hn : n = "meta.json" <;> by_cases hname : name = "meta.json" <;>
    simp_all [artifact?, removeArtifact]

end EntryDir

/-- The store directory. -/
structure Disk where
  /-- The file at `blob_path(hash)`. -/
  blobs : String → Option Bytes
  /-- The directory at `entry_dir(key)`. -/
  dirs : String → Option EntryDir

variable {disk disk' : Disk} {key : String}

namespace Disk

/-- A store directory without files. -/
def empty : Disk := ⟨fun _ => none, fun _ => none⟩

/-- The text at `entry_dir(key)/meta.json`. -/
def metaText? (disk : Disk) (key : String) : Option MetaText := (disk.dirs key).bind (·.metaJson)

/-- The metadata that text parses to. -/
def meta? (disk : Disk) (key : String) : Option EntryMeta :=
  (disk.metaText? key).bind (·.parsed)

/-- Put `bytes` at `blob_path(hash)`. -/
def setBlob (hash : String) (bytes : Bytes) (disk : Disk) : Disk :=
  { disk with blobs := fun h => if h = hash then some bytes else disk.blobs h }

/-- `unlink_blob`. -/
def unlinkBlob (hash : String) (disk : Disk) : Disk :=
  { disk with blobs := fun h => if h = hash then none else disk.blobs h }

/-- Make `dir` the directory of `key`. -/
def setDir (key : String) (dir : EntryDir) (disk : Disk) : Disk :=
  { disk with dirs := fun k => if k = key then some dir else disk.dirs k }

/-- `fs::remove_dir_all(entry_dir(key))`. -/
def removeDir (key : String) (disk : Disk) : Disk :=
  { disk with dirs := fun k => if k = key then none else disk.dirs k }

/-- `fs::create_dir_all(entry_dir(key))`. -/
def createDir (key : String) (disk : Disk) : Disk :=
  disk.setDir key ((disk.dirs key).getD .empty)

/-- Atomically replace `meta.json` in a directory that exists. -/
def replaceMeta (key : String) (text : MetaText) (disk : Disk) : Disk :=
  disk.setDir key { (disk.dirs key).getD .empty with metaJson := some text }

@[simp] theorem blobs_setBlob (hash : String) (bytes : Bytes) (disk : Disk) (h : String) :
    (setBlob hash bytes disk).blobs h = if h = hash then some bytes else disk.blobs h := rfl

@[simp] theorem dirs_setBlob (hash : String) (bytes : Bytes) (disk : Disk) :
    (setBlob hash bytes disk).dirs = disk.dirs := rfl

@[simp] theorem blobs_unlinkBlob (hash : String) (disk : Disk) (h : String) :
    (unlinkBlob hash disk).blobs h = if h = hash then none else disk.blobs h := rfl

@[simp] theorem dirs_unlinkBlob (hash : String) (disk : Disk) :
    (unlinkBlob hash disk).dirs = disk.dirs := rfl

@[simp] theorem blobs_setDir (key : String) (dir : EntryDir) (disk : Disk) :
    (setDir key dir disk).blobs = disk.blobs := rfl

@[simp] theorem dirs_setDir (key : String) (dir : EntryDir) (disk : Disk) (k : String) :
    (setDir key dir disk).dirs k = if k = key then some dir else disk.dirs k := rfl

@[simp] theorem blobs_removeDir (key : String) (disk : Disk) :
    (removeDir key disk).blobs = disk.blobs := rfl

@[simp] theorem dirs_removeDir (key : String) (disk : Disk) (k : String) :
    (removeDir key disk).dirs k = if k = key then none else disk.dirs k := rfl

@[simp] theorem blobs_createDir (key : String) (disk : Disk) :
    (createDir key disk).blobs = disk.blobs := rfl

@[simp] theorem blobs_replaceMeta (key : String) (text : MetaText) (disk : Disk) :
    (replaceMeta key text disk).blobs = disk.blobs := rfl

theorem metaText?_congr (dirs : disk'.dirs = disk.dirs) :
    disk'.metaText? = disk.metaText? := by
  funext key
  rw [metaText?, metaText?, dirs]

theorem meta?_congr (text : disk'.metaText? key = disk.metaText? key) :
    disk'.meta? key = disk.meta? key := by
  rw [meta?, meta?, text]

theorem metaText?_setDir (key : String) (dir : EntryDir) (disk : Disk) (k : String) :
    (setDir key dir disk).metaText? k = if k = key then dir.metaJson else disk.metaText? k := by
  by_cases hk : k = key <;> simp [metaText?, hk]

theorem metaText?_removeDir (key : String) (disk : Disk) (k : String) :
    (removeDir key disk).metaText? k = if k = key then none else disk.metaText? k := by
  by_cases hk : k = key <;> simp [metaText?, hk]

theorem metaText?_createDir (key : String) (disk : Disk) :
    (createDir key disk).metaText? = disk.metaText? := by
  funext k
  rw [createDir, metaText?_setDir]
  by_cases hk : k = key
  · subst hk
    rw [if_pos rfl, metaText?]
    cases disk.dirs k <;> rfl
  · rw [if_neg hk]

theorem metaText?_replaceMeta (key : String) (text : MetaText) (disk : Disk) (k : String) :
    (replaceMeta key text disk).metaText? k = if k = key then some text else disk.metaText? k := by
  rw [replaceMeta, metaText?_setDir]

theorem meta?_eq_of_text {text : MetaText} {m : EntryMeta}
    (present : disk.metaText? key = some text) (parses : text.parsed = some m) :
    disk.meta? key = some m := by
  rw [meta?, present, Option.bind_some, parses]

/-- The blobs on disk after one more was put there. -/
theorem isSome_blobs_setBlob (hash : String) (bytes : Bytes) (disk : Disk) :
    (fun h => ((disk.setBlob hash bytes).blobs h).isSome)
      = fun h => h == hash || (disk.blobs h).isSome := by
  funext h
  by_cases hh : h = hash <;> simp [hh]

/-- A file leaves the directory of `key`; its `meta.json` goes only when it is named. -/
theorem texts_removeArtifact {dir : EntryDir} (present : disk.dirs key = some dir) {name : String}
    {lost : Set String} (taken : name = "meta.json" → key ∈ lost) (k : String) :
    (disk.setDir key (dir.removeArtifact name)).metaText? k = disk.metaText? k ∨
      k ∈ lost ∧ (disk.setDir key (dir.removeArtifact name)).metaText? k = none := by
  rw [metaText?_setDir]
  by_cases hk : k = key
  · rw [if_pos hk, hk, metaText?, present]
    exact (dir.metaJson_removeArtifact name).imp_right fun gone => ⟨taken gone.1, gone.2⟩
  · exact .inl (if_neg hk)

/-- What has metadata has a directory. -/
theorem isSome_dir_of_meta? {m : EntryMeta} (present : disk.meta? key = some m) :
    (disk.dirs key).isSome := by
  simp only [meta?, metaText?, Option.bind_eq_some_iff] at present
  obtain ⟨text, ⟨dir, hdir, -⟩, -⟩ := present
  rw [hdir]
  rfl

/-! ## Growing -/

/-- Blobs were only added, and every `meta.json` is as before, or it was the one
of a key in `lost` and is gone. -/
structure Grows (lost : Set String) (before after : Disk) : Prop where
  texts : ∀ k, after.metaText? k = before.metaText? k ∨ k ∈ lost ∧ after.metaText? k = none
  blobs : ∀ h bytes, before.blobs h = some bytes → after.blobs h = some bytes

variable {lost : Set String}

theorem Grows.refl (disk : Disk) : Grows lost disk disk :=
  ⟨fun _ => .inl rfl, fun _ _ present => present⟩

theorem Grows.trans {first second third : Disk} (left : Grows lost first second)
    (right : Grows lost second third) : Grows lost first third where
  texts := by
    intro k
    rcases right.texts k with hsame | hgone
    · rw [hsame]
      exact left.texts k
    · exact .inr hgone
  blobs := fun h bytes present => right.blobs h bytes (left.blobs h bytes present)

theorem Grows.mono {lost' : Set String} (grows : Grows lost disk disk') (more : lost ⊆ lost') :
    Grows lost' disk disk' :=
  ⟨fun k => (grows.texts k).imp_right fun gone => ⟨more gone.1, gone.2⟩, grows.blobs⟩

/-- A blob written where none was. -/
theorem Grows.of_missing {hash : String} (bytes : Bytes) (missing : disk.blobs hash = none)
    (texts : ∀ k, disk'.metaText? k = disk.metaText? k ∨ k ∈ lost ∧ disk'.metaText? k = none)
    (blobs : disk'.blobs = (disk.setBlob hash bytes).blobs) : Grows lost disk disk' where
  texts := texts
  blobs := by
    intro h bytes' present
    have hne : h ≠ hash := by
      rintro rfl
      rw [missing] at present
      simp at present
    rw [blobs, blobs_setBlob, if_neg hne, present]

theorem Grows.setBlob {hash : String} (missing : disk.blobs hash = none) (bytes : Bytes) :
    Grows lost disk (disk.setBlob hash bytes) :=
  .of_missing bytes missing (fun _ => .inl rfl) rfl

theorem Grows.isSome {before after : Disk} (grows : Grows lost before after) {h : String}
    (present : (before.blobs h).isSome) : (after.blobs h).isSome := by
  obtain ⟨bytes, hbytes⟩ := Option.isSome_iff_exists.mp present
  exact Option.isSome_iff_exists.mpr ⟨bytes, grows.blobs h bytes hbytes⟩

theorem Grows.metaText?_of_notMem (grows : Grows lost disk disk') (kept : key ∉ lost) :
    disk'.metaText? key = disk.metaText? key :=
  (grows.texts key).resolve_right fun gone => kept gone.1

theorem Grows.metaText? (grows : Grows ∅ disk disk') (key : String) :
    disk'.metaText? key = disk.metaText? key :=
  grows.metaText?_of_notMem (Set.notMem_empty key)

end Disk

/-! ## Stores -/

/-- A store: the index database and the files it describes. -/
structure Store where
  index : Index
  disk : Disk

/-- A store that was just created. -/
def Store.empty : Store := ⟨.empty, .empty⟩

/-- Run a transaction script against a store. -/
def Store.commit (script : List (Stmt Index Disk)) (s : Store) : Store :=
  let settled := Stmt.commit script s.index s.disk
  ⟨settled.1, settled.2⟩

/-- What a transaction leaves when it stops after `n` statements. -/
def Store.interrupted (n : ℕ) (script : List (Stmt Index Disk)) (s : Store) : Store :=
  let settled := Stmt.interrupted n script s.index s.disk
  ⟨settled.1, settled.2⟩

/-! ## Materializing blobs inside a transaction

Both publishers of single entries run the same loop: take a reference for a
file, then make sure its blob is there.  They differ in where a missing blob
comes from, and that statement is the parameter. -/

/-- A statement that makes sure the blob `hash` is there.  It leaves the index
alone and adds at most missing blobs, also when it fails. -/
structure Materializes (lost : Set String) (hash : String) (stmt : Stmt Index Disk) : Prop where
  grows : ∀ (idx : Index) (disk : Disk), disk.Grows lost (stmt idx disk).files
  ok : ∀ {idx idx' : Index} {disk disk' : Disk}, stmt idx disk = .ok idx' disk' →
    idx' = idx ∧ (disk'.blobs hash).isSome

/-- One reference and one materialization per file. -/
def referenceFiles : (ℕ → CachedFile → Stmt Index Disk) → List CachedFile → List (Stmt Index Disk)
  | _, [] => []
  | materialize, file :: rest =>
    .sql (Index.takeBlobRef file) :: materialize 0 file ::
      referenceFiles (fun i => materialize (i + 1)) rest

section ReferenceFiles

variable {lost : Set String} {files : List CachedFile}
  {materialize : ℕ → CachedFile → Stmt Index Disk}

/-- The loop only adds blobs, however it ends. -/
theorem referenceFiles_grows (spec : ∀ i, ∀ f ∈ files, Materializes lost f.hash (materialize i f))
    (idx : Index) (disk : Disk) :
    disk.Grows lost (Stmt.exec (referenceFiles materialize files) idx disk).files := by
  induction files generalizing materialize idx disk with
  | nil => exact .refl _
  | cons file rest ih =>
    have hhead := (spec 0 file List.mem_cons_self).grows (Index.takeBlobRef file idx) disk
    rw [referenceFiles, Stmt.exec_sql_cons, Stmt.exec_cons]
    cases hstmt : materialize 0 file (Index.takeBlobRef file idx) disk with
    | ok idx' disk' =>
      rw [hstmt] at hhead
      exact hhead.trans
        (ih (fun i => (List.forall_mem_cons.mp (spec (i + 1))).2) idx' disk')
    | failed disk' =>
      rw [hstmt] at hhead
      exact hhead

/-- When the loop succeeds it took one reference per file, and every listed blob
is there. -/
theorem referenceFiles_ok (spec : ∀ i, ∀ f ∈ files, Materializes lost f.hash (materialize i f))
    {idx idx' : Index}
    (done : Stmt.exec (referenceFiles materialize files) idx disk = .ok idx' disk') :
    idx' = Index.takeBlobRefs files idx ∧ ∀ f ∈ files, (disk'.blobs f.hash).isSome := by
  induction files generalizing materialize idx disk with
  | nil =>
    cases done
    exact ⟨rfl, by simp⟩
  | cons file rest ih =>
    have hspec := fun i => (List.forall_mem_cons.mp (spec (i + 1))).2
    rw [referenceFiles, Stmt.exec_sql_cons] at done
    obtain ⟨idx₁, disk₁, hstmt, done⟩ := Outcome.andThen_eq_ok.mp done
    obtain ⟨rfl, hblob⟩ := (spec 0 file List.mem_cons_self).ok hstmt
    obtain ⟨hidx, hblobs⟩ := ih hspec done
    have hgrows := referenceFiles_grows hspec (Index.takeBlobRef file idx) disk₁
    rw [done] at hgrows
    exact ⟨hidx, List.forall_mem_cons.mpr ⟨hgrows.isSome hblob, hblobs⟩⟩

end ReferenceFiles

end Kache
