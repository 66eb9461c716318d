import Kache.Foundation.Run
import Kache.Foundation.Table
import Kache.Memo.Preprocess
import Kache.TargetDedup.Walk

/-!
# A pass over target files

`one_pass` takes the files of a slice one after the other (`consider`), target by target.  A file
whose stamp the file-hash memo knows has its content at once.  Any other is put through a pipeline:
its stamp may have been rejected before, no blob may have its length, none of those may be on its
volume, their first and last blocks may differ; only then it is hashed.  A file with the content of
a blob is replaced by a clone of the blob under the lock of a Cargo profile directory
(`account_match`, `replace_with`).

A pass is a process that reads the file system at several moments, so it is modelled by the places
it comes to between two reads (`Place`); builds and the store act in between (`Action`).  The hash
of a file is such a stretch of reads itself: `hash_file` reads the file piece by piece through one
handle, without a lock.  What the pass cannot decide by itself is part of the action: whether the
memo answers, which blobs can be read, how much a read returns, how many private blocks a file has.
A slice may stop at either of its limits, and any read may fail.
-/

namespace Kache.TargetDedup

open UnixPath
open Memo (FileFingerprint)

/-- `BLOCK`. -/
def block : ℕ := 4096

/-- `MAX_BLOBS_PER_SIZE`. -/
def maxBlobsPerSize : ℕ := 8

/-- The content hash, and the bytes of the blob that a hash names. -/
structure Hashing (H : Type) where
  hashOf : Bytes → H
  content : H → Bytes
  content_hashOf : ∀ bytes, content (hashOf bytes) = bytes

/-- `Ends`. -/
structure Ends where
  head : Bytes
  tail : Bytes
  deriving DecidableEq

/-- `read_ends`, which refuses a file shorter than a block. -/
def readEnds (bytes : Bytes) : Option Ends :=
  if bytes.length < block then none else some ⟨bytes.take block, bytes.drop (bytes.length - block)⟩

/-- `ends_match`. -/
def endsMatch (file blob : Ends) : Bool := file.head = blob.head && file.tail = blob.tail

/-- A regular file and the volume it is on. -/
structure TargetFile extends Memo.File where
  device : Option ℕ

/-- `FileFingerprint::from_path`. -/
def TargetFile.stamp (path : String) (file : TargetFile) : FileFingerprint :=
  FileFingerprint.fromMetadata path file.toFile

/-- The clone that replaces a file keeps its modification time and is on its volume. -/
def TargetFile.cloned (file : TargetFile) (bytes : Bytes) (ctime inode : ℕ) : TargetFile :=
  { file with bytes := bytes, ctime := ctime, inode := inode }

/-- `same_volume`. -/
def sameVolume : Option ℕ → Option ℕ → Bool
  | some left, some right => left = right
  | _, _ => false

/-- `profile_dir`: the directory whose `.cargo-lock` is taken for a file. -/
def profileDir (target file : OsStr) : Option OsStr := do
  let dir ← parent file
  let profile ← if fileName dir = some (utf8 "deps") then parent dir else some dir
  if components target <+: components profile then some profile else none

/-! ## The blobs by length -/

/-- `Blob`; its path is the one of its hash. -/
structure Blob (H : Type) where
  hash : H
  device : Option ℕ

/-- `SizeClass`. -/
inductive SizeClass (H : Type) where
  | few (blobs : List (Blob H))
  | many

/-- `BlobIndex`. -/
abbrev BlobIndex (H : Type) := ℕ → Option (SizeClass H)

/-- What `push_blob` makes of a class. -/
def SizeClass.push {H : Type} (blob : Blob H) : SizeClass H → SizeClass H
  | .many => .many
  | .few list => if list.length < maxBlobsPerSize then .few (list ++ [blob]) else .many

/-- `push_blob`. -/
def pushBlob {H : Type} (bySize : BlobIndex H) (size : ℕ) (blob : Blob H) : BlobIndex H :=
  Function.update bySize size (some (((bySize size).getD (.few [])).push blob))

/-- `load_index`, from the rows of the store's index and the volume of its blobs.  The size of a row
is taken to be the length of its blob, and the directory of the blobs to be there; without it the
source has an empty index. -/
def loadIndex {H : Type} (hashing : Hashing H) (device : Option ℕ) (rows : List H) : BlobIndex H :=
  (rows.filter fun hash => minBytes ≤ (hashing.content hash).length).foldl
    (fun bySize hash => pushBlob bySize (hashing.content hash).length ⟨hash, device⟩) fun _ => none

/-! ## The pass and what goes on around it -/

/-- Where a pass is. -/
inductive Place (H : Type) where
  /-- Between two files. -/
  | between
  /-- The stamp is taken; `seen` are the bytes that the file had at that moment. -/
  | stamped (path : String) (stamp : FileFingerprint) (len : ℕ) (device : Option ℕ) (seen : Bytes)
  /-- The memo does not know the stamp. -/
  | unknown (path : String) (stamp : FileFingerprint) (len : ℕ) (device : Option ℕ)
  /-- There are blobs of the length on the volume. -/
  | comparing (path : String) (stamp : FileFingerprint) (device : Option ℕ) (blobs : List (Blob H))
  /-- The ends match those of a blob. -/
  | alike (path : String)
  /-- `hash_file` has a handle of the file and has read some of it. -/
  | hashing (path : String) (inode : ℕ) (read : Bytes)
  /-- The content is that of a blob, by its hash. -/
  | matched (path : String) (hash : H)
  /-- The lock of the profile directory is held. -/
  | locked (path : String) (hash : H)
  /-- Length and ends have been compared, and the clone is in place beside the file. -/
  | checked (path : String) (hash : H)

/-- `one_pass` under way. -/
structure Pass (H : Type) where
  index : BlobIndex H
  /-- The target of the file it is about. -/
  root : OsStr
  place : Place H

/-- Who holds the lock of a profile directory. -/
inductive Holder where
  | pass
  | build (id : ℕ)
  deriving DecidableEq

structure State (H : Type) where
  files : String → Option TargetFile
  /-- The table of blobs of the store's index, and the volume of its blobs. -/
  rows : List H
  device : Option ℕ
  /-- The table `reject`; the stage of a row is never read. -/
  rejects : List FileFingerprint
  locks : Table (List Component) Holder
  pass : Option (Pass H)

inductive Action (H : Type) where
  | begin
  | consider (root : OsStr) (path : String)
  /-- The memo knows the stamp; whether the store has the blob. -/
  | remembered (present : Bool)
  | unremembered
  | look
  /-- The ends are read, of the blobs only those that can be. -/
  | compare (readable : H → Bool)
  | openFile
  | readChunk (chunk : Bytes)
  /-- A read returns nothing more; whether the store has the blob. -/
  | hash (present : Bool)
  | account (privateBytes : ℕ)
  | check
  /-- The clone is a new inode. -/
  | rename (ctime inode : ℕ)
  /-- A read or the clone fails. -/
  | abandon
  /-- The slice is over, at its end or at a limit. -/
  | finish
  | lock (build : ℕ) (profile : OsStr)
  | unlock (build : ℕ) (profile : OsStr)
  /-- A build writes or removes a file below a profile directory that it has locked. -/
  | write (build : ℕ) (profile : OsStr) (path : String) (file : Option TargetFile)
  /-- A file is changed or removed, by whomever. -/
  | change (path : String) (file : Option TargetFile)
  | gain (hash : H)
  | lose (hash : H)

/-- A directory `target/<profile>` or `target/<triple>/<profile>`. -/
def IsProfile (root profile : OsStr) : Prop :=
  components root <+: components profile ∧
    ((components profile).length = (components root).length + 1 ∨
      (components profile).length = (components root).length + 2)

instance (root profile : OsStr) : Decidable (IsProfile root profile) :=
  inferInstanceAs (Decidable (_ ∧ _))

/-- A path below a directory, at any depth. -/
def Inside (dir path : OsStr) : Prop :=
  components dir <+: components path ∧ components dir ≠ components path

instance (dir path : OsStr) : Decidable (Inside dir path) := inferInstanceAs (Decidable (_ ∧ _))

section Step

variable {H : Type} (hashing : Hashing H) (roots : List OsStr)

namespace State

def goTo (s : State H) (pass : Pass H) (place : Place H) : State H :=
  { s with pass := some { pass with place := place } }

def reject (s : State H) (stamp : FileFingerprint) : State H :=
  { s with rejects := stamp :: s.rejects }

def putFile (s : State H) (path : String) (file : Option TargetFile) : State H :=
  { s with files := Function.update s.files path file }

/-- `another_build_holds`: a lock of somebody else, on a directory at most three below the root. -/
def anotherBuildHolds (s : State H) (root : OsStr) : Bool :=
  decide (∃ dir ∈ s.locks.keys, components root <+: dir ∧
    dir.length ≤ (components root).length + 3 ∧ s.locks.get dir ≠ some .pass)

/-- What is left to read of a file, for a handle that has read some of it.  When the path has
another file by now, the handle has the old one, and what that holds is not kept track of. -/
def left (s : State H) (path : String) (inode : ℕ) (read : Bytes) : Option Bytes :=
  match s.files path with
  | some file => if file.inode = inode then some (file.bytes.drop read.length) else none
  | none => none

end State

/-- The loop of `consider` over the blobs of a length: whether one matched and whether any was
compared. -/
def compareEnds (readable : H → Bool) (device : Option ℕ) (fileEnds : Ends) :
    List (Blob H) → Bool → Bool × Bool
  | [], compared => (false, compared)
  | blob :: rest, compared =>
    if sameVolume blob.device device = false then
      compareEnds readable device fileEnds rest compared
    else
      match if readable blob.hash then readEnds (hashing.content blob.hash) else none with
      | none => compareEnds readable device fileEnds rest compared
      | some blobEnds =>
        if endsMatch fileEnds blobEnds then (true, true)
        else compareEnds readable device fileEnds rest true

/-- One action of a pass. -/
def stepPass (s : State H) (pass : Pass H) : Action H → Option (State H)
  | .consider root path =>
    match pass.place, s.files path with
    | .between, some file =>
      if !roots.contains root then none
      else if candidate (relativeTo root (utf8 path)) file.bytes.length then
        some (s.goTo { pass with root := root }
          (.stamped path (file.stamp path) file.bytes.length file.device file.bytes))
      else some s
    | _, _ => none
  | .remembered present =>
    match pass.place with
    -- the memo is right: it answers with the content that the file had with this stamp
    | .stamped path _ _ _ seen =>
      some (s.goTo pass (if present then .matched path (hashing.hashOf seen) else .between))
    | _ => none
  | .unremembered =>
    match pass.place with
    | .stamped path stamp len device _ => some (s.goTo pass (.unknown path stamp len device))
    | _ => none
  | .look =>
    match pass.place with
    | .unknown path stamp len device =>
      if stamp ∈ s.rejects then some (s.goTo pass .between)
      else
        match pass.index len with
        | none => some ((s.reject stamp).goTo pass .between)
        | some .many => some (s.goTo pass .between)
        | some (.few blobs) =>
          if blobs.all fun blob => !sameVolume blob.device device then
            some ((s.reject stamp).goTo pass .between)
          else some (s.goTo pass (.comparing path stamp device blobs))
    | _ => none
  | .compare readable =>
    match pass.place with
    | .comparing path stamp device blobs =>
      match (s.files path).bind fun file => readEnds file.bytes with
      | none => some (s.goTo pass .between)
      | some fileEnds =>
        match compareEnds hashing readable device fileEnds blobs false with
        | (true, _) => some (s.goTo pass (.alike path))
        | (false, true) => some ((s.reject stamp).goTo pass .between)
        | (false, false) => some (s.goTo pass .between)
    | _ => none
  | .openFile =>
    match pass.place with
    | .alike path =>
      match s.files path with
      | none => some (s.goTo pass .between)
      | some file => some (s.goTo pass (.hashing path file.inode []))
    | _ => none
  | .readChunk chunk =>
    match pass.place with
    | .hashing path inode read =>
      if ∀ rest ∈ s.left path inode read, chunk <+: rest then
        some (s.goTo pass (.hashing path inode (read ++ chunk)))
      else none
    | _ => none
  | .hash present =>
    match pass.place with
    | .hashing path inode read =>
      if ∀ rest ∈ s.left path inode read, rest = [] then
        some (s.goTo pass (if present then .matched path (hashing.hashOf read) else .between))
      else none
    | _ => none
  | .account privateBytes =>
    match pass.place with
    | .matched path hash =>
      if privateBytes = 0 then some (s.goTo pass .between)
      else if sameVolume s.device ((s.files path).bind (·.device)) = false ∨
          s.anotherBuildHolds pass.root then
        some (s.goTo pass .between)
      else
        match profileDir pass.root (utf8 path) with
        | none => some (s.goTo pass .between)
        | some profile =>
          match s.locks.get (components profile) with
          | some (.build _) => some (s.goTo pass .between)
          | some .pass => some (s.goTo pass (.locked path hash))
          | none =>
            some ({ s with locks := s.locks.set (components profile) .pass }.goTo pass
              (.locked path hash))
    | _ => none
  | .check =>
    match pass.place with
    | .locked path hash =>
      match s.files path with
      | none => some (s.goTo pass .between)
      | some file =>
        if file.bytes.length = (hashing.content hash).length ∧ (readEnds file.bytes).isSome ∧
            readEnds file.bytes = readEnds (hashing.content hash) then
          some (s.goTo pass (.checked path hash))
        else some (s.goTo pass .between)
    | _ => none
  | .rename ctime inode =>
    match pass.place with
    | .checked path hash =>
      match s.files path with
      | none => some (s.goTo pass .between)
      | some file =>
        some ((s.putFile path
          (some (file.cloned (hashing.content hash) ctime inode))).goTo pass .between)
    | _ => none
  | .abandon => some (s.goTo pass .between)
  | .finish =>
    some { s with pass := none, locks := s.locks.deleteWhere fun _ holder => holder = .pass }
  | _ => none

/-- One action of the pass, of a build, or of the store. -/
def step [DecidableEq H] (s : State H) : Action H → Option (State H)
  | .begin =>
    match s.pass with
    | none => some { s with pass := some ⟨loadIndex hashing s.device s.rows, [], .between⟩ }
    | some _ => none
  | .lock build profile =>
    match s.locks.get (components profile) with
    | none => some { s with locks := s.locks.set (components profile) (.build build) }
    | some _ => none
  | .unlock build profile =>
    if s.locks.get (components profile) = some (.build build) then
      some { s with locks := s.locks.deleteWhere fun dir _ => dir = components profile }
    else none
  | .write build profile path file =>
    if (∃ root ∈ roots, IsProfile root profile) ∧ Inside profile (utf8 path) ∧
        s.locks.get (components profile) = some (.build build) then some (s.putFile path file)
    else none
  | .change path file => some (s.putFile path file)
  | .gain hash => if hash ∈ s.rows then none else some { s with rows := s.rows ++ [hash] }
  | .lose hash => some { s with rows := s.rows.filter (· ≠ hash) }
  | action => s.pass.bind fun pass => stepPass hashing roots s pass action

/-! ## What an action changes -/

variable {hashing roots} {s s' : State H}

/-- The file that an action puts at a path. -/
def State.puts (hashing : Hashing H) (s : State H) : Action H → Option (String × Option TargetFile)
  | .write _ _ path file => some (path, file)
  | .change path file => some (path, file)
  | .rename ctime inode =>
    match s.pass with
    | some ⟨_, _, .checked path hash⟩ =>
      (s.files path).map fun file =>
        (path, some (file.cloned (hashing.content hash) ctime inode))
    | _ => none
  | _ => none

@[simp] theorem putFile_files (path : String) (file : Option TargetFile) :
    (s.putFile path file).files = Function.update s.files path file := rfl

/-- What an action of a pass does to the state: it leads to a place, where it may have rejected the
stamp of the file, taken a lock or put a clone, or it ends the pass. -/
inductive Moved (hashing : Hashing H) (s : State H) (pass : Pass H) : Action H → State H → Prop
  | stay {action} : Moved hashing s pass action s
  | back {action} : Moved hashing s pass action (s.goTo pass .between)
  | stamped {action root path file} (there : s.files path = some file) :
      Moved hashing s pass action (s.goTo { pass with root := root }
        (.stamped path (file.stamp path) file.bytes.length file.device file.bytes))
  | remembered {action path stamp len device seen}
      (was : pass.place = .stamped path stamp len device seen) :
      Moved hashing s pass action (s.goTo pass (.matched path (hashing.hashOf seen)))
  | unknown {action path stamp len device seen}
      (was : pass.place = .stamped path stamp len device seen) :
      Moved hashing s pass action (s.goTo pass (.unknown path stamp len device))
  | noLength {action path stamp len device} (was : pass.place = .unknown path stamp len device)
      (none : pass.index len = none) :
      Moved hashing s pass action ((s.reject stamp).goTo pass .between)
  | noVolume {action path stamp len device blobs}
      (was : pass.place = .unknown path stamp len device)
      (few : pass.index len = some (.few blobs))
      (apart : ∀ blob ∈ blobs, sameVolume blob.device device = false) :
      Moved hashing s pass action ((s.reject stamp).goTo pass .between)
  | comparing {action path stamp len device blobs}
      (was : pass.place = .unknown path stamp len device)
      (few : pass.index len = some (.few blobs)) :
      Moved hashing s pass action (s.goTo pass (.comparing path stamp device blobs))
  | noEnds {path stamp device blobs file fileEnds readable}
      (was : pass.place = .comparing path stamp device blobs) (there : s.files path = some file)
      (ends : readEnds file.bytes = some fileEnds)
      (unlike : compareEnds hashing readable device fileEnds blobs false = (false, true)) :
      Moved hashing s pass (.compare readable) ((s.reject stamp).goTo pass .between)
  | alike {action path stamp device blobs}
      (was : pass.place = .comparing path stamp device blobs) :
      Moved hashing s pass action (s.goTo pass (.alike path))
  | opened {action path file} (was : pass.place = .alike path)
      (there : s.files path = some file) :
      Moved hashing s pass action (s.goTo pass (.hashing path file.inode []))
  | read {action path inode read chunk} (was : pass.place = .hashing path inode read)
      (next : ∀ rest ∈ s.left path inode read, chunk <+: rest) :
      Moved hashing s pass action (s.goTo pass (.hashing path inode (read ++ chunk)))
  | hashed {action path inode read} (was : pass.place = .hashing path inode read)
      (done : ∀ rest ∈ s.left path inode read, rest = []) :
      Moved hashing s pass action (s.goTo pass (.matched path (hashing.hashOf read)))
  | held {action path hash profile} (was : pass.place = .matched path hash)
      (covers : profileDir pass.root (utf8 path) = some profile)
      (holds : s.locks.get (components profile) = some .pass) :
      Moved hashing s pass action (s.goTo pass (.locked path hash))
  | took {action path hash profile} (was : pass.place = .matched path hash)
      (covers : profileDir pass.root (utf8 path) = some profile)
      (free : s.locks.get (components profile) = none) :
      Moved hashing s pass action
        ({ s with locks := s.locks.set (components profile) .pass }.goTo pass (.locked path hash))
  | checked {action path hash file} (was : pass.place = .locked path hash)
      (there : s.files path = some file)
      (ends : readEnds file.bytes = readEnds (hashing.content hash)) :
      Moved hashing s pass action (s.goTo pass (.checked path hash))
  | renamed {path hash file ctime inode} (was : pass.place = .checked path hash)
      (there : s.files path = some file) :
      Moved hashing s pass (.rename ctime inode) ((s.putFile path (some (file.cloned
        (hashing.content hash) ctime inode))).goTo pass .between)
  | finished {action} : Moved hashing s pass action
      { s with pass := none, locks := s.locks.deleteWhere fun _ holder => holder = .pass }

theorem moved_of_stepPass {pass : Pass H} {action : Action H}
    (taken : stepPass hashing roots s pass action = some s') :
    Moved hashing s pass action s' := by
  cases action with
  | look =>
    simp only [stepPass, List.all_eq_true, Bool.not_eq_true'] at taken
    grind [Moved]
  | compare readable =>
    simp only [stepPass] at taken
    grind [Moved, Option.bind_eq_some_iff]
  -- every other action leads to one place, or back
  | _ =>
    simp only [stepPass] at taken
    grind [Moved]

theorem step_consider [DecidableEq H] {pass : Pass H} {root : OsStr} {path : String}
    {file : TargetFile} (under : s.pass = some pass) (between : pass.place = .between)
    (mem : root ∈ roots) (there : s.files path = some file)
    (fits : candidate (relativeTo root (utf8 path)) file.bytes.length = true) :
    step hashing roots s (.consider root path) = some (s.goTo { pass with root := root }
      (.stamped path (file.stamp path) file.bytes.length file.device file.bytes)) := by
  simp [step, stepPass, under, between, mem, there, fits]

end Step

/-! ## A target with one library -/

/-- The hash that is the content itself. -/
def plain : Hashing Bytes := ⟨id, id, fun _ => rfl⟩

/-- 64 KiB of one byte. -/
@[irreducible] def filling (byte : UInt8) : Bytes := List.replicate minBytes byte

def filled (byte : UInt8) : TargetFile where
  bytes := filling byte
  mtime := 1
  ctime := 1
  inode := 1
  device := some 1

theorem length_filled (byte : UInt8) : (filled byte).bytes.length = minBytes := by
  unfold filled filling
  exact List.length_replicate

theorem readEnds_filled (byte : UInt8) :
    readEnds (filled byte).bytes = some ⟨List.replicate block byte, List.replicate block byte⟩ := by
  have large : block ≤ minBytes := by decide
  unfold readEnds
  rw [length_filled, if_neg (by omega)]
  unfold filled filling
  rw [List.take_replicate, List.drop_replicate, min_eq_left large, Nat.sub_sub_self large]

def target : OsStr := utf8 "/t"

def library : String := "/t/debug/deps/libx.rlib"

/-- A target with one library of zeros, and a store with the given blobs. -/
def oneLibrary (rows : List Bytes) : State Bytes where
  files path := if path = library then some (filled 0) else none
  rows := rows
  device := some 1
  rejects := []
  locks := .empty
  pass := none

theorem library_fits :
    candidate (relativeTo target (utf8 library)) (filled 0).bytes.length = true := by
  rw [length_filled]
  decide +kernel

theorem library_there (rows : List Bytes) : (oneLibrary rows).files library = some (filled 0) := by
  simp [oneLibrary]

/-- A pass that begins where the library is, and stamps it. -/
theorem reaches_stamped {allowed : State Bytes → Action Bytes → Prop} {s₀ s : State Bytes}
    (run : Reaches allowed (step plain [target]) s₀ s) (idle : s.pass = none)
    (there : s.files library = some (filled 0)) (begins : allowed s .begin)
    (considers : ∀ s, allowed s (.consider target library)) :
    Reaches allowed (step plain [target]) s₀
      (s.goTo ⟨loadIndex plain s.device s.rows, target, .between⟩
        (.stamped library ((filled 0).stamp library) (filled 0).bytes.length (filled 0).device
          (filled 0).bytes)) := by
  have begun : step plain [target] s .begin =
      some (s.goTo ⟨loadIndex plain s.device s.rows, [], .between⟩ .between) := by
    simp [step, idle, State.goTo]
  exact (run.tail begins begun).tail (considers _)
    (step_consider (s := s.goTo _ _) rfl rfl List.mem_cons_self there library_fits)

end Kache.TargetDedup
