import Kache.TargetDedup.Consider

/-!
# Files remembered as different

A stamp that was rejected once is skipped in every later pass, against whatever blobs the store has
then.  Between passes the store gains and loses blobs and files change, a change of content always
changing the stamp; does a skipped file differ from every blob it is compared with?

It does as long as the rejection stays right (`Lasting`): the store gains no blob of the length of a
rejected file, a file gets no rejected stamp it did not have, and of the blobs that a file is
compared with either all or none can be read (`skipped_files_differ`).  The store does gain blobs
(`gained_blob_skipped`): a length that no blob had is one more build away from being that of a blob.
-/

namespace Kache.TargetDedup

open UnixPath
open Memo (FileFingerprint i64Max)

variable {H : Type} {hashing : Hashing H} {roots : List OsStr}
  {bytesOf : FileFingerprint → Bytes}

/-! ## The index of a pass -/

/-- The class of a length with the given blobs. -/
def classOf (blobs : List (Blob H)) : Option (SizeClass H) :=
  if blobs = [] then none else if blobs.length ≤ maxBlobsPerSize then some (.few blobs)
    else some .many

theorem classOf_concat (blobs : List (Blob H)) (blob : Blob H) :
    classOf (blobs ++ [blob]) = some (((classOf blobs).getD (.few [])).push blob) := by
  unfold classOf
  rw [if_neg (by simp), List.length_append, List.length_singleton]
  by_cases none : blobs = []
  · subst none
    simp [SizeClass.push, maxBlobsPerSize]
  · rw [if_neg none]
    by_cases few : blobs.length ≤ maxBlobsPerSize
    · rw [if_pos few, Option.getD_some, SizeClass.push]
      split
      · rw [if_pos (by omega)]
      · rw [if_neg (by omega)]
    · rw [if_neg few, if_neg (by omega)]
      rfl

theorem foldl_pushBlob (hashing : Hashing H) (device : Option ℕ) (rows : List H) (size : ℕ) :
    rows.foldl (fun bySize hash => pushBlob bySize (hashing.content hash).length ⟨hash, device⟩)
        (fun _ => none) size =
      classOf
        ((rows.filter fun hash => (hashing.content hash).length = size).map (⟨·, device⟩)) := by
  induction rows using List.reverseRecOn with
  | nil => rfl
  | append_singleton rows hash ih =>
    rw [List.foldl_concat, pushBlob, List.filter_append, List.map_append]
    by_cases same : (hashing.content hash).length = size
    · subst same
      rw [Function.update_self, ih, List.filter_cons_of_pos (by simp), List.filter_nil,
        List.map_singleton, classOf_concat]
    · rw [Function.update_of_ne (Ne.symm same), ih, List.filter_cons_of_neg (by simpa using same)]
      simp

/-- The blobs of a length that the store has. -/
def sized (hashing : Hashing H) (device : Option ℕ) (rows : List H) (size : ℕ) : List (Blob H) :=
  ((rows.filter fun hash => minBytes ≤ (hashing.content hash).length).filter fun hash =>
    (hashing.content hash).length = size).map (⟨·, device⟩)

theorem loadIndex_apply (hashing : Hashing H) (device : Option ℕ) (rows : List H) (size : ℕ) :
    loadIndex hashing device rows size = classOf (sized hashing device rows size) :=
  foldl_pushBlob hashing device _ size

variable {device : Option ℕ} {blob : Blob H} {blobs : List (Blob H)} {fileEnds : Ends}
    {path : String}
  {action : Action H} {stamp : FileFingerprint}

theorem mem_sized {rows : List H} {size : ℕ} :
    blob ∈ sized hashing device rows size ↔
      blob.hash ∈ rows ∧ minBytes ≤ (hashing.content blob.hash).length ∧
        (hashing.content blob.hash).length = size ∧ blob.device = device := by
  unfold sized
  simp only [List.mem_map, List.mem_filter, decide_eq_true_eq]
  constructor
  · rintro ⟨hash, ⟨⟨mem, large⟩, same⟩, rfl⟩
    exact ⟨mem, large, same, rfl⟩
  · rintro ⟨mem, large, same, rfl⟩
    exact ⟨blob.hash, ⟨⟨mem, large⟩, same⟩, rfl⟩

theorem classOf_eq_none (none : classOf blobs = none) : blobs = [] := by grind [classOf]

theorem classOf_eq_few {few : List (Blob H)} (some_few : classOf blobs = some (.few few)) :
    blobs = few := by grind [classOf]

/-! ## Comparing with blobs -/

theorem compareEnds_unlike {readable : H → Bool} {compared compared' : Bool}
    (all : ∀ blob ∈ blobs, sameVolume blob.device device = true → readable blob.hash = true)
    (unlike : compareEnds hashing readable device fileEnds blobs compared = (false, compared')) :
    ∀ blob ∈ blobs, sameVolume blob.device device = true →
      readEnds (hashing.content blob.hash) ≠ some fileEnds := by
  have alike : endsMatch fileEnds fileEnds = true := by simp [endsMatch]
  fun_induction compareEnds hashing readable device fileEnds blobs compared <;> grind

theorem compareEnds_unread {readable : H → Bool} {compared : Bool}
    (none : ∀ blob ∈ blobs, sameVolume blob.device device = true → readable blob.hash = false) :
    compareEnds hashing readable device fileEnds blobs compared = (false, compared) := by
  fun_induction compareEnds hashing readable device fileEnds blobs compared <;> grind

/-! ## Runs of passes -/

/-- The store and the files change between passes only. -/
def Quiet (s : State H) : Action H → Prop
  | .write _ _ _ _ => s.pass = none
  | .change _ _ => s.pass = none
  | .gain _ => s.pass = none
  | .lose _ => s.pass = none
  | _ => True

/-- A stamp stands for one content. -/
def Telling (hashing : Hashing H) (bytesOf : FileFingerprint → Bytes) (s : State H)
    (action : Action H) : Prop :=
  ∀ path file, s.puts hashing action = some (path, some file) →
    file.bytes = bytesOf (file.stamp path)

/-- Between passes, before any file has been rejected. -/
structure Start (bytesOf : FileFingerprint → Bytes) (s : State H) : Prop where
  idle : s.pass = none
  rejects : s.rejects = []
  stamps : ∀ path file, s.files path = some file → file.bytes = bytesOf (file.stamp path)

/-- What `consider` skips as rejected has the bytes of no blob on its volume, unless more blobs
share its length than are kept. -/
def SkippedDiffer (hashing : Hashing H) (s : State H) : Prop :=
  ∀ index root path stamp len device file blobs,
    s.pass = some ⟨index, root, .unknown path stamp len device⟩ →
    stamp ∈ s.rejects → s.files path = some file → index len = some (.few blobs) →
      ∀ blob ∈ blobs, sameVolume blob.device device = true →
        hashing.content blob.hash ≠ file.bytes

/-- An action that leaves rejections right. -/
structure Lasting (hashing : Hashing H) (s : State H) (action : Action H) : Prop where
  /-- The store gains no blob of a length that a rejected file has. -/
  gains : ∀ hash, action = .gain hash → ∀ stamp ∈ s.rejects,
    stamp.size ≠ min ↑(hashing.content hash).length i64Max
  /-- A file gets no rejected stamp, unless it had it on the same volume. -/
  puts : ∀ path file, s.puts hashing action = some (path, some file) → file.stamp path ∈ s.rejects →
    ∃ old, s.files path = some old ∧ old.stamp path = file.stamp path ∧ old.device = file.device
  /-- Of the blobs that a file is compared with, all can be read or none. -/
  reads : ∀ readable index root path stamp device blobs, action = .compare readable →
    s.pass = some ⟨index, root, .comparing path stamp device blobs⟩ →
      (∀ blob ∈ blobs, sameVolume blob.device device = true → readable blob.hash = true) ∨
        ∀ blob ∈ blobs, sameVolume blob.device device = true → readable blob.hash = false

/-- No blob of the store has the bytes of the file, as far as a pass would compare them. -/
def Unlike (hashing : Hashing H) (s : State H) (file : TargetFile) : Prop :=
  ∀ hash ∈ s.rows, minBytes ≤ (hashing.content hash).length →
    (hashing.content hash).length = file.bytes.length → sameVolume s.device file.device = true →
      hashing.content hash ≠ file.bytes

/-- What a place knows of the file it is about is still so. -/
def Place.Knows (s : State H) (index : BlobIndex H) : Place H → Prop
  | .stamped path stamp len device _ =>
    ∃ file, s.files path = some file ∧ stamp = file.stamp path ∧ len = file.bytes.length ∧
      device = file.device
  | .unknown path stamp len device =>
    ∃ file, s.files path = some file ∧ stamp = file.stamp path ∧ len = file.bytes.length ∧
      device = file.device
  | .comparing path stamp device blobs =>
    ∃ file, s.files path = some file ∧ stamp = file.stamp path ∧ device = file.device ∧
      index file.bytes.length = some (.few blobs)
  | _ => True

structure RejectsRight (hashing : Hashing H) (bytesOf : FileFingerprint → Bytes) (s : State H) :
    Prop where
  stamps : ∀ path file, s.files path = some file → file.bytes = bytesOf (file.stamp path)
  pass : ∀ pass, s.pass = some pass →
    pass.index = loadIndex hashing s.device s.rows ∧ pass.place.Knows s pass.index
  rejects : ∀ path file, s.files path = some file → file.stamp path ∈ s.rejects →
    Unlike hashing s file

namespace RejectsRight

variable {s s' : State H} {pass : Pass H}

theorem goTo (right : RejectsRight hashing bytesOf s) {place : Place H}
    (loaded : pass.index = loadIndex hashing s.device s.rows) (knows : place.Knows s pass.index) :
    RejectsRight hashing bytesOf (s.goTo pass place) where
  stamps := right.stamps
  pass := by
    rintro _ ⟨⟩
    refine ⟨loaded, ?_⟩
    cases place <;> exact knows
  rejects := right.rejects

/-- The stamp of a file that is unlike every blob may be rejected. -/
theorem reject (right : RejectsRight hashing bytesOf s) (under : s.pass = some pass)
    {file : TargetFile} (there : s.files path = some file) (unlike : Unlike hashing s file) :
    RejectsRight hashing bytesOf ((s.reject (file.stamp path)).goTo pass .between) where
  stamps := right.stamps
  pass := by
    rintro _ ⟨⟩
    exact ⟨(right.pass pass under).1, trivial⟩
  rejects path' file' there' mem := by
    rcases List.mem_cons.mp mem with same | old
    · have path_eq : path' = path := congrArg FileFingerprint.path same
      subst path_eq
      cases there.symm.trans there'
      exact unlike
    · exact right.rejects path' file' there' old

/-- A file put where no pass is about it. -/
theorem putFile (right : RejectsRight hashing bytesOf s) (path : String) (new : Option TargetFile)
    (told : ∀ file, new = some file → file.bytes = bytesOf (file.stamp path))
    (fresh : ∀ file, new = some file → file.stamp path ∈ s.rejects →
      ∃ old, s.files path = some old ∧ old.stamp path = file.stamp path ∧
        old.device = file.device) :
    (∀ path' file, (s.putFile path new).files path' = some file →
        file.bytes = bytesOf (file.stamp path')) ∧
      ∀ path' file, (s.putFile path new).files path' = some file → file.stamp path' ∈ s.rejects →
        Unlike hashing s file := by
  rw [putFile_files]
  refine ⟨by grind [right.stamps], fun path' file there mem => ?_⟩
  by_cases same : path' = path
  · subst same
    rw [Function.update_self] at there
    obtain ⟨old, was, stamp, device⟩ := fresh file there mem
    have bytes : old.bytes = file.bytes := by
      rw [right.stamps _ old was, stamp, told file there]
    have unlike := right.rejects _ old was (stamp ▸ mem)
    unfold Unlike at unlike ⊢
    rw [bytes, device] at unlike
    exact unlike
  · rw [Function.update_of_ne same] at there
    exact right.rejects path' file there mem

theorem moved (right : RejectsRight hashing bytesOf s) (under : s.pass = some pass)
    (told : Telling hashing bytesOf s action) (lasting : Lasting hashing s action)
    (moved : Moved hashing s pass action s') : RejectsRight hashing bytesOf s' := by
  obtain ⟨loaded, knows⟩ := right.pass pass under
  have mem_index {size : ℕ} {blobs : List (Blob H)} (few : pass.index size = some (.few blobs))
      (blob : Blob H) :
      blob ∈ blobs ↔ blob.hash ∈ s.rows ∧ minBytes ≤ (hashing.content blob.hash).length ∧
        (hashing.content blob.hash).length = size ∧ blob.device = s.device := by
    rw [loaded, loadIndex_apply] at few
    rw [← classOf_eq_few few]
    exact mem_sized
  cases moved with
  | stay => exact right
  | back | remembered | alike | opened | read | hashed | held | checked =>
    exact right.goTo loaded trivial
  | stamped there => exact right.goTo loaded ⟨_, there, rfl, rfl, rfl⟩
  | unknown was =>
    rw [was] at knows
    exact right.goTo loaded knows
  | noLength was none =>
    rw [was] at knows
    obtain ⟨file, there, rfl, rfl, rfl⟩ := knows
    refine right.reject under there fun hash mem large same _ _ => ?_
    rw [loaded, loadIndex_apply] at none
    have listed : (⟨hash, s.device⟩ : Blob H) ∈ sized hashing s.device s.rows file.bytes.length :=
      mem_sized.mpr ⟨mem, large, same, rfl⟩
    rw [classOf_eq_none none] at listed
    cases listed
  | noVolume was few apart =>
    rw [was] at knows
    obtain ⟨file, there, rfl, rfl, rfl⟩ := knows
    refine right.reject under there fun hash mem large same volume _ => ?_
    have other := apart _ ((mem_index few ⟨hash, s.device⟩).mpr ⟨mem, large, same, rfl⟩)
    rw [volume] at other
    cases other
  | comparing was few =>
    rw [was] at knows
    obtain ⟨file, there, rfl, rfl, rfl⟩ := knows
    exact right.goTo loaded ⟨file, there, rfl, rfl, few⟩
  | @noEnds path stamp device blobs file fileEnds readable was there ends unlike =>
    rw [was] at knows
    obtain ⟨file', there', rfl, rfl, few⟩ := knows
    cases there.symm.trans there'
    refine right.reject under there fun hash mem large same volume equal => ?_
    have listed := (mem_index few ⟨hash, s.device⟩).mpr ⟨mem, large, same, rfl⟩
    have place : s.pass =
        some ⟨pass.index, pass.root, .comparing path (file.stamp path) file.device blobs⟩ := by
      rw [under, ← was]
    rcases lasting.reads readable _ _ _ _ _ _ rfl place with all | none
    · have differ := compareEnds_unlike all unlike _ listed volume
      rw [equal, ends] at differ
      exact differ rfl
    · rw [compareEnds_unread none] at unlike
      cases unlike
  | took was covers free =>
    refine ⟨right.stamps, ?_, right.rejects⟩
    rintro _ ⟨⟩
    exact ⟨loaded, trivial⟩
  | @renamed path hash file ctime inode was there =>
    have put : s.puts hashing (.rename ctime inode) =
        some (path, some (file.cloned (hashing.content hash) ctime inode)) := by
      obtain ⟨index, root, place⟩ := pass
      cases was
      simp [State.puts, under, there]
    obtain ⟨stamps, rejects⟩ := right.putFile path
      (some (file.cloned (hashing.content hash) ctime inode))
      (fun new same => told path new (by rw [put, same]))
      (fun new same => lasting.puts path new (by rw [put, same]))
    refine ⟨stamps, ?_, rejects⟩
    rintro _ ⟨⟩
    exact ⟨loaded, trivial⟩
  | finished => exact ⟨right.stamps, fun _ no => (nomatch no), right.rejects⟩

/-- Every action that the claim allows and that is lasting keeps rejections right. -/
theorem step [DecidableEq H] (right : RejectsRight hashing bytesOf s) (quiet : Quiet s action)
    (told : Telling hashing bytesOf s action) (lasting : Lasting hashing s action)
    (taken : TargetDedup.step hashing roots s action = some s') :
    RejectsRight hashing bytesOf s' := by
  -- a file put between passes
  have put {path : String} {new : Option TargetFile} (idle : s.pass = none)
      (puts : s.puts hashing action = some (path, new)) :
      RejectsRight hashing bytesOf (s.putFile path new) := by
    obtain ⟨stamps, rejects⟩ := right.putFile path new
      (fun file same => told path file (by rw [puts, same]))
      (fun file same => lasting.puts path file (by rw [puts, same]))
    refine ⟨stamps, fun pass under => ?_, rejects⟩
    have no : s.pass = some pass := under
    rw [idle] at no
    cases no
  -- an action of the pass
  have go (taken : (s.pass.bind fun pass => stepPass hashing roots s pass action) = some s') :
      RejectsRight hashing bytesOf s' := by
    obtain ⟨pass, under, taken⟩ := Option.bind_eq_some_iff.mp taken
    exact right.moved under told lasting (moved_of_stepPass taken)
  cases action with
  | begin =>
    simp only [TargetDedup.step] at taken
    split at taken <;> cases taken
    refine ⟨right.stamps, ?_, right.rejects⟩
    rintro _ ⟨⟩
    exact ⟨rfl, trivial⟩
  | lock build profile =>
    simp only [TargetDedup.step] at taken
    split at taken <;> cases taken
    exact ⟨right.stamps, right.pass, right.rejects⟩
  | unlock build profile =>
    obtain ⟨-, ⟨⟩⟩ := Option.ite_none_right_eq_some.mp taken
    exact ⟨right.stamps, right.pass, right.rejects⟩
  | write build profile path file =>
    obtain ⟨-, ⟨⟩⟩ := Option.ite_none_right_eq_some.mp taken
    exact put quiet rfl
  | change path file =>
    cases taken
    exact put quiet rfl
  | gain hash =>
    obtain ⟨-, ⟨⟩⟩ := Option.ite_none_left_eq_some.mp taken
    have idle : s.pass = none := quiet
    refine ⟨right.stamps, fun pass under => absurd (idle.symm.trans under)
      (Option.some_ne_none pass).symm, ?_⟩
    intro path file there mem hash' listed large same volume
    rcases List.mem_append.mp listed with old | new
    · exact right.rejects path file there mem hash' old large same volume
    · cases List.mem_singleton.mp new
      refine absurd ?_ (lasting.gains hash rfl _ mem)
      rw [same]
      rfl
  | lose hash =>
    cases taken
    have idle : s.pass = none := quiet
    refine ⟨right.stamps, fun pass under => absurd (idle.symm.trans under)
      (Option.some_ne_none pass).symm, ?_⟩
    intro path file there mem hash' listed
    exact right.rejects path file there mem hash' (List.mem_filter.mp listed).1
  | _ => exact go taken

theorem differ (right : RejectsRight hashing bytesOf s) : SkippedDiffer hashing s := by
  intro index root path stamp len device file blobs under mem there few blob listed volume
  obtain ⟨loaded, file', there', rfl, rfl, rfl⟩ := right.pass _ under
  cases there.symm.trans there'
  change index = _ at loaded
  rw [loaded, loadIndex_apply] at few
  obtain ⟨known, large, same, device⟩ := mem_sized.mp (classOf_eq_few few ▸ listed)
  rw [device] at volume
  exact right.rejects path file there mem blob.hash known large same volume

end RejectsRight

/-- **Files skipped as rejected differ from every blob**, in every run whose actions leave
rejections right. -/
theorem skipped_files_differ [DecidableEq H] {s₀ s : State H} (start : Start bytesOf s₀)
    (run : Reaches (fun s action =>
        (Quiet s action ∧ Telling hashing bytesOf s action) ∧ Lasting hashing s action)
      (step hashing roots) s₀ s) : SkippedDiffer hashing s := by
  refine (run.invariant (I := RejectsRight hashing bytesOf) ?_ ?_).differ
  · refine ⟨start.stamps, fun pass under => (nomatch start.idle.symm.trans under),
      fun path file _ mem => ?_⟩
    rw [start.rejects] at mem
    cases mem
  · exact fun s action s' right ok taken => right.step ok.1.1 ok.1.2 ok.2 taken

/-! ## A library in two passes -/

section Runs

variable [DecidableEq H] {s : State H} {pass : Pass H}

theorem step_look_noLength {len : ℕ} (under : s.pass = some pass)
    (place : pass.place = .unknown path stamp len device) (new : stamp ∉ s.rejects)
    (none : pass.index len = none) :
    step hashing roots s .look = some ((s.reject stamp).goTo pass .between) := by
  simp [step, stepPass, under, place, new, none]

theorem step_look_comparing {len : ℕ} (under : s.pass = some pass)
    (place : pass.place = .unknown path stamp len device) (new : stamp ∉ s.rejects)
    (few : pass.index len = some (.few [blob])) (volume : sameVolume blob.device device = true) :
    step hashing roots s .look = some (s.goTo pass (.comparing path stamp device [blob])) := by
  simp [step, stepPass, under, place, new, few, volume]

theorem step_compare_noEnds {file : TargetFile} {blobEnds : Ends} (under : s.pass = some pass)
    (place : pass.place = .comparing path stamp device [blob]) (there : s.files path = some file)
    (ends : readEnds file.bytes = some fileEnds) (volume : sameVolume blob.device device = true)
    (ends' : readEnds (hashing.content blob.hash) = some blobEnds)
    (differ : endsMatch fileEnds blobEnds = false) :
    step hashing roots s (.compare fun _ => true) = some ((s.reject stamp).goTo pass .between) := by
  have unlike : compareEnds hashing (fun _ => true) device fileEnds [blob] false =
      (false, true) := by
    simp [compareEnds, volume, ends', differ]
  simp [step, stepPass, under, place, there, ends, unlike]

theorem step_gain {hash : H} (new : hash ∉ s.rows) :
    step hashing roots s (.gain hash) = some { s with rows := s.rows ++ [hash] } := by
  simp [step, new]

end Runs

theorem oneLibrary_start (rows : List Bytes) : Start (fun _ => (filled 0).bytes)
    (oneLibrary rows) where
  idle := rfl
  rejects := rfl
  stamps path file there := by
    obtain ⟨-, same⟩ := Option.ite_none_right_eq_some.mp there
    cases same
    rfl

/-- The index of a store with one blob of the length. -/
theorem loadIndex_filled (byte : UInt8) :
    loadIndex plain (some 1)
      [(filled byte).bytes] minBytes = some (.few [⟨(filled byte).bytes, some 1⟩]) := by
  have length : (plain.content (filled byte).bytes).length = minBytes := length_filled byte
  rw [loadIndex_apply]
  simp [sized, length, classOf, maxBlobsPerSize]

/-- Actions that put no file and no blob, and read every blob they compare with. -/
def Calm : Action H → Prop
  | .gain _ => False
  | .write _ _ _ _ => False
  | .change _ _ => False
  | .rename _ _ => False
  | .compare readable => ∀ hash, readable hash = true
  | _ => True

theorem Calm.puts {s : State H} (calm : Calm action) (path : String) (file : TargetFile) :
    s.puts hashing action ≠ some (path, some file) := by
  intro put
  cases action with
  | write => cases calm
  | change => cases calm
  | rename => cases calm
  | _ => cases put

theorem allowed_of_calm {s : State H} (quiet : Quiet s action) (calm : Calm action) :
    Quiet s action ∧ Telling hashing bytesOf s action :=
  ⟨quiet, fun path file put => absurd put (calm.puts path file)⟩

theorem lasting_of_calm {s : State H} (quiet : Quiet s action) (calm : Calm action) :
    (Quiet s action ∧ Telling hashing bytesOf s action) ∧ Lasting hashing s action := by
  refine ⟨allowed_of_calm quiet calm, ?_, fun path file put => absurd put (calm.puts path file), ?_⟩
  · rintro hash rfl
    cases calm
  · rintro readable index root path stamp device blobs rfl _
    exact .inl fun blob _ _ => calm blob.hash

/-- A library that differs from the one blob of its length is rejected for its ends, and skipped in
the next pass. -/
theorem skipped_library_differs : ∃ s, Reaches (fun s action =>
      (Quiet s action ∧ Telling plain (fun _ => (filled 0).bytes) s action) ∧
        Lasting plain s action)
      (step plain [target]) (oneLibrary [(filled 1).bytes]) s ∧
    (∃ index stamp len device,
      s.pass = some ⟨index, target, .unknown library stamp len device⟩ ∧ stamp ∈ s.rejects) ∧
      SkippedDiffer plain s := by
  have there := library_there [(filled 1).bytes]
  have loaded : loadIndex plain (some 1) [(filled 1).bytes] (filled 0).bytes.length =
      some (.few [⟨(filled 1).bytes, some 1⟩]) := by
    rw [length_filled]
    exact loadIndex_filled 1
  have differ : endsMatch ⟨List.replicate block 0, List.replicate block 0⟩
      ⟨List.replicate block 1, List.replicate block 1⟩ = false := by
    have apart : List.replicate block (0 : UInt8) ≠ List.replicate block 1 := by
      intro same
      have first := congrArg List.head? same
      simp [block] at first
    simp [endsMatch, apart]
  have run : Reaches (fun s action =>
      (Quiet s action ∧ Telling plain (fun _ => (filled 0).bytes) s action) ∧
        Lasting plain s action)
    (step plain [target]) (oneLibrary [(filled 1).bytes]) (oneLibrary [(filled 1).bytes]) := .refl
  -- the first pass
  replace run := reaches_stamped run rfl there (lasting_of_calm trivial trivial)
    fun _ => lasting_of_calm trivial trivial
  replace run := run.tail (a := Action.unremembered) (lasting_of_calm trivial trivial) rfl
  replace run := run.tail (a := Action.look) (lasting_of_calm trivial trivial)
    (step_look_comparing rfl rfl List.not_mem_nil loaded rfl)
  replace run := run.tail (a := Action.compare fun _ => true)
    (lasting_of_calm trivial fun _ => rfl)
    (step_compare_noEnds rfl rfl there (readEnds_filled 0) rfl (readEnds_filled 1) differ)
  replace run := run.tail (a := Action.finish) (lasting_of_calm trivial trivial) rfl
  -- the second
  replace run := reaches_stamped run rfl there (lasting_of_calm trivial trivial)
    fun _ => lasting_of_calm trivial trivial
  replace run := run.tail (a := Action.unremembered) (lasting_of_calm trivial trivial) rfl
  exact ⟨_, run, ⟨_, _, _, _, rfl, List.mem_cons_self⟩,
    skipped_files_differ (oneLibrary_start _) run⟩

/-- The library is rejected in a pass in which no blob has its length.  Then a build stores a blob
with its bytes, and the next pass skips it all the same. -/
theorem gained_blob_skipped : ∃ (bytesOf : FileFingerprint → Bytes) (s₀ s : State Bytes),
    Start bytesOf s₀ ∧
    Reaches (fun s action => Quiet s action ∧ Telling plain bytesOf s action)
      (step plain [target]) s₀ s ∧ ¬ SkippedDiffer plain s := by
  have there := library_there []
  have run : Reaches (fun s action =>
      Quiet s action ∧ Telling plain (fun _ => (filled 0).bytes) s action)
      (step plain [target]) (oneLibrary []) (oneLibrary []) := .refl
  -- the first pass
  replace run := reaches_stamped run rfl there (allowed_of_calm trivial trivial)
    fun _ => allowed_of_calm trivial trivial
  replace run := run.tail (a := Action.unremembered) (allowed_of_calm trivial trivial) rfl
  replace run := run.tail (a := Action.look) (allowed_of_calm trivial trivial)
    (step_look_noLength rfl rfl List.not_mem_nil rfl)
  replace run := run.tail (a := Action.finish) (allowed_of_calm trivial trivial) rfl
  -- the blob, and the second pass
  replace run := run.tail (a := Action.gain (filled 0).bytes) ⟨rfl, fun _ _ no => nomatch no⟩
    (step_gain List.not_mem_nil)
  replace run := reaches_stamped run rfl there (allowed_of_calm trivial trivial)
    fun _ => allowed_of_calm trivial trivial
  replace run := run.tail (a := Action.unremembered) (allowed_of_calm trivial trivial) rfl
  refine ⟨_, _, _, oneLibrary_start [], run, fun differ => ?_⟩
  have loaded : loadIndex plain (some 1) [(filled 0).bytes] (filled 0).bytes.length =
      some (.few [⟨(filled 0).bytes, some 1⟩]) := by
    rw [length_filled]
    exact loadIndex_filled 0
  exact differ _ _ library _ _ _ (filled 0) _ rfl List.mem_cons_self there loaded
    ⟨(filled 0).bytes, some 1⟩ (List.mem_singleton_self _) rfl rfl

end Kache.TargetDedup
