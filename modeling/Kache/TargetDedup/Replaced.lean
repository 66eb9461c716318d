import Kache.TargetDedup.Consider

/-!
# Files replaced by clones

A pass replaces a file by a clone of a blob while builds go on: a build writes below a profile
directory only with that directory's `.cargo-lock`.  The content of the file is known from a stamp,
or from a hash, that is older than the lock the pass takes, and after taking it the pass compares no
more than the length and two blocks.  The lock it takes is that of the directory the file is in, or
of the one above `deps`, which need not be the profile directory.

So a file has the bytes of the blob when it is replaced if no build gets in between unseen
(`Undisturbed`): a write before the lock changes a block that is compared, a write during the hash
leaves what has been read as it is or changes the first block, and a write after the lock would need
the lock that the pass has (`replaced_files_alike`).  A whole build between stamp and lock that
changes neither block is lost (`middle_lost`).
-/

namespace Kache.TargetDedup

open UnixPath

variable {H : Type} {hashing : Hashing H} {roots : List OsStr} {root : OsStr} {s s' : State H}
  {pass : Pass H}

/-- Files below the target are changed by builds only, and by the pass. -/
def ByBuilds : Action H → Prop
  | .change _ _ => False
  | _ => True

/-- A file about to be replaced has the bytes of the blob that replaces it. -/
def ReplacedAlike (hashing : Hashing H) (s : State H) : Prop :=
  ∀ index root path hash file, s.pass = some ⟨index, root, .checked path hash⟩ →
    s.files path = some file → file.bytes = hashing.content hash

/-- What a handle has read of a file still stands there, or differs from it in the first block. -/
def Followed (inode : ℕ) (read : Bytes) (file : TargetFile) : Prop :=
  file.inode = inode ∧ read <+: file.bytes ∨
    block ≤ read.length ∧ file.bytes.take block ≠ read.take block

/-- What a place asks of a build that writes to the file it is about. -/
def Place.Sees (hashing : Hashing H) (root profile : OsStr) (path : String) (file : TargetFile) :
    Place H → Prop
  | .stamped path' _ _ _ seen => path' = path → readEnds file.bytes ≠ readEnds seen
  | .hashing path' inode read => path' = path → Followed inode read file
  | .matched path' hash => path' = path → readEnds file.bytes ≠ readEnds (hashing.content hash)
  | .locked path' _ =>
    path' = path → (profileDir root (utf8 path)).map components = some (components profile)
  | .checked path' _ =>
    path' = path → (profileDir root (utf8 path)).map components = some (components profile)
  | _ => True

/-- A build that writes to the file the pass is about changes one of its end blocks, as long as the
pass has no lock; while the file is read, its first block or nothing that has been read; later, the
lock that the pass has is the build's. -/
def Undisturbed (hashing : Hashing H) (s : State H) (action : Action H) : Prop :=
  ∀ build profile path file index root place, action = .write build profile path (some file) →
    s.pass = some ⟨index, root, place⟩ → place.Sees hashing root profile path file

/-- The file at a path has the given bytes, or its ends show that it has not. -/
def Identified (s : State H) (path : String) (bytes : Bytes) : Prop :=
  ∀ file, s.files path = some file → file.bytes = bytes ∨ readEnds file.bytes ≠ readEnds bytes

theorem readEnds_ne_of_take_ne {left right : Bytes} (long : block ≤ right.length)
    (differ : left.take block ≠ right.take block) : readEnds left ≠ readEnds right := by
  intro same
  unfold readEnds at same
  rw [if_neg (Nat.not_lt.mpr long)] at same
  split at same
  · cases same
  · exact differ (congrArg Ends.head (Option.some.inj same))

namespace Followed

variable {inode : ℕ} {read : Bytes} {file : TargetFile} {path : String}

theorem left (there : s.files path = some file) (same : file.inode = inode) :
    s.left path inode read = some (file.bytes.drop read.length) := by
  simp [State.left, there, same]

theorem readMore {chunk : Bytes} (followed : Followed inode read file)
    (there : s.files path = some file) (next : ∀ rest ∈ s.left path inode read, chunk <+: rest) :
    Followed inode (read ++ chunk) file := by
  rcases followed with ⟨same, so_far⟩ | ⟨long, differ⟩
  · refine .inl ⟨same, ?_⟩
    obtain ⟨rest, split⟩ := so_far
    have more := next _ (left there same)
    rw [← split, List.drop_left] at more
    rw [← split]
    exact (List.prefix_append_right_inj read).mpr more
  · refine .inr ⟨by rw [List.length_append]; omega, ?_⟩
    rw [List.take_append_of_le_length long]
    exact differ

theorem hashed (followed : Followed inode read file) (there : s.files path = some file)
    (done : ∀ rest ∈ s.left path inode read, rest = []) :
    file.bytes = read ∨ readEnds file.bytes ≠ readEnds read := by
  rcases followed with ⟨same, so_far⟩ | ⟨long, differ⟩
  · obtain ⟨rest, split⟩ := so_far
    have none := done _ (left there same)
    rw [← split, List.drop_left] at none
    rw [← split, none, List.append_nil]
    exact .inl rfl
  · exact .inr (readEnds_ne_of_take_ne long differ)

end Followed

/-- The pass has the lock of the directory it takes for the file's profile directory. -/
def Covered (root : OsStr) (s : State H) (path : String) : Prop :=
  ∃ profile, profileDir root (utf8 path) = some profile ∧
    s.locks.get (components profile) = some .pass

def Place.Vetted (hashing : Hashing H) (root : OsStr) (s : State H) : Place H → Prop
  | .stamped path _ _ _ seen => Identified s path seen
  | .hashing path inode read => ∀ file, s.files path = some file → Followed inode read file
  | .matched path hash => Identified s path (hashing.content hash)
  | .locked path hash => Identified s path (hashing.content hash) ∧ Covered root s path
  | .checked path hash =>
    (∀ file, s.files path = some file → file.bytes = hashing.content hash) ∧ Covered root s path
  | _ => True

/-- What a pass has established of the file it is about. -/
def Vetted (hashing : Hashing H) (s : State H) : Prop :=
  ∀ index root place, s.pass = some ⟨index, root, place⟩ → place.Vetted hashing root s

namespace Vetted

theorem alike (vetted : Vetted hashing s) : ReplacedAlike hashing s :=
  fun index root path hash file under there =>
    (vetted index root (.checked path hash) under).1 file there

/-- Only files and locks matter. -/
theorem goTo {place : Place H} (here : place.Vetted hashing pass.root s) :
    Vetted hashing (s.goTo pass place) := by
  rintro index _ _ ⟨⟩
  cases place <;> exact here

theorem moved {action : Action H} (vetted : Vetted hashing s) (under : s.pass = some pass)
    (moved : Moved hashing s pass action s') : Vetted hashing s' := by
  have here : pass.place.Vetted hashing pass.root s :=
    vetted pass.index pass.root pass.place under
  cases moved with
  | stay => exact vetted
  | back | unknown | noLength | noVolume | comparing | noEnds | alike | renamed =>
    exact goTo trivial
  | @stamped _ root path file there =>
    refine goTo fun file' there' => .inl ?_
    cases there.symm.trans there'
    rfl
  | @remembered _ path stamp len device seen was =>
    rw [was] at here
    apply goTo
    show Identified s path (hashing.content (hashing.hashOf seen))
    rw [hashing.content_hashOf]
    exact here
  | @opened _ path file was there =>
    refine goTo fun file' there' => .inl ?_
    cases there.symm.trans there'
    exact ⟨rfl, List.nil_prefix⟩
  | read was next =>
    rw [was] at here
    exact goTo fun file there => (here file there).readMore there next
  | @hashed _ path inode read was done =>
    rw [was] at here
    apply goTo
    show Identified s path (hashing.content (hashing.hashOf read))
    rw [hashing.content_hashOf]
    exact fun file there => (here file there).hashed there done
  | held was covers holds =>
    rw [was] at here
    exact goTo ⟨here, _, covers, holds⟩
  | took was covers free =>
    rw [was] at here
    exact goTo ⟨here, _, covers, by simp⟩
  | @checked _ path hash file was there ends =>
    rw [was] at here
    refine goTo ⟨fun file' there' => ?_, here.2⟩
    cases there.symm.trans there'
    exact (here.1 file there).resolve_right fun differ => differ ends
  | finished => exact fun index root place no => nomatch no

/-- Others take and release their own locks only. -/
theorem relock {locks : Table (List Component) Holder} (vetted : Vetted hashing s)
    (ours : ∀ dir, s.locks.get dir = some .pass → locks.get dir = some .pass) :
    Vetted hashing { s with locks := locks } := by
  intro index root place under
  have here := vetted index root place under
  have covered : ∀ path, Covered root s path → Covered root { s with locks := locks } path :=
    fun path ⟨profile, covers, holds⟩ => ⟨profile, covers, ours _ holds⟩
  cases place with
  | locked path hash => exact ⟨here.1, covered path here.2⟩
  | checked path hash => exact ⟨here.1, covered path here.2⟩
  | _ => exact here

/-- A build that has the lock of a profile directory writes a file. -/
theorem write {build : ℕ} {profile : OsStr} {path : String} {file : Option TargetFile}
    (vetted : Vetted hashing s)
    (holds : s.locks.get (components profile) = some (.build build))
    (seen : Undisturbed hashing s (.write build profile path file)) :
    Vetted hashing (s.putFile path file) := by
  intro index root place under
  have here := vetted index root place under
  have sees : ∀ new, file = some new → place.Sees hashing root profile path new :=
    fun new same => seen build profile path new index root place (by rw [same]) under
  have elsewhere {path' : String} (other : path' ≠ path) :
      (s.putFile path file).files path' = s.files path' := by
    rw [putFile_files, Function.update_of_ne other]
  have written {path' : String} {new : TargetFile} (same : path' = path)
      (there : (s.putFile path file).files path' = some new) : file = some new := by
    rw [putFile_files, same, Function.update_self] at there
    exact there
  -- with the lock that the pass has, nobody else writes
  have excluded {path' : String} (covered : Covered root s path')
      (lock : (profileDir root (utf8 path')).map components = some (components profile)) :
      False := by
    obtain ⟨taken, covers, ours⟩ := covered
    rw [covers] at lock
    rw [Option.some.inj lock, holds] at ours
    cases ours
  have identified {path' : String} {bytes : Bytes} (known : Identified s path' bytes)
      (shows : ∀ new, file = some new → path' = path → readEnds new.bytes ≠ readEnds bytes) :
      Identified (s.putFile path file) path' bytes := by
    intro new there
    by_cases same : path' = path
    · exact .inr (shows new (written same there) same)
    · rw [elsewhere same] at there
      exact known new there
  cases place with
  | stamped path' stamp len device bytes => exact identified here sees
  | hashing path' inode read =>
    intro new there
    by_cases same : path' = path
    · exact sees new (written same there) same
    · rw [elsewhere same] at there
      exact here new there
  | matched path' hash => exact identified here sees
  | locked path' hash =>
    refine ⟨identified here.1 fun new put same => ?_, here.2⟩
    exact (excluded here.2 (by rw [same]; exact sees new put same)).elim
  | checked path' hash =>
    refine ⟨fun new there => ?_, here.2⟩
    by_cases same : path' = path
    · exact (excluded here.2 (by rw [same]; exact sees new (written same there) same)).elim
    · rw [elsewhere same] at there
      exact here.1 new there
  | _ => trivial

theorem step [DecidableEq H] {action : Action H} (vetted : Vetted hashing s)
    (builds : ByBuilds action) (seen : Undisturbed hashing s action)
    (taken : TargetDedup.step hashing roots s action = some s') : Vetted hashing s' := by
  have go (taken : (s.pass.bind fun pass => stepPass hashing roots s pass action) = some s') :
      Vetted hashing s' := by
    obtain ⟨pass, under, taken⟩ := Option.bind_eq_some_iff.mp taken
    exact vetted.moved under (moved_of_stepPass taken)
  cases action with
  | begin =>
    simp only [TargetDedup.step] at taken
    split at taken <;> cases taken
    rintro index _ _ ⟨⟩
    trivial
  | lock build profile =>
    simp only [TargetDedup.step] at taken
    split at taken <;> cases taken
    refine vetted.relock fun dir ours => ?_
    grind [Table.get_set]
  | unlock build profile =>
    obtain ⟨held, ⟨⟩⟩ := Option.ite_none_right_eq_some.mp taken
    refine vetted.relock fun dir ours => ?_
    grind [Table.get_deleteWhere, Option.filter_eq_some_iff]
  | write build profile path file =>
    obtain ⟨may, ⟨⟩⟩ := Option.ite_none_right_eq_some.mp taken
    exact vetted.write may.2.2 seen
  | change path file => cases builds
  | gain hash =>
    obtain ⟨-, ⟨⟩⟩ := Option.ite_none_left_eq_some.mp taken
    exact vetted
  | lose hash =>
    cases taken
    exact vetted
  | _ => exact go taken

end Vetted

/-- **What is replaced has the bytes of its replacement**, in every run in which builds are not in
between unseen. -/
theorem replaced_files_alike [DecidableEq H] {s₀ : State H} (idle : s₀.pass = none)
    (run : Reaches (fun s action => ByBuilds action ∧ Undisturbed hashing s action)
      (step hashing roots) s₀ s) : ReplacedAlike hashing s := by
  refine (run.invariant (I := Vetted hashing) ?_ ?_).alike
  · intro index root place under
    rw [idle] at under
    cases under
  · exact fun s action s' vetted ok taken => vetted.step ok.1 ok.2 taken

/-! ## The library and a build -/

section Runs

variable [DecidableEq H] {path : String} {hash : H} {profile : OsStr} {file : TargetFile}

theorem step_account {privateBytes : ℕ} (under : s.pass = some pass)
    (place : pass.place = .matched path hash) (some_private : privateBytes ≠ 0)
    (there : s.files path = some file) (volume : sameVolume s.device file.device = true)
    (covers : profileDir pass.root (utf8 path) = some profile)
    (free : ∀ dir, s.locks.get dir = none) :
    step hashing roots s (.account privateBytes) = some ({ s with
      locks := s.locks.set (components profile) .pass }.goTo pass (.locked path hash)) := by
  have quiet : s.anotherBuildHolds pass.root = false := by
    simp [State.anotherBuildHolds, Table.mem_keys, free]
  simp [step, stepPass, under, place, some_private, there, volume, covers, free, quiet]

theorem step_check {ends : Ends} (under : s.pass = some pass)
    (place : pass.place = .locked path hash) (there : s.files path = some file)
    (length : file.bytes.length = (hashing.content hash).length)
    (fileEnds : readEnds file.bytes = some ends)
    (blobEnds : readEnds (hashing.content hash) = some ends) :
    step hashing roots s .check = some (s.goTo pass (.checked path hash)) := by
  simp [step, stepPass, under, place, there, length, fileEnds, blobEnds]

theorem step_write {build : ℕ} {new : Option TargetFile}
    (profile_dir : ∃ root ∈ roots, IsProfile root profile) (inside : Inside profile (utf8 path))
    (holds : s.locks.get (components profile) = some (.build build)) :
    step hashing roots s (.write build profile path new) = some (s.putFile path new) := by
  have may : (∃ root ∈ roots, IsProfile root profile) ∧ Inside profile (utf8 path) ∧
      s.locks.get (components profile) = some (.build build) := ⟨profile_dir, inside, holds⟩
  simp only [step, if_pos may]

theorem step_unlock {build : ℕ}
    (holds : s.locks.get (components profile) = some (.build build)) :
    step hashing roots s (.unlock build profile) =
      some { s with locks := s.locks.deleteWhere fun dir _ => dir = components profile } := by
  simp [step, holds]

end Runs

theorem library_covered : profileDir target (utf8 library) = some (utf8 "/t/debug") := by
  decide +kernel

/-- A library that no build touches is vetted up to its replacement. -/
theorem untouched_library_alike : ∃ s,
    Reaches (fun s action => ByBuilds action ∧ Undisturbed plain s action) (step plain [target])
      (oneLibrary [(filled 0).bytes]) s ∧
    (∃ index, s.pass = some ⟨index, target, .checked library (filled 0).bytes⟩) ∧
      ReplacedAlike plain s := by
  have there := library_there [(filled 0).bytes]
  have run : Reaches (fun s action => ByBuilds action ∧ Undisturbed plain s action)
    (step plain [target]) (oneLibrary [(filled 0).bytes]) (oneLibrary [(filled 0).bytes]) := .refl
  have calm {s : State Bytes} {action : Action Bytes} (noWrite : ∀ build profile path file,
      action ≠ .write build profile path file) : Undisturbed plain s action :=
    fun build profile path file _ _ _ same => absurd same (noWrite build profile path (some file))
  replace run := reaches_stamped run rfl there ⟨trivial, calm fun _ _ _ _ no => nomatch no⟩
    fun _ => ⟨trivial, calm fun _ _ _ _ no => nomatch no⟩
  replace run := run.tail (a := Action.remembered true)
    ⟨trivial, calm fun _ _ _ _ no => nomatch no⟩ rfl
  replace run := run.tail (a := Action.account 1) ⟨trivial, calm fun _ _ _ _ no => nomatch no⟩
    (step_account rfl rfl Nat.one_ne_zero there rfl library_covered fun _ => rfl)
  replace run := run.tail (a := Action.check) ⟨trivial, calm fun _ _ _ _ no => nomatch no⟩
    (step_check rfl rfl there rfl (readEnds_filled 0) (readEnds_filled 0))
  exact ⟨_, run, ⟨_, rfl⟩, replaced_files_alike rfl run⟩

/-- 64 KiB of zeros but for one byte after the first block. -/
@[irreducible] def patch : Bytes :=
  List.replicate block 0 ++ 1 :: List.replicate (minBytes - block - 1) 0

/-- The library as the next build leaves it. -/
def patched : TargetFile := { filled 0 with bytes := patch, ctime := 2 }

theorem length_patch : patch.length = minBytes := by
  have large : block + 1 ≤ minBytes := by decide
  unfold patch
  rw [List.length_append, List.length_cons, List.length_replicate, List.length_replicate]
  omega

theorem readEnds_patch :
    readEnds patch = some ⟨List.replicate block 0, List.replicate block 0⟩ := by
  have large : block + (block + 1) ≤ minBytes := by decide
  unfold readEnds
  rw [length_patch, if_neg (by omega)]
  unfold patch
  rw [List.take_left' List.length_replicate, List.drop_append,
    List.drop_eq_nil_of_le (by simp; omega), List.length_replicate, List.nil_append]
  obtain ⟨more, split⟩ : ∃ more, minBytes - block - block = more + 1 :=
    ⟨minBytes - block - block - 1, by omega⟩
  have rest : minBytes - block - 1 - more = block := by omega
  rw [split, List.drop_succ_cons, List.drop_replicate, rest]

theorem patch_ne : patch ≠ (filled 0).bytes := by
  intro same
  have mem : (1 : UInt8) ∈ patch := by
    unfold patch
    simp
  rw [same] at mem
  unfold filled filling at mem
  exact absurd (List.eq_of_mem_replicate mem) (by decide)

/-- The pass knows the library by its stamp.  Before it takes the lock, a build changes one byte in
the middle; the pass compares the ends, and is about to put the old bytes in place. -/
theorem middle_lost : ∃ s₀ s : State Bytes, s₀.pass = none ∧
    Reaches (fun _ action => ByBuilds action) (step plain [target]) s₀ s ∧
      ¬ ReplacedAlike plain s := by
  have there := library_there [(filled 0).bytes]
  have run : Reaches (fun _ action => ByBuilds action) (step plain [target])
    (oneLibrary [(filled 0).bytes]) (oneLibrary [(filled 0).bytes]) := .refl
  replace run := reaches_stamped run rfl there trivial fun _ => trivial
  replace run := run.tail (a := Action.remembered true) trivial rfl
  -- the build
  have locked : (Table.empty.set (components (utf8 "/t/debug")) (Holder.build 1)).get
      (components (utf8 "/t/debug")) = some (.build 1) := by
    simp
  have unlocked (dir : List Component) :
      ((Table.empty.set (components (utf8 "/t/debug")) (Holder.build 1)).deleteWhere
        fun dir _ => dir = components (utf8 "/t/debug")).get dir = none := by
    by_cases same : dir = components (utf8 "/t/debug")
    · simp [same]
    · simp [same]
  replace run := run.tail (a := Action.lock 1 (utf8 "/t/debug")) trivial rfl
  replace run := run.tail (a := Action.write 1 (utf8 "/t/debug") library (some patched)) trivial
    (step_write ⟨target, List.mem_cons_self, by decide +kernel⟩ (by decide +kernel) locked)
  replace run := run.tail (a := Action.unlock 1 (utf8 "/t/debug")) trivial (step_unlock locked)
  -- the rest of the pass
  have there' : Function.update (oneLibrary [(filled 0).bytes]).files library (some patched)
      library = some patched :=
    Function.update_self ..
  replace run := run.tail (a := Action.account 1) trivial
    (step_account rfl rfl Nat.one_ne_zero there' rfl library_covered unlocked)
  have length : patched.bytes.length = (filled 0).bytes.length :=
    length_patch.trans (length_filled 0).symm
  replace run := run.tail (a := Action.check) trivial
    (step_check rfl rfl there' length readEnds_patch (readEnds_filled 0))
  exact ⟨_, _, rfl, run, fun alike => patch_ne (alike _ _ library _ patched rfl there')⟩

end Kache.TargetDedup
