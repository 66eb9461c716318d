import Kache.Foundation.UnixPath
import Mathlib.Data.List.Infix

/-!
# Trees of files

A directory, seen through the names one walks from it: `node?` says what is at a
location, a file with its bytes or a directory.  A `FileTree` is closed by
construction, since whatever exists lies in directories that exist.

`createDir`, `createDirAll` and `createFile` are the system calls a program makes
below the directory; they take a path as it is spelled, refuse what the
operating system refuses, and are followed by `file?` alone: each has one
`file?_…` lemma.

`restrict` and `truncated` are what an interrupted removal or copy leaves.
-/

namespace Kache

open UnixPath

/-- What stands at a location. -/
inductive Node where
  | file (bytes : List UInt8)
  | dir
  deriving DecidableEq

/-- The first `n` bytes of a file. -/
def Node.take (n : ℕ) : Node → Node
  | .file bytes => .file (bytes.take n)
  | .dir => .dir

/-- The bytes of a file. -/
def Node.content? : Node → Option (List UInt8)
  | .file bytes => some bytes
  | .dir => none

/-- A directory and everything below it. -/
structure FileTree where
  /-- What stands at the end of a walk. -/
  node? : List OsStr → Option Node
  /-- The tree is a directory. -/
  node?_root : node? [] = some .dir
  /-- What exists, exists in a directory. -/
  node?_parent : ∀ location name, node? (location ++ [name]) ≠ none → node? location = some .dir

variable {tree tree' : FileTree}

namespace FileTree

/-- A fresh directory. -/
def empty : FileTree where
  node? location := if location = [] then some .dir else none
  node?_root := by simp
  node?_parent := by simp

/-- The bytes of the file at a location. -/
def file? (tree : FileTree) (location : List OsStr) : Option (List UInt8) :=
  (tree.node? location).bind Node.content?

@[simp] theorem file?_empty (location : List OsStr) : empty.file? location = none := by
  by_cases hroot : location = [] <;> simp [file?, empty, hroot, Node.content?]

theorem file?_eq_none_of_dir {location : List OsStr} (isDir : tree.node? location = some .dir) :
    tree.file? location = none := by
  rw [file?, isDir]
  rfl

theorem file?_congr {location : List OsStr} (same : tree.node? location = tree'.node? location) :
    tree.file? location = tree'.file? location := by
  rw [file?, file?, same]

/-- The bytes read through a path below the directory. -/
def read? (tree : FileTree) (path : OsStr) : Option (List UInt8) :=
  if mustBeDir path then none else tree.file? (location path)

/-- Put `node` at `parent/name`; a directory is never replaced by a file. -/
def place (tree : FileTree) (parent : List OsStr) (name : OsStr) (node : Node)
    (isDir : tree.node? parent = some .dir)
    (keeps : tree.node? (parent ++ [name]) = some .dir → node = .dir) : FileTree where
  node? location := if location = parent ++ [name] then some node else tree.node? location
  node?_root := by simp [tree.node?_root]
  node?_parent := by
    intro l n present
    by_cases hl : l = parent ++ [name]
    · -- Something below the new node was there before, so the node was a directory.
      subst hl
      rw [if_neg (by simp)] at present
      rw [if_pos rfl, keeps (tree.node?_parent _ n present)]
    · rw [if_neg hl]
      split at present
      · next h =>
        obtain ⟨rfl, -⟩ := List.append_inj' h rfl
        exact isDir
      · exact tree.node?_parent l n present

@[simp] theorem node?_place (tree : FileTree) (parent : List OsStr) (name : OsStr) (node : Node)
    (isDir : tree.node? parent = some .dir)
    (keeps : tree.node? (parent ++ [name]) = some .dir → node = .dir) (l : List OsStr) :
    (tree.place parent name node isDir keeps).node? l =
      if l = parent ++ [name] then some node else tree.node? l := rfl

/-- Every location on the way to `target` is a directory. -/
def withDirs (tree : FileTree) (target : List OsStr) : FileTree where
  node? location := if location <+: target then some .dir else tree.node? location
  node?_root := by simp
  node?_parent := by
    intro l n present
    split at present
    · next h => rw [if_pos ((List.prefix_append l [n]).trans h)]
    · split
      · rfl
      · exact tree.node?_parent l n present

/-! ## System calls -/

/-- `create_dir_all`: fails on a file in the way. -/
def createDirAll (tree : FileTree) (target : List OsStr) : Option FileTree :=
  if ∃ location ∈ target.inits, (tree.file? location).isSome then none
  else some (tree.withDirs target)

/-- Make the directory `parent/name`, which must not exist. -/
def makeDir (tree : FileTree) (parent : List OsStr) (name : OsStr) : Option FileTree :=
  if h : tree.node? parent = some .dir ∧ tree.node? (parent ++ [name]) = none then
    some (tree.place parent name .dir h.1 fun _ => rfl)
  else none

/-- Write the file `parent/name`, over a file of that name. -/
def writeFile (tree : FileTree) (parent : List OsStr) (name : OsStr) (bytes : List UInt8) :
    Option FileTree :=
  if h : tree.node? parent = some .dir ∧ tree.node? (parent ++ [name]) ≠ some .dir then
    some (tree.place parent name (.file bytes) h.1 fun isDir => absurd isDir h.2)
  else none

/-- Make the directory at a path, or find it there. -/
def createDir (tree : FileTree) (path : OsStr) : Option FileTree :=
  if path.contains 0 then none
  else
    match tree.node? (location path) with
    | some .dir => some tree
    | some (.file _) => none
    | none =>
      if endsInDot path then none
      else (location path).getLast?.bind fun name =>
        tree.makeDir (location path).dropLast name

/-- Make the directories a path lies in, then create the file. -/
def createFile (tree : FileTree) (path : OsStr) (bytes : List UInt8) : Option FileTree :=
  if path.contains 0 || mustBeDir path then none
  else
    (location path).getLast?.bind fun name =>
      (tree.createDirAll (location path).dropLast).bind fun tree' =>
        tree'.writeFile (location path).dropLast name bytes

theorem createDirAll_eq_some {target : List OsStr} : tree.createDirAll target = some tree' ↔
    (∀ l, l <+: target → tree.file? l = none) ∧ tree.withDirs target = tree' := by
  unfold createDirAll
  split
  · next blocked =>
    obtain ⟨l, mem, file⟩ := blocked
    simp only [reduceCtorEq, false_iff]
    intro clear
    rw [clear.1 l ((List.mem_inits l target).mp mem)] at file
    cases file
  · next clear =>
    rw [Option.some_inj, and_iff_right]
    intro l mem
    by_contra file
    exact clear ⟨l, (List.mem_inits l target).mpr mem, Option.isSome_iff_ne_none.mpr file⟩

/-- A file and the directories it lies in, below the tree's own. -/
theorem createFile_eq_some {path : OsStr} {bytes : List UInt8} :
    tree.createFile path bytes = some tree' ↔ path.contains 0 = false ∧ mustBeDir path = false ∧
      ∃ parent name, location path = parent ++ [name] ∧ (∀ l, l <+: parent → tree.file? l = none) ∧
        (tree.withDirs parent).writeFile parent name bytes = some tree' := by
  unfold createFile
  cases path.contains 0 <;> cases mustBeDir path
  case false.false =>
    rcases List.eq_nil_or_concat' (location path) with root | ⟨parent, name, whole⟩
    · simp [root]
    · simp only [whole, Bool.or_self, Bool.false_eq_true, if_false, List.getLast?_concat,
        List.dropLast_concat, Option.bind_some, Option.bind_eq_some_iff,
        createDirAll_eq_some, true_and]
      constructor
      · rintro ⟨_, ⟨clear, rfl⟩, written⟩
        exact ⟨parent, name, rfl, clear, written⟩
      · rintro ⟨parent', name', same, clear, written⟩
        obtain ⟨rfl, last⟩ := List.append_inj' same rfl
        obtain rfl := List.singleton_inj.mp last
        exact ⟨_, ⟨clear, rfl⟩, written⟩
  all_goals simp

/-- Where no file is in the way, none becomes a directory. -/
theorem file?_withDirs {target : List OsStr} (clear : ∀ l, l <+: target → tree.file? l = none)
    (l : List OsStr) : (tree.withDirs target).file? l = tree.file? l := by
  by_cases below : l <+: target
  · rw [clear l below, file?_eq_none_of_dir (if_pos below)]
  · exact file?_congr (if_neg below)

theorem file?_makeDir {parent : List OsStr} {name : OsStr}
    (done : tree.makeDir parent name = some tree') (l : List OsStr) :
    tree'.file? l = tree.file? l := by
  unfold makeDir at done
  split at done
  · next h =>
    cases done
    by_cases hl : l = parent ++ [name]
    · have hold : tree.file? l = none := by rw [hl, file?, h.2]; rfl
      rw [hold, file?_eq_none_of_dir (if_pos hl)]
    · exact file?_congr (if_neg hl)
  · cases done

theorem file?_writeFile {parent : List OsStr} {name : OsStr} {bytes : List UInt8}
    (done : tree.writeFile parent name bytes = some tree') (l : List OsStr) :
    tree'.file? l = if l = parent ++ [name] then some bytes else tree.file? l := by
  unfold writeFile at done
  split at done
  · cases done
    split
    · next hl => rw [file?, node?_place, if_pos hl]; rfl
    · next hl => exact file?_congr (if_neg hl)
  · cases done

/-- A new directory is no file and hides none. -/
theorem file?_createDir {path : OsStr} (done : tree.createDir path = some tree') (l : List OsStr) :
    tree'.file? l = tree.file? l := by
  obtain ⟨-, done⟩ := Option.ite_none_left_eq_some.mp done
  split at done
  · cases done
    rfl
  · cases done
  · split at done
    · cases done
    · obtain ⟨name, -, made⟩ := Option.bind_eq_some_iff.mp done
      exact file?_makeDir made l

/-- **A created file is at the location of its path**, and every other file is
what it was. -/
theorem file?_createFile {path : OsStr} {bytes : List UInt8}
    (done : tree.createFile path bytes = some tree') (l : List OsStr) :
    tree'.file? l = if l = location path then some bytes else tree.file? l := by
  obtain ⟨-, -, parent, name, whole, clear, written⟩ := createFile_eq_some.mp done
  rw [file?_writeFile written, whole, file?_withDirs clear]

/-! ## What the calls refuse, and the directories they make -/

theorem node?_eq_none_iff {l : List OsStr} :
    tree.node? l = none ↔ tree.node? l ≠ some .dir ∧ tree.file? l = none := by
  unfold file?
  cases tree.node? l with
  | none => simp
  | some node => cases node <;> simp [Node.content?]

/-- When a directory can be made. -/
theorem exists_createDir_iff {path : OsStr} : (∃ tree', tree.createDir path = some tree') ↔
    path.contains 0 = false ∧ (tree.node? (location path) = some .dir ∨
      tree.node? (location path) = none ∧ endsInDot path = false ∧
        tree.node? (location path).dropLast = some .dir) := by
  unfold createDir
  cases path.contains 0 with
  | true => simp
  | false =>
  cases found : tree.node? (location path) with
  | some node => cases node <;> simp
  | none =>
    have some : location path ≠ [] := by
      intro root
      rw [root, tree.node?_root] at found
      cases found
    have last := List.getLast?_eq_some_getLast some
    have whole := List.dropLast_append_getLast some
    cases endsInDot path <;> simp [last, makeDir, whole, found]

theorem isDir_createDir {path : OsStr} (done : tree.createDir path = some tree') (l : List OsStr) :
    tree'.node? l = some .dir ↔ tree.node? l = some .dir ∨ l = location path := by
  unfold createDir makeDir at done
  grind [Option.bind_eq_some_iff, node?_place, List.dropLast_append_getLast?]

theorem not_append_isPrefix (parent : List OsStr) (name : OsStr) :
    ¬ parent ++ [name] <+: parent := by
  intro longer
  have := longer.length_le
  rw [List.length_append, List.length_singleton] at this
  omega

/-- When a file can be created. -/
theorem exists_createFile_iff {path : OsStr} {bytes : List UInt8} :
    (∃ tree', tree.createFile path bytes = some tree') ↔
      path.contains 0 = false ∧ mustBeDir path = false ∧ location path ≠ [] ∧
        tree.node? (location path) ≠ some .dir ∧
        ∀ l, l <+: (location path).dropLast → tree.file? l = none := by
  simp only [createFile_eq_some, exists_and_left]
  refine and_congr_right' (and_congr_right' ?_)
  rcases List.eq_nil_or_concat' (location path) with root | ⟨parent, name, whole⟩
  · simp [root]
  · constructor
    · rintro ⟨tree', parent', name', same, clear, written⟩
      rw [same, List.dropLast_concat]
      unfold writeFile at written
      split at written
      · next free =>
        refine ⟨by simp, fun isDir => free.2 ?_, clear⟩
        exact (if_neg (not_append_isPrefix _ _)).trans isDir
      · cases written
    · rw [whole, List.dropLast_concat]
      rintro ⟨-, notDir, clear⟩
      refine ⟨_, parent, name, rfl, clear, dif_pos ⟨if_pos List.prefix_rfl, ?_⟩⟩
      rwa [show (tree.withDirs parent).node? (parent ++ [name]) = tree.node? (parent ++ [name]) from
        if_neg (not_append_isPrefix _ _)]

theorem isDir_createFile {path : OsStr} {bytes : List UInt8}
    (done : tree.createFile path bytes = some tree') (l : List OsStr) :
    tree'.node? l = some .dir ↔ tree.node? l = some .dir ∨ l <+: (location path).dropLast := by
  obtain ⟨-, -, parent, name, whole, -, written⟩ := createFile_eq_some.mp done
  have apart := not_append_isPrefix parent name
  unfold writeFile at written
  split at written
  · next free =>
    cases written
    rw [node?_place, whole, List.dropLast_concat]
    have free : tree.node? (parent ++ [name]) ≠ some .dir := fun isDir =>
      free.2 ((if_neg apart).trans isDir)
    by_cases here : l = parent ++ [name]
    · simp [here, free, apart]
    · rw [if_neg here]
      show (if l <+: parent then some Node.dir else tree.node? l) = some .dir ↔ _
      split
      · next below => simp [below]
      · next aside => simp [aside]
  · cases written

/-! ## Interrupted operations -/

/-- The part of a tree that `keep` keeps, with the directories on the way. -/
def restrict (tree : FileTree) (keep : List OsStr → Bool) : FileTree where
  node? location :=
    if ∀ l ∈ location.inits, l = [] ∨ keep l = true then tree.node? location else none
  node?_root := by simp [tree.node?_root]
  node?_parent := by
    intro l n present
    split at present
    · next h =>
      rw [if_pos fun l' mem => h l' ?_]
      · exact tree.node?_parent l n present
      · rw [List.mem_inits] at mem ⊢
        exact mem.trans (List.prefix_append l [n])
    · exact absurd rfl present

/-- The tree with every file cut to a length. -/
def truncated (tree : FileTree) (length : List OsStr → ℕ) : FileTree where
  node? location := (tree.node? location).map (Node.take (length location))
  node?_root := by rw [tree.node?_root]; rfl
  node?_parent := by
    intro l n present
    rw [tree.node?_parent l n (by simpa using present)]
    rfl

/-- What is kept, is kept with every directory on the way. -/
def Kept (keep : List OsStr → Bool) (location : List OsStr) : Prop :=
  ∀ l ∈ location.inits, l = [] ∨ keep l = true

instance (keep : List OsStr → Bool) (location : List OsStr) : Decidable (Kept keep location) :=
  inferInstanceAs (Decidable (∀ l ∈ location.inits, l = [] ∨ keep l = true))

theorem file?_restrict (tree : FileTree) (keep : List OsStr → Bool) (l : List OsStr) :
    (tree.restrict keep).file? l = if Kept keep l then tree.file? l else none := by
  show ((if Kept keep l then tree.node? l else none).bind Node.content?) = _
  split
  · rfl
  · rfl

theorem file?_truncated (tree : FileTree) (length : List OsStr → ℕ) (l : List OsStr) :
    (tree.truncated length).file? l = (tree.file? l).map (List.take (length l)) := by
  show ((tree.node? l).map (Node.take (length l))).bind Node.content?
    = ((tree.node? l).bind Node.content?).map (List.take (length l))
  cases tree.node? l with
  | none => rfl
  | some node => cases node <;> rfl

end FileTree

end Kache
