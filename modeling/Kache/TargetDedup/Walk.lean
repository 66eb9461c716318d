import Kache.Foundation.PathOrder

/-!
# Walking a target directory in slices

`collect_candidates` lists the files below a target directory that may be shared with the store, a
slice at a time: it is given the path of the last file of the slice before and a limit.  The walk
visits directories by the names of their entries, but what it passes over is decided by comparing
the texts of whole paths.  These are two orders.  A directory `foo` comes before its neighbour
`foo.o`, while the text `foo/a.o` comes after `foo.o`, because `.` is a smaller byte than `/`.

A call is accounted for by one list, the files still `ahead` of its cursor (`walked_ahead`).  The
whole list is in the order of names (`pairwise_files`); slices put together are the whole list
exactly if the texts of its paths increase (`resumed_walks_complete_iff`), which is a condition on
names.

Directories that cannot be read are not part of the model, and names are UTF-8, so that
`to_string_lossy` is the path itself.
-/

namespace Kache.TargetDedup

open UnixPath

/-! ## Candidates -/

/-- `MIN_BYTES`: smaller files are not worth a clone. -/
def minBytes : ℕ := 64 * 1024

/-- `skipped_dir`: a directory that a scan does not enter. -/
def skippedDir (name : OsStr) : Bool := name = utf8 "incremental" || name = utf8 ".fingerprint"

/-- `artifact_extension`. -/
def artifactExtension : Option OsStr → Bool
  | none => false
  | some ext =>
    ["rlib", "rmeta", "so", "dylib", "a", "o", "dll", "lib", "exe", "pdb"].any fun known =>
      ext = utf8 known

/-- `candidate`: whether a file, given by its path from the target root, may be cloned. -/
def candidate (relative : OsStr) (len : ℕ) : Bool :=
  minBytes ≤ len &&
    !(components relative).any (fun component =>
      match component with
      | .normal name => skippedDir name
      | _ => false) &&
    artifactExtension (extension relative)

/-- A path as seen from the target root. -/
def relativeTo (root path : OsStr) : OsStr := (stripPrefix root path).getD path

/-! ## Directories -/

/-- What a directory holds, in the order that `read_dir` and `sort_by_key` on the names give. -/
inductive Listing where
  | nil
  | file (name : OsStr) (len : ℕ) (rest : Listing)
  | dir (name : OsStr) (nested rest : Listing)
  /-- A symlink, or neither a directory nor a regular file. -/
  | other (name : OsStr) (rest : Listing)

namespace Listing

def names : Listing → List OsStr
  | nil => []
  | file name _ rest => name :: rest.names
  | dir name _ rest => name :: rest.names
  | other name rest => name :: rest.names

/-- Every name is one that an entry can have, and they are in strict order. -/
def WellNamed : Listing → Prop
  | nil => True
  | file name _ rest => IsName name ∧ (∀ n ∈ rest.names, byteOrder name < byteOrder n) ∧
      rest.WellNamed
  | dir name nested rest =>
    IsName name ∧ (∀ n ∈ rest.names, byteOrder name < byteOrder n) ∧ nested.WellNamed ∧
      rest.WellNamed
  | other name rest => IsName name ∧ (∀ n ∈ rest.names, byteOrder name < byteOrder n) ∧
      rest.WellNamed

/-- The regular files at any depth: the names that lead to each, and its length. -/
def files : Listing → List (List OsStr × ℕ)
  | nil => []
  | file name len rest => ([name], len) :: rest.files
  | dir name nested rest => (nested.files.map fun f => (name :: f.1, f.2)) ++ rest.files
  | other _ rest => rest.files

end Listing

/-- A target directory and all that is below it. -/
structure Target where
  root : OsStr
  entries : Listing
  wellNamed : entries.WellNamed

/-- A file that a full scan of the target is to find. -/
def Target.Wanted (target : Target) (names : List OsStr) : Prop :=
  ∃ len, (names, len) ∈ target.entries.files ∧ (∀ dir ∈ names.dropLast, skippedDir dir = false) ∧
    candidate (relativeTo target.root (below target.root names)) len = true

/-! ## The walk -/

/-- `path_holds`. -/
def pathHolds (dir cursor : OsStr) : Bool :=
  dir <+: cursor && (cursor.drop dir.length = [] || (cursor.drop dir.length).head? = some slash)

/-- `path_still_ahead`: the cursor is inside the directory, or sorts at or before it. -/
def pathStillAhead (dir cursor : OsStr) : Bool :=
  cursor ≠ dir && pathHolds dir cursor || byteOrder cursor ≤ byteOrder dir

/-- `dir_may_contain`. -/
def dirMayContain (dir cursor : OsStr) : Bool := cursor = [] || pathStillAhead dir cursor

/-- The loop of `walk_candidates` over the entries of a directory, with the files collected so
far. -/
def walkEntries (root cursor : OsStr) (limit : ℕ) : OsStr → Listing → List OsStr → Bool × List OsStr
  | _, .nil, out => (true, out)
  | dir, .other _ rest, out =>
    if limit ≤ out.length then (false, out) else walkEntries root cursor limit dir rest out
  | dir, .dir name nested rest, out =>
    if limit ≤ out.length then (false, out)
    else if skippedDir name then walkEntries root cursor limit dir rest out
    else if dirMayContain (push dir name) cursor = false then
      walkEntries root cursor limit dir rest out
    else
      -- the recursive call compares with the limit once more, which cannot come out otherwise
      match walkEntries root cursor limit (push dir name) nested out with
      | (false, out) => (false, out)
      | (true, out) => walkEntries root cursor limit dir rest out
  | dir, .file name len rest, out =>
    if limit ≤ out.length then (false, out)
    else if candidate (relativeTo root (push dir name)) len = false then
      walkEntries root cursor limit dir rest out
    else if cursor ≠ [] ∧ byteOrder (push dir name) ≤ byteOrder cursor then
      walkEntries root cursor limit dir rest out
    else walkEntries root cursor limit dir rest (out ++ [push dir name])

/-- `walk_candidates`. -/
def walkCandidates (root dir cursor : OsStr) (limit : ℕ) (entries : Listing) (out : List OsStr) :
    Bool × List OsStr :=
  if limit ≤ out.length then (false, out) else walkEntries root cursor limit dir entries out

/-- `collect_candidates`: whether the tree ended before the limit, and the files collected. -/
def Target.collectCandidates (target : Target) (cursor : OsStr) (limit : ℕ) : Bool × List OsStr :=
  if limit = 0 then (false, []) else
    walkCandidates target.root target.root cursor limit target.entries []

/-- Calls from a cursor on, with the limit and the files of each, until one says that the tree
ended. A call starts behind the last file of the one before. -/
inductive Target.Calls (target : Target) : OsStr → List ℕ → List (List OsStr) → Prop
  | last {cursor limit out} (ended : target.collectCandidates cursor limit = (true, out)) :
      Calls target cursor [limit] [out]
  | next {cursor limit out final limits outs}
      (stopped : target.collectCandidates cursor limit = (false, out))
      (reached : out.getLast? = some final) (rest : Calls target final limits outs) :
      Calls target cursor (limit :: limits) (out :: outs)

/-! ## What is still ahead of a cursor -/

/-- Whether the walk with a cursor gets to a file and takes it, as far as its names decide. -/
def reached (cursor : OsStr) : OsStr → List OsStr → Bool
  | _, [] => false
  | dir, [name] => cursor = [] || byteOrder cursor < byteOrder (push dir name)
  | dir, name :: next :: rest =>
    !skippedDir name && dirMayContain (push dir name) cursor && reached cursor (push dir name)
      (next :: rest)

/-- The files that the walk finds without a limit, in its order. -/
def ahead (root cursor dir : OsStr) (entries : Listing) : List (List OsStr) :=
  (entries.files.filter fun f =>
    reached cursor dir f.1 && candidate (relativeTo root (below dir f.1)) f.2).map Prod.fst

variable {entries : Listing} {f : List OsStr × ℕ} {u v before : List OsStr} {cursor : OsStr}

namespace Listing

theorem exists_name_of_mem_files (mem : f ∈ entries.files) :
    ∃ name rest, f.1 = name :: rest ∧ name ∈ entries.names := by
  induction entries with
  | nil => cases mem
  | file _ _ _ _ | dir _ _ _ _ _ | other _ _ _ => grind [files, names]

theorem ne_nil_of_mem_files (mem : f ∈ entries.files) : f.1 ≠ [] := by
  obtain ⟨name, rest, same, -⟩ := exists_name_of_mem_files mem
  rw [same]
  exact List.cons_ne_nil name rest

end Listing

theorem ahead_file (root cursor dir name : OsStr) (len : ℕ) (rest : Listing) :
    ahead root cursor dir (.file name len rest) =
      (if (cursor = [] || byteOrder cursor < byteOrder (push dir name)) &&
          candidate (relativeTo root (push dir name)) len then [[name]] else []) ++
        ahead root cursor dir rest := by
  have one : reached cursor dir [name] =
      (cursor = [] || byteOrder cursor < byteOrder (push dir name)) := rfl
  have path : below dir [name] = push dir name := rfl
  unfold ahead
  rw [Listing.files, List.filter_cons, path, one]
  split
  · rfl
  · rfl

theorem ahead_dir (root cursor dir name : OsStr) (nested rest : Listing) :
    ahead root cursor dir (.dir name nested rest) =
      (if skippedDir name = false ∧ dirMayContain (push dir name) cursor = true then
        (ahead root cursor (push dir name) nested).map (name :: ·) else []) ++
            ahead root cursor dir rest := by
  unfold ahead
  rw [Listing.files, List.filter_append, List.map_append, List.filter_map, List.map_map]
  congr 1
  have step : ∀ f ∈ nested.files,
      ((fun f : List OsStr × ℕ => reached cursor dir f.1 &&
        candidate (relativeTo root (below dir f.1)) f.2) ∘
          fun f => (name :: f.1, f.2)) f =
        (!skippedDir name && dirMayContain (push dir name) cursor &&
          (reached cursor (push dir name) f.1 &&
            candidate (relativeTo root (below (push dir name) f.1)) f.2)) := by
    rintro ⟨names, len⟩ mem
    obtain ⟨next, more, rfl⟩ := List.exists_cons_of_ne_nil (Listing.ne_nil_of_mem_files mem)
    exact Bool.and_assoc _ _ _
  rw [List.filter_congr step]
  split
  · next goes =>
    simp only [goes.1, goes.2, Bool.not_false, Bool.true_and, List.map_map]
    rfl
  · next stays =>
    have none : (!skippedDir name && dirMayContain (push dir name) cursor) = false := by
      cases skipped : skippedDir name <;> cases may : dirMayContain (push dir name) cursor <;>
        simp_all
    simp [none]

/-- What became of a list of files ahead, with room for some of them. -/
structure Walked (limit : ℕ) (out todo : List OsStr) (result : Bool × List OsStr) : Prop where
  collected : result.2 = out ++ todo.take (limit - out.length)
  room : result.1 = true → todo.length ≤ limit - out.length
  full : result.1 = false → limit ≤ out.length + todo.length

namespace Walked

variable {limit : ℕ} {out todo more : List OsStr} {result : Bool × List OsStr}

theorem nothing (limit : ℕ) (out : List OsStr) : Walked limit out [] (true, out) where
  collected := by simp
  room _ := Nat.zero_le _
  full no := nomatch no

theorem atLimit (reached : limit ≤ out.length) (todo : List OsStr) :
    Walked limit out todo (false, out) where
  collected := by simp [Nat.sub_eq_zero_of_le reached]
  room no := nomatch no
  full _ := by omega

/-- Files that are taken before the limit leave the rest to be walked. -/
theorem go_on {first : List OsStr} (fits : first.length ≤ limit - out.length)
    (rest : Walked limit (out ++ first) more result) : Walked limit out (first ++ more) result where
  collected := by
    rw [rest.collected, List.take_append, List.take_of_length_le fits, List.length_append,
      Nat.sub_add_eq, List.append_assoc]
  room ended := by
    have := rest.room ended
    simp only [List.length_append] at *
    omega
  full stopped := by
    have := rest.full stopped
    simp only [List.length_append] at *
    omega

/-- A walk that stopped does not get to what comes later. -/
theorem stop {taken : List OsStr} (walked : Walked limit out todo (false, taken))
    (more : List OsStr) : Walked limit out (todo ++ more) (false, taken) where
  collected := by
    have full := walked.full rfl
    rw [walked.collected, List.take_append_of_le_length (by omega)]
  room no := nomatch no
  full _ := by
    have full := walked.full rfl
    rw [List.length_append]
    omega

end Walked

theorem walked_ahead (root cursor dir : OsStr) (limit : ℕ) (entries : Listing) (out : List OsStr) :
    Walked limit out ((ahead root cursor dir entries).map (below dir))
      (walkEntries root cursor limit dir entries out) := by
  fun_induction walkEntries root cursor limit dir entries out with
  | case1 dir out => exact .nothing limit out
  | case2 | case4 | case9 => exact .atLimit ‹_› _
  | case3 dir name rest out _ ih => exact ih
  | case5 dir name nested rest out _ skipped ih =>
    rw [ahead_dir, if_neg (by simp [skipped])]
    exact ih
  | case6 dir name nested rest out _ _ pruned ih =>
    rw [ahead_dir, if_neg (by simp [pruned])]
    exact ih
  | case7 dir name nested rest out _ entered may taken stopped inside =>
    rw [ahead_dir, if_pos (by simp_all), List.map_append, List.map_map]
    rw [stopped] at inside
    exact inside.stop _
  | case8 dir name nested rest out _ entered may taken ended inside ih =>
    rw [ahead_dir, if_pos (by simp_all), List.map_append, List.map_map]
    rw [ended] at inside
    have fits := inside.room rfl
    obtain rfl : taken = out ++ _ := inside.collected.trans (by rw [List.take_of_length_le fits])
    exact Walked.go_on fits ih
  | case10 dir name len rest out _ unfit ih =>
    rw [ahead_file, unfit, Bool.and_false, if_neg Bool.false_ne_true]
    exact ih
  | case11 dir name len rest out _ _ behind ih =>
    rw [ahead_file, if_neg (by simp [behind.1, behind.2])]
    exact ih
  | case12 dir name len rest out room fit before ih =>
    have goes : (cursor = [] || byteOrder cursor < byteOrder (push dir name) : Bool) = true := by
      by_cases start : cursor = []
      · simp [start]
      · simpa [start] using before
    rw [ahead_file, goes, Bool.not_eq_false _ |>.mp fit, Bool.and_self, if_pos rfl]
    have one : [push dir name].length ≤ limit - out.length := by
      rw [List.length_singleton]
      omega
    exact Walked.go_on one ih

/-! ## The order of names -/

/-- Two paths part at some directory, where the first goes on with the smaller name. -/
def Precedes (u v : List OsStr) : Prop :=
  ∃ front x u' y v', u = front ++ x :: u' ∧ v = front ++ y :: v' ∧ byteOrder x < byteOrder y

theorem Precedes.cons {u v : List OsStr} (name : OsStr) (precedes : Precedes u v) :
    Precedes (name :: u) (name :: v) := by
  obtain ⟨front, x, u', y, v', rfl, rfl, lt⟩ := precedes
  exact ⟨name :: front, x, u', y, v', rfl, rfl, lt⟩

theorem Precedes.asymm (first : Precedes u v) : ¬ Precedes v u := by
  obtain ⟨front, x, u', y, v', rfl, rfl, lt⟩ := first
  rintro ⟨other, y₂, v₂, x₂, u₂, sameV, sameU, gt⟩
  -- they part only once, so the two partings are at the same place
  induction front generalizing other with
  | nil => cases other <;> grind
  | cons name front ih =>
    cases other with
    | nil => grind
    | cons name' other => exact ih other (List.cons.inj sameV).2 (List.cons.inj sameU).2

namespace Listing

theorem isName_of_mem_files (named : entries.WellNamed) (mem : f ∈ entries.files) : ∀ name ∈ f.1,
    IsName name := by
  induction entries generalizing f with
  | nil => cases mem
  | file _ _ _ _ | other _ _ _ => grind [files, WellNamed]
  | dir name nested rest ihInner ih =>
    rcases List.mem_append.mp mem with inside | later
    · obtain ⟨g, found, rfl⟩ := List.mem_map.mp inside
      exact List.forall_mem_cons.mpr ⟨named.1, ihInner named.2.2.1 found⟩
    · exact ih named.2.2.2 later

/-- The files of a directory are listed in the order of names. -/
theorem pairwise_files (named : entries.WellNamed) :
    entries.files.Pairwise fun f g => Precedes f.1 g.1 := by
  -- what starts with a smaller name precedes whatever an entry listed later holds
  have across : ∀ {name : OsStr} {more : List OsStr} {rest : Listing},
      (∀ n ∈ rest.names, byteOrder name < byteOrder n) → ∀ g ∈ rest.files,
      Precedes (name :: more) g.1 := by
    intro name more rest smaller g mem
    obtain ⟨n, tail, same, known⟩ := exists_name_of_mem_files mem
    exact ⟨[], name, more, n, tail, rfl, same, smaller n known⟩
  induction entries with
  | nil => exact List.Pairwise.nil
  | file name len rest ih => exact List.pairwise_cons.mpr ⟨across named.2.1, ih named.2.2⟩
  | dir name nested rest ihInner ih =>
    refine List.pairwise_append.mpr ⟨?_, ih named.2.2.2, ?_⟩
    · exact List.pairwise_map.mpr ((ihInner named.2.2.1).imp fun precedes => precedes.cons name)
    · intro f mem g later
      obtain ⟨f, -, rfl⟩ := List.mem_map.mp mem
      exact across named.2.1 g later
  | other name rest ih => exact ih named.2.2

end Listing

/-! ## Which files a cursor lets through -/

theorem below_append (dir : OsStr) (front rest : List OsStr) :
    below dir (front ++ rest) = below (below dir front) rest := List.foldl_append

/-- The text of a path from the directory where it parts from another. -/
theorem below_parting (dir : OsStr) {front rest : List OsStr} {x : OsStr}
    (named : ∀ name ∈ front ++ x :: rest, IsName name) :
    below dir (front ++ x :: rest) =
      lead (below dir front) ++ (x ++ rest.flatMap (slash :: ·)) := by
  rw [below_append]
  exact below_cons _ fun name mem => named name (List.mem_append_right _ mem)

theorem lead_below (dir : OsStr) {names : List OsStr} (some_name : names ≠ [])
    (named : ∀ name ∈ names, IsName name) :
    lead (below dir names) = below dir names ++ [slash] := by
  obtain ⟨init, final, rfl⟩ := List.eq_nil_or_concat names |>.resolve_left some_name
  rw [List.concat_eq_append] at *
  rw [below_append]
  exact lead_push _ (named final (by simp))

/-- Behind a name, a path ends or goes on with a separator, which is in no name. -/
theorem separator_apart (rest : List OsStr) {name : OsStr} (named : IsName name) :
    ∀ a ∈ (byteOrder (rest.flatMap (slash :: ·))).head?, a ∉ byteOrder name := by
  intro a head inside
  cases rest with
  | nil => cases head
  | cons next rest =>
    have here : a = slash.toNat := (Option.some.inj head).symm
    exact named.single (toNat_mem_byteOrder.mp (here ▸ inside))

theorem pathStillAhead_of_inside (dir rest : OsStr) :
    pathStillAhead dir (dir ++ slash :: rest) = true := by
  simp [pathStillAhead, pathHolds]

theorem pathStillAhead_of_le {dir : OsStr} (le : byteOrder cursor ≤ byteOrder dir) :
    pathStillAhead dir cursor = true := by
  simp [pathStillAhead, le]

theorem reached_iff (cursor dir : OsStr) (names : List OsStr) :
    reached cursor dir names = true ↔
      names ≠ [] ∧ (∀ name ∈ names.dropLast, skippedDir name = false) ∧
      (∀ front rest, names = front ++ rest → front ≠ [] → rest ≠ [] →
        dirMayContain (below dir front) cursor = true) ∧
      (cursor = [] ∨ byteOrder cursor < byteOrder (below dir names)) := by
  induction names generalizing dir with
  | nil => simp [reached]
  | cons name names ih =>
    cases names with
    | nil =>
      have alone : ∀ front rest : List OsStr, [name] = front ++ rest → front ≠ [] → rest = [] := by
        intro front rest same some_name
        rcases List.append_eq_singleton_iff.mp same.symm with ⟨none, -⟩ | ⟨-, none⟩
        · exact absurd none some_name
        · exact none
      simp only [reached, Bool.or_eq_true, decide_eq_true_eq]
      constructor
      · exact fun taken => ⟨List.cons_ne_nil _ _, by simp,
          fun front rest same some_name more => absurd (alone front rest same some_name) more,
          taken⟩
      · exact fun all => all.2.2.2
    | cons next rest =>
      simp only [reached, Bool.and_eq_true, Bool.not_eq_true', ih, and_assoc]
      constructor
      · rintro ⟨enters, may, -, others, dirs, taken⟩
        refine ⟨List.cons_ne_nil _ _, ?_, ?_, taken⟩
        · exact List.forall_mem_cons.mpr ⟨enters, others⟩
        · intro front tail same some_name more
          obtain ⟨first, front, rfl⟩ := List.exists_cons_of_ne_nil some_name
          obtain ⟨rfl, behind⟩ := List.cons.inj same
          by_cases none : front = []
          · subst none
            exact may
          · exact dirs front tail behind none more
      · rintro ⟨-, others, dirs, taken⟩
        obtain ⟨enters, others⟩ := List.forall_mem_cons.mp others
        refine ⟨enters, ?_, List.cons_ne_nil _ _, others, ?_, taken⟩
        · exact dirs [name] (next :: rest) rfl (List.cons_ne_nil _ _) (List.cons_ne_nil _ _)
        · intro front tail same some_name more
          exact dirs (name :: front) tail (by rw [same]; rfl) (List.cons_ne_nil _ _) more

namespace Target

variable {target : Target}

/-- The files to be found, as the walk comes to them. -/
def wanted (target : Target) : List (List OsStr) := ahead target.root [] target.root target.entries

/-- The path of a file of the target. -/
def path (target : Target) (names : List OsStr) : OsStr := below target.root names

/-- The paths that the walk with a cursor finds without a limit. -/
def todo (target : Target) (cursor : OsStr) : List OsStr :=
  (ahead target.root cursor target.root target.entries).map target.path

theorem mem_wanted {names : List OsStr} : names ∈ target.wanted ↔ target.Wanted names := by
  unfold wanted ahead Wanted
  simp only [List.mem_map, List.mem_filter, Bool.and_eq_true, reached_iff]
  constructor
  · rintro ⟨⟨names, len⟩, ⟨mem, ⟨-, enters, -⟩, fits⟩, rfl⟩
    exact ⟨len, mem, enters, fits⟩
  · rintro ⟨len, mem, enters, fits⟩
    exact ⟨(names, len),
      ⟨mem, ⟨Listing.ne_nil_of_mem_files mem, enters, fun _ _ _ _ _ => rfl, .inl trivial⟩, fits⟩,
      rfl⟩

theorem Wanted.isName {names : List OsStr} (found : target.Wanted names) : ∀ name ∈ names,
    IsName name := by
  obtain ⟨len, mem, -⟩ := found
  exact Listing.isName_of_mem_files target.wellNamed mem

theorem Wanted.ne_nil {names : List OsStr} (found : target.Wanted names) : names ≠ [] := by
  obtain ⟨len, mem, -⟩ := found
  exact Listing.ne_nil_of_mem_files mem

theorem Wanted.path_ne_nil {names : List OsStr} (found : target.Wanted names) :
    target.path names ≠ [] := by
  have named := found.isName
  obtain ⟨name, rest, rfl⟩ := List.exists_cons_of_ne_nil found.ne_nil
  unfold path
  rw [below_cons _ named]
  have some_byte := (named name List.mem_cons_self).nonempty
  simp [some_byte]

theorem pairwise_wanted (target : Target) : target.wanted.Pairwise Precedes :=
  List.pairwise_map.mpr ((Listing.pairwise_files target.wellNamed).filter _)

/-- A cursor only takes files away. -/
theorem ahead_eq_filter (target : Target) (cursor : OsStr) :
    ahead target.root cursor target.root target.entries =
      target.wanted.filter (reached cursor target.root) := by
  unfold wanted ahead
  rw [List.filter_map, List.filter_filter]
  congr 1
  refine List.filter_congr fun f _ => ?_
  have weaker : reached cursor target.root f.1 = true → reached [] target.root f.1 = true := by
    simp only [reached_iff]
    exact fun ⟨some_name, enters, _, _⟩ => ⟨some_name, enters, fun _ _ _ _ _ => rfl, .inl trivial⟩
  rw [Function.comp_apply]
  cases taken : reached cursor target.root f.1 with
  | false => rfl
  | true => rw [weaker taken, Bool.true_and, Bool.true_and]

/-- No directory with a file to be found stands beside an entry that is or holds one and whose name
is the directory's, followed by a byte below the separator. -/
def Orderly (target : Target) : Prop :=
  ∀ front d rest e rest' b after, target.Wanted (front ++ d :: rest) → rest ≠ [] →
    target.Wanted (front ++ e :: rest') → e = d ++ b :: after → slash < b

/-- In an orderly target, the order of names is the order of texts. -/
theorem Orderly.path_lt (orderly : target.Orderly) (hu : target.Wanted u) (hv : target.Wanted v)
    (precedes : Precedes u v) :
    byteOrder (target.path u) < byteOrder (target.path v) := by
  obtain ⟨front, x, u', y, v', rfl, rfl, lt⟩ := precedes
  have named := hv.isName y (by simp)
  unfold path
  rw [below_parting _ hu.isName, below_parting _ hv.isName]
  simp only [byteOrder_append]
  rw [append_lt_append_iff, append_lt_append_iff_lt lt (separator_apart u' named)]
  cases u' with
  | nil => simpa [byteOrder] using lt
  | cons next more =>
    refine append_cons_lt lt fun b after same => ?_
    obtain ⟨s, t, rfl, first, second⟩ := List.map_eq_append_iff.mp same
    obtain ⟨c, t', rfl, rfl, -⟩ := List.map_eq_cons_iff.mp second
    have plain : s = x := List.map_injective_iff.mpr (fun _ _ => UInt8.toNat_inj.mp) first
    subst plain
    exact UInt8.lt_iff_toNat_lt.mp
      (orderly front s (next :: more) _ v' c t' hu (List.cons_ne_nil _ _) hv rfl)

/-- A file behind the cursor in the order of names and of texts is not lost to a pruned
directory. -/
theorem reached_of_precedes (hu : target.Wanted u) (hv : target.Wanted v) (precedes : Precedes v u)
    (later : byteOrder (target.path v) < byteOrder (target.path u)) :
    reached (target.path v) target.root u = true := by
  obtain ⟨len, -, enters, -⟩ := id hu
  refine (reached_iff _ _ _).mpr ⟨hu.ne_nil, enters, fun dir rest split some_name more =>
    ?_, .inr later⟩
  have namedDir : ∀ name ∈ dir, IsName name :=
    fun name mem => hu.isName name (split ▸ List.mem_append_left _ mem)
  obtain ⟨front, y, v', x, u', rfl, rfl, lt⟩ := precedes
  -- the directory is above the parting, or the later path goes on with it there
  have place : (∃ a, front = dir ++ a) ∨ ∃ c, dir = front ++ x :: c := by
    rcases List.append_eq_append_iff.mp split with ⟨a, rfl, tail⟩ | ⟨a, rfl, -⟩
    · cases a with
      | nil => exact .inl ⟨[], by simp⟩
      | cons z c => exact .inr ⟨c, by rw [(List.cons.inj tail).1]⟩
    · exact .inl ⟨a, rfl⟩
  unfold dirMayContain
  rw [Bool.or_eq_true]
  refine .inr ?_
  rcases place with ⟨a, rfl⟩ | ⟨c, rfl⟩
  · obtain ⟨z, zs, goes⟩ :=
      List.exists_cons_of_ne_nil (List.append_ne_nil_of_right_ne_nil a (List.cons_ne_nil y v'))
    have inside : target.path (dir ++ a ++ y :: v') =
        below target.root dir ++ slash :: (z ++ zs.flatMap (slash :: ·)) := by
      unfold path
      rw [List.append_assoc, goes,
        below_parting _ (by rw [← goes, ← List.append_assoc]; exact hv.isName),
        lead_below _ some_name namedDir, List.append_assoc]
      rfl
    rw [inside]
    exact pathStillAhead_of_inside _ _
  · refine pathStillAhead_of_le (le_of_lt ?_)
    have named := hu.isName x (by simp)
    have apart := separator_apart v' named
    unfold path at later ⊢
    rw [below_parting _ hu.isName, below_parting _ hv.isName] at later
    rw [below_parting _ namedDir, below_parting _ hv.isName]
    simp only [byteOrder_append] at later ⊢
    rw [append_lt_append_iff, append_lt_append_iff_lt lt apart] at later ⊢
    exact later

/-! ## Slices put together -/

/-- The calls find each wanted file once and in an order of its own, whatever their limits, and they
come to an end. -/
def WalksComplete (target : Target) : Prop :=
  ∃ order : List OsStr, order.Nodup ∧
    (∀ path, path ∈ order ↔ ∃ names, target.Wanted names ∧ path = target.path names) ∧
    (∀ limits : ℕ → ℕ, (∀ n, 0 < limits n) →
      ∃ n outs, target.Calls [] ((List.range n).map limits) outs) ∧
    ∀ limits outs, (∀ limit ∈ limits, 0 < limit) → target.Calls [] limits outs →
    outs.flatten = order

/-- What a call returns. -/
theorem called {limit : ℕ} {ended : Bool} {out : List OsStr} (positive : 0 < limit)
    (call : target.collectCandidates cursor limit = (ended, out)) :
    out = (target.todo cursor).take limit ∧ (ended = true → (target.todo cursor).length ≤ limit) ∧
      (ended = false → limit ≤ (target.todo cursor).length) := by
  unfold collectCandidates walkCandidates at call
  rw [if_neg (by omega), if_neg (by simp; omega)] at call
  have walked : Walked limit [] (target.todo cursor) _ :=
    walked_ahead target.root cursor target.root limit target.entries []
  rw [call] at walked
  exact ⟨by simpa using walked.collected, by simpa using walked.room, by simpa using walked.full⟩

/-- A call with room for all that is ahead says so. -/
theorem collectCandidates_of_room (target : Target) (cursor : OsStr) {limit : ℕ}
    (room : (target.todo cursor).length < limit) :
    target.collectCandidates cursor limit = (true, target.todo cursor) := by
  rcases call : target.collectCandidates cursor limit with ⟨ended, out⟩
  obtain ⟨taken, -, full⟩ := called (Nat.zero_lt_of_lt room) call
  cases ended with
  | false => exact absurd (full rfl) (not_le.mpr room)
  | true => rw [taken, List.take_of_length_le room.le]

/-- A call with less room stops at its limit. -/
theorem collectCandidates_of_full (target : Target) (cursor : OsStr) {limit : ℕ}
    (positive : 0 < limit) (full : limit < (target.todo cursor).length) :
    target.collectCandidates cursor limit = (false, (target.todo cursor).take limit) := by
  rcases call : target.collectCandidates cursor limit with ⟨ended, out⟩
  obtain ⟨taken, room, -⟩ := called positive call
  cases ended with
  | false => rw [taken]
  | true => exact absurd (room rfl) (not_le.mpr full)

theorem todo_nil (target : Target) : target.todo [] = target.wanted.map target.path := rfl

/-- From a file of an orderly target on, what comes later in the whole list is ahead. -/
theorem Orderly.todo_after (orderly : target.Orderly) {later : List OsStr} {final : OsStr}
    (whole : target.todo [] = before ++ final :: later) : target.todo final = later := by
  rw [todo_nil] at whole
  obtain ⟨before, tail, listed, rfl, behind⟩ := List.map_eq_append_iff.mp whole
  obtain ⟨v, later, rfl, rfl, rfl⟩ := List.map_eq_cons_iff.mp behind
  have sorted := target.pairwise_wanted
  rw [listed, List.pairwise_append, List.pairwise_cons] at sorted
  have all : ∀ u ∈ before ++ v :: later, target.Wanted u := fun u mem =>
    mem_wanted.mp (listed ▸ mem)
  have hv := all v (by simp)
  -- what is not after the cursor's text is passed over
  have passed : ∀ u, byteOrder (target.path u) ≤ byteOrder (target.path v) →
      ¬ reached (target.path v) target.root u = true := by
    intro u le taken
    rcases ((reached_iff _ _ _).mp taken).2.2.2 with none | lt
    · exact hv.path_ne_nil none
    · exact absurd lt (not_lt.mpr le)
  have cut : target.wanted.filter (reached (target.path v) target.root) = later := by
    rw [listed, List.filter_append, List.filter_cons_of_neg (passed v le_rfl),
      List.filter_eq_nil_iff.mpr, List.nil_append, List.filter_eq_self]
    · intro u mem
      have hu := all u (by simp [mem])
      have precedes := sorted.2.1.1 u mem
      exact reached_of_precedes hu hv precedes (orderly.path_lt hv hu precedes)
    · intro u mem
      have hu := all u (by simp [mem])
      exact passed u (le_of_lt (orderly.path_lt hu hv (sorted.2.2 u mem v List.mem_cons_self)))
  unfold todo
  rw [ahead_eq_filter, cut]

/-- One call from a file of an orderly target on: what it finds, and then what is ahead of its last
file. -/
theorem Orderly.todo_call (orderly : target.Orderly) {final : OsStr} {limit : ℕ} {out : List OsStr}
    (positive : 0 < limit) (place : target.todo [] = before ++ target.todo cursor)
    (stopped : target.collectCandidates cursor limit = (false, out))
    (reached : out.getLast? = some final) : target.todo cursor = out ++ target.todo final ∧
      ∃ before', target.todo [] = before' ++ target.todo final := by
  have taken := (called positive stopped).1
  obtain ⟨init, split⟩ := List.getLast?_eq_some_iff.mp reached
  obtain ⟨later, whole⟩ : ∃ later, target.todo cursor = out ++ later :=
    ⟨(target.todo cursor).drop limit, by rw [taken, List.take_append_drop]⟩
  have further : target.todo [] = (before ++ init) ++ final :: later := by
    rw [place, whole, split]
    simp
  have after := orderly.todo_after further
  refine ⟨by rw [after, whole], before ++ out, ?_⟩
  rw [after, further, split]
  simp

/-- Calls from a file of an orderly target on find what comes later, in order. -/
theorem Orderly.flatten_calls (orderly : target.Orderly) {limits : List ℕ}
    {outs : List (List OsStr)}
    (calls : target.Calls cursor limits outs) (positive : ∀ limit ∈ limits, 0 < limit)
    (place : target.todo [] = before ++ target.todo cursor) :
    outs.flatten = target.todo cursor := by
  induction calls generalizing before with
  | @last cursor limit out ended =>
    obtain ⟨all, room, -⟩ := called (positive limit (by simp)) ended
    rw [List.flatten_singleton, all, List.take_of_length_le (room rfl)]
  | @next cursor limit out final limits outs stopped reached rest ih =>
    obtain ⟨found, before', place'⟩ :=
      orderly.todo_call (positive limit List.mem_cons_self) place stopped reached
    rw [List.flatten_cons, ih (fun l mem => positive l (List.mem_cons_of_mem _ mem)) place', found]

/-- Calls come to an end: one that does not end finds a file. -/
theorem Orderly.exists_calls (orderly : target.Orderly) (limits : ℕ → ℕ)
    (positive : ∀ n, 0 < limits n) (place : target.todo [] = before ++ target.todo cursor) :
    ∃ n outs, target.Calls cursor ((List.range n).map limits) outs := by
  induction count : (target.todo cursor).length using Nat.strong_induction_on
    generalizing limits cursor before with
  | _ size ih =>
    rcases call : target.collectCandidates cursor (limits 0) with ⟨ended, out⟩
    cases ended with
    | true => exact ⟨1, [out], .last call⟩
    | false =>
      obtain ⟨taken, -, full⟩ := called (positive 0) call
      have taken := congrArg List.length taken
      rw [List.length_take_of_le (full rfl)] at taken
      have first := positive 0
      have some_files : out ≠ [] := List.ne_nil_of_length_pos (by omega)
      have reached := List.getLast?_eq_some_getLast some_files
      obtain ⟨found, before', place'⟩ := orderly.todo_call first place call reached
      have shorter : (target.todo (out.getLast some_files)).length < size := by
        have := congrArg List.length found
        rw [List.length_append] at this
        omega
      obtain ⟨n, outs, rest⟩ := ih _ shorter (fun n => limits (n + 1))
        (fun n => positive (n + 1)) place' rfl
      refine ⟨n + 1, out :: outs, ?_⟩
      rw [List.range_succ_eq_map, List.map_cons, List.map_map]
      exact .next call reached rest

theorem Orderly.walksComplete (orderly : target.Orderly) : target.WalksComplete := by
  have place : target.todo [] = [] ++ target.todo [] := rfl
  refine ⟨target.todo [], ?_, fun path => ?_, fun limits positive =>
    orderly.exists_calls limits positive place,
    fun limits outs positive calls => orderly.flatten_calls calls positive place⟩
  · rw [todo_nil]
    refine List.pairwise_map.mpr
      ((target.pairwise_wanted.imp_of_mem fun {u v} memU memV precedes same => ?_))
    have lt := orderly.path_lt (mem_wanted.mp memU) (mem_wanted.mp memV) precedes
    rw [same] at lt
    exact lt_irrefl _ lt
  · rw [todo_nil, List.mem_map]
    exact exists_congr fun names => and_congr mem_wanted eq_comm

/-- A file that comes later in the walk and earlier as a text is lost when a slice ends between. -/
theorem lost_between {before later : List (List OsStr)}
    (listed : target.wanted = before ++ u :: later)
    (mem : v ∈ later) (smaller : byteOrder (target.path v) < byteOrder (target.path u)) :
    ¬ target.WalksComplete := by
  rintro ⟨order, nodup, found_iff, -, all⟩
  have whole :
      target.todo [] = before.map target.path ++ target.path u :: later.map target.path := by
    rw [todo_nil, listed]
    simp
  -- one call with room for everything shows what the order is
  have once := all [(target.todo []).length + 1] [target.todo []] (by simp)
    (.last (target.collectCandidates_of_room [] (Nat.lt_succ_self _)))
  rw [List.flatten_singleton] at once
  -- two calls, the first up to `u`
  have first : target.collectCandidates [] (before.length + 1) =
      (false, before.map target.path ++ [target.path u]) := by
    rw [target.collectCandidates_of_full [] (Nat.succ_pos _), whole]
    · rw [List.append_cons, List.take_append_of_le_length (by simp),
        List.take_of_length_le (by simp)]
    · rw [whole]
      have := List.length_pos_of_mem mem
      simp
      omega
  have twice := all [before.length + 1, (target.todo (target.path u)).length + 1]
    [before.map target.path ++ [target.path u], target.todo (target.path u)] (by simp)
    (.next first (by simp) (.last (target.collectCandidates_of_room _ (Nat.lt_succ_self _))))
  have again :
      target.path v ∈ (before.map target.path ++ [target.path u]) ++ target.todo
      (target.path u) := by
    have inOrder : target.path v ∈ order :=
      (found_iff _).mpr ⟨v, mem_wanted.mp (listed ▸ by simp [mem]), rfl⟩
    simpa [← twice] using inOrder
  rcases List.mem_append.mp again with old | new
  · -- then it would be listed twice
    rw [← once, whole, List.append_cons, List.nodup_append] at nodup
    exact nodup.2.2 _ old _ (List.mem_map.mpr ⟨v, mem, rfl⟩) rfl
  · -- but the second call passes over it
    unfold todo at new
    rw [ahead_eq_filter] at new
    obtain ⟨w, taken, same⟩ := List.mem_map.mp new
    have reached := ((reached_iff _ _ _).mp (List.mem_filter.mp taken).2).2.2.2
    have hu : target.Wanted u := mem_wanted.mp (listed ▸ by simp)
    rcases reached with none | lt
    · exact hu.path_ne_nil none
    · have lt' : byteOrder (target.path u) < byteOrder (target.path v) := same ▸ lt
      exact lt_asymm lt' smaller

theorem orderly_of_walksComplete (complete : target.WalksComplete) : target.Orderly := by
  rintro front d rest e rest' b after hu some_name hv rfl
  by_contra above
  have named := hv.isName (d ++ b :: after) (by simp)
  have below_slash : b.toNat < slash.toNat := by
    have ne : b ≠ slash := fun same => named.single (by simp [same])
    rw [UInt8.lt_iff_toNat_lt, not_lt] at above
    exact lt_of_le_of_ne above fun same => ne (UInt8.toNat_inj.mp same)
  have precedes : Precedes (front ++ d :: rest) (front ++ (d ++ b :: after) :: rest') := by
    refine ⟨front, d, rest, d ++ b :: after, rest', rfl, rfl, ?_⟩
    have longer :=
      (append_lt_append_iff (byteOrder d)).mpr (List.nil_lt_cons b.toNat (byteOrder after))
    simpa using longer
  have smaller : byteOrder (target.path (front ++ (d ++ b :: after) :: rest')) <
      byteOrder (target.path (front ++ d :: rest)) := by
    obtain ⟨next, more, rfl⟩ := List.exists_cons_of_ne_nil some_name
    unfold path
    rw [below_parting _ hu.isName, below_parting _ hv.isName]
    simp only [byteOrder_append, List.flatMap_cons, List.cons_append, byteOrder_cons,
      List.append_assoc]
    rw [append_lt_append_iff, append_lt_append_iff]
    exact List.cons_lt_cons_iff.mpr (.inl below_slash)
  have sorted := target.pairwise_wanted
  obtain ⟨before, later, listed⟩ := List.append_of_mem (mem_wanted.mpr hu)
  rw [listed, List.pairwise_append] at sorted
  have memV := mem_wanted.mpr hv
  rw [listed, List.mem_append, List.mem_cons] at memV
  rcases memV with earlier | same | later_
  · exact precedes.asymm (sorted.2.2 _ earlier _ List.mem_cons_self)
  · rw [same] at smaller
    exact lt_irrefl _ smaller
  · exact lost_between listed later_ smaller complete

end Target

/-- **Slices of a walk find every file exactly if the target is orderly.** -/
theorem resumed_walks_complete_iff (target : Target) : target.WalksComplete ↔ target.Orderly :=
  ⟨Target.orderly_of_walksComplete, Target.Orderly.walksComplete⟩

/-- The output directory of a build script that compiles `foo.c` and the files of a directory
`foo`. -/
def objects : Target where
  root := utf8 "/t"
  entries := .dir (utf8 "foo") (.file (utf8 "a.o") 65536 .nil) (.file (utf8 "foo.o") 65536 .nil)
  wellNamed := by
    refine ⟨by decide +kernel, ?_, ⟨by decide +kernel, ?_, trivial⟩, by decide +kernel, ?_, trivial⟩
    · decide +kernel
    · decide +kernel
    · decide +kernel

/-- A slice of one file ends at `foo/a.o`, and the next finds nothing: `foo.o` is never returned. -/
theorem objects_lost : objects.collectCandidates [] 1 = (false, [utf8 "/t/foo/a.o"]) ∧
    objects.collectCandidates (utf8 "/t/foo/a.o") 1 = (true, []) ∧ ¬ objects.WalksComplete := by
  refine ⟨by decide +kernel, by decide +kernel, ?_⟩
  have listed : objects.wanted = [] ++ [utf8 "foo", utf8 "a.o"] :: [[utf8 "foo.o"]] := by
    decide +kernel
  exact Target.lost_between listed (List.mem_singleton_self _) (by decide +kernel)

end Kache.TargetDedup
