import Mathlib.Data.List.Basic

/-!
# Relative paths on a POSIX file system

A path is a byte string.  Two readings of it matter, and they are not the same:

* `components` is the language's own reading (Rust's `Path::components`): a
  path is a list of components, repeated separators and *inner* `.` segments
  vanish, but a *leading* `.` is kept.  Two paths are equal when their
  components are, so `a/./b` is `a/b` while `./a` is not `a`.
* `location` is the operating system's reading of a path below a directory: the
  names to walk, every `.` dropped.  `mustBeDir` says that the spelling (a
  trailing slash or `.`) only ever resolves to a directory.
-/

namespace Kache

/-- A file name or path as the operating system sees it. -/
abbrev OsStr := List UInt8

/-- The UTF-8 bytes of a string. -/
def utf8 (s : String) : OsStr := s.toList.flatMap String.utf8EncodeChar

/-- The bytes of a string determine it. -/
theorem utf8_injective {s t : String} (same : utf8 s = utf8 t) : s = t := by
  have encoded : s.toList.utf8Encode = t.toList.utf8Encode := congrArg List.toByteArray same
  have decoded := congrArg ByteArray.utf8Decode? encoded
  rw [List.utf8Decode?_utf8Encode, List.utf8Decode?_utf8Encode] at decoded
  exact String.toList_inj.mp (Array.toList_inj.mpr (Option.some.inj decoded))

namespace UnixPath

/-- One component of a path. -/
inductive Component where
  | rootDir
  | curDir
  | parentDir
  | normal (name : OsStr)
  deriving DecidableEq

/-- The byte `/`. -/
def slash : UInt8 := 47

/-- The name `.`. -/
def dot : OsStr := [46]

/-- The name `..`. -/
def dotDot : OsStr := [46, 46]

/-- The pieces between separators, empty ones included. -/
def segments (path : OsStr) : List OsStr := path.splitOn slash

/-- A segment after the first one; empty segments and `.` are no component. -/
def innerComponent (segment : OsStr) : Option Component :=
  if segment = [] ∨ segment = dot then none
  else if segment = dotDot then some .parentDir
  else some (.normal segment)

/-- Whether the path starts at the root. -/
def isRooted (path : OsStr) : Bool := path.head? == some slash

/-- `Path::components`. -/
def components (path : OsStr) : List Component :=
  if isRooted path then .rootDir :: (segments path).filterMap innerComponent
  else if (segments path).head? = some dot then
    .curDir :: (segments path).tail.filterMap innerComponent
  else (segments path).filterMap innerComponent

/-- The names the operating system walks from the directory the path is joined
to.  Meaningful for a path without a root and without `..`. -/
def location (path : OsStr) : List OsStr :=
  (segments path).filter fun segment => segment ≠ [] ∧ segment ≠ dot

/-- The spelling names a directory or nothing: it ends in `/` or in `.`. -/
def mustBeDir (path : OsStr) : Bool :=
  (segments path).getLast? = some [] ∨ (segments path).getLast? = some dot

/-- The spelling ends in the name `.`, up to trailing slashes: it names a
directory that is there already, and cannot be used to make one. -/
def endsInDot (path : OsStr) : Bool :=
  ((segments path).filter (· ≠ [])).getLast? = some dot

/-- Spelled without a root and without a leading `.`. -/
def isPlain (path : OsStr) : Bool := !isRooted path && (segments path).head? != some dot

/-! ## The two readings compared -/

/-- The name the operating system walks for a component. -/
def Component.osName : Component → Option OsStr
  | .rootDir => none
  | .curDir => none
  | .parentDir => some dotDot
  | .normal name => some name

theorem innerComponent_osName (segment : OsStr) :
    (innerComponent segment).bind Component.osName =
      if segment ≠ [] ∧ segment ≠ dot then some segment else none := by
  unfold innerComponent
  by_cases hskip : segment = [] ∨ segment = dot
  · rw [if_pos hskip, if_neg (by simpa [imp_iff_or_not, or_comm] using hskip)]
    rfl
  · rw [if_neg hskip, if_pos (not_or.mp hskip)]
    split
    · next h => rw [h]; rfl
    · rfl

theorem filterMap_innerComponent (names : List OsStr) :
    (names.filterMap innerComponent).filterMap Component.osName =
      names.filter fun segment => segment ≠ [] ∧ segment ≠ dot := by
  rw [List.filterMap_filterMap, ← List.filterMap_eq_filter]
  refine List.filterMap_congr fun segment _ => ?_
  rw [innerComponent_osName]
  simp [Option.guard]

/-- **Equal paths are one file**: where a path leads is a function of its
components. -/
theorem location_eq (path : OsStr) :
    location path = (components path).filterMap Component.osName := by
  unfold components
  split
  · rw [List.filterMap_cons_none rfl, filterMap_innerComponent, location]
  · split
    · next hdot =>
      rw [List.filterMap_cons_none rfl, filterMap_innerComponent, location]
      obtain ⟨tail, htail⟩ := List.head?_eq_some_iff.mp hdot
      rw [htail, List.tail_cons, List.filter_cons_of_neg (by simp)]
    · rw [filterMap_innerComponent, location]

theorem mem_innerComponents {names : List OsStr} {c : Component}
    (mem : c ∈ names.filterMap innerComponent) :
    c = .parentDir ∨ ∃ name, c = .normal name ∧ name ≠ dotDot := by
  obtain ⟨segment, -, hsegment⟩ := List.mem_filterMap.mp mem
  obtain ⟨-, hsegment⟩ := Option.ite_none_left_eq_some.mp hsegment
  split at hsegment
  · cases hsegment
    exact .inl rfl
  · next hne =>
    cases hsegment
    exact .inr ⟨segment, rfl, hne⟩

/-- For a plain path the two readings of a one-name path agree. -/
theorem components_eq_singleton_iff {path name : OsStr} (plain : isPlain path = true)
    (hname : name ≠ dotDot) :
    components path = [.normal name] ↔ location path = [name] := by
  rw [location_eq]
  refine ⟨fun h => by rw [h]; rfl, fun h => ?_⟩
  simp only [isPlain, Bool.and_eq_true, Bool.not_eq_true', bne_iff_ne, ne_eq] at plain
  have hcomponents : components path = (segments path).filterMap innerComponent := by
    rw [components, plain.1, if_neg (by simp), if_neg plain.2]
  have hnamed : ∀ c ∈ components path, c = .parentDir ∨ ∃ n, c = .normal n ∧ n ≠ dotDot :=
    fun c mem => mem_innerComponents (hcomponents ▸ mem)
  -- Every component of a plain path has a name, so the list has one element.
  cases hlist : components path with
  | nil => rw [hlist] at h; cases h
  | cons first rest =>
    rw [hlist] at h hnamed
    have hrest : rest = [] := by
      cases rest with
      | nil => rfl
      | cons second rest =>
        obtain rfl | ⟨n, rfl, -⟩ := hnamed first (by simp) <;>
          obtain rfl | ⟨n', rfl, -⟩ := hnamed second (by simp) <;>
          simp [Component.osName] at h
    subst hrest
    obtain rfl | ⟨n, rfl, -⟩ := hnamed first (by simp)
    · have hdots : [dotDot] = [name] := h
      exact absurd (List.cons.inj hdots).1.symm hname
    · simpa [Component.osName] using h

end UnixPath

end Kache
