import Kache.Foundation.UnixPath

/-!
# Building paths

The operations of Rust's `PathBuf` on POSIX, over paths as byte strings: `push` appends one
path to another, `parent`, `fileName` and `stripPrefix` work on components, and
`ofComponents` spells a list of components out.  `toStringLossy` is the decoding that puts
U+FFFD for what is not UTF-8.
-/

namespace Kache.UnixPath

/-- `Component::as_os_str`. -/
def Component.asOsStr : Component → OsStr
  | .rootDir => [slash]
  | .curDir => dot
  | .parentDir => dotDot
  | .normal name => name

/-- `PathBuf::push`, and `Path::join`. -/
def push (base path : OsStr) : OsStr :=
  if isRooted path then path
  else if base = [] ∨ base.getLast? = some slash then base ++ path
  else base ++ slash :: path

/-- The path with the given components. -/
def ofComponents (components : List Component) : OsStr :=
  components.foldl (fun path component => push path component.asOsStr) []

/-- `Path::parent`. -/
def parent (path : OsStr) : Option OsStr :=
  match (components path).getLast? with
  | none => none
  | some .rootDir => none
  | some _ => some (ofComponents (components path).dropLast)

/-- `Path::file_name`. -/
def fileName (path : OsStr) : Option OsStr :=
  match (components path).getLast? with
  | some (.normal name) => some name
  | _ => none

/-- `Path::strip_prefix`. -/
def stripPrefix (base path : OsStr) : Option OsStr :=
  if components base <+: components path then
    some (ofComponents ((components path).drop (components base).length))
  else none

/-- The byte `.`. -/
def fullStop : UInt8 := 46

/-- U+FFFD. -/
def replacement : OsStr := [0xEF, 0xBF, 0xBD]

/-- Whether a byte can come after the bytes of a character begun. -/
def continues : OsStr → UInt8 → Bool
  | [0xE0], b => 0xA0 ≤ b ∧ b ≤ 0xBF
  | [0xED], b => 0x80 ≤ b ∧ b ≤ 0x9F
  | [0xF0], b => 0x90 ≤ b ∧ b ≤ 0xBF
  | [0xF4], b => 0x80 ≤ b ∧ b ≤ 0x8F
  | _, b => 0x80 ≤ b ∧ b ≤ 0xBF

/-- How many bytes a first byte asks for after it; none if no character starts with it. -/
def following (first : UInt8) : Option ℕ :=
  if first < 0x80 then some 0
  else if 0xC2 ≤ first ∧ first ≤ 0xDF then some 1
  else if 0xE0 ≤ first ∧ first ≤ 0xEF then some 2
  else if 0xF0 ≤ first ∧ first ≤ 0xF4 then some 3
  else none

/-- `to_string_lossy` inside a character: its bytes so far, and how many are to come. -/
def lossy : OsStr → ℕ → OsStr → OsStr
  | [], _, [] => []
  | _ :: _, _, [] => replacement
  | begun, missing, b :: rest =>
    if begun ≠ [] ∧ continues begun b then
      if missing = 1 then begun ++ b :: lossy [] 0 rest else lossy (begun ++ [b]) (missing - 1) rest
    else
      -- What was begun does not become a character, and `b` is looked at again.
      (if begun = [] then [] else replacement) ++
        match following b with
        | none => replacement ++ lossy [] 0 rest
        | some 0 => b :: lossy [] 0 rest
        | some n => lossy [b] n rest

/-- `to_string_lossy`. -/
def toStringLossy (path : OsStr) : OsStr := lossy [] 0 path

/-! ## Names -/

/-- A name that a directory entry can have. -/
structure IsName (name : OsStr) : Prop where
  nonempty : name ≠ []
  single : slash ∉ name
  notDot : name ≠ dot
  notDotDot : name ≠ dotDot

instance (name : OsStr) : Decidable (IsName name) :=
  decidable_of_iff (name ≠ [] ∧ slash ∉ name ∧ name ≠ dot ∧ name ≠ dotDot)
    ⟨fun h => ⟨h.1, h.2.1, h.2.2.1, h.2.2.2⟩, fun h =>
      ⟨h.nonempty, h.single, h.notDot, h.notDotDot⟩⟩

/-- The components after the first byte of a path. -/
def inner (path : OsStr) : List Component := (segments path).filterMap innerComponent

variable {path a b : OsStr}

theorem components_of_isRooted (rooted : isRooted path = true) :
    components path = .rootDir :: inner path := by
  rw [components, if_pos rooted, inner]

theorem segments_append (a b : OsStr) : segments (a ++ slash :: b) = segments a ++ segments b :=
  List.splitOn_append_cons_self a b

theorem inner_append (a b : OsStr) : inner (a ++ slash :: b) = inner a ++ inner b := by
  rw [inner, segments_append, List.filterMap_append, inner, inner]

theorem segments_ne_nil (path : OsStr) : segments path ≠ [] := List.splitOn_ne_nil slash path

theorem rootDir_notMem_inner (path : OsStr) : Component.rootDir ∉ inner path := by
  intro mem
  rcases mem_innerComponents mem with same | ⟨name, same, -⟩ <;> cases same

theorem curDir_notMem_inner (path : OsStr) : Component.curDir ∉ inner path := by
  intro mem
  rcases mem_innerComponents mem with same | ⟨name, same, -⟩ <;> cases same

/-- A path with `.` in front has no other component for it. -/
theorem components_of_dot (relative : isRooted path = false)
    (first : (segments path).head? = some dot) : components path = .curDir :: inner path := by
  obtain ⟨rest, split⟩ := List.head?_eq_some_iff.mp first
  rw [components, relative, if_neg Bool.false_ne_true, if_pos first, inner, split, List.tail_cons,
    List.filterMap_cons_none (by decide)]

theorem components_of_plain (relative : isRooted path = false)
    (first : (segments path).head? ≠ some dot) : components path = inner path := by
  rw [components, relative, if_neg Bool.false_ne_true, if_neg first, inner]

/-- Whether a path is rooted is seen from its components. -/
theorem rootDir_mem_components : Component.rootDir ∈ components path ↔ isRooted path = true := by
  constructor
  · intro mem
    by_contra relative
    rw [Bool.not_eq_true] at relative
    by_cases first : (segments path).head? = some dot
    · rw [components_of_dot relative first, List.mem_cons] at mem
      rcases mem with same | mem
      · cases same
      · exact rootDir_notMem_inner path mem
    · rw [components_of_plain relative first] at mem
      exact rootDir_notMem_inner path mem
  · intro rooted
    rw [components_of_isRooted rooted]
    exact List.mem_cons_self

theorem isRooted_of_components_eq (same : components a = components b) :
    isRooted a = isRooted b := by
  rw [Bool.eq_iff_iff, ← rootDir_mem_components, ← rootDir_mem_components, same]

/-- The components behind the first byte, from all of them. -/
theorem inner_eq_filter (path : OsStr) :
    inner path = (components path).filter fun c => c ≠ .rootDir ∧ c ≠ .curDir := by
  have kept : ((inner path).filter fun c => c ≠ .rootDir ∧ c ≠ .curDir) = inner path := by
    rw [List.filter_eq_self]
    intro c mem
    rw [decide_eq_true_eq]
    exact ⟨fun root => rootDir_notMem_inner path (root ▸ mem), fun dot =>
      curDir_notMem_inner path (dot ▸ mem)⟩
  cases rooted : isRooted path with
  | true => rw [components_of_isRooted rooted, List.filter_cons_of_neg (by decide), kept]
  | false =>
    by_cases first : (segments path).head? = some dot
    · rw [components_of_dot rooted first, List.filter_cons_of_neg (by decide), kept]
    · rw [components_of_plain rooted first, kept]

/-- What stands behind a separator counts by its inner components only. -/
theorem components_append_slash {base : OsStr} (same : inner a = inner b) :
    components (base ++ slash :: a) = components (base ++ slash :: b) := by
  have rooted : isRooted (base ++ slash :: a) = isRooted (base ++ slash :: b) := by
    cases base with
    | nil => rfl
    | cons c base => rfl
  have first : (segments (base ++ slash :: a)).head? = (segments (base ++ slash :: b)).head? := by
    rw [segments_append, segments_append, List.head?_append_of_ne_nil _ (segments_ne_nil base),
      List.head?_append_of_ne_nil _ (segments_ne_nil base)]
  have behind : inner (base ++ slash :: a) = inner (base ++ slash :: b) := by
    rw [inner_append, inner_append, same]
  cases root : isRooted (base ++ slash :: a) with
  | true => rw [components_of_isRooted root, components_of_isRooted (rooted ▸ root), behind]
  | false =>
    by_cases leads : (segments (base ++ slash :: a)).head? = some dot
    · rw [components_of_dot root leads, components_of_dot (rooted ▸ root) (first ▸ leads), behind]
    · rw [components_of_plain root leads, components_of_plain (rooted ▸ root)
        (first ▸ leads), behind]

/-- Two spellings of one relative path lead to one place from any directory. -/
theorem components_push_congr (base : OsStr) (same : components a = components b) :
    components (push base a) = components (push base b) := by
  have rooted := isRooted_of_components_eq same
  have behind : inner a = inner b := by rw [inner_eq_filter, inner_eq_filter, same]
  unfold push
  rw [rooted]
  split
  · exact same
  · split
    · next ends =>
      rcases ends with rfl | ends
      · exact same
      · obtain ⟨front, rfl⟩ := List.getLast?_eq_some_iff.mp ends
        rw [List.append_assoc, List.append_assoc]
        exact components_append_slash behind
    · exact components_append_slash behind

theorem not_isRooted_of_isName {name : OsStr} (h : IsName name) : isRooted name = false := by
  cases name with
  | nil => rfl
  | cons b rest =>
    have other : b ≠ slash := fun same => h.single (same ▸ List.mem_cons_self)
    simp [isRooted, other]

theorem getLast?_of_isName (base : OsStr) {name : OsStr} (h : IsName name) :
    (base ++ name).getLast? ≠ some slash := by
  intro last
  rw [List.getLast?_append_of_ne_nil _ h.nonempty] at last
  exact h.single (List.mem_of_getLast? last)

end Kache.UnixPath
