import Kache.Foundation.PathBuf
import Kache.Foundation.StableSort
import Mathlib.Data.List.Lex
import Mathlib.Data.Prod.Lex

/-!
# Paths in order

Paths are compared by their components.  A set of paths, and a list of paths that was sorted and rid
of repetitions, are the same list (`pathSet`): it has one path for every path that went into it. The
texts of paths are compared byte by byte (`byteOrder`), which is another order.
-/

namespace Kache

/-! ## Words in order -/

section Lexicographic

variable {α : Type*} [LinearOrder α]

theorem append_lt_append_iff (base : List α) {s t : List α} : base ++ s < base ++ t ↔ s < t := by
  induction base with
  | nil => rfl
  | cons a base ih => simp [ih]

/-- Of two words in order, the greater one decides how what extends them compares, as long as the
smaller one is not extended by a letter of the greater. -/
theorem append_lt_append_iff_lt {x y s t : List α} (lt : y < x) (apart : ∀ a ∈ t.head?, a ∉ x) :
    y ++ t < x ++ s ↔ y ++ t < x := by
  induction y generalizing x with
  | nil =>
    cases x with
    | nil => exact absurd lt (lt_irrefl _)
    | cons a x =>
      cases t with
      | nil => simp
      | cons b t =>
        have ne : b ≠ a := fun same => apart b rfl (same ▸ List.mem_cons_self)
        simp [List.cons_lt_cons_iff, ne]
  | cons c y ih =>
    cases x with
    | nil => exact absurd lt (List.not_lt_nil _)
    | cons a x =>
      rcases List.cons_lt_cons_iff.mp lt with less | ⟨rfl, behind⟩
      · simp [List.cons_lt_cons_iff, less]
      · have rest := ih behind fun b mem inside => apart b mem (List.mem_cons_of_mem _ inside)
        simpa [List.cons_lt_cons_iff] using rest

/-- A word put before a greater one stays before it with a letter added, unless the greater one goes
on with a letter that is not above it. -/
theorem append_cons_lt {x y s : List α} {z : α} (lt : x < y)
    (above : ∀ b after, y = x ++ b :: after → z < b) : x ++ z :: s < y := by
  induction x generalizing y with
  | nil =>
    cases y with
    | nil => exact absurd lt (lt_irrefl _)
    | cons b after => exact List.cons_lt_cons_iff.mpr (.inl (above b after rfl))
  | cons c x ih =>
    cases y with
    | nil => exact absurd lt (List.not_lt_nil _)
    | cons a y =>
      rcases List.cons_lt_cons_iff.mp lt with less | ⟨rfl, behind⟩
      · exact List.cons_lt_cons_iff.mpr (.inl less)
      · refine List.cons_lt_cons_iff.mpr (.inr ⟨rfl, ih behind fun b after same => ?_⟩)
        exact above b after (by rw [same]; rfl)

end Lexicographic

end Kache

namespace Kache.UnixPath

/-- The rank of a component among all kinds, with the bytes of a name. -/
def componentOrder : Component → ℕ ×ₗ List ℕ
  | .rootDir => toLex (0, [])
  | .curDir => toLex (1, [])
  | .parentDir => toLex (2, [])
  | .normal name => toLex (3, name.map UInt8.toNat)

/-- `Ord` of `Path`. -/
def pathOrder (path : OsStr) : List (ℕ ×ₗ List ℕ) := (components path).map componentOrder

/-- `==` of `Path`. -/
def SamePath (a b : OsStr) : Prop := components a = components b

instance : DecidableRel SamePath :=
  fun a b => inferInstanceAs (Decidable (components a = components b))

/-- A `BTreeSet<PathBuf>` of the given paths, in its order; `sort` and `dedup` of a vector of
them. -/
def pathSet (paths : List OsStr) : List OsStr :=
  (sortByKey pathOrder paths).destutter fun a b => ¬ SamePath a b

theorem mem_of_mem_pathSet {paths : List OsStr} {path : OsStr} (mem : path ∈ pathSet paths) :
    path ∈ paths :=
  (sortByKey_perm pathOrder paths).mem_iff.mp ((List.destutter_sublist _ _).subset mem)

theorem exists_mem_pathSet {paths : List OsStr} {path : OsStr} (mem : path ∈ paths) :
    ∃ kept ∈ pathSet paths, SamePath kept path :=
  exists_mem_destutter ((sortByKey_perm pathOrder paths).mem_iff.mpr mem)

/-! ## Texts in order

`push` puts names behind a directory; the texts of two paths that part at some directory compare as
what follows that directory. -/

/-- `Ord` of `str`: byte by byte. -/
def byteOrder (text : OsStr) : List ℕ := text.map UInt8.toNat

@[simp] theorem byteOrder_append (a b : OsStr) : byteOrder (a ++ b) = byteOrder a ++ byteOrder b :=
  List.map_append

@[simp] theorem byteOrder_cons (a : UInt8) (b : OsStr) :
    byteOrder (a :: b) = a.toNat :: byteOrder b := rfl

theorem toNat_mem_byteOrder {a : UInt8} {text : OsStr} : a.toNat ∈ byteOrder text ↔ a ∈ text := by
  unfold byteOrder
  rw [List.mem_map]
  constructor
  · rintro ⟨b, mem, same⟩
    rwa [← UInt8.toNat_inj.mp same]
  · exact fun mem => ⟨a, mem, rfl⟩

/-- The path of the entry reached from a directory by one name after the other. -/
def below (dir : OsStr) (names : List OsStr) : OsStr := names.foldl push dir

/-- What stands before a name in the path of an entry of the directory. -/
def lead (dir : OsStr) : OsStr :=
  if dir = [] ∨ dir.getLast? = some slash then dir else dir ++ [slash]

theorem push_name (dir : OsStr) {name : OsStr} (named : IsName name) :
    push dir name = lead dir ++ name := by
  unfold push lead
  rw [not_isRooted_of_isName named]
  split
  · contradiction
  · split
    · rfl
    · simp

theorem lead_push (dir : OsStr) {name : OsStr} (named : IsName name) :
    lead (push dir name) = push dir name ++ [slash] := by
  rw [push_name dir named]
  unfold lead
  rw [if_neg]
  rintro (none | last)
  · exact named.nonempty (List.append_eq_nil_iff.mp none).2
  · exact getLast?_of_isName _ named last

/-- The path of an entry from the directory where its names go on. -/
theorem below_cons (dir : OsStr) {name : OsStr} {rest : List OsStr}
    (named : ∀ n ∈ name :: rest, IsName n) :
    below dir (name :: rest) = lead dir ++ (name ++ rest.flatMap (slash :: ·)) := by
  induction rest generalizing dir name with
  | nil => simpa [below] using push_name dir (named name List.mem_cons_self)
  | cons next rest ih =>
    have first := named name List.mem_cons_self
    have step : below dir (name :: next :: rest) = below (push dir name) (next :: rest) := rfl
    rw [step, ih _ fun n mem => named n (List.mem_cons_of_mem _ mem), lead_push dir first,
      push_name dir first]
    simp

/-! ## Extensions -/

/-- What follows the last dot of a name, unless the name starts there. -/
def extensionOf (name : OsStr) : Option OsStr :=
  match name.reverse.dropWhile (· ≠ fullStop) with
  | _ :: before => if before = [] then none else
      some (name.reverse.takeWhile (· ≠ fullStop)).reverse
  | [] => none

/-- `Path::extension`. -/
def extension (path : OsStr) : Option OsStr := (fileName path).bind extensionOf

end Kache.UnixPath
