import Kache.Foundation.UnixPath
import Mathlib.Algebra.Group.Nat.Defs
import Mathlib.Data.List.Infix
import Mathlib.Data.Multiset.MapFold

/-!
# The cache-entry format

`kache-format` is the part of the store that both sides of the remote boundary
share: the metadata of an entry (`EntryMeta`, `CachedFile`) and the predicates
that gate every string taken from it before the string becomes a path.

The predicates are translated as they stand.  In particular a *cache key* is 64
lowercase hex digits while a *blob hash* also admits uppercase ones, and an
artifact name is judged by its path components, not by its spelling: `foo/` is
one normal component and passes `isSafeArtifactName`.
-/

namespace Kache

open UnixPath

/-- File contents. -/
abbrev Bytes := List UInt8

/-- `CACHE_KEY_VERSION`: the cache-key recipe written into entry metadata. -/
def cacheKeyVersion : ℕ := 33

/-- One file of an entry. -/
structure CachedFile where
  name : String
  size : ℕ
  hash : String
  executable : Bool
  deriving DecidableEq, Repr

/-- Metadata stored alongside cached artifacts. -/
structure EntryMeta where
  cacheKey : String
  keySchema : ℕ
  crateName : String
  crateTypes : List String
  files : List CachedFile
  stdout : String
  stderr : String
  features : List String
  target : String
  profile : String
  compileTimeMs : ℕ
  emitKinds : List String
  deriving DecidableEq, Repr

/-- The hashes a file list names, with repetition: one reference per file, not
per unique hash. -/
def hashesOf (files : List CachedFile) : Multiset String := ↑(files.map (·.hash))

@[simp] theorem hashesOf_nil : hashesOf [] = 0 := rfl

@[simp] theorem hashesOf_cons (file : CachedFile) (files : List CachedFile) :
    hashesOf (file :: files) = file.hash ::ₘ hashesOf files := rfl

theorem mem_hashesOf {files : List CachedFile} {h : String} :
    h ∈ hashesOf files ↔ ∃ file ∈ files, file.hash = h := by
  simp [hashesOf]

/-- An ASCII digit or one of `a`–`f`. -/
def isLowerHexDigit (c : Char) : Bool := c.isDigit || ('a' ≤ c && c ≤ 'f')

/-- `u8::is_ascii_hexdigit`. -/
def isHexDigit (c : Char) : Bool := isLowerHexDigit c || ('A' ≤ c && c ≤ 'F')

/-- `is_valid_cache_key`: exactly 64 lowercase hex characters. -/
def isValidCacheKey (s : String) : Bool := s.length == 64 && s.toList.all isLowerHexDigit

/-- `is_blob_hash`: a 64-character hex digest. -/
def isBlobHash (s : String) : Bool := s.length == 64 && s.toList.all isHexDigit

/-- `is_blob_hash_name`: the stricter form the orphan sweep uses for file names. -/
def isBlobHashName (s : String) : Bool := s.length == 64 && s.toList.all isLowerHexDigit

/-- `is_valid_crate_name`: safe as a path component of a remote object key. -/
def isValidCrateName (s : String) : Bool :=
  s ≠ "" ∧ s.length ≤ 128 ∧ ¬ ['.', '.'] <:+: s.toList ∧
    s.toList.all fun c => c.isAlphanum || c == '_' || c == '-' || c == '.'

/-- `is_safe_artifact_name`: exactly one component, and a normal one. -/
def isSafeArtifactName (name : String) : Bool :=
  match components (utf8 name) with
  | [.normal _] => true
  | _ => false

/-- Whether a component is a normal one. -/
def isNormal : Component → Bool
  | .normal _ => true
  | _ => false

/-- `is_safe_stored_artifact_name`: one normal component, or a build-script tree
`out/<relative>` or `outside/<relative>` of normal components. -/
def isSafeStoredArtifactName (name : String) : Bool :=
  match components (utf8 name) with
  | .normal first :: tail =>
    tail.all isNormal &&
      if first = utf8 "out" ∨ first = utf8 "outside" then !tail.isEmpty else tail.isEmpty
  | _ => false

/-- A `u64` stored in an SQLite `INTEGER` column (`as i64`). -/
@[irreducible] def asI64 (n : ℕ) : ℤ := Int.bmod n (2 ^ 64)

end Kache
