import Mathlib.Data.Prod.Lex
import Mathlib.Data.String.Basic
import Mathlib.Tactic.NormNum.Pow
import Kache.Foundation.Framing
import Kache.Foundation.StableSort
import Kache.Store.Disk

/-!
# The content hash identifies the files of an entry

`compute_content_hash` sorts the files of an entry by name and hash and feeds every field of
every file, length first, to the hasher.  Two facts make the digest an identity of the file set:

* what one file contributes is self-delimiting (`selfDelimiting_fileBytes`), so the stream
  determines the sorted list, and with it the files up to their order;
* the sort is canonical wherever its key, `nameAndHash`, tells the files apart
  (`sorted_eq_sortByKey`), so the order the files came in leaves no trace.
-/

namespace Kache

/-- A field as it is hashed is a byte string behind a length of eight bytes. -/
theorem toLeBytes_eq (n : ℕ) : toLeBytes n = leBytes 8 n := by
  simp only [toLeBytes, leBytes, List.range_succ, List.range_zero, List.nil_append, List.map_append,
    List.map_cons, List.map_nil, Nat.div_div_eq_div_mul]
  norm_num

theorem foldField_eq (bytes : Bytes) : foldField bytes = framed 8 bytes := by
  rw [foldField, framed, toLeBytes_eq]

/-- What one file contributes to the stream. -/
def fileBytes (f : CachedFile) : Bytes :=
  foldField (utf8 f.name) ++ foldField (utf8 f.hash) ++ foldField (toLeBytes f.size) ++
    foldField [if f.executable then 1 else 0]

/-- The file is a value of the code's type: the size is a `u64`, and so are the lengths of the
strings. -/
structure CachedFile.Representable (f : CachedFile) : Prop where
  size : f.size < 2 ^ 64
  name : (utf8 f.name).length < 2 ^ 64
  hash : (utf8 f.hash).length < 2 ^ 64

theorem selfDelimiting_fileBytes : SelfDelimiting CachedFile.Representable fileBytes := by
  intro f g hf hg s t same
  have width : (2 : ℕ) ^ 64 = 256 ^ 8 := by norm_num
  have field := selfDelimiting_framed 8
  rw [← width] at field
  simp only [fileBytes, foldField_eq, List.append_assoc] at same
  -- the fields one after the other, each with its own end
  obtain ⟨name, same⟩ := field hf.name hg.name same
  obtain ⟨hash, same⟩ := field hf.hash hg.hash same
  have short : ∀ n, (toLeBytes n).length < 2 ^ 64 := by
    intro n
    rw [toLeBytes_eq, length_leBytes]
    decide
  obtain ⟨size, same⟩ := field (short f.size) (short g.size) same
  obtain ⟨executable, rest⟩ := field (by simp) (by simp) same
  rw [toLeBytes_eq, toLeBytes_eq] at size
  have size := leBytes_injective (width ▸ hf.size) (width ▸ hg.size) size
  have executable : f.executable = g.executable := by
    cases hf : f.executable <;> cases hg : g.executable <;> simp [hf, hg] at executable ⊢
  refine ⟨?_, rest⟩
  cases f
  cases g
  simp only [CachedFile.mk.injEq]
  exact ⟨utf8_injective name, size, utf8_injective hash, executable⟩

theorem fileBytes_ne_nil (f : CachedFile) : fileBytes f ≠ [] := by
  intro none
  have last := (List.append_eq_nil_iff.mp none).2
  rw [foldField] at last
  exact absurd (List.append_eq_nil_iff.mp last).2 (by simp)

/-! ## The sort -/

/-- The fields files are sorted by. -/
def nameAndHash (f : CachedFile) : String × String := (f.name, f.hash)

theorem contentOrder_iff (a b : CachedFile) :
    contentOrder a b = true ↔ toLex (nameAndHash a) ≤ toLex (nameAndHash b) := by
  show (((compare a.name b.name).then (compare a.hash b.hash)).isLE = true) ↔
    toLex (a.name, a.hash) ≤ toLex (b.name, b.hash)
  rw [Prod.Lex.toLex_le_toLex]
  rcases lt_trichotomy a.name b.name with lt | eq | gt
  · rw [compare_lt_iff_lt.mpr lt]
    exact iff_of_true rfl (.inl lt)
  · rw [compare_eq_iff_eq.mpr eq, Ordering.eq_then, Ordering.isLE_iff_ne_gt]
    refine compare_le_iff_le.trans ?_
    exact ⟨fun le => .inr ⟨eq, le⟩, fun h => h.elim (fun lt => absurd eq lt.ne) And.right⟩
  · rw [compare_gt_iff_gt.mpr gt]
    exact iff_of_false (fun le => nomatch le) fun h => h.elim (lt_asymm gt) fun h => gt.ne h.1.symm

theorem sorted_eq_sortByKey (files : List CachedFile) :
    files.insertionSort (fun a b => contentOrder a b) =
      sortByKey (fun f => toLex (nameAndHash f)) files := by
  unfold sortByKey
  congr 1
  funext a b
  exact propext (contentOrder_iff a b)

theorem contentBytes_eq (files : List CachedFile) :
    contentBytes files = (sortByKey (fun f => toLex (nameAndHash f)) files).flatMap fileBytes := by
  rw [← sorted_eq_sortByKey]
  rfl

/-! ## What the digest is of -/

/-- Equal streams are streams of the same files. -/
theorem perm_of_contentBytes_eq {files files' : List CachedFile}
    (fits : ∀ f ∈ files, f.Representable) (fits' : ∀ f ∈ files', f.Representable)
    (same : contentBytes files = contentBytes files') : files.Perm files' := by
  rw [contentBytes_eq, contentBytes_eq] at same
  have perm := sortByKey_perm (fun f : CachedFile => toLex (nameAndHash f))
  have sorted := selfDelimiting_fileBytes.flatMap_injective fileBytes_ne_nil
    (fun f mem => fits f ((perm files).mem_iff.mp mem))
    (fun f mem => fits' f ((perm files').mem_iff.mp mem)) same
  exact (perm files).symm.trans (sorted ▸ perm files')

/-- Files told apart by name and hash give one stream, in whatever order they come. -/
theorem contentBytes_eq_of_perm {files files' : List CachedFile} (perm : files.Perm files')
    (apart : (files.map nameAndHash).Nodup) : contentBytes files = contentBytes files' := by
  rw [contentBytes_eq, contentBytes_eq, sortByKey_eq_of_perm perm]
  intro f hf g hg same
  exact List.inj_on_of_nodup_map apart hf hg (toLex.injective same)

/-- **The content hash identifies the file set.**  The bytes `compute_content_hash` feeds to the
hasher are equal for two lists only if the lists are permutations of each other, and they are
equal for all permutations of a list in which no two files agree on name and hash. -/
theorem content_hash_identifies_files :
    (∀ files files' : List CachedFile, (∀ f ∈ files, f.Representable) →
      (∀ f ∈ files', f.Representable) → contentBytes files = contentBytes files' →
        files.Perm files') ∧
    ∀ files files' : List CachedFile, files.Perm files' → (files.map nameAndHash).Nodup →
      contentBytes files = contentBytes files' :=
  ⟨fun _ _ => perm_of_contentBytes_eq, fun _ _ => contentBytes_eq_of_perm⟩

/-- A library and its metadata, listed either way round. -/
theorem content_hash_identifies_lib_and_meta :
    let lib : CachedFile := ⟨"libfoo.rlib", 4, "aa", true⟩
    let rmeta : CachedFile := ⟨"libfoo.rmeta", 2, "bb", false⟩
    contentBytes [rmeta, lib] = contentBytes [lib, rmeta] ∧ [rmeta, lib].Perm [lib, rmeta] := by
  intro lib rmeta
  have fits : ∀ f ∈ [lib, rmeta], f.Representable := by
    intro f mem
    rcases List.mem_pair.mp mem with rfl | rfl
    · exact ⟨by decide, by decide, by decide⟩
    · exact ⟨by decide, by decide, by decide⟩
  have same := content_hash_identifies_files.2 [rmeta, lib] [lib, rmeta] (.swap _ _ _) (by decide)
  refine ⟨same, content_hash_identifies_files.1 [rmeta, lib] [lib, rmeta]
    (fun f mem => ?_) fits same⟩
  exact fits f (List.mem_pair.mpr (List.mem_pair.mp mem).symm)

end Kache
