import Kache.Foundation.Ascii
import Kache.Foundation.StableSort
import Kache.Foundation.Substitution
import Kache.Foundation.UnixPath
import Mathlib.Data.List.Infix
import Mathlib.Order.OrderDual

/-!
# Prefix maps

What a C compiler writes names the directories of one checkout.  Prefix maps replace them by names
that every checkout shares.  The normalizer reads the bytes once: it jumps from one byte that begins
some source to the next, tries the sources there, the longest first, and looks back into the input
for a configured base directory, which is a match only where a path may start.

`Substituted` with `Replaces` is what that should give, byte by byte.  The order of the map list
does not occur in it, and the sources being distinct makes the longest one unique, so the result is
the same for every order of the list (`apply_cc_prefix_maps_spec`).
-/

namespace Kache.Cc

open Ascii

abbrev Bytes := List UInt8

/-! ## The code -/

/-- `CcPrefixMap`: `from` and `to`. -/
structure CcPrefixMap where
  source : String
  target : String
  deriving DecidableEq

/-- `map.from.as_bytes()`. -/
def CcPrefixMap.sourceBytes (map : CcPrefixMap) : Bytes := utf8 map.source

/-- `map.to.as_bytes()`. -/
def CcPrefixMap.targetBytes (map : CcPrefixMap) : Bytes := utf8 map.target

/-- `is_configured_cc_prefix_map`. -/
def isConfiguredCcPrefixMap (map : CcPrefixMap) : Bool :=
  utf8 "/kache/base-dir-" <+: map.targetBytes ∧
    let index := map.targetBytes.drop (utf8 "/kache/base-dir-").length
    index ≠ [] ∧ index.all isDigit

/-- `cc_windows_absolute_prefix`. -/
def ccWindowsAbsolutePrefix : Bytes → Bool
  | a :: b :: c :: _ =>
    (isAlphabetic a ∧ b = 58 ∧ (c = 47 ∨ c = 92)) ∨ (a = 47 ∧ b = 47) ∨ (a = 92 ∧ b = 92)
  | [a, b] => (a = 47 ∧ b = 47) ∨ (a = 92 ∧ b = 92)
  | _ => false

/-- The bytes after which a path may start. -/
def opensPath (byte : UInt8) : Bool := isWhitespace byte ∨ byte ∈ utf8 "=:;,\"'([\x7b@"

/-- What both look-backs ask of the bytes before a path. -/
def atPathStart (before : Bytes) : Bool :=
  before = [] ∨ utf8 "-I" <:+ before ∨ utf8 "-L" <:+ before ∨ utf8 "-F" <:+ before ∨
    utf8 "-B" <:+ before ∨ before.getLast?.any opensPath

/-- `cc_follows_windows_drive_prefix`: `before` is the input up to the start. -/
def ccFollowsWindowsDrivePrefix (before : Bytes) : Bool :=
  match before.reverse with
  | colon :: drive :: lead => colon = 58 ∧ isAlphabetic drive ∧ atPathStart lead.reverse
  | _ => false

/-- `configured_cc_prefix_starts_path_token`: `before` is the input up to the start. -/
def configuredCcPrefixStartsPathToken (before source : Bytes) : Bool :=
  ¬ (¬ ccWindowsAbsolutePrefix source ∧ ccFollowsWindowsDrivePrefix before) ∧ atPathStart before

/-- Whether a map may be applied where `before` ends and `text` begins. -/
def CcPrefixMap.fits (map : CcPrefixMap) (before text : Bytes) : Bool :=
  map.sourceBytes <+: text ∧
    (¬ isConfiguredCcPrefixMap map ∨ configuredCcPrefixStartsPathToken before map.sourceBytes)

/-- The loop: `i` is the position in the input, `out` what has been written. -/
def applyFrom (bytes : Bytes) (maps : List CcPrefixMap) (leading : List UInt8) :
    ℕ → ℕ → Bytes → Bytes
  | 0, _, out => out
  | fuel + 1, i, out =>
    if i < bytes.length then
      match (bytes.drop i).findIdx? fun byte => leading.contains byte with
      | none => out ++ bytes.drop i
      | some offset =>
        let out := out ++ (bytes.drop i).take offset
        let i := i + offset
        match maps.find? fun map => map.fits (bytes.take i) (bytes.drop i) with
        | some map => applyFrom bytes maps leading fuel (i + map.sourceBytes.length)
            (out ++ map.targetBytes)
        | none => applyFrom bytes maps leading fuel (i + 1) (out ++ (bytes.drop i).take 1)
    else out

/-- The maps that can match, the longest source first. -/
def sortedMaps (prefixMaps : List CcPrefixMap) : List CcPrefixMap :=
  sortByKey (fun map => OrderDual.toDual map.sourceBytes.length)
    (prefixMaps.filter fun map => map.source ≠ "")

/-- `apply_cc_prefix_maps_to_bytes`. -/
def applyCcPrefixMapsToBytes (bytes : Bytes) (prefixMaps : List CcPrefixMap) : Bytes :=
  let maps := sortedMaps prefixMaps
  let leading := maps.filterMap fun map => map.sourceBytes.head?
  applyFrom bytes maps leading bytes.length 0 []

/-! ## The reference -/

/-- A map that may be applied here: its source is not empty and stands here, and a configured base
directory only where a path may start. -/
def Eligible (prefixMaps : List CcPrefixMap) (before text : Bytes) (map : CcPrefixMap) : Prop :=
  map ∈ prefixMaps ∧ map.source ≠ "" ∧ map.fits before text = true

/-- What is replaced here: the longest eligible source, by its target. -/
def Replaces (prefixMaps : List CcPrefixMap) (before text source target : Bytes) : Prop :=
  ∃ map, Eligible prefixMaps before text map ∧ map.sourceBytes = source ∧ map.targetBytes = target ∧
    ∀ other, Eligible prefixMaps before text other → other.sourceBytes.length ≤ source.length

/-! ## The proof -/

theorem utf8_eq_nil_iff {s : String} : utf8 s = [] ↔ s = "" := by
  constructor
  · intro empty
    exact utf8_injective (empty.trans (by rfl))
  · rintro rfl
    rfl

variable {map : CcPrefixMap} {prefixMaps : List CcPrefixMap} {before text : Bytes}

theorem CcPrefixMap.sourceBytes_ne_nil : map.sourceBytes ≠ [] ↔ map.source ≠ "" :=
  utf8_eq_nil_iff.not

theorem Eligible.isPrefix (eligible : Eligible prefixMaps before text map) :
    map.sourceBytes <+: text := by
  have fits := eligible.2.2
  rw [CcPrefixMap.fits, decide_eq_true_eq] at fits
  exact fits.1

theorem Replaces.spec {source target : Bytes}
    (here : Replaces prefixMaps before text source target) : source ≠ [] ∧ source <+: text := by
  obtain ⟨map, eligible, rfl, -⟩ := here
  exact ⟨CcPrefixMap.sourceBytes_ne_nil.mpr eligible.2.1, eligible.isPrefix⟩

/-- Distinct sources: the longest eligible one is the only one. -/
theorem replaces_functional (distinct : (prefixMaps.map (·.source)).Nodup) :
    Substituted.Functional (Replaces prefixMaps) := by
  rintro before text _ _ _ _ ⟨map, eligible, rfl, rfl, longest⟩ ⟨map', eligible', rfl,
    rfl, longest'⟩
  have length := Nat.le_antisymm (longest' map eligible) (longest map' eligible')
  have same : map.sourceBytes = map'.sourceBytes :=
    List.prefix_of_prefix_length_le eligible.isPrefix eligible'.isPrefix length.le
      |>.eq_of_length length
  obtain rfl : map = map' :=
    List.inj_on_of_nodup_map distinct eligible.1 eligible'.1 (utf8_injective same)
  exact ⟨rfl, rfl⟩

/-- The first map that fits, of the sorted ones, is the longest. -/
theorem replaces_of_find?
    (found : (sortedMaps prefixMaps).find? (fun map => map.fits before text) = some map) :
    Replaces prefixMaps before text map.sourceBytes map.targetBytes := by
  obtain ⟨fits, front, back, split, earlier, later⟩ := find?_sortByKey found
  have listed : ∀ other, other ∈ front ++ map :: back ↔ other ∈ prefixMaps ∧ other.source ≠ "" := by
    intro other
    rw [← split, List.mem_filter, decide_eq_true_eq]
  obtain ⟨mem, nonempty⟩ := (listed map).mp (by simp)
  refine ⟨map, ⟨mem, nonempty, fits⟩, rfl, rfl, fun other eligible => ?_⟩
  rcases List.mem_append.mp ((listed other).mpr ⟨eligible.1, eligible.2.1⟩) with mem | mem
  · exact (OrderDual.toDual_lt_toDual.mp (earlier other mem eligible.2.2)).le
  · rcases List.mem_cons.mp mem with rfl | mem
    · exact le_rfl
    · exact OrderDual.toDual_le_toDual.mp (later other mem eligible.2.2)

theorem not_replaces_of_find?
    (none : (sortedMaps prefixMaps).find? (fun map => map.fits before text) = none)
    (source target : Bytes) :
    ¬ Replaces prefixMaps before text source target := by
  rintro ⟨map, eligible, -⟩
  refine List.find?_eq_none.mp none map ?_ eligible.2.2
  rw [sortedMaps, (sortByKey_perm _ _).mem_iff, List.mem_filter]
  exact ⟨eligible.1, by simpa using eligible.2.1⟩

/-- Nothing is replaced at a byte that begins no source. -/
theorem not_replaces_of_leading {byte : UInt8}
    (free : byte ∉ (sortedMaps prefixMaps).filterMap fun map => map.sourceBytes.head?)
    (source target : Bytes) : ¬ Replaces prefixMaps before (byte :: text) source target := by
  rintro ⟨map, eligible, -⟩
  refine free (List.mem_filterMap.mpr ⟨map, ?_, ?_⟩)
  · rw [sortedMaps, (sortByKey_perm _ _).mem_iff, List.mem_filter]
    exact ⟨eligible.1, by simpa using eligible.2.1⟩
  · obtain ⟨rest, split⟩ := eligible.isPrefix
    cases source : map.sourceBytes with
    | nil => exact absurd source (CcPrefixMap.sourceBytes_ne_nil.mpr eligible.2.1)
    | cons first others =>
      rw [source, List.cons_append] at split
      rw [List.head?_cons, (List.cons_eq_cons.mp split).1]

/-- Reading goes on behind a source. -/
theorem take_add_of_isPrefix {bytes source : Bytes} {i : ℕ} (here : source <+: bytes.drop i) :
    bytes.take (i + source.length) = bytes.take i ++ source ∧
      bytes.drop i = source ++ bytes.drop (i + source.length) := by
  obtain ⟨rest, split⟩ := here
  rw [List.take_add, ← List.drop_drop, ← split]
  simp

/-- The loop writes what the pass over the rest of the input gives. -/
theorem applyFrom_substituted (bytes : Bytes) (prefixMaps : List CcPrefixMap)
    (fuel i : ℕ) (out : Bytes) (enough : bytes.length ≤ fuel + i) :
    ∃ result, Substituted (Replaces prefixMaps) (bytes.take i) (bytes.drop i) result ∧
      applyFrom bytes (sortedMaps prefixMaps)
        ((sortedMaps prefixMaps).filterMap fun map => map.sourceBytes.head?) fuel i out =
          out ++ result := by
  induction fuel generalizing i out with
  | zero =>
    rw [List.drop_eq_nil_of_le (by omega)]
    exact ⟨[], .nil _, (List.append_nil out).symm⟩
  | succ fuel ih =>
    unfold applyFrom
    split
    swap
    · rw [List.drop_eq_nil_of_le (by omega)]
      exact ⟨[], .nil _, (List.append_nil out).symm⟩
    split
    · next inside none =>
      -- no source begins in the rest of the input
      refine ⟨bytes.drop i, ?_, rfl⟩
      have kept : Substituted (Replaces prefixMaps) (bytes.take i) (bytes.drop i ++ [])
          (bytes.drop i ++ []) := by
        refine Substituted.skip (fun front c back split => ?_) (.nil _)
        refine not_replaces_of_leading fun leading => ?_
        have free := List.findIdx?_eq_none_iff.mp none c (by simp [split])
        rw [List.contains_iff_mem.mpr leading] at free
        cases free
      simpa using kept
    · next inside offset found =>
      obtain ⟨short, -, free⟩ := List.findIdx?_eq_some_iff_getElem.mp found
      rw [List.length_drop] at short
      -- the bytes up to the next one that begins a source
      have skipped : ∀ {result : Bytes},
          Substituted (Replaces prefixMaps) (bytes.take (i + offset))
          (bytes.drop (i + offset)) result →
          Substituted (Replaces prefixMaps) (bytes.take i) (bytes.drop i)
            ((bytes.drop i).take offset ++ result) := by
        intro result next
        rw [List.take_add, ← List.drop_drop] at next
        have kept := Substituted.skip ?_ next
        · rwa [List.take_append_drop] at kept
        · intro front c back split
          refine not_replaces_of_leading fun leading => ?_
          have mem : c ∈ (bytes.drop i).take offset := by simp [split]
          obtain ⟨j, before, rfl⟩ := List.mem_take_iff_getElem.mp mem
          exact free j (by omega) (List.contains_iff_mem.mpr leading)
      dsimp only
      split
      · next map matched =>
        have replaces := replaces_of_find? matched
        obtain ⟨nonempty, here⟩ := replaces.spec
        obtain ⟨taken, split⟩ := take_add_of_isPrefix here
        have := List.length_pos_iff.mpr nonempty
        obtain ⟨result, pass, written⟩ := ih (i + offset + map.sourceBytes.length)
          (out ++ (bytes.drop i).take offset ++ map.targetBytes) (by omega)
        refine ⟨(bytes.drop i).take offset ++ (map.targetBytes ++ result), skipped ?_, ?_⟩
        · rw [taken] at pass
          rw [split] at replaces ⊢
          exact .replace nonempty replaces pass
        · rw [written]
          simp
      · next unmatched =>
        obtain ⟨c, cons⟩ : ∃ c, bytes.drop (i + offset) = c :: bytes.drop (i + offset + 1) :=
          ⟨_, List.drop_eq_getElem_cons (by omega)⟩
        have none := not_replaces_of_find? unmatched
        have first : [c] <+: bytes.drop (i + offset) := by
          rw [cons]
          exact ⟨_, rfl⟩
        obtain ⟨taken, -⟩ := take_add_of_isPrefix first
        obtain ⟨result, pass, written⟩ := ih (i + offset + 1)
          (out ++ (bytes.drop i).take offset ++ [c]) (by omega)
        refine ⟨(bytes.drop i).take offset ++ (c :: result), skipped ?_, ?_⟩
        · rw [List.length_singleton] at taken
          rw [taken] at pass
          rw [cons] at none ⊢
          exact .keep none pass
        · rw [cons, List.take_succ_cons, List.take_zero, written]
          simp

theorem applyCcPrefixMapsToBytes_substituted (bytes : Bytes) (prefixMaps : List CcPrefixMap) :
    Substituted (Replaces prefixMaps) [] bytes (applyCcPrefixMapsToBytes bytes prefixMaps) := by
  obtain ⟨result, pass, written⟩ := applyFrom_substituted bytes prefixMaps bytes.length 0 []
    (by simp)
  rw [applyCcPrefixMapsToBytes, written]
  simpa using pass

/-- Only the members of the map list matter. -/
theorem replaces_congr {reordered : List CcPrefixMap} (perm : reordered.Perm prefixMaps)
    (before text source target : Bytes) :
    Replaces reordered before text source target ↔
      Replaces prefixMaps before text source target := by
  simp only [Replaces, Eligible, perm.mem_iff]

/-- **Prefix mapping equals its specification.**  For maps with distinct sources the result is the
one that reading byte by byte gives, with the longest eligible source replaced wherever there is one
and reading continued behind it; the order of the maps does not matter. -/
theorem apply_cc_prefix_maps_spec (bytes : Bytes) (prefixMaps : List CcPrefixMap)
    (distinct : (prefixMaps.map (·.source)).Nodup) :
    (∀ result, applyCcPrefixMapsToBytes bytes prefixMaps = result ↔
        Substituted (Replaces prefixMaps) [] bytes result) ∧
      ∀ reordered, reordered.Perm prefixMaps →
        applyCcPrefixMapsToBytes bytes reordered = applyCcPrefixMapsToBytes bytes prefixMaps := by
  have pass := applyCcPrefixMapsToBytes_substituted bytes prefixMaps
  refine ⟨fun result => ⟨fun same => same ▸ pass, fun other => ?_⟩, fun reordered perm => ?_⟩
  · exact pass.unique (replaces_functional distinct) other
  · refine Substituted.unique (replaces_functional distinct) ?_ pass
    exact (applyCcPrefixMapsToBytes_substituted bytes reordered).congr (replaces_congr perm)

/-- Two roots, one inside the other: the order in which they are listed does not matter. -/
theorem apply_cc_prefix_maps_nested :
    applyCcPrefixMapsToBytes (utf8 "/w/out/x") [⟨"/w", "/a"⟩, ⟨"/w/out", "/b"⟩] = utf8 "/b/x" ∧
      applyCcPrefixMapsToBytes (utf8 "/w/out/x")
        [⟨"/w/out", "/b"⟩, ⟨"/w", "/a"⟩] = utf8 "/b/x" := by
  have spec := apply_cc_prefix_maps_spec (utf8 "/w/out/x") [⟨"/w", "/a"⟩, ⟨"/w/out", "/b"⟩]
    (by decide)
  have listed : applyCcPrefixMapsToBytes (utf8 "/w/out/x")
      [⟨"/w", "/a"⟩, ⟨"/w/out", "/b"⟩] = utf8 "/b/x" := by
    decide +kernel
  exact ⟨listed, (spec.2 _ (List.Perm.swap _ _ _)).trans listed⟩

end Kache.Cc
