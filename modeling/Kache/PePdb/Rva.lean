import Kache.Foundation.Checks
import Kache.PePdb.CodeView

/-!
# Addresses map to one place

An image is described by regions: the headers, and the sections of the table.  A region has
a range of addresses, of which the first `backed` ones are in the file from `pointer` on.
`file_offset_for_rva` goes through them with one candidate in hand.

What it computes does not mention the scan (`fileOffsetForRva_eq_ok`): the extent lies in
the file-backed part of every region it touches, and the offsets through these regions are a list of
one.  That exactly one region overlaps the extent, and that the order of the table is of no
account, are read off this.
-/

namespace Kache.PePdb

open Checked

/-- A range of addresses, and what part of it is in the file. -/
structure Region where
  address : ℕ
  span : ℕ
  backed : ℕ
  pointer : ℕ

namespace Region

variable (start stop : ℕ) (r : Region)

/-- Some address is in the region and in the extent. -/
def Overlaps : Prop := ∃ a, (start ≤ a ∧ a < stop) ∧ r.address ≤ a ∧ a < r.address + r.span

/-- The extent is in the file-backed part of the region. -/
def Holds : Prop := r.address ≤ start ∧ stop ≤ r.address + r.backed

/-- The place in the file of the address `start`. -/
def offset : ℕ := r.pointer + (start - r.address)

/-- The test of the scan, by which a region is not passed over. -/
def Touches : Prop := ¬ (stop ≤ r.address ∨ r.address + r.span ≤ start)

instance : Decidable (Touches start stop r) := inferInstanceAs (Decidable (¬ _))

instance : Decidable (Holds start stop r) := inferInstanceAs (Decidable (_ ∧ _))

variable {start stop} {r}

theorem Overlaps.touches (overlaps : r.Overlaps start stop) : r.Touches start stop := by
  obtain ⟨a, inside, here⟩ := overlaps
  rintro (below | above)
  · omega
  · omega

theorem Holds.overlaps (within : r.backed ≤ r.span) (positive : start < stop)
    (holds : r.Holds start stop) : r.Overlaps start stop :=
  ⟨start, ⟨le_rfl, positive⟩, holds.1, by have := holds.2; omega⟩

end Region

/-- The headers are at the beginning of the image and of the file. -/
def headerRegion (headers : UInt32) : Region := ⟨0, headers.toNat, headers.toNat, 0⟩

/-- The region of a section header. -/
def sectionRegion (sectionHeader : Bytes) : Region where
  address := (word32 sectionHeader 12).toNat
  span := max (word32 sectionHeader 8).toNat (word32 sectionHeader 16).toNat
  backed := (word32 sectionHeader 16).toNat
  pointer := (word32 sectionHeader 20).toNat

/-- The headers and the sections. -/
def regions (headers : UInt32) (table : Bytes) : List Region :=
  headerRegion headers :: (asChunks sectionHeaderSize table).map sectionRegion

variable {headers rva : UInt32} {table : Bytes} {location found : Option ℕ}

theorem backed_le_span {r : Region} (mem : r ∈ regions headers table) : r.backed ≤ r.span := by
  rcases List.mem_cons.mp mem with rfl | listed
  · exact le_rfl
  · obtain ⟨chunk, -, rfl⟩ := List.mem_map.mp listed
    exact le_max_right _ _

/-! ## The scan -/

section Scan

variable {start stop : ℕ}

/-- The regions a scan does not pass over. -/
def hits (start stop : ℕ) (rs : List Region) : List Region :=
  rs.filter fun r => r.Touches start stop

/-- What one region does to the candidate. -/
def Step (start stop : ℕ) (r : Region) (location found : Option ℕ) : Prop :=
  (¬ r.Touches start stop ∧ found = location) ∨
    (r.Touches start stop ∧ r.Holds start stop ∧ location = none ∧ found = some (r.offset start))

theorem sectionLocation_eq (small : start < 2 ^ 32) {chunk : Bytes} (whole : chunk.length = 40) :
    sectionLocation start stop location chunk =
      if ¬ (sectionRegion chunk).Touches start stop then .ok location
      else if ¬ (sectionRegion chunk).Holds start stop then
        fail "PE debug data is not fully file-backed in an overlapping section"
      else if location ≠ none then fail "PE debug data has ambiguous RVA mappings"
      else .ok (some ((sectionRegion chunk).offset start)) := by
  have haddress := (word32 chunk 12).toNat_lt
  have hraw := (word32 chunk 16).toNat_lt
  have hvirtual := (word32 chunk 8).toNat_lt
  have hpointer := (word32 chunk 20).toNat_lt
  have field : ∀ offset, offset + 4 ≤ 40 →
      (u32At chunk offset : Checked String UInt32) = .ok (word32 chunk offset) :=
    fun offset inside => u32At_of (by omega) (by omega)
  unfold sectionLocation
  rw [field 12 (by omega), field 16 (by omega), field 8 (by omega), field 20 (by omega)]
  simp only [bind, Except.bind]
  rw [word_of (by omega), word_of (by omega), word_of (by omega)]
  show (if stop ≤ (sectionRegion chunk).address ∨
      (sectionRegion chunk).address + (sectionRegion chunk).span ≤ start then .ok location
    else do
      ensure ((sectionRegion chunk).Holds start stop) _
      ensure (location = none) _
      let o ← minus ((sectionRegion chunk).pointer + start) (sectionRegion chunk).address
      .ok (some o)) = _
  by_cases touches : (sectionRegion chunk).Touches start stop
  · rw [if_neg (not_not_intro touches), if_neg touches]
    by_cases holds : (sectionRegion chunk).Holds start stop
    · rw [if_neg (not_not_intro holds), ensure_of holds,
        minus_of (le_trans holds.1 (Nat.le_add_left _ _)),
        Region.offset, ← Nat.add_sub_assoc holds.1]
      cases location with
      | none => rfl
      | some o => rfl
    · rw [if_pos holds, ensure, if_neg holds]
      rfl
  · rw [if_pos touches, if_pos (Classical.not_not.mp touches)]

theorem sectionLocation_eq_ok (small : start < 2 ^ 32) {chunk : Bytes} (whole : chunk.length = 40) :
    sectionLocation start stop location chunk = .ok found ↔
      Step start stop (sectionRegion chunk) location found := by
  rw [sectionLocation_eq small whole, Step]
  by_cases touches : (sectionRegion chunk).Touches start stop
  · by_cases holds : (sectionRegion chunk).Holds start stop
    · cases location with
      | none => simp [touches, holds, eq_comm]
      | some o => simp [touches, holds, fail]
    · simp [touches, holds, fail]
  · simp [touches, eq_comm]

theorem headerLocation_eq_ok (mapped : rva ≠ 0) (size : UInt32) :
    headerLocation rva (rva.toNat + size.toNat) headers = .ok found ↔
      Step rva.toNat (rva.toNat + size.toNat) (headerRegion headers) none found := by
  have positive : 0 < rva.toNat := by
    rcases Nat.eq_zero_or_pos rva.toNat with zero | positive
    · exact absurd (UInt32.toNat_inj.mp zero) mapped
    · exact positive
  have touches : (headerRegion headers).Touches rva.toNat (rva.toNat + size.toNat) ↔
      rva < headers := by
    rw [UInt32.lt_iff_toNat_lt]
    simp only [Region.Touches, headerRegion]
    omega
  have holds : (headerRegion headers).Holds rva.toNat (rva.toNat + size.toNat) ↔
      rva.toNat + size.toNat ≤ headers.toNat := by
    simp only [Region.Holds, headerRegion]
    omega
  have offset : (headerRegion headers).offset rva.toNat = rva.toNat := by
    simp [Region.offset, headerRegion]
  rw [headerLocation, Step, touches, holds, offset]
  by_cases inside : rva < headers
  · by_cases fits : rva.toNat + size.toNat ≤ headers.toNat
    · simp [inside, fits, ensure, bind, Except.bind, pure, Except.pure, eq_comm]
    · simp [inside, fits, ensure, bind, Except.bind, fail]
  · simp [inside, pure, Except.pure, eq_comm]

/-- One region of a scan. -/
theorem step_iff {r : Region} : Step start stop r location found ↔
    (∀ hit ∈ hits start stop [r], hit.Holds start stop) ∧
      found.toList = location.toList ++ (hits start stop [r]).map (Region.offset start) := by
  unfold Step hits
  by_cases touches : r.Touches start stop
  · cases location <;> cases found <;> simp [touches]
  · cases location <;> cases found <;> simp [touches, eq_comm]

/-- Scans one after the other. -/
theorem step_trans {rs rs' : List Region} {location found : Option ℕ} :
    (∃ middle : Option ℕ, ((∀ hit ∈ hits start stop rs, hit.Holds start stop) ∧
        middle.toList = location.toList ++ (hits start stop rs).map (Region.offset start)) ∧
      (∀ hit ∈ hits start stop rs', hit.Holds start stop) ∧
        found.toList = middle.toList ++ (hits start stop rs').map (Region.offset start)) ↔
    (∀ hit ∈ hits start stop (rs ++ rs'), hit.Holds start stop) ∧
      found.toList = location.toList ++ (hits start stop (rs ++ rs')).map
        (Region.offset start) := by
  have split : hits start stop (rs ++ rs') = hits start stop rs ++ hits start stop rs' :=
    List.filter_append ..
  rw [split, List.map_append, ← List.append_assoc]
  constructor
  · rintro ⟨middle, ⟨first, here⟩, second, there⟩
    exact ⟨List.forall_mem_append.mpr ⟨first, second⟩, here ▸ there⟩
  · rintro ⟨all, there⟩
    obtain ⟨first, second⟩ := List.forall_mem_append.mp all
    -- what came before is a list of at most one offset, because all of it is
    generalize location.toList ++ (hits start stop rs).map (Region.offset start) = sofar at there
    have short : sofar.length ≤ 1 := by
      have total := congrArg List.length there
      rw [List.length_append] at total
      have := Option.length_toList_le (o := found)
      omega
    match sofar, short with
    | [], _ => exact ⟨none, ⟨first, rfl⟩, second, there⟩
    | [o], _ => exact ⟨some o, ⟨first, rfl⟩, second, there⟩

theorem foldlM_sectionLocation_eq_ok (small : start < 2 ^ 32) {chunks : List Bytes}
    (whole : ∀ chunk ∈ chunks, chunk.length = 40) :
    chunks.foldlM (sectionLocation start stop) location = .ok found ↔
      (∀ hit ∈ hits start stop (chunks.map sectionRegion), hit.Holds start stop) ∧
        found.toList = location.toList ++
          (hits start stop (chunks.map sectionRegion)).map (Region.offset start) := by
  induction chunks generalizing location with
  | nil =>
    rw [List.foldlM_nil, List.map_nil]
    cases location <;> cases found <;> simp [hits, pure, Except.pure, eq_comm]
  | cons chunk rest ih =>
    obtain ⟨first, others⟩ := List.forall_mem_cons.mp whole
    rw [List.foldlM_cons, bind_eq_ok, List.map_cons, ← List.singleton_append, ← step_trans]
    refine exists_congr fun middle => and_congr ?_ (ih others)
    rw [sectionLocation_eq_ok small first, step_iff]

end Scan

/-- What the scan computes: the extent is in the file-backed part of every region it touches,
and the offsets through them are just one. -/
theorem fileOffsetForRva_eq_ok {size : UInt32} {o : ℕ} :
    fileOffsetForRva rva size headers table = .ok o ↔ rva ≠ 0 ∧
      (∀ hit ∈ hits rva.toNat (rva.toNat + size.toNat) (regions headers table),
        hit.Holds rva.toNat (rva.toNat + size.toNat)) ∧
      (hits rva.toNat (rva.toNat + size.toNat) (regions headers table)).map
        (Region.offset rva.toNat) = [o] := by
  have hrva := rva.toNat_lt
  have hsize := size.toNat_lt
  have whole : ∀ chunk ∈ asChunks sectionHeaderSize table, chunk.length = 40 :=
    fun chunk mem => length_of_mem_asChunks mem
  unfold fileOffsetForRva
  by_cases mapped : rva ≠ 0
  · rw [ensure_of mapped]
    show (word 64 (rva.toNat + size.toNat) >>= _) = _ ↔ _
    rw [word_of (by omega)]
    show (headerLocation rva (rva.toNat + size.toNat) headers >>= _) = _ ↔ _
    rw [regions, ← List.singleton_append]
    have joined := @step_trans rva.toNat (rva.toNat + size.toNat) [headerRegion headers]
      ((asChunks sectionHeaderSize table).map sectionRegion) none (some o)
    simp only [Option.toList_some, Option.toList_none, List.nil_append] at joined
    rw [eq_comm (b := [o]), and_iff_right mapped, ← joined, bind_eq_ok]
    refine exists_congr fun middle => and_congr ?_ ?_
    · rw [headerLocation_eq_ok mapped, step_iff]
      rfl
    · rw [bind_eq_ok, ← Option.toList_some, ← foldlM_sectionLocation_eq_ok hrva whole]
      constructor
      · rintro ⟨found, scanned, last⟩
        cases found with
        | none => cases last
        | some o' =>
          cases last
          exact scanned
      · intro scanned
        exact ⟨some o, scanned, rfl⟩
  · refine iff_of_false ?_ fun h => mapped h.1
    rw [ensure, if_neg mapped]
    exact fun h => nomatch h

/-! ## Unambiguous -/

/-- Two runs give the same value, or both an error. -/
def SameResult (a b : Checked String ℕ) : Prop :=
  (∀ o, a = .ok o ↔ b = .ok o) ∧ ((∃ e, a = .error (.err e)) ↔ ∃ e, b = .error (.err e))

/-- Safe runs that return the same values fail together. -/
theorem sameResult_of_safe {a b : Checked String ℕ} {P Q : ℕ → Prop} (ha : Safe a P) (hb : Safe b Q)
    (same : ∀ o, a = .ok o ↔ b = .ok o) : SameResult a b := by
  refine ⟨same, ?_⟩
  rcases ha.returns with ⟨o, done⟩ | failed
  · rw [done, (same o).mp done]
  · rcases hb.returns with ⟨o, done⟩ | failed'
    · obtain ⟨e, failed⟩ := failed
      rw [(same o).mpr done] at failed
      cases failed
    · exact iff_of_true failed failed'

theorem only_overlap {size : UInt32} {o : ℕ} (positive : 0 < size)
    (mapped : fileOffsetForRva rva size headers table = .ok o) :
    ∃ before r after, regions headers table = before ++ r :: after ∧
      r.Overlaps rva.toNat (rva.toNat + size.toNat) ∧
      (∀ r' ∈ before ++ after, ¬ r'.Overlaps rva.toNat (rva.toNat + size.toNat)) ∧
      r.Holds rva.toNat (rva.toNat + size.toNat) ∧ o = r.offset rva.toNat := by
  obtain ⟨-, contained, offsets⟩ := fileOffsetForRva_eq_ok.mp mapped
  obtain ⟨r, only, rfl⟩ := List.map_eq_singleton_iff.mp offsets
  have first := only
  rw [hits, List.filter_eq_cons_iff] at first
  obtain ⟨before, after, split, passed, -, rest⟩ := first
  have holds := contained r (only ▸ List.mem_singleton_self r)
  have inside : r ∈ regions headers table := split ▸ List.mem_append_right before List.mem_cons_self
  have extent : rva.toNat < rva.toNat + size.toNat :=
    Nat.lt_add_of_pos_right (UInt32.lt_iff_toNat_lt.mp positive)
  refine ⟨before, r, after, split, holds.overlaps (backed_le_span inside) extent, ?_, holds, rfl⟩
  refine List.forall_mem_append.mpr ⟨fun r' mem overlaps => ?_, fun r' mem overlaps => ?_⟩
  · exact passed r' mem (decide_eq_true overlaps.touches)
  · exact List.filter_eq_nil_iff.mp rest r' mem (decide_eq_true overlaps.touches)

/-- **The mapping of addresses is unambiguous.**  If an extent of positive size is mapped to `o`,
then exactly one of the headers and the sections overlaps it, that one holds all of it in its
file-backed part, and `o` is where its first byte is through it.  And whatever the order of the
section table, the result is the same. -/
theorem rva_mapping_unambiguous (rva size headers : UInt32) :
    (∀ (table : Bytes) (o : ℕ), 0 < size → fileOffsetForRva rva size headers table = .ok o →
      ∃ before r after, regions headers table = before ++ r :: after ∧
        r.Overlaps rva.toNat (rva.toNat + size.toNat) ∧
        (∀ r' ∈ before ++ after, ¬ r'.Overlaps rva.toNat (rva.toNat + size.toNat)) ∧
        r.Holds rva.toNat (rva.toNat + size.toNat) ∧ o = r.offset rva.toNat) ∧
    ∀ table table' : Bytes,
      (asChunks sectionHeaderSize table).Perm (asChunks sectionHeaderSize table') →
        SameResult (fileOffsetForRva rva size headers table)
          (fileOffsetForRva rva size headers table') := by
  refine ⟨fun table o positive mapped => only_overlap positive mapped, fun table table' perm => ?_⟩
  refine sameResult_of_safe (safe_fileOffsetForRva rva size headers table)
    (safe_fileOffsetForRva rva size headers table') fun o => ?_
  rw [fileOffsetForRva_eq_ok, fileOffsetForRva_eq_ok]
  have same : (hits rva.toNat (rva.toNat + size.toNat) (regions headers table)).Perm
      (hits rva.toNat (rva.toNat + size.toNat) (regions headers table')) :=
    ((perm.map sectionRegion).cons _).filter _
  refine and_congr_right fun _ => and_congr ?_ ?_
  · exact ⟨fun all hit mem => all hit (same.mem_iff.mpr mem),
      fun all hit mem => all hit (same.mem_iff.mp mem)⟩
  · have offsets := same.map (Region.offset rva.toNat)
    constructor
    · intro one
      exact List.perm_singleton.mp (one ▸ offsets.symm)
    · intro one
      exact List.perm_singleton.mp (one ▸ offsets)

/-- A section header with its four fields. -/
def sectionHeaderOf (virtualSize address rawSize pointer : ℕ) : Bytes :=
  List.replicate 8 0 ++ leBytes 4 virtualSize ++ leBytes 4 address ++ leBytes 4 rawSize ++
    leBytes 4 pointer ++ List.replicate 16 0

/-- Two sections, in both orders; the extent is in the second. -/
theorem rva_mapping_unambiguous_rdata :
    let text := sectionHeaderOf 0x1f0 0x1000 0x200 0x400
    let rdata := sectionHeaderOf 0x300 0x2000 0x200 0x600
    fileOffsetForRva 0x2010 28 0x400 (text ++ rdata) = .ok 0x610 ∧
    (∃ before r after, regions 0x400 (text ++ rdata) = before ++ r :: after ∧
      r.Overlaps 0x2010 (0x2010 + 28) ∧
      (∀ r' ∈ before ++ after, ¬ r'.Overlaps 0x2010 (0x2010 + 28)) ∧
      r.Holds 0x2010 (0x2010 + 28) ∧ 0x610 = r.offset 0x2010) ∧
    SameResult (fileOffsetForRva 0x2010 28 0x400 (text ++ rdata))
      (fileOffsetForRva 0x2010 28 0x400 (rdata ++ text)) := by
  intro text rdata
  have mapped : fileOffsetForRva 0x2010 28 0x400 (text ++ rdata) = .ok 0x610 := by decide +kernel
  have swapped : (asChunks sectionHeaderSize (text ++ rdata)).Perm
      (asChunks sectionHeaderSize (rdata ++ text)) := by decide +kernel
  obtain ⟨only, same⟩ := rva_mapping_unambiguous 0x2010 28 0x400
  exact ⟨mapped, only (text ++ rdata) 0x610 (by decide) mapped, same _ _ swapped⟩

end Kache.PePdb
