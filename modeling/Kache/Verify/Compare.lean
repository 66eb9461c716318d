import Kache.Foundation.Ascii
import Kache.Foundation.Loop
import Kache.Foundation.Stretches
import Mathlib.Data.List.Find
import Mathlib.Data.List.Infix

/-!
# Artifacts that differ only in embedded paths

`verify_compare.rs` compares a restored artifact with a freshly compiled one.  A difference in an
absolute path or in a remap sentinel is put down to debug information: `bytes_equal_ignoring_
embedded_paths` looks for the first byte that differs, asks on each side for a path around it and
goes on after the two paths.

The loop cuts both slices in each round.  It is written here with the number of rounds it may take,
and `compareFrom_isSome` says that one round for each byte is enough.
-/

namespace Kache.Verify

open Ascii

/-- `is_path_byte`. -/
def isPathByte (b : UInt8) : Bool :=
  isAlphanumeric b || b == slash || b == backslash || b == fullStop || b == underscore || b == 45 ||
    b == 126 || b == 43 || b == percent || b == colon || b == 64 || b == 61 || b == 36 ||
    b == openBrace || b == closeBrace || b == 91 || b == 93 || b == less || b == greater

/-- The text `__kache`, with which the sentinels of this program begin. -/
def kacheMark : List UInt8 := [95, 95, 107, 97, 99, 104, 101]

/-- `is_path_start` for the bytes from its index on. -/
def startsPath : List UInt8 → Bool
  | [] => false
  | b :: rest =>
    if b = slash ∨ b = backslash ∨ b = less then true
    else if b = underscore then kacheMark.isPrefixOf (b :: rest)
    else if isAlphabetic b then [colon].isPrefixOf rest
    else false

/-- `is_path_start`. -/
def isPathStart (bytes : List UInt8) (index : ℕ) : Bool := startsPath (bytes.drop index)

/-- `looks_like_path`. -/
def looksLikePath (bytes : List UInt8) : Bool :=
  2 ≤ bytes.length && isPathStart bytes 0 &&
    bytes.any fun b => b == slash || b == backslash || b == greater

/-- The `rposition` of a byte that is no path byte, and one more; zero where there is none. -/
def runStart (front : List UInt8) : ℕ :=
  ((front.reverse.findIdx? fun b => !isPathByte b).map fun fromEnd =>
    front.length - 1 - fromEnd).elim 0 (· + 1)

/-- `find_path_start`. -/
def findPathStart (bytes : List UInt8) (mismatch : ℕ) : Option ℕ :=
  if mismatch < bytes.length then
    let start := runStart (bytes.take (mismatch + 1))
    (List.range' start (mismatch + 1 - start)).find? (isPathStart bytes)
  else none

/-- `path_span_covering`. -/
def pathSpanCovering (bytes : List UInt8) (mismatch : ℕ) : Option (ℕ × ℕ) :=
  (findPathStart bytes mismatch).bind fun start =>
    let pathLen := ((bytes.drop mismatch).takeWhile isPathByte).length
    if pathLen = 0 then none
    else if looksLikePath ((bytes.take (mismatch + pathLen)).drop start) then
      some (start, mismatch + pathLen)
    else none

/-- `remaining_is_path`. -/
def remainingIsPath (bytes : List UInt8) (index : ℕ) : Bool :=
  index ≤ bytes.length &&
    ((bytes.drop index).isEmpty ||
      (pathSpanCovering bytes index).any fun span => span.2 == bytes.length)

/-- The first place at which the two slices differ. -/
def firstMismatch (left right : List UInt8) : Option ℕ :=
  (left.zip right).findIdx? fun pair => pair.1 != pair.2

/-- The place at which a slice is cut after a mismatch: the end of the path around it, if the path
is there and its end is not zero. -/
def cutAfter (bytes : List UInt8) (mismatch : ℕ) : Option ℕ :=
  (pathSpanCovering bytes mismatch).bind fun span => if span.2 = 0 then none else some span.2

/-- One round of the loop in `bytes_equal_ignoring_embedded_paths`: the value it returns, or the two
slices it goes on with. -/
def compareRound : List UInt8 × List UInt8 → Bool ⊕ List UInt8 × List UInt8
  | (left, right) =>
    match firstMismatch left right with
    | none =>
      let common := min left.length right.length
      .inl (remainingIsPath left common && remainingIsPath right common)
    | some mismatch =>
      match cutAfter left mismatch with
      | none => .inl false
      | some leftEnd =>
        match cutAfter right mismatch with
        | none => .inl false
        | some rightEnd => .inr (left.drop leftEnd, right.drop rightEnd)

/-- The loop, for so many rounds. -/
def compareFrom (rounds : ℕ) (left right : List UInt8) : Option Bool :=
  untilReturn compareRound rounds (left, right)

/-- `bytes_equal_ignoring_embedded_paths`. -/
def bytesEqualIgnoringEmbeddedPaths (left right : List UInt8) : Bool :=
  (compareFrom (left.length + 1) left right).getD false

/-! ### One round -/

variable {b : UInt8} {bytes : List UInt8} {mismatch start stop : ℕ}

theorem firstMismatch_parting (common l r : List UInt8) {c : UInt8} (differ : b ≠ c) :
    firstMismatch (common ++ b :: l) (common ++ c :: r) = some common.length := by
  induction common with
  | nil => simp [firstMismatch, List.findIdx?_cons, differ]
  | cons a common ih =>
    rw [firstMismatch] at ih
    simp [firstMismatch, List.findIdx?_cons, ih]

theorem firstMismatch_append (left rest : List UInt8) :
    firstMismatch left (left ++ rest) = none := by
  induction left with
  | nil => rfl
  | cons b left ih =>
    rw [firstMismatch] at ih
    simp [firstMismatch, List.findIdx?_cons, ih]

theorem firstMismatch_comm (left right : List UInt8) :
    firstMismatch left right = firstMismatch right left := by
  induction left generalizing right with
  | nil => cases right <;> rfl
  | cons b left ih =>
    cases right with
    | nil => rfl
    | cons c right =>
      have tails := ih right
      rw [firstMismatch, firstMismatch] at tails
      have swapped : (b != c) = (c != b) := bne_comm
      simp only [firstMismatch, List.zip_cons_cons, List.findIdx?_cons, swapped, tails]

theorem lt_length_of_findPathStart (found : findPathStart bytes mismatch = some start) :
    mismatch < bytes.length := by
  by_contra beyond
  rw [findPathStart, if_neg beyond] at found
  cases found

theorem pathSpanCovering_eq_some (covered : pathSpanCovering bytes mismatch = some (start, stop)) :
    findPathStart bytes mismatch = some start ∧
      stop = mismatch + ((bytes.drop mismatch).takeWhile isPathByte).length ∧ mismatch < stop ∧
      looksLikePath ((bytes.take stop).drop start) = true := by
  obtain ⟨first, found, rest⟩ := Option.bind_eq_some_iff.mp covered
  by_cases none : ((bytes.drop mismatch).takeWhile isPathByte).length = 0
  · simp [none] at rest
  · by_cases accepted :
        looksLikePath
        ((bytes.take (mismatch + ((bytes.drop mismatch).takeWhile isPathByte).length)).drop first)
    · simp only [none, accepted, if_true, if_false, Option.some.injEq, Prod.mk.injEq] at rest
      obtain ⟨rfl, rfl⟩ := rest
      exact ⟨found, rfl, by omega, accepted⟩
    · simp [none, accepted] at rest

theorem cutAfter_eq_some :
    cutAfter bytes mismatch = some stop ↔ ∃ start,
      pathSpanCovering bytes mismatch = some (start, stop) := by
  constructor
  · intro cut
    obtain ⟨⟨start, last⟩, covered, rest⟩ := Option.bind_eq_some_iff.mp cut
    obtain ⟨-, -, beyond, -⟩ := pathSpanCovering_eq_some covered
    rw [if_neg (by simp only; omega), Option.some.injEq] at rest
    exact ⟨start, rest ▸ covered⟩
  · rintro ⟨start, covered⟩
    obtain ⟨-, -, beyond, -⟩ := pathSpanCovering_eq_some covered
    rw [cutAfter, covered, Option.bind_some, if_neg (by simp only; omega)]

/-- A cut takes at least one byte of what is left. -/
theorem length_drop_cut_lt (cut : cutAfter bytes mismatch = some stop) :
    (bytes.drop stop).length < bytes.length := by
  obtain ⟨start, covered⟩ := cutAfter_eq_some.mp cut
  obtain ⟨found, -, beyond, -⟩ := pathSpanCovering_eq_some covered
  have inside := lt_length_of_findPathStart found
  rw [List.length_drop]
  omega

/-- What a round does to two slices that part. -/
theorem compareRound_parting (common l r : List UInt8) {c : UInt8} (differ : b ≠ c) :
    compareRound (common ++ b :: l, common ++ c :: r) =
      match cutAfter (common ++ b :: l) common.length with
      | none => .inl false
      | some leftEnd =>
        match cutAfter (common ++ c :: r) common.length with
        | none => .inl false
        | some rightEnd =>
          .inr ((common ++ b :: l).drop leftEnd, (common ++ c :: r).drop rightEnd) := by
  rw [compareRound, firstMismatch_parting common l r differ]

/-- The round after which one slice is the beginning of the other. -/
theorem compareRound_append (left rest : List UInt8) :
    compareRound (left, left ++ rest) = .inl (remainingIsPath (left ++ rest) left.length) := by
  have fits : min left.length (left ++ rest).length = left.length := by simp
  have here : remainingIsPath left left.length = true := by simp [remainingIsPath]
  rw [compareRound, firstMismatch_append]
  simp only [fits, here, Bool.true_and]

theorem compareRound_swap (left right : List UInt8) :
    compareRound (right, left) = (compareRound (left, right)).map id Prod.swap := by
  rw [compareRound, compareRound, firstMismatch_comm left right]
  cases firstMismatch right left with
  | none => simp [Nat.min_comm, Bool.and_comm]
  | some mismatch =>
    cases onLeft : cutAfter left mismatch <;> cases onRight : cutAfter right mismatch <;>
      simp [onLeft, onRight]

/-! ### The loop -/

theorem compareRound_shrinks (slices next : List UInt8 × List UInt8)
    (goes : compareRound slices = .inr next) : next.1.length < slices.1.length := by
  obtain ⟨left, right⟩ := slices
  rw [compareRound] at goes
  split at goes
  · cases goes
  · split at goes
    · cases goes
    next leftEnd cut =>
      split at goes
      · cases goes
      · obtain rfl := Sum.inr.inj goes
        exact length_drop_cut_lt cut

/-- The loop ends on all inputs. -/
theorem compareFrom_isSome (left right : List UInt8) :
    (compareFrom (left.length + 1) left right).isSome = true :=
  untilReturn_isSome compareRound_shrinks (Nat.lt_succ_self left.length)

theorem compareFrom_eq {rounds : ℕ} {left right : List UInt8} (enough : left.length < rounds) :
    compareFrom rounds left right = some (bytesEqualIgnoringEmbeddedPaths left right) := by
  obtain ⟨verdict, ended⟩ := Option.isSome_iff_exists.mp (compareFrom_isSome left right)
  rw [bytesEqualIgnoringEmbeddedPaths, ended, Option.getD_some]
  exact untilReturn_stable ended enough

/-- The loop as the source has it, with no count of rounds. -/
theorem bytesEqual_eq (left right : List UInt8) : bytesEqualIgnoringEmbeddedPaths left right =
    (compareRound (left, right)).elim id fun next =>
      bytesEqualIgnoringEmbeddedPaths next.1 next.2 := by
  have unfolded := @compareFrom_eq _ left right (Nat.lt_succ_self left.length)
  rw [compareFrom, untilReturn] at unfolded
  cases first : compareRound (left, right) with
  | inl verdict =>
    rw [first] at unfolded
    exact (Option.some.inj unfolded).symm
  | inr next =>
    have shorter := compareRound_shrinks _ next first
    rw [first] at unfolded
    exact (Option.some.inj (unfolded.symm.trans (compareFrom_eq shorter)))

theorem compareFrom_comm (rounds : ℕ) (left right : List UInt8) :
    compareFrom rounds left right = compareFrom rounds right left := by
  induction rounds generalizing left right with
  | zero => rfl
  | succ rounds ih =>
    rw [compareFrom, compareFrom, untilReturn, untilReturn, compareRound_swap left right]
    cases compareRound (left, right) with
    | inl verdict => rfl
    | inr next => exact ih next.1 next.2

theorem bytesEqual_comm (left right : List UInt8) :
    bytesEqualIgnoringEmbeddedPaths left right = bytesEqualIgnoringEmbeddedPaths right left := by
  have onLeft : left.length < left.length + right.length + 1 := by omega
  have onRight : right.length < left.length + right.length + 1 := by omega
  have same := compareFrom_comm (left.length + right.length + 1) left right
  rw [compareFrom_eq onLeft, compareFrom_eq onRight] at same
  exact Option.some.inj same

/-! ### The path around a place

The stretch of path bytes around a place decides everything there: where it begins, which of its
bytes start a path and what is taken for one.
-/

theorem isPathByte_of_startsPath {rest : List UInt8} (starts : startsPath (b :: rest) = true) :
    isPathByte b = true := by
  rw [startsPath] at starts
  split at starts
  next either => rcases either with rfl | rfl | rfl <;> decide
  next =>
    split at starts
    next mark => subst mark; decide
    next =>
      split at starts
      next letter => simp [isPathByte, isAlphanumeric, letter]
      next => cases starts

theorem forall_kacheMark : ∀ c ∈ kacheMark, isPathByte c = true := List.all_eq_true.mp (by decide)

theorem startsPath_stretch {stretch post : List UInt8} (cuts : CutsOff isPathByte post) :
    startsPath (stretch ++ post) = startsPath stretch := by
  cases stretch with
  | nil =>
    cases post with
    | nil => rfl
    | cons c rest =>
      have fails := cutsOff_cons.mp cuts
      exact Bool.eq_false_iff.mpr fun starts => by simp [isPathByte_of_startsPath starts] at fails
  | cons b stretch =>
    have mark : kacheMark.isPrefixOf (b :: stretch ++ post) = kacheMark.isPrefixOf (b :: stretch) :=
      isPrefixOf_stretch forall_kacheMark cuts
    have drive : [colon].isPrefixOf (stretch ++ post) = [colon].isPrefixOf stretch :=
      isPrefixOf_stretch (List.all_eq_true.mp (by decide)) cuts
    rw [List.cons_append] at mark ⊢
    rw [startsPath, startsPath, mark, drive]

theorem runStart_stretch {pre front : List UInt8} (closes : ClosesOff isPathByte pre)
    (inside : ∀ c ∈ front, isPathByte c = true) : runStart (pre ++ front) = pre.length := by
  have none : (front.reverse.findIdx? fun b => !isPathByte b) = none := by
    rw [List.findIdx?_eq_none_iff]
    intro c mem
    simp [inside c (List.mem_reverse.mp mem)]
  rw [runStart, List.reverse_append, List.findIdx?_append, none]
  rcases List.eq_nil_or_concat' pre with rfl | ⟨init, c, rfl⟩
  · rfl
  · have fails : isPathByte c = false := closes c (by simp)
    simp [List.findIdx?_cons, fails]

section Around

variable {pre front back post : List UInt8}

theorem isPathStart_stretch (cuts : CutsOff isPathByte post) (stretch : List UInt8) {index : ℕ}
    (within : index ≤ stretch.length) :
    isPathStart (pre ++ (stretch ++ post)) (pre.length + index) = isPathStart stretch index := by
  rw [isPathStart, List.drop_append, List.drop_eq_nil_of_le (by omega), List.nil_append,
    Nat.add_sub_cancel_left, List.drop_append_of_le_length within, startsPath_stretch cuts,
    isPathStart]

/-- The first byte of the stretch, up to the place, that starts a path. -/
def firstStart (front back : List UInt8) : Option ℕ :=
  (List.range (front.length + 1)).find? (isPathStart (front ++ back))

theorem findPathStart_stretch (closes : ClosesOff isPathByte pre)
    (inside : ∀ c ∈ front ++ back, isPathByte c = true) (cuts : CutsOff isPathByte post)
    (covers : back ≠ []) :
    findPathStart (pre ++ (front ++ back ++ post)) (pre.length + front.length) =
      (firstStart front back).map (pre.length + ·) := by
  obtain ⟨b, rest, rfl⟩ := List.exists_cons_of_ne_nil covers
  have taken : (pre ++ (front ++ b :: rest ++ post)).take (pre.length + front.length + 1) =
      pre ++ (front ++ [b]) := by
    rw [Nat.add_assoc, List.take_length_add_append, List.append_assoc, List.take_length_add_append]
    simp
  have start : runStart (pre ++ (front ++ [b])) = pre.length := by
    refine runStart_stretch closes fun c mem => inside c ?_
    rcases List.mem_append.mp mem with there | here
    · exact List.mem_append_left _ there
    · exact List.mem_append_right _ (List.mem_singleton.mp here ▸ List.mem_cons_self)
  have long : pre.length + front.length < (pre ++ (front ++ b :: rest ++ post)).length := by
    simp only [List.length_append, List.length_cons]
    omega
  rw [findPathStart, if_pos long, taken]
  simp only [start]
  rw [show pre.length + front.length + 1 - pre.length = front.length + 1 by omega,
    List.range'_eq_map_range, List.find?_map, firstStart]
  refine congrArg (Option.map _) (List.find?_congr fun index mem => ?_)
  have within : index ≤ (front ++ b :: rest).length := by
    have bound := List.mem_range.mp mem
    simp only [List.length_append, List.length_cons]
    omega
  exact isPathStart_stretch cuts _ within

theorem pathSpanCovering_stretch (closes : ClosesOff isPathByte pre)
    (inside : ∀ c ∈ front ++ back, isPathByte c = true) (cuts : CutsOff isPathByte post)
    (covers : back ≠ []) :
    pathSpanCovering (pre ++ (front ++ back ++ post)) (pre.length + front.length) =
      (firstStart front back).bind fun index =>
        if looksLikePath ((front ++ back).drop index) then
          some (pre.length + index, pre.length + (front ++ back).length)
        else none := by
  have ahead : (pre ++ (front ++ back ++ post)).drop (pre.length + front.length) =
      back ++ post := by
    rw [← List.length_append, List.append_assoc front, ← List.append_assoc pre, List.drop_left]
  have path : (back ++ post).takeWhile isPathByte = back :=
    takeWhile_stretch (fun c mem => inside c (List.mem_append_right front mem)) cuts
  have stop : pre.length + front.length + back.length = pre.length + (front ++ back).length := by
    rw [List.length_append, Nat.add_assoc]
  have nonempty : back.length ≠ 0 := fun none => covers (List.eq_nil_of_length_eq_zero none)
  rw [pathSpanCovering, findPathStart_stretch closes inside cuts covers, ahead, path,
    Option.bind_map]
  refine congrArg (Option.bind _) (funext fun index => ?_)
  have piece : ((pre ++ (front ++ back ++ post)).take (pre.length + (front ++ back).length)).drop
      (pre.length + index) = (front ++ back).drop index := by
    rw [List.take_length_add_append, List.take_left, List.drop_append,
      List.drop_eq_nil_of_le (by omega), List.nil_append, Nat.add_sub_cancel_left]
  simp only [Function.comp_apply, nonempty, if_false, stop, piece]

end Around

/-- Some piece of the stretch, up to its end, looks like a path. -/
def holdsPath (stretch : List UInt8) : Bool := stretch.tails.any looksLikePath

theorem holdsPath_drop {stretch : List UInt8} {index : ℕ}
    (accepted : looksLikePath (stretch.drop index) = true) : holdsPath stretch = true :=
  List.any_eq_true.mpr ⟨_, (List.mem_tails _ _).mpr (List.drop_suffix index stretch), accepted⟩

/-- There is no path around a byte that is none of its own. -/
theorem pathSpanCovering_of_cutsOff (cuts : CutsOff isPathByte (bytes.drop mismatch)) :
    pathSpanCovering bytes mismatch = none := by
  have nothing : (bytes.drop mismatch).takeWhile isPathByte = [] := by
    exact takeWhile_stretch (fun c none => absurd none List.not_mem_nil) cuts
  rw [pathSpanCovering, nothing]
  cases findPathStart bytes mismatch <;> rfl

/-- The path around the place between `common` and `rest` ends with the path bytes of `rest`, and
the stretch there holds it. -/
theorem pathSpanCovering_append {common rest : List UInt8}
    (covered : pathSpanCovering (common ++ rest) common.length = some (start, stop)) :
    stop = common.length + (rest.takeWhile isPathByte).length ∧
      holdsPath (common.rtakeWhile isPathByte ++ rest.takeWhile isPathByte) = true := by
  have ahead : (common ++ rest).drop common.length = rest := List.drop_left
  by_cases covers : rest.takeWhile isPathByte = []
  · have cuts : CutsOff isPathByte rest := by
      have around : rest.takeWhile isPathByte ++ rest.dropWhile isPathByte = rest :=
        List.takeWhile_append_dropWhile
      rw [covers, List.nil_append] at around
      exact around ▸ cutsOff_dropWhile rest
    rw [pathSpanCovering_of_cutsOff (by rwa [ahead])] at covered
    cases covered
  · have inside : ∀ c ∈ common.rtakeWhile isPathByte ++ rest.takeWhile isPathByte,
        isPathByte c = true := by
      intro c mem
      rcases List.mem_append.mp mem with before | after
      · exact List.mem_rtakeWhile_imp before
      · exact List.mem_takeWhile_imp after
    have shape :=
      pathSpanCovering_stretch (closesOff_rdropWhile common) inside (cutsOff_dropWhile rest) covers
    rw [List.append_assoc, List.takeWhile_append_dropWhile, ← List.append_assoc,
      List.rdropWhile_append_rtakeWhile, ← List.length_append, List.rdropWhile_append_rtakeWhile,
      covered] at shape
    obtain ⟨index, -, accepted⟩ := Option.bind_eq_some_iff.mp shape.symm
    split at accepted
    next looks =>
      obtain ⟨-, rfl⟩ := Prod.mk.inj (Option.some.inj accepted)
      refine ⟨?_, holdsPath_drop looks⟩
      rw [List.length_append, ← Nat.add_assoc, ← List.length_append,
        List.rdropWhile_append_rtakeWhile]
    next => cases accepted

end Kache.Verify
