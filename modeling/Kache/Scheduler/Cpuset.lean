import Kache.Foundation.Decimal
import Kache.Foundation.Lines
import Kache.Foundation.Ranges
import Kache.Foundation.Rows
import Kache.Foundation.StableSort
import Mathlib.Data.Prod.Lex

/-!
# The CPUs of a cpuset

A control group names the processors it may use as a list such as `0-3,7`.  The scheduler counts
them without building the set: it sorts the ranges and merges those that overlap.  `Lists` says what
a list means, and the count is the size of the union of its ranges (`parse_cpuset_cpus_counts`).
-/

namespace Kache.Scheduler

open Lines Ranges Text

/-! ## The code -/

/-- `str::trim`. -/
def trimmed (text : List Char) : List Char := trimEnd (text.dropWhile isWhitespace)

/-- The value of a word of digits that fits 32 bits. -/
def parseDigits (digits : List Char) : Option ℕ :=
  if digits = [] ∨ ¬ digits.all Char.isDigit then none
  else if digitsValue digits < 2 ^ 32 then some (digitsValue digits)
  else none

/-- `str::parse::<u32>`: digits, with at most one `+` before them. -/
def parseU32 (text : List Char) : Option ℕ :=
  parseDigits (if text.head? = some '+' then text.tail else text)

/-- `u64::checked_add`. -/
def checkedAdd (a b : ℕ) : Option ℕ := if a + b < 2 ^ 64 then some (a + b) else none

/-- The numbers of an item: of a range its two ends. -/
def parseBounds (item : List Char) : Option (ℕ × ℕ) :=
  match find ['-'] item with
  | some dash => do
      let first ← parseU32 (trimmed (item.take dash))
      let last ← parseU32 (trimmed (item.drop (dash + 1)))
      some (first, last)
  | none => do
      let cpu ← parseU32 item
      some (cpu, cpu)

/-- One item of the list. -/
def parseItem (item : List Char) : Option (ℕ × ℕ) :=
  if trimmed item = [] then none
  else do
    let (first, last) ← parseBounds (trimmed item)
    if last < first then none else some (first, last)

/-- The loop over the sorted ranges: the numbers counted, and the range still open. -/
def mergeRanges : List (ℕ × ℕ) → ℕ → Option (ℕ × ℕ) → Option (ℕ × Option (ℕ × ℕ))
  | [], count, merged => some (count, merged)
  | (start, stop) :: rest, count, none => mergeRanges rest count (some (start, stop))
  | (start, stop) :: rest, count, some (mergedStart, mergedEnd) =>
    if start ≤ mergedEnd then mergeRanges rest count (some (mergedStart, max mergedEnd stop))
    else do
      let count ← checkedAdd count (mergedEnd - mergedStart + 1)
      mergeRanges rest count (some (start, stop))

/-- `parse_cpuset_cpus`. -/
def parseCpusetCpus (text : List Char) : Option ℕ := do
  let ranges ← ((trimmed text).splitOn ',').mapM parseItem
  let (count, merged) ← mergeRanges (sortByKey toLex ranges) 0 none
  let count ←
    match merged with
    | some (start, stop) => checkedAdd count (stop - start + 1)
    | none => some count
  if count < 2 ^ 32 then some count else none

/-! ## What a list means -/

/-- A 32-bit number. -/
def IsNumber (text : List Char) (n : ℕ) : Prop :=
  ∃ digits, (text = digits ∨ text = '+' :: digits) ∧ digits ≠ [] ∧ Decimal.IsDigits digits ∧
    digitsValue digits = n ∧ n < 2 ^ 32

/-- An item is a number, or a range between two. -/
def Names (item : List Char) (first last : ℕ) : Prop :=
  (first = last ∧ IsNumber (trimmed item) first) ∨
    ∃ left right, trimmed item = left ++ '-' :: right ∧ IsNumber (trimmed left) first ∧
      IsNumber (trimmed right) last

/-- The comma-separated items. -/
def items (text : List Char) : List (List Char) := (trimmed text).splitOn ','

/-- A list of ranges that are not reversed. -/
def Lists (text : List Char) (ranges : List (ℕ × ℕ)) : Prop :=
  List.Forall₂ (fun item range => Names item range.1 range.2 ∧ range.1 ≤ range.2)
    (items text) ranges

/-! ## Items -/

variable {n : ℕ} {text item : List Char} {ranges : List (ℕ × ℕ)}

theorem parseDigits_eq_some {digits : List Char} :
    parseDigits digits = some n ↔
      digits ≠ [] ∧ Decimal.IsDigits digits ∧ digitsValue digits = n ∧ n < 2 ^ 32 := by
  rw [parseDigits, Decimal.IsDigits, ← List.all_eq_true]
  constructor
  · intro h
    split_ifs at h with bad small
    rw [not_or, not_not] at bad
    cases h
    exact ⟨bad.1, bad.2, rfl, small⟩
  · rintro ⟨nonempty, digit, rfl, small⟩
    rw [if_neg (by simp [nonempty, digit]), if_pos small]

theorem parseU32_eq_some : parseU32 text = some n ↔ IsNumber text n := by
  rw [parseU32]
  by_cases plus : text.head? = some '+'
  · obtain ⟨digits, rfl⟩ := List.head?_eq_some_iff.mp plus
    rw [if_pos plus, List.tail_cons, parseDigits_eq_some]
    refine ⟨fun h => ⟨digits, .inr rfl, h⟩, ?_⟩
    rintro ⟨digits', rfl | same, h⟩
    · -- a plus is not a digit
      exact absurd (h.2.1 '+' List.mem_cons_self) (by decide)
    · cases same
      exact h
  · rw [if_neg plus, parseDigits_eq_some]
    refine ⟨fun h => ⟨text, .inl rfl, h⟩, ?_⟩
    rintro ⟨digits', rfl | rfl, h⟩
    · exact h
    · exact absurd rfl plus

theorem IsNumber.dash_notMem (number : IsNumber text n) : '-' ∉ text := by
  obtain ⟨digits, shape, -, digit, -⟩ := number
  have free : '-' ∉ digits := fun mem => absurd (digit '-' mem) (by decide)
  rcases shape with rfl | rfl
  · exact free
  · rw [List.mem_cons, not_or]
    exact ⟨by decide, free⟩

theorem mem_dropWhile_whitespace {c : Char} (mem : c ∈ text) (visible : isWhitespace c = false) :
    c ∈ text.dropWhile isWhitespace := by
  rw [← List.takeWhile_append_dropWhile (p := isWhitespace) (l := text), List.mem_append] at mem
  refine mem.resolve_left fun blank => ?_
  have white := List.mem_takeWhile_imp blank
  rw [visible] at white
  cases white

/-- Only blanks are trimmed. -/
theorem mem_trimmed {c : Char} (mem : c ∈ text) (visible : isWhitespace c = false) :
    c ∈ trimmed text := by
  have front := mem_dropWhile_whitespace mem visible
  rw [trimmed, trimEnd, List.rdropWhile, List.mem_reverse]
  exact mem_dropWhile_whitespace (List.mem_reverse.mpr front) visible

/-- The numbers of an item, as it is written. -/
theorem parseBounds_eq_some {first last : ℕ} :
    parseBounds item = some (first, last) ↔ (first = last ∧ IsNumber item first) ∨
      ∃ left right, item = left ++ '-' :: right ∧ IsNumber (trimmed left) first ∧
        IsNumber (trimmed right) last := by
  have visible : isWhitespace '-' = false := by decide
  rcases find_singleton_cases '-' item with ⟨missing, free⟩ | ⟨left, right, rfl, free⟩
  · have single : parseBounds item = (parseU32 item).bind fun cpu => some (cpu, cpu) := by
      rw [parseBounds, missing]
      rfl
    rw [single, Option.bind_eq_some_iff]
    constructor
    · rintro ⟨cpu, parsed, same⟩
      cases same
      exact .inl ⟨rfl, parseU32_eq_some.mp parsed⟩
    · rintro (⟨rfl, number⟩ | ⟨left, right, rfl, -⟩)
      · exact ⟨first, parseU32_eq_some.mpr number, rfl⟩
      · exact absurd (List.mem_append_right _ List.mem_cons_self) free
  · have behind : (left ++ '-' :: right).drop (left.length + 1) = right := by
      rw [← List.drop_drop, List.drop_left]
      rfl
    have range : parseBounds (left ++ '-' :: right) = (parseU32 (trimmed left)).bind fun first =>
        (parseU32 (trimmed right)).bind fun last => some (first, last) := by
      rw [parseBounds, find_singleton_append free]
      show (parseU32 (trimmed ((left ++ '-' :: right).take left.length))).bind (fun first =>
        (parseU32 (trimmed ((left ++ '-' :: right).drop (left.length + 1)))).bind _) = _
      rw [List.take_left, behind]
    rw [range, Option.bind_eq_some_iff]
    constructor
    · rintro ⟨a, parsed, rest⟩
      obtain ⟨b, parsed', same⟩ := Option.bind_eq_some_iff.mp rest
      cases same
      exact .inr ⟨left, right, rfl, parseU32_eq_some.mp parsed, parseU32_eq_some.mp parsed'⟩
    · rintro (⟨rfl, number⟩ | ⟨left', right', split, number, number'⟩)
      · exact absurd (List.mem_append_right _ List.mem_cons_self) number.dash_notMem
      · -- neither number has a dash, so this is the first one
        have free' : '-' ∉ left' := fun mem => number.dash_notMem (mem_trimmed mem visible)
        have same := (find_singleton_append free right).symm.trans
          ((congrArg (find ['-']) split).trans (find_singleton_append free' right'))
        obtain ⟨rfl, tail⟩ := List.append_inj split (Option.some.inj same)
        obtain rfl := (List.cons.inj tail).2
        exact ⟨first, parseU32_eq_some.mpr number, Option.bind_eq_some_iff.mpr
          ⟨last, parseU32_eq_some.mpr number', rfl⟩⟩

theorem not_isNumber_nil : ¬ IsNumber [] n := by
  rintro ⟨digits, rfl | no, nonempty, -⟩
  · exact nonempty rfl
  · cases no

/-- An item is accepted if it names a range that is not reversed. -/
theorem parseItem_eq_some {range : ℕ × ℕ} :
    parseItem item = some range ↔ Names item range.1 range.2 ∧ range.1 ≤ range.2 := by
  obtain ⟨first, last⟩ := range
  rw [Names, ← parseBounds_eq_some, parseItem]
  split_ifs with empty
  · refine iff_of_false (fun no => (nomatch no)) fun h => ?_
    rw [empty] at h
    rcases parseBounds_eq_some.mp h.1 with ⟨-, number⟩ | ⟨left, right, split, -⟩
    · exact not_isNumber_nil number
    · simp at split
  · constructor
    · intro h
      obtain ⟨⟨a, b⟩, parsed, rest⟩ := Option.bind_eq_some_iff.mp h
      have rest : (if b < a then none else some (a, b)) = some (first, last) := rest
      split_ifs at rest with reversed
      cases rest
      exact ⟨parsed, not_lt.mp reversed⟩
    · rintro ⟨parsed, ordered⟩
      exact Option.bind_eq_some_iff.mpr ⟨_, parsed, if_neg (not_lt.mpr ordered)⟩

/-! ## Counting -/

/-- The loop merges sorted ranges of 32-bit numbers, and its sums fit 64 bits. -/
theorem mergeRanges_merged {seen : Finset ℕ} {count start stop : ℕ}
    (merged : Merged seen count start stop)
    (bounded : seen ⊆ Finset.range (2 ^ 32)) (sorted : ranges.Pairwise fun r r' => r.1 ≤ r'.1)
    (after : ∀ r ∈ ranges, start ≤ r.1) (valid : ∀ r ∈ ranges, r.1 ≤ r.2 ∧ r.2 < 2 ^ 32) :
    ∃ count' start' stop',
      mergeRanges ranges count (some (start, stop)) = some (count', some (start', stop')) ∧
        Merged (seen ∪ covered ranges) count' start' stop' := by
  induction ranges generalizing seen count start stop with
  | nil => exact ⟨count, start, stop, rfl, by rwa [covered_nil, Finset.union_empty]⟩
  | cons range rest ih =>
    obtain ⟨a, b⟩ := range
    obtain ⟨ordered, small⟩ := valid (a, b) List.mem_cons_self
    obtain ⟨later, sorted⟩ := List.pairwise_cons.mp sorted
    have validRest := fun r mem => valid r (List.mem_cons_of_mem _ mem)
    have more : seen ∪ Finset.Icc a b ⊆ Finset.range (2 ^ 32) := by
      refine Finset.union_subset bounded fun n mem => ?_
      exact Finset.mem_range.mpr ((Finset.mem_Icc.mp mem).2.trans_lt small)
    rw [covered_cons, ← Finset.union_assoc, mergeRanges]
    split_ifs with inside
    · have extended := merged.extend (b := b) (after (a, b) List.mem_cons_self) inside
      exact ih extended more sorted (fun r mem => after r (List.mem_cons_of_mem _ mem)) validRest
    · have size : count + (stop - start + 1) ≤ 2 ^ 32 := by
        rw [← merged.card, ← Finset.card_range (2 ^ 32)]
        exact Finset.card_le_card bounded
      have added : checkedAdd count (stop - start + 1) = some (count + (stop - start + 1)) :=
        if_pos (by omega)
      rw [added]
      exact ih (merged.next (not_le.mp inside) ordered) more sorted later validRest

theorem mapM_parseItem_eq_some :
    (items text).mapM parseItem = some ranges ↔ Lists text ranges := by
  simp only [mapM_eq_some_iff, parseItem_eq_some]
  rfl

theorem Names.last_lt {first last : ℕ} (names : Names item first last) :
    last < 2 ^ 32 := by
  rcases names with ⟨rfl, ⟨digits, -, -, -, -, small⟩⟩ | ⟨-, -, -, -, ⟨digits, -, -, -, -, small⟩⟩
  · exact small
  · exact small

/-- What is returned for a list of ranges. -/
theorem parseCpusetCpus_of_lists (lists : Lists text ranges) :
    parseCpusetCpus text
      = if (covered ranges).card < 2 ^ 32 then some (covered ranges).card else none := by
  have parsed := mapM_parseItem_eq_some.mpr lists
  have perm := sortByKey_perm toLex ranges
  have valid : ∀ r ∈ sortByKey toLex ranges, r.1 ≤ r.2 ∧ r.2 < 2 ^ 32 := by
    intro r mem
    obtain ⟨item, -, found⟩ := (mem_mapM parsed).mp (perm.mem_iff.mp mem)
    obtain ⟨names, ordered⟩ := parseItem_eq_some.mp found
    exact ⟨ordered, names.last_lt⟩
  have sorted : (sortByKey toLex ranges).Pairwise fun r r' => r.1 ≤ r'.1 := by
    refine (pairwise_sortByKey toLex ranges).imp fun {r r'} le => ?_
    rcases Prod.Lex.toLex_le_toLex.mp le with less | ⟨same, -⟩
    · exact less.le
    · exact same.le
  rw [← covered_eq_of_perm perm]
  show ((items text).mapM parseItem).bind _ = _
  rw [parsed, Option.bind_some]
  show (mergeRanges (sortByKey toLex ranges) 0 none).bind _ = _
  cases list : sortByKey toLex ranges with
  | nil => rfl
  | cons range rest =>
    obtain ⟨a, b⟩ := range
    rw [list] at valid sorted
    obtain ⟨⟨ordered, small⟩, validRest⟩ := List.forall_mem_cons.mp valid
    obtain ⟨after, sortedRest⟩ := List.pairwise_cons.mp sorted
    have below : Finset.Icc a b ⊆ Finset.range (2 ^ 32) := fun n mem =>
      Finset.mem_range.mpr ((Finset.mem_Icc.mp mem).2.trans_lt small)
    obtain ⟨count, start, stop, done, merged⟩ :=
      mergeRanges_merged (Merged.single ordered) below sortedRest after validRest
    rw [← covered_cons (a, b) rest] at merged
    have size : (covered ((a, b) :: rest)).card ≤ 2 ^ 32 := by
      rw [← Finset.card_range (2 ^ 32)]
      exact Finset.card_le_card (covered_subset_range fun r mem => (valid r mem).2)
    have added : checkedAdd count (stop - start + 1) = some (count + (stop - start + 1)) :=
      if_pos (by rw [← merged.card]; omega)
    have first : mergeRanges ((a, b) :: rest) 0 none = mergeRanges rest 0 (some (a, b)) := rfl
    rw [first, done, Option.bind_some]
    show (checkedAdd count (stop - start + 1)).bind _ = _
    rw [added, Option.bind_some, merged.card]

/-- An item is refused if it is empty, names nothing, or is reversed. -/
theorem parseItem_eq_none :
    parseItem item = none ↔ trimmed item = [] ∨ (¬ ∃ first last, Names item first last) ∨
      ∃ first last, Names item first last ∧ last < first := by
  constructor
  · intro refused
    by_cases named : ∃ first last, Names item first last
    · obtain ⟨first, last, names⟩ := named
      refine .inr (.inr ⟨first, last, names, not_le.mp fun ordered => ?_⟩)
      have accepted : parseItem item = some (first, last) := parseItem_eq_some.mpr ⟨names, ordered⟩
      rw [accepted] at refused
      cases refused
    · exact .inr (.inl named)
  · rintro (empty | unnamed | ⟨first, last, names, reversed⟩)
    · exact if_pos empty
    · refine Option.eq_none_iff_forall_ne_some.mpr fun range accepted => unnamed ?_
      exact ⟨range.1, range.2, (parseItem_eq_some.mp accepted).1⟩
    · refine Option.eq_none_iff_forall_ne_some.mpr fun range accepted => ?_
      obtain ⟨names', ordered⟩ := parseItem_eq_some.mp accepted
      have same := (parseBounds_eq_some.mpr names).symm.trans (parseBounds_eq_some.mpr names')
      cases range
      cases same
      exact absurd ordered (not_le.mpr reversed)

theorem parseCpusetCpus_of_refused (refused : (items text).mapM parseItem = none) :
    parseCpusetCpus text = none := by
  show ((items text).mapM parseItem).bind _ = _
  rw [refused]
  rfl

/-- **The CPUs of a list are counted.**  The count is that of the union of its numbers and ranges,
and there is none exactly if an item is empty, is neither a number nor a range, or is a reversed
range, or if the count does not fit 32 bits. -/
theorem parse_cpuset_cpus_counts (text : List Char) :
    (∀ n, parseCpusetCpus text = some n ↔
      ∃ ranges, Lists text ranges ∧ (covered ranges).card = n ∧ n < 2 ^ 32) ∧
    (parseCpusetCpus text = none ↔
      (∃ item ∈ items text, trimmed item = [] ∨ (¬ ∃ first last, Names item first last) ∨
        ∃ first last, Names item first last ∧ last < first) ∨
      ∃ ranges, Lists text ranges ∧ 2 ^ 32 ≤ (covered ranges).card) := by
  simp only [← parseItem_eq_none, ← mapM_eq_none_iff]
  cases parsed : (items text).mapM parseItem with
  | none =>
    have none_lists : ∀ ranges, ¬ Lists text ranges := by
      intro ranges lists
      rw [mapM_parseItem_eq_some.mpr lists] at parsed
      cases parsed
    have result := parseCpusetCpus_of_refused parsed
    refine ⟨fun n => iff_of_false ?_ ?_, iff_of_true result (.inl rfl)⟩
    · rw [result]
      exact fun no => (nomatch no)
    · rintro ⟨ranges, lists, -⟩
      exact none_lists ranges lists
  | some ranges =>
    have lists := mapM_parseItem_eq_some.mp parsed
    have only : ∀ ranges', Lists text ranges' → ranges' = ranges := by
      intro ranges' lists'
      have same := (mapM_parseItem_eq_some.mpr lists').symm.trans parsed
      exact Option.some.inj same
    rw [parseCpusetCpus_of_lists lists]
    constructor
    · intro n
      constructor
      · intro h
        split_ifs at h with small
        cases h
        exact ⟨ranges, lists, rfl, small⟩
      · rintro ⟨ranges', lists', rfl, small⟩
        rw [only ranges' lists'] at small ⊢
        exact if_pos small
    · constructor
      · intro h
        split_ifs at h with small
        exact .inr ⟨ranges, lists, not_lt.mp small⟩
      · rintro (no | ⟨ranges', lists', large⟩)
        · cases no
        · rw [only ranges' lists'] at large
          exact if_neg (not_lt.mpr large)

end Kache.Scheduler
