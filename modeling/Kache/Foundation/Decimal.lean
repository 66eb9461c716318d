import Kache.Foundation.Text
import Mathlib.Data.String.Basic
import Mathlib.Tactic.Linarith
import Mathlib.Tactic.Ring

/-!
# Decimal numbers of fixed width

A number written with leading zeros (`padded`).  Among words of one length the digits can be
read back, and the order of the words is the order of the numbers.
-/

namespace Kache.Decimal

open Text

/-- A word of ASCII digits. -/
def IsDigits (word : List Char) : Prop := ∀ c ∈ word, c.isDigit = true

/-- `{n:0width}`. -/
def padded (width n : ℕ) : List Char := (Nat.toDigits 10 n).leftpad width '0'

/-- The value of a digit. -/
def digit (c : Char) : ℕ := c.toNat - '0'.toNat

theorem isDigit_bounds {c : Char} (h : c.isDigit = true) : 48 ≤ c.toNat ∧ c.toNat ≤ 57 := by
  rw [Char.isDigit, Bool.and_eq_true, decide_eq_true_eq, decide_eq_true_eq] at h
  exact ⟨UInt32.le_iff_toNat_le.mp h.1, UInt32.le_iff_toNat_le.mp h.2⟩

theorem digit_lt {c : Char} (h : c.isDigit = true) : digit c < 10 := by
  have bounds := isDigit_bounds h
  have zero : '0'.toNat = 48 := rfl
  unfold digit
  omega

theorem digit_lt_iff {c d : Char} (hc : c.isDigit = true) (hd : d.isDigit = true) :
    digit c < digit d ↔ c < d := by
  have bounds := isDigit_bounds hc
  have bounds' := isDigit_bounds hd
  have zero : '0'.toNat = 48 := rfl
  have order : c < d ↔ c.toNat < d.toNat := UInt32.lt_iff_toNat_lt
  rw [order]
  unfold digit
  omega

theorem digit_injective {c d : Char} (hc : c.isDigit = true) (hd : d.isDigit = true)
    (same : digit c = digit d) : c = d := by
  have bounds := isDigit_bounds hc
  have bounds' := isDigit_bounds hd
  have zero : '0'.toNat = 48 := rfl
  unfold digit at same
  exact Char.toNat_inj.mp (by omega)

/-! ## Values -/

theorem digitsValue_append (a b : List Char) :
    digitsValue (a ++ b) = digitsValue a * 10 ^ b.length + digitsValue b := by
  induction b using List.reverseRecOn with
  | nil => simp [digitsValue]
  | append_singleton b c ih =>
    have last : ∀ word : List Char,
        digitsValue (word ++ [c]) = 10 * digitsValue word + digit c := by
      intro word
      simp [digitsValue, digit]
    rw [← List.append_assoc, last, ih, last, List.length_append, List.length_singleton, pow_succ]
    ring

theorem digitsValue_cons (c : Char) (word : List Char) :
    digitsValue (c :: word) = digit c * 10 ^ word.length + digitsValue word := by
  have split := digitsValue_append [c] word
  have one : digitsValue [c] = digit c := by simp [digitsValue, digit]
  rwa [List.singleton_append, one] at split

theorem digitsValue_lt {word : List Char} (digits : IsDigits word) :
    digitsValue word < 10 ^ word.length := by
  induction word with
  | nil => simp [digitsValue]
  | cons c rest ih =>
    obtain ⟨here, others⟩ := List.forall_mem_cons.mp digits
    have small := ih others
    have first := digit_lt here
    rw [digitsValue_cons, List.length_cons, pow_succ]
    nlinarith

/-- **The order of words is the order of numbers**, for words of one length. -/
theorem digitsValue_lt_iff {a b : List Char} (da : IsDigits a) (db : IsDigits b)
    (length : a.length = b.length) : digitsValue a < digitsValue b ↔ a < b := by
  induction a generalizing b with
  | nil =>
    cases b with
    | nil => exact iff_of_false (Nat.lt_irrefl _) (List.not_lt_nil _)
    | cons d rest => cases length
  | cons c rest ih =>
    cases b with
    | nil => cases length
    | cons d rest' =>
      obtain ⟨hc, others⟩ := List.forall_mem_cons.mp da
      obtain ⟨hd, others'⟩ := List.forall_mem_cons.mp db
      have length : rest.length = rest'.length := Nat.succ.inj length
      have small := digitsValue_lt others
      have small' := digitsValue_lt others'
      rw [← length] at small'
      rw [digitsValue_cons, digitsValue_cons, ← length, List.cons_lt_cons_iff, ← digit_lt_iff hc hd]
      -- the first digit that differs decides
      rcases lt_trichotomy (digit c) (digit d) with less | same | more
      · refine iff_of_true ?_ (.inl less)
        nlinarith
      · rw [same, ← ih others others' length]
        have equal := digit_injective hc hd same
        simp [equal]
      · refine iff_of_false ?_ ?_
        · nlinarith
        · rintro (less | ⟨rfl, -⟩)
          · omega
          · omega

theorem digitsValue_injective {a b : List Char} (da : IsDigits a) (db : IsDigits b)
    (length : a.length = b.length) (same : digitsValue a = digitsValue b) : a = b := by
  rcases lt_trichotomy a b with less | equal | more
  · exact absurd ((digitsValue_lt_iff da db length).mpr less) (by omega)
  · exact equal
  · exact absurd ((digitsValue_lt_iff db da length.symm).mpr more) (by omega)

/-! ## Padded numbers -/

theorem isDigits_padded (width n : ℕ) : IsDigits (padded width n) := by
  intro c mem
  rw [padded, List.leftpad] at mem
  rcases List.mem_append.mp mem with zero | digit
  · rw [List.eq_of_mem_replicate zero]
    rfl
  · exact Nat.isDigit_of_mem_toDigits (by decide) (by decide) digit

theorem digitsValue_padded (width n : ℕ) : digitsValue (padded width n) = n := by
  have zeros : ∀ k, digitsValue (List.replicate k '0') = 0 := by
    intro k
    induction k with
    | zero => rfl
    | succ k ih =>
      rw [List.replicate_succ, digitsValue_cons, ih]
      simp [digit]
  have digits : digitsValue (Nat.toDigits 10 n) = n := by
    have value := Nat.ofDigitChars_ten_toDigits (n := n)
    rw [Nat.ofDigitChars_eq_foldl] at value
    exact value
  rw [padded, List.leftpad, digitsValue_append, zeros, digits, Nat.zero_mul, Nat.zero_add]

theorem length_padded {width n : ℕ} (positive : 0 < width) (fits : n < 10 ^ width) :
    (padded width n).length = width := by
  have short := (Nat.length_toDigits_le_iff (b := 10) (by decide) positive).mpr fits
  rw [padded, List.length_leftpad]
  omega

/-- Reading a word of digits and writing it again. -/
theorem padded_digitsValue {word : List Char} (digits : IsDigits word)
    (nonempty : 0 < word.length) : padded word.length (digitsValue word) = word := by
  refine digitsValue_injective (isDigits_padded _ _) digits ?_ (digitsValue_padded _ _)
  exact length_padded nonempty (digitsValue_lt digits)

end Kache.Decimal
