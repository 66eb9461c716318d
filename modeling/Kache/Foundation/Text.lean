import Mathlib.Algebra.Group.Nat.Defs
import Mathlib.Data.List.DropRight

/-!
# Text

Strings as sequences of characters and of bytes, with the notion of white space that
Rust's `str` has.
-/

namespace Kache.Text

/-- `char::is_whitespace`. -/
def isWhitespace (c : Char) : Bool :=
  let n := c.toNat
  (9 ≤ n ∧ n ≤ 13) ∨ n = 0x20 ∨ n = 0x85 ∨ n = 0xA0 ∨ n = 0x1680 ∨ (0x2000 ≤ n ∧ n ≤ 0x200A) ∨
    n = 0x2028 ∨ n = 0x2029 ∨ n = 0x202F ∨ n = 0x205F ∨ n = 0x3000

/-- `str::trim_end`. -/
def trimEnd (text : List Char) : List Char := text.rdropWhile isWhitespace

/-- `str::from_utf8`, the characters of the bytes if they are UTF-8. -/
def fromUtf8 (bytes : List UInt8) : Option (List Char) :=
  (ByteArray.utf8Decode? ⟨bytes.toArray⟩).map Array.toList

/-- The value of a string of decimal digits. -/
def digitsValue (digits : List Char) : ℕ :=
  digits.foldl (fun value c => 10 * value + (c.toNat - '0'.toNat)) 0

/-- `str::parse::<usize>` of a string of digits. -/
def parseUsize (digits : List Char) : Option ℕ :=
  if digitsValue digits < 2 ^ 64 then some (digitsValue digits) else none

theorem parseUsize_lt {digits : List Char} {n : ℕ} (h : parseUsize digits = some n) :
    n < 2 ^ 64 := by
  unfold parseUsize at h
  split at h
  · next small => exact Option.some.inj h ▸ small
  · cases h

end Kache.Text
