import Mathlib.Data.List.Basic

/-!
# ASCII bytes

The classes of bytes that Rust's `u8` has.
-/

namespace Kache.Ascii

abbrev newline : UInt8 := 10
abbrev quote : UInt8 := 34
abbrev hash : UInt8 := 35
abbrev percent : UInt8 := 37
abbrev apostrophe : UInt8 := 39
abbrev openParen : UInt8 := 40
abbrev closeParen : UInt8 := 41
abbrev star : UInt8 := 42
abbrev fullStop : UInt8 := 46
abbrev slash : UInt8 := 47
abbrev colon : UInt8 := 58
abbrev less : UInt8 := 60
abbrev greater : UInt8 := 62
abbrev backslash : UInt8 := 92
abbrev underscore : UInt8 := 95
abbrev openBrace : UInt8 := 123
abbrev closeBrace : UInt8 := 125

/-- `u8::is_ascii_whitespace`: blank, tab, newline, form feed, carriage return. -/
def isWhitespace (b : UInt8) : Bool := b = 32 ∨ b = 9 ∨ b = 10 ∨ b = 12 ∨ b = 13

/-- `u8::is_ascii_digit`. -/
def isDigit (b : UInt8) : Bool := 48 ≤ b ∧ b ≤ 57

theorem not_isWhitespace_of_isDigit {b : UInt8} (digit : isDigit b = true) :
    isWhitespace b = false := by
  refine decide_eq_false fun blank => ?_
  rcases blank with rfl | rfl | rfl | rfl | rfl <;> cases digit

/-- `u8::is_ascii_alphabetic`. -/
def isAlphabetic (b : UInt8) : Bool := (65 ≤ b ∧ b ≤ 90) ∨ (97 ≤ b ∧ b ≤ 122)

/-- `u8::is_ascii_alphanumeric`. -/
def isAlphanumeric (b : UInt8) : Bool := isAlphabetic b ∨ isDigit b

end Kache.Ascii
