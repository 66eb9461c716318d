import Kache.Foundation.Ascii
import Kache.Foundation.Lines
import Kache.Foundation.PathBuf
import Kache.Foundation.Positions

/-!
# The words of a Rust source

`rust_tokens` reads identifiers, string literals and a few punctuation bytes from a Rust source and
passes over everything else.  All of its readers only look ahead, so each is given as a function of
what stands from its position on, and says how many bytes it consumes.

A Rust `String` is represented by its UTF-8 bytes.
-/

namespace Kache.Rustdoc

open Ascii Lines Positions
open UnixPath (toStringLossy)

/-- `Tok`. -/
inductive Tok where
  | ident (name : OsStr)
  | str (text : OsStr)
  | punct (byte : UInt8)
  deriving DecidableEq, Repr

/-- `non_ascii_rust_whitespace_len`. -/
def nonAsciiRustWhitespaceLen (text : OsStr) : ℕ :=
  if [0xC2, 0x85] <+: text then 2
  else if [0xE2, 0x80, 0x8E] <+: text ∨ [0xE2, 0x80, 0x8F] <+: text ∨ [0xE2, 0x80, 0xA8] <+: text ∨
      [0xE2, 0x80, 0xA9] <+: text then 3
  else if [0xEF, 0xBB, 0xBF] <+: text then 3
  else 0

/-- `is_ident_start`. -/
def isIdentStart (byte : UInt8) : Bool := isAlphabetic byte || byte = underscore || 128 ≤ byte

/-- `is_ident_continue`. -/
def isIdentContinue (byte : UInt8) : Bool := isIdentStart byte || isDigit byte

/-- `skip_ident_bytes`. -/
def skipIdentBytes : OsStr → ℕ
  | [] => 0
  | byte :: rest =>
    if !isIdentContinue byte || 0 < nonAsciiRustWhitespaceLen (byte :: rest) then 0
    else skipIdentBytes rest + 1

/-- `skip_block_comment`, so many comments deep. -/
def skipBlockComment : ℕ → OsStr → ℕ
  | depth, a :: b :: rest =>
    if a = slash ∧ b = star then skipBlockComment (depth + 1) rest + 2
    else if a = star ∧ b = slash then
      if depth - 1 = 0 then 2 else skipBlockComment (depth - 1) rest + 2
    else skipBlockComment depth (b :: rest) + 1
  | _, rest => rest.length

/-- Where the escape behind the apostrophe and the backslash ends in `skip_char_or_lifetime`. -/
def charEscapeEnd (text : OsStr) : ℕ :=
  if text[2]? = some 117 then
    if text[3]? = some openBrace then
      3 + match (text.drop 3).findIdx? (· = closeBrace) with
        | some offset => offset + 1
        | none => (text.drop 3).length
    else 3
  else if text[2]? = some 120 then 5
  else 3

/-- The bytes of the character with the given first byte, if there are several. -/
def charWidth (first : UInt8) : Option ℕ :=
  if 0xC2 ≤ first ∧ first ≤ 0xDF then some 2
  else if 0xE0 ≤ first ∧ first ≤ 0xEF then some 3
  else if 0xF0 ≤ first ∧ first ≤ 0xF4 then some 4
  else none

/-- `skip_char_or_lifetime`, from the apostrophe on. -/
def skipCharOrLifetime (text : OsStr) : ℕ :=
  if text[1]? = some backslash then
    if text[charEscapeEnd text]? = some apostrophe then charEscapeEnd text + 1 else 1
  else if text[2]? = some apostrophe then 3
  else
    match text[1]?.bind charWidth with
    | some width => if text[width + 1]? = some apostrophe then width + 2 else 1
    | none => 1

/-- `byte as char`, pushed to a `String`. -/
def asChar (byte : UInt8) : OsStr := String.utf8EncodeChar (Char.ofUInt8 byte)

/-- The byte an escape stands for in `cooked_string`. -/
def unescaped (escaped : UInt8) : UInt8 :=
  if escaped = 110 then 10
  else if escaped = 114 then 13
  else if escaped = 116 then 9
  else if escaped = 48 then 0
  else escaped

/-- `cooked_string`, behind the quote. -/
def cookedString : OsStr → OsStr × ℕ
  | [] => ([], 0)
  | [byte] => if byte = quote then ([], 1) else if byte = backslash then ([], 1) else
      (asChar byte, 1)
  | byte :: next :: rest =>
    if byte = quote then ([], 1)
    else if byte = backslash then
      (asChar (unescaped next) ++ (cookedString rest).1, (cookedString rest).2 + 2)
    else (asChar byte ++ (cookedString (next :: rest)).1, (cookedString (next :: rest)).2 + 1)

/-- `raw_string` behind its hashes. -/
def rawBody (hashes : ℕ) : OsStr → Option (OsStr × ℕ)
  | [] => none
  | opening :: body =>
    if opening = quote then
      (find (quote :: List.replicate hashes hash) body).map fun offset =>
        (toStringLossy (body.take offset), hashes + 1 + offset + 1 + hashes)
    else none

/-- `raw_string`, behind the `r`. -/
def rawString (text : OsStr) : Option (OsStr × ℕ) :=
  rawBody (text.takeWhile (· = hash)).length (text.drop (text.takeWhile (· = hash)).length)

/-- `skip_prefixed_literal`, from the letter on. -/
def skipPrefixedLiteral (text : OsStr) : ℕ :=
  if text[1]? = some apostrophe then skipCharOrLifetime (text.drop 1) + 1
  else if text[1]? = some quote then (cookedString (text.drop 2)).2 + 2
  else if text[1]? = some 114 then
    match rawString (text.drop 2) with
    | some (_, consumed) => consumed + 2
    | none => 1
  else 1

/-- The punctuation that is kept. -/
def keptPunct : List UInt8 := [40, 41, 123, 125, 91, 93, 59, 44, 61, 35, 33]

/-- One turn of the loop of `rust_tokens`: what it keeps, and how far it gets. -/
def rustToken (cStrings : Bool) (byte : UInt8) (rest : OsStr) : Option Tok × ℕ :=
  if 0 < nonAsciiRustWhitespaceLen (byte :: rest) then
    (none, nonAsciiRustWhitespaceLen (byte :: rest))
  else if byte = slash ∧ rest.head? = some slash then
    (none, 2 + (rest.tail.takeWhile (· ≠ newline)).length)
  else if byte = slash ∧ rest.head? = some star then (none, skipBlockComment 1 rest.tail + 2)
  else if isDigit byte then (none, skipIdentBytes (byte :: rest))
  else if (byte = 98 ∨ cStrings ∧ byte = 99) ∧
      (rest.head? = some quote ∨ rest.head? = some 114 ∨ rest.head? = some apostrophe) then
    (none, skipPrefixedLiteral (byte :: rest))
  else if byte = apostrophe then (none, skipCharOrLifetime (byte :: rest))
  else if byte = quote then (some (.str (cookedString rest).1), (cookedString rest).2 + 1)
  else if byte = 114 ∧ (rawString rest).isSome then
    ((rawString rest).map fun read => .str read.1, (rawString rest).elim 1 fun read => read.2 + 1)
  else if isIdentStart byte then
    (some (.ident (toStringLossy ((byte :: rest).take (skipIdentBytes (byte :: rest))))),
      skipIdentBytes (byte :: rest))
  else if byte ∈ keptPunct then (some (.punct byte), 1)
  else (none, 1)

/-- `rust_tokens`. -/
def rustTokens (bytes : OsStr) (cStrings : Bool) : List Tok :=
  (pieces (rustToken cStrings) bytes).reduceOption

end Kache.Rustdoc
