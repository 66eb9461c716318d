import Kache.Foundation.Checked
import Kache.Foundation.Framing

/-!
# Machine words in byte strings

Fields of fixed width at known offsets, in either byte order, and byte strings cut into
chunks of one size.  What is read at an offset is a function of the bytes there
(`u32At_of`, `getU32_eq_some`), so a file format is described by its fields and the
readers never have to be unfolded.
-/

namespace Kache

universe u

variable {α : Type u}

/-! ## Chunks -/

/-- `as_chunks::<N>().0`: the whole chunks of `n` items. -/
def asChunks (n : ℕ) (xs : List α) : List (List α) :=
  (List.range (xs.length / n)).map fun i => Checked.window xs (i * n) n

theorem length_asChunks (n : ℕ) (xs : List α) : (asChunks n xs).length = xs.length / n := by
  rw [asChunks, List.length_map, List.length_range]

variable {i length start offset : ℕ} {xs : List α} {bytes : List UInt8}

theorem getElem?_asChunks {n : ℕ} (inside : i < xs.length / n) :
    (asChunks n xs)[i]? = some (Checked.window xs (i * n) n) := by
  rw [asChunks, List.getElem?_map, List.getElem?_range inside]
  rfl

theorem chunk_inside {n : ℕ} (inside : i < length / n) : i * n + n ≤ length := by
  have whole := Nat.div_mul_le_self length n
  have step : (i + 1) * n ≤ length / n * n := Nat.mul_le_mul_right n inside
  rw [Nat.add_mul, Nat.one_mul] at step
  exact step.trans whole

theorem length_of_mem_asChunks {n : ℕ} {chunk : List α} (mem : chunk ∈ asChunks n xs) :
    chunk.length = n := by
  obtain ⟨i, inside, rfl⟩ := List.mem_map.mp mem
  exact Checked.length_window (chunk_inside (List.mem_range.mp inside))

/-- What stands between two known parts. -/
theorem window_append {front middle back : List α} (hstart : front.length = start)
    (hlength : middle.length = length) :
    Checked.window (front ++ middle ++ back) start length = middle := by
  subst hstart hlength
  rw [Checked.window, List.append_assoc, List.drop_left, List.take_left]

section Encoded

variable {β : Type*} {enc : β → List α} {n : ℕ}

theorem length_flatMap_of (size : ∀ x, (enc x).length = n) (l : List β) :
    (l.flatMap enc).length = n * l.length := by
  induction l with
  | nil => rfl
  | cons x l ih =>
    rw [List.flatMap_cons, List.length_append, size, ih, List.length_cons, Nat.mul_succ,
      Nat.add_comm]

/-- A sequence of code words around one of them. -/
theorem flatMap_split (enc : β → List α) {l : List β} {x : β} (found : l[i]? = some x) :
    l.flatMap enc = (l.take i).flatMap enc ++ enc x ++ (l.drop (i + 1)).flatMap enc := by
  obtain ⟨inside, rfl⟩ := List.getElem?_eq_some_iff.mp found
  rw [List.append_assoc, ← List.flatMap_cons, ← List.drop_eq_getElem_cons inside,
    ← List.flatMap_append, List.take_append_drop]

/-- The item at an index of a sequence of items of one size. -/
theorem window_flatMap (size : ∀ x, (enc x).length = n) {l : List β} {x : β}
    (found : l[i]? = some x) : Checked.window (l.flatMap enc) (n * i) n = enc x := by
  have inside := (List.getElem?_eq_some_iff.mp found).1
  rw [flatMap_split enc found]
  refine window_append ?_ (size x)
  rw [length_flatMap_of size, List.length_take_of_le (le_of_lt inside)]

/-- A sequence of items of one size, cut into its items. -/
theorem asChunks_flatMap (size : ∀ x, (enc x).length = n) (positive : 0 < n) (l : List β) :
    asChunks n (l.flatMap enc) = l.map enc := by
  have count : (asChunks n (l.flatMap enc)).length = l.length := by
    rw [length_asChunks, length_flatMap_of size, Nat.mul_div_cancel_left _ positive]
  refine List.ext_getElem? fun i => ?_
  rcases Nat.lt_or_ge i l.length with inside | outside
  · have found := List.getElem?_eq_getElem inside
    rw [getElem?_asChunks (by rwa [← length_asChunks, count]), List.getElem?_map,
      found, Nat.mul_comm, window_flatMap size found]
    rfl
  · rw [List.getElem?_eq_none (by omega),
      List.getElem?_eq_none (by rw [List.length_map]; exact outside)]

end Encoded

/-! ## Arithmetic of words -/

/-- `a.div_ceil(b)`. -/
def divCeil (a b : ℕ) : ℕ := if 0 < a % b then a / b + 1 else a / b

/-- `divCeil` chunks of `b` are enough, and one less is not. -/
theorem le_divCeil_mul (a : ℕ) {b : ℕ} (positive : 0 < b) : a ≤ divCeil a b * b := by
  have split := Nat.div_add_mod a b
  have rest := Nat.mod_lt a positive
  rw [Nat.mul_comm] at split
  unfold divCeil
  split
  · rw [Nat.add_mul, Nat.one_mul]
    omega
  · omega

theorem divCeil_le (a b : ℕ) : divCeil a b ≤ a + 1 := by
  have quotient := Nat.div_le_self a b
  unfold divCeil
  split
  · omega
  · omega

/-- `n.count_ones()` of a word of `bits` bits. -/
def countOnes (bits n : ℕ) : ℕ := (List.range bits).countP n.testBit

theorem countOnes_le (bits n : ℕ) : countOnes bits n ≤ bits := by
  have bound := List.countP_le_length (p := n.testBit) (l := List.range bits)
  rwa [List.length_range] at bound

/-- `n.leading_zeros()` of a word of `bits` bits. -/
def leadingZeros (bits n : ℕ) : ℕ :=
  ((List.range bits).reverse.takeWhile fun i => !n.testBit i).length

theorem leadingZeros_le (bits n : ℕ) : leadingZeros bits n ≤ bits := by
  have bound :=
      (List.takeWhile_sublist (l := (List.range bits).reverse) fun i => !n.testBit i).length_le
  rwa [List.length_reverse, List.length_range] at bound

/-- `n.is_power_of_two()`. -/
def isPowerOfTwo (bits n : ℕ) : Bool := countOnes bits n == 1

/-! ## Little-endian words, read by index -/

open Checked

variable {ε : Type}

/-- `u32::from_le_bytes` of four bytes. -/
def u32FromLeBytes (bytes : List UInt8) : UInt32 := UInt32.ofNat (leValue bytes)

/-- The 16-bit word at an offset. -/
def word16 (bytes : List UInt8) (offset : ℕ) : UInt16 :=
  UInt16.ofNat (leValue (window bytes offset 2))

/-- The 32-bit word at an offset. -/
def word32 (bytes : List UInt8) (offset : ℕ) : UInt32 := u32FromLeBytes (window bytes offset 4)

/-- `u16::from_le_bytes([bytes[at], bytes[at + 1]])`. -/
def u16At (bytes : List UInt8) (offset : ℕ) : Checked ε UInt16 := do
  let first ← index bytes offset
  let second ← index bytes (← word 64 (offset + 1))
  pure (UInt16.ofNat (leValue [first, second]))

/-- `u32::from_le_bytes([bytes[at], ..])`. -/
def u32At (bytes : List UInt8) (offset : ℕ) : Checked ε UInt32 := do
  let first ← index bytes offset
  let second ← index bytes (← word 64 (offset + 1))
  let third ← index bytes (← word 64 (offset + 2))
  let fourth ← index bytes (← word 64 (offset + 3))
  pure (u32FromLeBytes [first, second, third, fourth])

/-- A window of known length, item by item. -/
theorem window_succ {x : α} (found : xs[start]? = some x) :
    window xs start (length + 1) = x :: window xs (start + 1) length := by
  obtain ⟨inside, rfl⟩ := List.getElem?_eq_some_iff.mp found
  rw [window, window, List.drop_eq_getElem_cons inside, List.take_succ_cons]

theorem u16At_of (inside : offset + 2 ≤ bytes.length) (small : offset + 2 < 2 ^ 64) :
    (u16At bytes offset : Checked ε UInt16) = .ok (word16 bytes offset) := by
  have first := List.getElem?_eq_getElem (show offset < bytes.length by omega)
  have second := List.getElem?_eq_getElem (show offset + 1 < bytes.length by omega)
  have all : window bytes offset 2 = [bytes[offset], bytes[offset + 1]] := by
    rw [window_succ first, window_succ second]
    rfl
  rw [u16At, word16, all, index_of first, word_of (by omega)]
  show (index bytes (offset + 1) >>= _) = _
  rw [index_of second]
  rfl

theorem u32At_of (inside : offset + 4 ≤ bytes.length) (small : offset + 4 < 2 ^ 64) :
    (u32At bytes offset : Checked ε UInt32) = .ok (word32 bytes offset) := by
  have first := List.getElem?_eq_getElem (show offset < bytes.length by omega)
  have second := List.getElem?_eq_getElem (show offset + 1 < bytes.length by omega)
  have third := List.getElem?_eq_getElem (show offset + 2 < bytes.length by omega)
  have fourth := List.getElem?_eq_getElem (show offset + 3 < bytes.length by omega)
  have all : window bytes offset 4 =
      [bytes[offset], bytes[offset + 1], bytes[offset + 2], bytes[offset + 3]] := by
    rw [window_succ first, window_succ second, window_succ third, window_succ fourth]
    rfl
  rw [u32At, word32, all, index_of first, word_of (by omega)]
  show (index bytes (offset + 1) >>= _) = _
  rw [index_of second, word_of (by omega)]
  show (index bytes (offset + 2) >>= _) = _
  rw [index_of third, word_of (by omega)]
  show (index bytes (offset + 3) >>= _) = _
  rw [index_of fourth]
  rfl

theorem safe_u16At (inside : offset + 2 ≤ bytes.length) (small : offset + 2 < 2 ^ 64) :
    Safe (u16At bytes offset : Checked ε UInt16) fun v => v = word16 bytes offset := by
  rw [u16At_of inside small]
  exact Safe.ok rfl

theorem safe_u32At (inside : offset + 4 ≤ bytes.length) (small : offset + 4 < 2 ^ 64) :
    Safe (u32At bytes offset : Checked ε UInt32) fun v => v = word32 bytes offset := by
  rw [u32At_of inside small]
  exact Safe.ok rfl

/-- A word that was written is read back. -/
theorem u32FromLeBytes_leBytes (v : UInt32) : u32FromLeBytes (leBytes 4 v.toNat) = v := by
  rw [u32FromLeBytes, leValue_leBytes v.toNat_lt, UInt32.ofNat_toNat]

theorem word32_window (inside : offset + 4 ≤ length) :
    word32 (window bytes start length) offset = word32 bytes (start + offset) := by
  rw [word32, word32, window_window bytes inside]

end Kache
