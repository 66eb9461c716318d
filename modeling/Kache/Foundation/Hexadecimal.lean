import Kache.Foundation.Framing
import Kache.Foundation.UnixPath

/-!
# Digests in hexadecimal digits

A hash is taken for granted to have no collisions, and to be written in hexadecimal digits
(`CollisionFree`).  The bytes themselves, written so, are such a hash (`hexText`).
-/

namespace Kache

open UnixPath

/-- A hash function without collisions that is written in hexadecimal digits. -/
structure CollisionFree (blake3Hex : List UInt8 → OsStr) : Prop where
  injective : Function.Injective blake3Hex
  digits : ∀ bytes, ∀ c ∈ blake3Hex bytes, c ∈ utf8 "0123456789abcdef"

/-- A byte that is no digit is in no hash. -/
theorem CollisionFree.notMem {blake3Hex : List UInt8 → OsStr} (free : CollisionFree blake3Hex)
    {c : UInt8} (other : c ∉ utf8 "0123456789abcdef") (bytes : List UInt8) : c ∉ blake3Hex bytes :=
  fun mem => other (free.digits bytes c mem)

/-- A hexadecimal digit. -/
def hexByte (n : ℕ) : UInt8 := UInt8.ofNat (if n < 10 then 48 + n else 87 + n)

/-- A hash without collisions: the bytes themselves in hexadecimal digits. -/
def hexText (bytes : List UInt8) : OsStr :=
  bytes.flatMap fun b => [hexByte (b.toNat / 16), hexByte (b.toNat % 16)]

/-- Bytes written in two digits each, of any alphabet, are told apart. -/
theorem flatMap_digits_injective {α : Type*} {digit : ℕ → α}
    (distinct : ∀ m < 16, ∀ n < 16, digit m = digit n → m = n) :
    Function.Injective fun bytes : List UInt8 => bytes.flatMap fun b =>
      [digit (b.toNat / 16), digit (b.toNat % 16)] := by
  have pairs : SelfDelimiting (fun _ : UInt8 => True) fun b =>
      [digit (b.toNat / 16), digit (b.toNat % 16)] := by
    refine .of_length 2 (fun b => rfl) fun a b _ _ same => ?_
    have small := a.toNat_lt
    have small' := b.toNat_lt
    obtain ⟨high, low⟩ := List.cons.inj same
    have high := distinct _ (by omega) _ (by omega) high
    have low := distinct _ (by omega) _ (by omega) (List.cons.inj low).1
    exact UInt8.toNat_inj.mp (by omega)
  exact fun a b same =>
    pairs.flatMap_injective (fun _ => List.cons_ne_nil _ _) (fun _ _ => trivial)
      (fun _ _ => trivial) same

theorem collisionFree_hexText : CollisionFree hexText := by
  have digit : ∀ n < 16, hexByte n ∈ utf8 "0123456789abcdef" := by decide +kernel
  constructor
  · exact flatMap_digits_injective (by decide)
  · intro bytes c mem
    obtain ⟨b, -, mem⟩ := List.mem_flatMap.mp mem
    have small := b.toNat_lt
    simp only [List.mem_cons, List.not_mem_nil, or_false] at mem
    rcases mem with rfl | rfl
    · exact digit _ (by omega)
    · exact digit _ (by omega)

end Kache
