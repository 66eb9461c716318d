import Mathlib.Algebra.Group.Nat.Defs
import Mathlib.Data.List.Basic
import Mathlib.Data.List.Infix

/-!
# Self-delimiting encodings

An encoding is *self-delimiting* when what follows a code word cannot be mistaken for
a part of it: from `enc x ++ s = enc y ++ t` follow `x = y` and `s = t`.  Sequences of
such code words are decoded one after the other, so a stream made of them determines
what went into it (`flatMap_injective`).

The building blocks are numbers of fixed width (`leBytes`), byte strings behind
their length (`framed`), words up to a letter they do not contain
(`selfDelimiting_terminated`), and tags of which none is the beginning of another
(`selfDelimiting_tags`).
-/

namespace Kache

universe u v

variable {α : Type u} {β : Type v}

/-- Among the values with `P`, code words end by themselves. -/
def SelfDelimiting (P : α → Prop) (enc : α → List β) : Prop :=
  ∀ ⦃x y : α⦄, P x → P y → ∀ ⦃s t : List β⦄, enc x ++ s = enc y ++ t → x = y ∧ s = t

variable {P : α → Prop} {enc : α → List β}

/-- Code words of one length. -/
theorem SelfDelimiting.of_length (n : ℕ) (length : ∀ x, (enc x).length = n)
    (injective : ∀ x y, P x → P y → enc x = enc y → x = y) :
    SelfDelimiting P enc := by
  intro x y hx hy s t same
  obtain ⟨code, rest⟩ := List.append_inj same ((length x).trans (length y).symm)
  exact ⟨injective x y hx hy code, rest⟩

/-- Streams of code words, before something that does not begin with one. -/
theorem SelfDelimiting.flatMap_append_injective (h : SelfDelimiting P enc) {Q : List β → Prop}
    (apart : ∀ x, P x → ∀ s, ¬ Q (enc x ++ s)) :
    ∀ {l l' : List α} {s t : List β}, (∀ x ∈ l, P x) → (∀ x ∈ l', P x) → Q s → Q t →
      l.flatMap enc ++ s = l'.flatMap enc ++ t → l = l' ∧ s = t := by
  intro l
  induction l with
  | nil =>
    intro l' s t _ hl' hs _ same
    cases l' with
    | nil => exact ⟨rfl, same⟩
    | cons y l' =>
      rw [List.flatMap_nil, List.nil_append, List.flatMap_cons, List.append_assoc] at same
      exact absurd (same ▸ hs) (apart y (hl' y List.mem_cons_self) _)
  | cons x l ih =>
    intro l' s t hl hl' hs ht same
    obtain ⟨hx, hl⟩ := List.forall_mem_cons.mp hl
    rw [List.flatMap_cons, List.append_assoc] at same
    cases l' with
    | nil =>
      rw [List.flatMap_nil, List.nil_append] at same
      exact absurd (same ▸ ht) (apart x hx _)
    | cons y l' =>
      obtain ⟨hy, htail⟩ := List.forall_mem_cons.mp hl'
      rw [List.flatMap_cons, List.append_assoc] at same
      obtain ⟨rfl, rest⟩ := h hx hy same
      obtain ⟨rfl, rfl⟩ := ih hl htail hs ht rest
      exact ⟨rfl, rfl⟩

/-- Streams of code words. -/
theorem SelfDelimiting.flatMap_injective (h : SelfDelimiting P enc) (nonempty : ∀ x, enc x ≠ [])
    {l l' : List α}
    (hl : ∀ x ∈ l, P x) (hl' : ∀ x ∈ l', P x) (same : l.flatMap enc = l'.flatMap enc) : l = l' := by
  have apart : ∀ x, P x → ∀ s, ¬ enc x ++ s = [] := fun x _ s none =>
    nonempty x (List.append_eq_nil_iff.mp none).1
  exact (h.flatMap_append_injective (Q := (· = [])) apart hl hl' rfl rfl
    (by rw [same])).1

/-- Words without the letter that ends them. -/
theorem selfDelimiting_terminated (stop : β) :
    SelfDelimiting (stop ∉ ·) fun word : List β => word ++ [stop] := by
  intro x
  induction x with
  | nil =>
    intro y _ hy s t same
    cases y with
    | nil => exact ⟨rfl, List.append_cancel_left same⟩
    | cons b y => exact absurd ((List.cons_eq_cons.mp same).1 ▸ List.mem_cons_self) hy
  | cons a x ih =>
    intro y hx hy s t same
    cases y with
    | nil => exact absurd ((List.cons_eq_cons.mp same).1 ▸ List.mem_cons_self) hx
    | cons b y =>
      obtain ⟨rfl, tails⟩ := List.cons_eq_cons.mp same
      obtain ⟨rfl, rest⟩ := ih (fun mem => hx (List.mem_cons_of_mem _ mem))
        (fun mem => hy (List.mem_cons_of_mem _ mem)) tails
      exact ⟨rfl, rest⟩

/-- Tags of which none is the beginning of another. -/
theorem selfDelimiting_tags {tags : List (List β)}
    (free : ∀ a ∈ tags, ∀ b ∈ tags, a <+: b → a = b) : SelfDelimiting (· ∈ tags) id := by
  intro a b ha hb s t same
  have first : a <+: a ++ s := List.prefix_append a s
  have second : b <+: a ++ s := (same : a ++ s = b ++ t) ▸ List.prefix_append b t
  have equal : a = b := by
    rcases List.prefix_or_prefix_of_prefix first second with h | h
    · exact free a ha b hb h
    · exact (free b hb a ha h).symm
  subst equal
  exact ⟨rfl, List.append_cancel_left same⟩

/-! ## Numbers and byte strings -/

/-- The `w` lowest bytes of a number, the lowest first. -/
def leBytes : ℕ → ℕ → List UInt8
  | 0, _ => []
  | w + 1, n => UInt8.ofNat n :: leBytes w (n / 256)

theorem length_leBytes (w n : ℕ) : (leBytes w n).length = w := by
  induction w generalizing n with
  | zero => rfl
  | succ w ih => rw [leBytes, List.length_cons, ih]

/-- The number of little-endian bytes. -/
def leValue : List UInt8 → ℕ
  | [] => 0
  | b :: rest => b.toNat + 256 * leValue rest

theorem leValue_leBytes {w n : ℕ} (fits : n < 256 ^ w) : leValue (leBytes w n) = n := by
  induction w generalizing n with
  | zero =>
    have : n = 0 := Nat.lt_one_iff.mp fits
    rw [this]
    rfl
  | succ w ih =>
    have upper : n / 256 < 256 ^ w := by
      rw [Nat.pow_succ] at fits
      exact (Nat.div_lt_iff_lt_mul (by decide)).mpr fits
    have low : (UInt8.ofNat n).toNat = n % 256 := UInt8.toNat_ofNat'
    rw [leBytes, leValue, ih upper, low]
    exact Nat.mod_add_div n 256

theorem leBytes_leValue (bytes : List UInt8) : leBytes bytes.length (leValue bytes) = bytes := by
  induction bytes with
  | nil => rfl
  | cons b rest ih =>
    have small := b.toNat_lt
    have low : UInt8.ofNat (b.toNat + 256 * leValue rest) = b := by
      rw [← UInt8.toNat_inj, UInt8.toNat_ofNat']
      omega
    have high : (b.toNat + 256 * leValue rest) / 256 = leValue rest := by omega
    rw [List.length_cons, leValue, leBytes, low, high, ih]

theorem leValue_lt (bytes : List UInt8) : leValue bytes < 256 ^ bytes.length := by
  induction bytes with
  | nil => decide
  | cons b rest ih =>
    have small := b.toNat_lt
    rw [leValue, List.length_cons, Nat.pow_succ]
    omega

theorem leBytes_injective {w m n : ℕ} (hm : m < 256 ^ w) (hn : n < 256 ^ w)
    (same : leBytes w m = leBytes w n) : m = n := by
  rw [← leValue_leBytes hm, same, leValue_leBytes hn]

theorem selfDelimiting_leBytes (w : ℕ) : SelfDelimiting (· < 256 ^ w) (leBytes w) :=
  .of_length w (length_leBytes w) fun _ _ => leBytes_injective

/-- A byte string behind its length. -/
def framed (w : ℕ) (bytes : List UInt8) : List UInt8 := leBytes w bytes.length ++ bytes

theorem selfDelimiting_framed (w : ℕ) :
    SelfDelimiting (fun bytes => bytes.length < 256 ^ w) (framed w) := by
  intro x y hx hy s t same
  rw [framed, framed, List.append_assoc, List.append_assoc] at same
  obtain ⟨length, rest⟩ := selfDelimiting_leBytes w hx hy same
  exact List.append_inj rest length

end Kache
