import Mathlib.Data.Int.Order.Basic

/-!
# Settled stamps

A cell is written now and then, and each version of it carries a stamp that trails the
clock by less than a `window`: the time of the write rounded down.  Two writes may get
one stamp.  But a stamp that lies a whole window before the clock has *settled*: every
later write gets a later one.

`Stands` says what such a stamp is good for: the version that has it, if the cell still
holds it, has property `P`.  It survives the clock (`later`), every write (`rewrite`) and
the removal of the cell (`removed`), so a fact about a version may be kept under its
stamp and looked up at any time.
-/

namespace Kache

universe u

variable {ν : Type u}

/-- Stamp `s` has settled, and the version of the cell that bears it has `P`. -/
structure Stands (window now : ℤ) (stamp : ν → ℤ) (cell : Option ν) (s : ℤ)
    (P : ν → Prop) : Prop where
  settled : s + window ≤ now
  holds : ∀ v, cell = some v → stamp v = s → P v

namespace Stands

variable {window now now' : ℤ} {stamp : ν → ℤ} {cell : Option ν} {s : ℤ} {P Q : ν → Prop}

/-- The clock does not go back. -/
theorem later (h : Stands window now stamp cell s P) (le : now ≤ now') :
    Stands window now' stamp cell s P :=
  ⟨le_trans h.settled le, h.holds⟩

/-- **A later write moves the stamp.** -/
theorem rewrite (h : Stands window now stamp cell s P) {v : ν}
    (trails : now < stamp v + window) : Stands window now stamp (some v) s P where
  settled := h.settled
  holds v' there same := by
    cases there
    have := h.settled
    omega

theorem removed (h : Stands window now stamp cell s P) : Stands window now stamp none s P :=
  ⟨h.settled, fun _ there => nomatch there⟩

theorem mono (h : Stands window now stamp cell s P)
    (weaker : ∀ v, cell = some v → stamp v = s → P v → Q v) : Stands window now stamp cell s Q :=
  ⟨h.settled, fun v there same => weaker v there same (h.holds v there same)⟩

end Stands

end Kache
