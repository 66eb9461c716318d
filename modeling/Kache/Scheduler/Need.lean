import Mathlib.Algebra.Group.Nat.Defs
import Mathlib.Data.List.Basic
import Mathlib.Order.Defs.LinearOrder

/-!
# How many slots to ask for

Compiles and test binaries share a pool of permit slots.  Tests stay above the
*compile reserve* at the bottom of the pool.  A compile asks for as many slots as
it weighs, for the whole pool under memory pressure; once it has had to wait, it
asks for no more than tests leave, and never for less than the reserve.

All numbers are the code's `u32`s and are used without overflow: they are clamped
to the pool, or subtracted with saturation.
-/

namespace Kache.Scheduler

/-- `Scheduler::pool_size`: a `u32` that `open_with` raises to one. -/
structure Pool where
  size : ℕ
  pos : 1 ≤ size
  lt : size < 2 ^ 32

/-- `u32::MAX`. -/
def u32Max : ℕ := 2 ^ 32 - 1

/-- `clamp`. -/
def clamp (x lo hi : ℕ) : ℕ := if x < lo then lo else if hi < x then hi else x

/-- `reserve_for`. -/
def reserveFor (pool : ℕ) : ℕ := max (pool / 4) 1

/-- `test_need`. -/
def testNeed (want pool : ℕ) : ℕ := min want (pool - reserveFor pool)

/-- `compile_need`. -/
def compileNeed (weight pool : ℕ) (waited : Bool) (testsHeld : ℕ) : ℕ :=
  let need := clamp weight 1 pool
  let reserve := reserveFor pool
  if waited ∧ reserve < need then min need (max (pool - testsHeld) reserve) else need

/-- `pressure::weight`. -/
def pressureWeight (weight pool : ℕ) (pressured : Bool) : ℕ := if pressured then pool else weight

/-- What `tests_held` finds: no directory, one it cannot read, or a probe of each
entry, `none` when the entry cannot be probed. -/
inductive TestsDir where
  | notFound
  | unreadable
  | entries (probes : List (Option Bool))

/-- `tests_held`. -/
def testsHeld : TestsDir → ℕ
  | .notFound => 0
  | .unreadable => u32Max
  | .entries probes => if none ∈ probes then u32Max else probes.count (some true)

/-! ## The reserve keeps a compile going -/

theorem one_le_clamp {x lo hi : ℕ} (lo_pos : 1 ≤ lo) (le : lo ≤ hi) : 1 ≤ clamp x lo hi := by
  unfold clamp
  split
  · exact lo_pos
  · split <;> omega

theorem one_le_reserveFor (pool : ℕ) : 1 ≤ reserveFor pool := by
  unfold reserveFor
  omega

theorem reserveFor_le (pool : Pool) : reserveFor pool.size ≤ pool.size := by
  have := pool.pos
  unfold reserveFor
  omega

theorem one_le_compileNeed (pool : Pool) (weight : ℕ) (waited : Bool) (held : ℕ) :
    1 ≤ compileNeed weight pool.size waited held := by
  have need := one_le_clamp (x := weight) (Nat.le_refl 1) pool.pos
  have reserve := one_le_reserveFor pool.size
  unfold compileNeed
  dsimp only
  split
  · omega
  · exact need

/-- **A compile that has waited fits beside the tests**: when `held` slots are taken, none
of them from the reserve, and the tests are counted right or given up on, it asks
for no more than what is left. -/
theorem compileNeed_le_free (pool : Pool) (weight : ℕ) {held counted : ℕ}
    (above : held + reserveFor pool.size ≤ pool.size)
    (answer : counted = held ∨ counted = u32Max) :
    compileNeed weight pool.size true counted ≤ pool.size - held := by
  have lt := pool.lt
  unfold compileNeed
  dsimp only
  split
  · unfold u32Max at answer
    omega
  · next light =>
    simp only [true_and] at light
    omega

end Kache.Scheduler
