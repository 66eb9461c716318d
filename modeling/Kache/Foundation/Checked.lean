import Mathlib.Algebra.Group.Nat.Defs
import Mathlib.Data.List.Basic

/-!
# Computations that may fail, or fault

Code that reads untrusted bytes fails in two ways.  It *fails* when it says so: an error value that
the caller gets.  It *faults* when it does something it must never do: it indexes a buffer past its
end, its arithmetic leaves the machine word, it reads where there is no file, its loops do not end.
`Checked` is the monad of both, and its primitive operations fault exactly where the machine would.

`Safe m Q` says that `m` does not fault and that whatever it returns has `Q`.  The rules
below follow the shape of a program, so that one walk over it shows both that it is total
and what is known of what it accepts.
-/

namespace Kache

universe u

/-- What code must never do. -/
inductive Checked.Fault where
  | index
  | overflow
  | readPastEnd
  | endless
  deriving DecidableEq

/-- Why a computation has no value. -/
inductive Checked.Stop (ε : Type u) where
  | err (e : ε)
  | fault (f : Checked.Fault)
  deriving DecidableEq

/-- A computation that returns a value, fails with an error, or faults. -/
abbrev Checked (ε α : Type u) := Except (Checked.Stop ε) α

namespace Checked

variable {ε α β σ : Type u}

/-- `bail!`. -/
def fail (e : ε) : Checked ε α := .error (.err e)

/-- `ensure!`. -/
def ensure (p : Prop) [Decidable p] (e : ε) : Checked ε PUnit.{u + 1} :=
  if p then .ok ⟨⟩ else fail e

/-- `.context(e)?` of an optional value. -/
def orFail (e : ε) : Option α → Checked ε α
  | none => fail e
  | some a => .ok a

/-- `xs[i]`. -/
def index (xs : List α) (i : ℕ) : Checked ε α :=
  match xs[i]? with
  | some x => .ok x
  | none => .error (.fault .index)

/-- `length` items from `start` on. -/
def window (xs : List α) (start length : ℕ) : List α := (xs.drop start).take length

/-- `&xs[start..stop]`. -/
def slice (xs : List α) (start stop : ℕ) : Checked ε (List α) :=
  if start ≤ stop ∧ stop ≤ xs.length then .ok (window xs start (stop - start))
  else .error (.fault .index)

/-- `xs.get(start..stop)`. -/
def getRange (xs : List α) (start stop : ℕ) : Option (List α) :=
  if start ≤ stop ∧ stop ≤ xs.length then some (window xs start (stop - start)) else none

/-- `xs.get(start..)`. -/
def getFrom (xs : List α) (start : ℕ) : Option (List α) :=
  if start ≤ xs.length then some (xs.drop start) else none

section Arithmetic

variable {ε : Type}

/-- The result of an operation on words of `bits` bits. -/
def word (bits n : ℕ) : Checked ε ℕ :=
  if n < 2 ^ bits then .ok n else .error (.fault .overflow)

/-- `a.checked_mul(b)`. -/
def checkedMul (bits a b : ℕ) : Option ℕ := if a * b < 2 ^ bits then some (a * b) else none

/-- `a - b` without a sign. -/
def minus (a b : ℕ) : Checked ε ℕ := if b ≤ a then .ok (a - b) else .error (.fault .overflow)

end Arithmetic

/-! ## Windows -/

variable {xs : List α} {start stop : ℕ} {m : Checked ε α} {rest : α → Checked ε β} {a : α}
    {Q : α → Prop}

theorem length_window {length : ℕ} (inside : start + length ≤ xs.length) :
    (window xs start length).length = length := by
  rw [window, List.length_take, List.length_drop]
  omega

theorem window_window (xs : List α) {length first count : ℕ} (inside : first + count ≤ length) :
    window (window xs start length) first count = window xs (start + first) count := by
  rw [window, window, window, List.drop_take, List.take_take, List.drop_drop,
    Nat.min_eq_left (by omega)]

theorem getRange_eq_some {ys : List α} : getRange xs start stop = some ys ↔
    start ≤ stop ∧ stop ≤ xs.length ∧ ys = window xs start (stop - start) := by
  unfold getRange
  split
  · next inside => simp [inside, eq_comm]
  · next outside =>
    refine iff_of_false (fun h => nomatch h) fun h => outside ⟨h.1, h.2.1⟩

theorem getFrom_eq_some {ys : List α} : getFrom xs start = some ys ↔
    start ≤ xs.length ∧ ys = xs.drop start := by
  unfold getFrom
  split
  · next inside => simp [inside, eq_comm]
  · next outside => exact iff_of_false (fun h => nomatch h) fun h => outside h.1

/-! ## The values of the primitive operations -/

theorem ensure_of {p : Prop} [Decidable p] (holds : p) (e : ε) : ensure p e = .ok ⟨⟩ := if_pos holds

theorem index_of {i : ℕ} {x : α} (found : xs[i]? = some x) :
    (index xs i : Checked ε α) = .ok x := by
  rw [index, found]

theorem slice_of (ordered : start ≤ stop) (inside : stop ≤ xs.length) :
    (slice xs start stop : Checked ε (List α)) = .ok (window xs start (stop - start)) :=
  if_pos ⟨ordered, inside⟩

theorem word_of {ε : Type} {bits n : ℕ} (small : n < 2 ^ bits) :
    (word bits n : Checked ε ℕ) = .ok n :=
  if_pos small

theorem minus_of {ε : Type} {a b : ℕ} (le : b ≤ a) : (minus a b : Checked ε ℕ) = .ok (a - b) :=
  if_pos le

/-- One computation after the other, when the first returns. -/
theorem bind_eq {r : Checked ε β} (first : m = .ok a) (next : rest a = r) : (m >>= rest) = r := by
  rw [first]
  exact next

theorem bind_of {b : β} (first : m = .ok a) (next : rest a = .ok b) : (m >>= rest) = .ok b :=
  bind_eq first next

@[simp] theorem orFail_some (e : ε) (a : α) : orFail e (some a) = .ok a := rfl

/-! ## Safety -/

/-- The computation does not fault, and what it returns has `Q`. -/
def Safe (m : Checked ε α) (Q : α → Prop) : Prop :=
  match m with
  | .ok a => Q a
  | .error (.err _) => True
  | .error (.fault _) => False

theorem Safe.ok (holds : Q a) : Safe (.ok a : Checked ε α) Q := holds

theorem Safe.pure (holds : Q a) : Safe (Pure.pure a : Checked ε α) Q := holds

theorem Safe.fail (e : ε) (Q : α → Prop) : Safe (fail e : Checked ε α) Q := True.intro

theorem Safe.mono {P : α → Prop} (safe : Safe m P) (imp : ∀ a, P a → Q a) :
    Safe m Q := by
  match m, safe with
  | .ok a, holds => exact imp a holds
  | .error (.err _), _ => exact True.intro

/-- One computation after the other. -/
theorem Safe.bind {P : α → Prop} {Q : β → Prop} (safe : Safe m P)
    (next : ∀ a, P a → Safe (rest a) Q) : Safe (m >>= rest) Q := by
  match m, safe with
  | .ok a, holds => exact next a holds
  | .error (.err _), _ => exact True.intro

theorem Safe.ite {p : Prop} [Decidable p] {m' : Checked ε α} (pos : p → Safe m Q)
    (neg : ¬ p → Safe m' Q) : Safe (if p then m else m') Q := by
  split
  · next holds => exact pos holds
  · next fails => exact neg fails

/-- What is known of a value that was returned. -/
theorem Safe.result (safe : Safe m Q) (done : m = .ok a) :
    Q a := by
  subst done
  exact safe

/-- A safe computation returns a value or an error. -/
theorem Safe.returns (safe : Safe m Q) :
    (∃ a, m = .ok a) ∨ ∃ e, m = .error (.err e) := by
  match m, safe with
  | .ok a, _ => exact .inl ⟨a, rfl⟩
  | .error (.err e), _ => exact .inr ⟨e, rfl⟩

theorem safe_ensure (p : Prop) [Decidable p] (e : ε) : Safe (ensure p e) fun _ => p :=
  Safe.ite (fun holds => holds) fun _ => True.intro

theorem safe_orFail (e : ε) (o : Option α) : Safe (orFail e o) fun a => o = some a := by
  cases o with
  | none => exact True.intro
  | some a => exact (rfl : some a = some a)

theorem safe_slice (ordered : start ≤ stop) (inside : stop ≤ xs.length) :
    Safe (slice xs start stop : Checked ε (List α)) fun ys =>
      ys = window xs start (stop - start) := by
  rw [slice_of ordered inside]
  exact Safe.ok rfl

theorem safe_word {ε : Type} {bits n : ℕ} (small : n < 2 ^ bits) :
    Safe (word bits n : Checked ε ℕ) fun m => m = n := by
  rw [word_of small]
  exact Safe.ok rfl

theorem safe_minus {ε : Type} {a b : ℕ} (le : b ≤ a) :
    Safe (minus a b : Checked ε ℕ) fun m => m = a - b := by
  rw [minus_of le]
  exact Safe.ok rfl

/-! ## Loops -/

/-- A loop keeps what its body keeps.  The invariant may speak of the items that were done; the
body is entered only with items that are in the list, in their place. -/
theorem Safe.foldlM {γ : Type u} {f : σ → γ → Checked ε σ} (items : List γ) (I : List γ → σ → Prop)
    {s : σ} (start : I [] s)
    (body : ∀ done x rest s, items = done ++ x :: rest → I done s → Safe (f s x)
      (I (done ++ [x]))) :
    Safe (items.foldlM f s) (I items) := by
  -- the items split into those done and those to do
  have loop : ∀ (rest done : List γ) (s : σ), items = done ++ rest → I done s →
      Safe (rest.foldlM f s) (I items) := by
    intro rest
    induction rest with
    | nil =>
      intro done s split here
      rw [List.append_nil] at split
      rw [List.foldlM_nil, split]
      exact Safe.pure here
    | cons x rest ih =>
      intro done s split here
      rw [List.foldlM_cons]
      refine (body done x rest s split here).bind fun s' next => ?_
      exact ih (done ++ [x]) s' (by rw [split, List.append_assoc, List.singleton_append]) next
  exact loop items [] s rfl start

/-- Loops whose bodies agree on the items. -/
theorem foldlM_congr {γ : Type u} {f g : σ → γ → Checked ε σ} {items : List γ}
    (same : ∀ s, ∀ x ∈ items, f s x = g s x) (s : σ) : items.foldlM f s = items.foldlM g s := by
  induction items generalizing s with
  | nil => rfl
  | cons x rest ih =>
    rw [List.foldlM_cons, List.foldlM_cons, same s x List.mem_cons_self]
    congr 1
    funext s'
    exact ih (fun s y mem => same s y (List.mem_cons_of_mem x mem)) s'

/-- A loop that only checks: every item passes. -/
theorem Safe.forM {γ : Type u} {f : γ → Checked ε PUnit.{u + 1}} {items : List γ} {Q : γ → Prop}
    (body : ∀ x ∈ items, Safe (f x) fun _ => Q x) :
    Safe (items.forM f) fun _ => ∀ x ∈ items, Q x := by
  induction items with
  | nil => exact Safe.pure fun _ mem => (List.not_mem_nil mem).elim
  | cons x rest ih =>
    refine (body x List.mem_cons_self).bind fun _ here => ?_
    refine (ih fun y mem => body y (List.mem_cons_of_mem x mem)).mono fun _ others => ?_
    exact List.forall_mem_cons.mpr ⟨here, others⟩

end Checked

end Kache
