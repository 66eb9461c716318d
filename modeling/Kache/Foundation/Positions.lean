import Kache.Foundation.Checked
import Mathlib.Data.List.Infix

/-!
# Readers that move along a buffer

A hand-written reader holds a position in a buffer and moves it forward until it has what it wants
(`walk`).  It faults if it does not move, or if it is still not done after as many steps as the
buffer has items.

Such readers only look ahead.  So what they do at a position is a function of what stands from there
on (`read`), which says how much is consumed.  A reader of texts is then reasoned about without
positions: `read_stop` and `read_go` are its two cases.
-/

namespace Kache.Positions

open Checked

universe u

variable {α σ ε : Type u}

/-- What one step does: go on from a place, or return it. -/
inductive Step (σ : Type u) where
  | go (place : ℕ) (state : σ)
  | stop (place : ℕ) (state : σ)

/-- `while let Some(x) = src.get(i)`, where every step must move on. -/
def walk (src : List α) (body : ℕ → α → σ → Checked ε (Step σ)) : ℕ → ℕ → σ → Checked ε (ℕ × σ)
  | fuel, i, s =>
    match src[i]? with
    | none => .ok (i, s)
    | some x =>
      match fuel with
      | 0 => .error (.fault .endless)
      | fuel + 1 =>
        body i x s >>= fun
          | .stop j s => .ok (j, s)
          | .go j s => if i < j then walk src body fuel j s else .error (.fault .endless)

/-- The same on what stands from a position on: how much is consumed, and the state in the end. -/
def consume (body : α → List α → σ → Step σ) : ℕ → List α → σ → ℕ × σ
  | 0, _, s => (0, s)
  | _ + 1, [], s => (0, s)
  | fuel + 1, x :: rest, s =>
    match body x rest s with
    | .stop n s => (n, s)
    | .go n s => (n + (consume body fuel ((x :: rest).drop n) s).1,
        (consume body fuel ((x :: rest).drop n) s).2)

/-- Steps enough for the whole text. -/
def read (body : α → List α → σ → Step σ) (text : List α) (s : σ) : ℕ × σ :=
  consume body text.length text s

/-- Every step that goes on moves on. -/
def Advances (body : α → List α → σ → Step σ) : Prop :=
  ∀ x rest s n s', body x rest s = .go n s' → 0 < n

variable {body : α → List α → σ → Step σ}

theorem consume_eq_read (advances : Advances body) {fuel : ℕ} {text : List α}
    (enough : text.length ≤ fuel) (s : σ) : consume body fuel text s = read body text s := by
  -- both amounts of fuel are enough, and what is left gets shorter with every step
  have same : ∀ (bound : ℕ) (text : List α), text.length ≤ bound → ∀ fuel fuel',
      text.length ≤ fuel →
      text.length ≤ fuel' → ∀ s, consume body fuel text s = consume body fuel' text s := by
    intro bound
    induction bound with
    | zero =>
      intro text short fuel fuel' _ _ s
      obtain rfl := List.length_eq_zero_iff.mp (Nat.le_zero.mp short)
      cases fuel <;> cases fuel' <;> rfl
    | succ bound ih =>
      intro text short fuel fuel' enough enough' s
      cases text with
      | nil => cases fuel <;> cases fuel' <;> rfl
      | cons x rest =>
        obtain ⟨fuel, rfl⟩ := Nat.exists_eq_succ_of_ne_zero (Nat.ne_zero_of_lt enough)
        obtain ⟨fuel', rfl⟩ := Nat.exists_eq_succ_of_ne_zero (Nat.ne_zero_of_lt enough')
        rw [consume, consume]
        cases step : body x rest s with
        | stop n s => rfl
        | go n s' =>
          have moves := advances x rest s n s' step
          have shorter : ((x :: rest).drop n).length < (x :: rest).length := by
            rw [List.length_drop, List.length_cons]
            omega
          have equal := ih ((x :: rest).drop n) (by omega) fuel fuel' (by omega) (by omega) s'
          show (n + _, _) = (n + _, _)
          rw [equal]
  exact same text.length text le_rfl fuel text.length enough le_rfl s

theorem read_stop {x : α} {rest : List α} {s s' : σ} {n : ℕ} (step : body x rest s = .stop n s') :
    read body (x :: rest) s = (n, s') := by
  rw [read, List.length_cons, consume, step]

theorem read_go (advances : Advances body) {x : α} {rest : List α} {s s' : σ} {n : ℕ}
    (step : body x rest s = .go n s') :
    read body (x :: rest) s =
      (n + (read body ((x :: rest).drop n) s').1, (read body ((x :: rest).drop n) s').2) := by
  have moves := advances x rest s n s' step
  have enough : ((x :: rest).drop n).length ≤ rest.length := by
    rw [List.length_drop, List.length_cons]
    omega
  rw [read, List.length_cons, consume, step]
  show (n + (consume body rest.length _ s').1, (consume body rest.length _ s').2) = _
  rw [consume_eq_read advances enough]

/-! ## Pieces -/

section Pieces

variable {β : Type u} {piece : α → List α → β × ℕ}

/-- A text cut into pieces, at most as many as the fuel says. -/
def cut (piece : α → List α → β × ℕ) : ℕ → List α → List β
  | 0, _ => []
  | _ + 1, [] => []
  | fuel + 1, x :: rest => (piece x rest).1 :: cut piece fuel ((x :: rest).drop (piece x rest).2)

/-- A text cut into pieces.  `piece` says what the first one is and how long. -/
def pieces (piece : α → List α → β × ℕ) (text : List α) : List β := cut piece text.length text

theorem cut_eq (moves : ∀ x rest, 0 < (piece x rest).2) {fuel : ℕ} {text : List α}
    (enough : text.length ≤ fuel) : cut piece fuel text = pieces piece text := by
  have same : ∀ (fuel fuel' : ℕ) (text : List α), text.length ≤ fuel → text.length ≤ fuel' →
      cut piece fuel text = cut piece fuel' text := by
    intro fuel
    induction fuel with
    | zero =>
      intro fuel' text short _
      obtain rfl := List.length_eq_zero_iff.mp (Nat.le_zero.mp short)
      cases fuel' <;> rfl
    | succ fuel ih =>
      intro fuel' text enough enough'
      cases text with
      | nil => cases fuel' <;> rfl
      | cons x rest =>
        obtain ⟨fuel', rfl⟩ := Nat.exists_eq_succ_of_ne_zero (Nat.ne_zero_of_lt enough')
        have moved := moves x rest
        have shorter : ((x :: rest).drop (piece x rest).2).length ≤ rest.length := by
          rw [List.length_drop, List.length_cons]
          omega
        rw [List.length_cons] at enough enough'
        rw [cut, cut, ih fuel' _ (by omega) (by omega)]
  exact same fuel text.length text enough le_rfl

theorem pieces_cons (moves : ∀ x rest, 0 < (piece x rest).2) (x : α) (rest : List α) :
    pieces piece (x :: rest) = (piece x rest).1 :: pieces piece
      ((x :: rest).drop (piece x rest).2) := by
  have moved := moves x rest
  have enough : ((x :: rest).drop (piece x rest).2).length ≤ rest.length := by
    rw [List.length_drop, List.length_cons]
    omega
  rw [pieces, List.length_cons, cut, cut_eq moves enough]

end Pieces

end Kache.Positions
