import Kache.Foundation.Checked
import Mathlib.Algebra.BigOperators.Group.List.Basic
import Mathlib.Algebra.Ring.Nat

/-!
# Accounting for the extents of a file

To tell how much of a file is shared with its clones, the map of its extents is read page by page
and the lengths are added up.  The replies are not trusted: a page may be too long, extents may
overlap, run backwards or past the last 64-bit offset, and the map may never end.

The cursor is what carries the proof.  Everything consumed so far ends at or before its offset, an
extent is taken only if it starts there or later, and a reply is asked for only at the cursor; so
one lower bound gives the order of the extents, their disjointness and the order of the pages.
-/

namespace Kache.Fs

open Checked

/-! ## The code -/

/-- `LAST`. -/
def lastFlag : UInt32 := 0x1

/-- `SHARED`. -/
def sharedFlag : UInt32 := 0x2000

/-- `ACCOUNTABLE_FLAGS`: last, shared, unwritten and merged. -/
def accountableFlags : UInt32 := 0x3801

/-- `EXTENTS_PER_PAGE`. -/
def extentsPerPage : ℕ := 128

/-- `MAX_PAGES`. -/
def maxPages : ℕ := 64

/-- One extent of a reply. -/
structure Extent where
  logical : UInt64
  length : UInt64
  flags : UInt32
  deriving DecidableEq

/-- The lengths added up so far. -/
structure Accounting where
  unique : UInt64 := 0
  shared : UInt64 := 0
  deriving DecidableEq

/-- How much of a file is shared. -/
inductive Sharing where
  | none
  | partially
  | full
  deriving DecidableEq

/-- `Accounting::sharing`. -/
def Accounting.sharing (accounting : Accounting) : Sharing :=
  if accounting.shared > 0 then if accounting.unique > 0 then .partially else .full else .none

/-- Why a walk fails: the system call did, or a reply makes no sense. -/
inductive WalkError (ε : Type) where
  | reply (e : ε)
  | invalid (message : String)
  deriving DecidableEq

/-- What the walk returns. -/
abbrev Return (ε : Type) := Except (WalkError ε) (Option Accounting)

/-- The variables of the loops. -/
structure Cursor where
  offset : UInt64 := 0
  accounting : Accounting := {}
  deriving DecidableEq

variable {ε : Type}

/-- `invalid`. -/
def invalid (message : String) : Return ε := .error (.invalid message)

/-- `u64::checked_add`. -/
def addWords (a b : UInt64) : Option UInt64 :=
  if a.toNat + b.toNat < 2 ^ 64 then some (a + b) else none

/-- The length goes to one of the two totals. -/
def Accounting.add (accounting : Accounting) (extent : Extent) : Option Accounting :=
  if extent.flags &&& sharedFlag ≠ 0 then
    (addWords accounting.shared extent.length).map fun total => { accounting with shared := total }
  else
    (addWords accounting.unique extent.length).map fun total => { accounting with unique := total }

/-- The body of the loop over the `count` extents of a page.  What the loop returns early is a
failure here. -/
def visit (count index : ℕ) (cursor : Cursor) (extent : Extent) : Checked (Return ε) Cursor := do
  ensure (extent.flags &&& ~~~accountableFlags = 0) (.ok none)
  ensure (extent.length ≠ 0 ∧ cursor.offset ≤ extent.logical)
    (invalid "FIEMAP extents overlap or make no progress")
  let offset ← orFail (invalid "FIEMAP logical range overflow")
    (addWords extent.logical extent.length)
  let accounting ← orFail (invalid "FIEMAP extent lengths overflow") (cursor.accounting.add extent)
  if extent.flags &&& lastFlag ≠ 0 then do
    let following ← word 64 (index + 1)
    ensure (following = count) (invalid "FIEMAP contains extents after LAST")
    fail (.ok (some accounting))
  else
    pure { offset := offset, accounting := accounting }

/-- The loop over the extents of a page, from `index` on. -/
def visitFrom (count : ℕ) : ℕ → Cursor → List Extent → Checked (Return ε) Cursor
  | _, cursor, [] => pure cursor
  | index, cursor, extent :: rest => do
      let next ← visit count index cursor extent
      visitFrom count (index + 1) next rest

/-- What is done with one page. -/
def readPage (cursor : Cursor) (batch : List Extent) : Checked (Return ε) Cursor := do
  ensure (batch.length ≤ extentsPerPage) (invalid "FIEMAP returned more extents than requested")
  ensure (batch ≠ []) (.ok (some cursor.accounting))
  let next ← visitFrom batch.length 0 cursor batch
  -- No complete map was reported, and the next window would be empty.
  ensure (next.offset ≠ 0xFFFFFFFFFFFFFFFF) (.ok none)
  pure next

/-- The loop over the pages, `left` of them.  `replies page` is the answer to the request for that
page; the offsets asked for are recorded beside the result. -/
def walkPages (replies : ℕ → Except ε (List Extent)) :
    ℕ → ℕ → Cursor → List UInt64 × Except Fault (Return ε)
  | 0, _, _ => ([], .ok (.ok none))
  | left + 1, page, cursor =>
    match replies page with
    | .error e => ([cursor.offset], .ok (.error (.reply e)))
    | .ok batch =>
      match readPage cursor batch with
      | .ok next =>
        let later := walkPages replies left (page + 1) next
        (cursor.offset :: later.1, later.2)
      | .error (.err result) => ([cursor.offset], .ok result)
      | .error (.fault f) => ([cursor.offset], .error f)

/-- `walk`. -/
def walk (replies : ℕ → Except ε (List Extent)) : List UInt64 × Except Fault (Return ε) :=
  walkPages replies maxPages 0 {}

/-! ## What an accounting says -/

/-- The first offset after an extent. -/
def Extent.stop (extent : Extent) : ℕ := extent.logical.toNat + extent.length.toNat

/-- Does the extent have the `SHARED` flag? -/
def Extent.isShared (extent : Extent) : Bool := extent.flags &&& sharedFlag ≠ 0

/-- The length of the extents that satisfy `p` together. -/
def total (p : Extent → Bool) (extents : List Extent) : ℕ :=
  ((extents.filter p).map fun extent => extent.length.toNat).sum

/-- What is known of the extents behind an accounting. -/
structure Accounts (extents : List Extent) (accounting : Accounting) : Prop where
  /-- Each ends before the next one begins. -/
  ordered : extents.Pairwise fun a b => a.stop ≤ b.logical.toNat
  positive : ∀ extent ∈ extents, 0 < extent.length.toNat
  fits : ∀ extent ∈ extents, extent.stop < 2 ^ 64
  accountable : ∀ extent ∈ extents, extent.flags &&& ~~~accountableFlags = 0
  unique : accounting.unique.toNat = total (fun extent => !extent.isShared) extents
  shared : accounting.shared.toNat = total Extent.isShared extents

/-- The last page is empty, or its last extent is the `LAST` one. -/
def Ended (batches : List (List Extent)) : Prop :=
  ∃ page, batches.getLast? = some page ∧
    (page = [] ∨ ∃ extent, page.getLast? = some extent ∧ extent.flags &&& lastFlag ≠ 0)

/-! ## One extent -/

theorem addWords_eq_some {a b c : UInt64} :
    addWords a b = some c ↔ c.toNat = a.toNat + b.toNat := by
  unfold addWords
  split
  · next small =>
    constructor
    · intro same
      rw [← Option.some.inj same, UInt64.toNat_add, Nat.mod_eq_of_lt small]
    · intro same
      refine congrArg some (UInt64.toNat_inj.mp ?_)
      rw [UInt64.toNat_add, Nat.mod_eq_of_lt small, same]
  · next big =>
    refine iff_of_false (fun h => nomatch h) fun same => big ?_
    rw [← same]
    exact c.toNat_lt

theorem total_concat (p : Extent → Bool) (extents : List Extent) (extent : Extent) :
    total p (extents ++ [extent]) = total p extents + if p extent then
      extent.length.toNat else 0 := by
  unfold total
  cases counted : p extent <;> simp [counted]

theorem Accounting.add_eq_some {accounting next : Accounting} {extent : Extent}
    (added : accounting.add extent = some next) :
    next.unique.toNat =
        accounting.unique.toNat + (if !extent.isShared then extent.length.toNat else 0) ∧
      next.shared.toNat =
        accounting.shared.toNat + if extent.isShared then extent.length.toNat else 0 := by
  unfold Accounting.add at added
  split at added
  · next marked =>
    obtain ⟨sum, exact, rfl⟩ := Option.map_eq_some_iff.mp added
    have isShared : extent.isShared = true := decide_eq_true marked
    simp [isShared, addWords_eq_some.mp exact]
  · next unmarked =>
    obtain ⟨sum, exact, rfl⟩ := Option.map_eq_some_iff.mp added
    have isShared : extent.isShared = false := decide_eq_false unmarked
    simp [isShared, addWords_eq_some.mp exact]

/-- The extents consumed up to the cursor. -/
structure Consumed (extents : List Extent) (cursor : Cursor) : Prop
    extends Accounts extents cursor.accounting where
  below : ∀ extent ∈ extents, extent.stop ≤ cursor.offset.toNat

theorem Consumed.nil : Consumed [] {} where
  ordered := List.Pairwise.nil
  positive := by simp
  fits := by simp
  accountable := by simp
  unique := rfl
  shared := rfl
  below := by simp

variable {extents : List Extent} {cursor : Cursor}

/-- An extent that starts at or after the cursor keeps the order. -/
theorem Consumed.concat (consumed : Consumed extents cursor) {extent : Extent} {next : Cursor}
    (accountable : extent.flags &&& ~~~accountableFlags = 0) (positive : extent.length ≠ 0)
    (after : cursor.offset ≤ extent.logical) (offset : next.offset.toNat = extent.stop)
    (added : cursor.accounting.add extent = some next.accounting) :
    Consumed (extents ++ [extent]) next := by
  have sums := Accounting.add_eq_some added
  have start : cursor.offset.toNat ≤ extent.logical.toNat := UInt64.le_iff_toNat_le.mp after
  have here : extent.stop < 2 ^ 64 := offset ▸ next.offset.toNat_lt
  have each : ∀ {P : Extent → Prop}, (∀ e ∈ extents, P e) → P extent → ∀ e ∈ extents ++ [extent],
      P e := by
    intro P old new e mem
    rcases List.mem_append.mp mem with mem | mem
    · exact old e mem
    · rw [List.mem_singleton.mp mem]
      exact new
  refine { ordered := ?_, positive := each consumed.positive ?_, fits := each consumed.fits here,
           accountable := each consumed.accountable accountable, unique := ?_, shared := ?_,
           below := each (fun e mem => ?_) (Nat.le_of_eq offset.symm) }
  · refine List.pairwise_append.mpr ⟨consumed.ordered, List.pairwise_singleton _ _, ?_⟩
    intro a mem b single
    rw [List.mem_singleton.mp single]
    exact Nat.le_trans (consumed.below a mem) start
  · exact Nat.pos_of_ne_zero fun zero => positive (UInt64.toNat_inj.mp zero)
  · rw [sums.1, consumed.unique, total_concat]
  · rw [sums.2, consumed.shared, total_concat]
  · have := consumed.below e mem
    unfold Extent.stop at offset
    omega

/-! ## Results of the loops

A loop goes on with a cursor, or it returns.  Only what it returns as an accounting matters. -/

/-- The loop does not fault; it goes on with `P`, and an accounting it returns has `A`. -/
def Gives {α : Type} (m : Checked (Return ε) α) (P : α → Prop) (A : Accounting → Prop) : Prop :=
  match m with
  | .ok a => P a
  | .error (.err (.ok (some accounting))) => A accounting
  | .error (.err _) => True
  | .error (.fault _) => False

theorem Gives.bind {α β : Type} {m : Checked (Return ε) α} {rest : α → Checked (Return ε) β}
    {P : α → Prop} {Q : β → Prop} {A : Accounting → Prop} (first : Gives m P A)
    (next : ∀ a, P a → Gives (rest a) Q A) : Gives (m >>= rest) Q A := by
  match m, first with
  | .ok a, holds => exact next a holds
  | .error (.err (.ok (some _))), holds => exact holds
  | .error (.err (.ok none)), _ => exact True.intro
  | .error (.err (.error _)), _ => exact True.intro

theorem Gives.mono {α : Type} {m : Checked (Return ε) α} {P P' : α → Prop}
    {A A' : Accounting → Prop}
    (gives : Gives m P A) (imp : ∀ a, P a → P' a) (imp' : ∀ a, A a → A' a) : Gives m P' A' := by
  match m, gives with
  | .ok a, holds => exact imp a holds
  | .error (.err (.ok (some a))), holds => exact imp' a holds
  | .error (.err (.ok none)), _ => exact True.intro
  | .error (.err (.error _)), _ => exact True.intro

theorem Gives.ensure_none (p : Prop) [Decidable p] (A : Accounting → Prop) :
    Gives (ensure p (.ok none : Return ε)) (fun _ => p) A := by
  unfold ensure
  split
  · next holds => exact holds
  · exact True.intro

theorem Gives.ensure_invalid (p : Prop) [Decidable p] (message : String) (A : Accounting → Prop) :
    Gives (ensure p (invalid message : Return ε)) (fun _ => p) A := by
  unfold ensure
  split
  · next holds => exact holds
  · exact True.intro

theorem Gives.orFail {α : Type} (message : String) (o : Option α) (A : Accounting → Prop) :
    Gives (Checked.orFail (invalid message : Return ε) o) (fun a => o = some a) A := by
  cases o with
  | none => exact True.intro
  | some a => exact (rfl : some a = some a)

/-- An extent is consumed and moves the cursor on, or it is the final one and is returned at. -/
theorem visit_gives {count index : ℕ} (extent : Extent) (inside : index < extentsPerPage)
    (consumed : Consumed extents cursor) :
    Gives (visit count index cursor extent : Checked (Return ε) Cursor)
      (fun next => Consumed (extents ++ [extent]) next ∧ cursor.offset < next.offset)
      fun accounting => Accounts (extents ++ [extent]) accounting ∧ index + 1 = count ∧
        extent.flags &&& lastFlag ≠ 0 := by
  unfold visit
  refine (Gives.ensure_none _ _).bind fun _ accountable => ?_
  refine (Gives.ensure_invalid _ _ _).bind fun _ room => ?_
  refine (Gives.orFail _ _ _).bind fun offset sum => ?_
  refine (Gives.orFail _ _ _).bind fun accounting added => ?_
  have taken : Consumed (extents ++ [extent]) { offset := offset, accounting := accounting } :=
    consumed.concat accountable room.1 room.2 (addWords_eq_some.mp sum) added
  split
  · next isLast =>
    have small : index + 1 < 2 ^ 64 := by
      unfold extentsPerPage at inside
      omega
    show Gives (word 64 (index + 1) >>= fun following => _) _ _
    rw [word_of small]
    exact (Gives.ensure_invalid (index + 1 = count) _ _).bind fun _ final =>
      ⟨taken.toAccounts, final, isLast⟩
  · have positive := taken.positive extent (by simp)
    have start := UInt64.le_iff_toNat_le.mp room.2
    have stop := addWords_eq_some.mp sum
    exact ⟨taken, UInt64.lt_iff_toNat_lt.mpr (show cursor.offset.toNat < offset.toNat by omega)⟩

/-- The loop over a page consumes it whole, or returns at its last extent. -/
theorem visitFrom_gives (batch : List Extent) (index : ℕ)
    (inside : index + batch.length ≤ extentsPerPage) (consumed : Consumed extents cursor) :
    Gives (visitFrom (index + batch.length) index cursor batch : Checked (Return ε) Cursor)
      (fun next => Consumed (extents ++ batch) next ∧
        cursor.offset.toNat + batch.length ≤ next.offset.toNat)
      fun accounting => Accounts (extents ++ batch) accounting ∧
        ∃ extent, batch.getLast? = some extent ∧ extent.flags &&& lastFlag ≠ 0 := by
  induction batch generalizing index extents cursor with
  | nil =>
    rw [List.append_nil]
    exact ⟨consumed, Nat.le_refl _⟩
  | cons extent rest ih =>
    rw [List.length_cons] at inside ⊢
    unfold visitFrom
    refine Gives.bind ((visit_gives extent (by omega) consumed).mono (fun _ on => on) ?_) ?_
    · rintro accounting ⟨accounts, final, isLast⟩
      -- the `LAST` extent is returned at only when nothing follows it
      have alone : rest = [] := List.length_eq_zero_iff.mp (by omega)
      subst alone
      exact ⟨accounts, extent, rfl, isLast⟩
    · rintro next ⟨on, moved⟩
      have later := ih (index + 1) (by omega) on
      rw [List.append_assoc, List.singleton_append, Nat.add_right_comm] at later
      refine later.mono ?_ ?_
      · rintro final ⟨all, further⟩
        have := UInt64.lt_iff_toNat_lt.mp moved
        exact ⟨all, by omega⟩
      · rintro accounting ⟨accounts, final, isFinal, isLast⟩
        refine ⟨accounts, final, ?_, isLast⟩
        rw [List.getLast?_cons, isFinal]
        rfl

/-- A page that does not end the map moves the cursor on. -/
theorem readPage_gives (batch : List Extent) (consumed : Consumed extents cursor) :
    Gives (readPage cursor batch : Checked (Return ε) Cursor)
      (fun next => Consumed (extents ++ batch) next ∧ cursor.offset < next.offset)
      fun accounting => Accounts (extents ++ batch) accounting ∧ Ended [batch] := by
  unfold readPage
  refine (Gives.ensure_invalid _ _ _).bind fun _ inside => ?_
  by_cases empty : batch = []
  · subst empty
    rw [List.append_nil]
    exact ⟨consumed.toAccounts, [], rfl, .inl rfl⟩
  · rw [ensure_of empty]
    have whole := visitFrom_gives batch 0 (by omega) consumed (ε := ε)
    rw [Nat.zero_add] at whole
    show Gives (visitFrom batch.length 0 cursor batch >>= fun next => _) _ _
    refine Gives.bind (whole.mono (fun _ on => on) fun _ ended => ?_) fun next on => ?_
    · exact ⟨ended.1, batch, rfl, .inr ended.2⟩
    · have some := List.length_pos_iff.mpr empty
      refine (Gives.ensure_none _ _).bind fun _ _ => ⟨on.1, UInt64.lt_iff_toNat_lt.mpr ?_⟩
      have := on.2
      omega

/-! ## The walk -/

/-- What is known of a walk, or of the rest of one that is about to ask for `page` at `cursor` with
`extents` behind it. -/
structure Walked (replies : ℕ → Except ε (List Extent)) (extents : List Extent) (cursor : Cursor)
    (left page : ℕ) (outcome : List UInt64 × Except Fault (Return ε)) : Prop where
  pages : outcome.1.length ≤ left
  forward : outcome.1.Pairwise (· < ·)
  after : ∀ offset ∈ outcome.1, cursor.offset ≤ offset
  total : ∃ result, outcome.2 = .ok result
  accounts : ∀ accounting, outcome.2 = .ok (.ok (some accounting)) →
    ∃ batches, (List.range' page outcome.1.length).map replies = batches.map .ok ∧
      Accounts (extents ++ batches.flatten) accounting ∧ Ended batches

/-- A walk that stops at this page. -/
theorem Walked.stop {replies : ℕ → Except ε (List Extent)} {left page : ℕ} {result : Return ε}
    (accounts : ∀ accounting, result = .ok (some accounting) →
      ∃ batch, replies page = .ok batch ∧ Accounts (extents ++ batch) accounting ∧ Ended [batch]) :
    Walked replies extents cursor (left + 1) page ([cursor.offset], .ok result) where
  pages := by simp
  forward := List.pairwise_singleton _ _
  after offset mem := by
    rw [List.mem_singleton.mp mem]
    exact UInt64.le_refl _
  total := ⟨result, rfl⟩
  accounts accounting same := by
    obtain ⟨batch, replied, here, ended⟩ := accounts accounting (Except.ok.inj same)
    refine ⟨[batch], ?_, ?_, ended⟩
    · simp [replied]
    · simpa using here

/-- A walk that goes on after this page. -/
theorem Walked.next {replies : ℕ → Except ε (List Extent)} {extents batch : List Extent}
    {cursor next : Cursor} {left page : ℕ} {outcome : List UInt64 × Except Fault (Return ε)}
    (replied : replies page = .ok batch) (moved : cursor.offset < next.offset)
    (rest : Walked replies (extents ++ batch) next left (page + 1) outcome) :
    Walked replies extents cursor (left + 1) page (cursor.offset :: outcome.1, outcome.2) where
  pages := by
    have := rest.pages
    simp only [List.length_cons]
    omega
  forward := by
    refine List.pairwise_cons.mpr ⟨fun offset mem => ?_, rest.forward⟩
    exact UInt64.lt_of_lt_of_le moved (rest.after offset mem)
  after offset mem := by
    rcases List.mem_cons.mp mem with rfl | mem
    · exact UInt64.le_refl _
    · exact UInt64.le_of_lt (UInt64.lt_of_lt_of_le moved (rest.after offset mem))
  total := rest.total
  accounts accounting same := by
    obtain ⟨batches, answered, accounts, last, isLast, ended⟩ := rest.accounts accounting same
    refine ⟨batch :: batches, ?_, ?_, last, ?_, ended⟩
    · rw [List.length_cons, List.range'_succ, List.map_cons, List.map_cons, replied, answered]
    · rw [List.flatten_cons, ← List.append_assoc]
      exact accounts
    · rw [List.getLast?_cons, isLast]
      rfl

/-- The induction is on the pages that are left. -/
theorem walkPages_walked (replies : ℕ → Except ε (List Extent)) (left page : ℕ)
    (consumed : Consumed extents cursor) :
    Walked replies extents cursor left page (walkPages replies left page cursor) := by
  induction left generalizing page extents cursor with
  | zero =>
    exact { pages := Nat.le_refl _, forward := List.Pairwise.nil, after := by simp [walkPages],
            total := ⟨.ok none, rfl⟩, accounts := fun _ same => nomatch same }
  | succ left ih =>
    unfold walkPages
    cases replied : replies page with
    | error e => exact Walked.stop fun _ same => nomatch same
    | ok batch =>
      have gives := readPage_gives (ε := ε) batch consumed
      dsimp only
      generalize readPage cursor batch = read at gives ⊢
      match read, gives with
      | .ok next, on => exact Walked.next replied on.2 (ih (page + 1) on.1)
      | .error (.err (.ok (some accounting))), ended =>
        refine Walked.stop fun a same => ⟨batch, replied, ?_⟩
        obtain rfl : accounting = a := Option.some.inj (Except.ok.inj same)
        exact ended
      | .error (.err (.ok none)), _ => exact Walked.stop fun _ same => nomatch same
      | .error (.err (.error _)), _ => exact Walked.stop fun _ same => nomatch same

/-- **Extent accounting.**  Whatever the replies are, a walk asks for at most 64 pages, at strictly
increasing offsets, and its arithmetic never overflows.  If it returns an accounting, the extents of
the pages it asked for are in increasing order and disjoint, have only accountable flags, add up to
the two totals, and were ended by an empty page or a final `LAST`. -/
theorem walk_accounts (replies : ℕ → Except ε (List Extent)) :
    (walk replies).1.length ≤ 64 ∧ (walk replies).1.Pairwise (· < ·) ∧
      (∃ result, (walk replies).2 = .ok result) ∧
      ∀ accounting, (walk replies).2 = .ok (.ok (some accounting)) →
        ∃ batches, (List.range (walk replies).1.length).map replies = batches.map .ok ∧
          Accounts batches.flatten accounting ∧ Ended batches := by
  have walked : Walked replies [] {} maxPages 0 (walk replies) :=
    walkPages_walked replies _ _ Consumed.nil
  refine ⟨walked.pages, walked.forward, walked.total, fun accounting same => ?_⟩
  rw [List.range_eq_range']
  exact walked.accounts accounting same

/-- The replies for a file of two pages that shares all it has. -/
def twoPages (page : ℕ) : Except Unit (List Extent) :=
  .ok (if page = 0 then [⟨4096, 4096, 0x2000⟩] else [⟨16384, 8192, 0x2001⟩])

theorem walk_twoPages : walk twoPages = ([0, 8192], .ok (.ok (some ⟨0, 12288⟩))) := by
  decide +kernel

/-- An accounting of both pages is returned. -/
theorem walk_accounts_twoPages : ∃ batches : List (List Extent),
    (List.range 2).map twoPages = batches.map .ok ∧ Accounts batches.flatten ⟨0, 12288⟩ ∧
      Ended batches := by
  have accounts := (walk_accounts twoPages).2.2.2
  rw [walk_twoPages] at accounts
  exact accounts _ rfl

theorem Accounts.pos_iff {accounting : Accounting} (accounts : Accounts extents accounting)
    {word : UInt64} {p : Extent → Bool} (sum : word.toNat = total p extents) :
    word > 0 ↔ ∃ extent ∈ extents, p extent = true := by
  rw [gt_iff_lt, UInt64.lt_iff_toNat_lt, sum, total, UInt64.toNat_zero,
    List.sum_pos_iff_exists_pos_nat]
  constructor
  · rintro ⟨_, mem, -⟩
    obtain ⟨extent, mem, -⟩ := List.mem_map.mp mem
    exact ⟨extent, List.mem_filter.mp mem⟩
  · rintro ⟨extent, mem, counted⟩
    exact ⟨_, List.mem_map_of_mem (List.mem_filter.mpr ⟨mem, counted⟩),
      accounts.positive extent mem⟩

/-- What a walk is for: its verdict that a file shares nothing, or all it has, is true of the
extents on the pages it asked for. -/
theorem walk_sharing (replies : ℕ → Except ε (List Extent)) {accounting : Accounting}
    (done : (walk replies).2 = .ok (.ok (some accounting))) :
    ∃ batches : List (List Extent), (List.range (walk replies).1.length).map replies =
      batches.map .ok ∧
      (accounting.sharing = .none ↔ ∀ extent ∈ batches.flatten, extent.isShared = false) ∧
      (accounting.sharing = .full ↔ (∃ extent ∈ batches.flatten, extent.isShared = true) ∧
        ∀ extent ∈ batches.flatten, extent.isShared = true) := by
  have walked : Walked replies [] {} maxPages 0 (walk replies) :=
    walkPages_walked replies _ _ Consumed.nil
  obtain ⟨batches, replied, accounts, -⟩ := walked.accounts accounting done
  have verdict : (accounting.sharing = .none ↔ ¬ accounting.shared > 0) ∧
      (accounting.sharing = .full ↔ accounting.shared > 0 ∧ ¬ accounting.unique > 0) := by
    unfold Accounting.sharing
    split_ifs <;> simp_all
  refine ⟨batches, List.range_eq_range' ▸ replied, ?_⟩
  rw [verdict.1, verdict.2, accounts.pos_iff accounts.shared, accounts.pos_iff accounts.unique]
  simp

/-- The verdict on the two pages. -/
theorem walk_sharing_full : ∃ batches : List (List Extent),
    (List.range (walk twoPages).1.length).map twoPages = batches.map .ok ∧
      ∀ extent ∈ batches.flatten, extent.isShared = true := by
  obtain ⟨batches, replied, -, full⟩ := walk_sharing twoPages (congrArg Prod.snd walk_twoPages)
  exact ⟨batches, replied, (full.mp (by decide)).2⟩

end Kache.Fs
