import Kache.Foundation.Ascii
import Kache.Foundation.Checks
import Kache.Foundation.Parts
import Kache.Foundation.UnixPath
import Mathlib.Data.List.Infix
import Mathlib.Data.List.Sort

/-!
# Rebinding the descriptors of a jobserver

A make process passes its jobserver on in an environment variable, as the numbers of two descriptors
(`--jobserver-auth=3,4`).  A process that receives the descriptors under other numbers writes these
into the variable, and leaves everything else as it was (`rewrite`).

A value whose options can be read is a text before the first pair of numbers, and slots: each pair
of numbers with the text after it (`ReadAs`).  `pairs` finds the places of the slots and `rewrite`
puts other numbers there, and whatever the numbers are, they are read there again (`Layout`).
-/

namespace Kache.Jobserver

open Ascii Parts

/-! ## The code -/

abbrev Env := List (OsStr × OsStr)

/-- `VARIABLES`. -/
def relevantNames : List OsStr := [utf8 "CARGO_MAKEFLAGS", utf8 "MAKEFLAGS", utf8 "MFLAGS"]

/-- `descriptors::MAX_DESCRIPTORS`. -/
def maxDescriptors : ℕ := 64

/-- `i32::MAX`. -/
def i32Max : ℕ := 2147483647

/-- `Descriptors`: open descriptors, whose numbers are not negative. -/
structure Descriptors where
  files : List ℕ
  raw : ∀ fd ∈ files, fd ≤ i32Max
  few : files.length ≤ maxDescriptors - 4

/-- `Pair`: the place of the two numbers, from `start` up to `stop`, and the numbers. -/
structure Pair where
  start : ℕ
  stop : ℕ
  read : ℕ
  write : ℕ

/-- `invalid`. -/
def invalid : String := "unsupported jobserver descriptor flags"

/-- `i32::checked_mul` and `i32::checked_add` of numbers that are not negative. -/
def checked (n : ℕ) : Option ℕ := if n ≤ i32Max then some n else none

/-- The closure of `number`. -/
def pushDigit (number : ℕ) (byte : UInt8) : Except String ℕ :=
  if isDigit byte then
    okOr invalid ((checked (number * 10)).bind fun n => checked (n + (byte.toNat - 48)))
  else .error invalid

/-- `number`. -/
def number (bytes : OsStr) : Except String ℕ :=
  if bytes = [] then .error invalid else bytes.foldlM pushDigit 0

def comma : UInt8 := 44

/-- The options of a jobserver, with their equals sign. -/
def flags : List OsStr := [utf8 "--jobserver-auth=", utf8 "--jobserver-fds="]

/-- The two numbers behind a flag; none for a named pipe. -/
def readAuth (auth : OsStr) : Except String (Option (ℕ × ℕ)) :=
  if (utf8 "fifo:").isPrefixOf auth then .ok none
  else do
    let place ← okOr invalid (auth.findIdx? (· = comma))
    let read ← number (auth.take place)
    let write ← number (auth.drop (place + 1))
    return some (read, write)

/-- The inner loop of `pairs`, over the flags: the length of the flag the token has and the numbers
behind it. -/
def readToken (token : OsStr) : List OsStr → Except String (Option (ℕ × ℕ × ℕ))
  | [] => .ok none
  | flag :: flags =>
    if token = flag.dropLast then .error invalid
    else if flag.isPrefixOf token then
      (readAuth (token.drop flag.length)).map fun numbers => numbers.map (flag.length, ·)
    else readToken token flags

/-- A part of a value without the white space that ends it. -/
def tokenOf (part : OsStr) : OsStr :=
  part.take (part.length - if part.getLast?.any isWhitespace then 1 else 0)

/-- The outer loop of `pairs`, over the parts of the value. -/
def pairsFrom : ℕ → List OsStr → Except String (List Pair)
  | _, [] => .ok []
  | offset, part :: parts => do
      let found ← readToken (tokenOf part) flags
      let rest ← pairsFrom (offset + part.length) parts
      return (found.map fun (front, read, write) =>
        (⟨offset + front, offset + (tokenOf part).length, read, write⟩ : Pair)).toList ++ rest

/-- `pairs`. -/
def pairs (value : OsStr) : Except String (List Pair) :=
  pairsFrom 0 (splitInclusive isWhitespace value)

/-- `relevant`. -/
def relevant (key : OsStr) : Bool := relevantNames.any (key = ·)

/-- `BTreeSet::insert`. -/
def insertFd (fd : ℕ) (fds : List ℕ) : List ℕ :=
  if fd ∈ fds then fds else fds.orderedInsert (· ≤ ·) fd

/-- The numbers of all relevant variables, in order and each once. -/
def collectFds : Env → List ℕ → Except String (List ℕ)
  | [], fds => .ok fds
  | (key, value) :: env, fds =>
    if relevant key then do
      let found ← pairs value
      collectFds env
        (found.foldl (fun fds pair => insertFd pair.write (insertFd pair.read fds)) fds)
    else collectFds env fds

/-- `original_fds`. -/
def originalFds (env : Env) : Except String (List ℕ) := do
  let fds ← collectFds env []
  bailIf (maxDescriptors - 4 < fds.length) invalid
  return fds

/-- The closure `new_fd`.  The search is one in an ordered list (`pairwise_originalFds`), and the
two lists are of one length where it is called. -/
def newFd (originals : List ℕ) (received : Descriptors) (fd : ℕ) : Except String ℕ :=
  okOr invalid ((originals.findIdx? (· = fd)).bind fun index => received.files[index]?)

/-- A number as it is formatted. -/
def decimal (n : ℕ) : OsStr := utf8 (toString n)

/-- `format!("{},{}", read, write)`. -/
def shown (read write : ℕ) : OsStr := decimal read ++ comma :: decimal write

/-- The loop over the pairs of a value: what is still to be put out from a position on. -/
def rewriteFrom (rebind : ℕ → Except String ℕ) (value : OsStr) : ℕ → List Pair → Except String OsStr
  | position, [] => .ok (value.drop position)
  | position, pair :: rest => do
      let read ← rebind pair.read
      let write ← rebind pair.write
      let output ← rewriteFrom rebind value pair.stop rest
      return (value.drop position).take (pair.start - position) ++ (shown read write ++ output)

/-- What `rewrite` makes of one variable. -/
def rewriteEntry (originals : List ℕ) (received : Descriptors) (entry : OsStr × OsStr) :
    Except String (OsStr × OsStr) :=
  if relevant entry.1 then do
    let found ← pairs entry.2
    let output ← rewriteFrom (newFd originals received) entry.2 0 found
    return (entry.1, output)
  else .ok entry

/-- `rewrite`. -/
def rewrite (env : Env) (originals : List ℕ) (received : Descriptors) : Except String Env := do
  let fds ← originalFds env
  bailIf (originals ≠ fds ∨ originals.length ≠ received.files.length) invalid
  env.mapM (rewriteEntry originals received)

/-! ## What a rebinding is -/

/-- The two numbers of an option, their text and the text up to the next. -/
structure Slot where
  text : OsStr
  read : ℕ
  write : ℕ
  after : OsStr

def joined (slots : List Slot) : OsStr := slots.flatMap fun slot => slot.text ++ slot.after

/-- The places of the numbers, when the first text begins at a position. -/
def placesFrom : ℕ → List Slot → List Pair
  | _, [] => []
  | position, slot :: slots =>
    ⟨position, position + slot.text.length, slot.read, slot.write⟩ ::
      placesFrom (position + slot.text.length + slot.after.length) slots

/-- A value is a text and slots behind it, and its options are read at the places of the slots. -/
structure ReadAs (value head : OsStr) (slots : List Slot) : Prop where
  text : value = head ++ joined slots
  read : pairs value = .ok (placesFrom head.length slots)

/-- A number and the received descriptor at its place. -/
def Rebound (originals received : List ℕ) (fd fd' : ℕ) : Prop :=
  ∃ index : ℕ, originals[index]? = some fd ∧ received[index]? = some fd'

/-- The new value has the same text around the numbers of its options, and is read as the same
options with every number rebound. -/
def Rebinds (originals received : List ℕ) (value value' : OsStr) : Prop :=
  ∃ head slots slots', ReadAs value head slots ∧ ReadAs value' head slots' ∧
    List.Forall₂ (fun slot slot' => slot'.after = slot.after ∧
      Rebound originals received slot.read slot'.read ∧
      Rebound originals received slot.write slot'.write) slots slots'

/-! ## Numbers -/

/-- The byte of a digit. -/
theorem utf8EncodeChar_digit {c : Char} (digit : c.isDigit = true) :
    String.utf8EncodeChar c = [UInt8.ofNat c.toNat] ∧ (UInt8.ofNat c.toNat).toNat = c.toNat ∧
      isDigit (UInt8.ofNat c.toNat) = true := by
  rw [Char.isDigit, Bool.and_eq_true, decide_eq_true_eq, decide_eq_true_eq] at digit
  have low : 48 ≤ c.toNat := UInt32.le_iff_toNat_le.mp digit.1
  have high : c.toNat ≤ 57 := UInt32.le_iff_toNat_le.mp digit.2
  have same : (UInt8.ofNat c.toNat).toNat = c.toNat := by
    rw [UInt8.toNat_ofNat']
    omega
  refine ⟨if_pos (show c.toNat ≤ 127 by omega), same, ?_⟩
  simp [isDigit, UInt8.le_iff_toNat_le, same, low, high]

variable {n read write : ℕ} {flag body tail text head : OsStr} {slots : List Slot}

theorem isDigit_toDigits : ∀ c ∈ Nat.toDigits 10 n, c.isDigit = true := fun _ mem =>
  Nat.isDigit_of_mem_toDigits (by decide) (by decide) mem

/-- What is written for a number is its digits. -/
theorem decimal_eq (n : ℕ) : decimal n = (Nat.toDigits 10 n).map fun c => UInt8.ofNat c.toNat := by
  rw [decimal, utf8, Nat.toString_eq_repr, Nat.toList_repr, List.map_eq_flatMap]
  exact List.flatMap_congr fun c mem => (utf8EncodeChar_digit (isDigit_toDigits c mem)).1

theorem isDigit_of_mem {b : UInt8} (mem : b ∈ decimal n) : isDigit b = true := by
  rw [decimal_eq] at mem
  obtain ⟨c, inside, rfl⟩ := List.mem_map.mp mem
  exact (utf8EncodeChar_digit (isDigit_toDigits c inside)).2.2

theorem decimal_ne_nil (n : ℕ) : decimal n ≠ [] := by
  rw [decimal_eq]
  simp [Nat.toDigits_ne_nil]

theorem le_ofDigitChars (word : List Char) (n : ℕ) : n ≤ Nat.ofDigitChars 10 word n := by
  induction word generalizing n with
  | nil => exact le_rfl
  | cons c word ih =>
    rw [Nat.ofDigitChars_cons]
    refine le_trans ?_ (ih _)
    omega

theorem foldlM_pushDigit {word : List Char} (digits : ∀ c ∈ word, c.isDigit = true)
    (fits : Nat.ofDigitChars 10 word n ≤ i32Max) :
    (word.map fun c => UInt8.ofNat c.toNat).foldlM pushDigit n =
      .ok (Nat.ofDigitChars 10 word n) := by
  induction word generalizing n with
  | nil => rfl
  | cons c word ih =>
    obtain ⟨first, digits⟩ := List.forall_mem_cons.mp digits
    obtain ⟨-, same, digit⟩ := utf8EncodeChar_digit first
    rw [Nat.ofDigitChars_cons] at fits ⊢
    have bound := (le_ofDigitChars word _).trans fits
    have zero : '0'.toNat = 48 := rfl
    have pushed : pushDigit n (UInt8.ofNat c.toNat) = .ok (10 * n + (c.toNat - '0'.toNat)) := by
      rw [pushDigit, if_pos digit, same, checked, if_pos (by omega), Option.bind_some, checked,
        if_pos (by omega), Nat.mul_comm]
      rfl
    rw [List.map_cons, List.foldlM_cons, pushed]
    exact ih digits fits

/-- A number that is written is read. -/
theorem number_toString (fits : n ≤ i32Max) : number (decimal n) = .ok n := by
  have value : Nat.ofDigitChars 10 (Nat.toDigits 10 n) 0 = n := Nat.ofDigitChars_ten_toDigits
  rw [number, if_neg (decimal_ne_nil n), decimal_eq,
    foldlM_pushDigit isDigit_toDigits (value.symm ▸ fits), value]

theorem comma_notMem (n : ℕ) : comma ∉ decimal n := fun mem => by
  have digit := isDigit_of_mem mem
  revert digit
  decide

theorem readAuth_shown (fitsRead : read ≤ i32Max) (fitsWrite : write ≤ i32Max) :
    readAuth (shown read write) = .ok (some (read, write)) := by
  have place : (shown read write).findIdx? (· = comma) = some (decimal read).length := by
    have free : (decimal read).findIdx? (· = comma) = none :=
      List.findIdx?_eq_none_iff.mpr fun b mem => by
        simpa using fun same : b = comma => comma_notMem read (same ▸ mem)
    rw [shown, List.findIdx?_append, free, Option.none_or, List.findIdx?_cons]
    simp
  have named : (utf8 "fifo:").isPrefixOf (shown read write) = false := by
    rcases digits : decimal read with _ | ⟨b, rest⟩
    · exact absurd digits (decimal_ne_nil read)
    · have digit : isDigit b = true :=
          isDigit_of_mem (n := read) (by rw [digits]; exact List.mem_cons_self)
      have other : (102 == b) = false := by
        rw [beq_eq_false_iff_ne]
        rintro rfl
        revert digit
        decide
      rw [shown, digits]
      exact congrArg (· && _) other
  rw [readAuth, named, place, shown]
  simp [okOr, number_toString fitsRead, number_toString fitsWrite, bind, Except.bind,
    pure, Except.pure]

/-! ## Tokens -/

theorem not_isWhitespace_shown (read write : ℕ) : ∀ b ∈ shown read write,
    isWhitespace b = false := by
  intro b mem
  rcases List.mem_append.mp mem with mem | mem
  · exact not_isWhitespace_of_isDigit (isDigit_of_mem mem)
  · rcases List.mem_cons.mp mem with rfl | mem
    · rfl
    · exact not_isWhitespace_of_isDigit (isDigit_of_mem mem)

theorem not_isWhitespace_flag (mem : flag ∈ flags) : ∀ b ∈ flag, isWhitespace b = false := by
  have all : flags.all (·.all (! isWhitespace ·)) = true := by decide +kernel
  intro b inside
  simpa using List.all_eq_true.mp (List.all_eq_true.mp all flag mem) b inside

theorem exists_flag_of_readToken {token : OsStr} {flags : List OsStr} {front : ℕ}
    (found : readToken token flags = .ok (some (front, read, write))) :
    ∃ flag ∈ flags, ∃ auth, token = flag ++ auth ∧ front = flag.length := by
  induction flags with
  | nil => cases found
  | cons flag flags ih =>
    rw [readToken] at found
    split at found
    · cases found
    · split at found
      next begins =>
        obtain ⟨auth, rfl⟩ := List.isPrefixOf_iff_prefix.mp begins
        obtain ⟨numbers, -, same⟩ := map_eq_ok.mp found
        obtain ⟨_, -, made⟩ := Option.map_eq_some_iff.mp same
        exact ⟨flag, List.mem_cons_self, auth, rfl, (congrArg Prod.fst made).symm⟩
      next =>
        obtain ⟨other, mem, rest⟩ := ih found
        exact ⟨other, List.mem_cons_of_mem flag mem, rest⟩

/-- The first of the flags that a token begins with. -/
theorem readToken_flag {auth : OsStr} {others : List OsStr} (equals : flag ≠ []) :
    readToken (flag ++ auth) (flag :: others) = (readAuth auth).map fun numbers =>
      numbers.map (flag.length, ·) := by
  have longer : flag ++ auth ≠ flag.dropLast := by
    intro same
    have length := congrArg List.length same
    have positive := List.length_pos_iff.mpr equals
    rw [List.length_append, List.length_dropLast] at length
    omega
  rw [readToken, if_neg longer,
    if_pos (List.isPrefixOf_iff_prefix.mpr (List.prefix_append flag auth)), List.drop_left]

/-- The two flags part within their first bytes. -/
theorem readToken_fds (auth : OsStr) : readToken (utf8 "--jobserver-fds=" ++ auth) flags =
    readToken (utf8 "--jobserver-fds=" ++ auth) [utf8 "--jobserver-fds="] := by
  have parts : ¬ (utf8 "--jobserver-auth=").take 13 <+: utf8 "--jobserver-fds=" ++ auth := by
    intro begins
    have front := begins.take 13
    rw [List.take_append_of_le_length (by decide +kernel)] at front
    revert front
    decide +kernel
  have flag : ¬ (utf8 "--jobserver-auth=").isPrefixOf (utf8 "--jobserver-fds=" ++ auth) :=
    fun begins =>
    parts ((List.take_prefix 13 _).trans (List.isPrefixOf_iff_prefix.mp begins))
  have bare : utf8 "--jobserver-fds=" ++ auth ≠ (utf8 "--jobserver-auth=").dropLast := by
    intro same
    apply parts
    rw [same]
    decide +kernel
  rw [flags, readToken, if_neg bare, if_neg flag]

/-- A flag with numbers that were written. -/
theorem readToken_shown (mem : flag ∈ flags) (fitsRead : read ≤ i32Max)
    (fitsWrite : write ≤ i32Max) :
    readToken (flag ++ shown read write) flags = .ok (some (flag.length, read, write)) := by
  rcases List.mem_pair.mp mem with rfl | rfl
  · rw [flags, readToken_flag (by decide +kernel), readAuth_shown fitsRead fitsWrite]
    rfl
  · rw [readToken_fds, readToken_flag (by decide +kernel), readAuth_shown fitsRead fitsWrite]
    rfl

theorem tokenOf_part (free : ∀ b ∈ body, isWhitespace b = false)
    (closes : Closes isWhitespace tail text) : tokenOf (body ++ tail) = body := by
  rcases closes with ⟨c, stops, rfl⟩ | ⟨rfl, -⟩
  · simp [tokenOf, stops]
  · have open_ : (body.getLast?.any isWhitespace) = false := by
      rcases last : body.getLast? with _ | b
      · rfl
      · exact free b (List.mem_of_getLast? last)
    rw [List.append_nil, tokenOf, open_]
    simp

/-! ## The layout of a value -/

def Slot.renumber (f : ℕ → ℕ) (slot : Slot) : Slot :=
  ⟨shown (f slot.read) (f slot.write), f slot.read, f slot.write, slot.after⟩

/-- A value that is read at every offset as the places of a layout, whatever its numbers. -/
structure Layout (value head : OsStr) (slots : List Slot) : Prop where
  split : value = head ++ joined slots
  empty : value = [] → slots = []
  reread : ∀ f : ℕ → ℕ, (∀ fd, f fd ≤ i32Max) → ∀ offset,
    pairsFrom offset (splitInclusive isWhitespace (head ++ joined (slots.map (Slot.renumber f)))) =
      .ok (placesFrom (offset + head.length) (slots.map (Slot.renumber f)))

theorem pairsFrom_part (free : ∀ b ∈ body, isWhitespace b = false)
    (closes : Closes isWhitespace tail text) (nonempty : body ++ tail ≠ []) (offset : ℕ) :
    pairsFrom offset (splitInclusive isWhitespace (body ++ (tail ++ text))) = (do
      let found ← readToken body flags
      let rest ← pairsFrom (offset + (body ++ tail).length) (splitInclusive isWhitespace text)
      return (found.map fun (front, read, write) =>
        (⟨offset + front, offset + body.length, read, write⟩ : Pair)).toList ++ rest) := by
  rw [splitInclusive_part free closes nonempty, pairsFrom, tokenOf_part free closes]

/-- What may follow a part may follow it with other numbers. -/
theorem Layout.closes (layout : Layout text head slots) (closes : Closes isWhitespace tail text)
    (f : ℕ → ℕ) :
    Closes isWhitespace tail (head ++ joined (slots.map (Slot.renumber f))) := by
  rcases closes with stops | ⟨rfl, empty⟩
  · exact .inl stops
  · obtain rfl := layout.empty empty
    refine .inr ⟨rfl, ?_⟩
    rw [← empty, layout.split]
    rfl

/-- A part that is no option is text before what follows. -/
theorem Layout.skip (layout : Layout text head slots) (free : ∀ b ∈ body, isWhitespace b = false)
    (closes : Closes isWhitespace tail text) (nonempty : body ++ tail ≠ [])
    (none : readToken body flags = .ok none) :
    Layout (body ++ (tail ++ text)) (body ++ tail ++ head) slots where
  split := by rw [layout.split]; simp only [List.append_assoc]
  empty whole := by simp_all
  reread f fits offset := by
    have length : (body ++ tail ++ head).length = (body ++ tail).length + head.length :=
      List.length_append
    rw [List.append_assoc, List.append_assoc,
      pairsFrom_part free (layout.closes closes f) nonempty, none,
      layout.reread f fits, length, Nat.add_assoc]
    rfl

/-- An option is its flag, the numbers, and what follows. -/
theorem Layout.option {auth : OsStr} (layout : Layout text head slots)
    (closes : Closes isWhitespace tail text) (mem : flag ∈ flags) (read write : ℕ) :
    Layout (flag ++ auth ++ (tail ++ text)) flag (⟨auth, read, write, tail ++ head⟩ :: slots) where
  split := by
    rw [layout.split]
    simp [joined]
  empty whole := by
    have nonempty : flag ≠ [] := by
      rintro rfl
      revert mem
      decide +kernel
    simp_all
  reread f fits offset := by
    have free : ∀ b ∈ flag ++ shown (f read) (f write), isWhitespace b = false := fun b inside =>
      (List.mem_append.mp inside).elim (not_isWhitespace_flag mem b) (not_isWhitespace_shown _ _ b)
    have again := pairsFrom_part free (layout.closes closes f) (by simp [shown]) offset
    rw [readToken_shown mem (fits read) (fits write), layout.reread f fits] at again
    simp only [List.map_cons, Slot.renumber, joined, List.flatMap_cons, placesFrom,
      List.append_assoc] at again ⊢
    rw [again]
    simp [bind, Except.bind, pure, Except.pure, Nat.add_assoc]

/-- A value whose options can be read has a layout, and they are read there. -/
theorem exists_layout {value : OsStr} : ∀ {offset : ℕ} {found : List Pair},
    pairsFrom offset (splitInclusive isWhitespace value) = .ok found →
    ∃ head slots, Layout value head slots ∧ found = placesFrom (offset + head.length) slots := by
  induction value using parts_induction isWhitespace with
  | nil =>
    rintro offset found ⟨⟩
    exact ⟨[], [], ⟨rfl, fun _ => rfl, fun f _ offset => rfl⟩, rfl⟩
  | part body tail text free closes nonempty ih =>
    intro offset found done
    rw [pairsFrom_part free closes nonempty] at done
    obtain ⟨token, taken, done⟩ := bind_eq_ok.mp done
    obtain ⟨rest, later, done⟩ := bind_eq_ok.mp done
    obtain ⟨head, slots, layout, rfl⟩ := ih later
    cases done
    rcases token with _ | ⟨front, read, write⟩
    · refine ⟨_, slots, layout.skip free closes nonempty taken, ?_⟩
      simp [Nat.add_assoc]
    · obtain ⟨flag, mem, auth, rfl, rfl⟩ := exists_flag_of_readToken taken
      refine ⟨flag, _, layout.option closes mem read write, ?_⟩
      simp [placesFrom, Nat.add_assoc]

/-! ## Writing into the layout -/

theorem joined_shift (before gap : OsStr) (slot : Slot) (slots : List Slot) :
    before ++ (gap ++ joined (slot :: slots)) = (before ++ (gap ++ slot.text)) ++
      (slot.after ++ joined slots) := by
  simp [joined]

theorem length_shift (before gap text : OsStr) :
    before.length + gap.length + text.length = (before ++ (gap ++ text)).length := by
  simp [Nat.add_assoc]

theorem rewriteFrom_layout {rebind : ℕ → Except String ℕ} {f : ℕ → ℕ}
    (made : ∀ fd fd', rebind fd = .ok fd' → f fd = fd') : ∀ (before : OsStr) {gap output : OsStr},
    rewriteFrom rebind (before ++ (gap ++ joined slots)) before.length
      (placesFrom (before.length + gap.length) slots) = .ok output →
    output = gap ++ joined (slots.map (Slot.renumber f)) ∧
      ∀ slot ∈ slots, rebind slot.read = .ok (f slot.read) ∧
        rebind slot.write = .ok (f slot.write) := by
  induction slots with
  | nil =>
    rintro before gap output done
    rw [placesFrom, rewriteFrom, List.drop_left] at done
    cases done
    exact ⟨rfl, fun _ none => absurd none List.not_mem_nil⟩
  | cons slot slots ih =>
    intro before gap output done
    rw [placesFrom, rewriteFrom] at done
    obtain ⟨read, newRead, done⟩ := bind_eq_ok.mp done
    obtain ⟨write, newWrite, done⟩ := bind_eq_ok.mp done
    obtain ⟨rest, later, done⟩ := bind_eq_ok.mp done
    cases done
    obtain rfl := made _ _ newRead
    obtain rfl := made _ _ newWrite
    -- the rest of the value begins behind the numbers of this option
    rw [joined_shift, length_shift] at later
    obtain ⟨rfl, rebound⟩ := ih _ later
    refine ⟨?_, List.forall_mem_cons.mpr ⟨⟨newRead, newWrite⟩, rebound⟩⟩
    simp [joined, Slot.renumber]

/-- The new number of a descriptor; zero for one that is not listed. -/
def renumbered (originals : List ℕ) (received : Descriptors) (fd : ℕ) : ℕ :=
  (newFd originals received fd).toOption.getD 0

theorem newFd_eq_ok {originals : List ℕ} {received : Descriptors} {fd fd' : ℕ}
    (found : newFd originals received fd = .ok fd') : Rebound originals received.files fd fd' := by
  obtain ⟨index, place, there⟩ := Option.bind_eq_some_iff.mp (okOr_eq_ok.mp found)
  obtain ⟨inside, same, -⟩ := List.findIdx?_eq_some_iff_getElem.mp place
  exact ⟨index, by simpa [inside] using same, there⟩

theorem renumbered_le (originals : List ℕ) (received : Descriptors) (fd : ℕ) :
    renumbered originals received fd ≤ i32Max := by
  rw [renumbered]
  rcases found : newFd originals received fd with _ | fd'
  · exact Nat.zero_le _
  · obtain ⟨_, -, there⟩ := newFd_eq_ok found
    exact received.raw fd' (List.mem_of_getElem? there)

theorem rebinds_of_rewriteFrom {originals : List ℕ} {received : Descriptors} {value output : OsStr}
    {found : List Pair}
    (read : pairs value = .ok found)
    (done : rewriteFrom (newFd originals received) value 0 found = .ok output) :
    Rebinds originals received.files value output := by
  obtain ⟨head, slots, layout, rfl⟩ := exists_layout read
  rw [Nat.zero_add] at read done
  have made : ∀ fd fd', newFd originals received fd = .ok fd' →
      renumbered originals received fd = fd' := by
    intro fd fd' found
    rw [renumbered, found]
    rfl
  obtain rfl := layout.split
  rw [← Nat.zero_add head.length] at done
  obtain ⟨rfl, rebound⟩ := rewriteFrom_layout made [] done
  have again := layout.reread _ (renumbered_le originals received) 0
  rw [Nat.zero_add] at again
  refine ⟨head, slots, _, ⟨rfl, read⟩, ⟨rfl, again⟩,
    List.forall₂_map_right_iff.mpr (List.forall₂_same.mpr ?_)⟩
  exact fun slot mem => ⟨rfl, newFd_eq_ok (rebound slot mem).1, newFd_eq_ok (rebound slot mem).2⟩

/-! ## The numbers in order -/

theorem pairwise_insertFd {fd : ℕ} {fds : List ℕ} (sorted : fds.Pairwise (· < ·)) :
    (insertFd fd fds).Pairwise (· < ·) := by
  rw [insertFd]
  split
  · exact sorted
  next new =>
    have distinct : (fds.orderedInsert (· ≤ ·) fd).Nodup :=
      (List.perm_orderedInsert (· ≤ ·) fd fds).nodup_iff.mpr
        (List.nodup_cons.mpr ⟨new, sorted.imp Nat.ne_of_lt⟩)
    have ordered := (sorted.imp Nat.le_of_lt).orderedInsert fd fds
    exact ordered.imp₂ (fun _ _ le ne => lt_of_le_of_ne le ne) distinct

theorem pairwise_collectFds {env : Env} : ∀ {fds found : List ℕ}, fds.Pairwise (· < ·) →
    collectFds env fds = .ok found → found.Pairwise (· < ·) := by
  induction env with
  | nil =>
    rintro fds found sorted ⟨⟩
    exact sorted
  | cons entry env ih =>
    intro fds found sorted done
    rw [collectFds] at done
    split at done
    · obtain ⟨pairs, -, done⟩ := bind_eq_ok.mp done
      refine ih ?_ done
      refine List.foldlRecOn pairs _ sorted fun fds sorted pair _ => ?_
      exact pairwise_insertFd (pairwise_insertFd sorted)
    · exact ih sorted done

/-- The search in the list of the numbers is one in an ordered list. -/
theorem pairwise_originalFds {env : Env} {fds : List ℕ} (done : originalFds env = .ok fds) :
    fds.Pairwise (· < ·) := by
  obtain ⟨found, collected, done⟩ := bind_eq_ok.mp done
  obtain ⟨-, -, done⟩ := bind_eq_ok.mp done
  cases done
  exact pairwise_collectFds .nil collected

/-! ## The result -/

theorem forall₂_of_mapM {α β ε : Type} {f : α → Except ε β} {items : List α} : ∀ {made : List β},
    items.mapM f = .ok made → List.Forall₂ (fun item new => f item = .ok new) items made := by
  induction items with
  | nil =>
    rintro made ⟨⟩
    exact .nil
  | cons item items ih =>
    intro made done
    rw [List.mapM_cons] at done
    obtain ⟨new, first, done⟩ := bind_eq_ok.mp done
    obtain ⟨others, rest, done⟩ := bind_eq_ok.mp done
    cases done
    exact .cons first (ih rest)

/-- A rewritten environment has the same variables; a relevant one has its descriptors rebound and
the others are unchanged. -/
theorem rewrite_exact {env env' : Env} {originals : List ℕ} {received : Descriptors}
    (done : rewrite env originals received = .ok env') :
    originalFds env = .ok originals ∧ originals.Pairwise (· < ·) ∧
      originals.length = received.files.length ∧
      List.Forall₂ (fun entry entry' => entry'.1 = entry.1 ∧
        if relevant entry.1 then Rebinds originals received.files entry.2 entry'.2 else
          entry'.2 = entry.2) env env' := by
  obtain ⟨fds, listed, checked⟩ := bind_eq_ok.mp done
  obtain ⟨_, agree, mapped⟩ := bind_eq_ok.mp checked
  obtain ⟨same, length⟩ := not_or.mp (bailIf_eq_ok.mp agree)
  obtain rfl := not_not.mp same
  refine ⟨listed, pairwise_originalFds listed, not_not.mp length, (forall₂_of_mapM mapped).imp ?_⟩
  intro entry entry' made
  rw [rewriteEntry] at made
  split at made
  next names =>
    obtain ⟨found, read, made⟩ := bind_eq_ok.mp made
    obtain ⟨output, written, made⟩ := bind_eq_ok.mp made
    cases made
    rw [if_pos names]
    exact ⟨rfl, rebinds_of_rewriteFrom read written⟩
  next other =>
    cases made
    rw [if_neg other]
    exact ⟨rfl, rfl⟩

/-- Two descriptors that were received as 12 and 7. -/
def twoDescriptors : Descriptors := ⟨[12, 7], by decide, by decide⟩

theorem rewrite_exact_makeflags :
    rewrite [(utf8 "PATH", utf8 "/bin"), (utf8 "MAKEFLAGS", utf8 "-j --jobserver-auth=04,3 w")]
      [3, 4] twoDescriptors =
      .ok [(utf8 "PATH", utf8 "/bin"), (utf8 "MAKEFLAGS", utf8 "-j --jobserver-auth=7,12 w")] ∧
    Rebinds [3, 4] [12, 7] (utf8 "-j --jobserver-auth=04,3 w")
      (utf8 "-j --jobserver-auth=7,12 w") := by
  have done : rewrite [(utf8 "PATH", utf8 "/bin"),
      (utf8 "MAKEFLAGS", utf8 "-j --jobserver-auth=04,3 w")] [3, 4]
      twoDescriptors = .ok [(utf8 "PATH", utf8 "/bin"),
        (utf8 "MAKEFLAGS", utf8 "-j --jobserver-auth=7,12 w")] := by
    decide +kernel
  obtain ⟨-, -, -, entries⟩ := rewrite_exact done
  exact ⟨done, ((List.forall₂_cons.mp (List.forall₂_cons.mp entries).2).1).2⟩

end Kache.Jobserver
