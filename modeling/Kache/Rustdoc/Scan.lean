import Kache.Rustdoc.Tokens

/-!
# The files a Rust source refers to

`scan_rust` goes through the tokens of a source and finds the modules that are in other files and
the files included by `include!`, `include_str!` and `include_bytes!`.  An attribute `#[..]` and
what stands in the parentheses of `pub(..)` is passed over as a whole, and an invocation is
recognised only if its argument is in parentheses.  So an include is missed if it is in brackets or
braces, or if it stands in an attribute or behind `pub` (`reports_iff`).
-/

namespace Kache.Rustdoc

open Ascii Positions

/-- `Found`: what a scan of a source finds. -/
inductive Found where
  | include_ (rel : OsStr)
  | module (path : Option OsStr) (name : OsStr)
  deriving DecidableEq, Repr

/-- What `scan_rust` keeps between the tokens. -/
structure ScanState where
  found : List Found
  pendingPath : Option OsStr
  modules : List (OsStr × ℕ)
  depth : ℕ
  deriving DecidableEq, Repr

/-- Before the first token. -/
def ScanState.start : ScanState := ⟨[], none, [], 0⟩

abbrev openBracket : UInt8 := 91
abbrev closeBracket : UInt8 := 93
abbrev bang : UInt8 := 33
abbrev semicolon : UInt8 := 59

/-- The byte `=`. -/
def equals : UInt8 := 61

/-- `close_at`, so many groups deep: how many tokens stand before the one that closes. -/
def closeAt (opening closing : UInt8) : ℕ → List Tok → Option ℕ
  | _, [] => none
  | depth, tok :: rest =>
    if tok = .punct opening then (closeAt opening closing (depth + 1) rest).map (· + 1)
    else if tok = .punct closing then
      if depth - 1 = 0 then some 0 else (closeAt opening closing (depth - 1) rest).map (· + 1)
    else (closeAt opening closing depth rest).map (· + 1)

/-- `path_attribute`. -/
def pathAttribute : List Tok → Option OsStr
  | .ident name :: .punct byte :: .str text :: rest =>
    if name = utf8 "path" ∧ byte = equals then some text else
      pathAttribute (.punct byte :: .str text :: rest)
  | _ :: rest => pathAttribute rest
  | [] => none

/-- `module_name`. -/
def moduleName (modules : List (OsStr × ℕ)) (name : OsStr) : OsStr :=
  (modules.flatMap fun parent => parent.1 ++ [slash]) ++ name

/-- `is_include`. -/
def isInclude (name : OsStr) : Bool :=
  name = utf8 "include" ∨ name = utf8 "include_str" ∨ name = utf8 "include_bytes"

/-- The name behind `mod`. -/
def modName : Tok → List Tok → Option OsStr
  | .ident word, .ident name :: _ => if word = utf8 "mod" then some name else none
  | _, _ => none

/-- Whether `include!(` stands here. -/
def isIncludeCall : Tok → List Tok → Bool
  | .ident name, .punct byte :: .punct opening :: _ => isInclude name && byte = bang &&
      opening = openParen
  | _, _ => false

/-- The text of a string literal. -/
def literal : Option Tok → Option OsStr
  | some (.str text) => some text
  | _ => none

/-- `has_environment_macro`. -/
def hasEnvironmentMacro : List Tok → Bool
  | .ident name :: .punct byte :: .punct opening :: rest =>
    ((name = utf8 "env" ∨ name = utf8 "option_env") ∧ byte = bang ∧
      (opening = openParen ∨ opening = openBracket ∨ opening = openBrace)) ||
    hasEnvironmentMacro (.punct byte :: .punct opening :: rest)
  | _ :: rest => hasEnvironmentMacro rest
  | [] => false

/-- An attribute: what is in the brackets, and how many tokens it has with them. -/
def attribute_ (rest : List Tok) : Option (Option OsStr × ℕ) :=
  let inner := rest[1]? = some (.punct bang)
  let start := if inner then 2 else 1
  (closeAt openBracket closeBracket 1 (rest.drop start)).map fun length =>
    (if inner then none else pathAttribute ((rest.drop start).take length), start + length + 2)

/-- `mod name` with the token behind it. -/
def scanMod (name : OsStr) (behind : Option Tok) (s : ScanState) : ℕ × ScanState :=
  if behind = some (.punct semicolon) then
    let located := if s.pendingPath.isSome then name else moduleName s.modules name
    (3, { s with found := s.found ++ [.module s.pendingPath located], pendingPath := none })
  else if behind = some (.punct openBrace) then
    (3, { s with
      depth := s.depth + 1
      modules := s.modules ++ [(name, s.depth + 1)]
      pendingPath := none })
  else (1, { s with pendingPath := none })

/-- A closing brace. -/
def ScanState.close (s : ScanState) : ScanState :=
  if s.modules.getLast?.any (s.depth - 1 < ·.2) then
    { s with depth := s.depth - 1, modules := s.modules.dropLast }
  else { s with depth := s.depth - 1 }

/-- A token that starts nothing. -/
def scanPlain (tok : Tok) (s : ScanState) : ScanState :=
  if tok = .punct openBrace then { s with depth := s.depth + 1, pendingPath := none }
  else if tok = .punct closeBrace then s.close
  else if tok = .punct semicolon then { s with pendingPath := none }
  else s

/-- One turn of the loop of `scan_rust`. -/
def scanTurn (tok : Tok) (rest : List Tok) (s : ScanState) : Step (Except String ScanState) :=
  if tok = .punct hash ∧ rest[0]? = some (.punct openBracket) then
    match attribute_ rest with
    | none => .go 1 (.ok s)
    | some (path, length) =>
      .go length (.ok { s with pendingPath := path.orElse fun _ => s.pendingPath })
  else if tok = .ident (utf8 "pub") then
    if rest[0]? = some (.punct openParen) then
      match closeAt openParen closeParen 1 (rest.drop 1) with
      | none => .stop 1 (.ok s)
      | some length => .go (length + 3) (.ok s)
    else .go 1 (.ok s)
  else
    match modName tok rest with
    | some name => .go (scanMod name rest[1]? s).1 (.ok (scanMod name rest[1]? s).2)
    | none =>
      if isIncludeCall tok rest then
        match literal rest[2]? with
        | some text => .go 4 (.ok { s with found := s.found ++ [.include_ text] })
        | none => .stop 0 (.error "rustdoc include is not a string literal")
      else .go 1 (.ok (scanPlain tok s))

/-- The same once it may have failed. -/
def scanStep (tok : Tok) (rest : List Tok) : Except String ScanState →
    Step (Except String ScanState)
  | .error e => .stop 0 (.error e)
  | .ok s => scanTurn tok rest s

/-- `scan_rust`, from the tokens on. -/
def scanTokens (tokens : List Tok) : Except String (List Found) :=
  if hasEnvironmentMacro tokens then
    .error "rustdoc environment macros require compiler dependency tracking"
  else (read scanStep tokens (.ok ScanState.start)).2.map (·.found)

/-- `scan_rust`. -/
def scanRust (bytes : OsStr) (cStrings : Bool) : Except String (List Found) :=
  scanTokens (rustTokens bytes cStrings)

/-! ## What the scan stands at -/

/-- How many tokens are passed over here together: those of an attribute, those of a visibility, and
all that is left behind `pub(` that is not closed. -/
def covered (tok : Tok) (rest : List Tok) : ℕ :=
  if tok = .punct hash ∧ rest[0]? = some (.punct openBracket) then (attribute_ rest).elim 1 (·.2)
  else if tok = .ident (utf8 "pub") ∧ rest[0]? = some (.punct openParen) then
    (closeAt openParen closeParen 1 (rest.drop 1)).elim (rest.length + 1) (· + 3)
  else 1

/-- The places of a source outside its attributes and visibilities, each with what stands from it
on. -/
def uncovered (tokens : List Tok) : List (List Tok) :=
  pieces (fun tok rest => (tok :: rest, covered tok rest)) tokens

/-- An invocation of `include!`, `include_str!` or `include_bytes!` at the head of a text: its
delimiter, and its argument if that is a string literal. -/
def invocation : List Tok → Option (UInt8 × Option OsStr)
  | .ident name :: .punct byte :: .punct opening :: rest =>
    if isInclude name ∧ byte = bang ∧
      (opening = openParen ∨ opening = openBracket ∨ opening = openBrace) then
      some (opening, literal rest.head?)
    else none
  | _ => none

variable {rest : List Tok} {tok : Tok} {s : ScanState} {name : OsStr}

theorem attribute_pos {path : Option OsStr} {length : ℕ}
    (closed : attribute_ rest = some (path, length)) : 0 < length := by
  obtain ⟨inside, -, made⟩ := Option.map_eq_some_iff.mp closed
  rw [Prod.mk.injEq] at made
  omega

theorem covered_pos (tok : Tok) (rest : List Tok) : 0 < covered tok rest := by
  unfold covered
  split
  · cases closed : attribute_ rest with
    | none => exact Nat.one_pos
    | some whole => exact attribute_pos closed
  · split
    · cases closeAt openParen closeParen 1 _ with
      | none => exact Nat.succ_pos _
      | some length => exact Nat.succ_pos _
    · exact Nat.one_pos

@[simp] theorem uncovered_nil : uncovered [] = [] := rfl

theorem uncovered_cons (tok : Tok) (rest : List Tok) :
    uncovered (tok :: rest) = (tok :: rest) :: uncovered ((tok :: rest).drop (covered tok rest)) :=
  @pieces_cons _ _ (fun tok rest => (tok :: rest, covered tok rest)) covered_pos tok rest

/-- A token that covers nothing else. -/
theorem uncovered_one (alone : covered tok rest = 1) :
    uncovered (tok :: rest) = (tok :: rest) :: uncovered rest := by
  rw [uncovered_cons, alone]
  rfl

/-- The head of a text is not an invocation in parentheses. -/
def NotCall (place : List Tok) : Prop := ∀ argument, invocation place ≠ some (openParen, argument)

theorem notCall_punct (byte : UInt8) (rest : List Tok) : NotCall (.punct byte :: rest) := by
  rintro argument ⟨⟩

theorem notCall_str (text : OsStr) (rest : List Tok) : NotCall (.str text :: rest) := by
  rintro argument ⟨⟩

theorem invocation_of_isIncludeCall (call : isIncludeCall tok rest) :
    ∃ name behind, tok = .ident name ∧ rest = .punct bang :: .punct openParen :: behind ∧
      invocation (tok :: rest) = some (openParen, literal rest[2]?) := by
  unfold isIncludeCall at call
  split at call
  · rename_i name byte opening behind
    simp only [Bool.and_eq_true, decide_eq_true_eq] at call
    obtain ⟨⟨named, rfl⟩, rfl⟩ := call
    refine ⟨name, behind, rfl, rfl, ?_⟩
    show (if _ then _ else _) = _
    rw [if_pos ⟨named, rfl, Or.inl rfl⟩, List.head?_eq_getElem?]
    rfl
  · cases call

theorem notCall_of_not_isIncludeCall (other : ¬ isIncludeCall tok rest) :
    NotCall (tok :: rest) := by
  intro argument call
  refine other ?_
  unfold invocation at call
  split at call
  · rename_i name byte opening behind heq
    obtain ⟨rfl, rfl⟩ := List.cons.inj heq
    split at call
    · rename_i named
      obtain ⟨rfl, -⟩ := Prod.mk.inj (Option.some.inj call)
      show (isInclude name && decide (byte = bang) && decide (openParen = openParen)) = true
      rw [named.1, decide_eq_true named.2.1]
      rfl
    · cases call
  · cases call

/-- What the scan makes of the invocations in parentheses at the given places. -/
def Finds (places : List (List Tok)) (s : ScanState) : Except String ScanState → Prop
  | .error _ => ∃ place ∈ places, invocation place = some (openParen, none)
  | .ok s' =>
    (∀ place ∈ places, invocation place ≠ some (openParen, none)) ∧
    ∀ text, .include_ text ∈ s'.found ↔
      .include_ text ∈ s.found ∨ ∃ place ∈ places, invocation place = some (openParen, some text)

theorem Finds.nil {s' : ScanState} (same : s'.found = s.found) : Finds [] s (.ok s') := by
  refine ⟨fun place mem => absurd mem List.not_mem_nil, fun text => ?_⟩
  rw [same]
  exact ⟨Or.inl, fun either => either.resolve_right fun ⟨place, mem, _⟩ =>
    absurd mem List.not_mem_nil⟩

/-- A place where no invocation stands. -/
theorem Finds.cons {place : List Tok} (none : NotCall place) {places : List (List Tok)}
    {s s' : ScanState}
    {r : Except String ScanState}
    (same : ∀ text, .include_ text ∈ s'.found ↔ .include_ text ∈ s.found)
    (behind : Finds places s' r) : Finds (place :: places) s r := by
  cases r with
  | error e =>
    obtain ⟨other, mem, call⟩ := behind
    exact ⟨other, List.mem_cons_of_mem _ mem, call⟩
  | ok last =>
    refine ⟨List.forall_mem_cons.mpr ⟨none _, behind.1⟩, fun text => ?_⟩
    rw [behind.2 text, same text, List.exists_mem_cons_iff]
    exact or_congr_right ⟨Or.inr, fun either => either.resolve_left (none _)⟩

/-- A place where an invocation stands. -/
theorem Finds.call {place : List Tok} {text : OsStr}
    (call : invocation place = some (openParen, some text))
    {places : List (List Tok)} {r : Except String ScanState}
    (behind : Finds places { s with found := s.found ++ [.include_ text] } r) :
    Finds (place :: places) s r := by
  cases r with
  | error e =>
    obtain ⟨other, mem, refused⟩ := behind
    exact ⟨other, List.mem_cons_of_mem _ mem, refused⟩
  | ok last =>
    refine ⟨List.forall_mem_cons.mpr ⟨?_, behind.1⟩, fun other => ?_⟩
    · rw [call]
      rintro ⟨⟩
    · rw [behind.2 other, List.mem_append, List.mem_singleton, List.exists_mem_cons_iff,
        call, or_assoc]
      refine or_congr_right (or_congr_left ?_)
      rw [Found.include_.injEq, Option.some_inj, Prod.mk.injEq, Option.some_inj]
      exact ⟨fun same => ⟨rfl, same.symm⟩, fun same => same.2.symm⟩

theorem scanPlain_found (tok : Tok) (s : ScanState) : (scanPlain tok s).found = s.found := by
  unfold scanPlain ScanState.close
  repeat' split
  all_goals rfl

theorem mem_scanMod_found (name : OsStr) (behind : Option Tok) (s : ScanState) (text : OsStr) :
    .include_ text ∈ (scanMod name behind s).2.found ↔ .include_ text ∈ s.found := by
  unfold scanMod
  split
  · rw [List.mem_append, List.mem_singleton]
    exact ⟨fun either => either.resolve_right (by rintro ⟨⟩), Or.inl⟩
  · split <;> rfl

theorem covered_ident (free : rest[0]? ≠ some (.punct openParen)) :
    covered (.ident name) rest = 1 := by
  unfold covered
  rw [if_neg (by rintro ⟨⟨⟩, _⟩), if_neg fun both => free both.2]

theorem covered_punct {byte : UInt8} (other : byte ≠ hash) (rest : List Tok) :
    covered (.punct byte) rest = 1 := by
  unfold covered
  rw [if_neg fun both => other (Tok.punct.inj both.1), if_neg (by rintro ⟨⟨⟩, _⟩)]

theorem covered_str (text : OsStr) (rest : List Tok) : covered (.str text) rest = 1 := by
  unfold covered
  rw [if_neg (by rintro ⟨⟨⟩, _⟩), if_neg (by rintro ⟨⟨⟩, _⟩)]

theorem notCall_ident (free : rest[0]? ≠ some (.punct bang)) :
    NotCall (.ident name :: rest) := by
  refine notCall_of_not_isIncludeCall fun call => ?_
  obtain ⟨_, _, _, rfl, _⟩ := invocation_of_isIncludeCall call
  exact free rfl

theorem notCall_of_not_isInclude (other : isInclude name = false) (rest : List Tok) :
    NotCall (.ident name :: rest) := by
  refine notCall_of_not_isIncludeCall fun call => ?_
  unfold isIncludeCall at call
  split at call
  · rename_i heq
    obtain rfl := Tok.ident.inj heq
    rw [other] at call
    cases call
  · cases call

theorem literal_eq_some {tok : Option Tok} {text : OsStr} (read : literal tok = some text) :
    tok = some (.str text) := by
  unfold literal at read
  split at read
  · rw [Option.some.inj read]
  · cases read

theorem modName_eq_some (named : modName tok rest = some name) :
    tok = .ident (utf8 "mod") ∧ ∃ behind, rest = .ident name :: behind := by
  unfold modName at named
  split at named
  · split at named
    · cases named
      exact ⟨congrArg _ ‹_›, _, rfl⟩
    · cases named
  · cases named

/-- A module that is not in this file, or the head of one that is, covers its three tokens one by
one. -/
theorem uncovered_mod {byte : UInt8} (apart : byte = semicolon ∨ byte = openBrace)
    (rest : List Tok) : uncovered (.ident (utf8 "mod") :: .ident name :: .punct byte :: rest) =
      (.ident (utf8 "mod") :: .ident name :: .punct byte :: rest) ::
        (.ident name :: .punct byte :: rest) :: (.punct byte :: rest) :: uncovered rest := by
  have noParen : (Tok.punct byte :: rest)[0]? ≠ some (.punct openParen) := by
    rcases apart with rfl | rfl <;> rintro ⟨⟩
  have noHash : byte ≠ hash := by
    rcases apart with rfl | rfl <;> rintro ⟨⟩
  rw [uncovered_one (covered_ident (by rintro ⟨⟩)), uncovered_one (covered_ident noParen),
    uncovered_one (covered_punct noHash _)]

/-- **What one turn can do**, by what stands at its place. -/
inductive Turned (s : ScanState) : List Tok → Step (Except String ScanState) → Prop
  /-- It moves behind what the token covers. -/
  | jump {tok : Tok} {rest : List Tok} {n : ℕ} {s' : ScanState} (none : NotCall (tok :: rest))
      (moves : covered tok rest = n) (same : s'.found = s.found) : Turned s (tok :: rest)
      (.go n (.ok s'))
  /-- Nothing behind an open visibility is read. -/
  | leave {tok : Tok} {rest : List Tok} (none : NotCall (tok :: rest))
      (all : covered tok rest = (tok :: rest).length) : Turned s (tok :: rest) (.stop 1 (.ok s))
  | declare {name : OsStr} {byte : UInt8} {rest : List Tok} {s' : ScanState}
      (apart : byte = semicolon ∨ byte = openBrace)
      (same : ∀ text, .include_ text ∈ s'.found ↔ .include_ text ∈ s.found) :
      Turned s (.ident (utf8 "mod") :: .ident name :: .punct byte :: rest) (.go 3 (.ok s'))
  | call {name text : OsStr} {rest : List Tok}
      (here : invocation (.ident name :: .punct bang :: .punct openParen :: .str text :: rest) =
        some (openParen, some text)) :
      Turned s (.ident name :: .punct bang :: .punct openParen :: .str text :: rest)
        (.go 4 (.ok { s with found := s.found ++ [.include_ text] }))
  | refuse {place : List Tok} {message : String}
      (here : invocation place = some (openParen, none)) : Turned s place (.stop 0 (.error message))

theorem turned_mod (name : OsStr) (behind : List Tok) (s : ScanState) :
    Turned s (.ident (utf8 "mod") :: .ident name :: behind)
      (.go (scanMod name behind[0]? s).1 (.ok (scanMod name behind[0]? s).2)) := by
  by_cases known : ∃ byte, (byte = semicolon ∨ byte = openBrace) ∧ behind[0]? = some (.punct byte)
  · obtain ⟨byte, apart, third⟩ := known
    have three : (scanMod name behind[0]? s).1 = 3 := by
      unfold scanMod
      rw [third]
      rcases apart with rfl | rfl <;> rfl
    rw [← List.head?_eq_getElem?] at third
    obtain ⟨more, rfl⟩ := List.head?_eq_some_iff.mp third
    rw [three]
    exact .declare apart (mem_scanMod_found name _ s)
  · have one : scanMod name behind[0]? s = (1, { s with pendingPath := none }) := by
      unfold scanMod
      rw [if_neg fun third => known ⟨_, .inl rfl, third⟩, if_neg fun third =>
        known ⟨_, .inr rfl, third⟩]
    rw [one]
    exact .jump (notCall_ident (by rintro ⟨⟩)) (covered_ident (by rintro ⟨⟩)) rfl

theorem turned_scanTurn (tok : Tok) (rest : List Tok) (s : ScanState) :
    Turned s (tok :: rest) (scanTurn tok rest s) := by
  unfold scanTurn
  split
  · next attr =>
    have noCall : NotCall (tok :: rest) := by
      rw [attr.1]
      exact notCall_punct _ _
    have length : covered tok rest = (attribute_ rest).elim 1 (·.2) := if_pos attr
    split <;> next closed => exact .jump noCall (by rw [length, closed]; rfl) rfl
  next attr =>
  split
  · next pub =>
    have noCall : NotCall (tok :: rest) := by
      rw [pub]
      exact notCall_of_not_isInclude (by decide +kernel) rest
    split
    · next paren =>
      have length : covered tok rest =
          (closeAt openParen closeParen 1 (rest.drop 1)).elim (rest.length + 1) (· + 3) := by
        unfold covered
        rw [if_neg attr, if_pos ⟨pub, paren⟩]
      split
      · next closed => exact .leave noCall (by rw [length, closed]; rfl)
      · next closed => exact .jump noCall (by rw [length, closed]; rfl) rfl
    · next paren => exact .jump noCall (by
        unfold covered
        rw [if_neg attr, if_neg fun both => paren both.2]) rfl
  next pub =>
  split
  · next named =>
    obtain ⟨rfl, behind, rfl⟩ := modName_eq_some named
    exact turned_mod _ behind s
  split
  · next call =>
    obtain ⟨name, behind, rfl, rfl, here⟩ := invocation_of_isIncludeCall call
    change invocation _ = some (openParen, literal behind[0]?) at here
    change Turned s _ (match literal behind[0]? with | some text => _ | none => _)
    split
    · next text argument =>
      rw [argument] at here
      rw [← List.head?_eq_getElem?] at argument
      obtain ⟨more, rfl⟩ := List.head?_eq_some_iff.mp (literal_eq_some argument)
      exact .call here
    · next argument => exact .refuse (here.trans (by rw [argument]))
  · next call =>
    refine .jump (notCall_of_not_isIncludeCall call) ?_ (scanPlain_found tok s)
    unfold covered
    rw [if_neg attr, if_neg fun both => pub both.1]

theorem advances_scanStep : Advances scanStep := by
  rintro tok rest (e | s) n s' step
  · cases step
  have turned := turned_scanTurn tok rest s
  rw [show scanTurn tok rest s = .go n s' from step] at turned
  cases turned with
  | jump none moves same => exact moves ▸ covered_pos tok rest
  | declare apart same => exact Nat.succ_pos _
  | call here => exact Nat.succ_pos _

/-- A turn that goes on. -/
theorem read_scan {s' : ScanState} {n : ℕ} (step : scanTurn tok rest s = .go n (.ok s')) :
    (read scanStep (tok :: rest) (.ok s)).2 =
      (read scanStep ((tok :: rest).drop n) (.ok s')).2 := by
  rw [read_go advances_scanStep (s := .ok s) step]

/-- The scan of a text finds the invocations in parentheses outside attributes and visibilities. -/
theorem finds_read (tokens : List Tok) (s : ScanState) :
    Finds (uncovered tokens) s (read scanStep tokens (.ok s)).2 := by
  induction hlen : tokens.length using Nat.strong_induction_on generalizing tokens s with
  | _ bound ih =>
  cases tokens with
  | nil => exact .nil rfl
  | cons tok rest =>
  have later : ∀ (n : ℕ) (s : ScanState), 0 < n →
      Finds (uncovered ((tok :: rest).drop n)) s (read scanStep ((tok :: rest).drop n)
        (.ok s)).2 := by
    intro n s moves
    refine ih _ ?_ _ s rfl
    rw [← hlen, List.length_drop, List.length_cons]
    omega
  have turned := turned_scanTurn tok rest s
  generalize step : scanTurn tok rest s = next at turned
  cases turned with
  | jump none moves same =>
    rw [read_scan step, uncovered_cons, moves]
    exact .cons none (fun text => by rw [same]) (later _ _ (moves ▸ covered_pos tok rest))
  | leave none all =>
    rw [read_stop (show scanStep tok rest (.ok s) = _ from step), uncovered_cons, all,
      List.drop_length, uncovered_nil]
    exact .cons none (fun _ => Iff.rfl) (.nil rfl)
  | @declare name byte more s' apart same =>
    have noBang : (Tok.punct byte :: more)[0]? ≠ some (.punct bang) := by
      rcases apart with rfl | rfl <;> rintro ⟨⟩
    rw [read_scan step, uncovered_mod apart]
    exact .cons (notCall_ident (by rintro ⟨⟩)) (fun _ => Iff.rfl) (.cons (notCall_ident noBang)
      (fun _ => Iff.rfl) (.cons (notCall_punct _ _) same (later 3 _ (by omega))))
  | call here =>
    rw [read_scan step, uncovered_one (covered_ident (by rintro ⟨⟩)),
      uncovered_one (covered_punct (by decide) _), uncovered_one (covered_punct (by decide) _),
      uncovered_one (covered_str _ _)]
    exact .call here (.cons (notCall_punct _ _) (fun _ => Iff.rfl) (.cons (notCall_punct _ _)
      (fun _ => Iff.rfl) (.cons (notCall_str _ _) (fun _ => Iff.rfl) (later 4 _ (by omega)))))
  | refuse here =>
    rw [read_stop (show scanStep tok rest (.ok s) = _ from step), uncovered_cons]
    exact ⟨_, List.mem_cons_self, here⟩

/-! ## Every include is reported -/

/-- The scan fails, or it reports every invocation of the source, each with a string literal. -/
def Reports (tokens : List Tok) : Prop :=
  match scanTokens tokens with
  | .error _ => True
  | .ok found => ∀ place, place <:+ tokens → ∀ opening argument,
      invocation place = some (opening, argument) →
      ∃ text, argument = some text ∧ .include_ text ∈ found

/-- The source is refused, or what it includes is included somewhere outside attributes and
visibilities, in parentheses. -/
def Exposed (tokens : List Tok) : Prop :=
  hasEnvironmentMacro tokens ∨
  (∃ place ∈ uncovered tokens, invocation place = some (openParen, none)) ∨
  ∀ place, place <:+ tokens → ∀ opening argument, invocation place = some (opening, argument) →
    ∃ text, argument = some text ∧ ∃ seen ∈ uncovered tokens,
    invocation seen = some (openParen, some text)

/-- What a source includes is reported exactly if it is exposed. -/
theorem reports_iff (tokens : List Tok) : Reports tokens ↔ Exposed tokens := by
  unfold Reports Exposed scanTokens
  by_cases macros : hasEnvironmentMacro tokens
  · rw [if_pos macros]
    exact iff_of_true trivial (.inl macros)
  rw [if_neg macros, or_iff_right macros]
  have finds := finds_read tokens ScanState.start
  cases scanned : (read scanStep tokens (.ok ScanState.start)).2 with
  | error e =>
    rw [scanned] at finds
    exact iff_of_true trivial (.inl finds)
  | ok s =>
    rw [scanned] at finds
    obtain ⟨literals, includes⟩ := finds
    have none : ¬ ∃ place ∈ uncovered tokens, invocation place = some (openParen, none) :=
      fun ⟨place, mem, call⟩ => literals place mem call
    rw [or_iff_right none]
    have seen : ∀ text, .include_ text ∈ s.found ↔
        ∃ place ∈ uncovered tokens, invocation place = some (openParen, some text) := by
      intro text
      rw [includes text]
      exact or_iff_right List.not_mem_nil
    show (∀ place, _) ↔ _
    simp only [seen]

/-- A source whose documentation is in another file. -/
def documented : OsStr := utf8 "#[doc = include_str!(\"notes.md\")]\npub struct Notes;\n"

/-- The text of the file is a part of the documentation, but it is in an attribute. -/
theorem doc_attribute_not_reported :
    scanRust documented true = .ok [] ∧ ¬ Reports (rustTokens documented true) := by
  have scanned : scanRust documented true = .ok [] := by decide +kernel
  refine ⟨scanned, fun reports => ?_⟩
  unfold scanRust at scanned
  unfold Reports at reports
  rw [scanned] at reports
  obtain ⟨text, -, mem⟩ := reports _ (List.drop_suffix 4 _) openParen (some (utf8 "notes.md"))
    (by decide +kernel)
  exact List.not_mem_nil mem

end Kache.Rustdoc
