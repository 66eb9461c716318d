import Kache.Foundation.Fields
import Kache.Foundation.Lines
import Kache.Foundation.Stretches
import Kache.Foundation.Text

/-!
# The link paths a build script names

`named_output_paths` finds the search paths and linker inputs in what a build script printed.
Cargo trims every line before it looks for a directive, and the linker gets the whole of an
argument; this reader does neither.  `ReadAlike` says for which lines the two come to the same
paths.
-/

namespace Kache.BuildScript

open Text Lines

/-! ## What the program reads -/

/-- `strip_prefix`. -/
def stripFront (front text : List Char) : Option (List Char) :=
  if front.isPrefixOf text then some (text.drop front.length) else none

/-- `split_once`. -/
def splitOnce (c : Char) (text : List Char) : Option (List Char × List Char) :=
  if c ∈ text then some (text.takeWhile (· ≠ c), (text.dropWhile (· ≠ c)).tail) else none

/-- `split_whitespace`. -/
def splitWhitespace (text : List Char) : List (List Char) := fieldsOf isWhitespace text

/-- `str::trim`. -/
def trimmed (line : List Char) : List Char := trimEnd (line.dropWhile isWhitespace)

/-- A directive that can name link paths, with its value. -/
inductive Directive where
  | linkSearch (value : List Char)
  | linkArg (value : List Char)
  | flags (value : List Char)

/-- `LINK_KINDS`. -/
def linkKinds : List (List Char) :=
  ["dependency".toList, "crate".toList, "native".toList, "framework".toList, "all".toList]

/-- A search path without the kind before it, if that is one of `LINK_KINDS`. -/
def withoutKind (value : List Char) : List Char :=
  match splitOnce '=' value with
  | some (kind, path) => if kind ∈ linkKinds then path else value
  | none => value

/-- `push_search_path`. -/
def pushSearchPath (value : List Char) : List (List Char) :=
  if withoutKind value = [] then [] else [withoutKind value]

/-- `link_arg_value`. -/
def linkArgValue (directive : List Char) : Option (List Char) :=
  match stripFront "rustc-link-arg-bin=".toList directive with
  | some rest => (splitOnce '=' rest).map (·.2)
  | none =>
    ((stripFront "rustc-link-arg".toList directive).or
        (stripFront "rustc-cdylib-link-arg".toList directive)).bind fun rest =>
      stripFront ['='] <|
        ((stripFront "-bins".toList rest).or <| (stripFront "-cdylib".toList rest).or <|
        (stripFront "-tests".toList rest).or <| (stripFront "-examples".toList rest).or <|
        stripFront "-benches".toList rest).getD rest

/-- `push_link_flags`, of the words of its flags. -/
def pushLinkFlags : List (List Char) → List (List Char)
  | [] => []
  | token :: tokens =>
    match stripFront "-L".toList token with
    | none => pushLinkFlags tokens
    | some [] =>
      match tokens with
      | [] => []
      | next :: tokens => pushSearchPath next ++ pushLinkFlags tokens
    | some path => pushSearchPath path ++ pushLinkFlags tokens

/-- `push_link_arg`. -/
def pushLinkArg (flag : List Char) : List (List Char) :=
  if "-L".toList.isPrefixOf flag then pushLinkFlags (splitWhitespace flag)
  else if flag.head? = some '/' then [flag]
  else []

/-- What comes after `cargo::` or `cargo:`. -/
def readAfterForm (directive : List Char) : Option Directive :=
  match stripFront "rustc-link-search=".toList directive with
  | some value => some (.linkSearch value)
  | none =>
    match linkArgValue directive with
    | some value => some (.linkArg value)
    | none => (stripFront "rustc-flags=".toList directive).map .flags

/-- The directive on a line. -/
def readDirective (line : List Char) : Option Directive :=
  ((stripFront "cargo::".toList line).or (stripFront "cargo:".toList line)).bind readAfterForm

/-- The paths a directive adds. -/
def Directive.push : Directive → List (List Char)
  | .linkSearch value => pushSearchPath value
  | .linkArg value => pushLinkArg value
  | .flags value => pushLinkFlags (splitWhitespace value)

/-- The paths a line adds. -/
def namedOnLine (line : List Char) : List (List Char) := (readDirective line).elim [] Directive.push

/-- A line without its newline and a carriage return before that. -/
def endLine (line : List Char) : List Char :=
  if line.getLast? = some '\n' then
    if line.dropLast.getLast? = some '\r' then line.dropLast.dropLast else line.dropLast
  else line

/-- `str::lines`. -/
def lines (text : List Char) : List (List Char) := (splitInclusive '\n' text).map endLine

/-- `named_output_paths`. -/
def namedOutputPaths (stdout : List Char) : List (List Char) := (lines stdout).flatMap namedOnLine

/-! ## What Cargo reads -/

/-- The two forms of a directive. -/
def cargoForms : List (List Char) := ["cargo::".toList, "cargo:".toList]

/-- The directives for linker arguments, but for the one that names a binary. -/
def linkArgKeys : List (List Char) :=
  ["rustc-link-arg".toList, "rustc-link-arg-bins".toList, "rustc-link-arg-cdylib".toList,
    "rustc-link-arg-tests".toList, "rustc-link-arg-examples".toList,
    "rustc-link-arg-benches".toList,
    "rustc-cdylib-link-arg".toList]

/-- The directive of a trimmed line, as Cargo reads it. -/
inductive CargoReads : List Char → Directive → Prop
  | linkSearch {form : List Char} (known : form ∈ cargoForms) (value : List Char) :
      CargoReads (form ++ ("rustc-link-search=".toList ++ value)) (.linkSearch value)
  | linkArg {form key : List Char} (known : form ∈ cargoForms) (kind : key ∈ linkArgKeys)
      (value : List Char) : CargoReads (form ++ (key ++ '=' :: value)) (.linkArg value)
  | linkArgBin {form bin : List Char} (known : form ∈ cargoForms) (name : '=' ∉ bin)
      (value : List Char) :
      CargoReads (form ++ ("rustc-link-arg-bin=".toList ++ (bin ++ '=' :: value))) (.linkArg value)
  | flags {form : List Char} (known : form ∈ cargoForms) (value : List Char) :
      CargoReads (form ++ ("rustc-flags=".toList ++ value)) (.flags value)

/-- The arguments of `-L` among words: the rest of the word, or the next one. -/
def searchArguments : List (List Char) → List (List Char)
  | [] => []
  | token :: tokens =>
    match stripFront "-L".toList token with
    | none => searchArguments tokens
    | some [] =>
      match tokens with
      | [] => []
      | next :: tokens => next :: searchArguments tokens
    | some path => path :: searchArguments tokens

/-- The paths a directive names: a search path without a known kind; what follows `-L` in a linker
argument, or the argument if it is an absolute path; the arguments of `-L` among flags. -/
def Directive.Names : Directive → List Char → Prop
  | .linkSearch value, path => path = withoutKind value
  | .linkArg value, path => value = "-L".toList ++ path ∨ (value.head? = some '/' ∧ path = value)
  | .flags value, path => path ∈ searchArguments (splitWhitespace value)

/-- The paths that an output names for Cargo. -/
def CargoNames (stdout path : List Char) : Prop :=
  ∃ line ∈ stdout.splitOn '\n', ∃ directive, CargoReads (trimmed line) directive ∧
    directive.Names path

/-- The line is one on which both readers find what the directive names: there are no blanks around
it where they matter, and the path is not empty, has no blank in it and does not look like one
behind a kind. -/
def Directive.ReadOn (line : List Char) : Directive → Prop
  | .linkSearch value => trimmed line = line ∧ withoutKind value ≠ []
  | .linkArg value =>
    (∀ path, value = "-L".toList ++ path → CutsOff isWhitespace line ∧ path ≠ [] ∧
      (∀ c ∈ path, isWhitespace c = false) ∧ withoutKind path = path) ∧
    (value.head? = some '/' → trimmed line = line)
  | .flags value =>
    (searchArguments (splitWhitespace value) ≠ [] → CutsOff isWhitespace line) ∧
      ∀ path ∈ searchArguments (splitWhitespace value),
        ∃ argument ∈ searchArguments (splitWhitespace value), withoutKind argument = path

/-- Both readers find the same on the line. -/
def ReadAlike (line : List Char) : Prop :=
  ∀ directive, CargoReads (trimmed line) directive → directive.ReadOn line

/-! ### Stripping -/

theorem stripFront_eq_some {front text rest : List Char} :
    stripFront front text = some rest ↔ text = front ++ rest := by
  rw [stripFront]
  constructor
  · intro stripped
    split at stripped
    next begins =>
      obtain ⟨tail, rfl⟩ := List.isPrefixOf_iff_prefix.mp begins
      rw [List.drop_left, Option.some.injEq] at stripped
      rw [stripped]
    next => cases stripped
  · rintro rfl
    rw [if_pos (List.isPrefixOf_iff_prefix.mpr (List.prefix_append _ _)), List.drop_left]

variable {blanks path line : List Char} {c : Char} {directive : Directive}

/-- Blanks at the end are no part of what is stripped. -/
theorem stripFront_append {front : List Char} (plain : front.all (!isWhitespace ·) = true)
    (blank : ∀ c ∈ blanks, isWhitespace c = true) (text : List Char) :
    stripFront front (text ++ blanks) = (stripFront front text).map (· ++ blanks) := by
  have cuts : CutsOff (fun c => !isWhitespace c) blanks := by
    intro c mem
    simp [blank c (List.mem_of_mem_head? mem)]
  rw [stripFront, stripFront, isPrefixOf_stretch (List.all_eq_true.mp plain) cuts]
  split
  next begins =>
    obtain ⟨rest, rfl⟩ := List.isPrefixOf_iff_prefix.mp begins
    rw [List.append_assoc, List.drop_left, List.drop_left, Option.map_some]
  next => rfl

theorem splitOnce_cons {before : List Char} (free : c ∉ before) (after : List Char) :
    splitOnce c (before ++ c :: after) = some (before, after) := by
  have stays : ∀ b ∈ before, decide (b ≠ c) = true := fun b mem => by
    simpa using fun same : b = c => free (same ▸ mem)
  rw [splitOnce, if_pos (by simp), List.takeWhile_append_of_pos stays,
    List.dropWhile_append_of_pos stays]
  simp

theorem splitOnce_append (free : c ∉ blanks) (text : List Char) :
    splitOnce c (text ++ blanks) = (splitOnce c text).map fun parts =>
      (parts.1, parts.2 ++ blanks) := by
  by_cases mem : c ∈ text
  · obtain ⟨before, after, rfl, fresh⟩ := List.eq_append_cons_of_mem mem
    rw [List.append_assoc, List.cons_append, splitOnce_cons fresh, splitOnce_cons fresh,
      Option.map_some]
  · rw [splitOnce, if_neg (by simp [mem, free]), splitOnce, if_neg mem, Option.map_none]

theorem notMem_blanks (plain : isWhitespace c = false)
    (blank : ∀ c ∈ blanks, isWhitespace c = true) : c ∉ blanks := by
  intro mem
  rw [blank c mem] at plain
  cases plain

theorem withoutKind_append (blank : ∀ c ∈ blanks, isWhitespace c = true) (value : List Char) :
    withoutKind (value ++ blanks) = withoutKind value ++ blanks := by
  rw [withoutKind, splitOnce_append (notMem_blanks (by decide) blank), withoutKind]
  cases splitOnce '=' value with
  | none => rfl
  | some parts =>
    by_cases known : parts.1 ∈ linkKinds
    · simp only [Option.map_some, if_pos known]
    · simp only [Option.map_some, if_neg known]

theorem mem_of_mem_withoutKind {value : List Char} (mem : c ∈ withoutKind value) : c ∈ value := by
  by_cases has : '=' ∈ value
  · obtain ⟨kind, path, rfl, fresh⟩ := List.eq_append_cons_of_mem has
    rw [withoutKind, splitOnce_cons fresh] at mem
    simp only at mem
    split at mem
    · exact List.mem_append_right _ (List.mem_cons_of_mem _ mem)
    · exact mem
  · rw [withoutKind, splitOnce, if_neg has] at mem
    exact mem

theorem orMap (a b : Option (List Char)) :
    (a.map (· ++ blanks)).or (b.map (· ++ blanks)) = (a.or b).map (· ++ blanks) := by
  cases a <;> rfl

theorem linkArgValue_append (blank : ∀ c ∈ blanks, isWhitespace c = true) (directive : List Char) :
    linkArgValue (directive ++ blanks) = (linkArgValue directive).map (· ++ blanks) := by
  have strip : ∀ {front : List Char}, front.all (!isWhitespace ·) = true → ∀ text,
      stripFront front (text ++ blanks) = (stripFront front text).map (· ++ blanks) :=
    fun plain text => stripFront_append plain blank text
  have getMap : ∀ (a : Option (List Char)) (b : List Char),
      (a.map (· ++ blanks)).getD (b ++ blanks) = a.getD b ++ blanks := by
    intro a b
    cases a <;> rfl
  rw [linkArgValue, linkArgValue, strip (by decide)]
  cases stripFront "rustc-link-arg-bin=".toList directive with
  | some rest =>
    simp only [Option.map_some,
      splitOnce_append (notMem_blanks (show isWhitespace '=' = false by decide) blank),
      Option.map_map]
    rfl
  | none =>
    simp only [Option.map_none]
    rw [strip (by decide), strip (by decide), orMap]
    cases (stripFront "rustc-link-arg".toList directive).or
      (stripFront "rustc-cdylib-link-arg".toList directive) with
    | none => rfl
    | some rest =>
      simp only [Option.map_some, Option.bind_some]
      rw [strip (by decide), strip (by decide), strip (by decide), strip (by decide),
        strip (by decide), orMap, orMap, orMap, orMap, getMap, strip (by decide)]

/-- The directive with blanks behind its value. -/
def Directive.append (blanks : List Char) : Directive → Directive
  | .linkSearch value => .linkSearch (value ++ blanks)
  | .linkArg value => .linkArg (value ++ blanks)
  | .flags value => .flags (value ++ blanks)

theorem readAfterForm_append (blank : ∀ c ∈ blanks, isWhitespace c = true) (directive : List Char) :
    readAfterForm (directive ++ blanks) = (readAfterForm directive).map
      (Directive.append blanks) := by
  rw [readAfterForm, readAfterForm, stripFront_append (by decide) blank]
  cases stripFront "rustc-link-search=".toList directive with
  | some value => rfl
  | none =>
    simp only [Option.map_none]
    rw [linkArgValue_append blank]
    cases linkArgValue directive with
    | some value => rfl
    | none =>
      simp only [Option.map_none]
      rw [stripFront_append (by decide) blank]
      cases stripFront "rustc-flags=".toList directive <;> rfl

/-- Blanks at the end of a line are read into the value. -/
theorem readDirective_append (blank : ∀ c ∈ blanks, isWhitespace c = true) (line : List Char) :
    readDirective (line ++ blanks) = (readDirective line).map (Directive.append blanks) := by
  rw [readDirective, readDirective, stripFront_append (by decide) blank,
    stripFront_append (by decide) blank, orMap]
  cases (stripFront "cargo::".toList line).or (stripFront "cargo:".toList line) with
  | none => rfl
  | some directive => exact readAfterForm_append blank directive

/-- A line that begins with a blank has no directive. -/
theorem readDirective_of_blank (indented : ¬ CutsOff isWhitespace line) :
    readDirective line = none := by
  cases line with
  | nil => exact absurd cutsOff_nil indented
  | cons c rest =>
    rw [cutsOff_cons, Bool.not_eq_false] at indented
    have differ : 'c' ≠ c := by
      rintro rfl
      exact absurd indented (by decide)
    have stuck : ∀ front : List Char, stripFront ('c' :: front) (c :: rest) = none := by
      intro front
      simp [stripFront, differ]
    have first : stripFront "cargo::".toList (c :: rest) = none := stuck "argo::".toList
    have second : stripFront "cargo:".toList (c :: rest) = none := stuck "argo:".toList
    rw [readDirective, first, second]
    rfl

theorem readDirective_form {form : List Char} (known : form ∈ cargoForms) (rest : List Char) :
    readDirective (form ++ 'r' :: rest) = readAfterForm ('r' :: rest) := by
  simp only [cargoForms, List.mem_cons, List.not_mem_nil, or_false] at known
  rcases known with rfl | rfl <;> rfl

/-- What Cargo reads on a trimmed line, the program reads on it too. -/
theorem readDirective_of_cargoReads (reads : CargoReads line directive) :
    readDirective line = some directive := by
  cases reads with
  | linkSearch known value => exact readDirective_form known ("ustc-link-search=".toList ++ value)
  | linkArg known kind value =>
    simp only [linkArgKeys, List.mem_cons, List.not_mem_nil, or_false] at kind
    rcases kind with rfl | rfl | rfl | rfl | rfl | rfl | rfl
    all_goals exact readDirective_form known _
  | @linkArgBin form bin known name value =>
    have argument : linkArgValue ("rustc-link-arg-bin=".toList ++ (bin ++ '=' :: value)) =
        some value := by
      rw [linkArgValue, stripFront_eq_some.mpr rfl]
      simp only [splitOnce_cons name, Option.map_some]
    have search : stripFront "rustc-link-search=".toList
        ("rustc-link-arg-bin=".toList ++ (bin ++ '=' :: value)) = none :=
      rfl
    refine
      (readDirective_form known ("ustc-link-arg-bin=".toList ++ (bin ++ '=' :: value))).trans ?_
    show readAfterForm ("rustc-link-arg-bin=".toList ++ (bin ++ '=' :: value)) = _
    rw [readAfterForm, search, argument]
  | flags known value => exact readDirective_form known ("ustc-flags=".toList ++ value)

/-! ### Words -/

theorem fieldsOf_blank (blank : ∀ c ∈ blanks, isWhitespace c = true) :
    splitWhitespace blanks = [] := by
  induction blanks with
  | nil => rfl
  | cons c rest ih =>
    obtain ⟨here, others⟩ := List.forall_mem_cons.mp blank
    have split : splitWhitespace ([] ++ c :: rest) = splitWhitespace [] ++ splitWhitespace rest :=
      fieldsOf_append_cons here [] rest
    rw [List.nil_append, ih others] at split
    rw [split]
    rfl

theorem splitWhitespace_append (blank : ∀ c ∈ blanks, isWhitespace c = true) (text : List Char) :
    splitWhitespace (text ++ blanks) = splitWhitespace text := by
  cases blanks with
  | nil => rw [List.append_nil]
  | cons c rest =>
    obtain ⟨here, others⟩ := List.forall_mem_cons.mp blank
    have split :
        splitWhitespace (text ++ c :: rest) = splitWhitespace text ++ splitWhitespace rest :=
      fieldsOf_append_cons here text rest
    rw [split, fieldsOf_blank others, List.append_nil]

theorem of_mem_splitWhitespace {text word : List Char} (mem : word ∈ splitWhitespace text) :
    word ≠ [] ∧ ∀ c ∈ word, isWhitespace c = false := by
  obtain ⟨piece, nonempty⟩ := List.mem_filter.mp mem
  exact ⟨by simpa using nonempty, forall_of_mem_splitOnP piece⟩

theorem mem_pushSearchPath {value : List Char} :
    path ∈ pushSearchPath value ↔ withoutKind value = path ∧ path ≠ [] := by
  rw [pushSearchPath]
  by_cases empty : withoutKind value = []
  · rw [if_pos empty]
    simp only [List.not_mem_nil, false_iff, not_and, not_not]
    exact fun same => same.symm.trans empty
  · rw [if_neg empty, List.mem_singleton]
    exact ⟨fun same => ⟨same.symm, same ▸ empty⟩, fun both => both.1.symm⟩

/-- The program takes the arguments of `-L` without their kinds. -/
theorem mem_pushLinkFlags (tokens : List (List Char)) : path ∈ pushLinkFlags tokens ↔
    ∃ argument ∈ searchArguments tokens, withoutKind argument = path ∧ path ≠ [] := by
  fun_induction pushLinkFlags tokens with
  | case1 => simp [searchArguments]
  | case2 token tokens read ih =>
    have same : searchArguments (token :: tokens) = searchArguments tokens := by
      rw [searchArguments.eq_def]
      simp only [read]
    rw [same, ih]
  | case3 token read =>
    simp only [searchArguments, read]
    simp
  | case4 token read next tokens ih =>
    simp only [searchArguments, read, List.mem_append, mem_pushSearchPath, ih,
      List.exists_mem_cons_iff]
  | case5 token tokens argument some read ih =>
    have same : searchArguments (token :: tokens) = argument :: searchArguments tokens := by
      rw [searchArguments.eq_def]
      simp only [read]
    rw [same, List.mem_append, mem_pushSearchPath, ih, List.exists_mem_cons_iff]

/-- The arguments of `-L` among words are words, or ends of words. -/
theorem of_mem_searchArguments {tokens : List (List Char)}
    (words : ∀ token ∈ tokens, token ≠ [] ∧ ∀ c ∈ token, isWhitespace c = false)
    (mem : path ∈ searchArguments tokens) : path ≠ [] ∧ ∀ c ∈ path, isWhitespace c = false := by
  fun_induction searchArguments tokens with
  | case1 => cases mem
  | case2 token tokens read ih => exact ih (List.forall_mem_cons.mp words).2 mem
  | case3 token read => cases mem
  | case4 token read next tokens ih =>
    obtain ⟨-, onNext, others⟩ := List.forall_mem_cons.mp words |>.imp_right List.forall_mem_cons.mp
    rcases List.mem_cons.mp mem with rfl | later
    · exact onNext
    · exact ih others later
  | case5 token tokens argument some read ih =>
    obtain ⟨onToken, others⟩ := List.forall_mem_cons.mp words
    rcases List.mem_cons.mp mem with rfl | later
    · refine ⟨some, fun b inside => onToken.2 b ?_⟩
      rw [stripFront_eq_some.mp read]
      exact List.mem_append_right _ inside
    · exact ih others later

/-- A linker argument `-L…` is found whole if it is one word and does not begin with a kind. -/
theorem mem_pushLinkFlags_whole : path ∈ pushLinkFlags (splitWhitespace ("-L".toList ++ path)) ↔
    path ≠ [] ∧ (∀ c ∈ path, isWhitespace c = false) ∧ withoutKind path = path := by
  have single : (∀ c ∈ path, isWhitespace c = false) → path ≠ [] →
      searchArguments (splitWhitespace ("-L".toList ++ path)) = [path] := by
    intro plain nonempty
    have word : splitWhitespace ("-L".toList ++ path) = ["-L".toList ++ path] := by
      refine fieldsOf_plain (by simp) fun c mem => ?_
      rcases List.mem_append.mp mem with inFront | inPath
      · simpa using List.all_eq_true.mp
          (by decide : "-L".toList.all (!isWhitespace ·) = true) c inFront
      · exact plain c inPath
    obtain ⟨c, rest, rfl⟩ := List.exists_cons_of_ne_nil nonempty
    rw [word, searchArguments, stripFront_eq_some.mpr rfl]
    rfl
  rw [mem_pushLinkFlags]
  constructor
  · rintro ⟨argument, mem, same, nonempty⟩
    have words := (of_mem_searchArguments (fun _ => of_mem_splitWhitespace) mem).2
    have plain : ∀ c ∈ path, isWhitespace c = false := fun c inside =>
      words c (mem_of_mem_withoutKind (same ▸ inside))
    rw [single plain nonempty, List.mem_singleton] at mem
    exact ⟨nonempty, plain, mem ▸ same⟩
  · rintro ⟨nonempty, plain, same⟩
    exact ⟨path, by rw [single plain nonempty]; exact List.mem_singleton_self path, same, nonempty⟩

/-! ## Lines -/

/-- A line that begins with no blank, with the blanks at its end. -/
theorem trimmed_append (flush : CutsOff isWhitespace line) :
    trimmed line ++ line.rtakeWhile isWhitespace = line := by
  have whole : line.dropWhile isWhitespace = line := by
    cases line with
    | nil => rfl
    | cons c rest => simp [cutsOff_cons.mp flush]
  rw [trimmed, trimEnd, whole, List.rdropWhile_append_rtakeWhile]

theorem blank_rtakeWhile (line : List Char) : ∀ c ∈ line.rtakeWhile isWhitespace,
    isWhitespace c = true :=
  fun _ mem => List.mem_rtakeWhile_imp mem

/-- Behind a line that begins with no blank there is nothing to trim exactly if it is trimmed. -/
theorem trimmed_eq_iff (flush : CutsOff isWhitespace line) :
    trimmed line = line ↔ line.rtakeWhile isWhitespace = [] := by
  have whole := trimmed_append flush
  constructor
  · intro same
    rw [same] at whole
    exact List.append_right_eq_self.mp whole
  · intro none
    rwa [none, List.append_nil] at whole

section OnLine

variable {value : List Char}

theorem namedOnLine_of_blank (indented : ¬ CutsOff isWhitespace line) : namedOnLine line = [] := by
  rw [namedOnLine, readDirective_of_blank indented]
  rfl

/-- What the program makes of a line whose trimmed form Cargo reads. -/
theorem namedOnLine_flush (reads : CargoReads (trimmed line) directive)
    (flush : CutsOff isWhitespace line) :
    namedOnLine line = (directive.append (line.rtakeWhile isWhitespace)).push := by
  have read := readDirective_append (blank_rtakeWhile line) (trimmed line)
  rw [trimmed_append flush, readDirective_of_cargoReads reads] at read
  rw [namedOnLine, read]
  rfl

theorem flush_of_trimmed_eq (reads : CargoReads (trimmed line) directive)
    (same : trimmed line = line) : CutsOff isWhitespace line := by
  by_contra indented
  have read := readDirective_of_cargoReads reads
  rw [same, readDirective_of_blank indented] at read
  cases read

theorem linkSearch_iff (reads : CargoReads (trimmed line) (.linkSearch value)) :
    (∀ path, (Directive.linkSearch value).Names path → path ∈ namedOnLine line) ↔
      (Directive.linkSearch value).ReadOn line := by
  have only : (∀ path, (Directive.linkSearch value).Names path → path ∈ namedOnLine line) ↔
      withoutKind value ∈ namedOnLine line :=
        ⟨fun all => all _ rfl, fun here path same => same ▸ here⟩
  rw [only, Directive.ReadOn]
  by_cases flush : CutsOff isWhitespace line
  · rw [namedOnLine_flush reads flush, Directive.append, Directive.push, mem_pushSearchPath,
      withoutKind_append (blank_rtakeWhile line), List.append_right_eq_self, trimmed_eq_iff flush]
  · rw [namedOnLine_of_blank flush]
    exact iff_of_false List.not_mem_nil fun both => flush (flush_of_trimmed_eq reads both.1)

/-- A linker argument with `-L`. -/
theorem linkArg_path_iff (reads : CargoReads (trimmed line) (.linkArg ("-L".toList ++ path))) :
    path ∈ namedOnLine line ↔ CutsOff isWhitespace line ∧ path ≠ [] ∧
      (∀ c ∈ path, isWhitespace c = false) ∧ withoutKind path = path := by
  by_cases flush : CutsOff isWhitespace line
  · have begins : "-L".toList.isPrefixOf (("-L".toList ++ path) ++ line.rtakeWhile isWhitespace) =
        true := by
      rw [List.append_assoc]
      exact List.isPrefixOf_iff_prefix.mpr (List.prefix_append _ _)
    rw [namedOnLine_flush reads flush, Directive.append, Directive.push, pushLinkArg, if_pos begins,
      splitWhitespace_append (blank_rtakeWhile line), mem_pushLinkFlags_whole, and_iff_right flush]
  · rw [namedOnLine_of_blank flush]
    exact iff_of_false List.not_mem_nil fun both => flush both.1

/-- A linker argument that is an absolute path. -/
theorem linkArg_absolute_iff (reads : CargoReads (trimmed line) (.linkArg value))
    (absolute : value.head? = some '/') : value ∈ namedOnLine line ↔ trimmed line = line := by
  by_cases flush : CutsOff isWhitespace line
  · obtain ⟨rest, rfl⟩ : ∃ rest, value = '/' :: rest := by
      cases value with
      | nil => cases absolute
      | cons c rest => exact ⟨rest, by rw [Option.some.inj absolute]⟩
    have pushed : pushLinkArg ('/' :: rest ++ line.rtakeWhile isWhitespace) =
        ['/' :: rest ++ line.rtakeWhile isWhitespace] :=
      rfl
    rw [namedOnLine_flush reads flush, Directive.append, Directive.push, pushed,
      List.mem_singleton, eq_comm, List.append_right_eq_self, trimmed_eq_iff flush]
  · rw [namedOnLine_of_blank flush]
    exact iff_of_false List.not_mem_nil fun same => flush (flush_of_trimmed_eq reads same)

theorem linkArg_iff (reads : CargoReads (trimmed line) (.linkArg value)) :
    (∀ path, (Directive.linkArg value).Names path → path ∈ namedOnLine line) ↔
      (Directive.linkArg value).ReadOn line := by
  constructor
  · intro found
    constructor
    · rintro path rfl
      exact (linkArg_path_iff reads).mp (found path (.inl rfl))
    · exact fun absolute =>
        (linkArg_absolute_iff reads absolute).mp (found value (.inr ⟨absolute, rfl⟩))
  · rintro ⟨onPath, onAbsolute⟩ path (rfl | ⟨absolute, rfl⟩)
    · exact (linkArg_path_iff reads).mpr (onPath path rfl)
    · exact (linkArg_absolute_iff reads absolute).mpr (onAbsolute absolute)

theorem flags_iff (reads : CargoReads (trimmed line) (.flags value)) :
    (∀ path, (Directive.flags value).Names path → path ∈ namedOnLine line) ↔
      (Directive.flags value).ReadOn line := by
  rw [Directive.ReadOn]
  by_cases flush : CutsOff isWhitespace line
  · rw [namedOnLine_flush reads flush, Directive.append, Directive.push,
      splitWhitespace_append (blank_rtakeWhile line), and_iff_right fun _ => flush]
    refine forall₂_congr fun path mem => ?_
    have nonempty := (of_mem_searchArguments (fun _ => of_mem_splitWhitespace) mem).1
    rw [mem_pushLinkFlags]
    exact exists_congr fun argument => and_congr_right fun _ => and_iff_left nonempty
  · rw [namedOnLine_of_blank flush]
    constructor
    · intro found
      have empty : searchArguments (splitWhitespace value) = [] :=
        List.eq_nil_iff_forall_not_mem.mpr fun path mem => List.not_mem_nil (found path mem)
      rw [empty]
      exact ⟨fun some => absurd rfl some, fun _ mem => absurd mem List.not_mem_nil⟩
    · intro both path mem
      exact absurd (both.1 (List.ne_nil_of_mem mem)) flush

/-- The program finds what Cargo finds on a line exactly if both read it alike. -/
theorem namedOnLine_iff (line : List Char) :
    (∀ directive path, CargoReads (trimmed line) directive → directive.Names path →
        path ∈ namedOnLine line) ↔
      ReadAlike line := by
  have each : ∀ directive, CargoReads (trimmed line) directive →
      ((∀ path, directive.Names path → path ∈ namedOnLine line) ↔ directive.ReadOn line) := by
    intro directive reads
    cases directive with
    | linkSearch value => exact linkSearch_iff reads
    | linkArg value => exact linkArg_iff reads
    | flags value => exact flags_iff reads
  constructor
  · exact fun found directive reads => (each directive reads).mp fun path named =>
      found directive path reads named
  · exact fun alike directive path reads named =>
      (each directive reads).mpr (alike directive reads) path named

end OnLine

/-! ## Whole outputs -/

theorem trimmed_append_cr (body : List Char) : trimmed (body ++ ['\r']) = trimmed body := by
  rw [trimmed, trimmed, trimEnd, trimEnd, List.dropWhile_append]
  split
  next empty =>
    rw [List.isEmpty_iff.mp empty]
    rfl
  next => exact List.rdropWhile_concat_pos _ _ _ (by decide)

theorem trimmed_endLine {body : List Char} : trimmed (endLine (body ++ ['\n'])) = trimmed body := by
  rw [endLine, if_pos (by simp), List.dropLast_concat]
  split
  next cr =>
    rcases List.eq_nil_or_concat' body with rfl | ⟨init, c, rfl⟩
    · cases cr
    · rw [List.getLast?_concat, Option.some.injEq] at cr
      rw [List.dropLast_concat, cr, trimmed_append_cr]
  next => rfl

theorem endLine_of_notMem (free : '\n' ∉ line) : endLine line = line := by
  rw [endLine, if_neg]
  exact fun last => free (List.mem_of_getLast? last)

/-- Every line that Cargo trims is one the program has, or empty. -/
theorem exists_mem_lines (stdout : List Char) :
    ∀ piece ∈ stdout.splitOn '\n', piece = [] ∨ ∃ line ∈ lines stdout,
      trimmed line = trimmed piece := by
  induction stdout using lines_induction '\n' with
  | nil =>
    intro piece mem
    exact .inl (List.mem_singleton.mp mem)
  | last line unended =>
    intro piece mem
    rw [List.splitOn_eq_singleton unended.2, List.mem_singleton] at mem
    refine .inr ⟨line, ?_, by rw [mem]⟩
    rw [lines, splitInclusive_unended unended, List.map_singleton, endLine_of_notMem unended.2]
    exact List.mem_singleton_self line
  | whole line text whole ih =>
    have split := splitInclusive_whole whole text
    obtain ⟨body, free, rfl⟩ := whole
    intro piece mem
    rw [List.append_assoc, List.singleton_append,
      List.splitOn_append_cons_self_of_not_mem free] at mem
    rw [lines, split, List.map_cons]
    rcases List.mem_cons.mp mem with rfl | later
    · exact .inr ⟨_, List.mem_cons_self, trimmed_endLine⟩
    · refine (ih piece later).imp_right ?_
      rintro ⟨line, there, same⟩
      exact ⟨line, List.mem_cons_of_mem _ there, same⟩

theorem not_cargoReads_nil : ¬ CargoReads [] directive := by
  intro reads
  have read := readDirective_of_cargoReads reads
  cases read

/-- **Named link paths are read as Cargo reads them** on outputs whose lines are all read alike, and
on an output of one line exactly if it is. -/
theorem named_link_paths (stdout : List Char) :
    ((∀ line ∈ lines stdout, ReadAlike line) → ∀ path, CargoNames stdout path →
        path ∈ namedOutputPaths stdout) ∧
      ('\n' ∉ stdout →
        ((∀ path, CargoNames stdout path → path ∈ namedOutputPaths stdout) ↔
            ReadAlike stdout)) := by
  constructor
  · rintro alike path ⟨piece, mem, directive, reads, named⟩
    rcases exists_mem_lines stdout piece mem with rfl | ⟨line, there, same⟩
    · exact absurd reads not_cargoReads_nil
    · rw [← same] at reads
      have found := (namedOnLine_iff line).mpr (alike line there) directive path reads named
      exact List.mem_flatMap.mpr ⟨line, there, found⟩
  · intro single
    rw [← namedOnLine_iff]
    have pieces := List.splitOn_eq_singleton single
    have whole : namedOutputPaths stdout = namedOnLine stdout := by
      cases stdout with
      | nil => rfl
      | cons c rest =>
        rw [namedOutputPaths, lines, splitInclusive_unended ⟨List.cons_ne_nil c rest, single⟩,
          List.map_singleton, endLine_of_notMem single, List.flatMap_singleton]
    rw [whole]
    constructor
    · intro found directive path reads named
      exact found path
        ⟨stdout, by rw [pieces]; exact List.mem_singleton_self stdout, directive, reads, named⟩
    · rintro found path ⟨piece, mem, directive, reads, named⟩
      rw [pieces, List.mem_singleton] at mem
      exact found directive path (mem ▸ reads) named

/-- An output that both readers read alike. -/
def flushOutput : List Char := "cargo:rustc-link-search=native=/t/lib".toList

theorem named_link_paths_flush :
    ReadAlike flushOutput ∧ "/t/lib".toList ∈ namedOutputPaths flushOutput := by
  have reads : CargoReads (trimmed flushOutput) (.linkSearch "native=/t/lib".toList) :=
    .linkSearch (List.mem_cons_of_mem _ List.mem_cons_self) "native=/t/lib".toList
  have alike : ReadAlike flushOutput := by
    intro directive other
    have same := readDirective_of_cargoReads reads
    rw [readDirective_of_cargoReads other] at same
    cases same
    exact ⟨by decide +kernel, by decide +kernel⟩
  refine ⟨alike, (named_link_paths flushOutput).1 (List.forall_mem_singleton.mpr alike) _ ?_⟩
  refine ⟨flushOutput, by decide +kernel, _, reads, ?_⟩
  show "/t/lib".toList = withoutKind "native=/t/lib".toList
  decide +kernel

/-- An output with a line that is indented. -/
theorem indented_line_missed :
    CargoNames "  cargo:rustc-link-search=native=/t/lib\n".toList "/t/lib".toList ∧
    "/t/lib".toList ∉ namedOutputPaths "  cargo:rustc-link-search=native=/t/lib\n".toList := by
  refine ⟨⟨"  cargo:rustc-link-search=native=/t/lib".toList, by decide +kernel,
    .linkSearch "native=/t/lib".toList, ?_, ?_⟩, ?_⟩
  · exact CargoReads.linkSearch (List.mem_cons_of_mem _ List.mem_cons_self) "native=/t/lib".toList
  · show "/t/lib".toList = withoutKind "native=/t/lib".toList
    decide +kernel
  · decide +kernel

end Kache.BuildScript
