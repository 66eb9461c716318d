import Kache.Cc.LinkKey
import Kache.Foundation.Hexadecimal

/-!
# The files a link key covers

Which arguments of a link name files is the compiler's to say: it has its own table of options and
of those that take the next argument (`Driver`).  The passes of the code read the arguments by
tables of their own, and keep the operands with an extension they know.  A key covers the files a
link names exactly if every operand of the compiler names a file that one of these operands names
(`covers_iff_named`).
-/

namespace Kache.Cc

open UnixPath

/-! ## Operands -/

/-- A table of options: what is one, and which ones take the next argument. -/
structure Driver where
  isOption : String → Bool
  takesNext : String → Bool

/-- The arguments that are neither an option nor the value of one; the flag says that the next one
is a value. -/
def Driver.operandsFrom (driver : Driver) : Bool → List String → List String
  | _, [] => []
  | true, _ :: args => driver.operandsFrom false args
  | false, arg :: args =>
    if driver.isOption arg then driver.operandsFrom (driver.takesNext arg) args
    else arg :: driver.operandsFrom false args

/-- The operands of a command. -/
def Driver.operands (driver : Driver) (args : List String) : List String :=
  driver.operandsFrom false args

/-- The table the objects and libraries of a link are found by. -/
def linkTable : Driver where
  isOption := startsWith "-"
  takesNext arg := decide (arg = "-o" ∨ arg = "-I" ∨ arg = "-L" ∨ arg = "-include")

/-- The table sources are found by. -/
def sourceTable (dialect : Dialect) : Driver where
  isOption arg := startsWith "-" arg || (parseCcArgAt arg none dialect).isSome
  takesNext arg := (parseCcArgAt arg (some "") dialect).any (·.takesNext)

/-- The operands that the key is made of: objects and libraries by one table, sources by the
other. -/
def knownOperands (dialect : Dialect) (args : List String) : List String :=
  ((sourceTable dialect).operands args).filter looksLikeSource ++
    (linkTable.operands args).filter hasLinkExtension

theorem ccLinkFileInputs_eq (skip : Bool) (args : List String) :
    ccLinkFileInputs skip args =
      ((linkTable.operandsFrom skip args).filter hasLinkExtension).map utf8 := by
  fun_induction ccLinkFileInputs skip args with
  | case1 skip => cases skip <;> rfl
  | case2 arg args ih => exact ih
  | case3 arg args takes ih =>
    have option : linkTable.isOption arg = true := by
      rcases takes with rfl | rfl | rfl | rfl <;> decide
    have next : linkTable.takesNext arg = true := decide_eq_true takes
    rw [Driver.operandsFrom, if_pos option, next]
    exact ih
  | case4 arg args takes dash ih =>
    have next : linkTable.takesNext arg = false := decide_eq_false takes
    rw [Driver.operandsFrom, if_pos (show linkTable.isOption arg = true from dash), next]
    exact ih
  | case5 arg args _ dash known ih | case6 arg args _ dash known ih =>
    rw [Driver.operandsFrom, if_neg (show ¬ linkTable.isOption arg = true from dash)]
    simpa [known] using ih

/-! ### Sources -/

/-- What is read off every row alike is read off the first row that knows the argument. -/
theorem map_parseCcArgAt {β : Type} {read : ParsedCcArg → β} {arg : String}
    {next next' : Option String} {dialect : Dialect}
    (row : ∀ spec, (parseCcArgWithSpec spec arg next dialect).map read =
      (parseCcArgWithSpec spec arg next' dialect).map read) :
    (parseCcArgAt arg next dialect).map read = (parseCcArgAt arg next' dialect).map read := by
  rw [parseCcArgAt, parseCcArgAt, List.map_findSome?, List.map_findSome?]
  congr 1
  funext spec
  exact row spec

/-- Whether a row knows an argument is not decided by the next argument. -/
theorem isSome_parseCcArgAt (arg : String) (next : Option String) (dialect : Dialect) :
    (parseCcArgAt arg next dialect).isSome = (parseCcArgAt arg none dialect).isSome := by
  have whole : (parseCcArgAt arg next dialect).map (fun _ => ()) =
      (parseCcArgAt arg none dialect).map fun _ => () := by
    refine map_parseCcArgAt fun spec => ?_
    unfold parseCcArgWithSpec
    split
    · split <;> first | rfl | (split <;> rfl)
    · rfl
  simpa using congrArg Option.isSome whole

/-- Nor does it matter what the next argument is for whether it is a value. -/
theorem takesNext_parseCcArgAt (arg next : String) (dialect : Dialect) :
    ((parseCcArgAt arg (some next) dialect).map (·.takesNext)) =
      (parseCcArgAt arg (some "") dialect).map (·.takesNext) := by
  refine map_parseCcArgAt fun spec => ?_
  unfold parseCcArgWithSpec
  split
  · split <;> first | rfl | (split <;> rfl)
  · rfl

theorem sources_applyCcArg (parsed : CcArgs) (arg : ParsedCcArg) :
    (applyCcArg parsed arg).sources = parsed.sources := by
  fun_cases applyCcArg <;> rfl

theorem sources_parseArgs (dialect : Dialect) (skip : Bool) (args : List String) (parsed : CcArgs) :
    (parseArgs dialect skip args parsed).sources =
      parsed.sources ++
        (((sourceTable dialect).operandsFrom skip args).filter looksLikeSource).map utf8 := by
  fun_induction parseArgs dialect skip args parsed with
  | case1 skip parsed => cases skip <;> simp [Driver.operandsFrom]
  | case2 arg args parsed ih => exact ih
  | case3 arg args parsed known parse ih =>
    have option : (sourceTable dialect).isOption arg = true := by
      show (startsWith "-" arg || (parseCcArgAt arg none dialect).isSome) = true
      rw [← isSome_parseCcArgAt arg args.head?, parse]
      simp
    rw [ih, sources_applyCcArg, Driver.operandsFrom, if_pos option]
    cases args with
    | nil => rfl
    | cons next args =>
      have same := takesNext_parseCcArgAt arg next dialect
      rw [show parseCcArgAt arg (some next) dialect = some known from parse] at same
      have next : (sourceTable dialect).takesNext arg = known.takesNext := by
        show (parseCcArgAt arg (some "") dialect).any (·.takesNext) = _
        cases there : parseCcArgAt arg (some "") dialect <;> simp_all
      rw [next]
  | case4 arg args parsed parse ih =>
    have unknown : ∀ next, parseCcArgAt arg next dialect = none := by
      intro next
      rw [← Option.not_isSome_iff_eq_none, isSome_parseCcArgAt,
        ← isSome_parseCcArgAt arg args.head?, parse]
      simp
    have option : (sourceTable dialect).isOption arg = startsWith "-" arg := by
      simp [sourceTable, unknown]
    have noValue : (sourceTable dialect).takesNext arg = false := by
      simp [sourceTable, unknown]
    rw [ih, Driver.operandsFrom, option, noValue]
    cases dash : startsWith "-" arg <;> cases source : looksLikeSource arg <;> simp [source]

/-! ## Commands -/

/-- A link that is cached: parsed from its arguments, and not refused. -/
structure LinkCommand where
  program : String
  args : List String
  dialect : Dialect
  isLink : (parseFor program args dialect).mode = .link
  accepted : refuseReasons (parseFor program args dialect) = []

/-- `CcArgs` of a command. -/
def LinkCommand.parsed (command : LinkCommand) : CcArgs :=
  parseFor command.program command.args command.dialect

theorem rest_parseArgs (dialect : Dialect) (skip : Bool) (args : List String) (parsed : CcArgs) :
    (parseArgs dialect skip args parsed).rest = parsed.rest := by
  fun_induction parseArgs dialect skip args parsed with
  | case1 => rfl
  | case2 _ _ _ ih => exact ih
  | case3 arg args parsed known parse ih =>
    rw [ih]
    fun_cases applyCcArg <;> rfl
  | case4 arg args parsed parse ih =>
    rw [ih]
    split <;> rfl

variable {ctx : LinkContext} {command : LinkCommand} {state state' : LinkState}

/-- No argument of an accepted link is a response file. -/
theorem LinkCommand.no_response (command : LinkCommand) : ∀ arg ∈ command.args,
    startsWith "@" arg = false := by
  intro arg mem
  by_contra response
  rw [Bool.not_eq_false] at response
  have accepted := command.accepted
  have rest : (parseFor command.program command.args command.dialect).rest = command.args :=
    rest_parseArgs _ _ _ _
  have hit : (linkerArgs command.args).any (startsWith "@") = true :=
    List.any_eq_true.mpr ⟨arg, List.mem_flatMap.mpr ⟨arg, mem, List.mem_cons_self⟩, response⟩
  rw [refuseReasons, rest] at accepted
  have last := (List.append_eq_nil_iff.mp accepted).2
  rw [if_pos hit] at last
  exact absurd last (List.cons_ne_nil _ _)

/-- So its arguments are expanded to themselves. -/
theorem LinkCommand.expand_eq (command : LinkCommand) (ctx : LinkContext) (state : LinkState) :
    expandCcResponseFiles ctx state command.parsed.rest = .ok command.args := by
  have rest : command.parsed.rest = command.args := rest_parseArgs _ _ _ _
  have all : ∀ args : List String, (∀ arg ∈ args, startsWith "@" arg = false) →
      args.mapM (expandArg ctx state) = .ok (args.map fun arg => [arg]) := by
    intro args
    induction args with
    | nil => exact fun _ => rfl
    | cons arg args ih =>
      intro plain
      obtain ⟨here, others⟩ := List.forall_mem_cons.mp plain
      have one : expandArg ctx state arg = .ok [arg] := by
        rw [expandArg, afterStart, here]
        rfl
      rw [List.mapM_cons, one, ih others]
      rfl
  rw [expandCcResponseFiles, rest, all command.args command.no_response]
  show Except.ok _ = Except.ok _
  rw [List.flatten_eq_flatMap, List.flatMap_map]
  simp

/-- The inputs of a key are the known operands, as a set of paths. -/
theorem LinkCommand.linkInputs_eq (command : LinkCommand) :
    linkInputs command.parsed command.args =
      pathSet ((knownOperands command.dialect command.args).map utf8) := by
  have sources : command.parsed.sources =
      (((sourceTable command.dialect).operands command.args).filter looksLikeSource).map utf8 :=
    sources_parseArgs command.dialect false command.args _
  rw [linkInputs, sources, ccLinkFileInputs_eq, knownOperands, List.map_append]
  rfl

/-! ## Equal keys -/

theorem applyKeySalt_injective {blake3Hex : List UInt8 → OsStr} (free : CollisionFree blake3Hex)
    {a b : OsStr}
    {salt : Option OsStr} (same : applyKeySalt blake3Hex a salt = applyKeySalt blake3Hex b salt) :
    a = b := by
  unfold applyKeySalt at same
  split at same
  · split at same
    · exact same
    · exact List.append_cancel_left (free.injective same)
  · exact same

theorem applyKeyEnvVars_injective (free : CollisionFree ctx.blake3Hex) {a b : OsStr}
    (same : applyKeyEnvVars ctx a = applyKeyEnvVars ctx b) : a = b := by
  unfold applyKeyEnvVars at same
  split at same
  · exact List.append_cancel_left (free.injective same)
  · exact same

/-- An input that was hashed to the same in both states. -/
def Agree (ctx : LinkContext) (state state' : LinkState) (input : OsStr) : Prop :=
  ∃ path contents, ctx.resolve input = some path ∧ state.read path = some contents ∧
    state'.read path = some contents

/-- Records that are written alike are of inputs with the same contents. -/
theorem agree_of_records (free : CollisionFree ctx.blake3Hex) {inputs : List OsStr}
    {records records' : List (List UInt8)}
    (read : inputs.mapM (inputRecord ctx state) = .ok records)
    (read' : inputs.mapM (inputRecord ctx state') = .ok records')
    (same : records.flatten = records'.flatten) :
    ∀ input ∈ inputs, Agree ctx state state' input := by
  induction inputs generalizing records records' with
  | nil => exact fun input mem => absurd mem List.not_mem_nil
  | cons input inputs ih =>
    rw [List.mapM_cons] at read read'
    obtain ⟨record, made, read⟩ := bind_eq_ok.mp read
    obtain ⟨others, rest, listed⟩ := bind_eq_ok.mp read
    cases listed
    obtain ⟨record', made', read'⟩ := bind_eq_ok.mp read'
    obtain ⟨others', rest', listed⟩ := bind_eq_ok.mp read'
    cases listed
    obtain ⟨path, resolved, made⟩ := bind_eq_ok.mp made
    obtain ⟨contents, found, made⟩ := bind_eq_ok.mp made
    cases made
    obtain ⟨path', resolved', made'⟩ := bind_eq_ok.mp made'
    obtain ⟨contents', found', made'⟩ := bind_eq_ok.mp made'
    cases made'
    rw [okOr_eq_ok] at resolved resolved' found found'
    obtain rfl : path = path' := Option.some.inj (resolved.symm.trans resolved')
    -- a digest ends at the first blank
    simp only [List.flatten_cons, List.append_assoc] at same
    have blank : ∀ bytes : List UInt8, 32 ∉ ctx.blake3Hex bytes := free.notMem (by decide +kernel)
    have ends : utf8 " " = [32] := by decide +kernel
    rw [ends, ← List.append_assoc, ← List.append_assoc (ctx.blake3Hex contents')] at same
    obtain ⟨digest, behind⟩ := selfDelimiting_terminated (32 : UInt8) (blank contents)
      (blank contents') same
    obtain rfl := free.injective digest
    refine List.forall_mem_cons.mpr ⟨⟨path, contents, resolved, found, found'⟩, ?_⟩
    exact ih rest rest' (List.append_cancel_left (List.append_cancel_left behind))

/-- The key made of the records of the inputs. -/
def LinkCommand.keyOf (command : LinkCommand) (ctx : LinkContext) (version : OsStr)
    (records : List (List UInt8)) : OsStr :=
  applyKeySalt ctx.blake3Hex
    (applyKeyEnvVars ctx (ctx.blake3Hex (linkHeader command.parsed ++ version ++ utf8 "\n" ++
      linkArguments ctx command.args ++ utf8 "inputs:\n" ++ records.flatten))) ctx.keySalt

theorem LinkCommand.key_eq_ok_iff (command : LinkCommand) {key : OsStr} :
    cacheKeyForLink ctx command.parsed state = .ok key ↔
      ∃ version records, state.version = some version ∧
        (linkInputs command.parsed command.args).mapM (inputRecord ctx state) = .ok records ∧
        command.keyOf ctx version records = key := by
  simp only [cacheKeyForLink, bind_eq_ok, okOr_eq_ok, command.expand_eq, Except.ok.injEq,
    exists_eq_left', pure, Except.pure]
  constructor
  · rintro ⟨version, probed, records, read, made⟩
    exact ⟨version, records, probed, read, made⟩
  · rintro ⟨version, records, probed, read, made⟩
    exact ⟨version, probed, records, read, made⟩

/-- Equal keys are of states that agree on all inputs. -/
theorem LinkCommand.agree_of_keys (command : LinkCommand) (free : CollisionFree ctx.blake3Hex)
    {key : OsStr} (keyed : cacheKeyForLink ctx command.parsed state = .ok key)
    (keyed' : cacheKeyForLink ctx command.parsed state' = .ok key) :
    ∀ input ∈ linkInputs command.parsed command.args, Agree ctx state state' input := by
  obtain ⟨version, records, probed, read, made⟩ := command.key_eq_ok_iff.mp keyed
  obtain ⟨version', records', probed', read', made'⟩ := command.key_eq_ok_iff.mp keyed'
  have hashed := free.injective (applyKeyEnvVars_injective free (applyKeySalt_injective free
    (made.trans made'.symm)))
  refine agree_of_records free read read' ?_
  -- the header is the same, and the version of the compiler ends with its line
  have newline : utf8 "\n" = [10] := by decide +kernel
  simp only [List.append_assoc] at hashed
  have behind := List.append_cancel_left hashed
  rw [newline, ← List.append_assoc, ← List.append_assoc version'] at behind
  obtain ⟨-, rest⟩ := selfDelimiting_terminated (10 : UInt8) (state.oneLine version probed)
    (state'.oneLine version' probed') behind
  exact List.append_cancel_left (List.append_cancel_left rest)

/-! ## Coverage -/

/-- A key covers the files that a link names: with equal keys, a regular file that an operand names
has the same content. -/
def Covers (ctx : LinkContext) (driver : Driver) (command : LinkCommand) : Prop :=
  ∀ (state state' : LinkState) (key : OsStr), cacheKeyForLink ctx command.parsed state = .ok key →
    cacheKeyForLink ctx command.parsed state' = .ok key →
      ∀ operand ∈ driver.operands command.args, ∀ path, ctx.resolve (utf8 operand) = some path →
        ∀ contents, state.read path = some contents → state'.read path = some contents

/-- Every operand names a file that a known one names, if the known ones can be found at all. -/
def Named (ctx : LinkContext) (driver : Driver) (command : LinkCommand) : Prop :=
  (∀ known ∈ knownOperands command.dialect command.args, (ctx.resolve (utf8 known)).isSome) →
    ∀ operand ∈ driver.operands command.args, ∀ path, ctx.resolve (utf8 operand) = some path →
      ∃ known ∈ knownOperands command.dialect command.args, ∃ place,
      ctx.resolve (utf8 known) = some place ∧
        SamePath place path

theorem resolve_congr (ctx : LinkContext) {a b place : OsStr} (same : SamePath a b)
    (resolved : ctx.resolve b = some place) : ∃ place', ctx.resolve a = some place' ∧
      SamePath place' place := by
  have rooted : isRooted a = isRooted b := isRooted_of_components_eq same
  unfold LinkContext.resolve at *
  revert resolved
  cases ctx.cwd <;> grind [SamePath, components_push_congr]

/-- A state in which one file has the given content and every other file is empty. -/
def stateWith (version : OsStr) (oneLine : 10 ∉ version) (place : OsStr) (contents : List UInt8) :
    LinkState where
  version := some version
  oneLine := by
    rintro line ⟨⟩
    exact oneLine
  files parts := some (if parts = components place then contents else [])

/-- Files that no input is are not in the records. -/
theorem records_stateWith {inputs : List OsStr} {place : OsStr}
    (resolves : ∀ input ∈ inputs, (ctx.resolve input).isSome)
    (apart : ∀ input ∈ inputs, ∀ path, ctx.resolve input = some path → ¬ SamePath path place) :
    ∃ records, ∀ contents,
      inputs.mapM (inputRecord ctx (stateWith [] List.not_mem_nil place contents)) =
        .ok records := by
  induction inputs with
  | nil => exact ⟨[], fun contents => rfl⟩
  | cons input inputs ih =>
    obtain ⟨here, others⟩ := List.forall_mem_cons.mp resolves
    obtain ⟨apart, apart'⟩ := List.forall_mem_cons.mp apart
    obtain ⟨records, rest⟩ := ih others apart'
    obtain ⟨path, resolved⟩ := Option.isSome_iff_exists.mp here
    refine ⟨(ctx.blake3Hex [] ++ utf8 " " ++ ctx.normalize (toStringLossy input) ++ utf8 "\n") ::
      records, fun contents => ?_⟩
    have empty : (stateWith [] List.not_mem_nil place contents).read path = some [] :=
      congrArg some (if_neg (apart path resolved))
    have one : inputRecord ctx (stateWith [] List.not_mem_nil place contents) input =
        .ok (ctx.blake3Hex [] ++ utf8 " " ++ ctx.normalize (toStringLossy input) ++ utf8 "\n") := by
      simp only [inputRecord, bind_eq_ok, okOr_eq_ok]
      exact ⟨path, resolved, [], empty, rfl⟩
    rw [List.mapM_cons, one, rest contents]
    rfl

/-- A link whose known operands are all found, and none at the place of a file, has the same key
whatever that file is. -/
theorem LinkCommand.not_covers (command : LinkCommand) {driver : Driver}
    (resolves : ∀ known ∈ knownOperands command.dialect command.args,
      (ctx.resolve (utf8 known)).isSome)
    {operand : String} (mem : operand ∈ driver.operands command.args) {path : OsStr}
    (resolved : ctx.resolve (utf8 operand) = some path)
    (unnamed : ∀ known ∈ knownOperands command.dialect command.args, ∀ place,
      ctx.resolve (utf8 known) = some place → ¬ SamePath place path) :
    ¬ Covers ctx driver command := by
  intro covers
  have among : ∀ input ∈ linkInputs command.parsed command.args,
      ∃ known ∈ knownOperands command.dialect command.args, utf8 known = input := by
    intro input listed
    rw [command.linkInputs_eq] at listed
    exact List.mem_map.mp (mem_of_mem_pathSet listed)
  have apart : ∀ input ∈ linkInputs command.parsed command.args, ∀ place,
      ctx.resolve input = some place → ¬ SamePath place path := by
    intro input listed
    obtain ⟨known, inside, rfl⟩ := among input listed
    exact unnamed known inside
  have found : ∀ input ∈ linkInputs command.parsed command.args, (ctx.resolve input).isSome := by
    intro input listed
    obtain ⟨known, inside, rfl⟩ := among input listed
    exact resolves known inside
  obtain ⟨records, read⟩ := records_stateWith found apart
  have keyed : ∀ contents,
      cacheKeyForLink ctx command.parsed (stateWith [] List.not_mem_nil path contents) =
        .ok (command.keyOf ctx [] records) :=
    fun contents => command.key_eq_ok_iff.mpr ⟨[], records, rfl, read contents, rfl⟩
  have content : ∀ contents, (stateWith [] List.not_mem_nil path contents).read path =
      some contents :=
    fun contents => congrArg some (if_pos rfl)
  have same := covers _ _ _ (keyed []) (keyed [0]) operand mem path resolved [] (content [])
  rw [content] at same
  cases same

/-- A link key covers the files a link names exactly if every operand names a file that a known
operand names. -/
theorem covers_iff_named (ctx : LinkContext) (free : CollisionFree ctx.blake3Hex) (driver : Driver)
    (command : LinkCommand) : Covers ctx driver command ↔ Named ctx driver command := by
  have inputs := command.linkInputs_eq
  constructor
  · intro covers resolves operand mem path resolved
    by_contra unnamed
    refine command.not_covers resolves mem resolved (fun known inside place there same => ?_) covers
    exact unnamed ⟨known, inside, place, there, same⟩
  · intro named state state' key keyed keyed' operand mem path resolved contents found
    have agree := command.agree_of_keys free keyed keyed'
    have kept : ∀ known ∈ knownOperands command.dialect command.args,
        ∃ input ∈ linkInputs command.parsed command.args, SamePath input (utf8 known) := by
      intro known inside
      rw [inputs]
      exact exists_mem_pathSet (List.mem_map_of_mem inside)
    have resolves : ∀ known ∈ knownOperands command.dialect command.args,
        (ctx.resolve (utf8 known)).isSome := by
      intro known inside
      obtain ⟨input, listed, same⟩ := kept known inside
      obtain ⟨place, -, there, -⟩ := agree input listed
      obtain ⟨place', there', -⟩ := resolve_congr ctx same.symm there
      rw [there']
      rfl
    obtain ⟨known, inside, place, there, samePlace⟩ := named resolves operand mem path resolved
    obtain ⟨input, listed, same⟩ := kept known inside
    obtain ⟨place', there', samePlace'⟩ := resolve_congr ctx same there
    obtain ⟨hashedAt, hashed, resolved', read, read'⟩ := agree input listed
    obtain rfl : place' = hashedAt := Option.some.inj (there'.symm.trans resolved')
    have one : components place' = components path := samePlace'.trans samePlace
    rw [LinkState.read, one] at read read'
    rw [LinkState.read] at found ⊢
    rw [read']
    exact read.symm.trans found

/-! ### Two links -/

/-- Options of a link and of its outputs that GCC takes a value of from the next argument. -/
def gccDriver : Driver where
  isOption := startsWith "-"
  takesNext arg :=
    decide (arg ∈ ["-o", "-I", "-L", "-include", "-l", "-T", "-u", "-z", "-e", "-Xlinker", "-x"])

/-- A link in `/w` with paths left as they are. -/
def plainContext : LinkContext where
  blake3Hex := hexText
  normalize := id
  cwd := some (utf8 "/w")
  keyEnvDigest := none
  keySalt := none

/-- `cc -o x main.o`. -/
def objectLink : LinkCommand where
  program := "cc"
  args := ["-o", "x", "main.o"]
  dialect := .gnu
  isLink := by decide +kernel
  accepted := by decide +kernel

/-- `cc -o x main.o libx.so.1`. -/
def versionedLink : LinkCommand where
  program := "cc"
  args := ["-o", "x", "main.o", "libx.so.1"]
  dialect := .gnu
  isLink := by decide +kernel
  accepted := by decide +kernel

theorem objectLink_covers : CollisionFree plainContext.blake3Hex ∧
    Named plainContext gccDriver objectLink ∧ Covers plainContext gccDriver objectLink := by
  have named : Named plainContext gccDriver objectLink := by
    intro _ operand mem path resolved
    have only : operand = "main.o" := by
      have operands : gccDriver.operands objectLink.args = ["main.o"] := by decide +kernel
      rw [operands] at mem
      exact List.mem_singleton.mp mem
    subst only
    exact ⟨"main.o", by decide +kernel, path, resolved, rfl⟩
  exact ⟨collisionFree_hexText, named,
    (covers_iff_named plainContext collisionFree_hexText gccDriver objectLink).mpr named⟩

/-- The library with a version after its extension is not in the key. -/
theorem versionedLink_uncovered :
    ¬ ∀ (ctx : LinkContext) (_ : CollisionFree ctx.blake3Hex) (driver : Driver)
        (command : LinkCommand),
      Covers ctx driver command := by
  intro covers
  have known : knownOperands versionedLink.dialect versionedLink.args = ["main.o"] := by
    decide +kernel
  have object : plainContext.resolve (utf8 "main.o") = some (utf8 "/w/main.o") := by decide +kernel
  have library : plainContext.resolve (utf8 "libx.so.1") = some (utf8 "/w/libx.so.1") := by
    decide +kernel
  refine versionedLink.not_covers ?_
    (by decide +kernel : "libx.so.1" ∈ gccDriver.operands versionedLink.args)
    library ?_ (covers plainContext collisionFree_hexText gccDriver versionedLink)
  · rw [known]
    intro operand mem
    rw [List.mem_singleton.mp mem, object]
    rfl
  · rw [known]
    intro operand mem place there same
    rw [List.mem_singleton.mp mem, object] at there
    cases there
    exact absurd same (by decide +kernel)

end Kache.Cc
