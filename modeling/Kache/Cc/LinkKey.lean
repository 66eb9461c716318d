import Kache.Foundation.Checks
import Kache.Foundation.Fields
import Kache.Foundation.PathBuf
import Kache.Foundation.PathOrder
import Kache.Foundation.Text
import Mathlib.Data.List.Infix

/-!
# The key of a link

A link is keyed by the compiler, its arguments and the contents of the files that it names.  Which
arguments name files is decided by their form: sources are collected when the arguments are parsed,
and objects and libraries by another pass over them, which knows of four options with a value of
their own and of nine extensions.

The table of options is the one of the parser, with what a row does to the fields that a link reads;
the other actions only set fields of compiles.
-/

namespace Kache.Cc

open UnixPath

/-- The flags a compiler driver speaks. -/
inductive Dialect where
  | gnu
  | cl
  deriving DecidableEq

/-- What stage the compiler is asked to produce. -/
inductive CompileMode where
  | compile
  | preprocess
  | assemble
  | link
  deriving DecidableEq

/-- How a row of the table is matched. -/
inductive Matcher where
  | exact (s : String)
  | start (s : String)

/-- Where the value of an option is. -/
inductive CcArgValueForm where
  | flag
  | separated
  | concatenated (start : String)
  | canBeSeparated (start : String)

/-- What an option does to the fields that a link reads. -/
inductive CcArgAction where
  | setMode (mode : CompileMode)
  | setOutput
  | other

/-- A row of `CC_ARG_SPECS`. -/
structure CcArgSpec where
  matcher : Matcher
  valueForm : CcArgValueForm
  action : CcArgAction
  dialect : Option Dialect

/-- `starts_with`. -/
def startsWith (start arg : String) : Bool := start.toList.isPrefixOf arg.toList

/-- `strip_prefix`. -/
def afterStart (start arg : String) : Option String :=
  if startsWith start arg then some (String.ofList (arg.toList.drop start.toList.length)) else none

/-- A row for an option without a value. -/
def flagRow (name : String) (action : CcArgAction) (dialect : Option Dialect) : CcArgSpec :=
  ⟨.exact name, .flag, action, dialect⟩

/-- A row for an option whose value is the next argument. -/
def separatedRow (name : String) (action : CcArgAction) (dialect : Option Dialect) : CcArgSpec :=
  ⟨.exact name, .separated, action, dialect⟩

/-- A row for an option whose value may be the next argument. -/
def eitherRow (name : String) (dialect : Option Dialect) : CcArgSpec :=
  ⟨.start name, .canBeSeparated name, .other, dialect⟩

/-- A row for an option with its value behind it. -/
def joinedRow (name : String) (action : CcArgAction) (dialect : Option Dialect) : CcArgSpec :=
  ⟨.start name, .concatenated name, action, dialect⟩

/-- `CC_ARG_SPECS`. -/
def ccArgSpecs : List CcArgSpec :=
  [flagRow "-c" (.setMode .compile) none,
    flagRow "/c" (.setMode .compile) (some .cl),
    flagRow "-E" (.setMode .preprocess) none,
    flagRow "-S" (.setMode .assemble) none,
    separatedRow "-o" .setOutput none,
    flagRow "-fPIC" .other none,
    flagRow "-fpic" .other none,
    flagRow "-g" .other none,
    flagRow "-g0" .other none,
    flagRow "-g1" .other none,
    flagRow "-g2" .other none,
    flagRow "-g3" .other none,
    flagRow "-O" .other none,
    flagRow "-O0" .other none,
    flagRow "-O1" .other none,
    flagRow "-O2" .other none,
    flagRow "-O3" .other none,
    flagRow "-Os" .other none,
    flagRow "-Oz" .other none,
    flagRow "-Og" .other none,
    flagRow "-MD" .other (some .gnu),
    flagRow "-MMD" .other (some .gnu),
    flagRow "-MP" .other (some .gnu),
    flagRow "-MG" .other (some .gnu),
    separatedRow "-MF" .other (some .gnu),
    separatedRow "-MT" .other (some .gnu),
    separatedRow "-MQ" .other (some .gnu),
    eitherRow "-x" none,
    eitherRow "-I" none,
    eitherRow "/imsvc" (some .cl),
    eitherRow "-imsvc" (some .cl),
    eitherRow "-D" none,
    joinedRow "-std=" .other none,
    joinedRow "-Fo" .setOutput (some .cl),
    joinedRow "/Fo" .setOutput (some .cl),
    joinedRow "-std:" .other (some .cl),
    joinedRow "/std:" .other (some .cl)]

/-- `ParsedCcArg`, with the action of its row. -/
structure ParsedCcArg where
  action : CcArgAction
  value : Option String
  /-- Whether the next argument is the value. -/
  takesNext : Bool

/-- `cc_arg_spec_matches`. -/
def ccArgSpecMatches (spec : CcArgSpec) (arg : String) : Bool :=
  match spec.matcher with
  | .exact s => arg == s
  | .start s => startsWith s arg

/-- `parse_cc_arg_with_spec`, the next argument given. -/
def parseCcArgWithSpec (spec : CcArgSpec) (arg : String) (next : Option String)
    (dialect : Dialect) : Option ParsedCcArg :=
  if spec.dialect.all (· == dialect) then
    match spec.valueForm with
    | .flag => if ccArgSpecMatches spec arg then some ⟨spec.action, none, false⟩ else none
    | .separated => if ccArgSpecMatches spec arg then some ⟨spec.action, next, next.isSome⟩
        else none
    | .concatenated start => (afterStart start arg).map fun value =>
        ⟨spec.action, some value, false⟩
    | .canBeSeparated start =>
      if arg = start then some ⟨spec.action, next, next.isSome⟩
      else ((afterStart start arg).filter (· ≠ "")).map fun value =>
        ⟨spec.action, some value, false⟩
  else none

/-- `parse_cc_arg_at`. -/
def parseCcArgAt (arg : String) (next : Option String) (dialect : Dialect) : Option ParsedCcArg :=
  ccArgSpecs.findSome? fun spec => parseCcArgWithSpec spec arg next dialect

/-- `SOURCE_EXTENSIONS`. -/
def sourceExtensions : List OsStr :=
  ["c", "cc", "cpp", "cxx", "c++", "C", "m", "mm", "M", "i", "ii", "S", "s", "sx"].map utf8

/-- `looks_like_source`. -/
def looksLikeSource (arg : String) : Bool :=
  (extension (utf8 arg)).any fun ext => ext ∈ sourceExtensions

/-- The fields of `CcArgs` that a link reads. -/
structure CcArgs where
  program : String
  rest : List String
  sources : List OsStr
  output : Option OsStr
  mode : CompileMode

/-- `apply_cc_arg`. -/
def applyCcArg (parsed : CcArgs) (arg : ParsedCcArg) : CcArgs :=
  match arg.action with
  | .setMode mode => { parsed with mode := mode }
  | .setOutput =>
    match arg.value with
    | some value => { parsed with output := some (utf8 value) }
    | none => parsed
  | .other => parsed

/-- The loop of `parse_for`; the flag says that the next argument was the value of the last one. -/
def parseArgs (dialect : Dialect) : Bool → List String → CcArgs → CcArgs
  | _, [], parsed => parsed
  | true, _ :: rest, parsed => parseArgs dialect false rest parsed
  | false, arg :: rest, parsed =>
    match parseCcArgAt arg rest.head? dialect with
    | some known => parseArgs dialect known.takesNext rest (applyCcArg parsed known)
    | none =>
      parseArgs dialect false rest
        (if startsWith "-" arg = false ∧ looksLikeSource arg = true then
          { parsed with sources := parsed.sources ++ [utf8 arg] }
        else parsed)

/-- `CcArgs::parse_for`. -/
def parseFor (program : String) (rest : List String) (dialect : Dialect) : CcArgs :=
  parseArgs dialect false rest ⟨program, rest, [], none, .link⟩

/-! ## Links that are cached -/

/-- `CcArgs::refuse_reasons` of a link. -/
def CcArgs.linkRefuseReasons (parsed : CcArgs) : List String :=
  "cc link mode (whole-program caching) — not yet" ::
    if parsed.output = some (utf8 "-") then ["cc output to stdout — not yet"] else []

/-- The arguments, with those handed on to the linker. -/
def linkerArgs (rest : List String) : List String :=
  rest.flatMap fun arg =>
    arg ::
      match afterStart "-Wl," arg with
      | some flags => (flags.toList.splitOn ',').map String.ofList
      | none => []

/-- `refuse_reasons` of a link, with links cached. -/
def refuseReasons (parsed : CcArgs) : List String :=
  (parsed.linkRefuseReasons.filter fun detail => ¬ "cc link mode".toList <:+: detail.toList) ++
    (if parsed.output = none then ["cc link mode without -o — not cacheable"] else []) ++
    if (linkerArgs parsed.rest).any (startsWith "@") then
      ["cc link response files have untracked library selections"]
    else if (linkerArgs parsed.rest).any fun arg =>
        startsWith "-l" arg || arg == "--library" || startsWith "--library=" arg then
      ["cc link libraries selected by name have untracked dependencies"]
    else []

/-- The extensions of objects and libraries. -/
def linkExtensions : List OsStr :=
  ["o", "obj", "a", "lib", "so", "dylib", "dll", "res", "lo"].map utf8

/-- Whether an argument has one of these extensions. -/
def hasLinkExtension (arg : String) : Bool := (extension (utf8 arg)).getD [] ∈ linkExtensions

/-- `cc_link_file_inputs`; the flag is `skip_next`. -/
def ccLinkFileInputs : Bool → List String → List OsStr
  | _, [] => []
  | true, _ :: args => ccLinkFileInputs false args
  | false, arg :: args =>
    if arg = "-o" ∨ arg = "-I" ∨ arg = "-L" ∨ arg = "-include" then ccLinkFileInputs true args
    else if startsWith "-" arg then ccLinkFileInputs false args
    else if hasLinkExtension arg then utf8 arg :: ccLinkFileInputs false args
    else ccLinkFileInputs false args

/-! ## The key -/

/-- What is the same for every key of an invocation. -/
structure LinkContext where
  blake3Hex : List UInt8 → OsStr
  /-- `PathNormalizer::normalize`. -/
  normalize : OsStr → OsStr
  cwd : Option OsStr
  /-- `key_env_digest`, if there are patterns. -/
  keyEnvDigest : Option OsStr
  keySalt : Option OsStr

/-- `InvocationEnv::resolve`. -/
def LinkContext.resolve (ctx : LinkContext) (path : OsStr) : Option OsStr :=
  if isRooted path then some path
  else
    match ctx.cwd with
    | some cwd => if isRooted cwd then some (push cwd path) else none
    | none => none

/-- What the compiler and the file system answer. -/
structure LinkState where
  /-- The first line of `--version`, if the compiler runs. -/
  version : Option OsStr
  oneLine : ∀ line ∈ version, 10 ∉ line
  /-- The content of the regular file at a path. -/
  files : List Component → Option (List UInt8)

/-- The content of a file. -/
def LinkState.read (state : LinkState) (path : OsStr) : Option (List UInt8) :=
  state.files (components path)

/-- Why there is no key. -/
inductive LinkError where
  | probe
  /-- `resolving cc response file` -/
  | unresolvedResponse
  /-- `reading cc response file` -/
  | unreadableResponse
  /-- `resolving cc link input` -/
  | unresolved
  /-- `hashing link input` -/
  | unreadable (input : OsStr)
  deriving DecidableEq

/-- What one argument is expanded to. -/
def expandArg (ctx : LinkContext) (state : LinkState) (arg : String) :
    Except LinkError (List String) :=
  match afterStart "@" arg with
  | none => .ok [arg]
  | some path => do
      let resolved ← okOr .unresolvedResponse (ctx.resolve (utf8 path))
      let body ← okOr .unreadableResponse ((state.read resolved).bind Text.fromUtf8)
      return (fieldsOf Text.isWhitespace body).map String.ofList

/-- `expand_cc_response_files`. -/
def expandCcResponseFiles (ctx : LinkContext) (state : LinkState) (args : List String) :
    Except LinkError (List String) := do
  let expanded ← args.mapM (expandArg ctx state)
  return expanded.flatten

/-- What the hasher is given for one input. -/
def inputRecord (ctx : LinkContext) (state : LinkState) (input : OsStr) :
    Except LinkError (List UInt8) := do
  let resolved ← okOr .unresolved (ctx.resolve input)
  let contents ← okOr (.unreadable input) (state.read resolved)
  return ctx.blake3Hex contents ++ utf8 " " ++ ctx.normalize (toStringLossy input) ++ utf8 "\n"

/-- `fold_labeled`. -/
def foldLabeled (blake3Hex : List UInt8 → OsStr) (base label value : OsStr) : OsStr :=
  blake3Hex (label ++ utf8 ":" ++ value ++ [0x1f] ++ base)

/-- `apply_key_salt`. -/
def applyKeySalt (blake3Hex : List UInt8 → OsStr) (base : OsStr) (salt : Option OsStr) : OsStr :=
  match salt with
  | some salt => if salt = [] then base else foldLabeled blake3Hex base (utf8 "key_salt") salt
  | none => base

/-- `apply_key_env_vars_in`. -/
def applyKeyEnvVars (ctx : LinkContext) (base : OsStr) : OsStr :=
  match ctx.keyEnvDigest with
  | some digest => foldLabeled ctx.blake3Hex base (utf8 "key_env_vars") digest
  | none => base

/-- The hash input before the version of the compiler. -/
def linkHeader (parsed : CcArgs) : List UInt8 :=
  utf8 "cc_link_key_version:2\n" ++ utf8 "cc_artifact_schema:4\n" ++ utf8 "compiler:" ++
    (fileName (utf8 parsed.program)).getD (utf8 parsed.program) ++ utf8 "\n" ++
    utf8 "compiler_version:"

/-- The hash input for the arguments. -/
def linkArguments (ctx : LinkContext) (expanded : List String) : List UInt8 :=
  utf8 "argv:" ++ (expanded.flatMap fun arg => ctx.normalize (utf8 arg) ++ [0x1f]) ++ utf8 "\n"

/-- The files a link key is made of. -/
def linkInputs (parsed : CcArgs) (expanded : List String) : List OsStr :=
  pathSet (parsed.sources ++ ccLinkFileInputs false expanded)

/-- `cache_key_for_link`. -/
def cacheKeyForLink (ctx : LinkContext) (parsed : CcArgs) (state : LinkState) :
    Except LinkError OsStr := do
  let version ← okOr .probe state.version
  let expanded ← expandCcResponseFiles ctx state parsed.rest
  let records ← (linkInputs parsed expanded).mapM (inputRecord ctx state)
  let hasher := linkHeader parsed ++ version ++ utf8 "\n" ++ linkArguments ctx expanded ++
    utf8 "inputs:\n" ++ records.flatten
  return applyKeySalt ctx.blake3Hex (applyKeyEnvVars ctx (ctx.blake3Hex hasher)) ctx.keySalt

end Kache.Cc
