import Kache.Foundation.Ascii
import Kache.Foundation.Rows
import Kache.Foundation.Text
import Kache.Foundation.UnixPath
import Mathlib.Data.List.Infix

/-!
# Prediction rows for the remote

`prediction_share.rs` publishes rows that list the inputs of a unit.  Before a row leaves the
machine, a path under the registry directory is written relative to it, and a row with any other
absolute path in it is not published.  An entry counts as an absolute path if it begins with a
slash.

Strings are byte strings here; those of the source are UTF-8.
-/

namespace Kache.PredictionShare

open UnixPath
open Ascii (backslash)

/-! ## Rows -/

/-- `Portable`. -/
inductive Portable where
  | literal (value : OsStr)
  | outDir (suffix : OsStr)
  | workspace (suffix : OsStr)
  | registry (suffix : OsStr)
  deriving DecidableEq

/-- The text of an entry. -/
def Portable.text : Portable → OsStr
  | .literal text | .outDir text | .workspace text | .registry text => text

/-- `PortablePrediction`. -/
structure PortablePrediction where
  schema : UInt32
  sources : List Portable
  envDeps : List (OsStr × Option Portable)
  tree : OsStr
  deriving DecidableEq

/-- `InputPrediction`. -/
structure InputPrediction where
  schema : UInt32
  sources : List OsStr
  envDeps : List (OsStr × Option OsStr)
  tree : Option OsStr
  deriving DecidableEq

/-- `PlainRow`. -/
structure PlainRow where
  schema : UInt32
  sources : List Portable
  envDeps : List (OsStr × Option Portable)
  tree : Option OsStr
  deriving DecidableEq

/-- `SharedPrediction`. -/
inductive SharedPrediction where
  | portable (row : PortablePrediction)
  | plain (row : PlainRow)
  deriving DecidableEq

/-! ## Registry paths -/

/-- `stays_below`, from the depth that was reached. -/
def staysBelow (floor : ℕ) : ℕ → List OsStr → Bool
  | _, [] => true
  | depth, component :: rest =>
    if component = [] then false
    else if component = dot then staysBelow floor depth rest
    else if component = dotDot then floor < depth && staysBelow floor (depth - 1) rest
    else staysBelow floor (depth + 1) rest

/-- `suffix_within`. -/
def suffixWithin (value root : OsStr) (floor : ℕ) : Option OsStr :=
  if root.isPrefixOf value then
    let suffix := value.drop root.length
    if (Text.fromUtf8 suffix).isNone then none
    else
      match suffix with
      | [] => some []
      | c :: components =>
        if (c = slash ∨ c = backslash) ∧
            staysBelow floor 0 (components.splitOnP fun b => b = slash ∨ b = backslash) ∧
            staysBelow floor 0 (components.splitOn slash) then some (c :: components)
        else none
  else none

/-- `registry_suffix`. -/
def registrySuffix (value registry : OsStr) : Option OsStr :=
  (suffixWithin value registry 2).filter (· ≠ [])

/-! ## What travels -/

/-- `for_remote_value`. -/
def forRemoteValue (value : OsStr) (registry : Option OsStr) : Option Portable :=
  if isRooted value = false then some (.literal value)
  else registry.bind fun root => (registrySuffix value root).map .registry

/-- `for_remote_entry`. -/
def forRemoteEntry (entry : Portable) (registry : Option OsStr) : Option Portable :=
  match entry with
  | .literal value => forRemoteValue value registry
  | relative => some relative

/-- A variable of the environment, which may be unset, as it may travel. -/
def travellingDep {β : Type} (value : β → Option Portable) (dep : OsStr × Option β) :
    Option (OsStr × Option Portable) :=
  match dep.2 with
  | some held => (value held).map fun sent => (dep.1, some sent)
  | none => some (dep.1, none)

/-- The sources and the environment of a row as they may travel, if every one of them may. -/
def travelling {α β : Type} (source : α → Option Portable) (value : β → Option Portable)
    (sources : List α)
    (envDeps : List (OsStr × Option β)) : Option (List Portable × List (OsStr × Option Portable)) :=
      do
  let sources ← sources.mapM source
  let envDeps ← envDeps.mapM (travellingDep value)
  some (sources, envDeps)

/-- `for_remote_portable`. -/
def forRemotePortable (row : PortablePrediction) (registry : Option OsStr) :
    Option SharedPrediction :=
  (travelling (forRemoteEntry · registry)
    (forRemoteEntry · registry) row.sources row.envDeps).map fun sent =>
    .portable ⟨row.schema, sent.1, sent.2, row.tree⟩

/-- A source of a plain row: `to_str` refuses what is not UTF-8. -/
def forRemoteSource (registry source : OsStr) : Option Portable :=
  if (Text.fromUtf8 source).isSome then forRemoteValue source (some registry) else none

/-- `for_remote_plain`. -/
def forRemotePlain (row : InputPrediction) (registry : OsStr) : Option SharedPrediction :=
  (travelling (forRemoteSource registry)
    (forRemoteValue · (some registry)) row.sources row.envDeps).map fun sent =>
    .plain ⟨row.schema, sent.1, sent.2, row.tree⟩

/-! ## What a row shows -/

/-- The values of an environment that are set. -/
def setValues {β : Type} (envDeps : List (OsStr × Option β)) : List β := envDeps.filterMap (·.2)

/-- The source entries and environment values of a published row. -/
def SharedPrediction.entries : SharedPrediction → List Portable
  | .portable row => row.sources ++ setValues row.envDeps
  | .plain row => row.sources ++ setValues row.envDeps

/-- No entry of the published row contains the text. -/
def Silent (secret : OsStr) (shared : SharedPrediction) : Prop :=
  ∀ entry ∈ shared.entries, ¬ secret <:+: entry.text

/-- The text stands in the entry, and not in the registry directory at its beginning. -/
def Carries (secret : OsStr) (registry : Option OsStr) : Portable → Prop
  | .literal value =>
    if isRooted value then ∃ root, registry = some root ∧ ∃ rest, value = root ++ rest ∧
      secret <:+: rest
    else secret <:+: value
  | .outDir suffix | .workspace suffix | .registry suffix => secret <:+: suffix

/-- The entry is an absolute path outside the registry directory. -/
def Foreign (registry : Option OsStr) : Portable → Prop
  | .literal value => isRooted value = true ∧ ∀ root, registry = some root →
      registrySuffix value root = none
  | .outDir _ | .workspace _ | .registry _ => False

theorem append_of_registrySuffix {value root suffix : OsStr}
    (found : registrySuffix value root = some suffix) : value = root ++ suffix := by
  obtain ⟨within, -⟩ := Option.filter_eq_some_iff.mp found
  obtain ⟨begins, within⟩ := Option.ite_none_right_eq_some.mp within
  obtain ⟨rest, rfl⟩ := List.isPrefixOf_iff_prefix.mp begins
  rw [List.drop_left] at within
  grind

section Entries

variable {secret : OsStr} {registry : Option OsStr}

theorem forRemoteEntry_eq_none {entry : Portable} :
    forRemoteEntry entry registry = none ↔ Foreign registry entry := by
  cases entry with
  | literal value =>
    rw [forRemoteEntry, forRemoteValue, Foreign]
    by_cases rooted : isRooted value = true
    · cases registry with
      | none => simp [rooted]
      | some root => simp [rooted]
    · simp [rooted]
  | outDir suffix => simp [forRemoteEntry, Foreign]
  | workspace suffix => simp [forRemoteEntry, Foreign]
  | registry suffix => simp [forRemoteEntry, Foreign]

/-- What is left of an entry shows exactly what it carried outside the registry directory. -/
theorem forRemoteEntry_text {entry sent : Portable}
    (travels : forRemoteEntry entry registry = some sent) :
    secret <:+: sent.text ↔ Carries secret registry entry := by
  cases entry with
  | outDir suffix | workspace suffix | registry suffix =>
    obtain rfl := Option.some.inj travels
    exact Iff.rfl
  | literal value =>
    rw [forRemoteEntry, forRemoteValue] at travels
    by_cases rooted : isRooted value = true
    · rw [if_neg (by simp [rooted])] at travels
      obtain ⟨root, rfl, travels⟩ := Option.bind_eq_some_iff.mp travels
      obtain ⟨suffix, found, rfl⟩ := Option.map_eq_some_iff.mp travels
      have whole := append_of_registrySuffix found
      rw [Carries, if_pos rooted]
      constructor
      · exact fun shown => ⟨root, rfl, suffix, whole, shown⟩
      · rintro ⟨root', same, rest, split, shown⟩
        obtain rfl := Option.some.inj same
        rw [whole] at split
        rwa [← List.append_cancel_left split] at shown
    · rw [if_pos (by simpa using rooted)] at travels
      obtain rfl := Option.some.inj travels
      rw [Carries, if_neg rooted]
      exact Iff.rfl

end Entries

/-! ## Whole rows -/

section Rows

variable {α β : Type} {source : α → Option Portable} {value : β → Option Portable}
    {sources : List α}
  {envDeps : List (OsStr × Option β)} {secret : OsStr}

theorem travelling_eq : travelling source value sources envDeps =
    (sources.mapM source).bind fun sent => (envDeps.mapM (travellingDep value)).bind fun env =>
      some (sent, env) :=
  rfl

theorem travellingDep_eq_none {dep : OsStr × Option β} :
    travellingDep value dep = none ↔ ∃ held, dep.2 = some held ∧ value held = none := by
  obtain ⟨name, held⟩ := dep
  cases held with
  | none => simp [travellingDep]
  | some held => simp [travellingDep]

theorem mem_setValues {held : β} : held ∈ setValues envDeps ↔ ∃ dep ∈ envDeps, dep.2 = some held :=
  List.mem_filterMap

/-- A row is refused for one of its entries. -/
theorem travelling_eq_none : travelling source value sources envDeps = none ↔
    (∃ a ∈ sources, source a = none) ∨ ∃ held ∈ setValues envDeps, value held = none := by
  have environment : (envDeps.mapM (travellingDep value)) = none ↔ ∃ held ∈ setValues envDeps,
      value held = none := by
    rw [mapM_eq_none_iff]
    simp only [travellingDep_eq_none, mem_setValues]
    constructor
    · rintro ⟨dep, mem, held, set, refused⟩
      exact ⟨held, ⟨dep, mem, set⟩, refused⟩
    · rintro ⟨held, ⟨dep, mem, set⟩, refused⟩
      exact ⟨dep, mem, held, set, refused⟩
  rw [travelling_eq, ← mapM_eq_none_iff, ← environment]
  cases sources.mapM source with
  | none => simp
  | some sent => cases envDeps.mapM (travellingDep value) <;> simp

/-- The entries of a row that travels are those of the row it was made from, one by one. -/
theorem mem_travelling {sent : List Portable × List (OsStr × Option Portable)}
    (travels : travelling source value sources envDeps = some sent) {entry : Portable} :
    entry ∈ sent.1 ++ setValues sent.2 ↔
      (∃ a ∈ sources, source a = some entry) ∨ ∃ held ∈ setValues envDeps,
        value held = some entry := by
  rw [travelling_eq] at travels
  obtain ⟨sentSources, first, travels⟩ := Option.bind_eq_some_iff.mp travels
  obtain ⟨sentEnv, second, done⟩ := Option.bind_eq_some_iff.mp travels
  obtain rfl := Option.some.inj done
  rw [List.mem_append, mem_setValues]
  refine or_congr ?_ ?_
  · exact mem_mapM first
  · constructor
    · rintro ⟨dep, mem, set⟩
      obtain ⟨before, there, made⟩ := (mem_mapM second).mp mem
      obtain ⟨name, held⟩ := before
      cases held with
      | none =>
        obtain rfl := Option.some.inj made
        cases set
      | some held =>
        obtain ⟨sent, found, rfl⟩ := Option.map_eq_some_iff.mp made
        obtain rfl := Option.some.inj set
        exact ⟨held, mem_setValues.mpr ⟨_, there, rfl⟩, found⟩
    · rintro ⟨held, mem, found⟩
      obtain ⟨⟨name, _⟩, there, rfl⟩ := mem_setValues.mp mem
      exact ⟨(name, some entry), (mem_mapM second).mpr ⟨_, there, by simp [travellingDep, found]⟩,
        rfl⟩

/-- When a row that may travel shows nothing: it is refused, or none of its entries carries the
secret. -/
theorem silent_iff {onSource : α → Prop} {onValue : β → Prop}
    (sourceText : ∀ a entry, source a = some entry → (secret <:+: entry.text ↔ onSource a))
    (valueText : ∀ held entry, value held = some entry → (secret <:+: entry.text ↔ onValue held)) :
    (∀ sent, travelling source value sources envDeps = some sent →
        ∀ entry ∈ sent.1 ++ setValues sent.2, ¬ secret <:+: entry.text) ↔
      ((∃ a ∈ sources, source a = none) ∨ ∃ held ∈ setValues envDeps, value held = none) ∨
        ((∀ a ∈ sources, ¬ onSource a) ∧ ∀ held ∈ setValues envDeps, ¬ onValue held) := by
  rw [← travelling_eq_none]
  cases travels : travelling source value sources envDeps with
  | none => simp
  | some sent =>
    have passes : ¬ (travelling source value sources envDeps = none) := by simp [travels]
    rw [travelling_eq_none, not_or] at passes
    push Not at passes
    obtain ⟨sourcesPass, valuesPass⟩ := passes
    rw [or_iff_right (by simp)]
    constructor
    · intro silent
      constructor
      · intro a mem carries
        obtain ⟨entry, found⟩ := Option.ne_none_iff_exists'.mp (sourcesPass a mem)
        exact silent sent rfl entry ((mem_travelling travels).mpr (.inl ⟨a, mem, found⟩))
          ((sourceText a entry found).mpr carries)
      · intro held mem carries
        obtain ⟨entry, found⟩ := Option.ne_none_iff_exists'.mp (valuesPass held mem)
        exact silent sent rfl entry ((mem_travelling travels).mpr (.inr ⟨held, mem, found⟩))
          ((valueText held entry found).mpr carries)
    · rintro ⟨noSource, noValue⟩ sent' same entry mem shown
      obtain rfl := Option.some.inj same
      rcases (mem_travelling travels).mp mem with ⟨a, there, found⟩ | ⟨held, there, found⟩
      · exact noSource a there ((sourceText a entry found).mp shown)
      · exact noValue held there ((valueText held entry found).mp shown)

end Rows

/-- The entries of a portable row: its sources and the values of its environment. -/
def PortablePrediction.entries (row : PortablePrediction) : List Portable :=
  row.sources ++ setValues row.envDeps

/-- The entries of a plain row. -/
def InputPrediction.entries (row : InputPrediction) : List Portable :=
  (row.sources ++ setValues row.envDeps).map .literal

/-- The row names an absolute path outside the registry directory, and so it is not published. -/
def NamesForeign (registry : Option OsStr) (entries : List Portable) : Prop :=
  ∃ entry ∈ entries, Foreign registry entry

/-- No entry has the text in it, other than in the registry directory at its beginning. -/
def CarriesNowhere (secret : OsStr) (registry : Option OsStr) (entries : List Portable) : Prop :=
  ∀ entry ∈ entries, ¬ Carries secret registry entry

theorem forRemotePortable_silent_iff (row : PortablePrediction) (registry : Option OsStr)
    (secret : OsStr) :
    (∀ shared, forRemotePortable row registry = some shared → Silent secret shared) ↔
      NamesForeign registry row.entries ∨ CarriesNowhere secret registry row.entries := by
  have rows := @silent_iff _ _ (forRemoteEntry · registry)
    (forRemoteEntry · registry) row.sources row.envDeps secret _ _
    (fun _ _ found => forRemoteEntry_text found) (fun _ _ found => forRemoteEntry_text found)
  have published : (∀ shared, forRemotePortable row registry = some shared → Silent secret shared) ↔
      ∀ sent, travelling (forRemoteEntry · registry)
      (forRemoteEntry · registry) row.sources row.envDeps = some sent →
        ∀ entry ∈ sent.1 ++ setValues sent.2, ¬ secret <:+: entry.text := by
    simp only [forRemotePortable, Option.map_eq_some_iff, forall_exists_index, and_imp,
      forall_apply_eq_imp_iff₂]
    rfl
  rw [published, rows]
  simp only [forRemoteEntry_eq_none, NamesForeign, CarriesNowhere, PortablePrediction.entries,
    List.mem_append, or_imp, forall_and, or_and_right, exists_or]

theorem forRemoteValue_eq_none {registry : Option OsStr} {held : OsStr} :
    forRemoteValue held registry = none ↔ Foreign registry (.literal held) :=
  @forRemoteEntry_eq_none registry (.literal held)

theorem forRemoteSource_eq_none {registry source : OsStr} : forRemoteSource registry source = none ↔
    Text.fromUtf8 source = none ∨ Foreign (some registry) (.literal source) := by
  rw [forRemoteSource]
  cases Text.fromUtf8 source with
  | none => simp
  | some text => simpa using forRemoteValue_eq_none

theorem forRemoteSource_text {secret registry source : OsStr} {sent : Portable}
    (travels : forRemoteSource registry source = some sent) :
    secret <:+: sent.text ↔ Carries secret (some registry) (.literal source) := by
  rw [forRemoteSource] at travels
  split at travels
  · exact forRemoteEntry_text travels
  · cases travels

theorem forRemotePlain_silent_iff (row : InputPrediction) (registry secret : OsStr) :
    (∀ shared, forRemotePlain row registry = some shared → Silent secret shared) ↔
      (∃ source ∈ row.sources, Text.fromUtf8 source = none) ∨
        NamesForeign (some registry) row.entries ∨
        CarriesNowhere secret (some registry) row.entries := by
  have rows := @silent_iff _ _ (forRemoteSource registry)
    (forRemoteValue · (some registry)) row.sources row.envDeps
    secret _ _ (fun _ _ found => forRemoteSource_text found)
    (fun held sent found => @forRemoteEntry_text secret (some registry) (.literal held) sent found)
  have published : (∀ shared, forRemotePlain row registry = some shared → Silent secret shared) ↔
      ∀ sent, travelling (forRemoteSource registry)
      (forRemoteValue · (some registry)) row.sources row.envDeps = some sent →
        ∀ entry ∈ sent.1 ++ setValues sent.2, ¬ secret <:+: entry.text := by
    simp only [forRemotePlain, Option.map_eq_some_iff, forall_exists_index, and_imp,
      forall_apply_eq_imp_iff₂]
    rfl
  rw [published, rows]
  simp only [forRemoteSource_eq_none, forRemoteValue_eq_none, NamesForeign, CarriesNowhere,
    InputPrediction.entries, List.map_append,
    List.mem_append, List.mem_map, or_imp, forall_and, or_and_right, and_or_left, exists_or,
    forall_exists_index, and_imp,
    forall_apply_eq_imp_iff₂, exists_exists_and_eq_and, or_assoc]

/-- **When published rows show nothing of a local path.**  The check looks at the first byte of an
entry only: a row that is published keeps a text to itself exactly if no entry has it anywhere
outside the registry directory at its beginning. -/
theorem published_rows_silent_iff (secret : OsStr) :
    (∀ (row : PortablePrediction) (registry : Option OsStr),
        (∀ shared, forRemotePortable row registry = some shared → Silent secret shared) ↔
          NamesForeign registry row.entries ∨ CarriesNowhere secret registry row.entries) ∧
      ∀ (row : InputPrediction) (registry : OsStr),
        (∀ shared, forRemotePlain row registry = some shared → Silent secret shared) ↔
          (∃ source ∈ row.sources, Text.fromUtf8 source = none) ∨
            NamesForeign (some registry) row.entries ∨
            CarriesNowhere secret (some registry) row.entries :=
  ⟨fun row registry => forRemotePortable_silent_iff row registry secret,
    fun row registry => forRemotePlain_silent_iff row registry secret⟩

/-- A row whose environment has a linker flag with a path in the home directory. -/
def flagRow : PortablePrediction where
  schema := 1
  sources := [.literal (utf8 "kt/src/lib.rs")]
  envDeps := [(utf8 "LINK_FLAGS", some (.literal (utf8 "-L/home/me/lib")))]
  tree := utf8 "t"

/-- The row is published with the home directory in it. -/
theorem flagRow_shows_home : 3 ≤ (components (utf8 "/home/me")).length ∧
    isRooted (utf8 "/home/me") = true ∧
    forRemotePortable flagRow none = some (.portable flagRow) ∧ ¬ Silent (utf8 "/home/me")
      (.portable flagRow) := by
  refine ⟨by decide +kernel, by decide +kernel, by decide +kernel, fun silent => ?_⟩
  refine silent (.literal (utf8 "-L/home/me/lib")) ?_ ⟨utf8 "-L", utf8 "/lib", ?_⟩
  · decide +kernel
  · decide +kernel

end Kache.PredictionShare
