import Kache.Foundation.PathBuf
import Mathlib.Data.List.DropRight
import Mathlib.Data.List.Infix
import Mathlib.Data.List.Nodup

/-!
# A shared `OUT_DIR`

A crate that only bakes the name of its empty `OUT_DIR` into what it builds is compiled with a
shared directory in its place, the alias.  Every variable whose value is the real directory, or
below it, is pointed at the alias; if any other value or argument mentions the real directory,
nothing is done.

Values are rewritten by path components and mentions are sought in the text.  A value such as a
search path starts below the real directory and mentions it again further on; its first part is
rewritten, and the rest is not looked at.  `Leaks` says when that happens, and it is the only way
the real directory stays visible (`env_rewrites_hide_iff`).
-/

namespace Kache.OutDirAlias

open UnixPath

/-! ## The code -/

/-- An absolute spelling of the real directory. -/
structure Spelling where
  text : OsStr
  rooted : isRooted text = true
  deriving DecidableEq

/-- Segments that are no component. -/
def isTrivial (segment : OsStr) : Bool := segment = [] ∨ segment = dot

/-- The segments behind the first `n` components. -/
def dropComponents : ℕ → List OsStr → List OsStr
  | 0, segments => segments
  | _ + 1, [] => []
  | n + 1, segment :: rest =>
    if isTrivial segment then dropComponents (n + 1) rest else dropComponents n rest

/-- `Path::strip_prefix` of an absolute path: the text behind the components of the base, without
separators and `.` at its two ends. -/
def stripSpelling (path : OsStr) (base : Spelling) : Option OsStr :=
  if components base.text <+: components path then
    -- The root is the first component of both.
    let rest := dropComponents ((components base.text).length - 1) (segments path).tail
    some ([slash].intercalate ((rest.dropWhile isTrivial).rdropWhile isTrivial))
  else none

/-- `rewritten`. -/
def rewritten (value : OsStr) (real : List Spelling) (outDir : OsStr) : Option OsStr :=
  (real.findSome? (stripSpelling value)).map fun relative =>
    if relative = [] then outDir else push outDir relative

/-- `mentions`. -/
def mentions (bytes : OsStr) (real : List Spelling) : Bool :=
  real.any fun spelling => spelling.text <:+: bytes

/-- The loop over the environment. -/
def rewriteVars (real : List Spelling) (outDir : OsStr) :
    List (OsStr × OsStr) → Option (List (OsStr × OsStr))
  | [] => some []
  | (name, value) :: rest =>
    match rewritten value real outDir with
    | some target => (rewriteVars real outDir rest).map ((name, target) :: ·)
    | none => if mentions value real then none else rewriteVars real outDir rest

/-- `env_rewrites`. -/
def envRewrites (env : List (OsStr × OsStr)) (argv : List OsStr) (real : List Spelling)
    (outDir : OsStr) : Option (List (OsStr × OsStr)) := do
  let rewrites ← rewriteVars real outDir env
  if argv.any fun arg => mentions arg real then none else some rewrites

/-- `InvocationEnv::set_os`. -/
def setOs (vars : List (OsStr × OsStr)) (assignment : OsStr × OsStr) : List (OsStr × OsStr) :=
  vars.filter (fun var => var.1 ≠ assignment.1) ++ [assignment]

/-- The environment of the compile. -/
def applied (env rewrites : List (OsStr × OsStr)) : List (OsStr × OsStr) := rewrites.foldl setOs env

/-! ## What is to be hidden -/

/-- An environment gives each variable one value. -/
structure Environment where
  vars : List (OsStr × OsStr)
  distinct : (vars.map Prod.fst).Nodup

/-- No value and no argument contains the text of a spelling. -/
def Hidden (vars : List (OsStr × OsStr)) (argv : List OsStr) (real : List Spelling) : Prop :=
  ∀ spelling ∈ real, (∀ var ∈ vars, ¬ spelling.text <:+: var.2) ∧ ∀ arg ∈ argv,
    ¬ spelling.text <:+: arg

/-- `word` begins in `left` and ends in `right`. -/
def Straddles (word left right : List UInt8) : Prop :=
  ∃ front back, front ≠ [] ∧ back ≠ [] ∧ word = front ++ back ∧ front <:+ left ∧ back <+: right

/-- What is put behind the alias. -/
def behind (outDir relative : OsStr) : OsStr :=
  if outDir = [] ∨ outDir.getLast? = some slash then relative else slash :: relative

/-- The value is below the real directory, and what stands behind that mentions the real directory
again, on its own or together with the end of the alias. -/
def Leaks (value : OsStr) (real : List Spelling) (outDir : OsStr) : Prop :=
  ∃ relative, real.findSome? (stripSpelling value) = some relative ∧ relative ≠ [] ∧
    ∃ spelling ∈ real, spelling.text <:+: behind outDir relative ∨
      Straddles spelling.text outDir (behind outDir relative)

/-- A value that is not below the real directory mentions it, or an argument does. -/
def Refuses (env : List (OsStr × OsStr)) (argv : List OsStr) (real : List Spelling) : Prop :=
  (∃ var ∈ env, (∀ spelling ∈ real, stripSpelling var.2 spelling = none) ∧
    mentions var.2 real = true) ∨ ∃ arg ∈ argv, mentions arg real = true

/-! ## Mentions -/

variable {real : List Spelling} {value outDir : OsStr} {env rewrites : List (OsStr × OsStr)}
  {var : OsStr × OsStr}

theorem mentions_iff {bytes : OsStr} :
    mentions bytes real = true ↔ ∃ spelling ∈ real, spelling.text <:+: bytes := by
  simp [mentions]

/-- A word of a text is in one of its halves or across. -/
theorem isInfix_append_iff {word left right : List UInt8} :
    word <:+: left ++ right ↔ word <:+: left ∨ word <:+: right ∨ Straddles word left right := by
  constructor
  · rintro ⟨before, after, split⟩
    rcases List.append_eq_append_iff.mp split with ⟨c, inLeft, -⟩ | ⟨c, across, inRight⟩
    · exact .inl ⟨before, c, inLeft.symm⟩
    · rcases List.append_eq_append_iff.mp across with ⟨d, inLeft, parts⟩ | ⟨d, -, inside⟩
      · by_cases front : d = []
        · subst front
          exact .inr (.inl ⟨[], after, by simpa [parts] using inRight.symm⟩)
        by_cases back : c = []
        · subst back
          exact .inl ⟨before, [], by simpa [parts] using inLeft.symm⟩
        exact .inr (.inr ⟨d, c, front, back, parts, ⟨before, inLeft.symm⟩, ⟨after, inRight.symm⟩⟩)
      · exact .inr (.inl ⟨d, after, by rw [← inside, inRight]⟩)
  · rintro (inLeft | inRight | ⟨front, back, -, -, rfl, ⟨before, rfl⟩, ⟨after, rfl⟩⟩)
    · exact inLeft.trans (List.prefix_append left right).isInfix
    · exact inRight.trans (List.suffix_append left right).isInfix
    · exact ⟨before, after, by simp⟩

/-! ## The rest of a path -/

theorem slash_notMem_of_mem_segments {path segment : OsStr} (mem : segment ∈ segments path) :
    slash ∉ segment := by
  induction path generalizing segment with
  | nil =>
    rw [List.mem_singleton.mp mem]
    exact List.not_mem_nil
  | cons c rest ih =>
    rw [segments, List.splitOn_cons_eq_if_modifyHead] at mem
    split at mem
    · rcases List.mem_cons.mp mem with rfl | later
      · exact List.not_mem_nil
      · exact ih later
    · next other =>
      obtain ⟨first, others, split⟩ := List.exists_cons_of_ne_nil (List.splitOn_ne_nil slash rest)
      rw [split, List.modifyHead_cons, List.mem_cons] at mem
      rcases mem with rfl | later
      · rw [List.mem_cons, not_or]
        refine ⟨fun same => other (by simp [same]), ih ?_⟩
        rw [segments, split]
        exact List.mem_cons_self
      · refine ih ?_
        rw [segments, split]
        exact List.mem_cons_of_mem first later

theorem mem_of_mem_dropComponents {n : ℕ} {pieces : List OsStr} {segment : OsStr}
    (mem : segment ∈ dropComponents n pieces) : segment ∈ pieces := by
  induction pieces generalizing n with
  | nil =>
    cases n with
    | zero => exact mem
    | succ n => exact mem
  | cons first rest ih =>
    cases n with
    | zero => exact mem
    | succ n =>
      rw [dropComponents] at mem
      split at mem
      · exact List.mem_cons_of_mem first (ih mem)
      · exact List.mem_cons_of_mem first (ih mem)

/-- Joined segments that begin with a component are a relative path. -/
theorem not_isRooted_trimmed {pieces : List OsStr} (free : ∀ segment ∈ pieces, slash ∉ segment) :
    isRooted ([slash].intercalate ((pieces.dropWhile isTrivial).rdropWhile isTrivial)) = false := by
  cases kept : (pieces.dropWhile isTrivial).rdropWhile isTrivial with
  | nil => rfl
  | cons first rest =>
    obtain ⟨later, split⟩ : first :: rest <+: pieces.dropWhile isTrivial :=
      kept ▸ List.rdropWhile_prefix isTrivial _
    have component := List.head?_dropWhile_not isTrivial pieces
    rw [← split, List.cons_append, List.head?_cons] at component
    have mem : first ∈ pieces.dropWhile isTrivial := by
      rw [← split]
      exact List.mem_cons_self
    -- a component is not empty, and a segment has no slash in it
    cases first with
    | nil => cases component
    | cons a others =>
      have other : a ≠ slash := fun same =>
        free _ ((List.dropWhile_sublist isTrivial).subset mem) (same ▸ List.mem_cons_self)
      cases rest with
      | nil => simp [isRooted, other]
      | cons second more => simp [isRooted, List.intercalate, other]

/-- What is stripped off leaves a relative path. -/
theorem not_isRooted_of_stripSpelling {relative : OsStr} {base : Spelling}
    (stripped : stripSpelling value base = some relative) : isRooted relative = false := by
  unfold stripSpelling at stripped
  split at stripped
  · obtain rfl := Option.some.inj stripped
    refine not_isRooted_trimmed fun segment mem => ?_
    exact slash_notMem_of_mem_segments (List.mem_of_mem_tail (mem_of_mem_dropComponents mem))
  · cases stripped

/-! ## The rewrites -/

theorem push_eq {relative : OsStr} (plain : isRooted relative = false) :
    push outDir relative = outDir ++ behind outDir relative := by
  rw [push, if_neg (by simp [plain]), behind]
  split <;> rfl

/-- A value is below the real directory by the first spelling that fits. -/
theorem rewritten_eq_none (outDir : OsStr) :
    rewritten value real outDir = none ↔ ∀ spelling ∈ real,
      stripSpelling value spelling = none := by
  rw [rewritten, Option.map_eq_none_iff, List.findSome?_eq_none_iff]

/-- The alias itself mentions no spelling, so a rewritten value does exactly when it leaks. -/
theorem leaks_iff {target : OsStr} (fresh : mentions outDir real = false)
    (rewrite : rewritten value real outDir = some target) :
    mentions target real = true ↔ Leaks value real outDir := by
  obtain ⟨relative, found, rfl⟩ := Option.map_eq_some_iff.mp rewrite
  obtain ⟨base, -, stripped⟩ := List.exists_of_findSome?_eq_some found
  have plain := not_isRooted_of_stripSpelling stripped
  have known : Leaks value real outDir ↔ relative ≠ [] ∧ ∃ spelling ∈ real,
      spelling.text <:+: behind outDir relative ∨
      Straddles spelling.text outDir (behind outDir relative) := by
    refine ⟨fun ⟨other, found', rest⟩ => ?_, fun rest => ⟨relative, found, rest⟩⟩
    rwa [Option.some.inj (found.symm.trans found')]
  rw [known]
  by_cases empty : relative = []
  · rw [if_pos empty, fresh]
    exact iff_of_false Bool.false_ne_true fun rest => rest.1 empty
  · rw [if_neg empty, push_eq plain, mentions_iff]
    simp only [isInfix_append_iff, ne_eq, empty, not_false_eq_true, true_and]
    refine exists_congr fun spelling => and_congr_right fun mem => ⟨fun inside => ?_, .inr⟩
    refine inside.resolve_left fun inAlias => ?_
    rw [mentions_iff.mpr ⟨spelling, mem, inAlias⟩] at fresh
    cases fresh

theorem rewriteVars_eq_some :
    rewriteVars real outDir env = some rewrites ↔
      (∀ var ∈ env, rewritten var.2 real outDir = none → mentions var.2 real = false) ∧
        rewrites = env.filterMap fun var => (rewritten var.2 real outDir).map (var.1, ·) := by
  induction env generalizing rewrites with
  | nil =>
    rw [rewriteVars, Option.some.injEq]
    exact ⟨fun same => ⟨fun _ none => (nomatch none), same.symm⟩, fun h => h.2.symm⟩
  | cons var rest ih =>
    obtain ⟨name, value⟩ := var
    rw [rewriteVars, List.forall_mem_cons, List.filterMap_cons]
    cases rewrite : rewritten value real outDir with
    | some target =>
      simp only [Option.map_eq_some_iff, ih]
      constructor
      · rintro ⟨others, ⟨all, rfl⟩, rfl⟩
        exact ⟨⟨fun none => (nomatch none), all⟩, rfl⟩
      · rintro ⟨⟨-, all⟩, rfl⟩
        exact ⟨_, ⟨all, rfl⟩, rfl⟩
    | none =>
      dsimp only
      split
      · next mentioned => exact iff_of_false (fun h => nomatch h) fun h => by simp [mentioned] at h
      · next silent =>
        rw [ih]
        simp [silent]

/-- Nothing is done exactly when a value that stays, or an argument, mentions the real directory. -/
theorem envRewrites_eq_some {argv : List OsStr} : envRewrites env argv real outDir = some rewrites ↔
      ¬ Refuses env argv real ∧
        rewrites = env.filterMap fun var => (rewritten var.2 real outDir).map (var.1, ·) := by
  have silent : ¬ Refuses env argv real ↔
      (∀ var ∈ env, rewritten var.2 real outDir = none → mentions var.2 real = false) ∧
        ∀ arg ∈ argv, mentions arg real = false := by
    simp only [Refuses, ← rewritten_eq_none outDir, not_or, not_exists, not_and, Bool.not_eq_true]
  rw [silent]
  constructor
  · intro done
    obtain ⟨found, vars, rest⟩ := Option.bind_eq_some_iff.mp done
    obtain ⟨all, listed⟩ := rewriteVars_eq_some.mp vars
    split at rest
    · cases rest
    · next args =>
      obtain rfl := Option.some.inj rest
      refine ⟨⟨all, fun arg mem => Bool.eq_false_iff.mpr fun mentioned => args ?_⟩, listed⟩
      exact List.any_eq_true.mpr ⟨arg, mem, mentioned⟩
  · rintro ⟨⟨all, args⟩, listed⟩
    refine Option.bind_eq_some_iff.mpr ⟨rewrites, rewriteVars_eq_some.mpr ⟨all, listed⟩,
      if_neg fun any => ?_⟩
    obtain ⟨arg, mem, mentioned⟩ := List.any_eq_true.mp any
    rw [args arg mem] at mentioned
    cases mentioned

/-! ## The environment of the compile -/

/-- After the assignments, of different variables, each has its value and nothing else changes. -/
theorem mem_applied (distinct : (rewrites.map Prod.fst).Nodup) :
    var ∈ applied env rewrites ↔ var ∈ rewrites ∨ (var ∈ env ∧ var.1 ∉ rewrites.map Prod.fst) := by
  induction rewrites generalizing env with
  | nil => simp [applied]
  | cons first rest ih =>
    rw [List.map_cons, List.nodup_cons] at distinct
    have step : applied env (first :: rest) = applied (setOs env first) rest := rfl
    rw [step, ih distinct.2, setOs, List.mem_append, List.mem_filter, List.mem_singleton,
      decide_eq_true_eq, List.mem_cons, List.map_cons, List.mem_cons, not_or]
    constructor
    · rintro (later | ⟨⟨old, other⟩ | rfl, untouched⟩)
      · exact .inl (.inr later)
      · exact .inr ⟨old, other, untouched⟩
      · exact .inl (.inl rfl)
    · rintro ((rfl | later) | ⟨old, other, untouched⟩)
      · exact .inr ⟨.inr rfl, distinct.1⟩
      · exact .inl later
      · exact .inr ⟨.inl ⟨old, other⟩, untouched⟩

/-- Each value is rewritten, or stays. -/
theorem mem_applied_rewrites (env : Environment) (real : List Spelling) (outDir : OsStr) :
    var ∈ applied env.vars (env.vars.filterMap fun var =>
        (rewritten var.2 real outDir).map (var.1, ·)) ↔
      ∃ value, (var.1, value) ∈ env.vars ∧ var.2 = (rewritten value real outDir).getD value := by
  let rewrite (var : OsStr × OsStr) : Option (OsStr × OsStr) :=
    (rewritten var.2 real outDir).map (var.1, ·)
  have listed : ∀ {other : OsStr × OsStr}, other ∈ env.vars.filterMap rewrite ↔
      ∃ value, (other.1, value) ∈ env.vars ∧ rewritten value real outDir = some other.2 := by
    intro other
    simp only [rewrite, List.mem_filterMap, Option.map_eq_some_iff]
    constructor
    · rintro ⟨⟨name, value⟩, mem, target, done, rfl⟩
      exact ⟨value, mem, done⟩
    · rintro ⟨value, mem, done⟩
      exact ⟨(other.1, value), mem, other.2, done, rfl⟩
  have names : List.Sublist ((env.vars.filterMap rewrite).map Prod.fst)
      (env.vars.map Prod.fst) := by
    induction env.vars with
    | nil => exact .slnil
    | cons var rest ih =>
      rw [List.filterMap_cons, List.map_cons]
      cases done : rewritten var.2 real outDir with
      | none => simpa [rewrite, done] using ih.cons var.1
      | some target => simpa [rewrite, done] using ih
  have unique : ∀ {name value value' : OsStr}, (name, value) ∈ env.vars →
      (name, value') ∈ env.vars → value = value' := by
    intro name value value' mem mem'
    exact congrArg Prod.snd (List.inj_on_of_nodup_map env.distinct mem mem' rfl)
  obtain ⟨name, value⟩ := var
  rw [mem_applied (env.distinct.sublist names), listed]
  constructor
  · rintro (⟨old, mem, done⟩ | ⟨mem, untouched⟩)
    · exact ⟨old, mem, by rw [done]; rfl⟩
    · refine ⟨value, mem, ?_⟩
      cases done : rewritten value real outDir with
      | none => rfl
      | some target =>
        have rewrites : (name, target) ∈ env.vars.filterMap rewrite := listed.mpr ⟨value, mem, done⟩
        exact absurd (List.mem_map_of_mem rewrites) untouched
  · rintro ⟨old, mem, same⟩
    cases done : rewritten old real outDir with
    | some target =>
      rw [done] at same
      exact .inl ⟨old, mem, done.trans (congrArg some same.symm)⟩
    | none =>
      rw [done] at same
      obtain rfl : value = old := same
      refine .inr ⟨mem, fun touched => ?_⟩
      obtain ⟨other, inside, rfl⟩ := List.mem_map.mp touched
      obtain ⟨old, mem', done'⟩ := listed.mp inside
      rw [unique mem mem', done'] at done
      cases done

/-- What an alias is for: whatever is returned hides the real directory. -/
def Hides (env : Environment) (argv : List OsStr) (real : List Spelling) (outDir : OsStr) : Prop :=
  ∀ rewrites, envRewrites env.vars argv real outDir = some rewrites →
    Hidden (applied env.vars rewrites) argv real

/-- A value that is neither below the real directory nor mentions it is left alone; any other is
rewritten, and mentions the real directory exactly when it leaks. -/
theorem mentions_getD_iff {argv : List OsStr} (accepted : ¬ Refuses env argv real)
    (fresh : mentions outDir real = false) (mem : var ∈ env) :
    mentions ((rewritten var.2 real outDir).getD var.2) real = true ↔ Leaks var.2 real outDir := by
  cases done : rewritten var.2 real outDir with
  | some target => exact leaks_iff fresh done
  | none =>
    have apart := (rewritten_eq_none outDir).mp done
    refine iff_of_false (fun mentioned => accepted (.inl ⟨var, mem, apart, mentioned⟩)) ?_
    rintro ⟨relative, found, -⟩
    rw [List.findSome?_eq_none_iff.mpr apart] at found
    cases found

/-- **The alias hides the real path** exactly when nothing is returned, or no value below the real
directory mentions it again. -/
theorem env_rewrites_hide_iff (env : Environment) (argv : List OsStr) (real : List Spelling)
    (outDir : OsStr) (fresh : mentions outDir real = false) :
    Hides env argv real outDir ↔
      Refuses env.vars argv real ∨ ∀ var ∈ env.vars, ¬ Leaks var.2 real outDir := by
  by_cases refused : Refuses env.vars argv real
  · refine iff_of_true (fun rewrites done => ?_) (.inl refused)
    exact absurd refused (envRewrites_eq_some.mp done).1
  · rw [or_iff_right refused]
    constructor
    · intro hides var mem leaks
      obtain ⟨spelling, listed, inside⟩ :=
        mentions_iff.mp ((mentions_getD_iff refused fresh mem).mpr leaks)
      have hidden := hides _ (envRewrites_eq_some.mpr ⟨refused, rfl⟩) spelling listed
      refine hidden.1 (var.1, (rewritten var.2 real outDir).getD var.2) ?_ inside
      exact (mem_applied_rewrites env real outDir).mpr ⟨var.2, mem, rfl⟩
    · intro silent rewrites done spelling listed
      obtain ⟨-, rfl⟩ := envRewrites_eq_some.mp done
      refine ⟨fun var mem inside => ?_, fun arg mem inside => ?_⟩
      · obtain ⟨value, old, same⟩ := (mem_applied_rewrites env real outDir).mp mem
        rw [same] at inside
        exact silent _ old
          ((mentions_getD_iff refused fresh old).mp (mentions_iff.mpr ⟨spelling, listed, inside⟩))
      · exact refused (.inr ⟨arg, mem, mentions_iff.mpr ⟨spelling, listed, inside⟩⟩)

/-- The real directory of the examples. -/
def realDir : Spelling := ⟨utf8 "/t/out", by decide +kernel⟩

/-- A variable below the real directory, pointed at the alias. -/
theorem env_rewrites_hide_below :
    mentions (utf8 "/c/out") [realDir] = false ∧
      Hides ⟨[(utf8 "GEN", utf8 "/t/out/gen.rs")], by decide⟩ [utf8 "-L"] [realDir]
        (utf8 "/c/out") := by
  have fresh : mentions (utf8 "/c/out") [realDir] = false := by decide +kernel
  refine ⟨fresh, (env_rewrites_hide_iff _ _ _ _ fresh).mpr (.inr fun var mem => ?_)⟩
  have rewrite : rewritten (utf8 "/t/out/gen.rs") [realDir]
      (utf8 "/c/out") = some (utf8 "/c/out/gen.rs") := by
    decide +kernel
  rw [List.mem_singleton.mp mem, ← leaks_iff fresh rewrite]
  decide +kernel

/-- A search path that starts below the real directory and names it again is rewritten only at its
start. -/
theorem search_path_leaks :
    ¬ ∀ (env : Environment) (argv : List OsStr) (real : List Spelling) (outDir : OsStr),
      mentions outDir real = false → Hides env argv real outDir := by
  intro hides
  have hidden := hides ⟨[(utf8 "P", utf8 "/t/out/a:/t/out/b")], by decide⟩ [] [realDir]
    (utf8 "/c/out")
    (by decide +kernel) [(utf8 "P", utf8 "/c/out/a:/t/out/b")] (by decide +kernel) realDir (by simp)
  exact hidden.1 (utf8 "P", utf8 "/c/out/a:/t/out/b") (by decide +kernel) (by decide +kernel)

end Kache.OutDirAlias
