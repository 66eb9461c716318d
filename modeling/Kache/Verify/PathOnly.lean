import Kache.Foundation.UnixPath
import Kache.Verify.Compare

/-!
# What a path-only verdict means

Cut at the bytes that no path has, the two artifacts have as many stretches of path bytes as each
other.  `OnlyPathsDiffer` says what a verdict vouches for: the bytes between the stretches are the
same, and where two stretches in one place differ a path stands at the end of both.  Only the last
pair is another matter: there one artifact may end where the other goes on with a path.

The second half takes artifacts put together from the same separators and different paths, and
finds the ones that the comparison does not see through.
-/

namespace Kache.Verify

/-- What is left of the bytes without their stretches of path bytes. -/
def betweenPaths (bytes : List UInt8) : List UInt8 := bytes.filter fun b => !isPathByte b

/-- A path stands at the end of both stretches. -/
def BothHoldPaths (a b : List UInt8) : Prop := holdsPath a = true ∧ holdsPath b = true

/-- One stretch goes on where the other ends, and a path stands at its end. -/
def GoesOnWithPath (a b : List UInt8) : Prop :=
  (a <+: b ∧ holdsPath b = true) ∨ (b <+: a ∧ holdsPath a = true)

/-- Two rows of stretches that differ only where paths stand. -/
structure Alike (left right : List (List UInt8)) : Prop where
  length_eq : left.length = right.length
  differ : ∀ i a b, left[i]? = some a → right[i]? = some b → a ≠ b →
    BothHoldPaths a b ∨ (i + 1 = left.length ∧ GoesOnWithPath a b)

/-- The two artifacts differ only in paths that are embedded in them. -/
structure OnlyPathsDiffer (left right : List UInt8) : Prop where
  between : betweenPaths left = betweenPaths right
  stretches : Alike (stretches isPathByte left) (stretches isPathByte right)

theorem Alike.refl (row : List (List UInt8)) : Alike row row where
  length_eq := rfl
  differ _ _ _ here there ne := absurd (Option.some.inj (here.symm.trans there)) ne

theorem Alike.symm {left right : List (List UInt8)} (alike : Alike left right) :
    Alike right left where
  length_eq := alike.length_eq.symm
  differ i a b here there ne := by
    rcases alike.differ i b a there here ne.symm with ⟨onLeft, onRight⟩ | ⟨last, goes⟩
    · exact .inl ⟨onRight, onLeft⟩
    · exact .inr ⟨last.trans alike.length_eq, goes.symm⟩

theorem Alike.append {left right : List (List UInt8)} (alike : Alike left right)
    (front : List (List UInt8)) : Alike (front ++ left) (front ++ right) where
  length_eq := by rw [List.length_append, List.length_append, alike.length_eq]
  differ i a b here there ne := by
    by_cases inFront : i < front.length
    · rw [List.getElem?_append_left inFront] at here there
      exact absurd (Option.some.inj (here.symm.trans there)) ne
    · rw [List.getElem?_append_right (by omega)] at here there
      refine (alike.differ _ a b here there ne).imp_right fun ⟨last, goes⟩ => ⟨?_, goes⟩
      rw [List.length_append]
      omega

/-- The first pair may be replaced by one that holds paths. -/
theorem Alike.replaceHead {a b c d : List UInt8} {left right : List (List UInt8)}
    (alike : Alike (a :: left) (b :: right)) (both : BothHoldPaths c d) : Alike (c :: left)
    (d :: right) where
  length_eq := alike.length_eq
  differ i x y here there ne := by
    cases i with
    | zero =>
      obtain rfl := Option.some.inj here
      obtain rfl := Option.some.inj there
      exact .inl both
    | succ i => exact alike.differ (i + 1) x y here there ne

theorem alike_singleton {a b : List UInt8} (goes : GoesOnWithPath a b) : Alike [a] [b] where
  length_eq := rfl
  differ i x y here there _ := by
    cases i with
    | zero =>
      obtain rfl := Option.some.inj here
      obtain rfl := Option.some.inj there
      exact .inr ⟨rfl, goes⟩
    | succ i => cases here

theorem OnlyPathsDiffer.symm {left right : List UInt8} (only : OnlyPathsDiffer left right) :
    OnlyPathsDiffer right left :=
  ⟨only.between.symm, only.stretches.symm⟩

/-! ### One step of a verdict -/

theorem betweenPaths_stretch {stretch : List UInt8} (inside : ∀ c ∈ stretch, isPathByte c = true) :
    betweenPaths stretch = [] := by
  rw [betweenPaths, List.filter_eq_nil_iff]
  intro c mem
  simp [inside c mem]

theorem inside_around (common rest : List UInt8) :
    ∀ c ∈ common.rtakeWhile isPathByte ++ rest.takeWhile isPathByte, isPathByte c = true := by
  intro c mem
  rcases List.mem_append.mp mem with before | after
  · exact List.mem_rtakeWhile_imp before
  · exact List.mem_takeWhile_imp after

/-- The bytes around a place, by the stretch of path bytes there. -/
theorem around (common rest : List UInt8) : common ++ rest = common.rdropWhile isPathByte ++
    ((common.rtakeWhile isPathByte ++ rest.takeWhile isPathByte) ++ rest.dropWhile isPathByte) := by
  rw [List.append_assoc, List.takeWhile_append_dropWhile, ← List.append_assoc,
    List.rdropWhile_append_rtakeWhile]

/-- Where the stretches at one place hold paths, what comes after them decides. -/
theorem onlyPathsDiffer_of_rest {common l r : List UInt8}
    (both : BothHoldPaths (common.rtakeWhile isPathByte ++ l.takeWhile isPathByte)
      (common.rtakeWhile isPathByte ++ r.takeWhile isPathByte))
    (rest : OnlyPathsDiffer (l.dropWhile isPathByte) (r.dropWhile isPathByte)) :
    OnlyPathsDiffer (common ++ l) (common ++ r) := by
  obtain ⟨front, atFront⟩ := exists_stretches_append (closesOff_rdropWhile (p := isPathByte) common)
  obtain ⟨backL, atLeft⟩ := exists_stretches_cons (cutsOff_dropWhile (p := isPathByte) l)
  obtain ⟨backR, atRight⟩ := exists_stretches_cons (cutsOff_dropWhile (p := isPathByte) r)
  constructor
  · rw [around common l, around common r]
    simp only [betweenPaths, List.filter_append]
    have onLeft := betweenPaths_stretch (inside_around common l)
    have onRight := betweenPaths_stretch (inside_around common r)
    simp only [betweenPaths, List.filter_append] at onLeft onRight
    rw [onLeft, onRight, List.nil_append, List.nil_append]
    exact congrArg _ rest.between
  · have later := rest.stretches
    rw [← List.nil_append (l.dropWhile _), ← List.nil_append (r.dropWhile _), atLeft [] (by simp),
      atRight [] (by simp)] at later
    rw [around common l, around common r, atFront, atFront, atLeft _ (inside_around common l),
      atRight _ (inside_around common r)]
    exact (later.replaceHead both).append front

/-- Where one artifact ends, the other may go on with a path to its end. -/
theorem onlyPathsDiffer_append {left rest : List UInt8}
    (accepted : remainingIsPath (left ++ rest) left.length = true) :
    OnlyPathsDiffer left (left ++ rest) := by
  have ahead : (left ++ rest).drop left.length = rest := List.drop_left
  simp only [remainingIsPath, ahead, Bool.and_eq_true, Bool.or_eq_true,
    List.isEmpty_iff] at accepted
  rcases accepted.2 with rfl | toEnd
  · rw [List.append_nil]
    exact ⟨rfl, Alike.refl _⟩
  · obtain ⟨⟨start, stop⟩, covered, atEnd⟩ := (Option.any_eq_true _ _).mp toEnd
    obtain ⟨stops, holds⟩ := pathSpanCovering_append covered
    have whole : rest.takeWhile isPathByte = rest := by
      refine List.IsPrefix.eq_of_length (List.takeWhile_prefix _) ?_
      simp only [beq_iff_eq, List.length_append] at atEnd
      omega
    have inside := inside_around left rest
    rw [whole] at holds inside
    obtain ⟨front, atFront⟩ := exists_stretches_append (closesOff_rdropWhile (p := isPathByte) left)
    obtain ⟨back, atBack⟩ := exists_stretches_cons (cutsOff_nil (p := isPathByte))
    obtain rfl : back = [] := by
      have empty := atBack [] (by simp)
      exact (List.cons.inj empty).2.symm
    constructor
    · have dropped : betweenPaths rest = [] :=
        betweenPaths_stretch fun c mem => inside c (List.mem_append_right _ mem)
      rw [betweenPaths] at dropped
      rw [betweenPaths, betweenPaths, List.filter_append, dropped, List.append_nil]
    · have atLeft := atFront (left.rtakeWhile isPathByte ++ [])
      have atRight := atFront ((left.rtakeWhile isPathByte ++ rest) ++ [])
      rw [atBack _ fun c mem => inside c (List.mem_append_left _ mem), List.append_nil,
        List.rdropWhile_append_rtakeWhile] at atLeft
      rw [atBack _ inside, List.append_nil, ← List.append_assoc,
        List.rdropWhile_append_rtakeWhile] at atRight
      rw [atLeft, atRight]
      exact (alike_singleton (.inl ⟨List.prefix_append _ _, holds⟩)).append front

/-! ### Whole comparisons -/

/-- What a cut leaves. -/
theorem cutAfter_append {common rest : List UInt8} {stop : ℕ}
    (cut : cutAfter (common ++ rest) common.length = some stop) :
    (common ++ rest).drop stop = rest.dropWhile isPathByte ∧
      holdsPath (common.rtakeWhile isPathByte ++ rest.takeWhile isPathByte) = true := by
  obtain ⟨start, covered⟩ := cutAfter_eq_some.mp cut
  obtain ⟨rfl, holds⟩ := pathSpanCovering_append covered
  refine ⟨?_, holds⟩
  rw [List.drop_length_add_append]
  nth_rewrite 2 [← List.takeWhile_append_dropWhile (p := isPathByte) (l := rest)]
  exact List.drop_left

theorem onlyPathsDiffer_of_bytesEqual (left right : List UInt8)
    (accepted : bytesEqualIgnoringEmbeddedPaths left right = true) :
    OnlyPathsDiffer left right := by
  -- the slices get shorter with each round
  induction size : left.length using Nat.strong_induction_on generalizing left right with
  | h size ih =>
  subst size
  rcases parting left right with ⟨rest, rfl⟩ | ⟨rest, rfl⟩ | ⟨common, b, c, l, r, rfl, rfl, ne⟩
  · rw [bytesEqual_eq, compareRound_append] at accepted
    exact onlyPathsDiffer_append accepted
  · rw [bytesEqual_comm, bytesEqual_eq, compareRound_append] at accepted
    exact (onlyPathsDiffer_append accepted).symm
  · rw [bytesEqual_eq, compareRound_parting common l r ne] at accepted
    split at accepted
    · cases accepted
    next leftEnd cutLeft =>
      split at accepted
      · cases accepted
      next rightEnd cutRight =>
        obtain ⟨afterLeft, holdsLeft⟩ := cutAfter_append cutLeft
        obtain ⟨afterRight, holdsRight⟩ := cutAfter_append cutRight
        have later := ih _ (length_drop_cut_lt cutLeft) _ _ accepted rfl
        rw [afterLeft, afterRight] at later
        exact onlyPathsDiffer_of_rest ⟨holdsLeft, holdsRight⟩ later

/-- **A path-only verdict hides no other change** than a path at which one artifact ends, does not
depend on the order of the artifacts, and is always reached. -/
theorem pathOnly_verdict (left right : List UInt8) :
    (bytesEqualIgnoringEmbeddedPaths left right = true → OnlyPathsDiffer left right) ∧
      bytesEqualIgnoringEmbeddedPaths left right = bytesEqualIgnoringEmbeddedPaths right left ∧
      (compareFrom (left.length + 1) left right).isSome = true :=
  ⟨onlyPathsDiffer_of_bytesEqual left right, bytesEqual_comm left right,
    compareFrom_isSome left right⟩

/-- The verdict on two builds of a crate, which is the one the source's own test asks for. -/
theorem pathOnly_verdict_twoBuilds :
    OnlyPathsDiffer (utf8 "DWARF\x00/home/a/src/lib.rs\x00code")
      (utf8 "DWARF\x00/tmp/x/lib.rs\x00code") :=
  (pathOnly_verdict _ _).1 (by decide +kernel)

/-- Where one artifact ends, its last stretch need not hold a path. -/
theorem endingStretch_holds_no_path :
    bytesEqualIgnoringEmbeddedPaths (utf8 "prefix") (utf8 "prefix/tmp/file") = true ∧
      stretches isPathByte (utf8 "prefix") = [utf8 "prefix"] ∧
      stretches isPathByte (utf8 "prefix/tmp/file") = [utf8 "prefix/tmp/file"] ∧
      utf8 "prefix" ≠ utf8 "prefix/tmp/file" ∧ holdsPath (utf8 "prefix") = false := by
  decide +kernel

/-! ### Artifacts put together from separators and paths -/

/-- An embedded path, as each of the two artifacts has it, and the separator after it. -/
structure Embedded where
  left : List UInt8
  right : List UInt8
  sep : List UInt8

/-- The artifact with the paths of one side. -/
def artifact (side : Embedded → List UInt8) (first : List UInt8) (items : List Embedded) :
    List UInt8 :=
  first ++ items.flatMap fun item => side item ++ item.sep

/-- A path that starts with a slash, has at least two bytes and only path bytes. -/
def IsEmbeddedPath (path : List UInt8) : Prop :=
  path.head? = some Ascii.slash ∧ 2 ≤ path.length ∧ ∀ c ∈ path, isPathByte c = true

/-- Inner separators are not empty, and start and end with a byte that is no path byte; the last one
is empty or starts with one. -/
def Separated : List Embedded → Prop
  | [] => True
  | item :: rest =>
    CutsOff isPathByte item.sep ∧ (rest ≠ [] → item.sep ≠ [] ∧ ClosesOff isPathByte item.sep) ∧
      Separated rest

/-- No path goes on where the other one in its place ends, unless both artifacts end there. -/
def NoneGoesOn : List Embedded → Prop
  | [] => True
  | item :: rest =>
    (item.left = item.right ∨ (¬ item.left <+: item.right ∧ ¬ item.right <+: item.left) ∨
      (rest = [] ∧ item.sep = [])) ∧ NoneGoesOn rest

variable {rest : List Embedded} {pre p w : List UInt8} {item : Embedded}

/-- An embedded path is found from each of its places. -/
theorem cutAfter_path {front back post : List UInt8} (closes : ClosesOff isPathByte pre)
    (path : IsEmbeddedPath (front ++ back)) (cuts : CutsOff isPathByte post) (covers : back ≠ []) :
    cutAfter (pre ++ (front ++ back ++ post)) (pre.length + front.length) =
      some (pre.length + (front ++ back).length) := by
  obtain ⟨slash, long, inside⟩ := path
  obtain ⟨rest, shape⟩ : ∃ rest, front ++ back = Ascii.slash :: rest := by
    cases whole : front ++ back with
    | nil => simp [whole] at slash
    | cons b rest =>
      rw [whole, List.head?_cons, Option.some.injEq] at slash
      exact ⟨rest, by rw [slash]⟩
  have starts : isPathStart (front ++ back) 0 = true := by
    rw [shape]
    rfl
  have looks : looksLikePath (front ++ back) = true := by
    rw [looksLikePath, starts, shape]
    rw [shape] at long
    simp [Ascii.slash]
    simpa using long
  have first : firstStart front back = some 0 := by
    rw [firstStart, List.range_succ_eq_map, List.find?_cons, starts]
  refine cutAfter_eq_some.mpr ⟨pre.length, ?_⟩
  rw [pathSpanCovering_stretch closes inside cuts covers, first, Option.bind_some, List.drop_zero,
    if_pos looks, Nat.add_zero]

theorem compareRound_paths {q postL postR : List UInt8} (closes : ClosesOff isPathByte pre)
    (pathL : IsEmbeddedPath p) (pathR : IsEmbeddedPath q) (cutsL : CutsOff isPathByte postL)
    (cutsR : CutsOff isPathByte postR) (notL : ¬ p <+: q) (notR : ¬ q <+: p) :
    compareRound (pre ++ (p ++ postL), pre ++ (q ++ postR)) = .inr (postL, postR) := by
  rcases parting p q with within | within | ⟨front, b, c, l, r, rfl, rfl, ne⟩
  · exact absurd within notL
  · exact absurd within notR
  · have cutL := cutAfter_path closes pathL cutsL (List.cons_ne_nil b l)
    have cutR := cutAfter_path closes pathR cutsR (List.cons_ne_nil c r)
    have shapeL : pre ++ (front ++ b :: l ++ postL) = (pre ++ front) ++ b :: (l ++ postL) := by simp
    have shapeR : pre ++ (front ++ c :: r ++ postR) = (pre ++ front) ++ c :: (r ++ postR) := by simp
    have round := compareRound_parting (pre ++ front) (l ++ postL) (r ++ postR) ne
    rw [← shapeL, ← shapeR, List.length_append, cutL, cutR] at round
    rw [round]
    simp only [← List.length_append, ← List.append_assoc, List.drop_left]

/-- The shorter of two paths of which one is the beginning of the other ends at a byte that is no
path byte, and there the comparison finds no path. -/
theorem compareRound_goesOn {rest postR : List UInt8} {c : UInt8} (plain : isPathByte c = false)
    (inside : ∀ b ∈ w, isPathByte b = true) (goesOn : w ≠ []) :
    compareRound (pre ++ (p ++ c :: rest), pre ++ (p ++ w ++ postR)) = .inl false := by
  obtain ⟨b, w, rfl⟩ := List.exists_cons_of_ne_nil goesOn
  have ne : c ≠ b := by
    rintro rfl
    rw [inside c List.mem_cons_self] at plain
    cases plain
  have shapeL : pre ++ (p ++ c :: rest) = (pre ++ p) ++ c :: rest := by simp
  have shapeR : pre ++ (p ++ b :: w ++ postR) = (pre ++ p) ++ b :: (w ++ postR) := by simp
  have stuck : cutAfter ((pre ++ p) ++ c :: rest) (pre ++ p).length = none := by
    rw [cutAfter, pathSpanCovering_of_cutsOff, Option.bind_none]
    rw [List.drop_left]
    exact cutsOff_cons.mpr plain
  rw [shapeL, shapeR, compareRound_parting (pre ++ p) rest (w ++ postR) ne, stuck]

/-- At the end of both artifacts one path may go on. -/
theorem bytesEqual_goesOn (closes : ClosesOff isPathByte pre) (path : IsEmbeddedPath (p ++ w)) :
    bytesEqualIgnoringEmbeddedPaths (pre ++ p) (pre ++ (p ++ w)) = true := by
  rw [bytesEqual_eq, ← List.append_assoc, compareRound_append]
  by_cases goesOn : w = []
  · simp [remainingIsPath, goesOn]
  · have cut := cutAfter_path closes path cutsOff_nil goesOn
    obtain ⟨start, covered⟩ := cutAfter_eq_some.mp cut
    rw [List.append_nil, ← List.append_assoc, ← List.length_append] at covered
    have toEnd : pre.length + (p ++ w).length = (pre ++ p ++ w).length := by
      rw [List.append_assoc, ← List.length_append]
    rw [toEnd] at covered
    rw [Sum.elim_inl, id, remainingIsPath, covered]
    simp

theorem bytesEqual_refl (bytes : List UInt8) :
    bytesEqualIgnoringEmbeddedPaths bytes bytes = true := by
  have round := compareRound_append bytes []
  rw [List.append_nil] at round
  rw [bytesEqual_eq, round]
  simp [remainingIsPath]

theorem artifact_cons (side : Embedded → List UInt8) (first : List UInt8) (item : Embedded)
    (rest : List Embedded) :
    artifact side first (item :: rest) = first ++ (side item ++ artifact side item.sep rest) := by
  simp [artifact]

theorem cutsOff_artifact (separated : Separated (item :: rest)) (side : Embedded → List UInt8) :
    CutsOff isPathByte (artifact side item.sep rest) := by
  obtain ⟨cuts, inner, -⟩ := separated
  by_cases last : rest = []
  · subst last
    simpa [artifact] using cuts
  · exact cuts.append (inner last).1 _

/-- What follows a path is nothing only at the end of both artifacts. -/
theorem artifact_eq_nil (separated : Separated (item :: rest)) (side : Embedded → List UInt8) :
    artifact side item.sep rest = [] ↔ rest = [] ∧ item.sep = [] := by
  constructor
  · intro none
    have empty : item.sep = [] := (List.append_eq_nil_iff.mp none).1
    refine ⟨?_, empty⟩
    by_contra inner
    exact (separated.2.1 inner).1 empty
  · rintro ⟨rfl, empty⟩
    simp [artifact, empty]

/-- Two paths of which the second goes on where the first ends. -/
theorem bytesEqual_artifact_goesOn {first : List UInt8} (closes : ClosesOff isPathByte first)
    (path : IsEmbeddedPath (p ++ w)) (goesOn : w ≠ []) (separated : Separated (item :: rest))
    (side side' : Embedded → List UInt8) :
    bytesEqualIgnoringEmbeddedPaths (first ++ (p ++ artifact side item.sep rest))
      (first ++ (p ++ w ++ artifact side' item.sep rest)) = true ↔ rest = [] ∧ item.sep = [] := by
  cases shape : artifact side item.sep rest with
  | nil =>
    have ends := (artifact_eq_nil separated side).mp shape
    have ends' := (artifact_eq_nil separated side').mpr ends
    rw [ends', List.append_nil, List.append_nil]
    exact iff_of_true (bytesEqual_goesOn closes path) ends
  | cons c tail =>
    have plain : isPathByte c = false := by
      have cuts := cutsOff_artifact separated side
      rw [shape] at cuts
      exact cutsOff_cons.mp cuts
    have inside : ∀ b ∈ w, isPathByte b = true := fun b mem =>
      path.2.2 b (List.mem_append_right p mem)
    rw [bytesEqual_eq, compareRound_goesOn plain inside goesOn]
    refine iff_of_false Bool.false_ne_true fun ends => ?_
    rw [(artifact_eq_nil separated side).mpr ends] at shape
    cases shape

theorem noneGoesOn_goesOn (ne : item.left ≠ item.right)
    (within : item.left <+: item.right ∨ item.right <+: item.left) :
    NoneGoesOn (item :: rest) ↔ rest = [] ∧ item.sep = [] := by
  constructor
  · rintro ⟨same | ⟨notL, notR⟩ | ends, -⟩
    · exact absurd same ne
    · exact absurd within (not_or.mpr ⟨notL, notR⟩)
    · exact ends
  · rintro ⟨rfl, empty⟩
    exact ⟨.inr (.inr ⟨rfl, empty⟩), trivial⟩

/-- The comparison sees through the paths of two artifacts, unless one of them goes on where the
other one in its place ends. -/
theorem bytesEqual_artifact (items : List Embedded) (first : List UInt8)
    (closes : items ≠ [] → ClosesOff isPathByte first)
    (paths : ∀ item ∈ items, IsEmbeddedPath item.left ∧ IsEmbeddedPath item.right)
    (separated : Separated items) :
    bytesEqualIgnoringEmbeddedPaths (artifact Embedded.left first items)
      (artifact Embedded.right first items) = true ↔ NoneGoesOn items := by
  induction items generalizing first with
  | nil => exact iff_of_true (bytesEqual_refl _) trivial
  | cons item rest ih =>
    have closed := closes (List.cons_ne_nil item rest)
    obtain ⟨⟨pathL, pathR⟩, others⟩ := List.forall_mem_cons.mp paths
    obtain ⟨-, inner, later⟩ := id separated
    have next := ih item.sep (fun more => (inner more).2) others later
    rw [artifact_cons, artifact_cons]
    by_cases same : item.left = item.right
    · -- equal paths belong to what the two artifacts have in common
      have shape : ∀ side, first ++ (item.right ++ artifact side item.sep rest) =
          artifact side (first ++ (item.right ++ item.sep)) rest := fun side => by simp [artifact]
      have step := ih (first ++ (item.right ++ item.sep)) (fun more => by
        obtain ⟨nonempty, closesSep⟩ := inner more
        rw [← List.append_assoc]
        exact closesSep.append nonempty _) others later
      rw [same, shape, shape, step]
      exact (and_iff_right (.inl same)).symm
    · by_cases onRight : item.left <+: item.right
      · obtain ⟨w, goes⟩ := onRight
        have goesOn : w ≠ [] := fun none => same (by rw [← goes, none, List.append_nil])
        rw [noneGoesOn_goesOn same (.inl ⟨w, goes⟩), ← goes]
        exact bytesEqual_artifact_goesOn closed (goes ▸ pathR) goesOn separated _ _
      · by_cases onLeft : item.right <+: item.left
        · obtain ⟨w, goes⟩ := onLeft
          have goesOn : w ≠ [] := fun none => same (by rw [← goes, none, List.append_nil])
          rw [noneGoesOn_goesOn same (.inr ⟨w, goes⟩), bytesEqual_comm, ← goes]
          exact bytesEqual_artifact_goesOn closed (goes ▸ pathL) goesOn separated _ _
        · have round := compareRound_paths closed pathL pathR
            (cutsOff_artifact separated Embedded.left)
            (cutsOff_artifact separated Embedded.right) onRight onLeft
          rw [bytesEqual_eq, round]
          exact next.trans (and_iff_right (.inr (.inl ⟨onRight, onLeft⟩))).symm

/-- **Path-only differences are recognised** exactly where no path goes on after the end of the one
in its place, the end of both artifacts apart. -/
theorem paths_recognised_iff (first : List UInt8) (items : List Embedded)
    (closes : ClosesOff isPathByte first)
    (paths : ∀ item ∈ items, IsEmbeddedPath item.left ∧ IsEmbeddedPath item.right)
    (separated : Separated items) :
    bytesEqualIgnoringEmbeddedPaths (artifact Embedded.left first items)
      (artifact Embedded.right first items) = true ↔ NoneGoesOn items :=
  bytesEqual_artifact items first (fun _ => closes) paths separated

/-- Two builds in directories with names of different lengths. -/
theorem paths_recognised_twoBuilds :
    bytesEqualIgnoringEmbeddedPaths
      (artifact Embedded.left (utf8 "dir\x00") [⟨utf8 "/home/a", utf8 "/tmp/b", [0]⟩])
      (artifact Embedded.right (utf8 "dir\x00") [⟨utf8 "/home/a", utf8 "/tmp/b", [0]⟩]) = true := by
  refine (paths_recognised_iff _ _ (by decide +kernel) ?_ ?_).mpr ?_
  · simp only [List.forall_mem_cons, IsEmbeddedPath]
    decide +kernel
  · simp only [Separated]
    decide +kernel
  · simp only [NoneGoesOn]
    decide +kernel

/-- Two builds of which one is in a directory whose name goes on where the other's ends. -/
theorem buildDirectory_not_recognised :
    (IsEmbeddedPath (utf8 "/work/kache") ∧ IsEmbeddedPath (utf8 "/work/kache2")) ∧
      Separated [⟨utf8 "/work/kache", utf8 "/work/kache2", [0]⟩] ∧
      bytesEqualIgnoringEmbeddedPaths
        (artifact Embedded.left [] [⟨utf8 "/work/kache", utf8 "/work/kache2", [0]⟩])
        (artifact Embedded.right [] [⟨utf8 "/work/kache", utf8 "/work/kache2", [0]⟩]) = false := by
  simp only [IsEmbeddedPath, Separated]
  decide +kernel

end Kache.Verify
