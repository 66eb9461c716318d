import Kache.Archive.Format
import Kache.Foundation.Loop

/-!
# What the identity of an archive determines

The identity of an archive is a digest of a stream of records, one for each member.
`GnuMember` and `BsdMember` are what an arm takes from a member: its name, its date and
its data, but neither owner nor mode nor how a number is spelled.  A record is a function of
that (`gnuRecord`, `bsdRecord`), and records are self-delimiting, so the stream
determines the sequence of members, and the sequence determines the stream.  All lengths fit
in their eight bytes because a size that does not is not read in the first place
(`RawMember.Fits`).
-/

namespace Kache.Archive

/-! ## What is read -/

/-- The lengths of a member fit in the fields that are hashed. -/
structure RawMember.Fits (member : RawMember) : Prop where
  name : member.name.length = 16
  data : member.data.length < 2 ^ 64

theorem parseArDecimal_lt {field : Bytes} {n : ℕ} (h : parseArDecimal field = some n) :
    n < 2 ^ 64 := by
  unfold parseArDecimal at h
  obtain ⟨text, -, parsed⟩ := Option.bind_eq_some_iff.mp h
  dsimp only at parsed
  split at parsed
  · cases parsed
  · exact Text.parseUsize_lt parsed

theorem fits_of_readMember {rest rest' : Bytes} {member : RawMember}
    (h : readMember rest = some (member, rest')) : member.Fits := by
  obtain ⟨long, h⟩ := Option.ite_none_left_eq_some.mp h
  dsimp only at h
  split at h
  · cases h
  · obtain ⟨size, parsed, h⟩ := Option.bind_eq_some_iff.mp h
    split at h
    · cases h
    · cases h
      refine ⟨?_, ?_⟩
      · simp only [List.length_take, arHeaderLen] at long ⊢
        omega
      · exact Nat.lt_of_le_of_lt (List.length_take_le _ _) (parseArDecimal_lt parsed)

theorem fits_of_arMembers {fuel : ℕ} {rest : Bytes} {members : List RawMember}
    (h : arMembers fuel rest = some members) : ∀ member ∈ members, member.Fits := by
  induction fuel generalizing rest members with
  | zero =>
    cases rest with
    | nil =>
      cases h
      simp
    | cons byte rest => cases h
  | succ fuel ih =>
    cases rest with
    | nil =>
      cases h
      simp
    | cons byte rest =>
      obtain ⟨⟨first, after⟩, read, h⟩ := Option.bind_eq_some_iff.mp h
      obtain ⟨later, more, h⟩ := Option.bind_eq_some_iff.mp h
      cases h
      intro member mem
      rcases List.mem_cons.mp mem with rfl | mem
      · exact fits_of_readMember read
      · exact ih more member mem

/-- The loop of an arm is a fold over the members. -/
theorem arLoop_eq {σ : Type} (step : σ → RawMember → Option σ) (fuel : ℕ) (state : σ)
    (rest : Bytes) :
    arLoop step fuel state rest = (arMembers fuel rest).bind fun members =>
      members.foldlM step state := by
  induction fuel generalizing state rest with
  | zero => cases rest <;> rfl
  | succ fuel ih =>
    cases rest with
    | nil => rfl
    | cons byte rest =>
      simp only [arLoop, arMembers]
      cases readMember (byte :: rest) with
      | none => rfl
      | some read =>
        simp only [Option.bind_eq_bind, Option.bind_some]
        cases first : step state read.1 with
        | none => cases arMembers fuel read.2 <;> simp [List.foldlM_cons, first]
        | some next =>
          rw [Option.bind_some, ih]
          cases arMembers fuel read.2 <;> simp [List.foldlM_cons, first]

/-! ## What an arm makes of it -/

section Arms

variable {σ V : Type}

/-- **An arm appends records.**  `view` is what it takes from a member. -/
structure Appends (step : σ → RawMember → Option σ) (hasher : σ → Bytes) (flag : σ → Bool)
    (view : RawMember → Option V) (P : V → Prop) (record : V → Bytes) (dwarf : V → Bool) :
    Prop where
  body : ∀ st member st', member.Fits → step st member = some st' →
    ∃ v, view member = some v ∧ P v ∧ hasher st' = hasher st ++ record v ∧
      flag st' = (flag st || dwarf v)

variable {step : σ → RawMember → Option σ} {hasher : σ → Bytes} {flag : σ → Bool}
variable {view : RawMember → Option V} {P : V → Prop} {record : V → Bytes} {dwarf : V → Bool}

/-- The whole stream. -/
theorem Appends.run (h : Appends step hasher flag view P record dwarf)
    {members : List RawMember} (fits : ∀ member ∈ members, member.Fits) {st st' : σ}
    (done : members.foldlM step st = some st') :
    ∃ vs, members.mapM view = some vs ∧ (∀ v ∈ vs, P v) ∧
      hasher st' = hasher st ++ vs.flatMap record ∧ flag st' = (flag st || vs.any dwarf) := by
  have loop := Loop.foldlM_option
    (R := fun member st st' => ∃ v, view member = some v ∧ P v ∧
      hasher st' = hasher st ++ record v ∧ flag st' = (flag st || dwarf v))
    (fun st st' member mem => h.body st member st' (fits member mem)) done
  clear done
  induction loop with
  | nil st => exact ⟨[], rfl, by simp, by simp, by simp⟩
  | cons first _ ih =>
    obtain ⟨v, hview, hv, hhash, hflag⟩ := first
    obtain ⟨vs, hviews, hvs, hhashes, hflags⟩ :=
      ih fun member mem => fits member (List.mem_cons_of_mem _ mem)
    refine ⟨v :: vs, by simp [hview, hviews], ?_, ?_, ?_⟩
    · exact List.forall_mem_cons.mpr ⟨hv, hvs⟩
    · rw [hhashes, hhash, List.flatMap_cons, List.append_assoc]
    · rw [hflags, hflag, List.any_cons, Bool.or_assoc]

/-- The stream of an arm, from the members. -/
theorem Appends.fold (h : Appends step hasher flag view P record dwarf) {bytes : Bytes}
    (magic : arMagic <+: bytes) {st st' : σ}
    (done : arFold step st (bytes.drop arMagic.length) = some st') :
    ∃ vs, (readMembers bytes).bind (·.mapM view) = some vs ∧ (∀ v ∈ vs, P v) ∧
      hasher st' = hasher st ++ vs.flatMap record ∧ flag st' = (flag st || vs.any dwarf) := by
  rw [arFold, arLoop_eq] at done
  obtain ⟨members, read, done⟩ := Option.bind_eq_some_iff.mp done
  obtain ⟨vs, views, rest⟩ := h.run (fits_of_arMembers read) done
  refine ⟨vs, ?_, rest⟩
  simp only [readMembers, magic, if_true, read, Option.bind_some, views]

end Arms

/-! ## GNU -/

/-- What the GNU arm takes from a member: the name token, the date and the data.  The
kind is in the name. -/
structure GnuMember where
  name : Bytes
  date : ArTimestamp
  data : Bytes
  deriving DecidableEq

/-- The member as the GNU arm reads it. -/
def gnuMemberOf (member : RawMember) : Option GnuMember := do
  let name ← arName member.name
  let date ← parseArTimestamp member.date
  some ⟨name, date, member.data⟩

/-- The sequence of members of a GNU archive. -/
def gnuMembers (bytes : Bytes) : Option (List GnuMember) :=
  (readMembers bytes).bind (·.mapM gnuMemberOf)

namespace GnuMember

/-- What fits in the stream. -/
structure Fits (m : GnuMember) : Prop where
  name : m.name.length < 256 ^ 8
  date : ∀ seconds, m.date = .decimal seconds → seconds < 256 ^ 8
  data : m.data.length < 256 ^ 8

/-- The object has DWARF. -/
def dwarf (gates : ObjectGates) (m : GnuMember) : Bool :=
  classify m.name = .object ∧ gates.dwarf m.data = some true

end GnuMember

/-- The tags of dates. -/
def dateTags : List Bytes := [utf8 "mtime\x00", utf8 "mtime-blank\x00"]

/-- What is hashed of a date. -/
def dateRecord : ArTimestamp → Bytes
  | .decimal mtime => utf8 "mtime\x00" ++ u64Bytes mtime
  | .blank => utf8 "mtime-blank\x00"

/-- The tags of members. -/
def kindTags : List Bytes :=
  [utf8 "symtab32\x00", utf8 "symtab64\x00", utf8 "longnames\x00", utf8 "member\x00"]

/-- The tag of a member. -/
def kindTag (name : Bytes) : Bytes :=
  match classify name with
  | .symbolTable => symtabTag name
  | .longNameTable => utf8 "longnames\x00"
  | .object => utf8 "member\x00"

/-- What is hashed of a member after its tag.  Reserved names are in the tag. -/
def payload (name data : Bytes) : Bytes :=
  match classify name with
  | .object => sized name ++ sized data
  | _ => sized data

/-- What is hashed of a member, its date apart. -/
def bodyRecord (name data : Bytes) : Bytes := kindTag name ++ payload name data

/-- What is hashed of a member. -/
def gnuRecord (m : GnuMember) : Bytes := dateRecord m.date ++ bodyRecord m.name m.data

theorem arName_length {field name : Bytes} (h : arName field = some name) :
    name.length ≤ field.length := by
  unfold arName at h
  obtain ⟨-, -, rfl⟩ := Option.map_eq_some_iff.mp h
  have front := List.rdropWhile_prefix (· = 32) field
  exact front.length_le

theorem gnuDate_eq {date : ArTimestamp} {kind : Member} {bytes : Bytes}
    (h : gnuDate date kind = some bytes) : bytes = dateRecord date := by
  cases date with
  | decimal mtime => exact (Option.some.inj h).symm
  | blank =>
    cases kind with
    | longNameTable => exact (Option.some.inj h).symm
    | _ => cases h

theorem dateRecord_lt {field : Bytes} {date : ArTimestamp} (h : parseArTimestamp field = some date)
    (seconds : ℕ) (decimal : date = .decimal seconds) : seconds < 256 ^ 8 := by
  subst decimal
  unfold parseArTimestamp at h
  split at h
  · cases h
  · obtain ⟨n, parsed, same⟩ := Option.map_eq_some_iff.mp h
    cases same
    exact parseArDecimal_lt parsed

/-- Each kind of member appends its record. -/
theorem gnuKind_appends {gates : ObjectGates} {st st' : GnuState} {name data : Bytes}
    (done : gnuKind gates st name data = some st') :
    st'.hasher = st.hasher ++ bodyRecord name data ∧
      st'.machoDwarfMembers = (st.machoDwarfMembers ||
        decide (classify name = .object ∧ gates.dwarf data = some true)) := by
  unfold gnuKind at done
  unfold bodyRecord kindTag payload
  cases kind : classify name with
  | symbolTable | longNameTable =>
    rw [kind] at done
    obtain ⟨-, ⟨⟩⟩ := Option.ite_none_left_eq_some.mp done
    exact ⟨rfl, by simp [GnuState.update]⟩
  | object =>
    rw [kind] at done
    obtain ⟨-, -, done⟩ := Option.bind_eq_some_iff.mp done
    obtain ⟨dwarf, checked, done⟩ := Option.bind_eq_some_iff.mp done
    cases done
    exact ⟨rfl, by simp [GnuState.update, checked]⟩

theorem appends_gnuMember (gates : ObjectGates) :
    Appends (gnuMember gates) (·.hasher) (·.machoDwarfMembers) gnuMemberOf GnuMember.Fits gnuRecord
      (GnuMember.dwarf gates) := by
  refine ⟨fun st member st' fits done => ?_⟩
  obtain ⟨name, hname, done⟩ := Option.bind_eq_some_iff.mp done
  obtain ⟨date, hdate, done⟩ := Option.bind_eq_some_iff.mp done
  split at done
  · cases done
  · obtain ⟨bytes, hbytes, done⟩ := Option.bind_eq_some_iff.mp done
    obtain ⟨last, hlast, rfl⟩ := Option.map_eq_some_iff.mp done
    obtain ⟨hash, flag⟩ := gnuKind_appends hlast
    have short := arName_length hname
    have wide := fits.name
    refine ⟨⟨name, date, member.data⟩, by simp [gnuMemberOf, hname, hdate], ⟨?_, ?_, fits.data⟩, ?_,
      flag⟩
    · exact Nat.lt_of_le_of_lt (short.trans_eq wide) (by decide)
    · exact dateRecord_lt hdate
    · refine hash.trans ?_
      rw [gnuDate_eq hbytes]
      exact List.append_assoc _ _ _

theorem selfDelimiting_sized : SelfDelimiting (fun bytes => bytes.length < 256 ^ 8) sized :=
  selfDelimiting_framed 8

/-- A date ends by itself. -/
theorem selfDelimiting_dateRecord :
    SelfDelimiting (fun date => ∀ seconds, date = .decimal seconds → seconds < 256 ^ 8)
      dateRecord := by
  have tags : SelfDelimiting (· ∈ dateTags) id := selfDelimiting_tags (by decide)
  intro x y hx hy s t same
  cases x with
  | decimal m =>
    cases y with
    | decimal n =>
      simp only [dateRecord, List.append_assoc] at same
      obtain ⟨rfl, rest⟩ := selfDelimiting_leBytes 8 (hx m rfl) (hy n rfl)
        (List.append_cancel_left same)
      exact ⟨rfl, rest⟩
    | blank =>
      simp only [dateRecord, List.append_assoc] at same
      exact absurd (tags (by decide) (by decide) same).1 (by decide)
  | blank =>
    cases y with
    | decimal n =>
      simp only [dateRecord, List.append_assoc] at same
      exact absurd (tags (by decide) (by decide) same).1 (by decide)
    | blank => exact ⟨rfl, List.append_cancel_left same⟩

/-- A name is one of the three reserved ones, or an object's. -/
theorem classify_cases (name : Bytes) :
    name = utf8 "/" ∨ name = utf8 "/SYM64/" ∨ name = utf8 "//" ∨ classify name = .object := by
  grind [classify]

theorem kindTag_of_object {name : Bytes} (h : classify name = .object) :
    kindTag name = utf8 "member\x00" := by
  simp only [kindTag, h]

theorem kindTag_mem (name : Bytes) : kindTag name ∈ kindTags := by
  rcases classify_cases name with rfl | rfl | rfl | object
  · decide
  · decide
  · decide
  · rw [kindTag_of_object object]
    decide

/-- The tag tells reserved names from each other and from objects. -/
theorem eq_or_object_of_kindTag_eq {name name' : Bytes} (h : kindTag name = kindTag name') :
    name = name' ∨ classify name = .object ∧ classify name' = .object := by
  have reserved : ∀ a ∈ [utf8 "/", utf8 "/SYM64/", utf8 "//"],
      kindTag a ≠ utf8 "member\x00" ∧
        ∀ b ∈ [utf8 "/", utf8 "/SYM64/", utf8 "//"], kindTag a = kindTag b → a = b := by decide
  have cases' : ∀ name : Bytes, name ∈ [utf8 "/", utf8 "/SYM64/", utf8 "//"] ∨
      classify name = .object := fun name => by
    simpa [or_assoc] using classify_cases name
  rcases cases' name with res | object
  · rcases cases' name' with res' | object'
    · exact .inl ((reserved name res).2 name' res' h)
    · exact absurd (h.trans (kindTag_of_object object')) (reserved name res).1
  · rcases cases' name' with res' | object'
    · exact absurd (h.symm.trans (kindTag_of_object object)) (reserved name' res').1
    · exact .inr ⟨object, object'⟩

/-- **A record ends by itself.** -/
theorem selfDelimiting_gnuRecord : SelfDelimiting GnuMember.Fits gnuRecord := by
  have tags : SelfDelimiting (· ∈ kindTags) id := selfDelimiting_tags (by decide)
  rintro ⟨name, date, data⟩ ⟨name', date', data'⟩ fits fits' s t same
  simp only [gnuRecord, bodyRecord, List.append_assoc] at same
  obtain ⟨rfl, body⟩ := selfDelimiting_dateRecord fits.date fits'.date same
  obtain ⟨tag, after⟩ := tags (kindTag_mem name) (kindTag_mem name') body
  rcases eq_or_object_of_kindTag_eq tag with rfl | ⟨object, object'⟩
  · unfold payload at after
    split at after
    · rw [List.append_assoc, List.append_assoc] at after
      obtain ⟨-, framed⟩ := selfDelimiting_sized fits.name fits'.name after
      obtain ⟨rfl, rest⟩ := selfDelimiting_sized fits.data fits'.data framed
      exact ⟨rfl, rest⟩
    · obtain ⟨rfl, rest⟩ := selfDelimiting_sized fits.data fits'.data after
      exact ⟨rfl, rest⟩
  · simp only [payload, object, object', List.append_assoc] at after
    obtain ⟨rfl, framed⟩ := selfDelimiting_sized fits.name fits'.name after
    obtain ⟨rfl, rest⟩ := selfDelimiting_sized fits.data fits'.data framed
    exact ⟨rfl, rest⟩

theorem gnuRecord_ne_nil (m : GnuMember) : gnuRecord m ≠ [] := by
  rcases m with ⟨name, mtime | _, data⟩
  · simp [gnuRecord, dateRecord, utf8]
  · simp [gnuRecord, dateRecord, utf8]

/-! ## BSD -/

/-- What the BSD arm takes from a member: how the name is stored, the stored bytes, the
date and what follows the name.  The kind is in the name. -/
structure BsdMember where
  encoding : NameEncoding
  stored : Bytes
  date : ℕ
  content : Bytes
  deriving DecidableEq

/-- The member as the BSD arm reads it. -/
def bsdMemberOf (member : RawMember) : Option BsdMember := do
  let date ← parseArDecimal member.date
  let n ← bsdName member
  some ⟨n.encoding, n.stored, date, n.content⟩

/-- The sequence of members of a BSD archive. -/
def bsdMembers (bytes : Bytes) : Option (List BsdMember) :=
  (readMembers bytes).bind (·.mapM bsdMemberOf)

/-- The name without its padding. -/
def effectiveName (encoding : NameEncoding) (stored : Bytes) : Bytes :=
  match encoding with
  | .short => stored.rdropWhile (· = 32)
  | .inline => stored.rdropWhile (· = 0)

namespace BsdMember

/-- What fits in the stream. -/
structure Fits (m : BsdMember) : Prop where
  stored : m.stored.length < 256 ^ 8
  date : m.date < 256 ^ 8
  content : m.content.length < 256 ^ 8

def name (m : BsdMember) : Bytes := effectiveName m.encoding m.stored

/-- The name with what goes with it. -/
def bsdName (m : BsdMember) : BsdName := ⟨m.name, m.stored, m.encoding, m.content⟩

/-- The object has DWARF. -/
def dwarf (gates : ObjectGates) (m : BsdMember) : Bool :=
  isBsdSymdef m.name = false ∧ gates.dwarf m.content = some true

end BsdMember

/-- What is hashed between the date of a member and its content. -/
def bsdKindRecord (name : Bytes) (inlineLen : ℕ) : Bytes :=
  if isBsdSymdef name then utf8 "symdef\x00" ++ sized name ++ u64Bytes inlineLen
  else utf8 "member\x00" ++ u64Bytes inlineLen

/-- What is hashed of a member after its name and date. -/
def bsdBodyRecord (n : BsdName) : Bytes := bsdKindRecord n.name n.inlineLen ++ sized n.content

/-- What is hashed of a member. -/
def bsdRecord (m : BsdMember) : Bytes := bsdNameRecord m.bsdName m.date ++ bsdBodyRecord m.bsdName

/-- The name that is classified is a function of the stored one. -/
theorem bsdName_spec {member : RawMember} {n : BsdName} (fits : member.Fits)
    (h : bsdName member = some n) :
    n.name = effectiveName n.encoding n.stored ∧ n.stored.length < 256 ^ 8 ∧
      n.content.length < 256 ^ 8 := by
  obtain ⟨field, hfield, h⟩ := Option.bind_eq_some_iff.mp h
  have data := fits.data
  split at h
  · cases h
  · split at h
    · obtain ⟨length, -, h⟩ := Option.bind_eq_some_iff.mp h
      split at h
      · cases h
      · obtain ⟨-, -, h⟩ := Option.bind_eq_some_iff.mp h
        cases h
        refine ⟨rfl, ?_, ?_⟩
        · exact Nat.lt_of_le_of_lt (List.length_take_le' _ _) data
        · exact Nat.lt_of_le_of_lt (List.drop_sublist _ _).length_le data
    · cases h
      refine ⟨?_, ?_, data⟩
      · unfold arName at hfield
        obtain ⟨-, -, rfl⟩ := Option.map_eq_some_iff.mp hfield
        rfl
      · exact Nat.lt_of_le_of_lt (Nat.le_of_eq fits.name) (by decide)

/-- Each kind of member appends its record. -/
theorem bsdKind_appends {gates : ObjectGates} {st st' : BsdState} {n : BsdName}
    (done : bsdKind gates st n = some st') :
    st'.hasher = st.hasher ++ bsdBodyRecord n ∧
      st'.machoDwarfMembers = (st.machoDwarfMembers ||
        decide (isBsdSymdef n.name = false ∧ gates.dwarf n.content = some true)) := by
  unfold bsdKind at done
  unfold bsdBodyRecord bsdKindRecord
  split at done
  · next symdef =>
    obtain ⟨-, ⟨⟩⟩ := Option.ite_none_left_eq_some.mp done
    exact ⟨by simp [BsdState.update, symdef], by simp [BsdState.update, symdef]⟩
  · next object =>
    obtain ⟨dwarf, checked, done⟩ := Option.bind_eq_some_iff.mp done
    cases done
    exact ⟨by simp [BsdState.update, object], by simp [BsdState.update, object, checked]⟩

theorem appends_bsdMember (gates : ObjectGates) :
    Appends (bsdMember gates) (·.hasher) (·.machoDwarfMembers) bsdMemberOf BsdMember.Fits bsdRecord
      (BsdMember.dwarf gates) := by
  refine ⟨fun st member st' fits done => ?_⟩
  obtain ⟨date, hdate, done⟩ := Option.bind_eq_some_iff.mp done
  obtain ⟨n, hn, done⟩ := Option.bind_eq_some_iff.mp done
  obtain ⟨last, hlast, rfl⟩ := Option.map_eq_some_iff.mp done
  obtain ⟨hash, flag⟩ := bsdKind_appends hlast
  obtain ⟨hname, hstored, hcontent⟩ := bsdName_spec fits hn
  refine ⟨⟨n.encoding, n.stored, date, n.content⟩, by simp [bsdMemberOf, hn, hdate],
    ⟨hstored, parseArDecimal_lt hdate, hcontent⟩, ?_, ?_⟩
  · refine hash.trans ?_
    simp only [BsdState.update, List.append_assoc, bsdRecord, BsdMember.bsdName, BsdMember.name,
      ← hname]
  · simp only [BsdMember.dwarf, BsdMember.name, ← hname]
    exact flag

/-- **A record ends by itself.** -/
theorem selfDelimiting_bsdRecord : SelfDelimiting BsdMember.Fits bsdRecord := by
  have tags : SelfDelimiting (· ∈ [utf8 "short\x00", utf8 "inline\x00"]) id :=
    selfDelimiting_tags (by decide)
  have mem : ∀ e : NameEncoding, e.tag ∈ [utf8 "short\x00", utf8 "inline\x00"] := fun e => by
    cases e <;> decide
  have inj : ∀ e e' : NameEncoding, e.tag = e'.tag → e = e' := fun e e' h => by
    revert h
    cases e <;> cases e' <;> decide
  rintro ⟨encoding, stored, date, content⟩ ⟨encoding', stored', date', content'⟩ fits fits' s t same
  simp only [bsdRecord, bsdNameRecord, BsdMember.bsdName, List.append_assoc] at same
  obtain ⟨tag, after⟩ := tags (mem encoding) (mem encoding') (List.append_cancel_left same)
  obtain rfl := inj _ _ tag
  obtain ⟨rfl, dated⟩ := selfDelimiting_sized fits.stored fits'.stored after
  obtain ⟨rfl, body⟩ := selfDelimiting_leBytes 8 fits.date fits'.date dated
  -- the kind and the length in front of the content come from the stored name
  simp only [bsdBodyRecord, List.append_assoc] at body
  obtain ⟨rfl, rest⟩ := selfDelimiting_sized fits.content fits'.content
    (List.append_cancel_left body)
  exact ⟨rfl, rest⟩

theorem bsdRecord_ne_nil (m : BsdMember) : bsdRecord m ≠ [] := by
  simp [bsdRecord, bsdNameRecord, utf8]

/-! ## Identities -/

section Identities

variable {gates : ObjectGates} {blake3 : Bytes → String} {bytes : Bytes} {id : ArchiveIdentity}

/-- **The GNU identity is that of the sequence of members.** -/
theorem gnuArchiveIdentity_spec (h : gnuArchiveIdentity gates blake3 bytes = some id) :
    ∃ ms, gnuMembers bytes = some ms ∧ (∀ m ∈ ms, m.Fits) ∧
      id = ⟨"gnu-ar-v2:" ++ blake3 (gnuDomain ++ ms.flatMap gnuRecord),
        ms.any (GnuMember.dwarf gates)⟩ := by
  obtain ⟨magic, h⟩ := Option.ite_none_right_eq_some.mp h
  obtain ⟨st, done, h⟩ := Option.bind_eq_some_iff.mp h
  obtain ⟨ms, members, fits, hash, flag⟩ := (appends_gnuMember gates).fold magic done
  split at h
  · cases h
  · cases h
    refine ⟨ms, members, fits, ?_⟩
    rw [hash, flag]
    rfl

/-- **The BSD identity is that of the sequence of members.** -/
theorem bsdArchiveIdentity_spec (h : bsdArchiveIdentity gates blake3 bytes = some id) :
    ∃ ms, bsdMembers bytes = some ms ∧ (∀ m ∈ ms, m.Fits) ∧
      id = ⟨"bsd-ar-v2:" ++ blake3 (bsdDomain ++ ms.flatMap bsdRecord),
        ms.any (BsdMember.dwarf gates)⟩ := by
  obtain ⟨magic, h⟩ := Option.ite_none_right_eq_some.mp h
  obtain ⟨st, done, h⟩ := Option.bind_eq_some_iff.mp h
  obtain ⟨ms, members, fits, hash, flag⟩ := (appends_bsdMember gates).fold magic done
  split at h
  · cases h
  · cases h
    refine ⟨ms, members, fits, ?_⟩
    rw [hash, flag]
    rfl

end Identities

/-- The two readings of an archive. -/
inductive Arm where
  | gnu
  | bsd
  deriving DecidableEq

/-- The arm that accepts an archive. -/
def acceptedBy (gates : ObjectGates) (blake3 : Bytes → String) (bytes : Bytes) : Option Arm :=
  if (gnuArchiveIdentity gates blake3 bytes).isSome then some .gnu
  else if (bsdArchiveIdentity gates blake3 bytes).isSome then some .bsd
  else none

/-- Two archives have the same sequence of members, to the eyes of an arm. -/
def SameMembers : Arm → Bytes → Bytes → Prop
  | .gnu, a, b => ∃ ms, gnuMembers a = some ms ∧ gnuMembers b = some ms
  | .bsd, a, b => ∃ ms, bsdMembers a = some ms ∧ bsdMembers b = some ms

/-- What an accepted archive is. -/
theorem portable_cases {gates : ObjectGates} {blake3 : Bytes → String} {bytes : Bytes}
    {id : ArchiveIdentity} (h : portableStaticArchiveIdentity gates blake3 bytes = some id) :
    (acceptedBy gates blake3 bytes = some .gnu ∧ ∃ ms, gnuMembers bytes = some ms ∧
      (∀ m ∈ ms, m.Fits) ∧ id = ⟨"gnu-ar-v2:" ++ blake3 (gnuDomain ++ ms.flatMap gnuRecord),
        ms.any (GnuMember.dwarf gates)⟩) ∨
    (acceptedBy gates blake3 bytes = some .bsd ∧ ∃ ms, bsdMembers bytes = some ms ∧
      (∀ m ∈ ms, m.Fits) ∧ id = ⟨"bsd-ar-v2:" ++ blake3 (bsdDomain ++ ms.flatMap bsdRecord),
        ms.any (BsdMember.dwarf gates)⟩) := by
  unfold portableStaticArchiveIdentity at h
  unfold acceptedBy
  cases gnu : gnuArchiveIdentity gates blake3 bytes with
  | some found =>
    rw [gnu] at h
    cases h
    exact .inl ⟨rfl, gnuArchiveIdentity_spec gnu⟩
  | none =>
    rw [gnu, Option.none_or] at h
    exact .inr ⟨by simp [h], bsdArchiveIdentity_spec h⟩

/-- The digests of the two arms are told apart by their text. -/
theorem gnu_ne_bsd (x y : String) : "gnu-ar-v2:" ++ x ≠ "bsd-ar-v2:" ++ y := by
  intro same
  have chars := congrArg String.toList same
  rw [String.toList_append, String.toList_append] at chars
  exact absurd (congrArg List.head? chars) (by simp)

/-- **The identity of an archive is its sequence of members.**  Archives with equal digests
were accepted by the same arm and have the same members, in name, date and data, and
so the same DWARF flag.  Archives that one arm accepts with the same members have the
same identity, whatever else is in their headers. -/
theorem archive_identity_injective (gates : ObjectGates) {blake3 : Bytes → String}
    (collisionFree : Function.Injective blake3) {a b : Bytes} {x y : ArchiveIdentity}
    (ha : portableStaticArchiveIdentity gates blake3 a = some x)
    (hb : portableStaticArchiveIdentity gates blake3 b = some y) :
    (x.digest = y.digest → ∃ arm, acceptedBy gates blake3 a = some arm ∧
      acceptedBy gates blake3 b = some arm ∧ SameMembers arm a b ∧
        x.machoDwarfMembers = y.machoDwarfMembers) ∧
    ∀ arm, acceptedBy gates blake3 a = some arm → acceptedBy gates blake3 b = some arm →
      SameMembers arm a b → x = y := by
  rcases portable_cases ha with ⟨armA, ms, hms, fits, rfl⟩ | ⟨armA, ms, hms, fits, rfl⟩
  · rcases portable_cases hb with ⟨armB, ms', hms', fits', rfl⟩ | ⟨armB, ms', hms', fits', rfl⟩
    · refine ⟨fun digest => ⟨.gnu, armA, armB, ?_⟩, fun arm accA _ same => ?_⟩
      · have stream :=
          List.append_cancel_left (collisionFree ((String.append_right_inj _).mp digest))
        obtain rfl := selfDelimiting_gnuRecord.flatMap_injective gnuRecord_ne_nil fits fits' stream
        exact ⟨⟨ms, hms, hms'⟩, rfl⟩
      · cases armA.symm.trans accA
        obtain ⟨common, hcommon, hcommon'⟩ := same
        cases hms.symm.trans hcommon
        cases hms'.symm.trans hcommon'
        rfl
    · refine ⟨fun digest => absurd digest (gnu_ne_bsd _ _), fun arm accA accB _ => ?_⟩
      cases (armA.symm.trans (accA.trans accB.symm)).trans armB
  · rcases portable_cases hb with ⟨armB, ms', hms', fits', rfl⟩ | ⟨armB, ms', hms', fits', rfl⟩
    · refine ⟨fun digest => absurd digest.symm (gnu_ne_bsd _ _), fun arm accA accB _ => ?_⟩
      cases (armA.symm.trans (accA.trans accB.symm)).trans armB
    · refine ⟨fun digest => ⟨.bsd, armA, armB, ?_⟩, fun arm accA _ same => ?_⟩
      · have stream :=
          List.append_cancel_left (collisionFree ((String.append_right_inj _).mp digest))
        obtain rfl := selfDelimiting_bsdRecord.flatMap_injective bsdRecord_ne_nil fits fits' stream
        exact ⟨⟨ms, hms, hms'⟩, rfl⟩
      · cases armA.symm.trans accA
        obtain ⟨common, hcommon, hcommon'⟩ := same
        cases hms.symm.trans hcommon
        cases hms'.symm.trans hcommon'
        rfl

/-- A text field of a header. -/
def field (width : ℕ) (text : String) : Bytes :=
  utf8 text ++ List.replicate (width - (utf8 text).length) 32

/-- An ELF object for the 386 with no section but the names of sections. -/
def elfObject : Bytes :=
  [127, 69, 76, 70, 1, 1, 1] ++ List.replicate 9 0 ++ [1, 0, 3, 0, 1, 0, 0, 0] ++
    List.replicate 8 0 ++ [52, 0, 0, 0] ++ List.replicate 4 0 ++
    [52, 0, 0, 0, 0, 0, 40, 0, 2, 0, 1, 0] ++ List.replicate 44 0 ++ [3, 0, 0, 0] ++
    List.replicate 8 0 ++ [132, 0, 0, 0, 1, 0, 0, 0] ++ List.replicate 17 0

/-- Checks that know this object, as the checks of the source do. -/
def elfGates : ObjectGates := ⟨fun _ => false, fun _ => none, fun data => data = elfObject⟩

/-- An archive of the object. -/
def smallArchive (date uid size : String) (padding : UInt8) : Bytes :=
  arMagic ++ field 16 "a.o/" ++ field 12 date ++ field 6 uid ++ field 6 "0" ++ field 8 "644" ++
    field 10 size ++ utf8 "\x60\n" ++ elfObject ++ [padding]

/-- A digest without collisions: the text itself. -/
def textDigest (bytes : Bytes) : String := String.ofList (bytes.map fun b => Char.ofNat b.toNat)

theorem textDigest_injective : Function.Injective textDigest := by
  have small : ∀ n < 256, (Char.ofNat n).toNat = n := by decide +kernel
  intro a b same
  refine List.map_injective_iff.mpr (fun x y hxy => ?_) (String.ofList_inj.mp same)
  have digits := congrArg Char.toNat hxy
  rw [small _ x.toNat_lt, small _ y.toNat_lt] at digits
  exact UInt8.toNat_inj.mp digits

/-- The same object with another owner, other padding and leading zeros. -/
theorem archive_identity_injective_respelled :
    ∃ x, portableStaticArchiveIdentity elfGates textDigest (smallArchive "7" "0" "133" 10) =
        some x ∧
      portableStaticArchiveIdentity elfGates textDigest (smallArchive "007" "501" "0133" 0) =
        some x := by
  have accepted : ∀ {bytes}, acceptedBy elfGates textDigest bytes = some .gnu →
      ∃ x, portableStaticArchiveIdentity elfGates textDigest bytes = some x := by
    intro bytes gnu
    unfold acceptedBy at gnu
    split at gnu
    · next found =>
      obtain ⟨x, hx⟩ := Option.isSome_iff_exists.mp found
      exact ⟨x, by simp [portableStaticArchiveIdentity, hx]⟩
    · split at gnu <;> cases gnu
  have first : acceptedBy elfGates textDigest (smallArchive "7" "0" "133" 10) = some .gnu := by
    decide +kernel
  have second : acceptedBy elfGates textDigest (smallArchive "007" "501" "0133" 0) = some .gnu := by
    decide +kernel
  obtain ⟨x, hx⟩ := accepted first
  obtain ⟨y, hy⟩ := accepted second
  have same := (archive_identity_injective _ textDigest_injective hx hy).2 .gnu first second
    ⟨[⟨utf8 "a.o/", .decimal 7, elfObject⟩], by decide +kernel, by decide +kernel⟩
  exact ⟨x, hx, same ▸ hy⟩

end Kache.Archive
