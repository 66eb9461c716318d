import Kache.Format
import Kache.Foundation.Framing
import Kache.Foundation.Text

/-!
# Identities of native archives

A static archive is hashed by what a linker sees of it.  An `ar` archive is a magic
number and a sequence of members, each a header of sixty bytes with text fields and a
body padded to an even length.  Two flavours are read, each by an *arm* of its own:
GNU archives, with an optional symbol table and a table of long names in front,
and BSD archives, where a long name stands in front of the member's data.  Whatever
an arm does not understand makes it give up, and the archive is then hashed with its
path.

Both arms walk over the members in the same way (`arFold`); an arm is what it does with
one member.  Everything that goes wrong gives the same answer, so it does not
matter in which order an arm looks.  The checks of object files are parameters: an arm
asks them about the data of a member and about nothing else.
-/

namespace Kache.Archive

/-! ## Members -/

/-- `AR_MAGIC`. -/
def arMagic : Bytes := utf8 "!<arch>\n"

/-- `AR_HEADER_LEN`. -/
def arHeaderLen : ℕ := 60

/-- A member as it stands in the file. -/
structure RawMember where
  name : Bytes
  date : Bytes
  uid : Bytes
  gid : Bytes
  mode : Bytes
  size : Bytes
  data : Bytes
  padding : Bytes
  deriving DecidableEq

/-- `ar_name`: the field without the spaces at its end. -/
def arName (field : Bytes) : Option Bytes :=
  let name := field.rdropWhile (· = 32)
  (Text.fromUtf8 name).map fun _ => name

/-- `parse_ar_decimal`. -/
def parseArDecimal (field : Bytes) : Option ℕ := do
  let digits := Text.trimEnd (← Text.fromUtf8 field)
  if digits = [] ∨ ¬digits.all Char.isDigit then none else Text.parseUsize digits

/-- `ArTimestamp`. -/
inductive ArTimestamp where
  | decimal (seconds : ℕ)
  | blank
  deriving DecidableEq

/-- `parse_ar_timestamp`. -/
def parseArTimestamp (field : Bytes) : Option ArTimestamp :=
  if field.all (· = 32) then some .blank else (parseArDecimal field).map .decimal

/-- The member at the front of `rest`, and what comes after it.  A sum that overflows and
an index past the end are both `None`. -/
def readMember (rest : Bytes) : Option (RawMember × Bytes) :=
  if rest.length < arHeaderLen then none
  else
    let header := rest.take arHeaderLen
    let body := rest.drop arHeaderLen
    if header.drop 58 ≠ utf8 "\x60\n" then none
    else do
      let size ← parseArDecimal ((header.drop 48).take 10)
      let padded := size + size % 2
      if body.length < padded then none
      else
        some (⟨header.take 16, (header.drop 16).take 12, (header.drop 28).take 6,
          (header.drop 34).take 6, (header.drop 40).take 8, (header.drop 48).take 10,
          body.take size, (body.drop size).take (size % 2)⟩, body.drop padded)

section Fold

variable {σ : Type} (step : σ → RawMember → Option σ)

/-- The loop of both arms, for at most `fuel` members. -/
def arLoop : ℕ → σ → Bytes → Option σ
  | _, state, [] => some state
  | 0, _, _ :: _ => none
  | fuel + 1, state, byte :: rest => do
      let (member, rest) ← readMember (byte :: rest)
      arLoop fuel (← step state member) rest

/-- The loop: members are longer than a byte, so the length is enough fuel. -/
def arFold (state : σ) (rest : Bytes) : Option σ := arLoop step rest.length state rest

end Fold

/-- The members of `rest`, at most `fuel` of them. -/
def arMembers : ℕ → Bytes → Option (List RawMember)
  | _, [] => some []
  | 0, _ :: _ => none
  | fuel + 1, byte :: rest => do
      let (member, rest) ← readMember (byte :: rest)
      some (member :: (← arMembers fuel rest))

/-- The members of an archive. -/
def readMembers (bytes : Bytes) : Option (List RawMember) :=
  if arMagic <+: bytes then
    let rest := bytes.drop arMagic.length
    arMembers rest.length rest
  else none

/-! ## The identity -/

/-- The checks of object files: `has_macho_magic`,
`parse_known_no_debug_macho_object`, which tells whether there is DWARF, and
`is_known_elf_relocatable_object`. -/
structure ObjectGates where
  hasMachoMagic : Bytes → Bool
  parseKnownNoDebugMachoObject : Bytes → Option Bool
  isKnownElfRelocatableObject : Bytes → Bool

/-- Whether an object has DWARF, if it is one that may be hashed. -/
def ObjectGates.dwarf (gates : ObjectGates) (data : Bytes) : Option Bool :=
  if gates.hasMachoMagic data then gates.parseKnownNoDebugMachoObject data
  else if gates.isKnownElfRelocatableObject data then some false
  else none

/-- `ArchiveIdentity`. -/
structure ArchiveIdentity where
  digest : String
  machoDwarfMembers : Bool
  deriving DecidableEq

/-- `to_le_bytes` of a `u64`. -/
def u64Bytes (n : ℕ) : Bytes := leBytes 8 n

/-- A byte string with its length in front. -/
def sized (bytes : Bytes) : Bytes := u64Bytes bytes.length ++ bytes

/-! ### The GNU arm -/

/-- `Member`. -/
inductive Member where
  | symbolTable
  | longNameTable
  | object
  deriving DecidableEq

/-- `classify`. -/
def classify (name : Bytes) : Member :=
  if name = utf8 "/" ∨ name = utf8 "/SYM64/" then .symbolTable
  else if name = utf8 "//" then .longNameTable
  else .object

/-- `GNU_DOMAIN`. -/
def gnuDomain : Bytes := utf8 "kache.native-ar.gnu.member-identity.v2\x00"

/-- The mutable state of `gnu_archive_identity`; `hasher` is what was fed to it. -/
structure GnuState where
  hasher : Bytes
  memberIndex : ℕ
  seenSymtab : Bool
  longnames : Option Bytes
  objectMembers : ℕ
  machoDwarfMembers : Bool

namespace GnuState

def start : GnuState := ⟨gnuDomain, 0, false, none, 0, false⟩

def update (st : GnuState) (bytes : Bytes) : GnuState := { st with hasher := st.hasher ++ bytes }

/-- The end of the loop body. -/
def next (st : GnuState) : GnuState := { st with memberIndex := st.memberIndex + 1 }

end GnuState

/-- BSD markers. -/
def isBsdMarker (name : Bytes) : Bool :=
  utf8 "#1/" <+: name ∨ name = utf8 "__.SYMDEF" ∨ name = utf8 "__.SYMDEF SORTED" ∨
    name = utf8 "__.SYMDEF_64"

/-- What is hashed of a date.  Only the long-name table may have none. -/
def gnuDate : ArTimestamp → Member → Option Bytes
  | .decimal mtime, _ => some (utf8 "mtime\x00" ++ u64Bytes mtime)
  | .blank, .longNameTable => some (utf8 "mtime-blank\x00")
  | .blank, _ => none

/-- The tag of a symbol table. -/
def symtabTag (name : Bytes) : Bytes :=
  if name = utf8 "/SYM64/" then utf8 "symtab64\x00" else utf8 "symtab32\x00"

def gnuSymbolTable (st : GnuState) (name data : Bytes) : Option GnuState :=
  if st.seenSymtab ∨ st.memberIndex ≠ 0 then none
  else some (GnuState.update { st with seenSymtab := true } (symtabTag name ++ sized data))

def gnuLongNameTable (st : GnuState) (data : Bytes) : Option GnuState :=
  if st.memberIndex ≠ st.seenSymtab.toNat then none
  else some (GnuState.update { st with longnames := some data }
    (utf8 "longnames\x00" ++ sized data))

/-- `windows(2).position(..)`: where the terminator of a long name is. -/
def terminator : Bytes → Option ℕ
  | a :: b :: rest => if [a, b] = utf8 "/\n" then some 0 else (terminator (b :: rest)).map (· + 1)
  | _ => none

/-- The name of an object: a reference into the long-name table, or closed by a slash. -/
def gnuNameOk (longnames : Option Bytes) (name : Bytes) : Option Unit :=
  if utf8 "/" <+: name then do
    let table ← longnames
    let offset ← parseArDecimal (name.drop 1)
    if offset ≠ 0 ∧ table[offset - 1]? ≠ some 10 then none
    else if table.length < offset then none
    else
      let stop ← terminator (table.drop offset)
      if stop = 0 then none else some ()
  else if utf8 "/" <:+ name then some ()
  else none

def gnuObject (gates : ObjectGates) (st : GnuState) (name data : Bytes) : Option GnuState := do
  gnuNameOk st.longnames name
  let dwarf ← gates.dwarf data
  some (GnuState.update { st with
    machoDwarfMembers := st.machoDwarfMembers || dwarf
    objectMembers := st.objectMembers + 1 } (utf8 "member\x00" ++ sized name ++ sized data))

/-- The kinds of members. -/
def gnuKind (gates : ObjectGates) (st : GnuState) (name data : Bytes) : Option GnuState :=
  match classify name with
  | .symbolTable => gnuSymbolTable st name data
  | .longNameTable => gnuLongNameTable st data
  | .object => gnuObject gates st name data

/-- One member of `gnu_archive_identity`. -/
def gnuMember (gates : ObjectGates) (st : GnuState) (member : RawMember) : Option GnuState := do
  let name ← arName member.name
  let mtime ← parseArTimestamp member.date
  if isBsdMarker name then none
  else
    let date ← gnuDate mtime (classify name)
    (gnuKind gates (st.update date) name member.data).map GnuState.next

/-- `gnu_archive_identity`.  `blake3` is the digest in hexadecimal. -/
def gnuArchiveIdentity (gates : ObjectGates) (blake3 : Bytes → String) (bytes : Bytes) :
    Option ArchiveIdentity :=
  if arMagic <+: bytes then do
    let st ← arFold (gnuMember gates) .start (bytes.drop arMagic.length)
    if st.objectMembers = 0 then none
    else some ⟨"gnu-ar-v2:" ++ blake3 st.hasher, st.machoDwarfMembers⟩
  else none

/-! ### The BSD arm -/

/-- `BSD_DOMAIN`. -/
def bsdDomain : Bytes := utf8 "kache.native-ar.bsd.member-identity.v2\x00"

/-- How a name is stored: in the header, or in front of the data. -/
inductive NameEncoding where
  | short
  | inline
  deriving DecidableEq

def NameEncoding.tag : NameEncoding → Bytes
  | .short => utf8 "short\x00"
  | .inline => utf8 "inline\x00"

/-- The name of a BSD member: trimmed for classification, as stored, and how; and what
is left of the data. -/
structure BsdName where
  name : Bytes
  stored : Bytes
  encoding : NameEncoding
  content : Bytes

/-- `inline_len`. -/
def BsdName.inlineLen (n : BsdName) : ℕ :=
  match n.encoding with
  | .short => 0
  | .inline => n.stored.length

/-- The effective name of a member. -/
def bsdName (member : RawMember) : Option BsdName := do
  let field ← arName member.name
  if utf8 "/" <+: field ∨ utf8 "/" <:+ field then none
  else if utf8 "#1/" <+: field then do
    let n ← parseArDecimal (field.drop 3)
    if member.data.length < n then none
    else
      let raw := member.data.take n
      let name := raw.rdropWhile (· = 0)
      let _ ← Text.fromUtf8 name
      some ⟨name, raw, .inline, member.data.drop n⟩
  else some ⟨field, member.name, .short, member.data⟩

/-- `is_bsd_symdef`. -/
def isBsdSymdef (name : Bytes) : Bool :=
  name = utf8 "__.SYMDEF" ∨ name = utf8 "__.SYMDEF SORTED" ∨ name = utf8 "__.SYMDEF_64" ∨
    name = utf8 "__.SYMDEF_64 SORTED"

/-- The mutable state of `bsd_archive_identity`. -/
structure BsdState where
  hasher : Bytes
  memberIndex : ℕ
  seenSymdef : Bool
  objectMembers : ℕ
  machoDwarfMembers : Bool

namespace BsdState

def start : BsdState := ⟨bsdDomain, 0, false, 0, false⟩

def update (st : BsdState) (bytes : Bytes) : BsdState := { st with hasher := st.hasher ++ bytes }

/-- The end of the loop body. -/
def next (st : BsdState) : BsdState := { st with memberIndex := st.memberIndex + 1 }

end BsdState

/-- What is hashed of a name and a date. -/
def bsdNameRecord (n : BsdName) (mtime : ℕ) : Bytes :=
  utf8 "name\x00" ++ n.encoding.tag ++ sized n.stored ++ u64Bytes mtime

def bsdSymdef (st : BsdState) (n : BsdName) : Option BsdState :=
  if st.seenSymdef ∨ st.memberIndex ≠ 0 then none
  else some (BsdState.update { st with seenSymdef := true }
    (utf8 "symdef\x00" ++ sized n.name ++ u64Bytes n.inlineLen ++ sized n.content))

def bsdObject (gates : ObjectGates) (st : BsdState) (n : BsdName) : Option BsdState := do
  let dwarf ← gates.dwarf n.content
  some (BsdState.update { st with
    machoDwarfMembers := st.machoDwarfMembers || dwarf
    objectMembers := st.objectMembers + 1 }
    (utf8 "member\x00" ++ u64Bytes n.inlineLen ++ sized n.content))

/-- The kinds of members. -/
def bsdKind (gates : ObjectGates) (st : BsdState) (n : BsdName) : Option BsdState :=
  if isBsdSymdef n.name then bsdSymdef st n else bsdObject gates st n

/-- One member of `bsd_archive_identity`. -/
def bsdMember (gates : ObjectGates) (st : BsdState) (member : RawMember) : Option BsdState := do
  let mtime ← parseArDecimal member.date
  let n ← bsdName member
  (bsdKind gates (st.update (bsdNameRecord n mtime)) n).map BsdState.next

/-- `bsd_archive_identity`. -/
def bsdArchiveIdentity (gates : ObjectGates) (blake3 : Bytes → String) (bytes : Bytes) :
    Option ArchiveIdentity :=
  if arMagic <+: bytes then do
    let st ← arFold (bsdMember gates) .start (bytes.drop arMagic.length)
    if st.objectMembers = 0 then none
    else some ⟨"bsd-ar-v2:" ++ blake3 st.hasher, st.machoDwarfMembers⟩
  else none

/-- `portable_static_archive_identity`. -/
def portableStaticArchiveIdentity (gates : ObjectGates) (blake3 : Bytes → String)
    (bytes : Bytes) : Option ArchiveIdentity :=
  (gnuArchiveIdentity gates blake3 bytes).or (bsdArchiveIdentity gates blake3 bytes)

end Kache.Archive
