/-
  A certificate's subjectAltName, decoded and printed (`tls/names.rs`).  A name that could be mistaken for more than one
  is printed as a JSON string literal, so each is printed in one of two shapes (`Printed`).
-/
import Oam.Lib.Hex
import Oam.Tls.Der

namespace Oam.Tls

open Text

/-- The bytes of a text of the source. -/
def ascii (s : String) : List UInt8 := encode s.toList

/-! ## One name, printed -/

/-- `is_safe_alt_name`: the name can be printed as it is.  In UTF-8 the bytes from 0x80 on are safe. -/
def isSafeAltName (name : List UInt8) (utf8 : Bool) : Bool :=
  name.all fun c =>
    if c = 0x22 ∨ c = 0x5c ∨ c = 0x2c ∨ c = 0x27 then false
    else if utf8 then decide (0x20 ≤ c.toNat ∧ c ≠ 0x7f)
    else decide (0x20 ≤ c.toNat ∧ c.toNat ≤ 0x7e)

def escapeByte (utf8 : Bool) (c : UInt8) : List UInt8 :=
  if c = 0x5c then [0x5c, 0x5c]
  else if c = 0x22 then [0x5c, 0x22]
  else if (0x20 ≤ c.toNat ∧ c ≠ 0x2c ∧ c.toNat ≤ 0x7e) ∨ (utf8 = true ∧ c &&& 0x80 ≠ 0) then [c]
  else ascii "\\u00" ++ encode (Hex.hexByte c)

/-- What precedes the name inside the quotes, if anything does. -/
def printPrefix : Option String → List UInt8
  | none => []
  | some word => ascii word ++ [0x3a]

/-- `print_alt_name`: the name as it is, or as a JSON string literal. -/
def printAltName (name : List UInt8) (utf8 : Bool) (label : Option String) : List UInt8 :=
  if isSafeAltName name utf8 then printPrefix label ++ name
  else [0x22] ++ printPrefix label ++ name.flatMap (escapeByte utf8) ++ [0x22]

/-! ## Directory names -/

/-- `escape_2253`. -/
def escape2253 (c : UInt8) (first last : Bool) : List UInt8 :=
  let escaped := c ∈ ([0x2c, 0x2b, 0x22, 0x5c, 0x3c, 0x3e, 0x3b] : List UInt8) ∨
    (first = true ∧ (c = 0x23 ∨ c = 0x20)) ∨ (last = true ∧ c = 0x20)
  if escaped then [0x5c, c] else [c]

/-- The characters of a value.  The last one is never the first: OpenSSL replaces the one mark by the other. -/
def printChars (width : Nat) : (isFirst : Bool) → List Nat → List UInt8
  | _, [] => []
  | isFirst, c :: chars =>
    let last := chars.isEmpty
    let first := isFirst && !last
    (if width = 0 ∨ c < 0x80 then
      if c % 256 < 0x80 then escape2253 (UInt8.ofNat c) first last else [UInt8.ofNat c]
    else encode [(charFromU32 c).getD replacement]) ++ printChars width false chars

/-- `format!("{b:02X}")`. -/
def upperHexByte (b : UInt8) : Str := (Hex.hexByte b).map Char.toUpper

/-- `print_name_value`: the characters of a string, or `#` and the value's DER in hex. -/
def printNameValue (value : Der) (knownField : Bool) : List UInt8 :=
  match if knownField then charWidth value.tag else none with
  | none => [0x23] ++ encode (value.raw.flatMap upperHexByte)
  | some width =>
    let bytes := value.content.map UInt8.toNat
    -- a UTF8String is read a byte at a time, and so is a wide string that is cut off
    let chars := if width ≤ 1 then bytes else (wideChars value.content width).getD bytes
    printChars width true chars

/-- An attribute of the relative distinguished name `set`: its type's object identifier and its value. -/
def attributeEntry (set : Nat) (attr : Der) : Option (Nat × Der × Der) :=
  if attr.tag ≠ 0x30 then none
  else
    match derItems attr.content with
    | some [oid, value] => if oid.tag ≠ 0x06 then none else some (set, oid, value)
    | _ => none

def rdnEntries (rdn : Der × Nat) : Option (List (Nat × Der × Der)) :=
  if rdn.1.tag ≠ 0x31 then none
  else (derItems rdn.1.content).bind fun attrs => attrs.mapM (attributeEntry rdn.2)

/-- The attributes of a Name in one list, each with the number of the set it is in. -/
def directoryEntries (name : Der) : Option (List (Nat × Der × Der)) :=
  if name.tag ≠ 0x30 then none
  else (derItems name.content).bind fun rdns => (rdns.zipIdx.mapM rdnEntries).map List.flatten

def printEntries : (previous : Option Nat) → List (Nat × Der × Der) → List UInt8
  | _, [] => []
  | previous, (set, oid, value) :: entries =>
    let dotted := oidText oid.content
    let short := attrShortName dotted
    (match previous with
      | none => []
      | some before => if before = set then [0x2b] else [0x2c]) ++
    encode (short.getD dotted) ++ [0x3d] ++ printNameValue value short.isSome ++ printEntries (some set) entries

/-- `print_directory_name`: the last attribute first. -/
def printDirectoryName (name : Der) : Option (List UInt8) :=
  (directoryEntries name).map fun entries => printEntries none entries.reverse

/-! ## General names -/

inductive GeneralName where
  | other (typeId : List UInt8) (value : Der)
  | email (bytes : List UInt8)
  | dns (bytes : List UInt8)
  | x400
  | directory (name : Der)
  | ediParty
  | uri (bytes : List UInt8)
  | ip (bytes : List UInt8)
  | registered (oid : List UInt8)
deriving DecidableEq, Repr

def otherName (content : List UInt8) : Option GeneralName :=
  match derItems content with
  | some [typeId, explicit] =>
    if typeId.tag ≠ 0x06 ∨ explicit.tag ≠ 0xa0 then none
    else
      match readDer explicit.content with
      | some (value, []) => some (.other typeId.content value)
      | _ => none
  | _ => none

def directoryName (content : List UInt8) : Option GeneralName :=
  match readDer content with
  | some (name, []) => (printDirectoryName name).map fun _ => .directory name
  | _ => none

def generalName (item : Der) : Option GeneralName :=
  if item.tag = 0xa0 then otherName item.content
  else if item.tag = 0x81 then some (.email item.content)
  else if item.tag = 0x82 then some (.dns item.content)
  else if item.tag = 0xa3 then some .x400
  else if item.tag = 0xa4 then directoryName item.content
  else if item.tag = 0xa5 then some .ediParty
  else if item.tag = 0x86 then some (.uri item.content)
  else if item.tag = 0x87 then some (.ip item.content)
  else if item.tag = 0x88 then some (.registered item.content)
  else none

/-- `general_names`: a GeneralNames value; what follows the sequence is not looked at. -/
def generalNames (der : List UInt8) : Option (List GeneralName) :=
  (readDer der).bind fun (seq, _) =>
    if seq.tag ≠ 0x30 then none else (derItems seq.content).bind fun items => items.mapM generalName

/-- The otherName types that Node prints: the word it puts before the value, and whether that is in UTF-8. -/
def otherNamePrefix (typeId : List UInt8) : Option (String × Bool) :=
  let oid := oidText typeId
  if oid = "1.3.6.1.5.5.7.8.9".toList then some ("SmtpUTF8Mailbox", true)
  else if oid = "1.3.6.1.5.5.7.8.5".toList then some ("XmppAddr", true)
  else if oid = "1.3.6.1.5.5.7.8.7".toList then some ("SRVName", false)
  else if oid = "1.3.6.1.4.1.311.20.2.3".toList then some ("UPN", true)
  else if oid = "1.3.6.1.5.5.7.8.8".toList then some ("NAIRealm", true)
  else none

/-- Two bytes a group. -/
def words : List UInt8 → List Nat
  | hi :: lo :: bytes => (hi.toNat * 256 + lo.toNat) :: words bytes
  | _ => []

/-- `format!("{:X}")`. -/
def upperHex (n : Nat) : Str := (Hex.hex n).map Char.toUpper

def dottedQuad (bytes : List UInt8) : Str := ['.'].intercalate (bytes.map fun b => Decimal.decimal b.toNat)

/-- `ip_entry_text`: a dotted quad, eight groups, or what is wrong with the length. -/
def ipEntryText (bytes : List UInt8) : Str :=
  if bytes.length = 4 then dottedQuad bytes
  else if bytes.length = 16 then [':'].intercalate ((words bytes).map upperHex)
  else "<invalid length=".toList ++ Decimal.decimal bytes.length ++ ">".toList

/-- The bytes that `general_name_text` writes. -/
def generalNameBytes : GeneralName → List UInt8
  | .dns bytes => ascii "DNS:" ++ printAltName bytes false none
  | .email bytes => ascii "email:" ++ printAltName bytes false none
  | .uri bytes => ascii "URI:" ++ printAltName bytes false none
  | .directory der =>
    ascii "DirName:" ++
      match printDirectoryName der with
      | some text => printAltName text true none
      | none => ascii "<unsupported>"
  | .ip bytes => ascii "IP Address:" ++ encode (ipEntryText bytes)
  | .registered oid => ascii "Registered ID:" ++ encode (oidText oid)
  | .other typeId value =>
    match (otherNamePrefix typeId).filter fun wanted => value.tag = if wanted.2 then 0x0c else 0x16 with
    | some (label, unicode) => ascii "othername:" ++ printAltName value.content unicode (some label)
    | none => ascii "othername:<unsupported>"
  | .x400 => ascii "X400Name:<unsupported>"
  | .ediParty => ascii "EdiPartyName:<unsupported>"

/-- `general_name_text`. -/
def generalNameText (name : GeneralName) : Str := lossy (generalNameBytes name)

def altNames (names : List GeneralName) : Str := ", ".toList.intercalate (names.map generalNameText)

/-- `alt_names_text`: the extension's value as Node's `subjectaltname`; `none` when it does not decode. -/
def altNamesText (extValue : List UInt8) : Option Str := (generalNames extValue).map altNames

end Oam.Tls
