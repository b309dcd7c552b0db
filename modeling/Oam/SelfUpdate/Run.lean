/-
  The update itself (`oam_cli/src/self_update.rs`, from the network on).

  Every call asks the environment anew, so a server may answer the same URL differently each time.  What the program
  prints is left out, and so are the modes of files (a call about them succeeds or fails) and the operating system's own
  words in a message.
-/
import Oam.Lib.Act
import Oam.SelfUpdate.Trust
import Mathlib.Algebra.Group.Nat.Defs

namespace Oam.SelfUpdate

open Text Decimal Hex

/-! ## Data -/

/-- The components of a path, from its root or from the working directory. -/
abbrev Path := List Str

namespace Path

def parent (p : Path) : Option Path := if p.isEmpty then none else some p.dropLast

def fileName (p : Path) : Option Str := p.getLast?.filter (· ≠ ['.', '.'])

def withFileName (p : Path) (name : Str) : Path := if (fileName p).isSome then p.dropLast ++ [name] else p ++ [name]

def push (p : Path) (text : Str) : Path := p.dropLast ++ [p.getLastD [] ++ text]

def display (p : Path) : String := str (['/'].intercalate p)

end Path

/-- The last response of a request, after its redirects: its URL and status, and the body until it ends or breaks. -/
structure Response where
  status : Nat
  url : Str
  chunks : List Bytes
  broken : Option String

inductive Answer where
  | failed (e : String)
  | response (r : Response)

/-- What the program meets, by the number of the call. -/
structure Env where
  server : Nat → Str → Answer
  /-- Whether a file operation fails; a write may do so after some bytes. -/
  fault : Nat → Option Nat
  /-- Whether a copy that was moved aside still runs and cannot be removed. -/
  inUse : Nat → Path → Bool
  smoke : Nat → Except String String
  pid : Nat
  secs : Nat
  windows : Bool

structure World where
  files : Path → Option Bytes
  calls : Nat
  /-- Whether the download was to be moved to the target, and what was moved there. -/
  attempted : Bool
  placed : List Bytes

abbrev Action := Act World String

structure Request where
  pinned : Option Tag
  current : Tag
  releasesRoot : Str
  assetBase : Option Str
  assetBaseVar : String
  asset : Str
  target : Path
  dryRun : Bool

inductive Outcome where
  | upToDate (tag : Tag)
  | dryRun (tag : Tag)
  | updated (tag : Tag)
deriving DecidableEq

def metaCap : Nat := 2 ^ 20

def licenseCap : Nat := 16 * 2 ^ 20

def assetCap : Nat := 2 * 2 ^ 30

section
variable (env : Env)

/-! ## Requests -/

def ask (url : Str) : Action Answer := .update fun w => (env.server w.calls url, { w with calls := w.calls + 1 })

/-- What an answer to one attempt means: a response or a 404, another attempt, or the end. -/
def classify (url : Str) : Answer → Except String (Option Response) ⊕ String
  | .failed e => .inr s!"request to {str url}: {e}"
  | .response r =>
    if r.status = 404 then .inl (.ok none)
    else if 200 ≤ r.status ∧ r.status < 300 then .inl (.ok (some r))
    else if 500 ≤ r.status ∧ r.status < 600 then .inr s!"HTTP {r.status} for {str url}"
    else .inl (.error s!"HTTP {r.status} for {str url}")

def sendFrom (url : Str) : (attempts : Nat) → (last : String) → Action (Option Response)
  | 0, last => .fail last
  | attempts + 1, _ => do
    let answer ← ask env url
    match classify url answer with
    | .inl result => .lift result
    | .inr last => sendFrom url attempts last

def send (url : Str) : Action (Option Response) := sendFrom env url 2 ""

/-- The body, whole, refused past `cap` bytes. -/
def readBody (url : Str) (cap : Nat) (broken : Option String) : List Bytes → Bytes → Except String Bytes
  | [], body =>
    match broken with
    | some e => .error s!"reading {str url}: {e}"
    | none => .ok body
  | chunk :: rest, body =>
    if cap < (body ++ chunk).length then .error s!"{str url} is over {cap} bytes -- not the file expected"
    else readBody url cap broken rest (body ++ chunk)

/-- `Http::get`: `none` is a 404. -/
def get (url : Str) (cap : Nat) : Action (Option Bytes) := do
  let response ← send env url
  match response with
  | none => pure none
  | some r => .lift ((readBody url cap r.broken r.chunks []).map some)

/-- The text after the last `/tag/`. -/
def afterTag : Str → Option Str
  | [] => none
  | ch :: rest =>
    match afterTag rest with
    | some t => some t
    | none => if "/tag/".toList.isPrefixOf (ch :: rest) then some ((ch :: rest).drop 5) else none

def tagFromReleaseUrl {Key Sig : Type} (c : Crates Key Sig) (url : Str) : Except String Tag :=
  match (afterTag (url.takeWhile fun ch => ch ≠ '?' && ch ≠ '#')).bind Tag.parse with
  | some t => .ok t
  | none => .error s!"the latest-release redirect went to {c.printable (encode url)}, not a .../releases/tag/vX.Y.Z page"

def latestTag {Key Sig : Type} (c : Crates Key Sig) (releasesRoot : Str) : Action Tag := do
  let url := releasesRoot ++ "/latest".toList
  let response ← send env url
  match response with
  | none => .fail s!"{str url} answered 404 -- no published release"
  | some r => .lift (tagFromReleaseUrl c r.url)

/-! ## Files -/

/-- A file operation that does not change a file's bytes. -/
def syscall (message : String) : Action Unit := do
  let fault ← .update fun w => (env.fault w.calls, { w with calls := w.calls + 1 })
  if fault.isSome then .fail message else pure ()

def setFile (files : Path → Option Bytes) (p : Path) (bytes : Option Bytes) : Path → Option Bytes :=
  fun q => if q = p then bytes else files q

/-- A file that is there and not running can be removed. -/
def removeFile (p : Path) (w : World) : World := { w with files := setFile w.files p none }

/-- `OpenOptions::create_new`. -/
def createNew (p : Path) (message : String) : Action Unit := do
  syscall env message
  .update fun w => ((), { w with files := setFile w.files p (some []) })

/-- A write that fails may have put some of the bytes down. -/
def written (fault : Option Nat) (bytes : Bytes) : Bytes :=
  match fault with
  | none => bytes
  | some n => bytes.take n

/-- `write_all`. -/
def writeAll (p : Path) (bytes : Bytes) : Action Unit := do
  let fault ← .update fun w =>
    (env.fault w.calls, { w with
        calls := w.calls + 1
        files := setFile w.files p ((w.files p).map (· ++ written (env.fault w.calls) bytes)) })
  if fault.isSome then .fail "writing the download" else pure ()

def stagedPath (target : Path) : Path :=
  Path.withFileName target ('.' :: ((Path.fileName target).getD "oam".toList ++ ".update-".toList ++ decimal env.pid))

def backupPath (target : Path) : Path :=
  Path.push target (".old-".toList ++ decimal env.pid ++ '-' :: decimal env.secs)

/-- `.old`, or `.old-` and digits. -/
def isBackupSuffix (rest : Str) : Bool :=
  rest == ".old".toList ||
    match rest.dropPrefix? ".old-".toList with
    | some r => !r.isEmpty && r.all fun ch => ch.isDigit || ch == '-'
    | none => false

def isBackup (target p : Path) : Bool :=
  match Path.fileName target, p.getLast? with
  | some name, some last => p.dropLast == target.dropLast && ((last.dropPrefix? name).any isBackupSuffix)
  | _, _ => false

/-- Best effort: the directory may not be readable, and a copy may still run. -/
def sweepBackups (target : Path) (w : World) : World :=
  { w with
    calls := w.calls + 1
    files := fun p =>
      if (env.fault w.calls).isNone && isBackup target p && !env.inUse w.calls p then none else w.files p }

/-- A copy that was moved aside is removed unless it runs. -/
def removeBackup (p : Path) (w : World) : World :=
  { w with calls := w.calls + 1, files := if env.inUse w.calls p then w.files else setFile w.files p none }

/-- `fs::rename`. -/
def rename (src dst : Path) (message : String) : Action Unit := do
  syscall env message
  let bytes ← .update fun w => (w.files src, w)
  match bytes with
  | none => .fail message
  | some bytes => .update fun w => ((), { w with files := setFile (setFile w.files src none) dst (some bytes) })

/-- `fs::copy`. -/
def copy (src dst : Path) (message : String) : Action Unit := do
  syscall env message
  .update fun w => ((), { w with files := setFile w.files dst (w.files src) })

/-- `fs::hard_link` does not replace what is there. -/
def hardLink (src dst : Path) : Action Unit := do
  let taken ← .update fun w => ((w.files dst).isSome, w)
  if taken then .fail "exists" else copy env src dst "link"

/-! ## The download -/

/-- Each chunk is hashed and written; what was hashed so far goes with it. -/
def downloadChunks (url : Str) (p : Path) (broken : Option String) : List Bytes → Bytes → Action Bytes
  | [], hashed =>
    match broken with
    | some e => .fail s!"reading {str url}: {e}"
    | none => pure hashed
  | chunk :: rest, hashed =>
    if assetCap < (hashed ++ chunk).length then .fail s!"{str url} is over {assetCap} bytes -- not an oam binary"
    else do
      writeAll env p chunk
      downloadChunks url p broken rest (hashed ++ chunk)

/-- The digest of what was written. -/
def download {Key Sig : Type} (c : Crates Key Sig) (url : Str) (p : Path) : Action Bytes := do
  let response ← send env url
  match response with
  | none => .fail s!"{str url} answered 404 -- the release has no such file"
  | some r => do
    let hashed ← downloadChunks env url p r.broken r.chunks []
    pure (c.sha256 hashed)

/-! ## The replacement -/

/-- `hard_link`, or else `copy`. -/
def linkOrCopy (target backup : Path) (message : String) : Action Unit := do
  let linked ← (hardLink env target backup).attempt
  match linked with
  | .ok () => pure ()
  | .error _ => copy env target backup message

/-- The current binary is kept, if there is one: moved aside on Windows, linked or copied elsewhere. -/
def keepOld (target backup : Path) (hadOld : Bool) : Action Unit :=
  let message := s!"cannot keep the current binary at {backup.display}"
  if hadOld then if env.windows then rename env target backup message else linkOrCopy env target backup message
  else pure ()

def place (staged target : Path) : Action Unit := do
  .update fun w => ((), { w with attempted := true })
  let bytes ← .update fun w => (w.files staged, w)
  rename env staged target s!"cannot move the new binary to {target.display}"
  .update fun w => ((), { w with placed := w.placed ++ bytes.toList })

/-- The previous binary is put back, or the new one removed if there was none. -/
def restore (target backup : Path) (hadOld : Bool) : Action Unit :=
  if hadOld then rename env backup target "restore"
  else do
    syscall env "restore"
    .update fun w => ((), removeFile target w)

def smokeOrRestore (target backup : Path) (hadOld : Bool) : Action String := do
  let smoked ← .update fun w => (env.smoke w.calls, { w with calls := w.calls + 1 })
  match smoked with
  | .ok v => do
    .update fun w => ((), removeBackup env backup w)
    pure v
  | .error e => do
    let restored ← (restore env target backup hadOld).attempt
    match restored with
    | .ok () => .fail s!"the new binary failed its --version smoke ({e}); the previous one was put back"
    | .error re => .fail s!"the new binary failed its --version smoke ({e}), and putting the previous one back from {backup.display} failed too ({re})"

def undoKeep (target backup : Path) (hadOld : Bool) : Action Unit :=
  if hadOld && env.windows then do
    let _ ← (rename env backup target "restore").attempt
    pure ()
  else .update fun w => ((), removeBackup env backup w)

/-- The staged file takes the place of the target; the old binary comes back if that fails. -/
def replace (target staged : Path) : Action String := do
  let backup := backupPath env target
  .update fun w => ((), sweepBackups env target w)
  .update fun w => ((), removeBackup env backup w)
  let hadOld ← .update fun w => ((w.files target).isSome, w)
  keepOld env target backup hadOld
  let placed ← (place env staged target).attempt
  match placed with
  | .error e => do
    undoKeep env target backup hadOld
    .fail e
  | .ok () => smokeOrRestore env target backup hadOld

/-! ## The notices -/

def writeNotice (licenses : Path) (name : Str) (body : Bytes) : Action Unit := do
  let tmp := licenses ++ ['.' :: (name ++ ".update-".toList ++ decimal env.pid)]
  .update fun w => ((), removeFile tmp w)
  let written ← (do
    syscall env "create"
    createNew env tmp "open"
    writeAll env tmp body
    rename env tmp (licenses ++ [name]) "rename" : Action Unit).attempt
  match written with
  | .ok () => pure ()
  | .error _ => .update fun w => ((), removeFile tmp w)

def refreshNotice (base : Str) (dir : Path) (name : Str) : Action Unit := do
  let fetched ← (get env (base ++ '/' :: name) licenseCap).attempt
  match fetched with
  | .ok (some body) => writeNotice env (dir ++ ["licenses".toList]) name body
  | _ => pure ()

/-- Best effort. -/
def refreshLicenses (base : Str) (dir : Path) : List Str → Action Unit
  | [] => pure ()
  | name :: rest => do
    refreshNotice env base dir name
    refreshLicenses base dir rest

/-! ## The update -/

variable {Key Sig : Type} (c : Crates Key Sig) (trust : TrustRoot Key) (req : Request)

/-- The tag, once: a base names one release's files, so the tag has to come with it. -/
def resolveTag : Action Tag :=
  match req.pinned, req.assetBase with
  | some t, _ => pure t
  | none, some _ =>
    .fail s!"{req.assetBaseVar} names one release's files, so it needs --version <tag> (the tag its signature must be for)"
  | none, none => latestTag env c req.releasesRoot

def baseFor (tag : Tag) : Str :=
  match req.assetBase with
  | some b => trimEndMatches '/' b
  | none => req.releasesRoot ++ "/download/".toList ++ tag.display

def noRelease (tag : Tag) (base : Str) : String :=
  s!"there is no published {str tag.display} release at {str base} (no SHA256SUMS either) -- check the tag"

/-- From the cutoff on: the manifest and its signature, or a refusal. -/
def signedSums (tag : Tag) (base : Str) : Action Bytes := do
  let m ← get env (base ++ "/RELEASE-MANIFEST".toList) metaCap
  let sig ← get env (base ++ "/RELEASE-MANIFEST.sig".toList) metaCap
  match m, sig with
  | some m, some sig => .lift ((trust.verifyManifest c m sig tag).map (·.sums))
  | none, _ => do
    let sums ← get env (base ++ "/SHA256SUMS".toList) metaCap
    .fail (if sums.isNone then noRelease tag base else unsigned)
  | some _, none => .fail unsigned
where
  unsigned := s!"{str tag.display} has no RELEASE-MANIFEST / RELEASE-MANIFEST.sig at {str base} -- every release from {str firstManifestSigTag.display} on is signed, so this one is refused"

def pinnedSums (tag : Tag) (base : Str) : Action Bytes := do
  let sums ← get env (base ++ "/SHA256SUMS".toList) metaCap
  match sums with
  | none => .fail (noRelease tag base)
  | some sums => .lift ((trust.verifyPresigning c tag sums).map fun _ => sums)

def verifiedSums (tag : Tag) (base : Str) : Action Bytes :=
  if tag < firstManifestSigTag then pinnedSums env c trust tag base else signedSums env c trust tag base

def copyMode : Action Unit := do
  let there ← .update fun w => ((w.files req.target).isSome, w)
  (if there then pure () else syscall env "cannot find this oam" : Action Unit)
  syscall env "reading the mode"
  syscall env "setting permissions"

def installStaged (tag : Tag) (base : Str) (dir staged : Path) (expected : Bytes) : Action Outcome := do
  let actual ← download env c (base ++ '/' :: req.asset) staged
  syscall env s!"flushing {staged.display}"
  if actual ≠ expected then
    .fail s!"{str req.asset} does not match the signed manifest (expected sha256 {str (hexBytes expected)}, got {str (hexBytes actual)})"
  else do
    copyMode env req
    let _ ← replace env req.target staged
    refreshLicenses env base dir ["LICENSE".toList, "NOTICE".toList, "THIRD_PARTY_LICENSES.md".toList]
    pure (.updated tag)

/-- The staged file is removed however the update ends. -/
def install (tag : Tag) (base : Str) (expected : Bytes) : Action Outcome :=
  match Path.parent req.target with
  | none => .fail s!"{req.target.display} has no parent directory"
  | some dir => do
    let staged := stagedPath env req.target
    syscall env s!"cannot create {dir.display}"
    .update fun w => ((), removeFile staged w)
    createNew env staged s!"cannot create {staged.display}"
    (installStaged env c req tag base dir staged expected).andThen (removeFile staged)

def run : Action Outcome := do
  let tag ← resolveTag env c req
  let base := baseFor req tag
  let sums ← verifiedSums env c trust tag base
  if req.pinned.isNone ∧ tag = req.current then pure (.upToDate tag)
  else if req.pinned.isNone ∧ tag < req.current then
    .fail s!"the latest release is {str tag.display}, older than this oam ({str req.current.display}) -- refusing a downgrade (pass --version {str tag.display} to install it on purpose)"
  else do
    let expected ← .lift (sumFor c sums req.asset)
    if req.dryRun then pure (.dryRun tag) else install env c req tag base expected

end

end Oam.SelfUpdate
