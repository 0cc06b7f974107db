import Mimeclip.Payload
import Mimeclip.Text

/-!
# Entries (`common/types.rs`)
-/

namespace Mimeclip

inductive EntryKind
  | text
  | uri
  | file
  | image
  | other
deriving DecidableEq, Repr

def EntryKind.label : EntryKind → String
  | text => "text"
  | uri => "uri"
  | file => "file"
  | image => "image"
  | other => "other"

def parseKind (s : String) : EntryKind :=
  if s = "text" then .text
  else if s = "uri" then .uri
  else if s = "file" then .file
  else if s = "image" then .image
  else .other

@[simp] theorem parseKind_label (k : EntryKind) : parseKind k.label = k := by
  cases k <;> decide

structure MimePayload where
  mimeType : String
  dataB64 : String

/-- An entry as `list` reports it; `T` is the type of UTC instants. -/
structure Entry (T : Type) where
  id : Int
  hash : String
  kind : EntryKind
  label : String
  preview : String
  size : UInt64
  createdAt : T
  lastUsedAt : T
  mimeTypes : List String

def classifyKind (mimeTypes : List String) : EntryKind :=
  let has := fun pre => mimeTypes.any (startsWith · pre)
  if (mimeTypes.any fun m => m == "x-special/gnome-copied-files" || m == "x-kde-cut-selection" ||
        startsWith m "x-special/") ||
      (mimeTypes.any (· == "text/uri-list") &&
        mimeTypes.any fun m => startsWith m "application/x-kde" || startsWith m "x-special") then
    .file
  else if has "image/" then .image
  else if mimeTypes.any (· == "text/uri-list") then .uri
  else if has "text/" then .text
  else .other

/-! ### Labels -/

def hexDigit (b : UInt8) : Option UInt8 :=
  if 48 ≤ b ∧ b ≤ 57 then some (b - 48)
  else if 65 ≤ b ∧ b ≤ 70 then some (b - 55)
  else if 97 ≤ b ∧ b ≤ 102 then some (b - 87)
  else none

/-- `u8::from_str_radix` on two bytes, which takes a leading plus sign. -/
def fromStrRadix16 (h l : UInt8) : Option UInt8 :=
  if h = 43 then hexDigit l
  else do
    let high ← hexDigit h
    let low ← hexDigit l
    pure (high * 16 + low)

def percentDecodeBytes : Bytes → Bytes
  | 37 :: h :: l :: bytes =>
    match fromStrRadix16 h l with
    | some b => b :: percentDecodeBytes bytes
    | none => 37 :: percentDecodeBytes (h :: l :: bytes)
  | b :: bytes => b :: percentDecodeBytes bytes
  | [] => []

def percentDecode (s : String) : String := fromUtf8Lossy (percentDecodeBytes (asBytes s))

def getPayload (payloads : Payloads) (mime : String) : Option Bytes :=
  (payloads.find? (·.1 == mime)).map (·.2)

def pathLabel (line : String) : String :=
  let p := percentDecode (trimStartFileUrl line)
  (fileName p).getD p

def uriLines (data : Bytes) : List String :=
  (lines (fromUtf8Lossy data)).filter fun l => !startsWith l "#" && !l.isEmpty

def imageFormat (mime : String) : Option String :=
  if mime = "image/png" then some "PNG"
  else if mime = "image/jpeg" then some "JPEG"
  else if mime = "image/webp" then some "WebP"
  else if mime = "image/gif" then some "GIF"
  else none

section
-- stands for `imagesize::blob_size`: the width and the height
variable (blobSize : Bytes → Option (Nat × Nat))

def buildImageLabel : Payloads → String
  | [] => "Image"
  | (mime, data) :: payloads =>
    match imageFormat mime, blobSize data with
    | some format, some (width, height) => format ++ " " ++ toString width ++ "x" ++ toString height
    | _, _ => buildImageLabel payloads

/-- `build_label`; `none` is a panic. -/
def buildLabel (kind : EntryKind) (payloads : Payloads) : Option String :=
  match kind with
  | .file | .uri =>
    match getPayload payloads "text/uri-list" with
    | some data =>
      match uriLines data with
      | [] => some "file"
      | [line] => some (pathLabel line)
      | line :: others => some (pathLabel line ++ " and " ++ toString others.length ++ " more")
    | none => some "file"
  | .text =>
    match ((getPayload payloads "text/plain;charset=utf-8").or (getPayload payloads "text/plain")).or
        ((payloads.find? fun p => startsWith p.1 "text/").map (·.2)) with
    | some data =>
      let trimmed := trim (fromUtf8Lossy data)
      if trimmed.utf8ByteSize > 120 then (sliceTo 120 trimmed).map (· ++ "…") else some trimmed
    | none => some "text"
  | .image => some (buildImageLabel blobSize payloads)
  | .other => some "binary"

end

end Mimeclip
