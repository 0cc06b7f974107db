import Mimeclip.Lib.Paths
import Mimeclip.Percent

/-!
# Screenshots (`daemon/server.rs`)

`screenshot_payloads` offers an image file three times: its bytes, the text of its canonical path and the `file://`
URI of that. What `build_label` reads from the URI is the path, whatever characters it has
(`screenshot_uri_roundtrip`).
-/

namespace Mimeclip

open Paths

/-! ### Paths of the file system -/

/-- What is no directory and no link: a regular file, which the daemon may read or not, or a device, a socket or the
like. -/
inductive FileNode
  | regular (data : Bytes) (readable : Bool)
  | special

abbrev FileSystem := Tree Bytes FileNode

/-- An empty component, between two slashes or at an end, leads nowhere else, and needs a directory. -/
def component (part : Bytes) : Component Bytes :=
  if part = [] ∨ part = [46] then .current
  else if part = [46, 46] then .parent
  else .name part

def parsePath (path : Bytes) : List (Component Bytes) := (path.splitOn 47).map component

def isAbsolute (path : Bytes) : Bool := path.head? == some 47

/-- `std::fs::canonicalize`, in a process whose working directory is `cwd`. -/
def canonicalize (fs : FileSystem) (cwd : List Bytes) (path : Bytes) : Option (List Bytes) :=
  if path = [] then none else fs.resolve (if isAbsolute path then [] else cwd) (parsePath path)

def renderPath (position : List Bytes) : Bytes :=
  if position = [] then [47] else position.flatMap fun name => 47 :: name

/-- `Path::extension`, of the last component. -/
def extension (name : Bytes) : Option Bytes :=
  let after := (name.reverse.takeWhile (· ≠ 46)).reverse
  let before := name.take (name.length - after.length - 1)
  if before = [] then none else some after

def toAsciiLowercase (bytes : Bytes) : Bytes := bytes.map fun b => if 65 ≤ b ∧ b ≤ 90 then b + 32 else b

/-! ### `screenshot_payloads` -/

def maxScreenshotBytes : Nat := 64 * 1024 * 1024

/-- The errors, with the path as `Path::display` shows it. -/
inductive ScreenshotError
  | resolving (path : String)
  | notRegular (path : String)
  | tooLarge
  | unsupported (path : String)
  | reading (path : String)
deriving DecidableEq, Repr

def ScreenshotError.message : ScreenshotError → String
  | resolving path => "resolving screenshot path " ++ path
  | notRegular path => "screenshot path is not a regular file: " ++ path
  | tooLarge => "screenshot is larger than the " ++ toString (maxScreenshotBytes / (1024 * 1024)) ++ " MiB limit"
  | unsupported path => "unsupported screenshot image format: " ++ path
  | reading path => "reading screenshot image " ++ path

def screenshotMime (position : List Bytes) : Option String := do
  let name ← position.getLast?
  let extension ← extension name
  let lowercase := toAsciiLowercase extension
  if lowercase = asBytes "png" then some "image/png"
  else if lowercase = asBytes "jpg" ∨ lowercase = asBytes "jpeg" then some "image/jpeg"
  else if lowercase = asBytes "webp" then some "image/webp"
  else if lowercase = asBytes "gif" then some "image/gif"
  else none

def isUnreserved (b : UInt8) : Bool :=
  (65 ≤ b && b ≤ 90) || (97 ≤ b && b ≤ 122) || (48 ≤ b && b ≤ 57) ||
    b == 47 || b == 45 || b == 46 || b == 95 || b == 126

def upperHex (n : Nat) : Char := Char.ofNat (if n < 10 then 48 + n else 55 + n)

def encodeByte (b : UInt8) : List Char :=
  if isUnreserved b then [Char.ofNat b.toNat] else ['%', upperHex (b.toNat / 16), upperHex (b.toNat % 16)]

def fileUriPath (path : String) : String := String.ofList ((asBytes path).flatMap encodeByte)

def screenshotUri (pathText : String) : String := "file://" ++ fileUriPath pathText ++ "\r\n"

/-- What is offered for an image with this canonical path. -/
def screenshotOffer (mime : String) (image : Bytes) (pathText : String) : Payloads :=
  [(mime, image), ("text/plain;charset=utf-8", asBytes pathText), ("text/uri-list", asBytes (screenshotUri pathText))]

def screenshotPayloads (fs : FileSystem) (cwd : List Bytes) (path : String) : Except ScreenshotError Payloads :=
  match canonicalize fs cwd (asBytes path) with
  | none => .error (.resolving path)
  | some position =>
    let pathText := fromUtf8Lossy (renderPath position)
    match fs.node position with
    | some (.file (.regular data readable)) =>
      if data.length > maxScreenshotBytes then .error .tooLarge
      else match screenshotMime position with
        | none => .error (.unsupported pathText)
        | some mime => if readable then .ok (screenshotOffer mime data pathText) else .error (.reading pathText)
    | _ => .error (.notRegular pathText)

theorem screenshotPayloads_ok {fs : FileSystem} {cwd : List Bytes} {path : String} {payloads : Payloads} :
    screenshotPayloads fs cwd path = .ok payloads ↔ ∃ position data mime,
      canonicalize fs cwd (asBytes path) = some position ∧ fs.node position = some (.file (.regular data true)) ∧
        data.length ≤ maxScreenshotBytes ∧ screenshotMime position = some mime ∧
        payloads = screenshotOffer mime data (fromUtf8Lossy (renderPath position)) := by
  rw [screenshotPayloads]
  constructor
  · intro h
    split at h
    · cases h
    · rename_i position hposition
      dsimp only at h
      split at h
      · rename_i data readable hnode
        split_ifs at h with hlarge hreadable
        · split at h
          · cases h
          · rename_i mime hmime
            cases h
            rw [hreadable] at hnode
            exact ⟨position, data, mime, hposition, hnode, Nat.not_lt.1 hlarge, hmime, rfl⟩
        · split at h <;> cases h
      · cases h
  · rintro ⟨position, data, mime, hposition, hnode, hsize, hmime, rfl⟩
    simp only [hposition, hnode, if_neg (Nat.not_lt.2 hsize), hmime, if_true]

/-! ### The URI is read back -/

theorem upperHex_spec {n : Nat} (h : n < 16) :
    Ascii (upperHex n) ∧ hexDigit (UInt8.ofNat (upperHex n).toNat) = some (UInt8.ofNat n) := by
  have : ∀ m : Fin 16, (upperHex m).toNat < 0x80 ∧
      hexDigit (UInt8.ofNat (upperHex m).toNat) = some (UInt8.ofNat m) := by decide
  exact this ⟨n, h⟩

theorem isUnreserved_spec {b : UInt8} (h : isUnreserved b = true) :
    b.toNat < 0x80 ∧ b.toNat ≠ 37 ∧ b.toNat ≠ 10 ∧ b.toNat ≠ 13 := by
  simp only [isUnreserved, Bool.or_eq_true, Bool.and_eq_true, decide_eq_true_eq, beq_iff_eq, UInt8.le_iff_toNat_le,
    ← UInt8.toNat_inj, UInt8.reduceToNat] at h
  omega

/-- A character that a URI line may have, which is not the end of it. -/
def InLine (c : Char) : Prop := Ascii c ∧ c ≠ '\n' ∧ c ≠ '\r'

theorem inLine_encodeByte {b : UInt8} {c : Char} (h : c ∈ encodeByte b) : InLine c := by
  have hnat : ∀ c : Char, c.toNat < 0x80 → c.toNat ≠ 10 → c.toNat ≠ 13 → InLine c := by
    refine fun c hascii hn hr => ⟨hascii, ?_, ?_⟩ <;> rintro rfl
    exacts [hn rfl, hr rfl]
  have hhex : ∀ n < 16, InLine (upperHex n) := by
    intro n hn
    refine ⟨(upperHex_spec hn).1, ?_, ?_⟩ <;> intro hc <;> have hdigit := (upperHex_spec hn).2 <;> rw [hc] at hdigit <;>
      cases hdigit
  rw [encodeByte] at h
  split_ifs at h with hb
  · obtain ⟨hlt, -, hn, hr⟩ := isUnreserved_spec hb
    have htoNat := toNat_charOfNat (n := b.toNat) (by omega)
    rw [List.mem_singleton.1 h]
    exact hnat _ (by omega) (by omega) (by omega)
  · have hlt := b.toNat_lt
    simp only [List.mem_cons, List.not_mem_nil, or_false] at h
    rcases h with rfl | rfl | rfl
    · exact hnat _ (by decide) (by decide) (by decide)
    · exact hhex _ (by omega)
    · exact hhex _ (by omega)

theorem percentDecodeBytes_encodeByte (b : UInt8) (bytes : Bytes) :
    percentDecodeBytes ((encodeByte b).map (fun c => UInt8.ofNat c.toNat) ++ bytes) =
      b :: percentDecodeBytes bytes := by
  have hlt := b.toNat_lt
  rw [encodeByte]
  split_ifs with hb
  · obtain ⟨hascii, hpercent, -⟩ := isUnreserved_spec hb
    rw [List.map_singleton, List.singleton_append, toNat_charOfNat (by omega), UInt8.ofNat_toNat, percentDecodeBytes]
    rintro h l post rfl
    exact absurd rfl hpercent
  · have hhigh := (upperHex_spec (n := b.toNat / 16) (by omega)).2
    have hlow := (upperHex_spec (n := b.toNat % 16) (by omega)).2
    have hvalue : UInt8.ofNat (b.toNat / 16) * 16 + UInt8.ofNat (b.toNat % 16) = b := by
      rw [← UInt8.toNat_inj, UInt8.toNat_add, UInt8.toNat_mul, UInt8.toNat_ofNat', UInt8.toNat_ofNat']
      simp only [UInt8.reduceToNat]
      omega
    show percentDecodeBytes (37 :: _ :: _ :: bytes) = _
    rw [percentDecodeBytes, fromStrRadix16_digits (ne_of_hexDigit hhigh).2, hhigh, hlow]
    exact congrArg (· :: percentDecodeBytes bytes) hvalue

theorem inLine_fileUriPath {p : String} {c : Char} (h : c ∈ (fileUriPath p).toList) : InLine c := by
  rw [fileUriPath, String.toList_ofList] at h
  obtain ⟨b, -, hc⟩ := List.mem_flatMap.1 h
  exact inLine_encodeByte hc

/-- `percent_decode` undoes `file_uri_path`. -/
theorem percentDecode_fileUriPath (p : String) : percentDecode (fileUriPath p) = p := by
  have hbytes : ∀ bytes : Bytes, percentDecodeBytes
      ((bytes.flatMap encodeByte).map fun c => UInt8.ofNat c.toNat) = bytes := by
    intro bytes
    induction bytes with
    | nil => rfl
    | cons b bytes ih => rw [List.flatMap_cons, List.map_append, percentDecodeBytes_encodeByte, ih]
  have hascii : ∀ c ∈ (asBytes p).flatMap encodeByte, Ascii c := by
    intro c hc
    obtain ⟨b, -, hc⟩ := List.mem_flatMap.1 hc
    exact (inLine_encodeByte hc).1
  rw [percentDecode, fileUriPath, asBytes_ofList_ascii hascii, hbytes, fromUtf8Lossy_asBytes]

/-! ### Lines and components -/

theorem linesFrom_line {line cs rest : List Char} (h : '\n' ∉ cs) :
    linesFrom line (cs ++ '\n' :: rest) = stripCr (line ++ cs) :: linesFrom [] rest := by
  induction cs generalizing line with
  | nil => rw [List.nil_append, List.append_nil, linesFrom, if_pos rfl]
  | cons c cs ih =>
    obtain ⟨hc, hcs⟩ := List.ne_and_not_mem_of_not_mem_cons h
    rw [List.cons_append, linesFrom, if_neg hc.symm, ih hcs, List.append_assoc, List.singleton_append]

theorem stripCr_append (cs : List Char) : stripCr (cs ++ ['\r']) = cs := by
  rw [stripCr, List.getLast?_concat, if_pos rfl, List.dropLast_concat]

theorem splitOn_not_mem {sep : Char} {cs : List Char} (part : List Char) (h : sep ∉ cs) :
    splitOn sep part cs = [part ++ cs] := by
  induction cs generalizing part with
  | nil => rw [splitOn, List.append_nil]
  | cons c cs ih =>
    obtain ⟨hc, hcs⟩ := List.ne_and_not_mem_of_not_mem_cons h
    rw [splitOn, if_neg hc.symm, ih _ hcs, List.append_assoc, List.singleton_append]

theorem splitOn_append {sep : Char} (part cs rest : List Char) :
    splitOn sep part (cs ++ sep :: rest) = splitOn sep part cs ++ splitOn sep [] rest := by
  induction cs generalizing part with
  | nil => rw [List.nil_append, splitOn, splitOn, if_pos rfl, List.singleton_append]
  | cons c cs ih =>
    rw [List.cons_append, splitOn, splitOn]
    split_ifs
    · rw [ih, List.cons_append]
    · exact ih _

/-- The last component, if it is a name. -/
theorem fileName_append {dir last : String} (hslash : '/' ∉ last.toList) (hne : last ≠ "") (hdot : last ≠ ".")
    (hdots : last ≠ "..") : fileName (dir ++ "/" ++ last) = some last := by
  have hnil : last.toList ≠ [] := fun h => hne (String.toList_eq_nil_iff.1 h)
  have hcurrent : last.toList ≠ ['.'] := fun h => hdot (String.toList_injective h)
  have hparent : last.toList ≠ ['.', '.'] := fun h => hdots (String.toList_injective h)
  have hsplit : splitOn '/' [] (dir ++ "/" ++ last).toList = splitOn '/' [] dir.toList ++ [last.toList] := by
    rw [String.toList_append, String.toList_append, List.append_assoc]
    exact (splitOn_append [] dir.toList last.toList).trans (by rw [splitOn_not_mem [] hslash, List.nil_append])
  have hkept : [last.toList].filter (fun part => part ≠ [] ∧ part ≠ ['.']) = [last.toList] := by
    rw [List.filter_singleton, decide_eq_true ⟨hnil, hcurrent⟩]
    rfl
  rw [fileName, hsplit, List.filter_append, hkept, List.getLast?_concat, Option.bind_some, if_neg hparent,
    String.ofList_toList]

theorem trimFileUrl_path {cs : List Char} (h : cs.head? = some '/') : trimFileUrl ("file://".toList ++ cs) = cs := by
  cases cs with
  | nil => cases h
  | cons c cs =>
    cases h
    show trimFileUrl ('/' :: cs) = _
    rw [trimFileUrl]
    nofun

/-! ### The label of a screenshot -/

theorem uriLines_screenshotUri (p : String) : uriLines (asBytes (screenshotUri p)) = ["file://" ++ fileUriPath p] := by
  have hchars : (screenshotUri p).toList = (("file://" ++ fileUriPath p).toList ++ ['\r']) ++ '\n' :: [] := by
    simp only [screenshotUri, String.toList_append, List.append_assoc]
    rfl
  have hline : '\n' ∉ ("file://" ++ fileUriPath p).toList ++ ['\r'] := by
    rw [String.toList_append]
    simp only [List.mem_append, not_or]
    refine ⟨⟨by decide, fun h => (inLine_fileUriPath h).2.1 rfl⟩, by decide⟩
  rw [uriLines, fromUtf8Lossy_asBytes, lines, hchars, linesFrom_line hline, List.nil_append, stripCr_append, linesFrom,
    List.map_singleton, String.ofList_toList]
  refine List.filter_eq_self.2 ?_
  intro l hl
  rw [List.mem_singleton.1 hl, startsWith, String.toList_append]
  rfl

theorem head?_fileUriPath {p : String} (h : startsWith p "/" = true) : (fileUriPath p).toList.head? = some '/' := by
  obtain ⟨rest, hrest⟩ := List.isPrefixOf_iff_prefix.1 h
  have hp : p = "/" ++ String.ofList rest := by
    apply String.toList_injective
    rw [String.toList_append, ← hrest]
    exact congrArg ("/".toList ++ ·) String.toList_ofList.symm
  rw [fileUriPath, hp, asBytes_append, String.toList_ofList, List.flatMap_append]
  rfl

theorem screenshotMime_ne {position : List Bytes} {mime : String} (h : screenshotMime position = some mime) :
    mime ≠ "text/uri-list" := by
  obtain ⟨name, -, h⟩ := Option.bind_eq_some_iff.1 h
  obtain ⟨extension, -, h⟩ := Option.bind_eq_some_iff.1 h
  dsimp only at h
  split_ifs at h <;> cases h <;> decide

/-- Whatever the characters of the path are, its URI is one line, of which `build_label` takes the last
component. -/
theorem screenshotUri_roundTrip (blobSize : Bytes → Option (Nat × Nat)) {position : List Bytes} {mime : String}
    (image : Bytes) (hmime : screenshotMime position = some mime) {p dir last : String} (hp : p = dir ++ "/" ++ last)
    (habsolute : startsWith p "/" = true) (hslash : '/' ∉ last.toList) (hne : last ≠ "") (hdot : last ≠ ".")
    (hdots : last ≠ "..") :
    getPayload (screenshotOffer mime image p) "text/uri-list" = some (asBytes (screenshotUri p)) ∧
    uriLines (asBytes (screenshotUri p)) = ["file://" ++ fileUriPath p] ∧
    percentDecode (fileUriPath p) = p ∧
    buildLabel blobSize .uri (screenshotOffer mime image p) = some last ∧
    buildLabel blobSize .file (screenshotOffer mime image p) = some last := by
  have hpayload : getPayload (screenshotOffer mime image p) "text/uri-list" = some (asBytes (screenshotUri p)) := by
    rw [getPayload, screenshotOffer, List.find?_cons_of_neg (by simpa using screenshotMime_ne hmime)]
    rfl
  have hlabel : pathLabel ("file://" ++ fileUriPath p) = last := by
    rw [pathLabel, trimStartFileUrl, String.toList_append, trimFileUrl_path (head?_fileUriPath habsolute),
      String.ofList_toList, percentDecode_fileUriPath, hp, fileName_append hslash hne hdot hdots]
    rfl
  have hlines := uriLines_screenshotUri p
  refine ⟨hpayload, hlines, percentDecode_fileUriPath p, ?_, ?_⟩
  · simp only [buildLabel, hpayload, hlines, hlabel]
  · simp only [buildLabel, hpayload, hlines, hlabel]

theorem screenshotUri_roundTrip_png :
    let p := "/tmp/a %+A\n#é.png"
    getPayload (screenshotOffer "image/png" [] p) "text/uri-list" = some (asBytes (screenshotUri p)) ∧
    uriLines (asBytes (screenshotUri p)) = ["file://" ++ fileUriPath p] ∧
    percentDecode (fileUriPath p) = p ∧
    buildLabel (fun _ => none) .uri (screenshotOffer "image/png" [] p) = some "a %+A\n#é.png" ∧
    buildLabel (fun _ => none) .file (screenshotOffer "image/png" [] p) = some "a %+A\n#é.png" :=
  @screenshotUri_roundTrip (fun _ => none) [[97, 46, 112, 110, 103]] "image/png" [] (by decide) _ "/tmp"
    "a %+A\n#é.png" (by decide) (by decide) (by decide) (by decide) (by decide) (by decide)

end Mimeclip
