import Mimeclip.Bytes

/-!
# Text functions of the standard library

What `build_label` uses of Rust's `str`, `String` and `Path`, on lists of characters and bytes.
-/

namespace Mimeclip

/-! ### `String::from_utf8_lossy` -/

/-- A UTF-8 sequence that has begun: the bytes still missing besides the next one, the bounds of the
next one and the bits read so far. -/
structure Utf8Pending where
  rest : Nat
  lo : UInt8
  hi : UInt8
  bits : Nat

inductive Utf8Lead
  | ascii (c : Char)
  | multi (p : Utf8Pending)
  | invalid

/-- The first byte of a sequence; overlong forms, surrogates and values past `U+10FFFF` are excluded by
the bounds of the second byte. -/
def utf8Lead (b : UInt8) : Utf8Lead :=
  if b < 0x80 then .ascii (Char.ofNat b.toNat)
  else if b < 0xC2 then .invalid
  else if b < 0xE0 then .multi ⟨0, 0x80, 0xBF, b.toNat % 32⟩
  else if b = 0xE0 then .multi ⟨1, 0xA0, 0xBF, 0⟩
  else if b = 0xED then .multi ⟨1, 0x80, 0x9F, 13⟩
  else if b < 0xF0 then .multi ⟨1, 0x80, 0xBF, b.toNat % 16⟩
  else if b = 0xF0 then .multi ⟨2, 0x90, 0xBF, 0⟩
  else if b < 0xF4 then .multi ⟨2, 0x80, 0xBF, b.toNat % 8⟩
  else if b = 0xF4 then .multi ⟨2, 0x80, 0x8F, 4⟩
  else .invalid

def replacementChar : Char := Char.ofNat 0xFFFD

/-- Every maximal sequence that does not decode becomes one `U+FFFD`. -/
def lossyChars : Option Utf8Pending → Bytes → List Char
  | none, [] => []
  | some _, [] => [replacementChar]
  | none, b :: bs =>
    match utf8Lead b with
    | .ascii c => c :: lossyChars none bs
    | .multi p => lossyChars (some p) bs
    | .invalid => replacementChar :: lossyChars none bs
  | some p, b :: bs =>
    if p.lo ≤ b ∧ b ≤ p.hi then
      match p.rest with
      | 0 => Char.ofNat (p.bits * 64 + b.toNat % 64) :: lossyChars none bs
      | n + 1 => lossyChars (some ⟨n, 0x80, 0xBF, p.bits * 64 + b.toNat % 64⟩) bs
    else
      replacementChar :: match utf8Lead b with
        | .ascii c => c :: lossyChars none bs
        | .multi p => lossyChars (some p) bs
        | .invalid => replacementChar :: lossyChars none bs

def fromUtf8Lossy (bytes : Bytes) : String := String.ofList (lossyChars none bytes)

/-! ### `str` -/

def stripCr (line : List Char) : List Char :=
  if line.getLast? = some '\r' then line.dropLast else line

def linesFrom : List Char → List Char → List (List Char)
  | [], [] => []
  | line, [] => [line]
  | line, c :: cs => if c = '\n' then stripCr line :: linesFrom [] cs else linesFrom (line ++ [c]) cs

def lines (s : String) : List String := (linesFrom [] s.toList).map String.ofList

/-- `char::is_whitespace`: the property White_Space. -/
def isWhitespace (c : Char) : Bool :=
  let n := c.toNat
  (9 ≤ n && n ≤ 13) || n == 0x20 || n == 0x85 || n == 0xA0 || n == 0x1680 || (0x2000 ≤ n && n ≤ 0x200A) ||
    n == 0x2028 || n == 0x2029 || n == 0x202F || n == 0x205F || n == 0x3000

def trim (s : String) : String :=
  String.ofList ((s.toList.dropWhile isWhitespace).reverse.dropWhile isWhitespace).reverse

def takeBytes : Nat → List Char → Option (List Char)
  | 0, _ => some []
  | _ + 1, [] => none
  | n + 1, c :: cs => if c.utf8Size ≤ n + 1 then (takeBytes (n + 1 - c.utf8Size) cs).map (c :: ·) else none

/-- `&s[..n]`; `none` is a panic. -/
def sliceTo (n : Nat) (s : String) : Option String := (takeBytes n s.toList).map String.ofList

def trimFileUrl : List Char → List Char
  | 'f' :: 'i' :: 'l' :: 'e' :: ':' :: '/' :: '/' :: cs => trimFileUrl cs
  | cs => cs

def trimStartFileUrl (s : String) : String := String.ofList (trimFileUrl s.toList)

/-! ### `Path` -/

def splitOn (sep : Char) : List Char → List Char → List (List Char)
  | part, [] => [part]
  | part, c :: cs => if c = sep then part :: splitOn sep [] cs else splitOn sep (part ++ [c]) cs

/-- `Path::new(s).file_name()`: the last component that is not `.`, unless it is `..`. -/
def fileName (s : String) : Option String :=
  let components := (splitOn '/' [] s.toList).filter fun part => part ≠ [] ∧ part ≠ ['.']
  components.getLast?.bind fun part => if part = ['.', '.'] then none else some (String.ofList part)

end Mimeclip
