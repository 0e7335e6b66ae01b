/-!
# UTF-8

Which byte sequences are UTF-8, where a sequence stops being UTF-8, and the reading that puts
U+FFFD for each part that is not. A part that is not UTF-8 is maximal: it is the longest start of a
well-formed character, or one byte if no character starts with that byte.
-/
namespace ContentSchema.Text

/-- What a nonempty byte sequence begins with. -/
inductive Utf8Head where
  /-- A well-formed character of `width` bytes. -/
  | scalar (c : Char) (width : Nat)
  /-- The first `width` bytes begin a character that the next byte does not continue. -/
  | malformed (width : Nat)
  /-- The input ends inside a character. -/
  | truncated
deriving Repr, DecidableEq

namespace Utf8Head

/-- Whether a byte is one that continues a character. -/
def isContinuation (b : Nat) : Bool := 0x80 ≤ b && b < 0xC0

/-- The admissible range of the second byte, by the first byte of a character of several bytes. -/
def secondRange (b : Nat) : Nat × Nat :=
  if b == 0xE0 then (0xA0, 0xBF)
  else if b == 0xED then (0x80, 0x9F)
  else if b == 0xF0 then (0x90, 0xBF)
  else if b == 0xF4 then (0x80, 0x8F)
  else (0x80, 0xBF)

/-- The number of bytes of the character that begins with `b`; zero if none does. -/
def width (b : Nat) : Nat :=
  if b < 0x80 then 1
  else if b < 0xC2 then 0
  else if b < 0xE0 then 2
  else if b < 0xF0 then 3
  else if b < 0xF5 then 4
  else 0

/-- Reads the continuation bytes that are still `wanted`; `seen` counts the bytes read so far. -/
def tail (code seen : Nat) : Nat → List UInt8 → Utf8Head
  | 0, _ => .scalar (Char.ofNat code) seen
  | _ + 1, [] => .truncated
  | wanted + 1, b :: bs =>
    if isContinuation b.toNat then tail (code * 64 + b.toNat % 64) (seen + 1) wanted bs
    else .malformed seen

/-- What the bytes `b :: bs` begin with. -/
def of (b : UInt8) (bs : List UInt8) : Utf8Head :=
  match width b.toNat, bs with
  | 0, _ => .malformed 1
  | 1, _ => .scalar (Char.ofNat b.toNat) 1
  | _, [] => .truncated
  | w, b₂ :: rest =>
    let (low, high) := secondRange b.toNat
    if low ≤ b₂.toNat && b₂.toNat ≤ high then
      tail (b.toNat % Nat.pow 2 (7 - w) * 64 + b₂.toNat % 64) 2 (w - 2) rest
    else .malformed 1

end Utf8Head

/-- Why bytes are not UTF-8. -/
inductive Utf8Error where
  /-- The `width` bytes from `start` begin no character. -/
  | malformed (start width : Nat)
  /-- The bytes from `start` to the end are the start of a character. -/
  | truncated (start : Nat)
deriving Repr, DecidableEq

/-- The text of the error. -/
def Utf8Error.message : Utf8Error → String
  | .malformed start width => s!"invalid utf-8 sequence of {width} bytes from index {start}"
  | .truncated start => s!"incomplete utf-8 byte sequence from index {start}"

/-- The first place where the bytes stop being UTF-8, if there is one. -/
def utf8Error? (bytes : List UInt8) : Option Utf8Error := go 0 bytes.length bytes
where
  /-- Scans from byte `start` on; each character takes at least one unit of `fuel`. -/
  go (start : Nat) : Nat → List UInt8 → Option Utf8Error
    | 0, _ | _, [] => none
    | fuel + 1, b :: bs =>
      match Utf8Head.of b bs with
      | .scalar _ w => go (start + w) fuel (bs.drop (w - 1))
      | .malformed w => some (.malformed start w)
      | .truncated => some (.truncated start)

/-- The characters of the bytes, with U+FFFD for each part that is not UTF-8. -/
def utf8Lossy (bytes : List UInt8) : List Char := go bytes.length bytes
where
  /-- Reads from the front; each character takes at least one unit of `fuel`. -/
  go : Nat → List UInt8 → List Char
    | 0, _ | _, [] => []
    | fuel + 1, b :: bs =>
      match Utf8Head.of b bs with
      | .scalar c w => c :: go fuel (bs.drop (w - 1))
      | .malformed w => '\uFFFD' :: go fuel (bs.drop (w - 1))
      | .truncated => ['\uFFFD']

end ContentSchema.Text
