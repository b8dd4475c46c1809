import GuardLint.Text.Hex

/-!
# UTF-8

The bytes of a text and the text of some bytes. A character takes one to four bytes; the first
tells how many follow and in which range the second has to be, so that every character has one
form and no surrogate has any. Reading stops at the first byte that rules a text out, or at the end
of the bytes inside a character.
-/

namespace GuardLint.Text

/-- What rules a text out: a byte that begins no character, a byte that cannot go on with the one
begun, or an end before the character's. -/
inductive Utf8Fault where
  | badStart
  | badContinuation
  | truncated
  deriving DecidableEq, Repr

/-- Bytes that are no text: where they begin, how many they are, the first of them, and what is
wrong with them. -/
structure Utf8Error where
  offset : Nat
  width : Nat
  byte : UInt8
  fault : Utf8Fault
  deriving DecidableEq, Repr

namespace Utf8Error

/-- A fault in words. -/
def reason : Utf8Fault → String
  | .badStart => "invalid start byte"
  | .badContinuation => "invalid continuation byte"
  | .truncated => "unexpected end of data"

/-- An error in words: a single byte is shown, more than one are only counted. -/
def message (e : Utf8Error) : String :=
  let place :=
    if e.width = 1 then
      s!"byte 0x{String.ofList (hex 2 e.byte.toNat)} in position {e.offset}"
    else s!"bytes in position {e.offset}-{e.offset + e.width - 1}"
  s!"'utf-8' codec can't decode {place}: {reason e.fault}"

end Utf8Error

/-- A character of which some bytes are read: how many are still to come, the range of the next
one, the bits so far, how many bytes are read, and the first of them. -/
structure Utf8Partial where
  missing : Nat
  low : Nat
  high : Nat
  bits : Nat
  taken : Nat
  first : UInt8
  deriving DecidableEq, Repr

namespace Utf8

/-- What a byte begins, if it begins a character: nothing is missing from one of a single byte. -/
def begin? (byte : UInt8) : Option Utf8Partial :=
  let n := byte.toNat
  if n ≤ 0x7f then some ⟨0, 0, 0, n, 1, byte⟩
  else if n < 0xc2 then none
  else if n ≤ 0xdf then some ⟨1, 0x80, 0xbf, n - 0xc0, 1, byte⟩
  else if n = 0xe0 then some ⟨2, 0xa0, 0xbf, 0, 1, byte⟩
  else if n = 0xed then some ⟨2, 0x80, 0x9f, 0xd, 1, byte⟩
  else if n ≤ 0xef then some ⟨2, 0x80, 0xbf, n - 0xe0, 1, byte⟩
  else if n = 0xf0 then some ⟨3, 0x90, 0xbf, 0, 1, byte⟩
  else if n < 0xf4 then some ⟨3, 0x80, 0xbf, n - 0xf0, 1, byte⟩
  else if n = 0xf4 then some ⟨3, 0x80, 0x8f, 4, 1, byte⟩
  else none

/-- A character with one more byte, if the byte is in range. Six bits of it count. -/
def continue? (p : Utf8Partial) (byte : UInt8) : Option Utf8Partial :=
  let n := byte.toNat
  if p.low ≤ n && n ≤ p.high then
    some ⟨p.missing - 1, 0x80, 0xbf, p.bits * 64 + (n - 0x80), p.taken + 1, p.first⟩
  else none

/-- The text of the bytes from an offset on, after the bytes of a character that is not complete,
if there is one. -/
def decodeFrom : (offset : Nat) → Option Utf8Partial → List UInt8 → Except Utf8Error (List Char)
  | _, none, [] => .ok []
  | offset, some p, [] => .error ⟨offset - p.taken, p.taken, p.first, .truncated⟩
  | offset, none, byte :: bytes =>
    match begin? byte with
    | none => .error ⟨offset, 1, byte, .badStart⟩
    | some p =>
      if p.missing = 0 then (decodeFrom (offset + 1) none bytes).map (Char.ofNat p.bits :: ·)
      else decodeFrom (offset + 1) (some p) bytes
  | offset, some p, byte :: bytes =>
    match continue? p byte with
    | none => .error ⟨offset - p.taken, p.taken, p.first, .badContinuation⟩
    | some q =>
      if q.missing = 0 then (decodeFrom (offset + 1) none bytes).map (Char.ofNat q.bits :: ·)
      else decodeFrom (offset + 1) (some q) bytes

/-- The text of some bytes. -/
def decode (bytes : List UInt8) : Except Utf8Error (List Char) := decodeFrom 0 none bytes

/-- The bytes of a text. -/
def encode (text : List Char) : List UInt8 := text.flatMap String.utf8EncodeChar

end Utf8

end GuardLint.Text
