import Glyph.Decimal.Integer
import Glyph.Text.Quoted

/-!
# Decoding UTF-8

A character is a first byte, which says how many bytes follow, and that many continuation bytes. The
first of them is in a narrower range after some first bytes, so that no character has two encodings
and no surrogate has one. `decode` reports the first place where this breaks off: the bytes there
that would have begun a character, and the reason.
-/

namespace Glyph.Text

inductive Utf8Reason where
  | invalidStart
  | invalidContinuation
  | truncated
  deriving DecidableEq, Repr

/-- The bytes `[start, stop)` to blame, of which the first is `byte`, and the reason. -/
structure Utf8Error where
  reason : Utf8Reason
  byte : UInt8
  start : Nat
  stop : Nat
  deriving DecidableEq, Repr

def Utf8Reason.words : Utf8Reason → String
  | .invalidStart => "invalid start byte"
  | .invalidContinuation => "invalid continuation byte"
  | .truncated => "unexpected end of data"

def Utf8Error.message (e : Utf8Error) : String :=
  "'utf-8' codec can't decode " ++
    (if e.stop = e.start + 1 then
      "byte 0x" ++ String.ofList (hex 2 e.byte.toNat) ++ " in position " ++ Decimal.natural e.start
    else
      "bytes in position " ++ Decimal.natural e.start ++ "-" ++ Decimal.natural (e.stop - 1)) ++
    ": " ++ e.reason.words

/-- What a first byte says: how many bytes follow, the range of the first of them, and the highest
bits of the character. -/
structure Utf8Lead where
  more : Nat
  low : Nat
  high : Nat
  bits : Nat

def utf8Lead? (b : Nat) : Option Utf8Lead :=
  if b < 0x80 then some ⟨0, 0x80, 0xBF, b⟩
  else if b < 0xC2 then none
  else if b < 0xE0 then some ⟨1, 0x80, 0xBF, b - 0xC0⟩
  else if b = 0xE0 then some ⟨2, 0xA0, 0xBF, 0⟩
  else if b = 0xED then some ⟨2, 0x80, 0x9F, 0xD⟩
  else if b < 0xF0 then some ⟨2, 0x80, 0xBF, b - 0xE0⟩
  else if b = 0xF0 then some ⟨3, 0x90, 0xBF, 0⟩
  else if b < 0xF4 then some ⟨3, 0x80, 0xBF, b - 0xF0⟩
  else if b = 0xF4 then some ⟨3, 0x80, 0x8F, 4⟩
  else none

/-- The code point of `n` continuation bytes after the bits `code`, the first of them between `low`
and `high`; or the reason why there is none and how many of the bytes were in order. -/
def utf8More (code low high : Nat) : Nat → List UInt8 → Except (Utf8Reason × Nat) Nat
  | 0, _ => .ok code
  | _ + 1, [] => .error (.truncated, 0)
  | n + 1, b :: bs =>
    if low ≤ b.toNat ∧ b.toNat ≤ high then
      match utf8More (code * 64 + (b.toNat - 0x80)) 0x80 0xBF n bs with
      | .ok c => .ok c
      | .error (reason, k) => .error (reason, k + 1)
    else .error (.invalidContinuation, 0)

/-- The characters of bytes, the first of which is at position `pos`. -/
def utf8From (pos : Nat) (bs : List UInt8) : Except Utf8Error (List Char) :=
  match bs with
  | [] => .ok []
  | b :: rest =>
    match utf8Lead? b.toNat with
    | none => .error ⟨.invalidStart, b, pos, pos + 1⟩
    | some l =>
      match utf8More l.bits l.low l.high l.more rest with
      | .error (reason, k) => .error ⟨reason, b, pos, pos + 1 + k⟩
      | .ok code => (utf8From (pos + 1 + l.more) (rest.drop l.more)).map (Char.ofNat code :: ·)
termination_by bs.length
decreasing_by simp only [List.length_drop, List.length_cons]; omega

def decodeUtf8 (bs : List UInt8) : Except Utf8Error (List Char) := utf8From 0 bs

/-- The line ends of a text in one form: a carriage return, alone or before a line feed, is a line
feed. -/
def unifyLineEnds : List Char → List Char
  | [] => []
  | '\r' :: '\n' :: cs => '\n' :: unifyLineEnds cs
  | '\r' :: cs => '\n' :: unifyLineEnds cs
  | c :: cs => c :: unifyLineEnds cs

end Glyph.Text
