import Monotype.Text.Quoted

/-!
# Reading UTF-8

Bytes are read from left to right, one character at a time, and refused at the first sequence that
no character has: at a byte that starts none, at a byte that cannot follow, or at an end in the
middle of a character.  The reported sequence is the part that could still have become a character.

`universalNewlines` makes every line end a single line feed.
-/

namespace Monotype.Text

inductive Utf8Reason where
  | start
  | continuation
  | ended
  deriving DecidableEq, Repr

def Utf8Reason.message : Utf8Reason → String
  | .start => "invalid start byte"
  | .continuation => "invalid continuation byte"
  | .ended => "unexpected end of data"

structure Utf8Fault where
  reason : Utf8Reason
  start : Nat
  bytes : List UInt8
  deriving DecidableEq, Repr

def Utf8Fault.message (f : Utf8Fault) : String :=
  let place :=
    match f.bytes with
    | [b] =>
        "byte 0x" ++ String.ofList (hexDigits 2 b.toNat) ++ " in position " ++ toString f.start
    | bytes =>
        "bytes in position " ++ toString f.start ++ "-" ++ toString (f.start + bytes.length - 1)
  "'utf-8' codec can't decode " ++ place ++ ": " ++ f.reason.message

/-- How a character starts: the bits of its first byte, the range of its second byte, and the number
of bytes that follow. -/
structure Utf8Lead where
  bits : Nat
  low : Nat
  high : Nat
  follow : Nat

/-- The lead of a first byte; overlong forms, surrogates and code points beyond the last one are
excluded by the range of the second byte. -/
def utf8Lead? (b : Nat) : Option Utf8Lead :=
  if b < 0x80 then some ⟨b, 0x80, 0xbf, 0⟩
  else if b < 0xc2 then none
  else if b < 0xe0 then some ⟨b - 0xc0, 0x80, 0xbf, 1⟩
  else if b = 0xe0 then some ⟨b - 0xe0, 0xa0, 0xbf, 2⟩
  else if b = 0xed then some ⟨b - 0xe0, 0x80, 0x9f, 2⟩
  else if b < 0xf0 then some ⟨b - 0xe0, 0x80, 0xbf, 2⟩
  else if b = 0xf0 then some ⟨b - 0xf0, 0x90, 0xbf, 3⟩
  else if b < 0xf4 then some ⟨b - 0xf0, 0x80, 0xbf, 3⟩
  else if b = 0xf4 then some ⟨b - 0xf0, 0x80, 0x8f, 3⟩
  else none

/-- What a run of reading knows. -/
structure Utf8State where
  -- The characters so far, last first.
  read : List Char
  offset : Nat
  -- The bytes of the character that is being read, last first.
  pending : List UInt8
  bits : Nat
  low : Nat
  high : Nat
  follow : Nat

namespace Utf8State

def between (read : List Char) (offset : Nat) : Utf8State :=
  ⟨read, offset, [], 0, 0x80, 0xbf, 0⟩

def fault (s : Utf8State) (reason : Utf8Reason) : Utf8Fault :=
  ⟨reason, s.offset, s.pending.reverse⟩

def step (s : Utf8State) (b : UInt8) : Except Utf8Fault Utf8State :=
  match s.follow with
  | 0 =>
      match utf8Lead? b.toNat with
      | none => .error ⟨.start, s.offset, [b]⟩
      | some lead =>
          match lead.follow with
          | 0 => .ok (between (Char.ofNat lead.bits :: s.read) (s.offset + 1))
          | n + 1 => .ok ⟨s.read, s.offset, [b], lead.bits, lead.low, lead.high, n + 1⟩
  | n + 1 =>
      if s.low ≤ b.toNat ∧ b.toNat ≤ s.high then
        let bits := s.bits * 0x40 + (b.toNat - 0x80)
        match n with
        | 0 => .ok (between (Char.ofNat bits :: s.read) (s.offset + s.pending.length + 1))
        | n + 1 => .ok ⟨s.read, s.offset, b :: s.pending, bits, 0x80, 0xbf, n + 1⟩
      else .error (s.fault .continuation)

end Utf8State

def decodeUtf8From (s : Utf8State) : List UInt8 → Except Utf8Fault (List Char)
  | [] =>
      match s.follow with
      | 0 => .ok s.read.reverse
      | _ + 1 => .error (s.fault .ended)
  | b :: bs =>
      match s.step b with
      | .error fault => .error fault
      | .ok s' => decodeUtf8From s' bs

def decodeUtf8 (bytes : List UInt8) : Except Utf8Fault (List Char) :=
  decodeUtf8From (.between [] 0) bytes

def newlinesOnto (read : List Char) : List Char → List Char
  | [] => read.reverse
  | '\r' :: '\n' :: cs => newlinesOnto ('\n' :: read) cs
  | '\r' :: cs => newlinesOnto ('\n' :: read) cs
  | c :: cs => newlinesOnto (c :: read) cs

/-- The text with every line end, also a carriage return with or without a line feed after it, as a
single line feed. -/
def universalNewlines (cs : List Char) : List Char := newlinesOnto [] cs

end Monotype.Text
