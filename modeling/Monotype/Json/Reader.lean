import Monotype.Json.Basic
import Monotype.Text.Digit

/-!
# Reading JSON text

A reader for JSON text that tells where and why a text is refused.  It also takes `NaN`, `Infinity`
and `-Infinity`; a repeated member name keeps its first place and its last value.  A number with a
fraction or an exponent is a floating-point number, any other an integer.

Two limits may be set: how deeply lists and objects may nest, and how many digits an integer may
have.  A text is refused at the first fault from left to right, whichever kind it is.

Every reading step returns the rest of the text together with the fact that it is shorter, which is
why reading ends.  A place in the text is given by how many characters are left from there on.
-/

namespace Monotype

namespace Json

inductive SyntaxFault where
  | value
  | name
  | colon
  | comma
  | unterminated
  | control
  | escape
  | unicode
  | extra
  | mark
  deriving DecidableEq, Repr

namespace SyntaxFault

def message : SyntaxFault → String
  | .value => "Expecting value"
  | .name => "Expecting property name enclosed in double quotes"
  | .colon => "Expecting ':' delimiter"
  | .comma => "Expecting ',' delimiter"
  | .unterminated => "Unterminated string starting at"
  | .control => "Invalid control character at"
  | .escape => "Invalid \\escape"
  | .unicode => "Invalid \\uXXXX escape"
  | .extra => "Extra data"
  | .mark => "Unexpected UTF-8 BOM (decode using utf-8-sig)"

end SyntaxFault

/-- Why reading stops. -/
inductive ReadStop where
  -- The text is no JSON value; so many characters are left at the fault.
  | fault (fault : SyntaxFault) (left : Nat)
  | tooDeep
  | tooLong (digits : Nat)
  deriving DecidableEq, Repr

/-- What a reader tolerates. -/
structure Limits where
  depth : Option Nat
  digits : Option Nat

def Limits.none : Limits := ⟨Option.none, Option.none⟩

def Limits.forFiles : Limits := ⟨Option.none, some Text.digitLimit⟩

namespace Reader

/-- What is left of a text of `n` characters after something was read. -/
abbrev Rest (n : Nat) := { r : List Char // r.length < n }

def isBlank (c : Char) : Bool :=
  c = ' ' || c = '\t' || c = '\n' || c = '\r'

def skip (s : List Char) : List Char := s.dropWhile isBlank

theorem length_skip_le (s : List Char) : (skip s).length ≤ s.length :=
  (List.dropWhile_suffix isBlank).length_le

def stopAt {α : Type} (fault : SyntaxFault) (s : List Char) : Except ReadStop α :=
  .error (.fault fault s.length)

/-! ## Strings -/

def hexValue? (c : Char) : Option Nat :=
  if '0' ≤ c ∧ c ≤ '9' then some (c.toNat - '0'.toNat)
  else if 'a' ≤ c ∧ c ≤ 'f' then some (c.toNat - 'a'.toNat + 10)
  else if 'A' ≤ c ∧ c ≤ 'F' then some (c.toNat - 'A'.toNat + 10)
  else none

def hexUnit? (s : List Char) : Option Nat :=
  match s with
  | a :: b :: c :: d :: _ :: _ =>
      match hexValue? a, hexValue? b, hexValue? c, hexValue? d with
      | some a, some b, some c, some d => some (((a * 16 + b) * 16 + c) * 16 + d)
      | _, _, _, _ => none
  | _ => none

/-- The point of a 16-bit unit: its character, or a surrogate on its own. -/
def pointOfUnit (n : Nat) : Point :=
  if h : 0xd800 ≤ n ∧ n < 0xe000 then .lone ⟨n - 0xd800, by omega⟩ else .char (Char.ofNat n)

/-- The point that the text after `\u` stands for, and how many characters spell it.  Two
surrogates that belong together are read as one character. -/
def unicodeEscape (s : List Char) : Except ReadStop (Point × Nat) :=
  match hexUnit? s with
  | none => .error (.fault .unicode (s.length + 1))
  | some n =>
      if 0xd800 ≤ n ∧ n < 0xdc00 then
        match s.drop 4 with
        | '\\' :: 'u' :: t =>
            if t.length < 5 then .ok (pointOfUnit n, 4)
            else
              match hexUnit? t with
              | none => .error (.fault .unicode (t.length + 1))
              | some m =>
                  if 0xdc00 ≤ m ∧ m < 0xe000 then
                    .ok (.char (Char.ofNat (0x10000 + (n - 0xd800) * 0x400 + (m - 0xdc00))), 10)
                  else .ok (pointOfUnit n, 4)
        | _ => .ok (pointOfUnit n, 4)
      else .ok (pointOfUnit n, 4)

def simpleEscape? (c : Char) : Option Char :=
  match c with
  | '"' => some '"'
  | '\\' => some '\\'
  | '/' => some '/'
  | 'b' => some (Char.ofNat 8)
  | 'f' => some (Char.ofNat 12)
  | 'n' => some '\n'
  | 'r' => some '\r'
  | 't' => some '\t'
  | _ => none

/-- The text of a string up to its closing quote.  `start` is the text from the opening quote on,
and `read` holds the points so far, last first. -/
def stringBody (start : List Char) (n : Nat) (read : List Point) (s : List Char)
    (h : s.length ≤ n) : Except ReadStop (Text × Rest n) :=
  match s with
  | [] => stopAt .unterminated start
  | c :: t =>
      if c = '"' then
        .ok (Text.ofPoints read.reverse, ⟨t, by simp only [List.length_cons] at h; omega⟩)
      else if c = '\\' then
        match t with
        | [] => stopAt .unterminated start
        | e :: u =>
            if e = 'u' then
              match unicodeEscape u with
              | .error stop => .error stop
              | .ok (x, k) =>
                  stringBody start n (x :: read) (u.drop k) (by
                    simp only [List.length_cons, List.length_drop] at h ⊢
                    omega)
            else
              match simpleEscape? e with
              | some x =>
                  stringBody start n (.char x :: read) u (by
                    simp only [List.length_cons] at h
                    omega)
              | none => stopAt .escape (c :: t)
      else if c.toNat < 0x20 then stopAt .control (c :: t)
      else stringBody start n (.char c :: read) t (by simp only [List.length_cons] at h; omega)
termination_by s.length
decreasing_by
  all_goals
    simp only [List.length_cons, List.length_drop]
    omega

/-! ## Numbers -/

def isDigit (c : Char) : Bool := '0' ≤ c && c ≤ '9'

def decimalValue (ds : List Char) : Nat :=
  ds.foldl (fun n c => n * 10 + (c.toNat - '0'.toNat)) 0

structure Numeral where
  negative : Bool
  whole : List Char
  fraction : Option (List Char)
  exponent : Option (Bool × List Char)

/-- The digits before the point: a single zero, or digits that do not start with one. -/
def wholePart? : List Char → Option (List Char × List Char)
  | '0' :: s => some (['0'], s)
  | c :: s =>
      if isDigit c then some (c :: s.takeWhile isDigit, s.dropWhile isDigit) else none
  | [] => none

def fractionPart : List Char → Option (List Char) × List Char
  | '.' :: s =>
      match s.takeWhile isDigit with
      | [] => (none, '.' :: s)
      | ds => (some ds, s.dropWhile isDigit)
  | s => (none, s)

def exponentSign : List Char → Bool × List Char
  | '-' :: s => (true, s)
  | '+' :: s => (false, s)
  | s => (false, s)

def exponentPart : List Char → Option (Bool × List Char) × List Char
  | c :: s =>
      if c = 'e' ∨ c = 'E' then
        let (negative, t) := exponentSign s
        match t.takeWhile isDigit with
        | [] => (none, c :: s)
        | ds => (some (negative, ds), t.dropWhile isDigit)
      else (none, c :: s)
  | [] => (none, [])

/-- The longest number at the start of the text. -/
def numeral? (s : List Char) : Option (Numeral × List Char) :=
  let (negative, t) :=
    match s with
    | '-' :: t => (true, t)
    | t => (false, t)
  match wholePart? t with
  | none => none
  | some (whole, t) =>
      let (fraction, t) := fractionPart t
      let (exponent, t) := exponentPart t
      some (⟨negative, whole, fraction, exponent⟩, t)

def Numeral.value (limits : Limits) (x : Numeral) : Except ReadStop Json :=
  match x.fraction, x.exponent with
  | none, none =>
      let n := decimalValue x.whole
      match limits.digits with
      | some limit =>
          if x.whole.length > limit then .error (.tooLong x.whole.length)
          else .ok (.int (if x.negative then -n else n))
      | none => .ok (.int (if x.negative then -n else n))
  | fraction, exponent =>
      let fraction := fraction.getD []
      let power : Int :=
        match exponent with
        | none => 0
        | some (negative, ds) => if negative then -(decimalValue ds : Int) else decimalValue ds
      .ok (.float (Binary64.ofDecimal x.negative (decimalValue (x.whole ++ fraction))
        (power - fraction.length)))

def words : List (String × Json) :=
  [("null", .null), ("true", .bool true), ("false", .bool false), ("NaN", .float .nan),
   ("Infinity", .float (.infinite false)), ("-Infinity", .float (.infinite true))]

def atom (limits : Limits) (s : List Char) : Except ReadStop (Json × Rest s.length) :=
  match words.find? fun w => w.1.toList.isPrefixOf s with
  | some (w, v) =>
      if h : (s.drop w.length).length < s.length then .ok (v, ⟨s.drop w.length, h⟩)
      else stopAt .value s
  | none =>
      match numeral? s with
      | none => stopAt .value s
      | some (x, rest) =>
          match x.value limits with
          | .error stop => .error stop
          | .ok v => if h : rest.length < s.length then .ok (v, ⟨rest, h⟩) else stopAt .value s

/-! ## Values -/

mutual

/-- A value at the start of the text, with `room` for so many levels of lists and objects. -/
def value (limits : Limits) (room : Nat) (s : List Char) :
    Except ReadStop (Json × Rest s.length) :=
  match s with
  | '"' :: t =>
      match stringBody ('"' :: t) t.length [] t (Nat.le_refl _) with
      | .error stop => .error stop
      | .ok (x, ⟨r, h⟩) => .ok (.str x, ⟨r, by simp only [List.length_cons]; omega⟩)
  | '[' :: t =>
      match room with
      | 0 => .error .tooDeep
      | room + 1 =>
          match hs : skip t with
          | ']' :: r =>
              .ok (.arr [], ⟨r, by
                have := length_skip_le t
                simp only [hs, List.length_cons] at this ⊢
                omega⟩)
          | u =>
              match items limits room u with
              | .error stop => .error stop
              | .ok (vs, ⟨r, h⟩) =>
                  .ok (.arr vs, ⟨r, by
                    have := length_skip_le t
                    simp only [List.length_cons]
                    rw [hs] at this
                    omega⟩)
  | '\x7b' :: t =>
      match room with
      | 0 => .error .tooDeep
      | room + 1 =>
          match hs : skip t with
          | '\x7d' :: r =>
              .ok (.obj [], ⟨r, by
                have := length_skip_le t
                simp only [hs, List.length_cons] at this ⊢
                omega⟩)
          | u =>
              -- Of a repeated name the last value counts, in the place of the first.
              match membersFrom limits room u with
              | .error stop => .error stop
              | .ok (ms, ⟨r, h⟩) =>
                  .ok (.obj (Entries.putAll [] ms), ⟨r, by
                    have := length_skip_le t
                    simp only [List.length_cons]
                    rw [hs] at this
                    omega⟩)
  | s => atom limits s
termination_by (s.length, 0)
decreasing_by
  all_goals
    apply Prod.Lex.left
    have := length_skip_le t
    simp only [List.length_cons]
    rw [hs] at this
    omega

def items (limits : Limits) (room : Nat) (s : List Char) :
    Except ReadStop (List Json × Rest s.length) :=
  match value limits room s with
  | .error stop => .error stop
  | .ok (v, ⟨r, hr⟩) =>
      match hs : skip r with
      | ']' :: t =>
          .ok ([v], ⟨t, by
            have := length_skip_le r
            simp only [hs, List.length_cons] at this
            omega⟩)
      | ',' :: t =>
          match items limits room (skip t) with
          | .error stop => .error stop
          | .ok (vs, ⟨u, hu⟩) =>
              .ok (v :: vs, ⟨u, by
                have h₁ := length_skip_le r
                have h₂ := length_skip_le t
                simp only [hs, List.length_cons] at h₁
                omega⟩)
      | t => stopAt .comma t
termination_by (s.length, 1)
decreasing_by
  · exact Prod.Lex.right _ (by omega)
  · apply Prod.Lex.left
    have h₁ := length_skip_le r
    have h₂ := length_skip_le t
    simp only [hs, List.length_cons] at h₁
    omega

def membersFrom (limits : Limits) (room : Nat) (s : List Char) :
    Except ReadStop (List (Text × Json) × Rest s.length) :=
  match s with
  | '"' :: t =>
      match stringBody ('"' :: t) t.length [] t (Nat.le_refl _) with
      | .error stop => .error stop
      | .ok (name, ⟨r, hr⟩) =>
          match hr' : skip r with
          | ':' :: u =>
              match value limits room (skip u) with
              | .error stop => .error stop
              | .ok (v, ⟨w, hw⟩) =>
                  match hw' : skip w with
                  | '\x7d' :: x =>
                      .ok ([(name, v)], ⟨x, by
                        have h₁ := length_skip_le r
                        have h₂ := length_skip_le u
                        have h₃ := length_skip_le w
                        simp only [hr', hw', List.length_cons] at h₁ h₃ ⊢
                        omega⟩)
                  | ',' :: x =>
                      match membersFrom limits room (skip x) with
                      | .error stop => .error stop
                      | .ok (ms, ⟨y, hy⟩) =>
                          .ok ((name, v) :: ms, ⟨y, by
                            have h₁ := length_skip_le r
                            have h₂ := length_skip_le u
                            have h₃ := length_skip_le w
                            have h₄ := length_skip_le x
                            simp only [hr', hw', List.length_cons] at h₁ h₃ ⊢
                            omega⟩)
                  | x => stopAt .comma x
          | u => stopAt .colon u
  | s => stopAt .name s
termination_by (s.length, 1)
decreasing_by
  · apply Prod.Lex.left
    have h₁ := length_skip_le r
    have h₂ := length_skip_le u
    simp only [hr', List.length_cons] at h₁ ⊢
    omega
  · apply Prod.Lex.left
    have h₁ := length_skip_le r
    have h₂ := length_skip_le u
    have h₃ := length_skip_le w
    have h₄ := length_skip_le x
    simp only [hr', hw', List.length_cons] at h₁ h₃ ⊢
    omega

end

end Reader

/-- Read a text that holds one JSON value and nothing else. -/
def read (limits : Limits) (s : List Char) : Except ReadStop Json :=
  match s with
  | '\ufeff' :: _ => Reader.stopAt .mark s
  | _ =>
      match Reader.value limits (limits.depth.getD s.length) (Reader.skip s) with
      | .error stop => .error stop
      | .ok (v, ⟨r, _⟩) =>
          match Reader.skip r with
          | [] => .ok v
          | u => Reader.stopAt .extra u

/-! ## Places -/

structure Place where
  line : Nat
  column : Nat
  offset : Nat
  deriving DecidableEq, Repr

/-- The place in a text from which on so many characters are left. -/
def Place.ofLeft (s : List Char) (left : Nat) : Place :=
  let before := s.take (s.length - left)
  { line := before.count '\n' + 1
    column := (before.reverse.takeWhile (· ≠ '\n')).length + 1
    offset := before.length }

def SyntaxFault.located (fault : SyntaxFault) (place : Place) : String :=
  fault.message ++ ": line " ++ toString place.line ++ " column " ++ toString place.column ++
    " (char " ++ toString place.offset ++ ")"

end Json

end Monotype
