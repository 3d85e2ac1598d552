import Downlevel.Text.Quoted

/-!
# `Text.Utf8`: text as bytes

Text is stored as UTF-8. Bytes that are no UTF-8 give a fault that names the bytes and says what is wrong
with them: a byte that starts no character, a character cut short by the end, or a byte that does not
continue the character before it.
-/

namespace Downlevel.Text

/-- The bytes of a text. -/
def encode (s : String) : List UInt8 := s.toList.flatMap String.utf8EncodeChar

/-! ## Faults -/

/-- What is wrong with a byte sequence. -/
inductive DecodeProblem where
  | badStart
  | badContinuation
  | cutShort
  deriving DecidableEq

def DecodeProblem.text : DecodeProblem → String
  | .badStart => "invalid start byte"
  | .badContinuation => "invalid continuation byte"
  | .cutShort => "unexpected end of data"

/-- Bytes that are no text: the first of them, where they start, how many they are. -/
structure DecodeFault where
  problem : DecodeProblem
  byte : UInt8
  position : Nat
  length : Nat
  deriving DecidableEq

/-- The wording of a fault. -/
def DecodeFault.message (f : DecodeFault) : String :=
  let hex := hexDigits 2 f.byte.toNat
  let last := f.position + f.length - 1
  let what := if f.length = 1 then s!"byte 0x{hex} in position {f.position}"
    else s!"bytes in position {f.position}-{last}"
  s!"'utf-8' codec can't decode {what}: {f.problem.text}"

/-! ## Decoding -/

/-- The first character of a byte sequence and the number of bytes that continue it, or what is wrong and
how many bytes are affected. -/
inductive FirstChar where
  | char (c : Char) (continued : Nat)
  | bad (problem : DecodeProblem) (length : Nat)

/-- Does the byte continue a character? -/
def continues (b : UInt8) : Bool := 0x80 ≤ b && b < 0xc0

/-- May `b` follow the start byte `a`? Some start bytes exclude part of the continuations: overlong forms,
surrogates and code points past the last one. -/
def mayFollow (a b : UInt8) : Bool :=
  continues b && !(a == 0xe0 && b < 0xa0) && !(a == 0xed && 0xa0 ≤ b)
    && !(a == 0xf0 && b < 0x90) && !(a == 0xf4 && 0x90 ≤ b)

/-- The payload of a byte that continues a character. -/
def payload (b : UInt8) : Nat := b.toNat % 64

/-- The first character of the bytes `a :: rest`. -/
def firstChar (a : UInt8) (rest : List UInt8) : FirstChar :=
  if a < 0x80 then .char (Char.ofNat a.toNat) 0
  else if a < 0xc2 then .bad .badStart 1
  else if a < 0xe0 then
    match rest with
    | [] => .bad .cutShort 1
    | b :: _ =>
      if continues b then .char (Char.ofNat (a.toNat % 32 * 64 + payload b)) 1
      else .bad .badContinuation 1
  else if a < 0xf0 then
    match rest with
    | [] => .bad .cutShort 1
    | b :: rest =>
      if !mayFollow a b then .bad .badContinuation 1
      else match rest with
        | [] => .bad .cutShort 2
        | c :: _ =>
          if continues c then
            .char (Char.ofNat ((a.toNat % 16 * 64 + payload b) * 64 + payload c)) 2
          else .bad .badContinuation 2
  else if a < 0xf5 then
    match rest with
    | [] => .bad .cutShort 1
    | b :: rest =>
      if !mayFollow a b then .bad .badContinuation 1
      else match rest with
        | [] => .bad .cutShort 2
        | c :: rest =>
          if !continues c then .bad .badContinuation 2
          else match rest with
            | [] => .bad .cutShort 3
            | d :: _ =>
              if continues d then
                .char (Char.ofNat
                  (((a.toNat % 8 * 64 + payload b) * 64 + payload c) * 64 + payload d)) 3
              else .bad .badContinuation 3
  else .bad .badStart 1

/-- The characters of bytes that start at a position, of which the first `skip` belong to a character
already read. -/
def decodeFrom (position : Nat) : Nat → List UInt8 → Except DecodeFault (List Char)
  | _, [] => .ok []
  | skip + 1, _ :: rest => decodeFrom (position + 1) skip rest
  | 0, a :: rest =>
    match firstChar a rest with
    | .char c continued => (c :: ·) <$> decodeFrom (position + 1) continued rest
    | .bad problem length => .error ⟨problem, a, position, length⟩

/-- The text of bytes. -/
def decode (bytes : List UInt8) : Except DecodeFault String := String.ofList <$> decodeFrom 0 0 bytes

/-! ## Lines -/

/-- A carriage return, alone or before a line feed, becomes a line feed. -/
def unixChars : List Char → List Char
  | [] => []
  | '\r' :: '\n' :: rest => '\n' :: unixChars rest
  | '\r' :: rest => '\n' :: unixChars rest
  | c :: rest => c :: unixChars rest

/-- The text with every line end as a line feed. -/
def unixLines (s : String) : String := String.ofList (unixChars s.toList)

end Downlevel.Text
