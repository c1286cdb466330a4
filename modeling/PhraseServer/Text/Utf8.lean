/-
  UTF-8.

  `decodeUtf8` reads bytes into characters, or names the first place where they
  are not UTF-8: the index of the sequence that fails, and whether the input
  ends inside it or how many of its bytes were well formed before it broke.
  `decodeLossy` reads any bytes: what decoding would refuse becomes a replacement
  character.
-/
namespace PhraseServer

/-- Where bytes stop being UTF-8. -/
inductive Utf8Error where
  /-- A sequence breaks after `length` bytes. -/
  | invalid (length index : Nat)
  /-- The input ends inside a sequence. -/
  | incomplete (index : Nat)
deriving DecidableEq, Repr

/-- The text of an error. -/
def Utf8Error.message : Utf8Error → String
  | invalid length index =>
    "invalid utf-8 sequence of " ++ toString length ++ " bytes from index " ++ toString index
  | incomplete index => "incomplete utf-8 byte sequence from index " ++ toString index

/-! ## Bytes of a sequence -/

/-- Whether a byte continues a sequence. -/
def isContinuation (b : UInt8) : Bool := 0x80 ≤ b && b ≤ 0xbf

/-- The number of bytes in a sequence with a given first byte; `none` if no
    sequence begins so. -/
def sequenceWidth (b : UInt8) : Option Nat :=
  if b < 0x80 then some 1
  else if 0xc2 ≤ b && b ≤ 0xdf then some 2
  else if 0xe0 ≤ b && b ≤ 0xef then some 3
  else if 0xf0 ≤ b && b ≤ 0xf4 then some 4
  else none

/-- Whether `b` may follow the first byte of a sequence: overlong forms,
    surrogates and values beyond the last code point are refused here. -/
def isSecond (first b : UInt8) : Bool :=
  if first = 0xe0 then 0xa0 ≤ b && b ≤ 0xbf
  else if first = 0xed then 0x80 ≤ b && b ≤ 0x9f
  else if first = 0xf0 then 0x90 ≤ b && b ≤ 0xbf
  else if first = 0xf4 then 0x80 ≤ b && b ≤ 0x8f
  else isContinuation b

/-- The low bits of a byte as a number. -/
def lowBits (b : UInt8) (bits : Nat) : Nat := b.toNat % (1 <<< bits)

/-! ## Decoding -/

/-- Reads bytes from an index on. -/
def decodeUtf8From (index : Nat) : List UInt8 → Except Utf8Error (List Char)
  | [] => .ok []
  | a :: rest =>
    match sequenceWidth a with
    | none => .error (.invalid 1 index)
    | some 1 => (decodeUtf8From (index + 1) rest).map (Char.ofNat a.toNat :: ·)
    | some width =>
      match rest with
      | [] => .error (.incomplete index)
      | b :: rest =>
        if !isSecond a b then .error (.invalid 1 index)
        else if width = 2 then
          (decodeUtf8From (index + 2) rest).map
            (Char.ofNat (lowBits a 5 * 64 + lowBits b 6) :: ·)
        else
          match rest with
          | [] => .error (.incomplete index)
          | c :: rest =>
            if !isContinuation c then .error (.invalid 2 index)
            else if width = 3 then
              (decodeUtf8From (index + 3) rest).map
                (Char.ofNat (lowBits a 4 * 4096 + lowBits b 6 * 64 + lowBits c 6) :: ·)
            else
              match rest with
              | [] => .error (.incomplete index)
              | d :: rest =>
                if !isContinuation d then .error (.invalid 3 index)
                else
                  (decodeUtf8From (index + 4) rest).map
                    (Char.ofNat
                      (lowBits a 3 * 262144 + lowBits b 6 * 4096 + lowBits c 6 * 64 + lowBits d 6)
                      :: ·)

/-- Reads bytes as UTF-8. -/
def decodeUtf8 (bytes : List UInt8) : Except Utf8Error (List Char) := decodeUtf8From 0 bytes

/-- What stands for bytes that are not UTF-8. -/
def replacement : Char := '\uFFFD'

/-- Reads bytes as UTF-8 as far as they are: the well-formed part of a sequence
    that breaks or is cut off becomes one replacement character, as does a byte
    that begins no sequence. -/
def decodeLossy : List UInt8 → List Char
  | [] => []
  | a :: rest =>
    match sequenceWidth a with
    | none => replacement :: decodeLossy rest
    | some 1 => Char.ofNat a.toNat :: decodeLossy rest
    | some width =>
      match rest with
      | [] => [replacement]
      | b :: rest =>
        if !isSecond a b then replacement :: decodeLossy (b :: rest)
        else if width = 2 then
          Char.ofNat (lowBits a 5 * 64 + lowBits b 6) :: decodeLossy rest
        else
          match rest with
          | [] => [replacement]
          | c :: rest =>
            if !isContinuation c then replacement :: decodeLossy (c :: rest)
            else if width = 3 then
              Char.ofNat (lowBits a 4 * 4096 + lowBits b 6 * 64 + lowBits c 6) :: decodeLossy rest
            else
              match rest with
              | [] => [replacement]
              | d :: rest =>
                if !isContinuation d then replacement :: decodeLossy (d :: rest)
                else
                  Char.ofNat
                      (lowBits a 3 * 262144 + lowBits b 6 * 4096 + lowBits c 6 * 64 + lowBits d 6)
                    :: decodeLossy rest

/-- The UTF-8 bytes of a text. -/
def encodeUtf8 (text : String) : List UInt8 := text.toList.flatMap String.utf8EncodeChar

end PhraseServer
