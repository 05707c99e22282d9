import Concord.Text

namespace Concord

/-- A file or a section of one. -/
abbrev Bytes := List UInt8

/-- Why bytes are not UTF-8. -/
inductive Utf8Fault where
  /-- The `length` bytes from `index` on begin no character. -/
  | invalid (index length : Nat)
  /-- The bytes end within the character that begins at `index`. -/
  | incomplete (index : Nat)
  deriving DecidableEq, Repr

def encodeUtf8 (text : Text) : Bytes :=
  text.flatMap String.utf8EncodeChar

def utf8Length : Text → Nat
  | [] => 0
  | c :: rest => c.utf8Size + utf8Length rest

/-- Bytes of the form 10xxxxxx continue a character. -/
def isContinuation (b : UInt8) : Bool :=
  0x80 ≤ b && b ≤ 0xBF

/-- The second bytes that may follow the first byte of a character of three bytes. -/
def isSecondOfThree (a b : UInt8) : Bool :=
  if a = 0xE0 then 0xA0 ≤ b && b ≤ 0xBF
  else if a = 0xED then 0x80 ≤ b && b ≤ 0x9F
  else isContinuation b

/-- The second bytes that may follow the first byte of a character of four bytes. -/
def isSecondOfFour (a b : UInt8) : Bool :=
  if a = 0xF0 then 0x90 ≤ b && b ≤ 0xBF
  else if a = 0xF4 then 0x80 ≤ b && b ≤ 0x8F
  else isContinuation b

def charOfTwo (a b : UInt8) : Char :=
  Char.ofNat ((a.toNat - 0xC0) * 0x40 + (b.toNat - 0x80))

def charOfThree (a b c : UInt8) : Char :=
  Char.ofNat ((a.toNat - 0xE0) * 0x1000 + (b.toNat - 0x80) * 0x40 + (c.toNat - 0x80))

def charOfFour (a b c d : UInt8) : Char :=
  Char.ofNat ((a.toNat - 0xF0) * 0x40000 + (b.toNat - 0x80) * 0x1000 + (c.toNat - 0x80) * 0x40
    + (d.toNat - 0x80))

/-- Decodes the bytes from position `index` on. Overlong forms, surrogates and numbers beyond the
last code point are refused, with the position of the first ill-formed sequence and how many of its
bytes could have begun a character. -/
def decodeUtf8From (index : Nat) : Bytes → Except Utf8Fault Text
  | [] => .ok []
  | a :: rest =>
    if a < 0x80 then
      (decodeUtf8From (index + 1) rest).map (Char.ofNat a.toNat :: ·)
    else if 0xC2 ≤ a && a ≤ 0xDF then
      match rest with
      | [] => .error (.incomplete index)
      | b :: rest =>
        if isContinuation b then
          (decodeUtf8From (index + 2) rest).map (charOfTwo a b :: ·)
        else
          .error (.invalid index 1)
    else if 0xE0 ≤ a && a ≤ 0xEF then
      match rest with
      | [] => .error (.incomplete index)
      | b :: rest =>
        if isSecondOfThree a b then
          match rest with
          | [] => .error (.incomplete index)
          | c :: rest =>
            if isContinuation c then
              (decodeUtf8From (index + 3) rest).map (charOfThree a b c :: ·)
            else
              .error (.invalid index 2)
        else
          .error (.invalid index 1)
    else if 0xF0 ≤ a && a ≤ 0xF4 then
      match rest with
      | [] => .error (.incomplete index)
      | b :: rest =>
        if isSecondOfFour a b then
          match rest with
          | [] => .error (.incomplete index)
          | c :: rest =>
            if isContinuation c then
              match rest with
              | [] => .error (.incomplete index)
              | d :: rest =>
                if isContinuation d then
                  (decodeUtf8From (index + 4) rest).map (charOfFour a b c d :: ·)
                else
                  .error (.invalid index 3)
            else
              .error (.invalid index 2)
        else
          .error (.invalid index 1)
    else
      .error (.invalid index 1)

def decodeUtf8 (bytes : Bytes) : Except Utf8Fault Text :=
  decodeUtf8From 0 bytes

/-- The lines of a file, each decoded by itself. -/
def byteLines (bytes : Bytes) : List (Except Utf8Fault Text) :=
  (linesWith 0x0A 0x0D bytes).map decodeUtf8

end Concord
