/-
Nameless/Text/Utf8.lean

Text from bytes.  Each character takes one to four bytes; a byte that cannot begin a
character, and one that cannot go on with the character begun, are errors.  Bytes
arrive in blocks.  A character that a block breaks off waits for the next block, and
an error gives its place in the data at hand: the bytes that waited and the block
that came.
-/
namespace Nameless.Text

/-- Why bytes are not text. -/
inductive Utf8Reason where
  | start
  | continuation
  | unfinished
deriving DecidableEq

/-- The wording of a reason. -/
def Utf8Reason.message : Utf8Reason → String
  | start => "invalid start byte"
  | continuation => "invalid continuation byte"
  | unfinished => "unexpected end of data"

/-- A fault in the data at hand: its first byte, the place of that byte, and the number of
bytes that belong to it. -/
structure Utf8Error where
  byte : UInt8
  place : Nat
  length : Nat
  reason : Utf8Reason
deriving DecidableEq

/-- The two lower-case hexadecimal digits of a byte. -/
def hexDigits (b : UInt8) : List Char :=
  [Nat.digitChar (b.toNat / 16), Nat.digitChar (b.toNat % 16)]

/-- The wording of a fault. -/
def Utf8Error.message (e : Utf8Error) : String :=
  let what :=
    if e.length = 1 then s!"byte 0x{String.ofList (hexDigits e.byte)} in position {e.place}"
    else s!"bytes in position {e.place}-{e.place + e.length - 1}"
  "'utf-8' codec can't decode " ++ what ++ ": " ++ e.reason.message

/-! ### One character -/

/-- What stands at the head of the data: a character and the number of its bytes, a
character that is broken off, or a fault with the number of bytes that belong to it. -/
inductive Head where
  | char (c : Char) (length : Nat)
  | broken
  | bad (length : Nat) (reason : Utf8Reason)

/-- Whether a byte goes on with a character. -/
def isContinuation (b : UInt8) : Bool := 0x80 ≤ b && b < 0xC0

/-- Whether a byte may come second after the given first byte of three or four: shorter
forms, surrogates and numbers beyond the last code point are excluded. -/
def isSecond (first b : UInt8) : Bool :=
  isContinuation b &&
    (if first = 0xE0 then 0xA0 ≤ b
    else if first = 0xED then b < 0xA0
    else if first = 0xF0 then 0x90 ≤ b
    else if first = 0xF4 then b < 0x90
    else true)

/-- The six bits that a byte adds to a code point. -/
def addBits (code : Nat) (b : UInt8) : Nat := code * 64 + b.toNat % 64

/-- Reads the bytes after the first of a character: `wanted` more, of which `had` are read. -/
def headFrom (code had : Nat) : (wanted : Nat) → List UInt8 → Head
  | 0, _ => .char (Char.ofNat code) had
  | _ + 1, [] => .broken
  | w + 1, b :: rest =>
    if isContinuation b then headFrom (addBits code b) (had + 1) w rest
    else .bad had .continuation

/-- Reads a character of three or four bytes, whose second byte is restricted by the first. -/
def longHead (first : UInt8) (code wanted : Nat) : List UInt8 → Head
  | [] => .broken
  | b :: rest =>
    if isSecond first b then headFrom (addBits code b) 2 wanted rest else .bad 1 .continuation

/-- What stands at the head of the data that begin with the given byte. -/
def headOf (first : UInt8) (rest : List UInt8) : Head :=
  if first < 0x80 then .char (Char.ofNat first.toNat) 1
  else if first < 0xC2 then .bad 1 .start
  else if first < 0xE0 then headFrom (first.toNat % 32) 1 1 rest
  else if first < 0xF0 then longHead first (first.toNat % 16) 1 rest
  else if first < 0xF5 then longHead first (first.toNat % 8) 2 rest
  else .bad 1 .start

/-! ### Blocks -/

/-- Two bytes that would begin a surrogate wait for more, like a broken character. -/
def waits : List UInt8 → Bool
  | [a, b] => a = 0xED && 0xA0 ≤ b && b < 0xC0
  | _ => false

/-- Reads the data at hand from the given place, onto the characters found already, newest
first.  In the last block nothing may be broken off; in any other the broken character is
handed on. -/
def decodeBlock (last : Bool) (found : List Char) (place : Nat) (data : List UInt8) :
    Except Utf8Error (List Char × List UInt8) :=
  match data with
  | [] => .ok (found, [])
  | b :: rest =>
    if !last && waits (b :: rest) then .ok (found, b :: rest)
    else
      match headOf b rest with
      | .char c n => decodeBlock last (c :: found) (place + (n - 1) + 1) (rest.drop (n - 1))
      | .broken =>
        if last then .error ⟨b, place, (b :: rest).length, .unfinished⟩ else .ok (found, b :: rest)
      | .bad n reason => .error ⟨b, place, n, reason⟩
termination_by data.length
decreasing_by simp only [List.length_drop, List.length_cons]; omega

/-- The size of a block. -/
def blockSize : Nat := 8192

/-- Bytes in blocks of the given size; `fuel` bounds their number. -/
def blocks (size : Nat) : (fuel : Nat) → List UInt8 → List (List UInt8)
  | 0, _ => []
  | _, [] => []
  | n + 1, bytes => bytes.take size :: blocks size n (bytes.drop size)

/-- Reads blocks one after the other, with the bytes that wait. -/
def decodeBlocks (found : List Char) (waiting : List UInt8) :
    List (List UInt8) → Except Utf8Error (List Char)
  | [] =>
    match decodeBlock true found 0 waiting with
    | .ok (chars, _) => .ok chars.reverse
    | .error e => .error e
  | block :: rest =>
    match decodeBlock false found 0 (waiting ++ block) with
    | .ok (chars, waiting') => decodeBlocks chars waiting' rest
    | .error e => .error e

/-- The text that bytes are. -/
def decodeUtf8 (bytes : List UInt8) : Except Utf8Error (List Char) :=
  decodeBlocks [] [] (blocks blockSize bytes.length bytes)

/-! ### Lines -/

/-- The lines of a text, in front of `rest`.  A line ends with a line feed, a carriage
return or both, and the last one may end with the text; `line` holds its characters read so
far, newest first. -/
def linesFrom (line : List Char) : List Char → List (List Char)
  | [] => if line.isEmpty then [] else [line.reverse]
  | '\r' :: '\n' :: rest => line.reverse :: linesFrom [] rest
  | '\r' :: rest => line.reverse :: linesFrom [] rest
  | '\n' :: rest => line.reverse :: linesFrom [] rest
  | c :: rest => linesFrom (c :: line) rest

/-- The lines of a text, without what ends them. -/
def lines (text : List Char) : List (List Char) :=
  linesFrom [] text

end Nameless.Text
