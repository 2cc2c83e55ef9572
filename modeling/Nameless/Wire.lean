/-
Nameless/Wire.lean

The binary form of terms, in prefix order: a variable is the byte 1 and its index in
eight bytes, least significant first; an abstraction is the byte 2 before its body; an
application is the byte 3 before its function and its argument.

Decoding first reads the pieces of one term, counting how many terms are still owed,
and then puts them together from the last to the first.
-/
import Nameless.Report.Diagnostic
import Nameless.Term.Display

namespace Nameless

/-- The bytes that begin a variable, an abstraction and an application. -/
structure Tags where
  var : UInt8
  lam : UInt8
  app : UInt8

/-- The tags of the format. -/
def tags : Tags := ⟨1, 2, 3⟩

/-! ### Encoding -/

/-- The first number that does not fit in eight bytes. -/
def indexLimit : Nat := Nat.pow 2 64

/-- A number in `count` bytes, least significant first, in front of `rest`. -/
def littleEndianOnto : (count : Nat) → Nat → List UInt8 → List UInt8
  | 0, _, rest => rest
  | k + 1, n, rest => UInt8.ofNat n :: littleEndianOnto k (n / 256) rest

namespace Term

/-- The leftmost index that does not fit in eight bytes. -/
def wideIndex? : Term → Option Nat
  | var i => if i < indexLimit then none else some i
  | lam b => b.wideIndex?
  | app f a => f.wideIndex? <|> a.wideIndex?

/-- The binary form of a term whose indices fit, in front of `rest`. -/
def bytesOnto : Term → List UInt8 → List UInt8
  | var i, rest => tags.var :: littleEndianOnto 8 i rest
  | lam b, rest => tags.lam :: b.bytesOnto rest
  | app f a, rest => tags.app :: f.bytesOnto (a.bytesOnto rest)

/-- The binary form of a term, or the leftmost index that has none. -/
def encode (t : Term) : Except Nat (List UInt8) :=
  match t.wideIndex? with
  | some i => .error i
  | none => .ok (t.bytesOnto [])

end Term

/-- What is said of an index that does not fit. -/
def wideIndexMessage (i : Nat) : String :=
  s!"De Bruijn index {i} does not fit in 64 bits"

/-! ### Decoding -/

/-- What is wrong with bytes that are not the binary form of a term; offsets count from the
first byte to the beginning of the piece. -/
inductive DecodeError where
  | empty
  | incomplete (offset : Nat)
  | badTag (tag : UInt8) (offset : Nat)
  | trailing (offset : Nat)
deriving DecidableEq

/-- A piece of the binary form. -/
inductive WirePiece where
  | var (index : Nat)
  | lam
  | app

/-- The number that eight bytes denote, least significant first. -/
def ofLittleEndian : List UInt8 → Nat
  | [] => 0
  | b :: rest => b.toNat + 256 * ofLittleEndian rest

/-- Reads pieces until no term is owed, newest first in front of those already found.  All
bytes must be used up then. -/
def readPieces (found : List WirePiece) (offset : Nat) :
    (owed : Nat) → List UInt8 → Except DecodeError (List WirePiece)
  | 0, [] => .ok found
  | 0, _ :: _ => .error (.trailing offset)
  | _ + 1, [] => .error (.incomplete offset)
  | owed + 1, tag :: rest =>
    if tag = tags.var then
      match rest with
      | b₀ :: b₁ :: b₂ :: b₃ :: b₄ :: b₅ :: b₆ :: b₇ :: more =>
        readPieces (.var (ofLittleEndian [b₀, b₁, b₂, b₃, b₄, b₅, b₆, b₇]) :: found) (offset + 9)
          owed more
      | _ => .error (.incomplete offset)
    else if tag = tags.lam then readPieces (.lam :: found) (offset + 1) (owed + 1) rest
    else if tag = tags.app then readPieces (.app :: found) (offset + 1) (owed + 2) rest
    else .error (.badTag tag offset)
termination_by _ bytes => bytes.length

/-- Puts pieces together from the last to the first, on a stack of finished terms.  The
answer is `none` if a piece finds too few of them. -/
def assemblePieces : List WirePiece → List Term → Option (List Term)
  | [], done => some done
  | .var i :: rest, done => assemblePieces rest (.var i :: done)
  | .lam :: rest, b :: done => assemblePieces rest (.lam b :: done)
  | .app :: rest, f :: a :: done => assemblePieces rest (.app f a :: done)
  | _, _ => none

/-- The term that bytes are the binary form of.  Pieces that pay every term owed make
exactly one term, so the last case is never taken. -/
def Term.decode (bytes : List UInt8) : Except DecodeError Term :=
  if bytes.isEmpty then .error .empty
  else
    match readPieces [] 0 1 bytes with
    | .error e => .error e
    | .ok pieces =>
      match assemblePieces pieces [] with
      | some [t] => .ok t
      | _ => .error .empty

/-! ### Written forms -/

/-- A byte as two hexadecimal digits. -/
def byteHex (b : UInt8) : List Char :=
  [Nat.digitChar (b.toNat / 16), Nat.digitChar (b.toNat % 16)]

/-- Bytes in hexadecimal, with `gap` between them. -/
def bytesHex (gap : String) (bytes : List UInt8) : String :=
  gap.intercalate (bytes.map fun b => String.ofList (byteHex b))

namespace DecodeError

/-- A number for a message, in bold. -/
def boldNumber (style : Style) (n : Nat) : String :=
  style.bold (String.ofList (Term.decimal n))

/-- The written form of a tag. -/
def tagText (tag : UInt8) : String :=
  "0x" ++ String.ofList ((byteHex tag).map Char.toUpper)

/-- What is said of bytes with the fault. -/
def message (style : Style) : DecodeError → String
  | empty => "cannot decode a λ-term from empty input"
  | incomplete offset => "input ends mid-term at byte " ++ boldNumber style offset
  | badTag tag offset =>
    "invalid tag " ++ style.bold (tagText tag) ++ " at byte " ++ boldNumber style offset
  | trailing offset =>
    "unexpected bytes after a complete λ-term at byte " ++ boldNumber style offset

/-- What the message is about, as a text. -/
def subject : DecodeError → String
  | empty => ""
  | incomplete offset => String.ofList (Term.decimal offset)
  | badTag tag _ => tagText tag
  | trailing offset => String.ofList (Term.decimal offset)

/-- The diagnostic of a fault.  Bytes have no text to point at. -/
def diagnostic (style : Style) (e : DecodeError) : Diagnostic :=
  .brief (e.message style) e.subject

end DecodeError

end Nameless
