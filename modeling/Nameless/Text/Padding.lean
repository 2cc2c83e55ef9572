/-
Nameless/Text/Padding.lean

Laying text out in a field.  A layout is written `[[fill]align][0][width][.precision][s]`:
the text is cut to the precision, then filled up to the width on the side that the
alignment leaves free.  Signs, separators and other marks that belong to numbers are
recognised and refused.
-/
import Nameless.Text.Character
import Nameless.Text.Quoted

namespace Nameless.Text

/-- Where a text stands in its field. -/
inductive Align where
  | left
  | right
  | center
  | afterSign
deriving DecidableEq

/-- The mark of an alignment. -/
def Align.ofChar? : Char → Option Align
  | '<' => some .left
  | '>' => some .right
  | '^' => some .center
  | '=' => some .afterSign
  | _ => none

/-- Why a layout is refused. -/
inductive LayoutError where
  | tooManyDigits
  | bothSeparators
  | missingPrecision
  | malformed (layout : List Char)
  | separator (mark code : Char)
  | unknownCode (code : Char)
  | space
  | sign
  | negativeZero
  | alternate
  | afterSign

/-- A character that is named in a message: itself if it is visible ASCII, else its code. -/
def named (c : Char) : String :=
  if 32 < c.toNat && c.toNat < 128 then c.toString
  else "\\x" ++ String.ofList (Nat.toDigits 16 c.toNat)

/-- The wording of a refusal. -/
def LayoutError.message : LayoutError → String
  | tooManyDigits => "Too many decimal digits in format string"
  | bothSeparators => "Cannot specify both ',' and '_'."
  | missingPrecision => "Format specifier missing precision"
  | malformed layout =>
    "Invalid format specifier '" ++ String.ofList layout ++ "' for object of type 'str'"
  | separator mark code => "Cannot specify '" ++ mark.toString ++ "' with '" ++ named code ++ "'."
  | unknownCode code => "Unknown format code '" ++ named code ++ "' for object of type 'str'"
  | space => "Space not allowed in string format specifier"
  | sign => "Sign not allowed in string format specifier"
  | negativeZero => "Negative zero coercion (z) not allowed in string format specifier"
  | alternate => "Alternate form (#) not allowed in string format specifier"
  | afterSign => "'=' alignment not allowed in string format specifier"

/-- The largest number that a layout may mention. -/
def largestCount : Nat := Nat.pow 2 63 - 1

/-- The number at the head of a text, if there is one, and what follows it. -/
def leadingCount (text : List Char) : Except LayoutError (Option Nat × List Char) :=
  let digits := text.takeWhile isDigit
  if largestCount < numeral digits then .error .tooManyDigits
  else .ok (if digits.isEmpty then none else some (numeral digits), text.dropWhile isDigit)

/-- A mark at the head of a text, if it is there, and what follows it. -/
def leadingMark (p : Char → Bool) : List Char → Option Char × List Char
  | c :: rest => if p c then (some c, rest) else (none, c :: rest)
  | [] => (none, [])

/-- The fill character, if one is given, and the alignment at the head of a layout. -/
def leadingAlign : List Char → Option Char × Option Align × List Char
  | fill :: c :: rest =>
    match Align.ofChar? c, Align.ofChar? fill with
    | some a, _ => (some fill, some a, rest)
    | none, some a => (none, some a, c :: rest)
    | none, none => (none, none, fill :: c :: rest)
  | [c] =>
    match Align.ofChar? c with
    | some a => (none, some a, [])
    | none => (none, none, [c])
  | [] => (none, none, [])

/-- The marks of a thousands separator: a comma, an underscore, but not both. -/
def leadingSeparator (text : List Char) : Except LayoutError (Option Char × List Char) :=
  let (comma, afterComma) := leadingMark (· = ',') text
  let (underscore, rest) := leadingMark (· = '_') afterComma
  match comma, underscore, rest with
  | some _, some _, _ => .error .bothSeparators
  | none, some _, ',' :: _ => .error .bothSeparators
  | some c, none, _ => .ok (some c, rest)
  | none, mark, _ => .ok (mark, rest)

/-- Whether numbers of the given presentation may have the separator. -/
def separable (mark code : Char) : Bool :=
  "defgEG%F".toList.contains code || (mark = '_' && "boxX".toList.contains code)

/-- A text in a field of the given width. -/
def fillUp (fill : Char) (align : Align) (width : Nat) (text : List Char) : List Char :=
  let room := width - text.length
  let ahead := match align with
    | .right => room
    | .center => room / 2
    | _ => 0
  List.replicate ahead fill ++ text ++ List.replicate (room - ahead) fill

/-- The precision at the head of a text, if there is one, and what follows it. -/
def leadingPrecision : List Char → Except LayoutError (Option Nat × List Char)
  | '.' :: rest => do
    let (count?, rest) ← leadingCount rest
    if count?.isNone then throw .missingPrecision else return (count?, rest)
  | rest => .ok (none, rest)

/-- The presentation code that is left of a layout when its other marks have been read. -/
def lastCode (layout : List Char) : (rest : List Char) → Except LayoutError Char
  | [] => .ok 's'
  | [c] => .ok c
  | _ => .error (.malformed layout)

/-- The marks of a layout. -/
structure Layout where
  fill : Option Char
  align : Option Align
  sign : Option Char
  zero : Option Char
  alternate : Option Char
  pad : Option Char
  width : Option Nat
  separator : Option Char
  precision : Option Nat
  code : Char

namespace Layout

/-- Reads the marks of a layout, in order.  A padding zero is no mark of its own after a fill
character. -/
def read (layout : List Char) : Except LayoutError Layout := do
  let (fill, align, rest) := leadingAlign layout
  let (sign, rest) := leadingMark (fun c => c = ' ' || c = '+' || c = '-') rest
  let (zero, rest) := leadingMark (· = 'z') rest
  let (alternate, rest) := leadingMark (· = '#') rest
  let (pad, rest) := if fill.isNone then leadingMark (· = '0') rest else (none, rest)
  let (width, rest) ← leadingCount rest
  let (separator, rest) ← leadingSeparator rest
  let (precision, rest) ← leadingPrecision rest
  let code ← lastCode layout rest
  return { fill, align, sign, zero, alternate, pad, width, separator, precision, code }

/-- The first of the marks that does not suit a text. -/
def unsuited? (l : Layout) : Option LayoutError :=
  if let some mark := l.separator.filter (fun mark => !separable mark l.code) then
    some (.separator mark l.code)
  else if l.code ≠ 's' then some (.unknownCode l.code)
  else if let some sign := l.sign then some (if sign = ' ' then .space else .sign)
  else if l.zero.isSome then some .negativeZero
  else if l.alternate.isSome then some .alternate
  else if l.align = some .afterSign then some .afterSign
  else none

/-- The text cut to the precision and filled up to the width. -/
def apply (l : Layout) (text : List Char) : List Char :=
  let cut := match l.precision with
    | some p => text.take p
    | none => text
  fillUp ((l.fill <|> l.pad).getD ' ') (l.align.getD .left) (l.width.getD 0) cut

end Layout

/-- Lays a text out.  A fault in the marks of the layout is reported before what does not suit
a text. -/
def layOut (layout : List Char) (text : List Char) : Except LayoutError (List Char) :=
  if layout.isEmpty then .ok text else do
    let l ← Layout.read layout
    match l.unsuited? with
    | some e => throw e
    | none => return l.apply text

end Nameless.Text
