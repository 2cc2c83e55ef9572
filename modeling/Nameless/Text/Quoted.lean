/-
Nameless/Text/Quoted.lean

Quoted text, as it stands inside messages.  The quotes are single unless the text
has single quotes and no double ones.  The quote itself and the backslash are
escaped by a backslash, line feed, carriage return and tab have names of their own,
and what cannot be printed is given by its code point in two, four or eight
hexadecimal digits.
-/
import Nameless.Text.Printable

namespace Nameless.Text

/-- The last `width` hexadecimal digits of a number, in front of `rest`. -/
def hexOnto : (width : Nat) → Nat → List Char → List Char
  | 0, _, rest => rest
  | w + 1, n, rest => hexOnto w (n / 16) (Nat.digitChar (n % 16) :: rest)

/-- A code point by number, in the shortest of its three forms. -/
def escapeCode (n : Nat) : List Char :=
  if n < 0x100 then '\\' :: 'x' :: hexOnto 2 n []
  else if n < 0x10000 then '\\' :: 'u' :: hexOnto 4 n []
  else '\\' :: 'U' :: hexOnto 8 n []

/-- One character inside the given quotes. -/
def quoteChar (mark c : Char) : List Char :=
  if c = mark || c = '\\' then ['\\', c]
  else if c = '\n' then ['\\', 'n']
  else if c = '\r' then ['\\', 'r']
  else if c = '\t' then ['\\', 't']
  else if isPrintable c then [c]
  else escapeCode c.toNat

/-- The quotes that suit a text. -/
def quoteMark (text : List Char) : Char :=
  if text.contains '\'' && !text.contains '"' then '"' else '\''

/-- Text between quotes. -/
def quote (s : String) : String :=
  let text := s.toList
  let mark := quoteMark text
  String.ofList (mark :: (text.flatMap (quoteChar mark) ++ [mark]))

/-- Text between quotes, where everything beyond ASCII is given by its code point. -/
def quoteAscii (s : String) : String :=
  let text := s.toList
  let mark := quoteMark text
  let escaped := text.flatMap fun c => if c.toNat < 128 then quoteChar mark c else escapeCode c.toNat
  String.ofList (mark :: (escaped ++ [mark]))

end Nameless.Text
