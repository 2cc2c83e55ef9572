/-
Nameless/Report/Style.lean

Colour in reports.  How a text is set off is left to the style; a plain style leaves it alone,
and the style of a terminal wraps it in escapes, the weight outermost and one reset at the
end.
-/
namespace Nameless

/-- The colours that reports use. -/
inductive Ink where
  | red
  | magenta
  | cyan
deriving DecidableEq

/-- The weights that reports use. -/
inductive Weight where
  | bold
  | dark
deriving DecidableEq

/-- How reports set off a text: in some weight, and perhaps in a colour. -/
structure Style where
  paint : (weight : Weight) → (ink : Option Ink) → (text : String) → String
deriving Inhabited

namespace Style

/-- Leaves every text alone. -/
def plain : Style where
  paint _ _ text := text

/-- The terminal code of a colour. -/
def inkCode : Ink → String
  | .red => "31"
  | .magenta => "35"
  | .cyan => "36"

/-- The terminal code of a weight. -/
def weightCode : Weight → String
  | .bold => "1"
  | .dark => "2"

/-- The escape sequence with the given code. -/
def escape (code : String) : String :=
  "\x1b[" ++ code ++ "m"

/-- Wraps a text in escapes. -/
def terminal : Style where
  paint weight ink text :=
    escape (weightCode weight) ++ (ink.map fun i => escape (inkCode i)).getD "" ++ text
      ++ escape "0"

/-- A text in bold. -/
def bold (s : Style) (text : String) : String :=
  s.paint .bold none text

end Style

end Nameless
