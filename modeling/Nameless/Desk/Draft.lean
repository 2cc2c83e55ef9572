/-
Nameless/Desk/Draft.lean

Statements as they are written.  A comment begins with two semicolons and goes on to
the end of its line; blanks at both ends of a line do not count.  A line with more
opening than closing parentheses is not finished, and the next line goes on with it
after one space.  `Draft.assemble` brings the lines of a source together into the
texts of its statements, each with the number of its first line.
-/
import Nameless.Text.Character

namespace Nameless

/-- The text of a statement and the number of the line it begins on. -/
structure Draft where
  text : List Char
  line : Nat
deriving DecidableEq, Inhabited

namespace Draft

/-- The sign of a comment. -/
def commentSign : List Char := [';', ';']

/-- A line without its comment. -/
def cutComment : List Char → List Char
  | [] => []
  | c :: rest => if commentSign <+: c :: rest then [] else c :: cutComment rest

/-- A line without its comment and without the blanks at both ends. -/
def tidy (line : List Char) : List Char :=
  Text.trim (cutComment line)

/-- Whether a text has more opening than closing parentheses. -/
def unfinished (text : List Char) : Bool :=
  text.count ')' < text.count '('

/-- Takes up one line: the text of the statement it belongs to, and the drafts, newest
first.  A line that goes on with the newest draft is joined to it; a line with nothing on
it begins no draft. -/
def take (goesOn : Bool) (drafts : List Draft) (number : Nat) (line : List Char) :
    List Char × List Draft :=
  match goesOn, drafts with
  | true, d :: rest =>
    let text := Text.trim (d.text ++ ' ' :: tidy line)
    (text, ⟨text, d.line⟩ :: rest)
  | _, _ =>
    let text := tidy line
    if text.isEmpty then (text, drafts) else (text, ⟨text, number⟩ :: drafts)

/-- Takes up lines one after the other, numbered from `number` on. -/
def assembleFrom (goesOn : Bool) (drafts : List Draft) (number : Nat) :
    List (List Char) → List Draft
  | [] => drafts.reverse
  | line :: rest =>
    let (text, drafts) := take goesOn drafts number line
    assembleFrom (unfinished text) drafts (number + 1) rest

/-- The statements of a source, in order. -/
def assemble (lines : List (List Char)) : List Draft :=
  assembleFrom false [] 1 lines

end Draft

end Nameless
