/-
Nameless/Report/Diagnostic.lean

Diagnostics: a message about an expression, with the stretch of the expression that
it is about.  A diagnostic can be shown with a pointer, which repeats the expression
and underlines the stretch.

The stretch is cut out at integer positions.  A negative position counts from the end, and
positions beyond an end stand for that end, so every cut exists.
-/
import Nameless.Report.Style
import Nameless.Text.Template

namespace Nameless

/-! ### Cutting text -/

namespace Text

/-- The place in a text of length `n` that an integer position stands for. -/
def place (n : Nat) (i : Int) : Nat :=
  if i < 0 then (i + n).toNat else min i.toNat n

/-- The text before a position. -/
def before (text : List Char) (stop : Int) : List Char :=
  text.take (place text.length stop)

/-- The text from a position on. -/
def since (text : List Char) (start : Int) : List Char :=
  text.drop (place text.length start)

/-- The text between two positions. -/
def between (text : List Char) (start stop : Int) : List Char :=
  (text.take (place text.length stop)).drop (place text.length start)

end Text

/-! ### Diagnostics -/

/-- A message about an expression.  `start` and `stop` delimit the offending stretch,
`pointed` says whether a pointer may be shown, and `internal` marks a message about the
program itself. -/
structure Diagnostic where
  message : String
  subject : String
  start : Int
  stop : Int
  pointed : Bool
  internal : Bool
deriving DecidableEq, Inhabited

namespace Diagnostic

/-- The roles that a diagnostic can be reported in. -/
inductive Severity where
  | error
  | warning
deriving DecidableEq

/-- Errors are red, warnings magenta. -/
def Severity.ink : Severity → Ink
  | error => .red
  | warning => .magenta

/-- The colour of reduction traces. -/
def traceInk : Ink := .cyan

/-- A diagnostic without a pointer, about its first expression. -/
def brief (message subject : String) : Diagnostic where
  message := message
  subject := subject
  start := 0
  stop := subject.length
  pointed := false
  internal := false

/-- Fills the subjects, in bold, into a template.  The first of them is the offending
expression, and a stop of -1 stands for its end. -/
def ofTemplate (style : Style) (attributes : Text.Attributes) (template : String)
    (subjects : List String) (start stop : Int) (pointed internal : Bool) :
    Except Text.TemplateError Diagnostic := do
  let message ← Text.fillTemplate attributes template (subjects.map style.bold)
  match subjects with
  | [] => throw .noSubject
  | subject :: _ =>
    return {
      message := message
      subject := subject
      start := start
      stop := if stop = -1 then subject.length else stop
      pointed := pointed
      internal := internal }

/-- The expression with the offending stretch marked, and a line below that underlines it.
The stretch has at least one character. -/
def pointer (style : Style) (severity : Severity) (d : Diagnostic) : String :=
  let text := d.subject.toList
  let stop := max d.stop (d.start + 1)
  let mark (t : List Char) := style.paint .bold (some severity.ink) (String.ofList t)
  let spaces (n : Int) := String.ofList (List.replicate n.toNat ' ')
  "  " ++ String.ofList (Text.before text d.start) ++ mark (Text.between text d.start stop)
    ++ String.ofList (Text.since text stop) ++ "\n  " ++ spaces d.start
    ++ mark ('^' :: List.replicate (stop - d.start - 1).toNat '~')

/-- Whether a report shows the pointer. -/
def showsPointer (d : Diagnostic) : Bool :=
  !d.internal && d.subject ≠ "" && d.pointed

end Diagnostic

end Nameless
