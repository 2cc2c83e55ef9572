/-
Nameless/Desk/Fault.lean

What can stop work on statements.  Some faults are the user's and have a diagnostic;
the others are taken for faults of the program and are known by the name of their
kind and their text.
-/
import Nameless.Report.Reporter
import Nameless.Text.Utf8
import Nameless.Wire
import Nameless.Written.Parse

namespace Nameless

/-- A fault. -/
inductive Fault where
  | read (e : ReadError)
  | unknownMode (name : String)
  | cannotOpen (path : String)
  | reservedPath
  | notText (e : Text.Utf8Error)
  | nulInPath
  | wideIndex (i : Nat)
  | longIndex
  | noResult
  | report (e : Text.TemplateError)

/-- The path that stands for what is typed at the prompt. -/
def promptPath : String := "<in>"

/-- What is said of an index that is too long to be written out. -/
def longIndexMessage : String :=
  s!"Exceeds the limit ({maxDigits} digits) for integer string conversion; " ++
    "use sys.set_int_max_str_digits() to increase the limit"

/-- The name of the kind of a fault in a template. -/
def templateKind : Text.TemplateError → String
  | .argument _ => "IndexError"
  | .position => "IndexError"
  | .noSubject => "IndexError"
  | .name _ => "KeyError"
  | .foreign kind _ => kind
  | .positionKind => "TypeError"
  | _ => "ValueError"

namespace Fault

/-- What a fault is to the reporter. -/
def incident (style : Style) : Fault → Reporter.Incident
  | read (.syntactic text fault) => .diagnosed (fault.diagnostic style text)
  | read (.longNumeral digits) => .unexpected "ValueError" (longNumeralMessage digits)
  | unknownMode name => .diagnosed (.brief ("unknown mode '" ++ style.bold name ++ "'") name)
  | cannotOpen path =>
    .diagnosed (.brief ("'" ++ style.bold path ++ "' could not be opened") path)
  | reservedPath => .diagnosed (.brief ("'" ++ promptPath ++ "' is a reserved filename") "")
  | notText e => .unexpected "UnicodeDecodeError" e.message
  | nulInPath => .unexpected "ValueError" "embedded null byte"
  | wideIndex i => .unexpected "ValueError" (wideIndexMessage i)
  | longIndex => .unexpected "ValueError" longIndexMessage
  | noResult => .unexpected "IndexError" "pop from empty list"
  | report e => .unexpected (templateKind e) e.message

end Fault

/-- What stops an action: a fault, or the end of the program with a status. -/
inductive Signal where
  | fault (f : Fault)
  | exit (status : Nat)

end Nameless
