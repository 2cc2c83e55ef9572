/-
Nameless/Report/Reporter.lean

The reporter.  It remembers which line of which source is being worked on, prints
reduction traces, warnings and errors, and decides what becomes of whatever breaks
out of a guarded piece of work: a diagnostic is reported and settled, anything
unexpected is reported as an internal error and goes on, and a fatal reporter ends
the program after a report.
-/
import Nameless.Report.Diagnostic
import Nameless.Datum.Basic

namespace Nameless

/-- What is known of a source: the line being worked on and its number. -/
structure Mark where
  line : Option String
  number : Option Int
deriving DecidableEq, Inhabited

/-- No line. -/
def Mark.none : Mark := ⟨.none, .none⟩

/-- A reporter: whether an error ends the program, whether traces are printed, the style, the
attributes that a template can ask for, and the sources with their marks, in order of
registration. -/
structure Reporter where
  fatal : Bool
  verbose : Bool
  style : Style
  attributes : Text.Attributes
  traceback : List (String × Mark)
deriving Inhabited

namespace Reporter

/-! ### Sources -/

/-- Puts a mark in the place of the path's mark, or at the end. -/
def setMark (path : String) (mark : Mark) : List (String × Mark) → List (String × Mark)
  | [] => [(path, mark)]
  | (p, m) :: rest => if p = path then (p, mark) :: rest else (p, m) :: setMark path mark rest

/-- Marks a source. -/
def mark (r : Reporter) (path : String) (mark : Mark) : Reporter :=
  { r with traceback := setMark path mark r.traceback }

/-- Takes up a line of a source. -/
def enterLine (r : Reporter) (path line : String) (number : Int) : Reporter :=
  r.mark path ⟨some line, some number⟩

/-- Puts the line of a source away, or takes up a source without a line. -/
def clearLine (r : Reporter) (path : String) : Reporter :=
  r.mark path .none

/-- Puts every line away. -/
def clearLines (r : Reporter) : Reporter :=
  { r with traceback := r.traceback.map fun (p, _) => (p, .none) }

/-- The written form of a line number. -/
def numberText : Option Int → String
  | some n => Datum.integerText n
  | none => Datum.absent.quoted

/-! ### Texts of reports -/

/-- One line of a trace: the rule and the outcome. -/
def stepText (r : Reporter) (rule outcome : String) : String :=
  r.style.paint .bold (some Diagnostic.traceInk) ("  " ++ rule ++ "  ")
    ++ r.style.paint .dark none outcome ++ "\n"

/-- What a trace prints for one step: nothing, unless the reporter is verbose. -/
def traceStep (r : Reporter) (rule outcome : String) : String :=
  if r.verbose then r.stepText rule outcome else ""

/-- The place of the line taken up last, before a warning. -/
def location (r : Reporter) : String :=
  match r.traceback.reverse.find? fun (_, m) => m.line.isSome with
  | some (path, m) => path ++ ":" ++ numberText m.number ++ ": "
  | none => ""

/-- A pointer as a line of its own, if the diagnostic shows one. -/
def pointerText (r : Reporter) (severity : Diagnostic.Severity) (d : Diagnostic) : String :=
  if d.showsPointer then d.pointer r.style severity ++ "\n" else ""

/-- What a warning prints. -/
def warningText (r : Reporter) (d : Diagnostic) : String :=
  r.style.bold r.location
    ++ r.style.paint .bold (some Diagnostic.Severity.warning.ink) "warning: "
    ++ d.message ++ "\n" ++ r.pointerText .warning d

/-- The lines being worked on, two lines of text for each. -/
def lineTexts (r : Reporter) : List String :=
  r.traceback.filterMap fun (path, m) =>
    match m.line with
    | some line =>
      if line = "" then none
      else some ("  File '" ++ path ++ "', line " ++ numberText m.number ++ ":\n    " ++ line ++ "\n")
    | none => none

/-- What an error prints: the lines being worked on, under a heading if there are several,
then the message and the pointer. -/
def errorText (r : Reporter) (d : Diagnostic) : String :=
  let red := r.style.paint .bold (some Diagnostic.Severity.error.ink)
  let lines := r.lineTexts
  (if 1 < lines.length then "Traceback:\n" else "") ++ String.join lines
    ++ (if d.internal then red "[internal] " else "") ++ red "error: " ++ d.message ++ "\n"
    ++ r.pointerText .error d

/-! ### Settling what breaks out -/

/-- What can break out of a guarded piece of work: an interrupt, a request to end the
program, a computation that nests too deeply, a diagnostic, or anything else, known by the
name of its kind and its text. -/
inductive Incident where
  | interrupt
  | exit
  | tooDeep
  | diagnosed (d : Diagnostic)
  | unexpected (kind text : String)

/-- What becomes of an incident: it is settled, it goes on, the program ends with a status,
or reporting it failed. -/
inductive Verdict where
  | settled
  | goesOn
  | ends (status : Nat)
  | failed (e : Text.TemplateError)
deriving Inhabited

/-- The status of a program that ends after an error. -/
def errorStatus : Nat := 1

/-- Reports an error: what is printed, the reporter afterwards, and the status if the
program ends. -/
def throw (r : Reporter) (d : Diagnostic) : String × Reporter × Option Nat :=
  if r.fatal then (r.errorText d, r, some errorStatus) else (r.errorText d, r.clearLines, none)

/-- Reports an error that is settled, or else goes on as `after`, unless the program ends. -/
def report (r : Reporter) (d : Diagnostic) (after : Verdict) : String × Reporter × Verdict :=
  match r.throw d with
  | (text, r', some status) => (text, r', .ends status)
  | (text, r', none) => (text, r', after)

/-- Settles an incident: what is printed, the reporter afterwards, and the verdict.  The
text of something unexpected is filled in like any template. -/
def settle (r : Reporter) : Incident → String × Reporter × Verdict
  | .interrupt => r.report (.brief "keyboard interrupt" "") .settled
  | .tooDeep => r.report (.brief "maximum recursion depth exceeded" "") .settled
  | .exit => ("", r, .goesOn)
  | .diagnosed d => r.report d .settled
  | .unexpected kind text =>
    match Diagnostic.ofTemplate r.style r.attributes
        ("unknown error: '" ++ kind ++ ": " ++ text ++ "'") [""] 0 (-1) true true with
    | .ok d => r.report d .goesOn
    | .error e => ("", r, .failed e)

end Reporter

end Nameless
