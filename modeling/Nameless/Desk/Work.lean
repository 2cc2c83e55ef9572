/-
Nameless/Desk/Work.lean

Work on a worksheet: opening one on a source, adding statements, running them, and
guarding such work so that what breaks out of it is reported.  Whatever is printed is
kept in order, together with the channel it goes to.

Two things are assumed of the outside.  Printing never fails, whatever the text.  And lines
and paths hold no lone surrogates, that is, no code points that stand for no character and
that could be neither printed nor looked up.
-/
import Nameless.Desk.Action
import Nameless.Desk.Draft
import Nameless.Desk.Sheet

namespace Nameless

/-- Where a text is printed: with the results, or with the reports. -/
inductive Channel where
  | results
  | reports
deriving DecidableEq

/-- A worksheet with its reporter, and what has been printed so far. -/
structure Desk where
  reporter : Reporter
  sheet : Sheet
  printed : List (Channel × String)
deriving Inhabited

namespace Desk

/-- A desk on which nothing has been done. -/
def fresh (reporter : Reporter) : Desk := ⟨reporter, default, []⟩

/-- Prints a text; an empty one leaves no trace. -/
def print (d : Desk) (channel : Channel) (text : String) : Desk :=
  if text = "" then d else { d with printed := d.printed ++ [(channel, text)] }

/-- Everything printed on a channel, or on both. -/
def output (d : Desk) (channel : Option Channel) : String :=
  String.join ((d.printed.filter fun p => channel = none || channel = some p.1).map Prod.snd)

/-- Changes the reporter. -/
def mapReporter (f : Reporter → Reporter) (d : Desk) : Desk :=
  { d with reporter := f d.reporter }

/-- Changes the worksheet. -/
def mapSheet (f : Sheet → Sheet) (d : Desk) : Desk :=
  { d with sheet := f d.sheet }

end Desk

/-- Work at a desk. -/
abbrev Work := Act Desk

namespace Work

/-! ### Written terms -/

/-- The first number with too many digits to be written out. -/
def longIndexBound : Nat := Nat.pow 10 maxDigits

/-- Whether some index of the term has too many digits to be written out. -/
def hasLongIndex : Term → Bool
  | .var i => longIndexBound ≤ i
  | .lam b => hasLongIndex b
  | .app f a => hasLongIndex f || hasLongIndex a

/-- The display notation of a term, if its indices can be written out. -/
def written (t : Term) : Except Fault String :=
  if hasLongIndex t then .error .longIndex else .ok t.display

/-- A term as results show it: a Church numeral as its number, if the settings say so. -/
def shown (s : Settings) (t : Term) : Except Fault String :=
  match s.numerals, t.churchValue? with
  | true, some _ => .ok t.displayNumeral
  | _, _ => written t

/-! ### Statements -/

/-- Reads a statement and queues it.  While it is read, its line is the one being worked on. -/
def add (text : String) (line : Int) : Work Unit := do
  let path := (← get).sheet.path
  modify (Desk.mapReporter (·.enterLine path text line))
  let t ← Act.ofExcept .read (Term.parse text)
  modify (Desk.mapSheet (·.enqueue ⟨line, text, t⟩))
  modify (Desk.mapReporter (·.clearLine path))

/-- Traces a step, if the reporter is verbose. -/
def traceStep (rule : String) (t : Term) : Work Unit := do
  if (← get).reporter.verbose then
    let text ← Act.ofExcept id (written t)
    modify fun d => d.print .reports (d.reporter.traceStep rule text)

/-- Traces steps one after the other. -/
def traceSteps (rule : String) : List Term → Work Unit
  | [] => pure ()
  | t :: rest => do
    traceStep rule t
    traceSteps rule rest

/-- Normalizes a term and traces each term that is reached on the way. -/
def normalizeTracing (rule : String) : (fuel : Nat) → Term → Work Term
  | 0, _ => Act.ofFuel none
  | n + 1, t => do
    let u := t.step
    if u = t then return t
    else
      traceStep rule u
      normalizeTracing rule n u

/-- Runs a term in the settings of the worksheet, tracing its steps. -/
def execute (fuel : Nat) (t : Term) : Work (Term × Option Witness) := do
  let settings := (← get).sheet.settings
  if settings.streams then
    let result ← normalizeTracing settings.mode.rule fuel t
    return (result, none)
  else
    let e ← Act.ofFuel (settings.execute fuel t)
    traceSteps e.rule e.steps
    return (e.result, e.witness)

/-- Verifies a witness against the term of a statement, with a warning if it does not hold. -/
def confirm (fuel : Nat) (s : Statement) (w : Witness) : Work Unit := do
  let holds ← Act.ofFuel ((Proven.mk (.term s.term) w).verify fuel)
  unless holds do
    modify fun d => d.print .reports
      (d.reporter.warningText
        { Diagnostic.brief ("proof for '" ++ d.reporter.style.bold s.text ++ "' failed to verify")
            s.text with pointed := true })

/-- The result of a statement as it is shown: the term, and its witness if results are
proved. -/
def produce (fuel : Nat) (s : Statement) : Work String := do
  let (result, witness?) ← execute fuel s.term
  let settings := (← get).sheet.settings
  let text ← Act.ofExcept id (shown settings result)
  match settings.prove, witness? with
  | true, some w =>
    confirm fuel s w
    if hasLongIndex s.term || hasLongIndex result then Act.raise .longIndex
    return text ++ "\n  " ++ w.display
  | _, _ => return text

/-- Runs one statement and records its result.  An interactive worksheet is done with it
then, whatever happened. -/
def runStatement (fuel : Nat) (s : Statement) : Work Unit := do
  let path := (← get).sheet.path
  modify (Desk.mapReporter (·.enterLine path s.text s.line))
  Act.ensuring
    (do
      let result ← produce fuel s
      modify (Desk.mapSheet (·.record result)))
    (Desk.mapSheet (·.finish s))
  modify (Desk.mapReporter (·.clearLine path))

/-- Runs statements in order. -/
def runStatements (fuel : Nat) : List Statement → Work Unit
  | [] => pure ()
  | s :: rest => do
    runStatement fuel s
    runStatements fuel rest

/-- Runs all statements of the queue in order. -/
def run (fuel : Nat) : Work Unit := do
  runStatements fuel (← get).sheet.queue

/-- Takes the oldest result off the worksheet. -/
def pop : Work String := do
  match (← get).sheet.results with
  | [] => Act.raise .noResult
  | result :: rest =>
    modify (Desk.mapSheet fun s => { s with results := rest })
    return result

/-- Prints all results and takes them off the worksheet. -/
def printResults : Work Unit :=
  modify fun d =>
    let printed := d.sheet.results.foldl (fun d result => d.print .results (result ++ "\n")) d
    printed.mapSheet fun s => { s with results := [] }

/-! ### Opening a worksheet -/

/-- What a path leads to: nothing that can be read, or bytes. -/
inductive Source where
  | unreadable
  | bytes (content : List UInt8)

/-- Adds drafts in order. -/
def addDrafts : List Draft → Work Unit
  | [] => pure ()
  | d :: rest => do
    add (String.ofList d.text) d.line
    addDrafts rest

/-- Opens a worksheet on a path.  The mode must be known; an interactive worksheet makes the
reporter forgiving; the prompt's path is for interactive worksheets alone; and the statements
of any other source are read and queued. -/
def openSheet (path modeName : String) (prove numerals interactive : Bool) (source : Source) :
    Work Unit := do
  match Mode.ofName? modeName with
  | none => Act.raise (.unknownMode modeName)
  | some mode =>
    modify fun d =>
      { d with
        reporter := { d.reporter.clearLine path with fatal := d.reporter.fatal && !interactive }
        sheet := ⟨path, ⟨mode, prove, numerals⟩, interactive, [], []⟩ }
    if path = promptPath then
      unless interactive do Act.raise .reservedPath
    else if path.toList.contains '\x00' then Act.raise .nulInPath
    else
      match source with
      | .unreadable => Act.raise (.cannotOpen path)
      | .bytes content =>
        let text ← Act.ofExcept .notText (Text.decodeUtf8 content)
        addDrafts (Draft.assemble (Text.lines text))

/-! ### Guarding -/

/-- What becomes of a signal: a request to end the program goes on, and a fault is settled
by the reporter. -/
def settle (signal : Signal) (d : Desk) : Except Signal Unit × Desk :=
  match signal with
  | .exit status => (.error (.exit status), d)
  | .fault f =>
    let (text, reporter, verdict) := d.reporter.settle (f.incident d.reporter.style)
    let d' := { d.print .reports text with reporter := reporter }
    match verdict with
    | .settled => (.ok (), d')
    | .goesOn => (.error (.fault f), d')
    | .ends status => (.error (.exit status), d')
    | .failed e => (.error (.fault (.report e)), d')

/-- Does some work and settles what breaks out of it. -/
def guarded (work : Work Unit) : Work Unit :=
  Act.ofFunction fun d =>
    (work.runOn d).map fun (result, d') =>
      match result with
      | .ok () => (.ok (), d')
      | .error signal => settle signal d'

/-- Does some work in other settings, and puts mode and proving back afterwards. -/
def withSettings (mode? : Option Mode) (prove? : Option Bool) (work : Work Unit) : Work Unit := do
  let saved := (← get).sheet.settings
  modify (Desk.mapSheet fun s =>
    { s with settings := { s.settings with
        mode := mode?.getD s.settings.mode, prove := prove?.getD s.settings.prove } })
  Act.ensuring work (Desk.mapSheet fun s =>
    { s with settings := { s.settings with mode := saved.mode, prove := saved.prove } })

end Work

end Nameless
