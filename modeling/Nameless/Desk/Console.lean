/-
Nameless/Desk/Console.lean

The prompt.  A line that leaves parentheses open is kept, and the next line goes on
with it; a finished line is run at once and its results are printed.  Faults are
reported and do not end the dialogue.
-/
import Nameless.Desk.Command
import Nameless.Desk.Work

namespace Nameless

/-- A desk with a prompt: the text of the unfinished line, the number of lines of terms so
far, and the prompt that is shown next. -/
structure Console where
  desk : Desk
  pending : String
  lineNumber : Nat
  prompt : String
deriving Inhabited

namespace Console

/-- The prompt for a new line. -/
def primaryPrompt : String := "> "

/-- The prompt for a line that goes on. -/
def secondaryPrompt : String := ". "

/-- What is printed before the first prompt. -/
def intro : String :=
  "λ-calculus kernel :: De Bruijn indices\nType '?' or 'help' for more information.\n"

/-- A prompt at which nothing has been typed. -/
def start (desk : Desk) : Console := ⟨desk, "", 0, primaryPrompt⟩

/-- Prints a text among the results. -/
def print (c : Console) (text : String) : Console :=
  { c with desk := c.desk.print .results text }

end Console

/-- Work at a prompt. -/
abbrev Dialogue := Act Console

namespace Dialogue

/-- Work at the desk behind the prompt. -/
def atDesk {α : Type} (work : Work α) : Dialogue α :=
  Act.onPart Console.desk (fun desk c => { c with desk := desk }) work

/-- Runs a finished line in other settings and prints its results, guarded. -/
def runFinished (fuel : Nat) (mode? : Option Mode) (prove? : Option Bool) (text : String)
    (line : Int) : Work Unit :=
  Work.guarded do
    Work.withSettings mode? prove? do
      Work.add text line
      Work.run fuel
    Work.printResults

/-- Takes up a line of a term: it is joined to the unfinished line before it, and run if
that finishes it.  Other settings hold only for the line that they are given with. -/
def runLine (fuel : Nat) (mode? : Option Mode) (prove? : Option Bool) (line : String) :
    Dialogue Unit := do
  modify fun c => { c with lineNumber := c.lineNumber + 1 }
  let c ← get
  let text := Draft.tidy (c.pending.toList ++ ' ' :: line.toList)
  if Draft.unfinished text then
    set { c with pending := String.ofList text, prompt := Console.secondaryPrompt }
  else
    set { c with pending := "", prompt := Console.primaryPrompt }
    unless text.isEmpty do
      atDesk (runFinished fuel mode? prove? (String.ofList text) c.lineNumber)

/-- Prints the binary form of a term in hexadecimal, guarded. -/
def encodeLine (text : String) : Work Unit :=
  Work.guarded do
    let t ← Act.ofExcept .read (Term.parse text)
    let bytes ← Act.ofExcept .wideIndex t.encode
    modify fun d => d.print .results (bytesHex " " bytes ++ "\n")

/-- Carries out a command; the answer says whether the dialogue ends. -/
def perform (fuel : Nat) : Command → Dialogue Bool
  | .nothing => return false
  | .term text => do
    runLine fuel none none text
    return false
  | .verb (.run mode) argument => do
    runLine fuel (some mode) none argument
    return false
  | .verb .prove argument => do
    runLine fuel none (some true) argument
    return false
  | .verb .encode argument => do
    atDesk (encodeLine argument)
    return false
  | .verb .help argument => do
    modify (·.print (Command.helpText argument))
    return false
  | .verb .endOfInput _ => do
    modify (·.print "\n")
    return true
  | .verb .exit _ => return true

/-- Carries out a line typed at the prompt. -/
def respond (fuel : Nat) (line : String) : Dialogue Bool :=
  perform fuel (.ofLine line)

/-- Shows the prompt for each line and carries it out, until one ends the dialogue.  After
the last line the input is at its end, which is a command too. -/
def converse (fuel : Nat) : List String → Dialogue Unit
  | [] => do
    modify fun c => c.print c.prompt
    let _ ← respond fuel Verb.endOfInput.name
  | line :: rest => do
    modify fun c => c.print c.prompt
    let stop ← respond fuel line
    unless stop do converse fuel rest

end Dialogue

end Nameless
