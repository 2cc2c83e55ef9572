/-
Nameless/Desk/Program.lean

The program: it runs a file of statements and prints their results, or holds a
dialogue at the prompt.  All of it is guarded, so a fault in a file ends the program
with a report and a status, and prints no result.
-/
import Nameless.Desk.Console
import Nameless.Desk.Options

namespace Nameless

/-- How the program ends: by itself, with a status, or by a fault that goes on. -/
inductive Ending where
  | returns
  | exits (status : Nat)
  | fails (f : Fault)

/-- What the program prints and how it ends. -/
structure Transcript where
  output : String
  ending : Ending

namespace Program

/-- The status after help. -/
def helpStatus : Nat := 0

/-- The status after a faulty command line. -/
def faultyStatus : Nat := 2

/-- The reporter that the program starts with. -/
def reporter (style : Style) (attributes : Text.Attributes) (options : Options) : Reporter :=
  ⟨true, options.trace, style, attributes, []⟩

/-- Opens the worksheet that the options ask for. -/
def openFor (options : Options) (path : String) (interactive : Bool) (source : Work.Source) :
    Work Unit :=
  Work.openSheet path options.settings.mode.name options.settings.prove options.settings.numerals
    interactive source

/-- Runs the statements of a file and then prints the results. -/
def runFile (fuel : Nat) (options : Options) (path : String) (source : Work.Source) :
    Work Unit := do
  openFor options path false source
  Work.run fuel
  Work.printResults

/-- Holds a dialogue over the given lines. -/
def dialogue (fuel : Nat) (options : Options) (lines : List String) : Dialogue Unit := do
  Dialogue.atDesk (openFor options promptPath true .unreadable)
  modify (·.print Console.intro)
  Dialogue.converse fuel lines

/-- The dialogue as work at its desk. -/
def dialogueWork (fuel : Nat) (options : Options) (lines : List String) : Work Unit :=
  Act.ofFunction fun d =>
    ((dialogue fuel options lines).runOn (.start d)).map fun (result, c) => (result, c.desk)

/-- What guarded work prints and how it ends. -/
def transcript (work : Work Unit) (desk : Desk) : Option Transcript :=
  ((Work.guarded work).runOn desk).map fun (result, d) =>
    ⟨d.output none, match result with
      | .ok () => .returns
      | .error (.exit status) => .exits status
      | .error (.fault f) => .fails f⟩

/-- The program with understood options: on a file, or at the prompt. -/
def runOptions (fuel : Nat) (style : Style) (attributes : Text.Attributes) (options : Options)
    (files : String → Work.Source) (lines : List String) : Option Transcript :=
  let desk := Desk.fresh (reporter style attributes options)
  match options.file with
  | some path => transcript (runFile fuel options path (files path)) desk
  | none => transcript (dialogueWork fuel options lines) desk

/-- The program. -/
def run (fuel : Nat) (style : Style) (attributes : Text.Attributes) (args : List String)
    (files : String → Work.Source) (lines : List String) : Option Transcript :=
  match Options.ofArguments args with
  | .help => some ⟨Options.helpText, .exits helpStatus⟩
  | .faulty => some ⟨"", .exits faultyStatus⟩
  | .run options => runOptions fuel style attributes options files lines

/-- The lines of an input: each ends with a line feed, and the last one may end with the
input. -/
def inputLines (input : String) : List String :=
  match (input.splitOn "\n").reverse with
  | "" :: rest => rest.reverse
  | lines => lines.reverse

end Program

end Nameless
