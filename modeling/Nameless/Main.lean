/-
Nameless/Main.lean

The command line.  Everything is decided elsewhere: this module reads the file or the
lines that are asked for, hands them over, and prints what comes back.
-/
import Nameless.Desk.Program

namespace Nameless

/-- A bound on the work for one statement that no computation lives to see. -/
def patience : Nat := Nat.pow 2 62

/-- What a path leads to on this machine. -/
def sourceAt (path : String) : IO Work.Source := do
  try
    let content ← IO.FS.readBinFile path
    return .bytes content.toList
  catch _ => return .unreadable

/-- Prints what an action printed and forgets it. -/
def flushDesk (d : Desk) : IO Desk := do
  IO.print (d.output none)
  (← IO.getStdout).flush
  return { d with printed := [] }

/-- The status that a signal ends the program with. -/
def statusOf : Except Signal Unit → UInt32
  | .ok () => 0
  | .error (.exit status) => UInt32.ofNat status
  | .error (.fault _) => 1

/-- Reports a signal that ends a dialogue. -/
def leave (signal : Signal) (d : Desk) : IO UInt32 := do
  let (result, d) := Work.settle signal d
  let _ ← flushDesk d
  return statusOf result

/-- Shows the prompt, reads a line and carries it out, until a line ends the dialogue. -/
partial def talk (input : IO.FS.Stream) (c : Console) : IO UInt32 := do
  let desk ← flushDesk (c.print c.prompt).desk
  let line ← input.getLine
  let text := if line.isEmpty then Verb.endOfInput.name
    else (Program.inputLines line).headD ""
  match (Dialogue.respond patience text).runOn { c with desk := desk } with
  | none => return 1
  | some (.error signal, c) => leave signal c.desk
  | some (.ok stop, c) =>
    let desk ← flushDesk c.desk
    if stop then return 0 else talk input { c with desk := desk }

/-- Holds a dialogue on standard input. -/
def talkWith (style : Style) (options : Options) : IO UInt32 := do
  let desk := Desk.fresh (Program.reporter style .none options)
  match (Program.openFor options promptPath true .unreadable).runOn desk with
  | none => return 1
  | some (.error signal, d) => leave signal d
  | some (.ok (), d) => talk (← IO.getStdin) ((Console.start d).print Console.intro)

/-- Runs a file. -/
def runPath (style : Style) (options : Options) (path : String) : IO UInt32 := do
  let source ← sourceAt path
  match Program.runOptions patience style .none options (fun _ => source) [] with
  | none => return 1
  | some t =>
    IO.print t.output
    match t.ending with
    | .returns => return 0
    | .exits status => return UInt32.ofNat status
    | .fails _ => return 1

end Nameless

open Nameless in
/-- The program. -/
def main (args : List String) : IO UInt32 := do
  let coloured := (← (← IO.getStdout).isTty) && (← IO.getEnv "NO_COLOR").isNone
  let style : Style := if coloured then .terminal else .plain
  match Options.ofArguments args with
  | .help =>
    IO.print Options.helpText
    return UInt32.ofNat Program.helpStatus
  | .faulty =>
    IO.eprint Options.usage
    return UInt32.ofNat Program.faultyStatus
  | .run options =>
    match options.file with
    | some path => runPath style options path
    | none => talkWith style options
