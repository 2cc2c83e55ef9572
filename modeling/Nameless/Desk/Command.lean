/-
Nameless/Desk/Command.lean

Commands typed at the prompt.  A line that begins with the name of a command is that
command with the rest of the line as its argument; a question mark asks for help; and
any other line is a term to be run as the settings say.  The name is the longest run
of ASCII letters, digits and underscores at the head of the line.
-/
import Nameless.Desk.Sheet
import Nameless.Text.Character

namespace Nameless

/-- The names that begin a command. -/
inductive Verb where
  | run (mode : Mode)
  | prove
  | encode
  | help
  | endOfInput
  | exit
deriving DecidableEq

namespace Verb

/-- All commands. -/
def all : List Verb :=
  [.run .normalize, .run .reduce, .run .eval, .prove, .encode, .help, .endOfInput, .exit]

/-- The name of a command. -/
def name : Verb → String
  | run mode => mode.name
  | prove => "prove"
  | encode => "encode"
  | help => "help"
  | endOfInput => "EOF"
  | exit => "exit"

/-- The command with a name. -/
def ofName? (s : String) : Option Verb :=
  all.find? fun v => v.name = s

/-- What the help for a command says. -/
def description : Verb → String
  | run .normalize => "normalize <term>: reduce to normal form."
  | run .reduce => "reduce <term>: perform one normal-order β-reduction step."
  | run .eval => "eval <term>: evaluate call-by-value in the empty environment."
  | prove =>
    "prove <term>: run in the session's mode, then attach, verify and print a proof of the result."
  | encode => "encode <term>: print the binary encoding of a term as hex."
  | help => "Doesnt return docs for plain input, but rather a short intro."
  | endOfInput => "Exits kernel shell."
  | exit => "Exits kernel shell."

end Verb

/-- A line typed at the prompt: nothing, a term, or a command with its argument. -/
inductive Command where
  | nothing
  | term (text : String)
  | verb (v : Verb) (argument : String)
deriving DecidableEq

namespace Command

/-- Whether a character may be part of the name of a command. -/
def isNameChar (c : Char) : Bool :=
  c.isAlphanum || c = '_'

/-- A line whose blanks at both ends are gone, as a command. -/
def ofTrimmed (line : List Char) : Command :=
  let name := String.ofList (line.takeWhile isNameChar)
  match Verb.ofName? name with
  | some v => .verb v (String.ofList (Text.trim (line.dropWhile isNameChar)))
  | none => .term (String.ofList line)

/-- The command that a line is. -/
def ofLine (line : String) : Command :=
  match Text.trim line.toList with
  | [] => .nothing
  | '?' :: rest => ofTrimmed ("help ".toList ++ rest)
  | text => ofTrimmed text

/-- The help on a topic, which is a command or else unknown. -/
def helpText (topic : String) : String :=
  if topic = "" then
    "Welcome to the λ-calculus kernel!\n\n"
      ++ "Terms use De Bruijn indices: a variable is the number of binders between it \n"
      ++ "and the λ that binds it. Try '(λx.0 5)': the identity applied to the free \n"
      ++ "variable 5, which normalizes to '5'. Try 'λx.λx.1' for the constant function.\n\n"
      ++ "Commands: normalize, reduce, eval, prove, encode, exit. Plain input runs in \n"
      ++ "the mode the kernel was started with.\n"
  else
    match Verb.ofName? topic with
    | some v => v.description ++ "\n"
    | none => "*** No help on " ++ topic ++ "\n"

end Command

end Nameless
