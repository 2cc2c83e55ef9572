/-
Nameless/Desk/Options.lean

The command line.  Options begin with two hyphens and may stand before or after the
file; their names may be shortened, since no two begin alike.  Two hyphens alone end
the options.  The arguments are taken from left to right: a request for help and the
first fault each end the reading at once, while surplus and unknown arguments are
faults only when everything has been read.
-/
import Nameless.Desk.Sheet
import Nameless.Text.Character

namespace Nameless

/-- What the command line asks for: the file to run, if there is one, how to run it, and
whether steps are traced. -/
structure Options where
  file : Option String := none
  settings : Settings := {}
  trace : Bool := false
deriving Inhabited

/-- What becomes of a command line: it is understood, it asks for help, or it is faulty. -/
inductive Invocation where
  | run (options : Options)
  | help
  | faulty

namespace Options

/-- The options of the command line. -/
inductive Flag where
  | help
  | mode
  | trace
  | prove
  | numerals
deriving DecidableEq

namespace Flag

/-- All options. -/
def all : List Flag := [.help, .mode, .trace, .prove, .numerals]

/-- The long name of an option. -/
def name : Flag → List Char
  | help => "--help".toList
  | mode => "--mode".toList
  | trace => "--trace".toList
  | prove => "--prove".toList
  | numerals => "--numerals".toList

/-- The short name of the request for help. -/
def shortHelp : List Char := "-h".toList

/-- The options whose names begin with the given text. -/
def beginning (text : List Char) : List Flag :=
  all.filter fun f => text.isPrefixOf f.name

end Flag

/-! ### Arguments -/

/-- What an argument is: an option, perhaps with a value after an equals sign; a short
option with more letters after it; an unknown option; one that could be several; or a
plain argument. -/
inductive Argument where
  | flag (f : Flag) (value : Option (List Char))
  | shortHelp (more : List Char)
  | unknown
  | ambiguous
  | plain
deriving DecidableEq

/-- Whether a text is a negative number, with or without a fraction. -/
def isNegativeNumber : List Char → Bool
  | '-' :: rest =>
    let whole := rest.takeWhile Text.isDigit
    match rest.dropWhile Text.isDigit with
    | [] => !whole.isEmpty
    | '.' :: fraction => !fraction.isEmpty && fraction.all Text.isDigit
    | _ => false
  | _ => false

/-- What an argument that begins with a hyphen and is no known name can be. -/
def classifyOther (text : List Char) : Argument :=
  if isNegativeNumber text || text.contains ' ' then .plain else .unknown

/-- The text before an equals sign, and the text after it if there is one. -/
def splitValue (text : List Char) : List Char × Option (List Char) :=
  (text.takeWhile (· ≠ '='), match text.dropWhile (· ≠ '=') with
    | [] => none
    | _ :: value => some value)

/-- What an argument is. -/
def classify (text : List Char) : Argument :=
  match text with
  | [] => .plain
  | ['-'] => .plain
  | '-' :: '-' :: _ =>
    let (name, value) := splitValue text
    match Flag.all.find? (fun f => f.name = text), Flag.beginning name with
    | some f, _ => .flag f none
    | none, [f] => .flag f value
    | none, [] => classifyOther text
    | none, _ => .ambiguous
  | '-' :: 'h' :: more => .shortHelp more
  | '-' :: _ => classifyOther text
  | _ => .plain

/-! ### Reading -/

/-- What has been read so far: the options, whether one of them came after the file, and
whether there are arguments that do not belong. -/
structure Progress where
  options : Options := {}
  settled : Bool := false
  surplus : Bool := false

/-- Takes a plain argument: the first one is the file. -/
def Progress.takePlain (p : Progress) (text : List Char) : Progress :=
  match p.options.file with
  | none => { p with options := { p.options with file := some (String.ofList text) } }
  | some _ => { p with surplus := true }

/-- Takes an option, which changes the options so far. -/
def Progress.takeOption (p : Progress) (change : Options → Options) : Progress :=
  { p with options := change p.options, settled := p.settled || p.options.file.isSome }

/-- Changes the settings among the options. -/
def mapSettings (change : Settings → Settings) (o : Options) : Options :=
  { o with settings := change o.settings }

/-- Sets the mode, which must be known. -/
def Progress.setMode (p : Progress) (name : List Char) : Option Progress :=
  (Mode.ofName? (String.ofList name)).map fun m =>
    p.takeOption (mapSettings ({ · with mode := m }))

/-- The outcome when all arguments are read. -/
def Progress.finish (p : Progress) : Invocation :=
  if p.surplus then .faulty else .run p.options

/-- Takes two hyphens and the arguments after them, which are all plain.  Two hyphens
belong to the file: they do not belong when an option has come between. -/
def readPlain (p : Progress) (args : List (List Char)) : Invocation :=
  (args.foldl Progress.takePlain { p with surplus := p.surplus || p.settled }).finish

/-- Whether what follows the short request for help does not spoil it: after more of the
same letter there is neither a value nor a hyphen. -/
def isIgnorable (more : List Char) : Bool :=
  match more.dropWhile (· = 'h') with
  | '=' :: _ => false
  | '-' :: _ => false
  | _ => true

/-- Reads arguments from left to right. -/
def readFrom (p : Progress) : List (List Char) → Invocation
  | [] => p.finish
  | ['-', '-'] :: rest => readPlain p rest
  | text :: rest =>
    match classify text with
    | .plain => readFrom (p.takePlain text) rest
    | .unknown => readFrom { p with surplus := true } rest
    | .ambiguous => .faulty
    | .shortHelp more => if isIgnorable more then .help else .faulty
    | .flag .help none => .help
    | .flag .mode (some value) =>
      match p.setMode value with
      | some p' => readFrom p' rest
      | none => .faulty
    | .flag .mode none =>
      match rest with
      | [] => .faulty
      | value :: rest' =>
        if value = ['-', '-'] || classify value ≠ .plain then .faulty
        else
          match p.setMode value with
          | some p' => readFrom p' rest'
          | none => .faulty
    | .flag .trace none => readFrom (p.takeOption ({ · with trace := true })) rest
    | .flag .prove none => readFrom (p.takeOption (mapSettings ({ · with prove := true }))) rest
    | .flag .numerals none =>
      readFrom (p.takeOption (mapSettings ({ · with numerals := true }))) rest
    | .flag _ (some _) => .faulty

/-- What a command line asks for.  An argument that could be several options is a fault
before anything else. -/
def ofArguments (args : List String) : Invocation :=
  let texts := args.map String.toList
  if (texts.takeWhile (· ≠ ['-', '-'])).any (fun t => classify t = .ambiguous) then .faulty
  else readFrom {} texts

/-! ### Help -/

/-- How the program is called. -/
def usage : String :=
  "usage: lckernel [-h] [--mode \x7bnormalize,reduce,eval\x7d] [--trace] [--prove]\n"
    ++ "                [--numerals]\n"
    ++ "                [file]\n"

/-- The help that the command line gives on request. -/
def helpText : String :=
  usage
    ++ "\nDe Bruijn λ-calculus kernel\n\n"
    ++ "positional arguments:\n"
    ++ "  file                  file of terms to run (if empty, goes to command-line\n"
    ++ "                        mode)\n\n"
    ++ "options:\n"
    ++ "  -h, --help            show this help message and exit\n"
    ++ "  --mode \x7bnormalize,reduce,eval\x7d\n"
    ++ "                        what to do with each term (default: normalize)\n"
    ++ "  --trace               print every reduction step\n"
    ++ "  --prove               attach, verify and print a proof of every result\n"
    ++ "  --numerals            print Church numerals as numbers\n"

end Options

end Nameless
