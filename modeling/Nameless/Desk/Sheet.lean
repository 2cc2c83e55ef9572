/-
Nameless/Desk/Sheet.lean

The worksheet: the statements that wait to be run and the results that wait to be
shown, with the settings that say what running a statement means.
-/
import Nameless.Numeral
import Nameless.Witness.Verify

namespace Nameless

/-- What is done with a statement: it is normalized, reduced by one step, or evaluated. -/
inductive Mode where
  | normalize
  | reduce
  | eval
deriving DecidableEq, Inhabited

namespace Mode

/-- All modes. -/
def all : List Mode := [.normalize, .reduce, .eval]

/-- The name of a mode. -/
def name : Mode → String
  | normalize => "normalize"
  | reduce => "reduce"
  | eval => "eval"

/-- The mode with a name. -/
def ofName? (s : String) : Option Mode :=
  all.find? fun m => m.name = s

/-- The mode that a name is taken for where names are not checked: an unknown name means
evaluation. -/
def ofName (s : String) : Mode :=
  (ofName? s).getD .eval

end Mode

/-- How statements are run: the mode, whether results are proved, and whether Church
numerals are shown as numbers. -/
structure Settings where
  mode : Mode := .normalize
  prove : Bool := false
  numerals : Bool := false
deriving DecidableEq, Inhabited

/-! ### Running a term -/

/-- The name of the rule that the steps of a mode go by. -/
def Mode.rule : Mode → String
  | normalize => "β"
  | reduce => "β"
  | eval => "⇒"

/-- What running a term gives: the term it ends in, a witness of it if there is one, and the
steps on the way with the name of their rule. -/
structure Execution where
  result : Term
  witness : Option Witness
  rule : String
  steps : List Term

/-- Runs a term.  Normalization makes a witness, which keeps every step, only if results are
proved, and passes along the reduction sequence otherwise; the other modes always make their
witness. -/
def Settings.execute (s : Settings) (fuel : Nat) (t : Term) : Option Execution :=
  match s.mode with
  | .normalize =>
    if s.prove then
      (t.trace fuel).map fun steps =>
        ⟨steps.getLastD t, some (.ofSteps t steps), s.mode.rule, steps⟩
    else
      (t.reductions? fuel).map fun items =>
        ⟨items.tail.getLastD t, none, s.mode.rule, items.tail⟩
  | .reduce =>
    let u := t.step
    some ⟨u, some (.ofStep t), s.mode.rule, if u = t then [] else [u]⟩
  | .eval =>
    (t.eval fuel).map fun r =>
      ⟨r.toTerm, some (.eval (.term t) (.outcome r)), s.mode.rule, [r.toTerm]⟩

/-- Whether the steps of a term are traced one by one as they are reached.  This is so where no
witness has to keep them; in any other way of running, they are traced when it has ended. -/
def Settings.streams (s : Settings) : Bool :=
  s.mode = .normalize && !s.prove

/-! ### The worksheet -/

/-- A statement: the number of its line, its text, and the term it denotes. -/
structure Statement where
  line : Int
  text : String
  term : Term

/-- A worksheet.  `interactive` says that statements are typed and run one by one; their
results are then shown at once. -/
structure Sheet where
  path : String
  settings : Settings
  interactive : Bool
  queue : List Statement
  results : List String
deriving Inhabited

namespace Sheet

/-- Puts a statement in the place of the one with its line number, or at the end. -/
def enqueueIn (s : Statement) : List Statement → List Statement
  | [] => [s]
  | r :: rest => if r.line = s.line then s :: rest else r :: enqueueIn s rest

/-- Queues a statement.  Of two with one line number the later one counts, in the place of
the earlier. -/
def enqueue (sheet : Sheet) (s : Statement) : Sheet :=
  { sheet with queue := enqueueIn s sheet.queue }

/-- Takes a statement that was run off the queue of an interactive worksheet.  Other
worksheets keep their statements, and can run them again. -/
def finish (sheet : Sheet) (s : Statement) : Sheet :=
  if sheet.interactive then
    { sheet with queue := sheet.queue.filter fun r => r.line ≠ s.line }
  else sheet

/-- Adds a result after those that wait. -/
def record (sheet : Sheet) (result : String) : Sheet :=
  { sheet with results := sheet.results ++ [result] }

end Sheet

end Nameless
