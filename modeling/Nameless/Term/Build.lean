/-
Nameless/Term/Build.lean

Building terms from items, where an item that does not fit is refused.  Items are
checked from left to right, and the first that does not fit is the one reported.
-/
import Nameless.Datum.Basic
import Nameless.Term.Shift
import Nameless.Numeral

namespace Nameless

/-- Why a term cannot be built. -/
inductive BuildError where
  | indexKind (got : Item)
  | indexNegative (got : Int)
  | body (got : Datum)
  | child (got : Datum)
  | tooFew (expected got : Nat)
  | tooMany (expected : Nat)
  | notNatural (got : Datum)

namespace BuildError

/-- The wording of a refusal. -/
def message : BuildError → String
  | indexKind i => "De Bruijn index must be an int, got " ++ i.quoted
  | indexNegative n => "De Bruijn index must be non-negative, got " ++ Datum.integerText n
  | body d => "abstraction body must be a λ-term, got " ++ d.quoted
  | child d => "application children must be λ-terms, got " ++ d.quoted
  | tooFew expected got => s!"not enough values to unpack (expected {expected}, got {got})"
  | tooMany expected => s!"too many values to unpack (expected {expected})"
  | notNatural d => "expected natural number, got " ++ d.quoted

/-- An index below zero, as a refusal. -/
def ofNegative (e : NegativeIndex) : BuildError :=
  indexNegative e.got

end BuildError

namespace Term

/-- The variable whose index is the given item. -/
def varOf : Item → Except BuildError Term
  | .datum (.whole n) => (ofIndex n).mapError .ofNegative
  | item => .error (.indexKind item)

/-- The abstraction over the given item. -/
def lamOf : Item → Except BuildError Term
  | .term b => .ok (lam b)
  | .datum d => .error (.body d)

/-- The application of one item to another. -/
def appOf : Item → Item → Except BuildError Term
  | .term f, .term a => .ok (app f a)
  | .datum d, _ => .error (.child d)
  | .term _, .datum d => .error (.child d)

/-- A term of the same form with other sub-terms.  A variable has none and stays as it is. -/
def rebuild (t : Term) (nodes : List Item) : Except BuildError Term :=
  match t, nodes with
  | var i, _ => .ok (var i)
  | lam _, [b] => lamOf b
  | lam _, [] => .error (.tooFew 1 0)
  | lam _, _ => .error (.tooMany 1)
  | app _ _, [f, a] => appOf f a
  | app _ _, [] => .error (.tooFew 2 0)
  | app _ _, [_] => .error (.tooFew 2 1)
  | app _ _, _ => .error (.tooMany 2)

/-- The Church numeral of the number that a value is. -/
def churchOf (d : Datum) : Except BuildError Term :=
  match d.toNat? with
  | some n => .ok (church n)
  | none => .error (.notNatural d)

/-- The name of the term's form. -/
def form : Term → String
  | var _ => "Variable"
  | lam _ => "Abstraction"
  | app _ _ => "Application"

/-- What is said when a part of a term is to be changed in place: terms never change. -/
def immutableMessage (t : Term) : String :=
  t.form ++ " is immutable"

end Term

end Nameless
