/-
Nameless/Datum/Basic.lean

Plain values that may turn up where a term was expected: nothing, truth values,
whole numbers, binary fractions, texts and lists of such values.  Numbers are equal
by value, whatever their kind, and a truth value counts as zero or one; every other
kind is equal only to its own.

`Item` is what an operation is offered: a term or a plain value.  Values of other kinds are
left out, and with them every value with an equality of its own, which could equal a term.
-/
import Nameless.Datum.Binary64
import Nameless.Term.Display
import Nameless.Text.Quoted

namespace Nameless

/-- A plain value. -/
inductive Datum where
  | absent
  | truth (b : Bool)
  | whole (n : Int)
  | real (x : Binary64)
  | text (s : String)
  | listing (items : List Datum)
deriving Inhabited

namespace Datum

/-- The name of the value's kind. -/
def kind : Datum → String
  | absent => "NoneType"
  | truth _ => "bool"
  | whole _ => "int"
  | real _ => "float"
  | text _ => "str"
  | listing _ => "list"

/-- The whole number that a value is equal to. -/
def toInt? : Datum → Option Int
  | truth b => some (if b then 1 else 0)
  | whole n => some n
  | real x => x.toInt?
  | _ => none

/-- A natural number, and not a truth value or a fraction that happens to equal one. -/
def toNat? : Datum → Option Nat
  | whole n => if n < 0 then none else some n.toNat
  | _ => none

mutual

/-- Equality of values. -/
def same : Datum → Datum → Bool
  | absent, absent => true
  | text s, text s' => s == s'
  | listing xs, listing ys => sameAll xs ys
  | real x, real y => x == y || (x.significand == 0 && y.significand == 0)
  | x, y =>
    match x.toInt?, y.toInt? with
    | some m, some n => m == n
    | _, _ => false

/-- Equality of lists of values. -/
def sameAll : List Datum → List Datum → Bool
  | [], [] => true
  | x :: xs, y :: ys => x.same y && sameAll xs ys
  | _, _ => false

end

/-- The decimal numeral of an integer. -/
def integerText (n : Int) : String :=
  if n < 0 then "-" ++ String.ofList (Term.decimal n.natAbs) else String.ofList (Term.decimal n.natAbs)

mutual

/-- The written form of a value in which texts are quoted. -/
def quoted : Datum → String
  | absent => "None"
  | truth b => if b then "True" else "False"
  | whole n => integerText n
  | real x => x.display
  | text s => Text.quote s
  | listing xs => "[" ++ ", ".intercalate (quotedAll xs) ++ "]"

/-- The written forms of a list of values. -/
def quotedAll : List Datum → List String
  | [] => []
  | x :: xs => x.quoted :: quotedAll xs

end

/-- The written form of a value in which a text stands for itself. -/
def plain : Datum → String
  | text s => s
  | d => d.quoted

end Datum

/-- A term, or a plain value in its place. -/
inductive Item where
  | term (t : Term)
  | datum (d : Datum)
deriving Inhabited

namespace Item

/-- The term that an item is. -/
def term? : Item → Option Term
  | term t => some t
  | datum _ => none

/-- Equality of items.  A term never equals a plain value. -/
def same : Item → Item → Bool
  | term t, term u => t == u
  | datum d, datum e => d.same e
  | _, _ => false

/-- A term in constructor notation, or a quoted value. -/
def quoted : Item → String
  | term t => t.constructors
  | datum d => d.quoted

/-- A term in display notation, or a plain value. -/
def plain : Item → String
  | term t => t.display
  | datum d => d.plain

end Item

end Nameless
