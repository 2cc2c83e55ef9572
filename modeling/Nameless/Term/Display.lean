/-
Nameless/Term/Display.lean

The two written forms of a term.  Display notation is what people read and type:
an index is its decimal numeral, an abstraction is `λx.` before its body, and an
application stands in parentheses with one space between its parts.  Constructor
notation spells out the tree and appears in messages about values.

Both are written back to front onto a text that is already there, so the work is
linear in the length of the result.
-/
import Nameless.Term.Basic

namespace Nameless.Term

/-- Every binder is written the same way, whatever its depth. -/
def binder : List Char := ['λ', 'x']

/-- The decimal numeral of a natural number. -/
def decimal (n : Nat) : List Char :=
  Nat.toDigits 10 n

/-- Display notation, written in front of `rest`. -/
def displayOnto : Term → List Char → List Char
  | var i, rest => decimal i ++ rest
  | lam b, rest => binder ++ '.' :: b.displayOnto rest
  | app f a, rest => '(' :: f.displayOnto (' ' :: a.displayOnto (')' :: rest))

/-- Display notation. -/
def display (t : Term) : String :=
  String.ofList (t.displayOnto [])

/-- Constructor notation, written in front of `rest`. -/
def constructorsOnto : Term → List Char → List Char
  | var i, rest => "Var(".toList ++ decimal i ++ ')' :: rest
  | lam b, rest => "Lam(".toList ++ b.constructorsOnto (')' :: rest)
  | app f a, rest =>
    "App(".toList ++ f.constructorsOnto (',' :: ' ' :: a.constructorsOnto (')' :: rest))

/-- Constructor notation. -/
def constructors (t : Term) : String :=
  String.ofList (t.constructorsOnto [])

instance : ToString Term := ⟨display⟩

instance : Repr Term := ⟨fun t _ => t.constructors⟩

end Nameless.Term
