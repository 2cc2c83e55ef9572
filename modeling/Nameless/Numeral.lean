/-
Nameless/Numeral.lean

Church numerals: the number n is the function that applies its first argument n
times to its second.  `Term.church` builds them, `Term.churchValue?` recognises them
and nothing else, and the arithmetic combinators compute with them by reduction.
-/
import Nameless.Term.Display

namespace Nameless.Term

/-- `n` applications of index 1 around `t`. -/
def iterate : Nat → Term → Term
  | 0, t => t
  | n + 1, t => iterate n (app (var 1) t)

/-- The Church numeral of `n`. -/
def church (n : Nat) : Term :=
  lam (lam (iterate n (var 0)))

/-- Counts on from `n` the applications of index 1 around index 0. -/
def countFrom (n : Nat) : Term → Option Nat
  | app f a => if f = var 1 then countFrom (n + 1) a else none
  | t => if t = var 0 then some n else none

/-- The number that the term is the Church numeral of. -/
def churchValue? : Term → Option Nat
  | lam (lam b) => countFrom 0 b
  | _ => none

/-- Display notation, except that a Church numeral is written as its number. -/
def displayNumeral (t : Term) : String :=
  match t.churchValue? with
  | some n => String.ofList (decimal n)
  | none => t.display

/-- Adds one: `λn.λf.λx.f (n f x)`. -/
def succ : Term :=
  lam (lam (lam (app (var 1) (app (app (var 2) (var 1)) (var 0)))))

/-- Adds: `λm.λn.λf.λx.m f (n f x)`. -/
def plus : Term :=
  lam (lam (lam (lam (app (app (var 3) (var 1)) (app (app (var 2) (var 1)) (var 0))))))

/-- Multiplies: `λm.λn.λf.m (n f)`. -/
def mult : Term :=
  lam (lam (lam (app (var 2) (app (var 1) (var 0)))))

end Nameless.Term
