/-
Nameless/Reduction/Normalize.lean

Iterated normal-order reduction.  Reduction stops at the first term that a step
leaves as it is: a normal form, or a term whose first redex contracts to itself.
Not every term gets there, so each function takes a bound on the number of steps
and answers `none` when the bound runs out first; a larger bound never changes an
answer that is there.
-/
import Nameless.Reduction.Redex

namespace Nameless.Term

/-- The first `limit` terms of the reduction sequence of `t`, beginning with `t` itself. -/
def reductions : (limit : Nat) → Term → List Term
  | 0, _ => []
  | n + 1, t =>
    let u := t.step
    if u = t then [t] else t :: reductions n u

/-- The whole reduction sequence of `t`, if it has at most `limit` terms. -/
def reductions? (limit : Nat) (t : Term) : Option (List Term) :=
  let items := t.reductions limit
  if items.getLast?.any fun u => u.step = u then some items else none

/-- The term at which reduction stops, if it does so within `fuel` steps. -/
def normalize : (fuel : Nat) → Term → Option Term
  | 0, _ => none
  | n + 1, t =>
    let u := t.step
    if u = t then some t else normalize n u

/-- The terms after `t` in its reduction sequence, newest first in front of `passed`, if
reduction stops within `fuel` steps. -/
def traceOnto : (fuel : Nat) → (passed : List Term) → Term → Option (List Term)
  | 0, _, _ => none
  | n + 1, passed, t =>
    let u := t.step
    if u = t then some passed else traceOnto n (u :: passed) u

/-- The terms after `t` in its reduction sequence, in order, if reduction stops within
`fuel` steps. -/
def trace (fuel : Nat) (t : Term) : Option (List Term) :=
  (traceOnto fuel [] t).map List.reverse

end Nameless.Term
