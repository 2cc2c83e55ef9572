/-
Nameless/Reduction/Battery.lean

A fixed battery of checks on reduction: normal forms are stable, single steps give
the expected reducts without capture, normal terms stay as they are, substitution
into a shifted term undoes the shift, and no step brings in a free index.
`Term.batteryPasses` runs all of it.
-/
import Nameless.Reduction.Normalize

namespace Nameless.Term

/-- Terms with a normal form, the last of which needs the outermost redex to go first. -/
def normalizing : List Term :=
  [app identity (var 1),
   app (app constant (var 0)) (var 1),
   app (lam (app (var 0) identity)) identity,
   lam (app identity (app (var 1) (var 0))),
   app (app constant identity) omega]

/-- Terms with the outcome of one step: the identity, a free index that must not be
captured, an index that drops past the removed binder, one under a binder, and the
leftmost of two choices. -/
def singleSteps : List (Term × Term) :=
  [(app identity (app (var 1) (var 2)), app (var 1) (var 2)),
   (app constant (var 0), lam (var 1)),
   (app (lam (var 1)) (var 5), var 0),
   (app (lam (lam (app (var 1) (var 0)))) (var 0), lam (app (var 1) (var 0))),
   (app (app constant (var 0)) (var 1), app (lam (var 1)) (var 1))]

/-- Terms in normal form. -/
def normalTerms : List Term :=
  [var 0, var 7, identity, app (var 0) (var 1), lam (app (var 2) (lam (var 0)))]

/-- A bound that every normal form of the battery is reached within. -/
def batteryFuel : Nat := 16

/-- Every free index of `t` is one of `u`. -/
def freeWithin (t u : Term) : Bool :=
  t.freeIndices.all fun k => u.freeIndices.contains k

/-- The normal form of a term of the battery. -/
def batteryNormal (t : Term) : Option Term :=
  t.normalize batteryFuel

/-- Whether every check of the battery holds. -/
def batteryPasses : Bool :=
  normalizing.all (fun t => (batteryNormal t).any fun n => batteryNormal n == some n)
  && batteryNormal (app (app constant (var 0)) (var 1)) == some (var 0)
  && batteryNormal (app (app constant identity) omega) == some identity
  && singleSteps.all (fun (t, u) => t.step == u)
  && normalTerms.all (fun t => t.step == t && batteryNormal t == some t)
  && (normalizing ++ normalTerms).all (fun t => (t.shift 0 1).subst 0 (var 9) == t)
  && (normalizing ++ singleSteps.map Prod.fst).all (fun t => t.step.freeWithin t)
  && lam (var 0) == lam (var 0)
  && lam (var 0) != lam (var 1)
  && step (app identity (var 0)) == step (app identity (var 0))

end Nameless.Term
