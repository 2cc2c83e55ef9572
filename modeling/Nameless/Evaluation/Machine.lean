/-
Nameless/Evaluation/Machine.lean

Call-by-value evaluation.  An abstraction evaluates to a closure over the current
environment; applying a closure binds the argument one binder further in and
evaluates the body there.  Nothing is an error: a variable without a binding and an
application of something that is no function are stuck, and come back as values.

Evaluation keeps a stack of continuations instead of nesting calls.  It need not
end, so `eval` takes a bound on the number of transitions and answers `none` when
the bound runs out; a larger bound never changes an answer that is there.
-/
import Nameless.Evaluation.Environment
import Nameless.Reduction.Redex

namespace Nameless

/-- What evaluation ends in: a term, or the body of an abstraction with the environment it
was met in. -/
inductive Outcome where
  | value (t : Term)
  | closure (env : Env) (body : Term)
deriving Inhabited

namespace Outcome

/-- The term that an outcome stands for.  For a closure that is its abstraction, with the
bindings put for the free indices of the body; an index without a binding stays. -/
def toTerm : Outcome → Term
  | value t => t
  | closure env body =>
    if env.isEmpty then .lam body
    else (Term.lam body).mapVars fun i d =>
      if d ≤ i then
        match env.get? (i - d) with
        | some bound => bound.shift 0 d
        | none => .var i
      else .var i

/-- The function that an outcome is, if it is one.  A term from an environment is closed
over nothing, so an abstraction among the values is a closure over no bindings. -/
def closure? : Outcome → Option (Env × Term)
  | closure env body => some (env, body)
  | value (.lam body) => some (.empty, body)
  | value _ => none

/-- Whether nothing is left to evaluate: a closure, or a term without a redex. -/
def isNormal : Outcome → Bool
  | closure _ _ => true
  | value t => !t.hasRedex

/-- Whether two outcomes are equal, environments being compared as maps. -/
def same : Outcome → Outcome → Bool
  | value t, value u => t == u
  | closure e b, closure e' b' => e.same e' && b == b'
  | _, _ => false

/-- Display notation of the term that an outcome stands for. -/
def display (r : Outcome) : String :=
  r.toTerm.display

end Outcome

/-! ### The machine -/

/-- What happens to an outcome: it is a function whose argument is evaluated next, or an
argument that a function is applied to. -/
inductive Continuation where
  | argument (a : Term) (env : Env)
  | apply (function : Outcome)

/-- What the machine is doing: evaluating a term, or handing an outcome on. -/
inductive Focus where
  | term (env : Env) (t : Term)
  | outcome (r : Outcome)

/-- One transition, or the final outcome. -/
def transition : Focus → List Continuation → Outcome ⊕ (Focus × List Continuation)
  | .term env (.var i), ks => .inr (.outcome (.value ((env.get? i).getD (.var i))), ks)
  | .term env (.lam b), ks => .inr (.outcome (.closure env b), ks)
  | .term env (.app f a), ks => .inr (.term env f, .argument a env :: ks)
  | .outcome r, [] => .inl r
  | .outcome r, .argument a env :: ks => .inr (.term env a, .apply r :: ks)
  | .outcome r, .apply f :: ks =>
    match f.closure? with
    | some (env, body) => .inr (.term (env.push r.toTerm) body, ks)
    | none => .inr (.outcome (.value (.app f.toTerm r.toTerm)), ks)

/-- Runs the machine for at most `fuel` transitions. -/
def runMachine : (fuel : Nat) → Focus → List Continuation → Option Outcome
  | 0, _, _ => none
  | n + 1, focus, ks =>
    match transition focus ks with
    | .inl r => some r
    | .inr (focus', ks') => runMachine n focus' ks'

namespace Term

/-- Evaluates a term in an environment, within `fuel` transitions. -/
def evalIn (fuel : Nat) (env : Env) (t : Term) : Option Outcome :=
  runMachine fuel (.term env t) []

/-- Evaluates a term with nothing bound, within `fuel` transitions. -/
def eval (fuel : Nat) (t : Term) : Option Outcome :=
  t.evalIn fuel .empty

end Term

end Nameless
