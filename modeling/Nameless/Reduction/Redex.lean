/-
Nameless/Reduction/Redex.lean

Redexes and one step of normal-order reduction.  A redex is an application of an
abstraction; contracting it substitutes the argument for the index that the
abstraction binds.  `Term.firstRedex?` finds the redex that comes first in
pre-order, that is, the leftmost outermost one, together with the path that leads
to it, and `Term.step` contracts it in place.  `Item.contract` contracts whatever is
offered, if it is a redex.

The search keeps its own stack of places still to be looked at, so the depth of a
term costs no nesting of calls.
-/
import Nameless.Datum.Basic
import Nameless.Term.Shift

namespace Nameless

/-- An application of the abstraction with the given body. -/
structure Redex where
  body : Term
  argument : Term
deriving DecidableEq

namespace Redex

/-- The redex as a term. -/
def toTerm (r : Redex) : Term := .app (.lam r.body) r.argument

/-- Puts the argument for the bound index of the body. -/
def contract (r : Redex) : Term := r.body.subst 0 r.argument

end Redex

/-- The redex that a term is, if it is one. -/
def Term.redex? : Term → Option Redex
  | .app (.lam b) a => some ⟨b, a⟩
  | _ => none

/-- An item that was to be contracted and is no redex. -/
structure NotRedex where
  got : Item

/-- The wording of the refusal. -/
def NotRedex.message (e : NotRedex) : String :=
  "'" ++ e.got.plain ++ "' is not a β-redex"

/-- Contracts an item, which must be a redex. -/
def Item.contract (i : Item) : Except NotRedex Term :=
  match i.term?.bind Term.redex? with
  | some r => .ok r.contract
  | none => .error ⟨i⟩

/-! ### Paths -/

/-- One level of a path into a term: into the body of an abstraction, into the function of
an application with the given argument, or into the argument of an application of the
given function. -/
inductive Frame where
  | body
  | function (argument : Term)
  | argument (function : Term)
deriving DecidableEq

/-- The term whose sub-term behind the frame is `t`. -/
def Frame.wrap : Frame → Term → Term
  | body, t => .lam t
  | function a, t => .app t a
  | argument f, t => .app f t

/-- A path from a sub-term up to the root, innermost level first. -/
abbrev Path := List Frame

/-- The whole term with `t` at the end of the path. -/
def Path.plug : Path → Term → Term
  | [], t => t
  | frame :: path, t => plug path (frame.wrap t)

/-- A redex and the path from it to the root. -/
structure Occurrence where
  redex : Redex
  path : Path

/-! ### The search -/

/-- The nodes on a stack of places. -/
def placesSize : List (Term × Path) → Nat
  | [] => 0
  | (t, _) :: rest => t.size + placesSize rest

/-- The first redex in the places on the stack, each searched in pre-order. -/
def searchRedex : List (Term × Path) → Option Occurrence
  | [] => none
  | (.app (.lam b) a, path) :: _ => some ⟨⟨b, a⟩, path⟩
  | (.var _, _) :: rest => searchRedex rest
  | (.lam b, path) :: rest => searchRedex ((b, .body :: path) :: rest)
  | (.app f a, path) :: rest =>
    searchRedex ((f, .function a :: path) :: (a, .argument f :: path) :: rest)
termination_by places => placesSize places
decreasing_by all_goals simp only [placesSize, Term.size]; omega

namespace Term

/-- The leftmost outermost redex: the first one among the whole term, the body of an
abstraction, the function of an application and its argument. -/
def firstRedex? (t : Term) : Option Occurrence :=
  searchRedex [(t, [])]

/-- Whether there is a redex anywhere in the term. -/
def hasRedex (t : Term) : Bool :=
  t.firstRedex?.isSome

/-- One step of normal-order reduction.  A term without a redex stays as it is. -/
def step (t : Term) : Term :=
  match t.firstRedex? with
  | none => t
  | some o => o.path.plug o.redex.contract

end Term

end Nameless
