/-
Nameless/Term/Basic.lean

Terms of the pure λ-calculus.  A variable is a number that counts the binders
between its occurrence and the λ that owns it, so two terms that differ only in
the choice of bound names are the same tree, and equality of terms is
α-equivalence.  An index that reaches past every enclosing binder is free; open
terms are terms like any other.

`Term.Free k t` says that `k`, counted from the outside of `t`, occurs free in it;
`Term.freeIndices` lists those numbers in order.
-/
namespace Nameless

/-- A λ-term: a binder distance, an abstraction over its body, or an application of a
function to an argument. -/
inductive Term where
  | var (index : Nat)
  | lam (body : Term)
  | app (function argument : Term)
deriving DecidableEq, Inhabited

namespace Term

/-- The direct sub-terms, in display order. -/
def children : Term → List Term
  | var _ => []
  | lam b => [b]
  | app f a => [f, a]

/-- The number of nodes. -/
def size : Term → Nat
  | var _ => 1
  | lam b => b.size + 1
  | app f a => f.size + a.size + 1

theorem size_pos (t : Term) : 0 < t.size := by
  cases t <;> simp [size]

/-- Whether the term is an application of an abstraction. -/
def isRedex : Term → Bool
  | app (lam _) _ => true
  | _ => false

/-! ### Traversal -/

/-- `walkOnto d t rest` lists the sub-terms of `t` in pre-order, each with the number of
binders around it when `t` itself stands under `d` of them, and then `rest`. -/
def walkOnto (d : Nat) : Term → List (Term × Nat) → List (Term × Nat)
  | var i, rest => (var i, d) :: rest
  | lam b, rest => (lam b, d) :: b.walkOnto (d + 1) rest
  | app f a, rest => (app f a, d) :: f.walkOnto d (a.walkOnto d rest)

/-- Every sub-term in pre-order, with the number of binders that enclose it. -/
def walk (t : Term) : List (Term × Nat) :=
  t.walkOnto 0 []

/-! ### Free indices -/

/-- `k`, counted from the outside of the term, occurs free in it. -/
def Free (k : Nat) : Term → Prop
  | var i => i = k
  | lam b => b.Free (k + 1)
  | app f a => f.Free k ∨ a.Free k

instance decidableFree : (k : Nat) → (t : Term) → Decidable (t.Free k)
  | k, var i => inferInstanceAs (Decidable (i = k))
  | k, lam b => decidableFree (k + 1) b
  | k, app f a =>
    have := decidableFree k f
    have := decidableFree k a
    inferInstanceAs (Decidable (_ ∨ _))

/-- A closed term has no free index. -/
def Closed (t : Term) : Prop :=
  ∀ k, ¬ t.Free k

/-- `freeOnto d t rest` puts the free indices of `t`, one for each occurrence and counted
from `d` binders further out, in front of `rest`. -/
def freeOnto (d : Nat) : Term → List Nat → List Nat
  | var i, rest => if d ≤ i then (i - d) :: rest else rest
  | lam b, rest => b.freeOnto (d + 1) rest
  | app f a, rest => f.freeOnto d (a.freeOnto d rest)

/-- The free indices of a term, in increasing order and without repetition. -/
def freeIndices (t : Term) : List Nat :=
  (t.freeOnto 0 []).mergeSort.eraseReps

end Term

/-! ### Some closed terms -/

namespace Term

/-- The identity function. -/
def identity : Term := lam (var 0)

/-- The function that forgets its second argument. -/
def constant : Term := lam (lam (var 1))

/-- Self-application applied to itself: it contracts to itself. -/
def omega : Term := app (lam (app (var 0) (var 0))) (lam (app (var 0) (var 0)))

end Term

end Nameless
