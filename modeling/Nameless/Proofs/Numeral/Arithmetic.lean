/-
Nameless/Proofs/Numeral/Arithmetic.lean

Arithmetic on Church numerals.  Applying a numeral to a function and an argument reduces
to the function applied that many times:

    church n · f · x   reduces to   f (f (… (f x)))        (`reduces_church_apply`),

where `(app f)^[n] x` is the term on the right.  With it each combinator reduces to the
numeral of its result by a calculation under two binders: successor and sum put one row
of applications in front of another, and the product iterates the function that is itself
a row of applications (`reduces_mult`).

These reductions contract redexes in the order of the calculation, inside out.  A numeral
has no redex, so normal order finds the same numeral, however long its own run is
(`normalize_of_reduces_church`).
-/
import Nameless.Numeral
import Nameless.Proofs.Reduction.Standardization

namespace Nameless.Term

open Relation (ReflTransGen)

/-! ### Repeated application -/

theorem iterate_eq (n : Nat) (t : Term) : iterate n t = (app (var 1))^[n] t := by
  induction n generalizing t with
  | zero => rfl
  | succ n ih => exact ih _

theorem church_eq (n : Nat) : church n = lam (lam ((app (var 1))^[n] (var 0))) := by
  rw [church, iterate_eq]

theorem shift_iterate_app (c a n : Nat) (f x : Term) :
    ((app f)^[n] x).shift c a = (app (f.shift c a))^[n] (x.shift c a) :=
  Function.Semiconj.iterate_right (f := shift c a) (fun y => shift_app c a f y) n x

theorem subst_iterate_app (k n : Nat) (f x r : Term) :
    ((app f)^[n] x).subst k r = (app (f.subst k r))^[n] (x.subst k r) :=
  Function.Semiconj.iterate_right (f := fun t => t.subst k r) (fun y => subst_app k f y r) n x

/-- Where applying `f` reduces to `g`, applying it `n` times reduces to an iterate of `g`. -/
theorem reduces_iterate_app {g : Term → Term} {f : Term}
    (hg : ∀ x, ReflTransGen Beta (app f x) (g x))
    (hmono : ∀ {x y}, ReflTransGen Beta x y → ReflTransGen Beta (g x) (g y)) (n : Nat) (x : Term) :
    ReflTransGen Beta ((app f)^[n] x) (g^[n] x) := by
  induction n with
  | zero => exact .refl
  | succ n ih =>
    rw [Function.iterate_succ_apply', Function.iterate_succ_apply']
    exact (hg _).trans (hmono ih)

theorem reduces_iterate_argument (f : Term) (n : Nat) {x y : Term} (h : ReflTransGen Beta x y) :
    ReflTransGen Beta ((app f)^[n] x) ((app f)^[n] y) := by
  induction n with
  | zero => exact h
  | succ n ih =>
    rw [Function.iterate_succ_apply', Function.iterate_succ_apply']
    exact reduces_app .refl ih

/-! ### Numerals -/

@[simp] theorem shift_church (c a n : Nat) : (church n).shift c a = church n := by
  rw [church_eq, shift_lam, shift_lam, shift_iterate_app, shift_var_of_lt (by omega),
    shift_var_of_lt (by omega)]

@[simp] theorem subst_church (k n : Nat) (r : Term) : (church n).subst k r = church n := by
  rw [church_eq, subst_lam, subst_lam, subst_iterate_app, subst_var_of_lt (by omega),
    subst_var_of_lt (by omega)]

theorem hasRedex_iterate_app (n : Nat) : ((app (var 1))^[n] (var 0)).hasRedex = false := by
  induction n with
  | zero => exact hasRedex_var 0
  | succ n ih =>
    have hhead : ∀ b, var 1 ≠ lam b := nofun
    rw [Function.iterate_succ_apply', hasRedex_app hhead, hasRedex_var, ih]
    rfl

theorem hasRedex_church (n : Nat) : (church n).hasRedex = false := by
  rw [church_eq, hasRedex_lam, hasRedex_lam, hasRedex_iterate_app]

/-- A numeral applied to a function waits for the argument. -/
theorem reduces_church_function (n : Nat) (f : Term) :
    ReflTransGen Beta (app (church n) f) (lam ((app (f.shift 0 1))^[n] (var 0))) := by
  have hstep := Beta.redex (lam ((app (var 1))^[n] (var 0))) f
  rw [subst_lam, subst_iterate_app, subst_var_self, subst_var_of_lt (by omega),
    ← church_eq] at hstep
  exact .single hstep

/-- A numeral applies its first argument to its second as many times as it says. -/
theorem reduces_church_apply (n : Nat) (f x : Term) :
    ReflTransGen Beta (app (app (church n) f) x) ((app f)^[n] x) := by
  have hstep := Beta.redex ((app (f.shift 0 1))^[n] (var 0)) x
  -- the function has been moved past a binder that is gone again
  rw [subst_iterate_app, subst_var_self, subst_shift f x (Nat.le_refl 0) (Nat.le_refl 0),
    shift_zero] at hstep
  exact (reduces_app (reduces_church_function n f) .refl).tail hstep

/-! ### The combinators -/

theorem reduces_succ (n : Nat) :
    ReflTransGen Beta (app succ (church n)) (church (n + 1)) := by
  have hstep := Beta.redex (lam (lam (app (var 1) (app (app (var 2) (var 1)) (var 0))))) (church n)
  simp only [subst_lam, subst_app, subst_var, shift_church] at hstep
  rw [church_eq (n + 1), Function.iterate_succ_apply']
  exact .head hstep (reduces_lam (reduces_lam (reduces_app .refl (reduces_church_apply n _ _))))

theorem reduces_plus (m n : Nat) :
    ReflTransGen Beta (app (app plus (church m)) (church n)) (church (m + n)) := by
  have hfirst := Beta.redex (lam (lam (lam (app (app (var 3) (var 1))
    (app (app (var 2) (var 1)) (var 0)))))) (church m)
  have hsecond := Beta.redex (lam (lam (app (app (church m) (var 1))
    (app (app (var 2) (var 1)) (var 0))))) (church n)
  simp only [subst_lam, subst_app, subst_var, shift_church, subst_church] at hfirst hsecond
  rw [church_eq (m + n), Function.iterate_add_apply]
  exact .head (hfirst.function _) (.head hsecond (reduces_lam (reduces_lam
    ((reduces_church_apply m _ _).trans
      (reduces_iterate_argument _ m (reduces_church_apply n _ _))))))

theorem reduces_mult (m n : Nat) :
    ReflTransGen Beta (app (app mult (church m)) (church n)) (church (m * n)) := by
  have hfirst := Beta.redex (lam (lam (app (var 2) (app (var 1) (var 0))))) (church m)
  have hsecond := Beta.redex (lam (app (church m) (app (var 1) (var 0)))) (church n)
  simp only [subst_lam, subst_app, subst_var, shift_church, subst_church] at hfirst hsecond
  have hrow := reduces_church_function m (app (church n) (var 0))
  simp only [shift_app, shift_church, shift_var] at hrow
  have hrows : ReflTransGen Beta ((app (app (church n) (var 1)))^[m] (var 0))
      (((app (var 1))^[n])^[m] (var 0)) :=
    reduces_iterate_app (reduces_church_apply n (var 1))
      (fun h => reduces_iterate_argument (var 1) n h) m (var 0)
  rw [church_eq (m * n), Nat.mul_comm, Function.iterate_mul]
  exact .head (hfirst.function _) (.head hsecond (reduces_lam (hrow.trans (reduces_lam hrows))))

/-! ### Normalization -/

/-- Normal order finds a numeral that any reduction finds. -/
theorem normalize_of_reduces_church {t : Term} {n : Nat} (h : ReflTransGen Beta t (church n)) :
    ∃ k, ∀ fuel, t.normalize fuel = if k < fuel then some (church n) else none := by
  obtain ⟨j, hj⟩ := iterate_of_reduces h (redexFree_iff.mpr (hasRedex_church n))
  exact normalize_of_iterate (step_of_hasRedex_eq_false (hasRedex_church n)) hj

/-- **The combinators compute.**  Normalization returns on the successor of a numeral and on
the sum and the product of two, each time after a definite number of steps and with the
numeral of the result. -/
theorem normalize_arithmetic (m n : Nat) :
    (∃ k, ∀ fuel, (app succ (church n)).normalize fuel
      = if k < fuel then some (church (n + 1)) else none) ∧
    (∃ k, ∀ fuel, (app (app plus (church m)) (church n)).normalize fuel
      = if k < fuel then some (church (m + n)) else none) ∧
    (∃ k, ∀ fuel, (app (app mult (church m)) (church n)).normalize fuel
      = if k < fuel then some (church (m * n)) else none) :=
  ⟨normalize_of_reduces_church (reduces_succ n), normalize_of_reduces_church (reduces_plus m n),
    normalize_of_reduces_church (reduces_mult m n)⟩

end Nameless.Term
