/-
Nameless/Term/Replace.lean

Replacing the variables of a term.  `Term.replace f t` swaps every variable of `t`
for what `f` answers at its index and at the number of binders around it, from left
to right, and stops at the first refusal.

The work is done with two stacks, one of tasks and one of finished terms, so the
depth of a term costs no nesting of calls.  `Term.replaceAt` says the same by
recursion on the term, and `replace_eq` shows that the two agree: the stack of
finished terms always holds what the next task needs, and one term is left on it
at the end.
-/
import Nameless.Term.Basic

namespace Nameless.Term

variable {ε : Type}

/-- Replacement by recursion on the term, which stands under `d` binders. -/
def replaceAt (f : Nat → Nat → Except ε Term) (d : Nat) : Term → Except ε Term
  | var i => f i d
  | lam b => do
    let b' ← b.replaceAt f (d + 1)
    return lam b'
  | app g a => do
    let g' ← g.replaceAt f d
    let a' ← a.replaceAt f d
    return app g' a'

/-! ### The machine -/

/-- What is left to do: visit a term that stands under some binders, or build a node from
the terms finished last. -/
inductive Task where
  | visit (depth : Nat) (t : Term)
  | abstract
  | apply

/-- The steps a task takes. -/
def Task.cost : Task → Nat
  | visit _ t => 2 * t.size
  | abstract => 1
  | apply => 1

/-- The steps a stack of tasks takes. -/
def Task.total : List Task → Nat
  | [] => 0
  | k :: ks => k.cost + Task.total ks

/-- Carries out the tasks on the stack of finished terms, the newest first.  The answer is
`none` if a task finds too few of them. -/
def runTasks (f : Nat → Nat → Except ε Term) : List Task → List Term → Except ε (Option (List Term))
  | [], done => .ok (some done)
  | .visit d (var i) :: tasks, done =>
    match f i d with
    | .ok t => runTasks f tasks (t :: done)
    | .error e => .error e
  | .visit d (lam b) :: tasks, done => runTasks f (.visit (d + 1) b :: .abstract :: tasks) done
  | .visit d (app g a) :: tasks, done =>
    runTasks f (.visit d g :: .visit d a :: .apply :: tasks) done
  | .abstract :: tasks, b :: done => runTasks f tasks (lam b :: done)
  | .apply :: tasks, a :: g :: done => runTasks f tasks (app g a :: done)
  | _ :: _, _ => .ok none
termination_by tasks => Task.total tasks
decreasing_by all_goals simp only [Task.total, Task.cost, size]; omega

/-- Swaps every variable for what `f` answers at its index and depth, or refuses with the
leftmost refusal.  One term is left by the machine (`runTasks_visit`), so the last case of
the match is never taken. -/
def replace (f : Nat → Nat → Except ε Term) (t : Term) : Except ε Term :=
  match runTasks f [.visit 0 t] [] with
  | .ok (some [u]) => .ok u
  | .ok _ => .ok t
  | .error e => .error e

/-! ### Agreement of the two -/

/-- Visiting a term leaves exactly its replacement on the stack of finished terms. -/
theorem runTasks_visit (f : Nat → Nat → Except ε Term) (t : Term) :
    ∀ (d : Nat) (tasks : List Task) (done : List Term),
      runTasks f (.visit d t :: tasks) done
        = (match t.replaceAt f d with
          | .ok u => runTasks f tasks (u :: done)
          | .error e => .error e) := by
  induction t with
  | var i =>
    intro d tasks done
    rw [runTasks, replaceAt]
  | lam b ih =>
    intro d tasks done
    rw [runTasks, ih, replaceAt]
    cases b.replaceAt f (d + 1) with
    | error e => rfl
    | ok u =>
      show runTasks f (.abstract :: tasks) (u :: done) = _
      rw [runTasks]
      rfl
  | app g a ihg iha =>
    intro d tasks done
    rw [runTasks, ihg, replaceAt]
    cases g.replaceAt f d with
    | error e => rfl
    | ok u =>
      show runTasks f (.visit d a :: .apply :: tasks) (u :: done) = _
      rw [iha]
      cases a.replaceAt f d with
      | error e => rfl
      | ok v =>
        show runTasks f (.apply :: tasks) (v :: u :: done) = _
        rw [runTasks]
        rfl

/-- The machine computes replacement by recursion. -/
theorem replace_eq (f : Nat → Nat → Except ε Term) (t : Term) :
    t.replace f = t.replaceAt f 0 := by
  rw [replace, runTasks_visit]
  cases t.replaceAt f 0 with
  | error e => rfl
  | ok u => simp [runTasks]

/-! ### Replacement that never refuses -/

/-- The value of a computation that cannot fail. -/
def value {α : Type} : Except Empty α → α
  | .ok a => a
  | .error e => nomatch e

/-- Swaps every variable for what `f` answers at its index and depth. -/
def mapVars (f : Nat → Nat → Term) (t : Term) : Term :=
  value (t.replace fun i d => .ok (f i d))

/-- The same by recursion on a term that stands under `d` binders. -/
def mapVarsAt (f : Nat → Nat → Term) (d : Nat) : Term → Term
  | var i => f i d
  | lam b => lam (b.mapVarsAt f (d + 1))
  | app g a => app (g.mapVarsAt f d) (a.mapVarsAt f d)

theorem replaceAt_ok (f : Nat → Nat → Term) (t : Term) :
    ∀ d, t.replaceAt (fun i k => (.ok (f i k) : Except ε Term)) d = .ok (t.mapVarsAt f d) := by
  induction t with
  | var i => intro d; rfl
  | lam b ih => intro d; simp [replaceAt, mapVarsAt, ih, bind, Except.bind, pure, Except.pure]
  | app g a ihg iha =>
    intro d
    simp [replaceAt, mapVarsAt, ihg, iha, bind, Except.bind, pure, Except.pure]

theorem mapVars_eq (f : Nat → Nat → Term) (t : Term) : t.mapVars f = t.mapVarsAt f 0 := by
  simp [mapVars, replace_eq, replaceAt_ok, value]

end Nameless.Term
