/-
Nameless/Desk/Action.lean

Actions: computations that change a state, may be stopped by a signal, and may run
out of fuel.  The state is kept when a signal stops an action, so what was done
before it stays done.
-/
import Nameless.Desk.Fault

namespace Nameless

/-- A computation on a state `σ`: `none` when it runs out of fuel, otherwise its value or
the signal that stopped it, and the state it leaves. -/
abbrev Act (σ : Type) := ExceptT Signal (StateT σ Option)

namespace Act

variable {σ τ α : Type}

/-- Runs an action on a state. -/
def runOn (act : Act σ α) (s : σ) : Option (Except Signal α × σ) :=
  StateT.run (ExceptT.run act) s

/-- An action given by what it does to a state. -/
def ofFunction (f : σ → Option (Except Signal α × σ)) : Act σ α :=
  ExceptT.mk f

@[simp] theorem runOn_pure (a : α) (s : σ) : runOn (pure a) s = some (.ok a, s) := rfl

@[simp] theorem runOn_ofFunction (f : σ → Option (Except Signal α × σ)) (s : σ) :
    runOn (ofFunction f) s = f s := rfl

/-- One action after another: the second goes on from the state the first one leaves, unless
a signal stopped the first. -/
theorem runOn_bind {β : Type} (act : Act σ α) (next : α → Act σ β) (s : σ) :
    runOn (act >>= next) s
      = (act.runOn s).bind fun p =>
          match p with
          | (.ok a, s') => (next a).runOn s'
          | (.error signal, s') => some (.error signal, s') := by
  show Option.bind (act.runOn s) _ = _
  congr 1
  funext p
  obtain ⟨r, s'⟩ := p
  cases r <;> rfl

@[simp] theorem runOn_throw (signal : Signal) (s : σ) :
    runOn (throw signal : Act σ α) s = some (.error signal, s) := rfl

@[simp] theorem runOn_get (s : σ) : runOn (get : Act σ σ) s = some (.ok s, s) := rfl

@[simp] theorem runOn_modify (f : σ → σ) (s : σ) :
    runOn (modify f : Act σ Unit) s = some (.ok (), f s) := rfl

/-- Stops with a fault. -/
def raise (f : Fault) : Act σ α :=
  throw (.fault f)

/-- The value of a bounded computation. -/
def ofFuel (x : Option α) : Act σ α :=
  ofFunction fun s => x.map fun a => (.ok a, s)

/-- The value of a computation that may fail. -/
def ofExcept {ε : Type} (f : ε → Fault) : Except ε α → Act σ α
  | .ok a => pure a
  | .error e => raise (f e)

/-- Cleans up after an action, whether it was stopped or not. -/
def ensuring (act : Act σ α) (cleanUp : σ → σ) : Act σ α :=
  ofFunction fun s => (act.runOn s).map fun (r, s') => (r, cleanUp s')

/-- An action on a part of the state. -/
def onPart (part : σ → τ) (replace : τ → σ → σ) (act : Act τ α) : Act σ α :=
  ofFunction fun s => (act.runOn (part s)).map fun (r, t) => (r, replace t s)

end Act

end Nameless
