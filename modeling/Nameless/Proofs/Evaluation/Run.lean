/-
Nameless/Proofs/Evaluation/Run.lean

Runs of the evaluation machine.  A configuration is what the machine is doing
together with its stack of continuations, and `Moves` is one transition between two
of them.  The bounded loop and the runs say the same: evaluation returns `r` exactly
if the machine moves from the start to handing `r` on to nobody
(`moves_of_runMachine`, `runMachine_of_moves`), and then it does so for every bound
above the length of that run.

What holds of all the code and of all the values in a configuration is kept by a run, if
it is kept by the few ways in which code is entered and values are made (`Invariant`,
`Configuration.Satisfies.run`).
-/
import Mathlib.Logic.Relation
import Nameless.Evaluation.Machine

namespace Nameless

open Relation (ReflTransGen)

/-- What the machine is doing, and what is to happen with the outcome. -/
abbrev Configuration := Focus × List Continuation

/-- One transition, with one case for each thing the machine can do. -/
inductive Moves : Configuration → Configuration → Prop
  | lookup (env : Env) (i : Nat) (ks : List Continuation) :
      Moves (.term env (.var i), ks) (.outcome (.value ((env.get? i).getD (.var i))), ks)
  | abstraction (env : Env) (b : Term) (ks : List Continuation) :
      Moves (.term env (.lam b), ks) (.outcome (.closure env b), ks)
  | function (env : Env) (f a : Term) (ks : List Continuation) :
      Moves (.term env (.app f a), ks) (.term env f, .argument a env :: ks)
  | argument (r : Outcome) (a : Term) (env : Env) (ks : List Continuation) :
      Moves (.outcome r, .argument a env :: ks) (.term env a, .apply r :: ks)
  | call (r : Outcome) {f : Outcome} {env : Env} {body : Term} (ks : List Continuation) :
      f.closure? = some (env, body) →
      Moves (.outcome r, .apply f :: ks) (.term (env.push r.toTerm) body, ks)
  | stuck (r : Outcome) {f : Outcome} (ks : List Continuation) :
      f.closure? = none →
      Moves (.outcome r, .apply f :: ks) (.outcome (.value (.app f.toTerm r.toTerm)), ks)

theorem moves_iff {c c' : Configuration} : Moves c c' ↔ transition c.1 c.2 = .inr c' := by
  constructor
  · intro h
    cases h with
    | call r ks hf => simp only [transition, hf]
    | stuck r ks hf => simp only [transition, hf]
    | _ => rfl
  · intro h
    obtain ⟨focus, ks⟩ := c
    cases focus with
    | term env t =>
      cases t with
      | var i =>
        obtain rfl := Sum.inr.inj h
        exact .lookup env i ks
      | lam b =>
        obtain rfl := Sum.inr.inj h
        exact .abstraction env b ks
      | app f a =>
        obtain rfl := Sum.inr.inj h
        exact .function env f a ks
    | outcome r =>
      rcases ks with - | ⟨k, ks⟩
      · cases h
      · cases k with
        | argument a env =>
          obtain rfl := Sum.inr.inj h
          exact .argument r a env ks
        | apply f =>
          rcases hf : f.closure? with - | ⟨env, body⟩
          · simp only [transition, hf] at h
            obtain rfl := Sum.inr.inj h
            exact .stuck r ks hf
          · simp only [transition, hf] at h
            obtain rfl := Sum.inr.inj h
            exact .call r ks hf

/-- Evaluating a term with nothing bound. -/
abbrev Configuration.start (t : Term) : Configuration := (.term .empty t, [])

/-- Only an outcome that nobody waits for ends a run. -/
theorem transition_eq_inl {focus : Focus} {ks : List Continuation} {r : Outcome}
    (h : transition focus ks = .inl r) : focus = .outcome r ∧ ks = [] := by
  cases focus with
  | term env t => cases t <;> cases h
  | outcome r' =>
    rcases ks with - | ⟨k, ks⟩
    · obtain rfl := Sum.inl.inj h
      exact ⟨rfl, rfl⟩
    · cases k with
      | argument a env => cases h
      | apply f =>
        simp only [transition] at h
        split at h <;> cases h

theorem moves_of_runMachine {r : Outcome} :
    ∀ {fuel : Nat} {c : Configuration}, runMachine fuel c.1 c.2 = some r →
      ReflTransGen Moves c (.outcome r, []) := by
  intro fuel
  induction fuel with
  | zero =>
    intro c h
    cases h
  | succ fuel ih =>
    intro c h
    rcases hc : transition c.1 c.2 with r' | c'
    · obtain ⟨hfocus, hks⟩ := transition_eq_inl hc
      simp only [runMachine, hc, Option.some.injEq] at h
      subst h
      rw [← hfocus, ← hks]
    · simp only [runMachine, hc] at h
      exact ReflTransGen.head (moves_iff.mpr hc) (ih h)

/-- A run that ends has a definite length, and the loop returns its outcome for every bound
above that length and nothing for the others. -/
theorem runMachine_of_moves {c : Configuration} {r : Outcome}
    (h : ReflTransGen Moves c (.outcome r, [])) :
    ∃ m, ∀ fuel, runMachine fuel c.1 c.2 = if m < fuel then some r else none := by
  induction h using ReflTransGen.head_induction_on with
  | refl =>
    refine ⟨0, fun fuel => ?_⟩
    rcases fuel with - | fuel
    · rfl
    · rw [if_pos (Nat.succ_pos fuel)]
      rfl
  | head hstep _ ih =>
    obtain ⟨m, hm⟩ := ih
    refine ⟨m + 1, fun fuel => ?_⟩
    rcases fuel with - | fuel
    · rfl
    · simp only [runMachine, moves_iff.mp hstep, hm, Nat.add_lt_add_iff_right]

theorem moves_of_eval {fuel : Nat} {t : Term} {r : Outcome} (h : t.eval fuel = some r) :
    ReflTransGen Moves (.start t) (.outcome r, []) :=
  moves_of_runMachine h

theorem eval_of_moves {t : Term} {r : Outcome}
    (h : ReflTransGen Moves (.start t) (.outcome r, [])) :
    ∃ m, ∀ fuel, t.eval fuel = if m < fuel then some r else none :=
  runMachine_of_moves h

/-- The bound decides whether there is an outcome, and never which. -/
theorem eval_unique {t : Term} {r s : Outcome} {fuel fuel' : Nat} (hr : t.eval fuel = some r)
    (hs : t.eval fuel' = some s) : r = s := by
  obtain ⟨b, hb⟩ := eval_of_moves (moves_of_eval hr)
  rw [hb] at hs
  split at hs
  · exact Option.some.inj hs
  · cases hs

/-- A larger bound changes no outcome. -/
theorem eval_mono {t : Term} {r : Outcome} {fuel fuel' : Nat} (hle : fuel ≤ fuel')
    (h : t.eval fuel = some r) : t.eval fuel' = some r := by
  obtain ⟨m, hm⟩ := eval_of_moves (moves_of_eval h)
  rw [hm] at h ⊢
  split at h
  · next hlt => rw [if_pos (Nat.lt_of_lt_of_le hlt hle), h]
  · cases h

/-! ### Which outcomes can be called -/

namespace Outcome

/-- What can be called is a closure, or an abstraction among the values, in no environment. -/
theorem closure?_eq_some {f : Outcome} {env : Env} {b : Term} (h : f.closure? = some (env, b)) :
    f = closure env b ∨ (f = value (.lam b) ∧ env = .empty) := by
  cases f with
  | closure env' b' =>
    obtain ⟨rfl, rfl⟩ := Prod.mk.inj (Option.some.inj h)
    exact Or.inl rfl
  | value t =>
    cases t with
    | lam b' =>
      obtain ⟨rfl, rfl⟩ := Prod.mk.inj (Option.some.inj h)
      exact Or.inr ⟨rfl, rfl⟩
    | var i => cases h
    | app g a => cases h

/-- What cannot be called is a value, and no abstraction. -/
theorem exists_value_of_closure? {f : Outcome} (h : f.closure? = none) :
    ∃ t, f = value t ∧ ∀ b, t ≠ .lam b := by
  cases f with
  | closure env b => cases h
  | value t =>
    refine ⟨t, rfl, ?_⟩
    rintro b rfl
    cases h

end Outcome

/-! ### Invariants of a run -/

section Invariants

variable (P : Env → Term → Prop) (V : Term → Prop)

/-- The code in an outcome satisfies `P` in its environment, and a value satisfies `V`. -/
def Outcome.Satisfies : Outcome → Prop
  | value t => V t
  | closure env b => P env (.lam b)

@[inherit_doc Outcome.Satisfies]
def Focus.Satisfies : Focus → Prop
  | term env t => P env t
  | outcome r => r.Satisfies P V

@[inherit_doc Outcome.Satisfies]
def Continuation.Satisfies : Continuation → Prop
  | argument a env => P env a
  | apply f => f.Satisfies P V

@[inherit_doc Outcome.Satisfies]
def Configuration.Satisfies (c : Configuration) : Prop :=
  c.1.Satisfies P V ∧ ∀ k ∈ c.2, k.Satisfies P V

/-- What makes `P` and `V` survive every transition: one condition for each way in which code
comes to stand in an environment, and for each way in which a value is made. -/
structure Invariant : Prop where
  lookup : ∀ {env i}, P env (.var i) → V ((env.get? i).getD (.var i))
  function : ∀ {env f a}, P env (.app f a) → P env f
  argument : ∀ {env f a}, P env (.app f a) → P env a
  write : ∀ {env b}, P env (.lam b) → V (Outcome.closure env b).toTerm
  reenter : ∀ {b}, V (.lam b) → P .empty (.lam b)
  call : ∀ {env b t}, P env (.lam b) → V t → P (env.push t) b
  stuck : ∀ {f a}, V f → (∀ b, f ≠ .lam b) → V a → V (.app f a)

variable {P V}

theorem Outcome.Satisfies.toTerm (hI : Invariant P V) {r : Outcome} (h : r.Satisfies P V) :
    V r.toTerm := by
  cases r with
  | value t => exact h
  | closure env b => exact hI.write h

theorem Outcome.Satisfies.closure? (hI : Invariant P V) {f : Outcome} (h : f.Satisfies P V)
    {env : Env} {b : Term} (hf : f.closure? = some (env, b)) : P env (.lam b) := by
  rcases Outcome.closure?_eq_some hf with rfl | ⟨rfl, rfl⟩
  · exact h
  · exact hI.reenter h

/-- One transition keeps an invariant. -/
theorem Configuration.Satisfies.moves (hI : Invariant P V) {c c' : Configuration}
    (hc : c.Satisfies P V) (h : Moves c c') : c'.Satisfies P V := by
  obtain ⟨hfocus, hks⟩ := hc
  cases h with
  | lookup env i ks => exact ⟨hI.lookup hfocus, hks⟩
  | abstraction env b ks => exact ⟨hfocus, hks⟩
  | function env f a ks =>
    exact ⟨hI.function hfocus, List.forall_mem_cons.mpr ⟨hI.argument hfocus, hks⟩⟩
  | argument r a env ks =>
    obtain ⟨ha, hks⟩ := List.forall_mem_cons.mp hks
    exact ⟨ha, List.forall_mem_cons.mpr ⟨hfocus, hks⟩⟩
  | call r ks hf =>
    obtain ⟨hfun, hks⟩ := List.forall_mem_cons.mp hks
    exact ⟨hI.call (Outcome.Satisfies.closure? hI hfun hf) (hfocus.toTerm hI), hks⟩
  | stuck r ks hf =>
    -- only a value can be stuck, and it is its own term
    obtain ⟨t, rfl, ht⟩ := Outcome.exists_value_of_closure? hf
    obtain ⟨hfun, hks⟩ := List.forall_mem_cons.mp hks
    exact ⟨hI.stuck hfun ht (hfocus.toTerm hI), hks⟩

/-- A run keeps an invariant. -/
theorem Configuration.Satisfies.run (hI : Invariant P V) {c c' : Configuration}
    (hc : c.Satisfies P V) (h : ReflTransGen Moves c c') : c'.Satisfies P V := by
  induction h with
  | refl => exact hc
  | tail _ hstep ih => exact ih.moves hI hstep

theorem Configuration.satisfies_start {t : Term} (h : P .empty t) :
    (Configuration.start t).Satisfies P V :=
  ⟨h, fun _ hk => absurd hk List.not_mem_nil⟩

end Invariants

end Nameless
