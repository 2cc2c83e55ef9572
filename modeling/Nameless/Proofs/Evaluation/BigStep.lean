/-
Nameless/Proofs/Evaluation/BigStep.lean

Evaluation in one big step.  `BigStep env t r` says by rules on the term that `t`
evaluates to `r` in `env`, without a machine: there is no stack, and an application
evaluates its function, its argument, and the body of the function that is called.

The machine computes this relation.

* What big steps derive, the machine does, whatever waits on its stack
  (`BigStep.moves`), by induction on the derivation.
* A configuration gives an outcome if big steps carry out what it is doing and then what
  waits on its stack (`Configuration.Gives`).  One transition keeps what a configuration
  gives (`Moves.gives_iff`), and so does a run; at its end a configuration gives the
  outcome that it hands on.

Evaluation need not end, so neither direction goes by recursion on the term alone: in the
first the derivation is finite, in the second the run.
-/
import Nameless.Proofs.Evaluation.Run

namespace Nameless

open Relation (ReflTransGen)

/-- In the environment, the term evaluates to the outcome. -/
inductive BigStep : Env → Term → Outcome → Prop
  | bound {env : Env} {i : Nat} {u : Term} :
      env.get? i = some u → BigStep env (.var i) (.value u)
  | unbound {env : Env} {i : Nat} :
      env.get? i = none → BigStep env (.var i) (.value (.var i))
  | abstraction (env : Env) (b : Term) : BigStep env (.lam b) (.closure env b)
  | call {env env' : Env} {f a body : Term} {rf ra r : Outcome} :
      BigStep env f rf → BigStep env a ra → rf.closure? = some (env', body) →
      BigStep (env'.push ra.toTerm) body r → BigStep env (.app f a) r
  | stuck {env : Env} {f a : Term} {rf ra : Outcome} :
      BigStep env f rf → BigStep env a ra → rf.closure? = none →
      BigStep env (.app f a) (.value (.app rf.toTerm ra.toTerm))

/-! ### Big steps drive the machine -/

/-- The machine does what big steps derive, and then goes on with its stack. -/
theorem BigStep.moves {env : Env} {t : Term} {r : Outcome} (h : BigStep env t r) :
    ∀ ks, ReflTransGen Moves (.term env t, ks) (.outcome r, ks) := by
  -- the environment of an argument waits on the stack while the function is evaluated
  induction h with
  | @bound env i u hget =>
    intro ks
    have hmove := Moves.lookup env i ks
    rw [hget] at hmove
    exact .single hmove
  | @unbound env i hget =>
    intro ks
    have hmove := Moves.lookup env i ks
    rw [hget] at hmove
    exact .single hmove
  | abstraction env b =>
    intro ks
    exact .single (.abstraction env b ks)
  | @call env env' f a body rf ra r _ _ hcall _ ihf iha ihbody =>
    intro ks
    calc ReflTransGen Moves (.term env (.app f a), ks) (.term env f, .argument a env :: ks) :=
          .single (.function env f a ks)
      ReflTransGen Moves _ (.outcome rf, .argument a env :: ks) := ihf _
      ReflTransGen Moves _ (.term env a, .apply rf :: ks) := .single (.argument rf a env ks)
      ReflTransGen Moves _ (.outcome ra, .apply rf :: ks) := iha _
      ReflTransGen Moves _ (.term (env'.push ra.toTerm) body, ks) := .single (.call ra ks hcall)
      ReflTransGen Moves _ (.outcome r, ks) := ihbody ks
  | @stuck env f a rf ra _ _ hstuck ihf iha =>
    intro ks
    calc ReflTransGen Moves (.term env (.app f a), ks) (.term env f, .argument a env :: ks) :=
          .single (.function env f a ks)
      ReflTransGen Moves _ (.outcome rf, .argument a env :: ks) := ihf _
      ReflTransGen Moves _ (.term env a, .apply rf :: ks) := .single (.argument rf a env ks)
      ReflTransGen Moves _ (.outcome ra, .apply rf :: ks) := iha _
      ReflTransGen Moves _ (.outcome (.value (.app rf.toTerm ra.toTerm)), ks) :=
        .single (.stuck ra ks hstuck)

/-! ### Big steps, by the form of the term -/

/-- Applying the outcome `f` to the outcome `a` gives `r`. -/
inductive Outcome.Applied (f a r : Outcome) : Prop
  | call {env : Env} {body : Term} :
      f.closure? = some (env, body) → BigStep (env.push a.toTerm) body r → Applied f a r
  | stuck : f.closure? = none → r = .value (.app f.toTerm a.toTerm) → Applied f a r

theorem Outcome.applied_call_iff {f a r : Outcome} {env : Env} {body : Term}
    (hf : f.closure? = some (env, body)) :
    f.Applied a r ↔ BigStep (env.push a.toTerm) body r := by
  constructor
  · intro h
    cases h with
    | call hf' hbody =>
      obtain ⟨rfl, rfl⟩ := Prod.mk.inj (Option.some.inj (hf.symm.trans hf'))
      exact hbody
    | stuck hf' _ => cases hf.symm.trans hf'
  · exact .call hf

theorem Outcome.applied_stuck_iff {f a r : Outcome} (hf : f.closure? = none) :
    f.Applied a r ↔ r = .value (.app f.toTerm a.toTerm) := by
  constructor
  · intro h
    cases h with
    | call hf' _ => cases hf.symm.trans hf'
    | stuck _ hr => exact hr
  · exact .stuck hf

theorem bigStep_var_iff {env : Env} {i : Nat} {r : Outcome} :
    BigStep env (.var i) r ↔ r = .value ((env.get? i).getD (.var i)) := by
  constructor
  · intro h
    cases h with
    | bound hget => rw [hget]; rfl
    | unbound hget => rw [hget]; rfl
  · rintro rfl
    rcases hget : env.get? i with - | u
    · exact .unbound hget
    · exact .bound hget

theorem bigStep_lam_iff {env : Env} {b : Term} {r : Outcome} :
    BigStep env (.lam b) r ↔ r = .closure env b := by
  constructor
  · rintro ⟨⟩
    rfl
  · rintro rfl
    exact .abstraction env b

theorem bigStep_app_iff {env : Env} {f a : Term} {r : Outcome} :
    BigStep env (.app f a) r
      ↔ ∃ rf, BigStep env f rf ∧ ∃ ra, BigStep env a ra ∧ rf.Applied ra r := by
  constructor
  · intro h
    cases h with
    | call hf ha hcall hbody => exact ⟨_, hf, _, ha, .call hcall hbody⟩
    | stuck hf ha hstuck => exact ⟨_, hf, _, ha, .stuck hstuck rfl⟩
  · rintro ⟨rf, hf, ra, ha, happ⟩
    cases happ with
    | call hcall hbody => exact .call hf ha hcall hbody
    | stuck hstuck hr => exact hr ▸ .stuck hf ha hstuck

/-! ### What a configuration gives -/

/-- Handing the outcome `r` on to what waits on the stack gives `s` in the end. -/
def Outcome.HandedOn : (r : Outcome) → List Continuation → (s : Outcome) → Prop
  | r, [], s => r = s
  | r, .argument a env :: ks, s => ∃ ra, BigStep env a ra ∧ ∃ u, r.Applied ra u ∧ u.HandedOn ks s
  | r, .apply f :: ks, s => ∃ u, f.Applied r u ∧ u.HandedOn ks s

/-- Big steps carry out what the machine is doing and what waits on its stack, and `s` comes
out. -/
def Configuration.Gives : Configuration → (s : Outcome) → Prop
  | (.term env t, ks), s => ∃ r, BigStep env t r ∧ r.HandedOn ks s
  | (.outcome r, ks), s => r.HandedOn ks s

/-- A transition keeps what a configuration gives. -/
theorem Moves.gives_iff {c c' : Configuration} (h : Moves c c') (s : Outcome) :
    c.Gives s ↔ c'.Gives s := by
  cases h with
  | lookup env i ks =>
    simp only [Configuration.Gives, bigStep_var_iff, exists_eq_left]
  | abstraction env b ks =>
    simp only [Configuration.Gives, bigStep_lam_iff, exists_eq_left]
  | function env f a ks =>
    simp only [Configuration.Gives, bigStep_app_iff, Outcome.HandedOn]
    constructor
    · rintro ⟨r, ⟨rf, hf, ra, ha, happ⟩, hks⟩
      exact ⟨rf, hf, ra, ha, r, happ, hks⟩
    · rintro ⟨rf, hf, ra, ha, r, happ, hks⟩
      exact ⟨r, ⟨rf, hf, ra, ha, happ⟩, hks⟩
  | argument r a env ks => exact Iff.rfl
  | call r ks hf =>
    simp only [Configuration.Gives, Outcome.HandedOn, Outcome.applied_call_iff hf]
  | stuck r ks hf =>
    simp only [Configuration.Gives, Outcome.HandedOn, Outcome.applied_stuck_iff hf, exists_eq_left]

theorem gives_iff_of_moves {c c' : Configuration} (h : ReflTransGen Moves c c') (s : Outcome) :
    c.Gives s ↔ c'.Gives s := by
  induction h with
  | refl => exact Iff.rfl
  | tail _ hstep ih => exact ih.trans (hstep.gives_iff s)

theorem bigStep_of_moves {env : Env} {t : Term} {r : Outcome}
    (h : ReflTransGen Moves (.term env t, []) (.outcome r, [])) : BigStep env t r := by
  have hend : Configuration.Gives (.outcome r, []) r := rfl
  obtain ⟨r', hr', rfl⟩ := (gives_iff_of_moves h r).mpr hend
  exact hr'

/-- **The machine computes the big steps.**  In every environment, evaluation of a term
returns `r` if and only if the term evaluates to `r` by the rules, and then it does so after a
definite number of transitions. -/
theorem evalIn_iff_bigStep (env : Env) (t : Term) (r : Outcome) :
    ((∃ fuel, t.evalIn fuel env = some r) ↔ BigStep env t r) ∧
      (BigStep env t r → ∃ m, ∀ fuel, t.evalIn fuel env = if m < fuel then some r else none) := by
  have hreturns : BigStep env t r →
      ∃ m, ∀ fuel, t.evalIn fuel env = if m < fuel then some r else none :=
    fun h => runMachine_of_moves (h.moves [])
  refine ⟨⟨?_, fun h => ?_⟩, hreturns⟩
  · rintro ⟨fuel, hfuel⟩
    exact bigStep_of_moves (moves_of_runMachine hfuel)
  · obtain ⟨m, hm⟩ := hreturns h
    exact ⟨m + 1, (hm (m + 1)).trans (if_pos (Nat.lt_succ_self m))⟩

end Nameless
