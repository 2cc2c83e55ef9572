/-
Nameless/Proofs/Evaluation/WeakValues.lean

What evaluation can end in.  Nothing is done below a binder, and an application whose
function is no abstraction is stuck.  So outcomes stand for weak values: variables,
abstractions, and applications of a variable to weak values,

    i,    λ. b,    i v₁ … vₙ.

The machine puts terms into environments and takes them out again, re-enters abstractions
that it finds there, and builds applications from its outcomes.  That everything bound is a
weak value is kept by all of this, whatever the code and whether it is open or closed
(`invariant_weakValues`); the code itself need not satisfy anything.

Evaluation leaves a weak value as it is (`WeakValue.exists_bigStep`), by recursion on the
spine, so evaluating an answer again gives the same answer.
-/
import Nameless.Proofs.Evaluation.BigStep
import Nameless.Proofs.Evaluation.Readback

namespace Nameless

open Term (var lam app)

/-! ### Weak values -/

namespace Term

/-- What is reached by following function positions. -/
def head : Term → Term
  | var i => var i
  | lam b => lam b
  | app f _ => f.head

/-- The arguments that are passed on the way to the head, the innermost first. -/
def arguments : Term → List Term
  | var _ => []
  | lam _ => []
  | app f a => f.arguments ++ [a]

/-- A variable, an abstraction, or an application of a variable to weak values. -/
inductive WeakValue : Term → Prop
  | index (i : Nat) : WeakValue (var i)
  | abstraction (b : Term) : WeakValue (lam b)
  | spine {f a : Term} {i : Nat} :
      (app f a).head = var i → (∀ x ∈ (app f a).arguments, WeakValue x) → WeakValue (app f a)

theorem WeakValue.of_head {t : Term} {i : Nat} (hhead : t.head = var i)
    (hargs : ∀ x ∈ t.arguments, WeakValue x) : WeakValue t := by
  cases t with
  | var j => exact .index j
  | lam b => exact .abstraction b
  | app f a => exact .spine hhead hargs

/-- Weak values that are no abstractions have a variable at their head. -/
theorem WeakValue.exists_head {t : Term} (h : WeakValue t) (hne : ∀ b, t ≠ lam b) :
    ∃ i, t.head = var i ∧ ∀ x ∈ t.arguments, WeakValue x := by
  cases h with
  | index i => exact ⟨i, rfl, List.forall_mem_nil _⟩
  | abstraction b => exact absurd rfl (hne b)
  | spine hhead hargs => exact ⟨_, hhead, hargs⟩

/-- One application at a time: the function is a weak value and no abstraction. -/
theorem weakValue_app_iff {f a : Term} :
    WeakValue (app f a) ↔ (WeakValue f ∧ ∀ b, f ≠ lam b) ∧ WeakValue a := by
  constructor
  · intro h
    cases h with
    | spine hhead hargs =>
      obtain ⟨hf, ha⟩ := List.forall_mem_append.mp hargs
      refine ⟨⟨.of_head hhead hf, ?_⟩, ha a List.mem_cons_self⟩
      rintro b rfl
      cases hhead
  · rintro ⟨⟨hf, hne⟩, ha⟩
    obtain ⟨i, hhead, hargs⟩ := hf.exists_head hne
    exact .spine hhead (List.forall_mem_append.mpr ⟨hargs, List.forall_mem_singleton.mpr ha⟩)

end Term

open Term (WeakValue)

/-! ### Runs keep weak values -/

/-- Everything bound is a weak value. -/
def Env.BindsWeakValues (e : Env) : Prop :=
  ∀ i v, e.get? i = some v → WeakValue v

theorem Env.bindsWeakValues_empty : empty.BindsWeakValues := by
  intro i v hv
  cases hv

/-- No transition makes anything but weak values from weak values. -/
theorem invariant_weakValues : Invariant (fun env _ => env.BindsWeakValues) WeakValue where
  lookup {env i} h := by
    rcases hget : env.get? i with - | v
    · exact .index i
    · exact h i v hget
  function h := h
  argument h := h
  write {env b} _ := by
    -- a closure is written as an abstraction, whatever it binds
    rw [Outcome.toTerm_closure]
    exact .abstraction _
  reenter _ := Env.bindsWeakValues_empty
  call h ht := Env.forall_get?_push h ht
  stuck hf hne ha := Term.weakValue_app_iff.mpr ⟨⟨hf, hne⟩, ha⟩

theorem weakValue_of_eval {t : Term} {fuel : Nat} {r : Outcome} (h : t.eval fuel = some r) :
    WeakValue r.toTerm := by
  have hend : Configuration.Satisfies (fun env _ => env.BindsWeakValues) WeakValue
      (.outcome r, []) :=
    (Configuration.satisfies_start Env.bindsWeakValues_empty).run invariant_weakValues
      (moves_of_eval h)
  exact Outcome.Satisfies.toTerm invariant_weakValues hend.1

/-! ### Weak values evaluate to themselves -/

theorem Outcome.closure?_value_eq_none {t : Term} (h : ∀ b, t ≠ lam b) :
    (value t).closure? = none := by
  cases t with
  | var i => rfl
  | lam b => exact absurd rfl (h b)
  | app f a => rfl

/-- With nothing bound, a weak value evaluates to an outcome that stands for it: an abstraction
to a closure over nothing, and anything else to the plain value. -/
theorem Term.WeakValue.exists_bigStep {t : Term} (h : WeakValue t) :
    ∃ r, BigStep .empty t r ∧ r.toTerm = t ∧ ((∀ b, t ≠ lam b) → r = .value t) := by
  induction t with
  | var i => exact ⟨.value (var i), .unbound rfl, rfl, fun _ => rfl⟩
  | lam b => exact ⟨.closure .empty b, .abstraction .empty b, rfl, fun hne => absurd rfl (hne b)⟩
  | app f a ihf iha =>
    obtain ⟨⟨hf, hne⟩, ha⟩ := weakValue_app_iff.mp h
    obtain ⟨rf, hstepf, -, hvalue⟩ := ihf hf
    obtain ⟨ra, hstepa, hra, -⟩ := iha ha
    -- the function is stuck as it stands, so it cannot be called
    obtain rfl := hvalue hne
    have hstuck := BigStep.stuck hstepf hstepa (Outcome.closure?_value_eq_none hne)
    rw [hra] at hstuck
    exact ⟨_, hstuck, rfl, fun _ => rfl⟩

/-- **Answers are weak values, and stable.**  Whatever term evaluation returns on, the outcome
stands for a weak value, and evaluating that weak value returns, after a definite number of
transitions, an outcome that stands for it again. -/
theorem Term.eval_weakValue_stable {t : Term} {fuel : Nat} {r : Outcome}
    (h : t.eval fuel = some r) :
    WeakValue r.toTerm ∧
    ∃ r' m, r'.toTerm = r.toTerm ∧
      ∀ fuel', r.toTerm.eval fuel' = if m < fuel' then some r' else none := by
  have hvalue := weakValue_of_eval h
  obtain ⟨r', hstep, hr', -⟩ := hvalue.exists_bigStep
  obtain ⟨m, hm⟩ := eval_of_moves (hstep.moves [])
  exact ⟨hvalue, r', m, hr', hm⟩

/-- `(λ. 3 (λ. 1)) (5 (λ. 0))` evaluates to the stuck application `3 (λ. 6 (λ. 0))`: index 3 has
no binding, and the closure that it is applied to is written with what it binds. -/
theorem Term.eval_weakValue_stable_stuck :
    let t := app (lam (app (var 3) (lam (var 1)))) (app (var 5) identity)
    let u := app (var 3) (lam (app (var 6) identity))
    t.eval 20 = some (.value u) ∧ WeakValue u ∧
    ∃ r' m, r'.toTerm = u ∧ ∀ fuel', u.eval fuel' = if m < fuel' then some r' else none := by
  intro t u
  have hwritten : (Outcome.closure (Env.empty.push (app (var 5) identity)) (var 1)).toTerm
      = lam (app (var 6) identity) := by decide +kernel
  have ht : t.eval 20 = some (.value u) :=
    congrArg (fun v => some (Outcome.value (app (var 3) v))) hwritten
  exact ⟨ht, eval_weakValue_stable ht⟩

end Nameless
