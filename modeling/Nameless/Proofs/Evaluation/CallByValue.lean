/-
Nameless/Proofs/Evaluation/CallByValue.lean

The evaluation machine on closed terms.  By the side of the machine stands weak
call-by-value reduction (`CbvStep`), which substitutes at once and has no environments:
in an application the function goes first, then the argument, then the two are
contracted, and nothing is ever done below a binder.

On a closed term every environment of the machine binds all that is free in its code, and
binds it to closed abstractions (`Env.Closes`).  So nothing gets stuck, and the term that a
configuration stands for follows `CbvStep`: a transition either leaves it and makes the
configuration lighter, or takes the one step there is (`Moves.cbvStep`).  As the weight
cannot fall for ever, the machine cannot delay a step either, and so it returns exactly if
the reduction ends (`eval_call_by_value`).
-/
import Nameless.Proofs.Evaluation.Readback
import Nameless.Proofs.Term.FreeIndices

namespace Nameless

open Relation (ReflTransGen)
open Term (var lam app)

/-! ### Weak call-by-value reduction -/

namespace Term

/-- One step of weak call-by-value reduction. -/
inductive CbvStep : Term → Term → Prop
  | function {f f' : Term} (a : Term) : CbvStep f f' → CbvStep (app f a) (app f' a)
  | argument (b : Term) {a a' : Term} : CbvStep a a' → CbvStep (app (lam b) a) (app (lam b) a')
  | contract (b c : Term) : CbvStep (app (lam b) (lam c)) (Redex.contract ⟨b, lam c⟩)

theorem CbvStep.not_lam {b u : Term} : ¬ CbvStep (lam b) u := by
  intro h
  cases h

/-- There is at most one step to take. -/
theorem CbvStep.unique {t u v : Term} (hu : CbvStep t u) (hv : CbvStep t v) : u = v := by
  induction hu generalizing v with
  | function a hf ih =>
    cases hv with
    | function _ hf' => rw [ih hf']
    | argument _ _ => exact absurd hf CbvStep.not_lam
    | contract _ _ => exact absurd hf CbvStep.not_lam
  | argument b ha ih =>
    cases hv with
    | function _ hf => exact absurd hf CbvStep.not_lam
    | argument _ ha' => rw [ih ha']
    | contract _ _ => exact absurd ha CbvStep.not_lam
  | contract b c =>
    cases hv with
    | function _ hf => exact absurd hf CbvStep.not_lam
    | argument _ ha => exact absurd ha CbvStep.not_lam
    | contract _ _ => rfl

/-- A closed abstraction. -/
def ClosedValue (t : Term) : Prop :=
  t.Closed ∧ ∃ b, t = lam b

end Term

open Term (CbvStep ClosedValue)

/-! ### Environments that close their code -/

/-- All that is free in the term is bound, and everything bound is a closed abstraction. -/
structure Env.Closes (e : Env) (t : Term) : Prop where
  covers : ∀ k, t.Free k → (e.get? k).isSome = true
  values : ∀ i v, e.get? i = some v → v.ClosedValue

theorem Env.closes_empty {t : Term} (h : t.Closed) : empty.Closes t where
  covers k hk := absurd hk (h k)
  values i v hv := by simp at hv

/-- Written with closed terms, code has no free indices but those of the binders around it. -/
theorem Env.lt_of_free_write {e : Env} (he : ∀ i v, e.get? i = some v → v.Closed) {t : Term} :
    ∀ {d k : Nat}, (∀ k, t.Free (k + d) → (e.get? k).isSome = true) →
      (e.write d t).Free k → k < d := by
  induction t with
  | var i =>
    intro d k hcov hk
    rcases Nat.lt_or_ge i d with hi | hi
    · rw [write_var_of_lt e hi] at hk
      obtain rfl : i = k := hk
      exact hi
    · obtain ⟨v, hv⟩ := Option.isSome_iff_exists.mp
        (hcov (i - d) (Nat.sub_add_cancel hi).symm)
      rw [write_var_of_some hi hv, (he _ _ hv).shift_eq] at hk
      exact absurd hk (he _ _ hv k)
  | lam b ih =>
    intro d k hcov hk
    exact Nat.lt_of_succ_lt_succ (ih hcov hk)
  | app f a ihf iha =>
    intro d k hcov hk
    rcases hk with hk | hk
    · exact ihf (fun j hj => hcov j (Or.inl hj)) hk
    · exact iha (fun j hj => hcov j (Or.inr hj)) hk

theorem Env.Closes.closed_write {e : Env} {t : Term} (h : e.Closes t) : (e.write 0 t).Closed := by
  intro k hk
  have hlt : k < 0 := lt_of_free_write (fun i v hv => (h.values i v hv).1) h.covers hk
  exact Nat.not_lt_zero k hlt

theorem Env.Closes.push {e : Env} {b v : Term} (h : e.Closes (lam b)) (hv : v.ClosedValue) :
    (e.push v).Closes b where
  covers k hk := by
    rcases k with - | k
    · rw [get?_push_zero]
      rfl
    · rw [get?_push_succ]
      exact h.covers k hk
  values := forall_get?_push h.values hv

theorem invariant_closes : Invariant Env.Closes ClosedValue where
  lookup {env i} h := by
    obtain ⟨v, hv⟩ := Option.isSome_iff_exists.mp (h.covers i rfl)
    rw [hv]
    exact h.values i v hv
  function h := ⟨fun k hk => h.covers k (Or.inl hk), h.values⟩
  argument h := ⟨fun k hk => h.covers k (Or.inr hk), h.values⟩
  write {env b} h := by
    rw [Outcome.toTerm_closure]
    exact ⟨h.closed_write, env.write 1 b, rfl⟩
  reenter h := Env.closes_empty h.1
  call h hv := h.push hv
  stuck hf hne _ := by
    obtain ⟨-, b, rfl⟩ := hf
    exact absurd rfl (hne b)

/-- In every environment of a configuration the code is closed. -/
abbrev Configuration.Closes (c : Configuration) : Prop :=
  c.Satisfies Env.Closes ClosedValue

theorem Configuration.closes_start {t : Term} (h : t.Closed) : (Configuration.start t).Closes :=
  satisfies_start (Env.closes_empty h)

theorem Outcome.Reads.exists_eq_lam {r : Outcome} {u : Term} (h : r.Reads u)
    (hr : r.Satisfies Env.Closes ClosedValue) : ∃ b, u = lam b := by
  cases h with
  | value h =>
    obtain ⟨-, b, rfl⟩ := hr
    cases h with
    | lam _ => exact ⟨_, rfl⟩
  | closure _ => exact ⟨_, rfl⟩

/-- A closed outcome stands for the term it is written as, and for no other. -/
theorem Outcome.Reads.eq_toTerm {r : Outcome} {u : Term} (h : r.Reads u)
    (hr : r.Satisfies Env.Closes ClosedValue) : u = r.toTerm :=
  h.raised.eq_of_closed (hr.toTerm invariant_closes).1

/-! ### The machine takes the steps -/

/-- What the machine works on stands where a step may be taken. -/
theorem Term.CbvStep.plug {ks : List Continuation} {path : Path}
    (hpath : List.Forall₂ Continuation.Reads ks path) :
    (∀ k ∈ ks, k.Satisfies Env.Closes ClosedValue) →
      ∀ {t u : Term}, CbvStep t u → CbvStep (path.plug t) (path.plug u) := by
  induction hpath with
  | nil =>
    intro _ t u h
    exact h
  | cons hk _ ih =>
    intro hks t u h
    obtain ⟨hclosed, hks⟩ := List.forall_mem_cons.mp hks
    refine ih hks ?_
    cases hk with
    | argument _ => exact .function _ h
    | apply hf =>
      -- the argument is stepped only when the function is an abstraction
      obtain ⟨b, rfl⟩ := hf.exists_eq_lam hclosed
      exact .argument b h

/-- The configuration stands for the whole term `u`. -/
def Configuration.StandsFor (c : Configuration) (u : Term) : Prop :=
  ∃ path t, c.Reads path t ∧ path.plug t = u

/-- A transition is silent and makes the configuration lighter, or it takes a step. -/
theorem Moves.cbvStep {c c' : Configuration} (h : Moves c c') (hc : c.Closes) {u : Term}
    (hu : c.StandsFor u) :
    (c'.StandsFor u ∧ c'.weight < c.weight) ∨ ∃ u', CbvStep u u' ∧ c'.StandsFor u' := by
  obtain ⟨path, t, hreads, rfl⟩ := hu
  rcases h.reads hreads with ⟨path', t', hreads', hplug, hlt⟩ |
    ⟨r, f, ks, path', b, rfl, rfl, hreads'⟩
  · exact Or.inl ⟨⟨path', t', hreads', hplug⟩, hlt⟩
  · right
    rcases hreads with ⟨⟨-⟩ | ⟨hr⟩, - | ⟨-, hks⟩⟩
    obtain ⟨d, rfl⟩ := hr.exists_eq_lam hc.1
    exact ⟨_, (CbvStep.contract b d).plug hks (List.forall_mem_cons.mp hc.2).2, _, _, hreads', rfl⟩

theorem cbvSteps_of_moves {c c' : Configuration} (h : ReflTransGen Moves c c') (hc : c.Closes)
    {u : Term} (hu : c.StandsFor u) : ∃ u', ReflTransGen CbvStep u u' ∧ c'.StandsFor u' := by
  induction h with
  | refl => exact ⟨u, .refl, hu⟩
  | tail hrun hstep ih =>
    obtain ⟨v, hsteps, hv⟩ := ih
    rcases hstep.cbvStep (hc.run invariant_closes hrun) hv with ⟨hv', -⟩ | ⟨v', hcbv, hv'⟩
    · exact ⟨v, hsteps, hv'⟩
    · exact ⟨v', hsteps.tail hcbv, hv'⟩

/-- At the end of a run, the machine stands for the term that the outcome is written as. -/
theorem Configuration.StandsFor.eq_toTerm {r : Outcome} {u : Term}
    (h : Configuration.StandsFor (.outcome r, []) u)
    (hc : Configuration.Closes (.outcome r, [])) : u = r.toTerm := by
  obtain ⟨path, t, ⟨⟨-⟩ | ⟨hr⟩, ⟨-⟩⟩, rfl⟩ := h
  exact hr.eq_toTerm hc.1

/-! ### The steps drive the machine -/

/-- The machine does not stay silent for ever: it comes to the outcome, or takes a step. -/
theorem Configuration.Closes.exists_run {c : Configuration} (hc : c.Closes) {u : Term}
    (hu : c.StandsFor u) :
    ∃ c', ReflTransGen Moves c c' ∧
      ((c'.StandsFor u ∧ ∃ r, c' = (.outcome r, [])) ∨
        ∃ u', CbvStep u u' ∧ c'.StandsFor u') := by
  -- on the weight, which every silent transition lowers
  induction hw : c.weight using Nat.strong_induction_on generalizing c with
  | _ w ih =>
    rcases hnext : transition c.1 c.2 with r | c'
    · obtain ⟨hfocus, hks⟩ := transition_eq_inl hnext
      exact ⟨c, .refl, Or.inl ⟨hu, r, Prod.ext hfocus hks⟩⟩
    · have hmove : Moves c c' := moves_iff.mpr hnext
      rcases hmove.cbvStep hc hu with ⟨hu', hlt⟩ | hcbv
      · obtain ⟨c'', hrun, hend⟩ := ih _ (hw ▸ hlt) (hc.moves invariant_closes hmove) hu' rfl
        exact ⟨c'', .head hmove hrun, hend⟩
      · exact ⟨c', .single hmove, Or.inr hcbv⟩

theorem Configuration.Closes.exists_outcome {c : Configuration} (hc : c.Closes) {u b : Term}
    (hu : c.StandsFor u) (h : ReflTransGen CbvStep u (lam b)) :
    ∃ r : Outcome, ReflTransGen Moves c (.outcome r, []) ∧ r.toTerm = lam b := by
  -- on the steps that are left; the machine takes the first one, since there is only one
  induction h using ReflTransGen.head_induction_on generalizing c with
  | refl =>
    obtain ⟨c', hrun, ⟨hu', r, rfl⟩ | ⟨u', hcbv, -⟩⟩ := hc.exists_run hu
    · exact ⟨r, hrun, (hu'.eq_toTerm (hc.run invariant_closes hrun)).symm⟩
    · exact absurd hcbv CbvStep.not_lam
  | head hstep _ ih =>
    obtain ⟨c', hrun, hend⟩ := hc.exists_run hu
    have hc' : c'.Closes := hc.run invariant_closes hrun
    rcases hend with ⟨hu', r, rfl⟩ | ⟨u', hcbv, hu'⟩
    · -- the machine cannot have come to the end while a step is left to take
      obtain ⟨-, d, hd⟩ := Outcome.Satisfies.toTerm invariant_closes hc'.1
      rw [hu'.eq_toTerm hc', hd] at hstep
      exact absurd hstep CbvStep.not_lam
    · obtain rfl := hcbv.unique hstep
      obtain ⟨r, hrest, hr⟩ := ih hc' hu'
      exact ⟨r, hrun.trans hrest, hr⟩

namespace Term

/-- **The machine is call by value.**  On a closed term, evaluation returns exactly if weak
call-by-value reduction comes to an abstraction, and what it returns is that abstraction. -/
theorem eval_call_by_value {t : Term} (ht : t.freeIndices = []) :
    (∀ fuel r, t.eval fuel = some r →
      ∃ b, ReflTransGen CbvStep t (lam b) ∧ r.toTerm = lam b) ∧
    (∀ b, ReflTransGen CbvStep t (lam b) →
      ∃ r m, r.toTerm = lam b ∧ ∀ fuel, t.eval fuel = if m < fuel then some r else none) := by
  have hstart : (Configuration.start t).Closes :=
    Configuration.closes_start (freeIndices_eq_nil_iff.mp ht)
  have hreads : (Configuration.start t).StandsFor t := ⟨[], t, Configuration.reads_start t, rfl⟩
  constructor
  · intro fuel r h
    have hrun := moves_of_eval h
    have hend : Configuration.Closes (.outcome r, []) := hstart.run invariant_closes hrun
    obtain ⟨u, hsteps, hu⟩ := cbvSteps_of_moves hrun hstart hreads
    obtain ⟨-, b, hb⟩ := Outcome.Satisfies.toTerm invariant_closes hend.1
    rw [hu.eq_toTerm hend, hb] at hsteps
    exact ⟨b, hsteps, hb⟩
  · intro b h
    obtain ⟨r, hrun, hr⟩ := hstart.exists_outcome hreads h
    obtain ⟨m, hm⟩ := eval_of_moves hrun
    exact ⟨r, m, hr, hm⟩

/-- `(λ.λ. 1) ((λ. 0) (λ. 0))`: the argument is evaluated before it is put under the binder. -/
theorem eval_call_by_value_constant :
    (app constant (app identity identity)).freeIndices = [] ∧
      ReflTransGen CbvStep (app constant (app identity identity)) (lam identity) ∧
      ∃ r m, r.toTerm = lam identity ∧
        ∀ fuel, (app constant (app identity identity)).eval fuel
          = if m < fuel then some r else none := by
  have hargument : CbvStep (app identity identity) identity := by
    have h := CbvStep.contract (var 0) (var 0)
    rwa [Redex.contract, subst_var_self] at h
  have hcall : CbvStep (app constant identity) (lam identity) := by
    have h := CbvStep.contract (lam (var 1)) (var 0)
    rwa [Redex.contract, subst_lam, subst_var_self, shift_lam, shift_var_of_lt (by decide)] at h
  have hsteps := (ReflTransGen.single (CbvStep.argument (lam (var 1)) hargument)).tail hcall
  have hclosed : (app constant (app identity identity)).freeIndices = [] := by decide +kernel
  exact ⟨hclosed, hsteps, (eval_call_by_value hclosed).2 identity hsteps⟩

end Term

end Nameless
