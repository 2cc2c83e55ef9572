/-
Nameless/Proofs/Evaluation/OpenTerms.lean

The evaluation machine on open terms.  What it answers is a reduct of the term it was
given, up to free indices that come back too high (`Raised`): an index without a binding
is left as it is, also when the binders it counts are gone.

So the answer is the reduct itself wherever no index can have been raised.  For the terms
put in this means that nothing is free in them, and for the answers that nothing above
index 0 is free in them; both conditions are the best possible
(`eval_reduces_up_to_raised`), since

    (λ. k + 1) (λ. 0)

evaluates to `k + 1` and reduces to `k`, and these two are not even convertible.
-/
import Nameless.Proofs.Evaluation.CallByValue
import Nameless.Proofs.Reduction.Confluence

namespace Nameless

open Relation (ReflTransGen EqvGen)
open Term (var lam app identity Beta Raised)

/-! ### Runs reduce -/

/-- A run reduces the term that the configuration stands for. -/
theorem reduces_of_moves {c c' : Configuration} (h : ReflTransGen Moves c c') {path : Path}
    {t : Term} (hc : c.Reads path t) :
    ∃ path' t', c'.Reads path' t' ∧ ReflTransGen Beta (path.plug t) (path'.plug t') := by
  induction h with
  | refl => exact ⟨path, t, hc, .refl⟩
  | tail _ hstep ih =>
    obtain ⟨path', t', hreads, hred⟩ := ih
    rcases hstep.reads hreads with ⟨path'', t'', hreads', hplug, -⟩ |
      ⟨-, -, -, path'', b, -, rfl, hreads'⟩
    · rw [← hplug] at hred
      exact ⟨path'', t'', hreads', hred⟩
    · exact ⟨path'', _, hreads', hred.tail ⟨path'', ⟨b, t'⟩, rfl, rfl⟩⟩

namespace Term

theorem exists_raised_of_eval {t : Term} {fuel : Nat} {r : Outcome} (h : t.eval fuel = some r) :
    ∃ u, ReflTransGen Beta t u ∧ Raised 0 u r.toTerm := by
  obtain ⟨path, u, ⟨⟨-⟩ | ⟨hr⟩, ⟨-⟩⟩, hred⟩ :=
    reduces_of_moves (moves_of_eval h) (Configuration.reads_start t)
  exact ⟨u, hred, hr.raised⟩

/-! ### Where nothing can have been raised -/

/-- Where `P` holds of the term and the answer, evaluation answers with a reduct. -/
def EvalReducesWhere (P : Term → Term → Prop) : Prop :=
  ∀ (t : Term) (fuel : Nat) (r : Outcome), P t r.toTerm → t.eval fuel = some r →
    ReflTransGen Beta t r.toTerm

/-- Where `P` holds of the term and the answer, evaluation and normalization give convertible
answers. -/
def EvalConvertsWhere (P : Term → Term → Prop) : Prop :=
  ∀ (t : Term) (fuel fuel' : Nat) (r : Outcome) (n : Term), P t r.toTerm →
    t.eval fuel = some r → t.normalize fuel' = some n → EqvGen Beta r.toTerm n

variable {P : Term → Term → Prop}

theorem EvalReducesWhere.converts (h : EvalReducesWhere P) : EvalConvertsWhere P := by
  intro t fuel fuel' r n hP heval hnorm
  have hr : EqvGen Beta t r.toTerm := eqvGen_of_reduces (h t fuel r hP heval)
  have hn : EqvGen Beta t n := eqvGen_of_reduces (reduces_of_normalize hnorm)
  exact .trans _ _ _ (.symm _ _ hr) hn

/-- An answer in which nothing above index 0 is free is a reduct. -/
theorem evalReducesWhere_free_zero : EvalReducesWhere fun _ u => ∀ k, u.Free k → k = 0 := by
  intro t fuel r hfree h
  obtain ⟨u, hred, hraised⟩ := exists_raised_of_eval h
  rwa [hraised.eq_of_free hfree] at hred

theorem evalReducesWhere_closed : EvalReducesWhere fun t _ => t.Closed := by
  intro t fuel r ht h
  have hend : Configuration.Closes (.outcome r, []) :=
    (Configuration.closes_start ht).run invariant_closes (moves_of_eval h)
  -- then nothing is free in the answer either
  have hclosed := (Outcome.Satisfies.toTerm invariant_closes hend.1).1
  exact evalReducesWhere_free_zero t fuel r (fun k hk => absurd hk (hclosed k)) h

/-! ### Where something is raised -/

/-- The index `k + 1` is not bound when the body is entered, and is not lowered either. -/
theorem eval_unbound (k : Nat) :
    (app (lam (var (k + 1))) identity).eval 7 = some (.value (var (k + 1))) := rfl

theorem normalize_unbound (k : Nat) :
    ∃ fuel, (app (lam (var (k + 1))) identity).normalize fuel = some (var k) := by
  have hstep : step^[1] (app (lam (var (k + 1))) identity) = var k := by
    show (app (lam (var (k + 1))) identity).step = var k
    rw [step_redex, subst_var_of_gt (Nat.succ_pos k)]
    rfl
  obtain ⟨m, hm⟩ := normalize_of_iterate (step_of_hasRedex_eq_false (hasRedex_var k)) hstep
  refine ⟨m + 1, ?_⟩
  rw [hm, if_pos (Nat.lt_succ_self m)]

theorem free_unbound {k j : Nat} : (app (lam (var (k + 1))) identity).Free j ↔ j = k := by
  have hj : (app (lam (var (k + 1))) identity).Free j ↔ k + 1 = j + 1 ∨ 0 = j + 1 := Iff.rfl
  rw [hj]
  omega

theorem not_eqvGen_var {i j : Nat} (h : i ≠ j) : ¬ EqvGen Beta (var i) (var j) := by
  intro heqv
  have hfree (n : Nat) : RedexFree (var n) := redexFree_iff.mpr (hasRedex_var n)
  exact h (Term.var.inj ((hfree i).eq_of_eqvGen (hfree j) heqv))

theorem EvalConvertsWhere.not_unbound (h : EvalConvertsWhere P) (k : Nat) :
    ¬ P (app (lam (var (k + 1))) identity) (var (k + 1)) := by
  intro hP
  obtain ⟨fuel, hnorm⟩ := normalize_unbound k
  have heqv : EqvGen Beta (var (k + 1)) (var k) := h _ 7 fuel _ _ hP (eval_unbound k) hnorm
  exact not_eqvGen_var (Nat.succ_ne_self k) heqv

/-! ### The condition -/

/-- A condition that suffices for reducts and is necessary for convertible answers is exact
for both. -/
theorem evalWhere_iff {C : Prop} (hreduces : C → EvalReducesWhere P)
    (hC : EvalConvertsWhere P → C) :
    (EvalReducesWhere P ↔ C) ∧ (EvalConvertsWhere P ↔ C) :=
  ⟨⟨fun h => hC h.converts, hreduces⟩, ⟨hC, fun h => (hreduces h).converts⟩⟩

/-- **Evaluation of open terms.**  The answer is a reduct up to raised free indices.  It is a
reduct, and convertible with the answer of normalization, exactly if no term with free indices
is put in; or, by the answers, exactly if none with a free index above 0 comes out. -/
theorem eval_reduces_up_to_raised (t : Term) (fuel : Nat) (r : Outcome) (S : Set Nat) :
    (t.eval fuel = some r → ∃ u, ReflTransGen Beta t u ∧ Raised 0 u r.toTerm) ∧
    ((EvalReducesWhere (fun t _ => ∀ k ∈ t.freeIndices, k ∈ S) ↔ S = ∅) ∧
      (EvalConvertsWhere (fun t _ => ∀ k ∈ t.freeIndices, k ∈ S) ↔ S = ∅)) ∧
    ((EvalReducesWhere (fun _ u => ∀ k ∈ u.freeIndices, k ∈ S) ↔ S ⊆ {0}) ∧
      (EvalConvertsWhere (fun _ u => ∀ k ∈ u.freeIndices, k ∈ S) ↔ S ⊆ {0})) := by
  simp only [mem_freeIndices]
  refine ⟨exists_raised_of_eval, ?_, ?_⟩
  · refine evalWhere_iff ?_ fun h => ?_
    · rintro rfl t fuel r ht
      exact evalReducesWhere_closed t fuel r ht
    · refine Set.eq_empty_of_forall_notMem fun k hk => h.not_unbound k fun j hj => ?_
      rwa [free_unbound.mp hj]
  · refine evalWhere_iff (fun hS t fuel r hr => ?_) fun h k hk => ?_
    · exact evalReducesWhere_free_zero t fuel r fun k hk => hS (hr k hk)
    · rcases k with - | k
      · rfl
      · refine absurd (fun j hj => ?_) (h.not_unbound k)
        obtain rfl : k + 1 = j := hj
        exact hk

/-- `(λ. 1) (λ. 0)` evaluates to `1`, which is the reduct `0` raised, and no reduct. -/
theorem eval_reduces_up_to_raised_unbound :
    (app (lam (var 1)) identity).eval 7 = some (.value (var 1)) ∧
      (∃ u, ReflTransGen Beta (app (lam (var 1)) identity) u ∧ Raised 0 u (var 1)) ∧
      ¬ ReflTransGen Beta (app (lam (var 1)) identity) (var 1) := by
  refine ⟨eval_unbound 0, (eval_reduces_up_to_raised _ 7 _ ∅).1 (eval_unbound 0), fun h => ?_⟩
  obtain ⟨fuel, hnorm⟩ := normalize_unbound 0
  have hzero := eqvGen_of_reduces (reduces_of_normalize hnorm)
  exact not_eqvGen_var Nat.one_ne_zero (.trans _ _ _ (.symm _ _ (eqvGen_of_reduces h)) hzero)

end Term

end Nameless
