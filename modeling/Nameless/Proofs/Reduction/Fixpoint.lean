/-
Nameless/Proofs/Reduction/Fixpoint.lean

The fixpoints of the normal-order step.  A step compares whole terms and not redexes,
so it may leave a term with a redex as it is; that happens if and only if its first
redex contracts to itself,

    b.subst 0 a = app (lam b) a,

and the only solution of this equation is Ω (`Redex.contract_eq_toTerm_iff`).  It is
solved from both ends.  On the left, `b` begins with the index that is bound: if it
stood further down, it would be under a binder in one place and not in the other
(`head_of_subst_eq`).  So `b` is `app (var 0) q` and `a` is `lam (app (var 0) q)`, and
since `a` is longer than `q`, only a variable `q` can become `a` (`eq_var_of_subst_eq`).

Hence the loop ends in a normal form, or in a term that has Ω for its first redex, and
the second kind of term has no normal form (`step_fixpoints`).
-/
import Nameless.Proofs.Reduction.Standardization
import Nameless.Proofs.Term.FreeIndices

namespace Nameless

open Relation (ReflTransGen)

namespace Term

/-! ### Sizes -/

@[simp] theorem size_shift (t : Term) : ∀ c a : Nat, (t.shift c a).size = t.size := by
  induction t with
  | var i =>
    intro c a
    rw [shift_var]
    split <;> rfl
  | lam b ih =>
    intro c a
    rw [shift_lam, size, size, ih]
  | app f x ihf ihx =>
    intro c a
    rw [shift_app, size, size, ihf, ihx]

theorem size_le_size_subst (t : Term) : ∀ (k : Nat) (r : Term), t.size ≤ (t.subst k r).size := by
  induction t with
  | var i =>
    intro k r
    exact size_pos _
  | lam b ih =>
    intro k r
    rw [subst_lam, size, size]
    exact Nat.succ_le_succ (ih _ _)
  | app f x ihf ihx =>
    intro k r
    rw [subst_app, size, size]
    exact Nat.succ_le_succ (Nat.add_le_add (ihf k r) (ihx k r))

/-- Where the index occurs, the replacement is added in the place of one node. -/
theorem size_subst_of_free {t : Term} :
    ∀ {k : Nat} (r : Term), t.Free k → t.size + r.size ≤ (t.subst k r).size + 1 := by
  induction t with
  | var i =>
    rintro k r ⟨⟩
    rw [subst_var_self, size, Nat.add_comm]
  | lam b ih =>
    intro k r h
    have hb := ih (r.shift 0 1) h
    rw [size_shift] at hb
    rw [subst_lam, size, size]
    omega
  | app f x ihf ihx =>
    intro k r h
    rw [subst_app, size, size]
    rcases h with h | h
    · have hf := ihf r h
      have hx := size_le_size_subst x k r
      omega
    · have hx := ihx r h
      have hf := size_le_size_subst f k r
      omega

theorem size_subst_of_not_free {t : Term} :
    ∀ {k : Nat} (r : Term), ¬ t.Free k → (t.subst k r).size = t.size := by
  induction t with
  | var i =>
    intro k r h
    have hne : i ≠ k := h
    rw [subst_var, if_neg hne]
    split <;> rfl
  | lam b ih =>
    intro k r h
    rw [subst_lam, size, size, ih _ h]
  | app f x ihf ihx =>
    intro k r h
    obtain ⟨hf, hx⟩ := not_or.mp h
    rw [subst_app, size, size, ihf r hf, ihx r hx]

/-- What becomes a longer term by putting that term into it is the variable itself. -/
theorem eq_var_of_subst_eq {q r : Term} {k : Nat} (h : q.subst k r = r) (hlt : q.size < r.size) :
    q = var k := by
  by_cases hfree : q.Free k
  · have hsize := size_subst_of_free r hfree
    rw [h] at hsize
    -- there is room for one node besides the replacement
    cases q with
    | var i => exact congrArg var hfree
    | lam b =>
      have := b.size_pos
      simp only [size] at hsize
      omega
    | app f x =>
      have := f.size_pos
      simp only [size] at hsize
      omega
  · have hsize := size_subst_of_not_free r hfree
    rw [h] at hsize
    omega

/-! ### Redexes that contract to themselves -/

/-- Substitution under `k` binders turns `f` into `lam (app f x)`, or into `app (lam f) x`,
only for `k = 0` and only if the bound index comes first in `f`. -/
theorem head_of_subst_eq (r f : Term) :
    ∀ (k : Nat) (x : Term),
      (f.subst k (r.shift 0 k) = lam (app f x) → k = 0 ∧ f = var 0) ∧
      (f.subst k (r.shift 0 k) = app (lam f) x →
        k = 0 ∧ (f = var 0 ∨ ∃ q, f = app (var 0) q)) := by
  induction f with
  | var i =>
    intro k x
    rcases Nat.lt_trichotomy i k with hi | rfl | hi
    · rw [subst_var_of_lt hi]
      exact ⟨nofun, nofun⟩
    · rw [subst_var_self]
      -- the replacement has crossed `i` binders, so it cannot begin with one of their indices
      rcases i with - | d
      · exact ⟨fun _ => ⟨rfl, rfl⟩, fun _ => ⟨rfl, Or.inl rfl⟩⟩
      · have hgap : ¬ (r.shift 0 (d + 1)).Free d := not_free_shift (Nat.lt_succ_self d) r
        refine ⟨fun h => absurd ?_ hgap, fun h => absurd ?_ hgap⟩
        · rw [h]
          exact Or.inl rfl
        · rw [h]
          exact Or.inl rfl
    · rw [subst_var_of_gt hi]
      exact ⟨nofun, nofun⟩
  | lam g ih =>
    intro k x
    rw [subst_lam, shift_shift_of_mem r 1 (Nat.le_refl 0) (Nat.zero_le _)]
    refine ⟨fun h => ?_, nofun⟩
    obtain ⟨hk, -⟩ := (ih (k + 1) x).2 (Term.lam.inj h)
    exact absurd hk (Nat.succ_ne_zero k)
  | app p q ihp ihq =>
    intro k x
    rw [subst_app]
    refine ⟨nofun, fun h => ?_⟩
    obtain ⟨rfl, rfl⟩ := (ihp k q).1 (Term.app.inj h).1
    exact ⟨rfl, Or.inr ⟨q, rfl⟩⟩

end Term

open Term (var lam app omega RedexFree Beta)

/-- **Ω is the only redex that contracts to itself.** -/
theorem Redex.contract_eq_toTerm_iff {r : Redex} : r.contract = r.toTerm ↔ r.toTerm = omega := by
  obtain ⟨b, a⟩ := r
  constructor
  · intro h
    have hhead : b.subst 0 (a.shift 0 0) = app (lam b) a := by
      rwa [Term.shift_zero]
    obtain ⟨-, rfl | ⟨q, rfl⟩⟩ := (Term.head_of_subst_eq a b 0 a).2 hhead
    · -- `(λ. 0) a` contracts to the shorter term `a`
      have hsize := congrArg Term.size h
      simp only [contract, toTerm, Term.subst_var_self, Term.size] at hsize
      omega
    · simp only [contract, toTerm, Term.subst_app, Term.subst_var_self, Term.app.injEq] at h
      obtain ⟨ha, hq⟩ := h
      obtain rfl : q = var 0 := by
        refine Term.eq_var_of_subst_eq hq ?_
        rw [ha]
        simp only [Term.size]
        omega
      rw [toTerm, ha]
      rfl
  · intro h
    obtain ⟨hb, rfl⟩ := Term.app.inj h
    obtain rfl := Term.lam.inj hb
    simp only [contract, toTerm, Term.subst_app, Term.subst_var_self]

theorem Frame.wrap_injective (frame : Frame) : Function.Injective frame.wrap := by
  intro t u h
  cases frame with
  | body => exact Term.lam.inj h
  | function a => exact (Term.app.inj h).1
  | argument f => exact (Term.app.inj h).2

theorem Path.plug_injective (path : Path) : Function.Injective path.plug := by
  induction path with
  | nil => exact Function.injective_id
  | cons frame path ih => exact ih.comp frame.wrap_injective

namespace Term

/-! ### Fixpoints of the step -/

/-- The leftmost outermost redex is Ω. -/
def FirstRedexOmega (t : Term) : Prop :=
  ∃ o, t.firstRedex? = some o ∧ o.redex.toTerm = omega

theorem FirstRedexOmega.hasRedex {t : Term} (h : t.FirstRedexOmega) : t.hasRedex = true := by
  obtain ⟨o, ho, -⟩ := h
  rw [Term.hasRedex, ho]
  rfl

theorem step_eq_self_iff {t : Term} : t.step = t ↔ RedexFree t ∨ t.FirstRedexOmega := by
  rw [redexFree_iff, hasRedex_eq_false_iff, FirstRedexOmega]
  rcases ho : t.firstRedex? with - | o
  · simp [step, ho]
  · have hplug : t.step = t ↔ o.path.plug o.redex.contract = o.path.plug o.redex.toTerm := by
      rw [step_of_firstRedex? ho, plug_of_firstRedex? ho]
    rw [hplug, o.path.plug_injective.eq_iff, Redex.contract_eq_toTerm_iff]
    simp

/-- The loop ends in a term with a redex only if there is no normal form to be found. -/
theorem not_redexFree_of_normalize {t n m : Term} {fuel : Nat} (h : t.normalize fuel = some n)
    (hn : n.hasRedex = true) (hm : ReflTransGen Beta t m) : ¬ RedexFree m := by
  intro hfree
  obtain ⟨i, hi, hfix⟩ := iterate_of_normalize h
  obtain ⟨j, hj⟩ := iterate_of_reduces hm hfree
  have hred := redexFree_iff.mp hfree
  obtain rfl : n = m := iterate_fixpoint_unique hi hj hfix (step_of_hasRedex_eq_false hred)
  rw [hn] at hred
  cases hred

/-- **The fixpoints of the normal-order step** are the terms without a redex and the terms
whose leftmost outermost redex is Ω.  So normalization ends in the one or the other, and if
it ends in a term of the second kind, no reduct of the first term is free of redexes. -/
theorem step_fixpoints :
    (∀ t : Term, t.step = t ↔ RedexFree t ∨ t.FirstRedexOmega) ∧
    (∀ (t n : Term) (fuel : Nat), t.normalize fuel = some n →
      (RedexFree n ∨ n.FirstRedexOmega) ∧
      (n.FirstRedexOmega → ∀ m, ReflTransGen Beta t m → ¬ RedexFree m)) := by
  refine ⟨fun t => step_eq_self_iff, fun t n fuel h => ⟨?_, fun hn m hm => ?_⟩⟩
  · obtain ⟨-, -, hfix⟩ := iterate_of_normalize h
    exact step_eq_self_iff.mp hfix
  · exact not_redexFree_of_normalize h hn.hasRedex hm

/-- `(λ. 0 (λ. 0 0)) (λ. 5 (0 0))` becomes `(λ. 5 (0 0)) (λ. 0 0)` and then `4 Ω`, where the
loop stops: there is no normal form to be found. -/
theorem step_fixpoints_stuck_argument :
    (app (lam (app (var 0) (lam (app (var 0) (var 0)))))
        (lam (app (var 5) (app (var 0) (var 0))))).normalize 3 = some (app (var 4) omega) ∧
      (app (var 4) omega).FirstRedexOmega ∧
      ∀ m, ReflTransGen Beta (app (lam (app (var 0) (lam (app (var 0) (var 0)))))
        (lam (app (var 5) (app (var 0) (var 0))))) m → ¬ RedexFree m := by
  have hnorm : (app (lam (app (var 0) (lam (app (var 0) (var 0)))))
      (lam (app (var 5) (app (var 0) (var 0))))).normalize 3 = some (app (var 4) omega) := by
    decide +kernel
  obtain ⟨hend, hnone⟩ := step_fixpoints.2 _ _ 3 hnorm
  have hfirst : (app (var 4) omega).FirstRedexOmega := by
    rcases hend with hfree | hfirst
    · exact absurd (redexFree_iff.mp hfree) (by decide +kernel)
    · exact hfirst
  exact ⟨hnorm, hfirst, hnone hfirst⟩

end Term

end Nameless
