/-
Nameless/Proofs/Reduction/Confluence.lean

β-reduction is confluent.  `Parallel t u` contracts any set of redexes of `t` at
once, and `develop t` contracts all of them.  Whatever set was contracted, the rest
can still be:

    Parallel t u  →  Parallel u t.develop            (`Parallel.develop`)

so two parallel steps from `t` meet in `develop t`, and chains of parallel steps,
which are the reduction sequences (`reduces_iff_parallel`), meet as well.

The weight lies on `Parallel.subst`: parallel steps in a body and in an argument make
one parallel step between the contracta.  Its case for a redex is `subst_subst` with
the inner target at 0, and its case for an abstraction needs `Parallel.shift`.
-/
import Nameless.Proofs.Reduction.Beta
import Nameless.Proofs.Term.Substitution

namespace Nameless.Term

open Relation (ReflTransGen ReflGen EqvGen Join)

/-! ### Parallel steps -/

/-- `u` is `t` with some set of its redexes contracted, all at once. -/
inductive Parallel : Term → Term → Prop
  | var (i : Nat) : Parallel (var i) (var i)
  | lam {b b' : Term} : Parallel b b' → Parallel (lam b) (lam b')
  | app {f f' a a' : Term} : Parallel f f' → Parallel a a' → Parallel (app f a) (app f' a')
  | redex {b b' a a' : Term} :
      Parallel b b' → Parallel a a' → Parallel (app (lam b) a) (b'.subst 0 a')

/-- The empty set of redexes. -/
theorem Parallel.refl (t : Term) : Parallel t t := by
  induction t with
  | var i => exact .var i
  | lam b ih => exact .lam ih
  | app f a ihf iha => exact .app ihf iha

theorem Beta.parallel {t u : Term} (h : Beta t u) : Parallel t u := by
  induction h using Beta.induction with
  | redex b a => exact .redex (.refl b) (.refl a)
  | body b b' _ ih => exact .lam ih
  | function f f' a _ ih => exact .app ih (.refl a)
  | argument f a a' _ ih => exact .app (.refl f) ih

/-- A parallel step is a reduction sequence: the parts first, then the redex. -/
theorem Parallel.reduces {t u : Term} (h : Parallel t u) : ReflTransGen Beta t u := by
  induction h with
  | var i => exact ReflTransGen.refl
  | lam _ ih => exact reduces_lam ih
  | app _ _ ihf iha => exact reduces_app ihf iha
  | @redex b b' a a' _ _ ihb iha =>
    exact (reduces_app (reduces_lam ihb) iha).tail (Beta.redex b' a')

theorem reduces_iff_parallel {t u : Term} :
    ReflTransGen Beta t u ↔ ReflTransGen Parallel t u := by
  constructor
  · intro h
    exact ReflTransGen.mono (fun _ _ => Beta.parallel) _ _ h
  · intro h
    exact Relation.reflTransGen_closed (fun _ _ => Parallel.reduces) _ _ h

/-! ### Parallel steps under shifting and substitution -/

theorem Parallel.shift {t u : Term} (h : Parallel t u) :
    ∀ c a : Nat, Parallel (t.shift c a) (u.shift c a) := by
  induction h with
  | var i =>
    intro c a
    exact .refl _
  | lam _ ih =>
    intro c a
    rw [shift_lam, shift_lam]
    exact .lam (ih (c + 1) a)
  | app _ _ ihf iha =>
    intro c a
    rw [shift_app, shift_app]
    exact .app (ihf c a) (iha c a)
  | @redex b b' x x' _ _ ihb ihx =>
    intro c a
    rw [shift_app, shift_lam, shift_subst_of_ge b' a x' (Nat.zero_le c)]
    exact .redex (ihb (c + 1) a) (ihx c a)

/-- Parallel steps in a term and in what is put into it are one parallel step. -/
theorem Parallel.subst {t u : Term} (h : Parallel t u) :
    ∀ {r s : Term} (k : Nat), Parallel r s → Parallel (t.subst k r) (u.subst k s) := by
  induction h with
  | var i =>
    intro r s k hrs
    rcases Nat.lt_trichotomy i k with hi | rfl | hi
    · rw [subst_var_of_lt hi, subst_var_of_lt hi]
      exact .refl _
    · rw [subst_var_self, subst_var_self]
      exact hrs
    · rw [subst_var_of_gt hi, subst_var_of_gt hi]
      exact .refl _
  | lam _ ih =>
    intro r s k hrs
    rw [subst_lam, subst_lam]
    exact .lam (ih (k + 1) (hrs.shift 0 1))
  | app _ _ ihf iha =>
    intro r s k hrs
    rw [subst_app, subst_app]
    exact .app (ihf k hrs) (iha k hrs)
  | @redex b b' x x' _ _ ihb ihx =>
    intro r s k hrs
    -- the redex is contracted at index 0, below every target `k`
    rw [subst_app, subst_lam, subst_subst b' x' s (Nat.zero_le k)]
    exact .redex (ihb (k + 1) (hrs.shift 0 1)) (ihx k hrs)

/-! ### Complete developments -/

/-- All redexes contracted at once. -/
def develop : Term → Term
  | var i => var i
  | lam b => lam b.develop
  | app (lam b) a => b.develop.subst 0 a.develop
  | app f a => app f.develop a.develop

theorem develop_app {f : Term} (hf : ∀ b, f ≠ lam b) (a : Term) :
    (app f a).develop = app f.develop a.develop := by
  rw [develop]
  exact hf

/-- What a parallel step has left uncontracted can be contracted afterwards. -/
theorem Parallel.develop {t u : Term} (h : Parallel t u) : Parallel u t.develop := by
  induction h with
  | var i => exact .var i
  | lam _ ih => exact .lam ih
  | @app f f' a a' hf _ ihf iha =>
    rcases f.eq_lam_or_forall_ne with ⟨b, rfl⟩ | hne
    · -- a redex that the step kept: its function is still an abstraction
      cases hf with
      | lam hb =>
        cases ihf with
        | lam hb' => exact .redex hb' iha
    · rw [develop_app hne]
      exact .app ihf iha
  | redex _ _ ihb iha => exact ihb.subst 0 iha

/-! ### Confluence -/

/-- **Confluence.**  Two reduction sequences from one term can be continued to a common
reduct. -/
theorem reduces_join {t u v : Term} (hu : ReflTransGen Beta t u) (hv : ReflTransGen Beta t v) :
    Join (ReflTransGen Beta) u v := by
  have diamond : ∀ a b c : Term, Parallel a b → Parallel a c →
      ∃ d, ReflGen Parallel b d ∧ ReflTransGen Parallel c d := by
    intro a b c hb hc
    exact ⟨a.develop, ReflGen.single hb.develop, ReflTransGen.single hc.develop⟩
  obtain ⟨w, huw, hvw⟩ := Relation.church_rosser diamond
    (reduces_iff_parallel.mp hu) (reduces_iff_parallel.mp hv)
  exact ⟨w, reduces_iff_parallel.mpr huw, reduces_iff_parallel.mpr hvw⟩

/-- Convertible terms have a common reduct. -/
theorem join_of_eqvGen {s t : Term} (h : EqvGen Beta s t) : Join (ReflTransGen Beta) s t := by
  induction h with
  | rel s t h => exact ⟨t, ReflTransGen.single h, ReflTransGen.refl⟩
  | refl s => exact ⟨s, ReflTransGen.refl, ReflTransGen.refl⟩
  | symm s t _ ih =>
    obtain ⟨w, hs, ht⟩ := ih
    exact ⟨w, ht, hs⟩
  | trans s t r _ _ ihl ihr =>
    obtain ⟨w, hsw, htw⟩ := ihl
    obtain ⟨z, htz, hrz⟩ := ihr
    -- the two common reducts both come from the term in the middle
    obtain ⟨y, hwy, hzy⟩ := reduces_join htw htz
    exact ⟨y, hsw.trans hwy, hrz.trans hzy⟩

theorem eqvGen_of_reduces {t u : Term} (h : ReflTransGen Beta t u) : EqvGen Beta t u := by
  induction h with
  | refl => exact EqvGen.refl t
  | tail _ hstep ih => exact EqvGen.trans _ _ _ ih (EqvGen.rel _ _ hstep)

/-- Convertible terms without a redex are equal. -/
theorem RedexFree.eq_of_eqvGen {m n : Term} (hm : RedexFree m) (hn : RedexFree n)
    (h : EqvGen Beta m n) : m = n := by
  obtain ⟨w, hmw, hnw⟩ := join_of_eqvGen h
  rw [← hm.eq_of_reduces hmw, hn.eq_of_reduces hnw]

/-- **Church–Rosser.**  Reduction sequences from one term can be joined again, and so
normalization gives convertible terms the same normal form, where it gives them one. -/
theorem beta_church_rosser :
    (∀ t u v : Term, ReflTransGen Beta t u → ReflTransGen Beta t v →
      ∃ w, ReflTransGen Beta u w ∧ ReflTransGen Beta v w) ∧
    (∀ (s t m n : Term) (fuel fuel' : Nat), EqvGen Beta s t →
      s.normalize fuel = some m → t.normalize fuel' = some n →
      RedexFree m → RedexFree n → m = n) := by
  refine ⟨fun t u v hu hv => reduces_join hu hv, ?_⟩
  intro s t m n fuel fuel' hst hs ht hm hn
  have hsm : EqvGen Beta s m := eqvGen_of_reduces (reduces_of_normalize hs)
  have htn : EqvGen Beta t n := eqvGen_of_reduces (reduces_of_normalize ht)
  exact hm.eq_of_eqvGen hn (((hsm.symm _ _).trans _ _ _ hst).trans _ _ _ htn)

/-- The argument of `(λ. 0 0) ((λ. 0) 7)` contracted before it is copied, and copied before
it is contracted: the two reducts meet, and have one normal form. -/
theorem beta_church_rosser_copied_redex :
    (∃ w, ReflTransGen Beta (app (app identity (var 7)) (app identity (var 7))) w ∧
      ReflTransGen Beta (app (lam (app (var 0) (var 0))) (var 7)) w) ∧
    EqvGen Beta (app (app identity (var 7)) (app identity (var 7)))
      (app (lam (app (var 0) (var 0))) (var 7)) ∧
    (app (app identity (var 7)) (app identity (var 7))).normalize 3
      = (app (lam (app (var 0) (var 0))) (var 7)).normalize 2 := by
  have hcopied : Beta (app (lam (app (var 0) (var 0))) (app identity (var 7)))
      (app (app identity (var 7)) (app identity (var 7))) := by
    have h := Beta.redex (app (var 0) (var 0)) (app identity (var 7))
    rwa [subst_app, subst_var_self] at h
  have hcontracted : Beta (app (lam (app (var 0) (var 0))) (app identity (var 7)))
      (app (lam (app (var 0) (var 0))) (var 7)) := by
    have h := (Beta.redex (var 0) (var 7)).argument (lam (app (var 0) (var 0)))
    rwa [subst_var_self] at h
  have hconv : EqvGen Beta (app (app identity (var 7)) (app identity (var 7)))
      (app (lam (app (var 0) (var 0))) (var 7)) :=
    .trans _ _ _ (.symm _ _ (.rel _ _ hcopied)) (.rel _ _ hcontracted)
  have hnormal : RedexFree (app (var 7) (var 7)) := redexFree_iff.mpr (by decide +kernel)
  refine ⟨beta_church_rosser.1 _ _ _ (.single hcopied) (.single hcontracted), hconv, ?_⟩
  have hl : (app (app identity (var 7)) (app identity (var 7))).normalize 3
      = some (app (var 7) (var 7)) := by decide +kernel
  have hr : (app (lam (app (var 0) (var 0))) (var 7)).normalize 2
      = some (app (var 7) (var 7)) := by decide +kernel
  have hsame := beta_church_rosser.2 _ _ _ _ 3 2 hconv hl hr hnormal hnormal
  exact hl.trans ((congrArg some hsame).trans hr.symm)

end Nameless.Term
