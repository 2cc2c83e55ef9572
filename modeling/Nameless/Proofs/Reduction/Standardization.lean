/-
Nameless/Proofs/Reduction/Standardization.lean

Normal order finds every normal form.  A reduction sequence may contract redexes in
any order, repeat work that copies make necessary and start work that is thrown away
later; `Standard t u` is a sequence from `t` to `u` put in order: weak head steps
until the outermost form of `u` is there, and then each part by itself.

* `Standard.beta` absorbs one more step of any kind at the end, so every reduction
  sequence can be put in order (`standard_of_reduces`).  The case of a redex
  (`Standard.contract`) rests on `Standard.subst`.
* Towards a term without a redex, a standard sequence is a run of the normal-order
  step (`Standard.normalSteps`): the head of an application is never an abstraction
  on the way, since it would stay one and the last term would have a redex.

Together: if `t` reduces to `n` in any order and `n` has no redex, the loop stops at
`n` and at nothing else (`normalize_complete`).
-/
import Nameless.Proofs.Reduction.Beta
import Nameless.Proofs.Term.Substitution

namespace Nameless.Term

open Relation (ReflTransGen)

/-! ### Weak head steps -/

/-- The redex in head position is contracted; nothing happens in arguments or under a
binder. -/
inductive WeakHead : Term → Term → Prop
  | redex (b a : Term) : WeakHead (app (lam b) a) (b.subst 0 a)
  | function {f f' : Term} (a : Term) : WeakHead f f' → WeakHead (app f a) (app f' a)

theorem WeakHead.shift {t u : Term} (h : WeakHead t u) (c k : Nat) :
    WeakHead (t.shift c k) (u.shift c k) := by
  induction h with
  | redex b a =>
    rw [shift_app, shift_lam, shift_subst_of_ge b k a (Nat.zero_le c)]
    exact .redex _ _
  | function a _ ih =>
    rw [shift_app, shift_app]
    exact .function _ ih

theorem WeakHead.subst {t u : Term} (h : WeakHead t u) (k : Nat) (r : Term) :
    WeakHead (t.subst k r) (u.subst k r) := by
  induction h with
  | redex b a =>
    rw [subst_app, subst_lam, subst_subst b a r (Nat.zero_le k)]
    exact .redex _ _
  | function a _ ih =>
    rw [subst_app, subst_app]
    exact .function _ ih

/-! ### Standard sequences -/

/-- A reduction sequence in standard order: weak head steps up to the outermost form of the
last term, and then standard sequences in its parts. -/
inductive Standard : Term → Term → Prop
  | var {t : Term} {i : Nat} : ReflTransGen WeakHead t (var i) → Standard t (var i)
  | lam {t b b' : Term} :
      ReflTransGen WeakHead t (lam b) → Standard b b' → Standard t (lam b')
  | app {t f f' a a' : Term} :
      ReflTransGen WeakHead t (app f a) → Standard f f' → Standard a a' →
      Standard t (app f' a')

theorem Standard.refl (t : Term) : Standard t t := by
  induction t with
  | var i => exact .var ReflTransGen.refl
  | lam b ih => exact .lam ReflTransGen.refl ih
  | app f a ihf iha => exact .app ReflTransGen.refl ihf iha

/-- Weak head steps may come before a standard sequence. -/
theorem Standard.head {t u v : Term} (htu : ReflTransGen WeakHead t u) (h : Standard u v) :
    Standard t v := by
  cases h with
  | var hu => exact .var (htu.trans hu)
  | lam hu hb => exact .lam (htu.trans hu) hb
  | app hu hf ha => exact .app (htu.trans hu) hf ha

theorem Standard.shift {t u : Term} (h : Standard t u) :
    ∀ c k : Nat, Standard (t.shift c k) (u.shift c k) := by
  have weakHead_shift : ∀ {s s' : Term}, ReflTransGen WeakHead s s' → ∀ c k : Nat,
      ReflTransGen WeakHead (s.shift c k) (s'.shift c k) := by
    intro s s' hs c k
    exact hs.lift (Term.shift c k) fun _ _ hstep => hstep.shift c k
  induction h with
  | var ht =>
    intro c k
    exact .head (weakHead_shift ht c k) (.refl _)
  | lam ht _ ih =>
    intro c k
    have hl := weakHead_shift ht c k
    rw [shift_lam] at hl ⊢
    exact .lam hl (ih (c + 1) k)
  | app ht _ _ ihf iha =>
    intro c k
    have hl := weakHead_shift ht c k
    rw [shift_app] at hl ⊢
    exact .app hl (ihf c k) (iha c k)

/-- Standard sequences in a term and in what is put into it make one. -/
theorem Standard.subst {t u : Term} (h : Standard t u) :
    ∀ {r s : Term} (k : Nat), Standard r s → Standard (t.subst k r) (u.subst k s) := by
  have weakHead_subst : ∀ {m m' : Term}, ReflTransGen WeakHead m m' → ∀ (k : Nat) (r : Term),
      ReflTransGen WeakHead (m.subst k r) (m'.subst k r) := by
    intro m m' hm k r
    exact hm.lift (fun x => x.subst k r) fun _ _ hstep => hstep.subst k r
  induction h with
  | @var t i ht =>
    intro r s k hrs
    refine .head (weakHead_subst ht k r) ?_
    rcases Nat.lt_trichotomy i k with hi | rfl | hi
    · rw [subst_var_of_lt hi, subst_var_of_lt hi]
      exact .refl _
    · rw [subst_var_self, subst_var_self]
      exact hrs
    · rw [subst_var_of_gt hi, subst_var_of_gt hi]
      exact .refl _
  | lam ht _ ih =>
    intro r s k hrs
    have hl := weakHead_subst ht k r
    rw [subst_lam] at hl ⊢
    exact .lam hl (ih (k + 1) (hrs.shift 0 1))
  | app ht _ _ ihf iha =>
    intro r s k hrs
    have hl := weakHead_subst ht k r
    rw [subst_app] at hl ⊢
    exact .app hl (ihf k hrs) (iha k hrs)

/-! ### Every reduction sequence can be put in order -/

/-- A redex at the end of a standard sequence was on its way a redex in head position, which
is contracted there instead. -/
theorem Standard.contract {t b a : Term} (h : Standard t (Term.app (Term.lam b) a)) :
    Standard t (b.subst 0 a) := by
  cases h with
  | @app _ f _ x _ ht hf ha =>
    cases hf with
    | @lam _ m _ hfm hmb =>
      -- `f` comes to `lam m` by weak head steps, so these are weak head steps of `app f x`
      have hhead : ReflTransGen WeakHead t (Term.app (Term.lam m) x) :=
        ht.trans (hfm.lift (fun g => Term.app g x) fun _ _ hstep => hstep.function x)
      exact .head (hhead.tail (.redex m x)) (hmb.subst 0 ha)

/-- A standard sequence absorbs a step after it, whichever redex the step contracts. -/
theorem Standard.beta {u v : Term} (h : Beta u v) : ∀ {t : Term}, Standard t u → Standard t v := by
  induction h using Beta.induction with
  | redex b a =>
    intro t ht
    exact ht.contract
  | body b b' _ ih =>
    intro t ht
    cases ht with
    | lam hl hb => exact .lam hl (ih hb)
  | function f f' a _ ih =>
    intro t ht
    cases ht with
    | app hl hf ha => exact .app hl (ih hf) ha
  | argument f a a' _ ih =>
    intro t ht
    cases ht with
    | app hl hf ha => exact .app hl hf (ih ha)

/-- **Standardization.** -/
theorem standard_of_reduces {t u : Term} (h : ReflTransGen Beta t u) : Standard t u := by
  induction h with
  | refl => exact .refl t
  | tail _ hstep ih => exact ih.beta hstep

/-! ### Runs of the normal-order step -/

/-- One step of the loop, on a term that has a redex. -/
def NormalStep (t u : Term) : Prop :=
  t.hasRedex = true ∧ t.step = u

theorem WeakHead.ne_lam {t u : Term} (h : WeakHead t u) (b : Term) : t ≠ lam b := by
  cases h <;> simp

/-- Normal order goes to the head first. -/
theorem WeakHead.normalStep {t u : Term} (h : WeakHead t u) : NormalStep t u := by
  induction h with
  | redex b a => exact ⟨hasRedex_redex b a, step_redex b a⟩
  | @function f f' a hf ih =>
    obtain ⟨hred, rfl⟩ := ih
    refine ⟨?_, step_app_of_hasRedex hf.ne_lam hred a⟩
    rw [hasRedex_app hf.ne_lam, hred, Bool.true_or]

theorem NormalStep.lam {b b' : Term} (h : NormalStep b b') : NormalStep (lam b) (lam b') := by
  obtain ⟨hred, rfl⟩ := h
  exact ⟨by rwa [hasRedex_lam], step_lam b⟩

theorem exists_lam_of_normalSteps {b u : Term} (h : ReflTransGen NormalStep (lam b) u) :
    ∃ b', u = lam b' := by
  induction h with
  | refl => exact ⟨b, rfl⟩
  | tail _ hstep ih =>
    obtain ⟨b', rfl⟩ := ih
    exact ⟨b'.step, by rw [← hstep.2, step_lam]⟩

/-- A run in the function of an application is a run of the application, if it does not end
in an abstraction: then it never passes through one. -/
theorem normalSteps_function {f f' : Term} (h : ReflTransGen NormalStep f f')
    (hf' : ∀ b, f' ≠ lam b) (a : Term) :
    ReflTransGen NormalStep (app f a) (app f' a) := by
  induction h using ReflTransGen.head_induction_on with
  | refl => exact ReflTransGen.refl
  | @head f g hstep hrest ih =>
    have hf : ∀ b, f ≠ lam b := by
      rintro b rfl
      -- an abstraction stays one to the end of the run
      obtain ⟨b', rfl⟩ := exists_lam_of_normalSteps (ReflTransGen.head hstep hrest)
      exact hf' b' rfl
    obtain ⟨hred, rfl⟩ := hstep
    refine ReflTransGen.head ⟨?_, step_app_of_hasRedex hf hred a⟩ ih
    rw [hasRedex_app hf, hred, Bool.true_or]

theorem normalSteps_argument {f : Term} (hf : ∀ b, f ≠ lam b) (hn : f.hasRedex = false)
    {a a' : Term} (h : ReflTransGen NormalStep a a') :
    ReflTransGen NormalStep (app f a) (app f a') := by
  refine h.lift (app f) fun x y hstep => ?_
  obtain ⟨hred, rfl⟩ := hstep
  refine ⟨?_, step_app_of_hasRedex_eq_false hf hn x⟩
  rw [hasRedex_app hf, hred, Bool.or_true]

/-- A standard sequence to a term without a redex is a run of the normal-order step. -/
theorem Standard.normalSteps {t n : Term} (h : Standard t n) (hn : n.hasRedex = false) :
    ReflTransGen NormalStep t n := by
  have weakHead_normalSteps : ∀ {s s' : Term}, ReflTransGen WeakHead s s' →
      ReflTransGen NormalStep s s' := by
    intro s s' hs
    exact ReflTransGen.mono (fun _ _ => WeakHead.normalStep) _ _ hs
  induction h with
  | var ht => exact weakHead_normalSteps ht
  | lam ht _ ih =>
    rw [hasRedex_lam] at hn
    exact (weakHead_normalSteps ht).trans ((ih hn).lift Term.lam fun _ _ => NormalStep.lam)
  | @app t f f' a a' ht _ _ ihf iha =>
    obtain ⟨hne, hf, ha⟩ := hasRedex_app_eq_false hn
    -- to the head, then in the function up to its normal form, and only then in the argument
    exact (weakHead_normalSteps ht).trans
      ((normalSteps_function (ihf hf) hne a).trans (normalSteps_argument hne hf (iha ha)))

theorem iterate_of_normalSteps {t u : Term} (h : ReflTransGen NormalStep t u) :
    ∃ k, step^[k] t = u := by
  induction h with
  | refl => exact ⟨0, rfl⟩
  | tail _ hstep ih =>
    obtain ⟨k, rfl⟩ := ih
    exact ⟨k + 1, by rw [Function.iterate_succ_apply', hstep.2]⟩

/-! ### The loop finds every normal form -/

/-- Every normal form is an iterate of the normal-order step. -/
theorem iterate_of_reduces {t n : Term} (h : ReflTransGen Beta t n) (hn : RedexFree n) :
    ∃ k, step^[k] t = n :=
  iterate_of_normalSteps ((standard_of_reduces h).normalSteps (redexFree_iff.mp hn))

/-- Two iterates that a step leaves as they are are the same term. -/
theorem iterate_fixpoint_unique {t u v : Term} {i j : Nat} (hi : step^[i] t = u)
    (hj : step^[j] t = v) (hu : u.step = u) (hv : v.step = v) : u = v := by
  rcases Nat.le_total i j with hij | hij
  · obtain ⟨d, rfl⟩ := Nat.exists_eq_add_of_le hij
    rw [Nat.add_comm, Function.iterate_add_apply, hi, Function.iterate_fixed hu] at hj
    exact hj
  · obtain ⟨d, rfl⟩ := Nat.exists_eq_add_of_le hij
    rw [Nat.add_comm, Function.iterate_add_apply, hj, Function.iterate_fixed hv] at hi
    exact hi.symm

/-- **Normal order is complete.**  If `t` reduces in any order to a term `n` without a redex,
then normalization of `t` returns `n`, after a definite number of steps and for every bound
above it, and no term on the way other than `n` is left as it is by a step. -/
theorem normalize_complete {t n : Term} (h : ReflTransGen Beta t n) (hn : RedexFree n) :
    (∃ m, ∀ fuel, t.normalize fuel = if m < fuel then some n else none) ∧
      ∀ k, (step^[k] t).step = step^[k] t → step^[k] t = n := by
  have hfix : n.step = n := step_of_hasRedex_eq_false (redexFree_iff.mp hn)
  obtain ⟨j, hj⟩ := iterate_of_reduces h hn
  refine ⟨normalize_of_iterate hfix hj, ?_⟩
  intro k hk
  exact iterate_fixpoint_unique rfl hj hk hfix

/-- `(λ.λ. 1) ((λ. 0) 3) Ω` reduced from the inside: first in `Ω`, which gets nowhere, then in
the argument that is kept.  Normal order throws `Ω` away and finds the same variable. -/
theorem normalize_complete_discarded_loop :
    ReflTransGen Beta (app (app constant (app identity (var 3))) omega) (var 3) ∧
      RedexFree (var 3) ∧
      (∃ m, ∀ fuel, (app (app constant (app identity (var 3))) omega).normalize fuel
        = if m < fuel then some (var 3) else none) ∧
      ∀ k, (step^[k] (app (app constant (app identity (var 3))) omega)).step
          = step^[k] (app (app constant (app identity (var 3))) omega) →
        step^[k] (app (app constant (app identity (var 3))) omega) = var 3 := by
  have hloop : Beta omega omega := by
    have h := Beta.redex (app (var 0) (var 0)) (lam (app (var 0) (var 0)))
    rwa [subst_app, subst_var_self] at h
  have harg : Beta (app identity (var 3)) (var 3) := by
    have h := Beta.redex (var 0) (var 3)
    rwa [subst_var_self] at h
  have hkeep : Beta (app constant (var 3)) (lam (var 4)) := by
    have h := Beta.redex (lam (var 1)) (var 3)
    rwa [subst_lam, subst_var_self, shift_var_of_le (Nat.zero_le 3)] at h
  have hdrop : Beta (app (lam (var 4)) omega) (var 3) := by
    have h := Beta.redex (var 4) omega
    rwa [subst_var_of_gt (by decide)] at h
  have hred : ReflTransGen Beta (app (app constant (app identity (var 3))) omega) (var 3) :=
    (((ReflTransGen.single (hloop.argument _)).tail
      ((harg.argument constant).function omega)).tail (hkeep.function omega)).tail hdrop
  have hfree : RedexFree (var 3) := redexFree_iff.mpr (hasRedex_var 3)
  exact ⟨hred, hfree, normalize_complete hred hfree⟩

end Nameless.Term
