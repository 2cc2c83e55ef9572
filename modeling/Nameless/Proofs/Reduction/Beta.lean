/-
Nameless/Proofs/Reduction/Beta.lean

β-reduction in any order.  `Beta t u` says that `u` is `t` with one occurrence of a
redex, at the end of any path into `t`, contracted; `RedexFree t` says that no
sub-term of `t` is a redex.  A reduction sequence is `ReflTransGen Beta`, and two
terms that a chain of steps forwards and backwards joins are related by
`Relation.EqvGen Beta`.

The definition speaks of paths, so a step in a sub-term is a step in the whole term
(`Beta.plug`) without any work.  Proofs about all steps go by `Beta.induction`: the
redex itself, and one case for each level of the path.  The kernel's own step is one
of these steps (`Beta.step`), and `hasRedex` decides `RedexFree`
(`redexFree_iff`).
-/
import Mathlib.Logic.Relation
import Nameless.Proofs.Reduction.NormalOrder

namespace Nameless.Term

open Relation (ReflTransGen)

/-- `u` is `t` with one redex, anywhere in it, contracted. -/
def Beta (t u : Term) : Prop :=
  ∃ (path : Path) (r : Redex), path.plug r.toTerm = t ∧ path.plug r.contract = u

/-- No sub-term is a redex. -/
def RedexFree (t : Term) : Prop :=
  ∀ (path : Path) (s : Term), path.plug s = t → s.isRedex = false

/-! ### Steps in sub-terms -/

theorem Beta.redex (b a : Term) : Beta (app (lam b) a) (b.subst 0 a) :=
  ⟨[], ⟨b, a⟩, rfl, rfl⟩

/-- A step in a sub-term is a step in the whole term. -/
theorem Beta.plug {t u : Term} (h : Beta t u) (outer : Path) :
    Beta (outer.plug t) (outer.plug u) := by
  obtain ⟨path, r, rfl, rfl⟩ := h
  exact ⟨path ++ outer, r, Path.plug_append path outer _, Path.plug_append path outer _⟩

theorem Beta.lam {b b' : Term} (h : Beta b b') : Beta (lam b) (lam b') :=
  h.plug [.body]

theorem Beta.function {f f' : Term} (h : Beta f f') (a : Term) : Beta (app f a) (app f' a) :=
  h.plug [.function a]

theorem Beta.argument {a a' : Term} (h : Beta a a') (f : Term) : Beta (app f a) (app f a') :=
  h.plug [.argument f]

/-- Induction over a step: what holds of every redex and its contractum, and passes each
level of a path, holds of every step. -/
@[elab_as_elim]
theorem Beta.induction {motive : ∀ t u : Term, Beta t u → Prop}
    (redex : ∀ b a, motive _ _ (Beta.redex b a))
    (body : ∀ b b' (h : Beta b b'), motive b b' h → motive _ _ h.lam)
    (function : ∀ f f' a (h : Beta f f'), motive f f' h → motive _ _ (h.function a))
    (argument : ∀ f a a' (h : Beta a a'), motive a a' h → motive _ _ (h.argument f))
    {t u : Term} (h : Beta t u) : motive t u h := by
  -- the path lists the innermost level first, so the step grows outwards along it
  have grow : ∀ (path : Path) {s s' : Term} (hs : Beta s s'), motive s s' hs →
      motive _ _ (hs.plug path) := by
    intro path
    induction path with
    | nil =>
      intro s s' hs hm
      exact hm
    | cons frame path ih =>
      intro s s' hs hm
      cases frame with
      | body => exact ih hs.lam (body s s' hs hm)
      | function a => exact ih (hs.function a) (function s s' a hs hm)
      | argument f => exact ih (hs.argument f) (argument f s s' hs hm)
  obtain ⟨path, r, rfl, rfl⟩ := h
  exact grow path (Beta.redex r.body r.argument) (redex r.body r.argument)

/-! ### Reduction sequences in sub-terms -/

section Reduces

variable {t u b b' f f' a a' : Term}

theorem reduces_lam (h : ReflTransGen Beta b b') : ReflTransGen Beta (lam b) (lam b') :=
  h.lift lam fun _ _ => Beta.lam

theorem reduces_app (hf : ReflTransGen Beta f f') (ha : ReflTransGen Beta a a') :
    ReflTransGen Beta (app f a) (app f' a') :=
  (hf.lift (fun g => app g a) fun _ _ hs => hs.function a).trans
    (ha.lift (app f') fun _ _ hs => hs.argument f')

end Reduces

/-! ### Terms without a redex -/

theorem exists_toTerm_of_isRedex {t : Term} (h : t.isRedex = true) :
    ∃ r : Redex, r.toTerm = t := by
  match t, h with
  | app (lam b) a, _ => exact ⟨⟨b, a⟩, rfl⟩

/-- A term of which some sub-term has a redex has one. -/
theorem hasRedex_plug (path : Path) :
    ∀ {t : Term}, t.hasRedex = true → (path.plug t).hasRedex = true := by
  induction path with
  | nil =>
    intro t h
    exact h
  | cons frame path ih =>
    intro t h
    apply ih
    cases frame with
    | body => rwa [Frame.wrap, hasRedex_lam]
    | function a =>
      rw [Frame.wrap]
      rcases t.eq_lam_or_forall_ne with ⟨b, rfl⟩ | ht
      · exact hasRedex_redex b a
      · rw [hasRedex_app ht, h, Bool.true_or]
    | argument f =>
      rw [Frame.wrap]
      rcases f.eq_lam_or_forall_ne with ⟨b, rfl⟩ | hf
      · exact hasRedex_redex b t
      · rw [hasRedex_app hf, h, Bool.or_true]

/-- The search for a redex decides whether there is one. -/
theorem redexFree_iff {t : Term} : RedexFree t ↔ t.hasRedex = false := by
  constructor
  · intro h
    rw [hasRedex_eq_false_iff]
    rcases ho : t.firstRedex? with - | o
    · rfl
    · -- what the search finds is a sub-term
      have hfalse : true = false := h o.path o.redex.toTerm (plug_of_firstRedex? ho)
      cases hfalse
  · rintro h path s rfl
    rcases hs : s.isRedex with - | -
    · rfl
    · obtain ⟨r, rfl⟩ := exists_toTerm_of_isRedex hs
      have htrue := hasRedex_plug path (hasRedex_redex r.body r.argument)
      exact absurd (htrue.symm.trans h) (by decide)

/-- No step leads out of a term without a redex. -/
theorem RedexFree.not_beta {t u : Term} (h : RedexFree t) : ¬ Beta t u := by
  rintro ⟨path, r, hr, -⟩
  have hfalse : true = false := h path r.toTerm hr
  cases hfalse

theorem RedexFree.eq_of_reduces {t u : Term} (h : RedexFree t) (hr : ReflTransGen Beta t u) :
    u = t := by
  rcases hr.cases_head with rfl | ⟨s, hs, -⟩
  · rfl
  · exact absurd hs h.not_beta

/-! ### The normal-order step among all steps -/

theorem Beta.step {t : Term} (h : t.hasRedex = true) : Beta t t.step := by
  obtain ⟨o, ho⟩ := Option.isSome_iff_exists.mp h
  exact ⟨o.path, o.redex, plug_of_firstRedex? ho, (step_of_firstRedex? ho).symm⟩

theorem reduces_step (t : Term) : ReflTransGen Beta t t.step := by
  rcases h : t.hasRedex with - | -
  · rw [step_of_hasRedex_eq_false h]
  · exact ReflTransGen.single (Beta.step h)

theorem reduces_iterate_step (t : Term) (k : Nat) : ReflTransGen Beta t (Term.step^[k] t) := by
  induction k generalizing t with
  | zero => exact ReflTransGen.refl
  | succ k ih => exact (reduces_step t).trans (ih t.step)

/-- What normalization returns is a reduct. -/
theorem reduces_of_normalize {fuel : Nat} {t n : Term} (h : t.normalize fuel = some n) :
    ReflTransGen Beta t n := by
  obtain ⟨k, rfl, -⟩ := iterate_of_normalize h
  exact reduces_iterate_step t k

end Nameless.Term
